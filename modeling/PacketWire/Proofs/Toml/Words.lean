import Mathlib.Data.List.TakeWhile
import PacketWire.Toml.Reader

/-!
# Words and keys

What stands for a number is no moment, float or truth value to the reader, and gives the number back
(`wordValue?_toString`). A key that needs no quotes is read as it stands, and so is a path of such
keys.
-/

namespace PacketWire.Toml

/-! ## Digits -/

theorem toNat_of_isDigit {c : Char} (h : c.isDigit = true) : 48 ≤ c.toNat ∧ c.toNat ≤ 57 :=
  Char.isDigit_iff_toNat.mp h

theorem hexDigit?_of_isDigit {c : Char} (h : c.isDigit = true) :
    hexDigit? c = some (c.toNat - 48) := by
  simp only [hexDigit?, if_pos (toNat_of_isDigit h)]

theorem not_mem_of_digits {cs : List Char} (h : ∀ c ∈ cs, c.isDigit = true) {c : Char}
    (hc : c.isDigit = false) : c ∉ cs :=
  fun hmem => absurd (h c hmem) (by rw [hc]; decide)

theorem digits?_cons {c : Char} (h : c.isDigit = true) (cs : List Char) (acc : Option Nat) :
    digits? 10 (c :: cs) acc = digits? 10 cs (some (10 * acc.getD 0 + (c.toNat - 48))) := by
  have hc := toNat_of_isDigit h
  rw [digits?]
  · simp only [hexDigit?_of_isDigit h]
    rw [if_pos (by omega), Nat.mul_comm]
  · rintro n d ds rfl
    exact absurd hc (by decide)

theorem digits?_some {cs : List Char} (h : ∀ c ∈ cs, c.isDigit = true) (n : Nat) :
    digits? 10 cs (some n) = some (Nat.ofDigitChars 10 cs n) := by
  induction cs generalizing n with
  | nil => rfl
  | cons c cs ih =>
    rw [List.forall_mem_cons] at h
    rw [digits?_cons h.1, ih h.2, Nat.ofDigitChars_cons]
    rfl

theorem digits?_none {cs : List Char} (h : ∀ c ∈ cs, c.isDigit = true) (hne : cs ≠ []) :
    digits? 10 cs none = some (Nat.ofDigitChars 10 cs 0) := by
  cases cs with
  | nil => exact absurd rfl hne
  | cons c cs =>
    rw [List.forall_mem_cons] at h
    rw [digits?_cons h.1, digits?_some h.2, Nat.ofDigitChars_cons]
    rfl

theorem digits_toDigits (n : Nat) : ∀ c ∈ Nat.toDigits 10 n, c.isDigit = true := fun _ =>
  Nat.isDigit_of_mem_toDigits (by decide) (by decide)

theorem eq_zero_of_head_toDigits {n : Nat} (h : (Nat.toDigits 10 n).head? = some '0') : n = 0 := by
  induction n using Nat.strongRecOn with
  | ind n ih =>
    by_cases hn : n < 10
    · rw [Nat.toDigits_of_lt_base hn] at h
      simpa using h
    · rw [Nat.toDigits_of_base_le (by decide) (by omega), List.head?_append,
        Option.or_of_isSome (by simp [List.isSome_head?])] at h
      have hdiv := ih (n / 10) (by omega) h
      omega

theorem decimal?_toDigits (n : Nat) : decimal? (Nat.toDigits 10 n) = some n := by
  have hdigits := digits?_none (digits_toDigits n) Nat.toDigits_ne_nil
  rw [Nat.ofDigitChars_ten_toDigits] at hdigits
  unfold decimal?
  split
  · rename_i heq
    have hzero : n = 0 := eq_zero_of_head_toDigits (by rw [heq]; rfl)
    rw [hzero, Nat.toDigits_zero] at heq
    cases heq
  · exact hdigits

theorem unsigned?_of_digits {cs : List Char} (h : ∀ c ∈ cs, c.isDigit = true) :
    unsigned? cs = decimal? cs := by
  unfold unsigned?
  split
  · exact absurd (h 'x' (by simp)) (by decide)
  · exact absurd (h 'o' (by simp)) (by decide)
  · exact absurd (h 'b' (by simp)) (by decide)
  · rfl

/-! ## Numbers -/

theorem fixedNumber_rest {n lo hi v : Nat} {cs rest : List Char}
    (h : fixedNumber n lo hi cs = some (v, rest)) : rest = cs.drop n := by
  simp only [fixedNumber] at h
  split at h
  · split at h
    · exact (congrArg Prod.snd (Option.some.inj h)).symm
    · cases h
  · cases h

theorem mem_of_literal? {c : Char} {cs rest : List Char} (h : literal? c cs = some rest) :
    c ∈ cs := by
  cases cs with
  | nil => cases h
  | cons d cs =>
    simp only [literal?] at h
    split at h
    · rename_i heq
      exact heq ▸ List.mem_cons_self
    · cases h

theorem date?_eq_none {cs : List Char} (h : '-' ∉ cs.tail) : date? cs = none := by
  rw [Option.eq_none_iff_forall_ne_some]
  intro rest hdate
  simp only [date?, Option.bind_eq_bind, Option.bind_eq_some_iff] at hdate
  obtain ⟨⟨year, cs'⟩, hyear, cs'', hdash, -⟩ := hdate
  rw [fixedNumber_rest hyear] at hdash
  have hmem := mem_of_literal? hdash
  rw [show 4 = 1 + 3 from rfl, ← List.drop_drop, List.drop_one] at hmem
  exact h (List.mem_of_mem_drop hmem)

theorem time?_eq_none {cs : List Char} (h : ':' ∉ cs) : time? cs = none := by
  rw [Option.eq_none_iff_forall_ne_some]
  intro rest htime
  simp only [time?, Option.bind_eq_bind, Option.bind_eq_some_iff] at htime
  obtain ⟨⟨hour, cs'⟩, hhour, cs'', hcolon, -⟩ := htime
  rw [fixedNumber_rest hhour] at hcolon
  exact h (List.mem_of_mem_drop (mem_of_literal? hcolon))

def Numeric (w : List Char) : Prop := ∀ c ∈ w, c = '-' ∨ c.isDigit = true

theorem Numeric.not_mem {w : List Char} (h : Numeric w) {c : Char} (hsign : c ≠ '-')
    (hc : c.isDigit = false) : c ∉ w :=
  fun hmem => (h c hmem).elim hsign fun hdigit => by rw [hdigit] at hc; cases hc

theorem Numeric.scientific? {w : List Char} (h : Numeric w) : scientific? w = none := by
  have hmark : ∀ c ∈ w, (!isExponentMark c) = true := fun c hc => by
    have he : c ≠ 'e' := fun heq => h.not_mem (by decide) (by decide) (heq ▸ hc)
    have hE : c ≠ 'E' := fun heq => h.not_mem (by decide) (by decide) (heq ▸ hc)
    simp [isExponentMark, he, hE]
  have hpoint : ∀ c ∈ w, (c != '.') = true := fun c hc => by
    have hne : c ≠ '.' := fun heq => h.not_mem (by decide) (by decide) (heq ▸ hc)
    simp [hne]
  simp only [Toml.scientific?, List.takeWhile_eq_self_iff.mpr hmark,
    List.dropWhile_eq_nil_iff.mpr hmark, List.dropWhile_eq_nil_iff.mpr hpoint]
  cases decimal? (w.takeWhile (· != '.')) <;> rfl

theorem Numeric.not_isSpecialFloat {w : List Char} (h : Numeric w) : isSpecialFloat w = false := by
  rw [isSpecialFloat, Bool.or_eq_false_iff, beq_eq_false_iff_ne, beq_eq_false_iff_ne]
  have hn : 'n' ∉ w := h.not_mem (by decide) (by decide)
  constructor <;> rintro rfl <;> exact hn (by decide)

theorem Numeric.not_isFloat {w : List Char} (h : Numeric w) : isFloat w = false := by
  unfold isFloat
  dsimp only
  split
  · rename_i w
    have htail : Numeric w := fun c hc => h c (.tail _ hc)
    rw [htail.not_isSpecialFloat, htail.scientific?]
    rfl
  · exact absurd List.mem_cons_self (h.not_mem (by decide) (by decide))
  · rw [h.not_isSpecialFloat, h.scientific?]
    rfl

/-- Digits, behind a sign or not, are nothing but a number. -/
theorem wordValue?_of_digits {w : List Char} (h : Numeric w)
    (htail : ∀ c ∈ w.tail, c.isDigit = true) : wordValue? w = (integer? w).map .integer := by
  have hmoment : isMoment w = false := by
    rw [isMoment, date?_eq_none (not_mem_of_digits htail rfl),
      time?_eq_none (h.not_mem (by decide) rfl)]
    rfl
  have hletter {text : String} {c : Char} (hmem : c ∈ text.toList) (hsign : c ≠ '-')
      (hc : c.isDigit = false) : String.ofList w ≠ text := by
    rintro rfl
    rw [String.toList_ofList] at hmem
    exact h.not_mem hsign hc hmem
  unfold wordValue?
  split
  · exact absurd ‹_› (hletter (c := 'e') (by decide) (by decide) (by decide))
  · exact absurd ‹_› (hletter (c := 'e') (by decide) (by decide) (by decide))
  · rw [hmoment, h.not_isFloat]
    rfl

theorem numeric_toString (n : Int) :
    Numeric (toString n).toList ∧ ∀ c ∈ (toString n).toList.tail, c.isDigit = true := by
  rw [Int.toString_eq_repr, Int.repr_eq_if]
  split
  · have hdigits := digits_toDigits n.toNat
    rw [Nat.toList_repr]
    exact ⟨fun c hc => .inr (hdigits c hc), fun c hc => hdigits c (List.mem_of_mem_tail hc)⟩
  · have hdigits := digits_toDigits (-n).toNat
    rw [String.toList_append, Nat.toList_repr]
    exact ⟨fun c hc => (List.mem_cons.mp hc).imp id (hdigits c), hdigits⟩

theorem integer?_toString {n : Int} (h : inRange n = some n) :
    integer? (toString n).toList = some n := by
  rw [Int.toString_eq_repr, Int.repr_eq_if]
  split
  · have hdigits := digits_toDigits n.toNat
    rw [Nat.toList_repr]
    unfold integer?
    split
    · exact absurd (hdigits '+' (by simp [*])) (by decide)
    · exact absurd (hdigits '-' (by simp [*])) (by decide)
    · rw [unsigned?_of_digits hdigits, decimal?_toDigits, Option.bind_some,
        Int.toNat_of_nonneg ‹_›, h]
  · rw [String.toList_append, Nat.toList_repr]
    change (decimal? (Nat.toDigits 10 (-n).toNat)).bind _ = _
    rw [decimal?_toDigits, Option.bind_some, Int.toNat_of_nonneg (by omega), Int.neg_neg, h]

theorem wordValue?_toString {n : Int} (h : inRange n = some n) :
    wordValue? (toString n).toList = some (.integer n) := by
  obtain ⟨hnumeric, htail⟩ := numeric_toString n
  rw [wordValue?_of_digits hnumeric htail, integer?_toString h, Option.map_some]

/-- A word goes on as far as its characters do. A line that ends brings no time of day along. -/
theorem word_append {w : List Char} (h : ∀ c ∈ w, isWordChar c = true) (rest : List Char) :
    word (w ++ '\n' :: rest) = (w, '\n' :: rest) := by
  have htake : (w ++ '\n' :: rest).takeWhile isWordChar = w := by
    rw [List.takeWhile_append_of_pos h]
    simp [isWordChar]
  have hdrop : (w ++ '\n' :: rest).dropWhile isWordChar = '\n' :: rest := by
    rw [List.dropWhile_append_of_pos h]
    simp [isWordChar]
  unfold word
  rw [htake, hdrop]
  dsimp only
  split
  · rename_i heq
    cases heq
  · rfl

theorem Numeric.isWordChar {w : List Char} (h : Numeric w) : ∀ c ∈ w, isWordChar c = true := by
  intro c hc
  rcases h c hc with rfl | hdigit
  · rfl
  · simp [Toml.isWordChar, Char.isAlphanum, hdigit]

/-! ## Keys -/

/-- Whether a key needs no quotes. -/
def Bare (key : String) : Prop := key.toList ≠ [] ∧ ∀ c ∈ key.toList, isBareKey c = true

instance (key : String) : Decidable (Bare key) :=
  decidable_of_iff (key.toList ≠ [] ∧ key.toList.all isBareKey) (by simp [Bare])

theorem Bare.head {key : String} (h : Bare key) :
    ∃ c cs, key.toList = c :: cs ∧ isBareKey c = true := by
  obtain ⟨c, cs, heq⟩ := List.exists_cons_of_ne_nil h.1
  exact ⟨c, cs, heq, h.2 c (heq ▸ List.mem_cons_self)⟩

theorem skipBlanks_cons {c : Char} (h : isBlank c = false) (cs : List Char) :
    skipBlanks (c :: cs) = c :: cs := by
  rw [skipBlanks, List.dropWhile_cons, if_neg (by simp [h])]

theorem not_isBlank_of_isBareKey {c : Char} (h : isBareKey c = true) : isBlank c = false := by
  rw [isBlank, Bool.or_eq_false_iff, beq_eq_false_iff_ne, beq_eq_false_iff_ne]
  constructor <;> rintro rfl <;> exact absurd h (by decide)

theorem simpleKey?_append {key : String} (h : Bare key) {c : Char} (hc : isBareKey c = false)
    (rest : List Char) : simpleKey? (key.toList ++ c :: rest) = some (key, c :: rest) := by
  have htake : (key.toList ++ c :: rest).takeWhile isBareKey = key.toList := by
    rw [List.takeWhile_append_of_pos h.2]
    simp [hc]
  have hdrop : (key.toList ++ c :: rest).dropWhile isBareKey = c :: rest := by
    rw [List.dropWhile_append_of_pos h.2]
    simp [hc]
  obtain ⟨d, ds, hkey, hd⟩ := h.head
  unfold simpleKey?
  split
  · rename_i heq
    rw [hkey] at heq
    exact absurd ((List.cons.inj heq).1 ▸ hd) (by decide)
  · rename_i heq
    rw [hkey] at heq
    exact absurd ((List.cons.inj heq).1 ▸ hd) (by decide)
  · rw [htake, hdrop, hkey]
    dsimp only
    rw [← hkey, String.ofList_toList]

theorem dottedKey?_last {key : String} (h : Bare key) {c : Char} (hc : isBareKey c = false)
    {rest rest' : List Char} (hrest : skipBlanks (c :: rest) = rest')
    (hpoint : rest'.head? ≠ some '.') (fuel : Nat) :
    dottedKey? (fuel + 1) (key.toList ++ c :: rest) = some ([key], rest') := by
  obtain ⟨d, ds, hkey, hd⟩ := h.head
  have hskip : skipBlanks (key.toList ++ c :: rest) = key.toList ++ c :: rest := by
    rw [hkey]
    exact skipBlanks_cons (not_isBlank_of_isBareKey hd) _
  simp only [dottedKey?, hskip, simpleKey?_append h hc, hrest, Option.bind_eq_bind,
    Option.bind_some]
  split
  · exact absurd rfl hpoint
  · rfl

theorem dottedKey?_cons {key : String} (h : Bare key) {rest rest' : List Char}
    {path : List String} {fuel : Nat} (hpath : dottedKey? fuel rest = some (path, rest')) :
    dottedKey? (fuel + 1) (key.toList ++ '.' :: rest) = some (key :: path, rest') := by
  obtain ⟨d, ds, hkey, hd⟩ := h.head
  have hskip : skipBlanks (key.toList ++ '.' :: rest) = key.toList ++ '.' :: rest := by
    rw [hkey]
    exact skipBlanks_cons (not_isBlank_of_isBareKey hd) _
  simp only [dottedKey?, hskip, simpleKey?_append h (c := '.') (by decide), Option.bind_eq_bind,
    Option.bind_some, skipBlanks_cons (c := '.') (by decide), hpath]
  rfl

theorem key?_path {path : List String} (hne : path ≠ []) (h : ∀ key ∈ path, Bare key)
    (hlength : path.length ≤ maxKeyParts) (rest : List Char) :
    key? ((".".intercalate path).toList ++ ']' :: rest) = some (path, ']' :: rest) := by
  rw [String.toList_intercalate, key?]
  change dottedKey? maxKeyParts (['.'].intercalate _ ++ _) = _
  generalize maxKeyParts = fuel at hlength
  induction path generalizing fuel with
  | nil => exact absurd rfl hne
  | cons key path ih =>
    rw [List.forall_mem_cons] at h
    rw [List.length_cons] at hlength
    obtain ⟨fuel, rfl⟩ := Nat.exists_eq_add_one_of_ne_zero (show fuel ≠ 0 by omega)
    cases path with
    | nil =>
      have hbracket : skipBlanks (']' :: rest) = ']' :: rest := skipBlanks_cons (by decide) rest
      rw [List.map_singleton, List.intercalate_singleton]
      exact dottedKey?_last h.1 (by decide) hbracket (fun heq => by cases heq) fuel
    | cons key' path =>
      have hpath := ih (by simp) h.2 fuel (by omega)
      have hcons := dottedKey?_cons h.1 hpath
      rw [List.map_cons, List.map_cons, List.intercalate_cons_cons, ← List.map_cons,
        List.append_assoc, List.append_assoc]
      exact hcons

end PacketWire.Toml

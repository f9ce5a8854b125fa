import PacketWire.Toml.Printer
import PacketWire.Proofs.Toml.Strings
import PacketWire.Proofs.Toml.Building

/-!
# Documents that are written and read

A tidy document is read as what was written (`document?_render`). Its text is read line by line:
`Spans` says which statements a part of it brings, whatever comes behind it, so that parts are put
together one behind the other.
-/

namespace PacketWire.Toml

/-! ## Plain values -/

theorem quote_of_string? {cs rest : List Char} {text : String}
    (h : string? cs = some (text, rest)) : ∃ cs', cs = '"' :: cs' ∨ cs = '\'' :: cs' := by
  unfold string? shortString? at h
  split at h
  · exact ⟨_, .inl rfl⟩
  · exact ⟨_, .inr rfl⟩
  · split at h
    · exact ⟨_, .inl rfl⟩
    · exact ⟨_, .inr rfl⟩
    · cases h

theorem value?_of_string? {cs rest : List Char} {text : String}
    (h : string? cs = some (text, rest)) (fuel depth : Nat) :
    skipBlanks cs = cs ∧ value? (fuel + 1) depth cs = some (.string text, rest) := by
  obtain ⟨cs, rfl | rfl⟩ := quote_of_string? h <;>
    exact ⟨rfl, by simp only [value?, h, Option.map_some]⟩

theorem value?_of_word {w : List Char} (hchars : ∀ c ∈ w, isWordChar c = true) {v : Value}
    (h : wordValue? w = some v) (rest : List Char) (fuel depth : Nat) :
    skipBlanks (w ++ '\n' :: rest) = w ++ '\n' :: rest ∧
      value? (fuel + 1) depth (w ++ '\n' :: rest) = some (v, '\n' :: rest) := by
  cases w with
  | nil => cases h
  | cons c w =>
    have hc := hchars c List.mem_cons_self
    have hblank : isBlank c = false := by
      rw [isBlank, Bool.or_eq_false_iff, beq_eq_false_iff_ne, beq_eq_false_iff_ne]
      constructor <;> rintro rfl <;> exact absurd hc (by decide)
    refine ⟨skipBlanks_cons hblank _, ?_⟩
    have hword := word_append hchars rest
    rw [List.cons_append] at hword ⊢
    have hopens {d : Char} (hd : isWordChar d = false) (cs : List Char) :
        c :: (w ++ '\n' :: rest) = d :: cs → False :=
      fun heq => absurd ((List.cons.inj heq).1 ▸ hc) (by simp [hd])
    rw [value?]
    · simp only [hword, h, Option.map_some]
    · exact hopens (by decide)
    · exact hopens (by decide)
    · exact hopens (by decide)
    · exact hopens (by decide)

theorem value?_inline {depth : Nat} {v : Value} (h : Tidy depth v) (hplain : v.isTable = false)
    (rest : List Char) (fuel n : Nat) :
    skipBlanks ((inline v).toList ++ '\n' :: rest) = (inline v).toList ++ '\n' :: rest ∧
      value? (fuel + 1) n ((inline v).toList ++ '\n' :: rest) = some (v, '\n' :: rest) := by
  cases h with
  | string depth text =>
    exact value?_of_string? (string?_quoted text (by simp) (by simp)) fuel n
  | integer depth fits =>
    exact value?_of_word (numeric_toString _).1.isWordChar (wordValue?_toString fits) rest fuel n
  | boolean depth b =>
    cases b <;> exact value?_of_word (List.all_eq_true.mp (by decide)) rfl rest fuel n
  | table => cases hplain

/-! ## Statements -/

def begins (c : Char) : Bool := isBareKey c || c == '['

theorem statement?_pair {key : String} (hkey : Bare key) {depth : Nat} {v : Value}
    (h : Tidy depth v) (hplain : v.isTable = false) (rest : List Char) :
    statement? (key.toList ++ ' ' :: '=' :: ' ' :: ((inline v).toList ++ '\n' :: rest)) =
      some (.pair [key] v, '\n' :: rest) := by
  obtain ⟨c, cs, hc, hbare⟩ := hkey.head
  have hequals : skipBlanks (' ' :: '=' :: ' ' :: ((inline v).toList ++ '\n' :: rest)) =
      '=' :: ' ' :: ((inline v).toList ++ '\n' :: rest) := rfl
  have hkey? := dottedKey?_last hkey (c := ' ') (by decide) hequals (fun heq => by cases heq) 78
  have hvalue (fuel : Nat) := value?_inline h hplain rest fuel maxDepth
  have hblank : skipBlanks (' ' :: ((inline v).toList ++ '\n' :: rest)) =
      (inline v).toList ++ '\n' :: rest := (hvalue 0).1
  unfold statement?
  split
  · rename_i heq
    rw [hc] at heq
    exact absurd ((List.cons.inj heq).1 ▸ hbare) (by decide)
  · rename_i heq
    rw [hc] at heq
    exact absurd ((List.cons.inj heq).1 ▸ hbare) (by decide)
  · simp only [key?, maxKeyParts, hkey?, Option.bind_eq_bind, Option.bind_some, literal?,
      if_true, hblank, (hvalue _).2]
    rfl

theorem statement?_header {path : List String} (hne : path ≠ []) (h : ∀ key ∈ path, Bare key)
    (hlength : path.length ≤ maxKeyParts) (rest : List Char) :
    statement? ('[' :: ((".".intercalate path).toList ++ ']' :: '\n' :: rest)) =
      some (.table path, '\n' :: rest) := by
  have hkey := key?_path hne h hlength ('\n' :: rest)
  have hheader : header? "]".toList ((".".intercalate path).toList ++ ']' :: '\n' :: rest) =
      some (path, '\n' :: rest) := by
    simp only [header?, hkey, Option.bind_eq_bind, Option.bind_some]
    rfl
  unfold statement?
  split
  · rename_i cs heq
    have hnone : key? ('[' :: cs) = none := rfl
    rw [(List.cons.inj heq).2, hnone] at hkey
    cases hkey
  · rename_i heq
    rw [← (List.cons.inj heq).2, hheader]
    rfl
  · rename_i hopens
    exact (hopens _ rfl).elim

/-- The statements of a text, after any others. -/
def Reads (cs : List Char) (ss : List Statement) : Prop :=
  ∀ fuel acc, cs.length < fuel → statementsFrom fuel cs acc = some (acc.reverse ++ ss)

/-- What a part of a text brings, whatever comes behind it. -/
def Spans (t : List Char) (ss : List Statement) : Prop :=
  ∀ rest ss', Reads rest ss' → Reads (t ++ rest) (ss ++ ss')

theorem reads_nil : Reads [] [] := by
  intro fuel acc hfuel
  obtain ⟨fuel, rfl⟩ := Nat.exists_eq_add_one_of_ne_zero (Nat.ne_of_gt hfuel)
  rw [List.append_nil]
  rfl

theorem reads_newline {cs : List Char} {ss : List Statement} :
    Reads ('\n' :: cs) ss ↔ Reads cs ss := by
  have hstep (fuel : Nat) (acc : List Statement) :
      statementsFrom (fuel + 1) ('\n' :: cs) acc = statementsFrom fuel cs acc := rfl
  constructor
  · intro h fuel acc hfuel
    rw [← hstep]
    exact h (fuel + 1) acc (Nat.succ_lt_succ hfuel)
  · intro h fuel acc hfuel
    obtain ⟨fuel, rfl⟩ := Nat.exists_eq_add_one_of_ne_zero (Nat.ne_of_gt (Nat.zero_lt_of_lt hfuel))
    rw [hstep]
    exact h fuel acc (Nat.lt_of_succ_lt_succ hfuel)

theorem Reads.ne_mark {cs : List Char} {ss : List Statement} (h : Reads ('\ufeff' :: cs) ss) :
    False := by
  have hnone : statementsFrom (cs.length + 2) ('\ufeff' :: cs) [] = none := rfl
  have hread := h (cs.length + 2) [] (by simp)
  rw [hnone] at hread
  cases hread

theorem spans_nil : Spans [] [] := fun _ _ h => h

theorem Spans.append {t t' : List Char} {ss ss' : List Statement} (h : Spans t ss)
    (h' : Spans t' ss') : Spans (t ++ t') (ss ++ ss') := by
  intro rest ss'' hrest
  rw [List.append_assoc, List.append_assoc]
  exact h _ _ (h' _ _ hrest)

theorem Spans.flatMap {α : Type} {l : List α} {f : α → List Char} {g : α → List Statement}
    (h : ∀ a ∈ l, Spans (f a) (g a)) : Spans (l.flatMap f) (l.flatMap g) := by
  induction l with
  | nil => exact spans_nil
  | cons a l ih =>
    rw [List.forall_mem_cons] at h
    exact h.1.append (ih h.2)

theorem statementsFrom_of_begins {c : Char} (hc : begins c = true) (cs : List Char) (fuel : Nat)
    (acc : List Statement) :
    statementsFrom (fuel + 1) (c :: cs) acc =
      (statement? (c :: cs)).bind fun x =>
        (lineEnd? x.2).bind fun cs => statementsFrom fuel cs (x.1 :: acc) := by
  have hne {d : Char} (hd : begins d = false) : c ≠ d := by
    rintro rfl
    rw [hc] at hd
    cases hd
  have hblank : isBlank c = false := by
    rw [isBlank, Bool.or_eq_false_iff, beq_eq_false_iff_ne, beq_eq_false_iff_ne]
    exact ⟨hne (by decide), hne (by decide)⟩
  rw [statementsFrom, skipBlanks_cons hblank]
  split
  · rename_i heq
    cases heq
  · rename_i heq
    exact absurd (List.cons.inj heq).1 (hne (by decide))
  · rw [newline?_cons (hne (by decide)) (hne (by decide))]
    rfl

theorem spans_line {c : Char} (hc : begins c = true) (cs : List Char) {s : Statement}
    (h : ∀ rest, statement? (c :: (cs ++ '\n' :: rest)) = some (s, '\n' :: rest)) :
    Spans (c :: (cs ++ ['\n'])) [s] := by
  intro rest ss hrest fuel acc hfuel
  obtain ⟨fuel, rfl⟩ := Nat.exists_eq_add_one_of_ne_zero (Nat.ne_of_gt (Nat.zero_lt_of_lt hfuel))
  have hend : lineEnd? ('\n' :: rest) = some rest := rfl
  have hlength : rest.length < fuel := by
    simp only [List.length_append, List.length_cons] at hfuel
    omega
  rw [List.cons_append, List.append_assoc, List.singleton_append, statementsFrom_of_begins hc, h,
    Option.bind_some, hend, Option.bind_some, hrest fuel (s :: acc) hlength, List.reverse_cons,
    List.append_assoc]

/-! ## Parts of a document -/

def plainLine (e : String × Value) : List Char :=
  e.1.toList ++ " = ".toList ++ (inline e.2).toList ++ ['\n']

theorem toList_plainLines (es : List (String × Value)) :
    (plainLines es).toList = (es.filter fun e => !e.2.isTable).flatMap plainLine := by
  have hjoin : ∀ texts : List (List Char), [].intercalate texts = texts.flatten := by
    intro texts
    induction texts with
    | nil => rfl
    | cons t texts ih => cases texts <;> simp_all
  rw [plainLines, String.toList_intercalate, String.toList_empty, hjoin]
  induction es with
  | nil => rfl
  | cons e es ih =>
    obtain ⟨key, v⟩ := e
    cases v with
    | table => exact ih
    | _ =>
      rw [List.filter_cons_of_pos rfl, List.flatMap_cons, ← ih]
      simp only [List.filterMap_cons, List.map_cons, List.flatten_cons, plainLine,
        String.toList_append]
      rfl

theorem spans_plainLine {e : String × Value} (hkey : Bare e.1) {depth : Nat} (h : Tidy depth e.2)
    (hplain : e.2.isTable = false) : Spans (plainLine e) [.ofPair ([e.1], e.2)] := by
  obtain ⟨c, cs, hc, hbare⟩ := hkey.head
  have hpair := statement?_pair hkey h hplain
  rw [hc] at hpair
  have hspans := spans_line (c := c) (by simp [begins, hbare])
    (cs ++ " = ".toList ++ (inline e.2).toList) fun rest => by
      rw [List.append_assoc, List.append_assoc]
      exact hpair rest
  rwa [← List.cons_append, ← List.cons_append, ← List.cons_append, ← hc] at hspans

theorem spans_plainLines {depth : Nat} {es : List (String × Value)} (bare : ∀ e ∈ es, Bare e.1)
    (values : ∀ e ∈ es, Tidy depth e.2) :
    Spans (plainLines es).toList ((plainPairs es).map Statement.ofPair) := by
  rw [toList_plainLines, plainPairs, List.map_map, ← List.flatMap_singleton' (List.map _ _),
    List.flatMap_map]
  refine Spans.flatMap fun e he => ?_
  obtain ⟨hmem, hplain⟩ := List.mem_filter.mp he
  exact spans_plainLine (bare e hmem) (values e hmem) (by simpa using hplain)

/-- A part of a document behind an empty line. -/
def apart (text : String) : List Char := '\n' :: text.toList

theorem innerTexts_eq (path : List String) (es : List (String × Value)) :
    innerTexts path es = es.flatMap fun e => tableTexts (path ++ [e.1]) e.2 := by
  induction es with
  | nil => rfl
  | cons e es ih => rw [innerTexts, ih, List.flatMap_cons]

theorem spans_newline : Spans ['\n'] [] := fun _ _ h => reads_newline.mpr h

theorem spans_tableTexts {depth : Nat} {v : Value} (h : Tidy depth v) {path : List String}
    (hne : path ≠ []) (hpath : ∀ key ∈ path, Bare key)
    (hlength : path.length + depth ≤ maxKeyParts + 1) :
    Spans ((tableTexts path v).flatMap apart) ((tableBlocks path v).flatMap Block.statements) := by
  induction h generalizing path with
  | string | integer | boolean => exact spans_nil
  | @table depth es bare distinct order values ih =>
    rw [tableTexts, tableBlocks, List.flatMap_cons, List.flatMap_cons, innerTexts_eq,
      innerBlocks_eq, List.flatMap_assoc, List.flatMap_assoc]
    refine Spans.append ?_ (Spans.flatMap fun e he => ?_)
    · have hheader := spans_line (c := '[') (by decide) ((".".intercalate path).toList ++ [']'])
        fun rest => by
          rw [List.append_assoc]
          exact statement?_header hne hpath (by omega) rest
      have hall := spans_newline.append (hheader.append (spans_plainLines bare values))
      have htext : apart ("[" ++ ".".intercalate path ++ "]\n" ++ plainLines es) =
          ['\n'] ++ ('[' :: ((".".intercalate path).toList ++ [']'] ++ ['\n']) ++
            (plainLines es).toList) := by
        simp [apart]
      rw [htext]
      exact hall
    · refine ih e he (by simp) (fun key hkey => ?_) (by simp; omega)
      rcases List.mem_append.mp hkey with hkey | hkey
      · exact hpath key hkey
      · exact List.mem_singleton.mp hkey ▸ bare e he

/-! ## Documents -/

theorem toList_joined (text : String) (texts : List String) :
    ("\n".intercalate (text :: texts)).toList = text.toList ++ texts.flatMap apart := by
  induction texts generalizing text with
  | nil => simp
  | cons next texts ih =>
    rw [String.intercalate_cons_cons, String.toList_append, String.toList_append, ih,
      List.flatMap_cons, apart, List.append_assoc]
    rfl

theorem plainPairs_of_empty {es : List (String × Value)} (h : (plainLines es).isEmpty = true) :
    plainPairs es = [] := by
  have hempty : (plainLines es).toList = [] := by
    rw [String.isEmpty_iff.mp h, String.toList_empty]
  rw [toList_plainLines, List.flatMap_eq_nil_iff] at hempty
  rw [plainPairs, List.map_eq_nil_iff, List.eq_nil_iff_forall_not_mem]
  exact fun e he => by simpa [plainLine] using hempty e he

theorem reads_render {es : List (String × Value)} (h : Tidy (maxKeyParts + 1) (.table es)) :
    Reads (render es).toList (statementsOf es) := by
  cases h with
  | table bare distinct order values =>
    have htexts : Spans ((innerTexts [] es).flatMap apart)
        ((innerBlocks [] es).flatMap Block.statements) := by
      rw [innerTexts_eq, innerBlocks_eq, List.flatMap_assoc, List.flatMap_assoc]
      refine Spans.flatMap fun e he => spans_tableTexts (values e he) (by simp) ?_ ?_
      · exact fun key hkey => List.mem_singleton.mp hkey ▸ bare e he
      · simp only [List.nil_append, List.length_singleton]
        omega
    have hparts : Spans
        ((if (plainLines es).isEmpty then innerTexts [] es
          else plainLines es :: innerTexts [] es).flatMap apart) (statementsOf es) := by
      split
      · rename_i hempty
        rw [statementsOf, plainPairs_of_empty hempty]
        exact htexts
      · exact spans_newline.append ((spans_plainLines bare values).append htexts)
    have hreads := hparts [] [] reads_nil
    rw [List.append_nil, List.append_nil] at hreads
    rw [render]
    generalize (if (plainLines es).isEmpty then innerTexts [] es
      else plainLines es :: innerTexts [] es) = parts at hreads
    cases parts with
    | nil => exact hreads
    | cons text texts =>
      rw [toList_joined]
      exact reads_newline.mp hreads

/-- A tidy document is read as what was written. -/
theorem document?_render {es : List (String × Value)} (h : Tidy (maxKeyParts + 1) (.table es)) :
    document? (render es) = some es := by
  have hreads := reads_render h
  have hstatements : statements? (render es) = some (statementsOf es) := by
    generalize statementsOf es = ss at hreads
    unfold statements?
    dsimp only
    split
    · rename_i heq
      rw [heq] at hreads
      exact hreads.ne_mark.elim
    · exact hreads _ [] (Nat.lt_succ_self _)
  rw [document?, hstatements]
  exact build?_statementsOf h

end PacketWire.Toml

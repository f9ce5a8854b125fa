import PacketWire.Toml.Lexeme
import PacketWire.Toml.Printer

/-!
# Texts in quotes

Whatever is in a text, what `quoted` writes is read back by `string?`, if no quote comes behind it
(`string?_quoted`). In double quotes every character has a spelling of its own (`spelling`), which
holds neither a quote nor the end of a line; only the quotes themselves depend on those before them.
In single quotes a text stands as it is, so there the choice of quotes matters.
-/

namespace PacketWire.Toml

/-- What stands for a character other than a quote inside double quotes. -/
def spelling (lines : Bool) (c : Char) : List Char :=
  if c = '\x08' then ['\\', 'b']
  else if c = '\t' then ['\\', 't']
  else if c = '\n' then if lines then ['\n'] else ['\\', 'n']
  else if c = '\x0c' then ['\\', 'f']
  else if c = '\r' then ['\\', 'r']
  else if c = '\\' then ['\\', '\\']
  else if needsCode c then '\\' :: 'u' :: fourDigits c.toNat
  else [c]

theorem escaped_cons {c : Char} (h : c ≠ '"') (lines : Bool) (allowed : Nat) (cs : List Char)
    (run : Nat) :
    escaped lines allowed (c :: cs) run = spelling lines c ++ escaped lines allowed cs 0 := by
  rw [escaped, if_neg h]
  rfl

/-- How a reader of double quotes comes to a character, as it is or behind a backslash. -/
inductive Spelled (lines : Bool) (c : Char) : List Char → Prop where
  | plain (quote : c ≠ '"') (backslash : c ≠ '\\') (return_ : c ≠ '\r')
      (stands : isPlain c = true ∨ lines = true ∧ c = '\n') : Spelled lines c [c]
  | code (e : List Char) (read : ∀ rest, escape? (e ++ rest) = some (c, rest))
      (joins : ∀ rest, newline? (skipBlanks (e ++ rest)) = none) : Spelled lines c ('\\' :: e)

theorem codePoint?_fourDigits :
    ∀ n < 128, codePoint? (fourDigits n) = some (Char.ofNat n) ∧ (fourDigits n).length = 4 := by
  decide

theorem isPlain_of_needsCode {c : Char} (h : needsCode c = false) (hline : c ≠ '\n') :
    isPlain c = true := by
  simp only [needsCode, isPlain] at *
  grind

theorem spelled_spelling {c : Char} (h : c ≠ '"') (lines : Bool) :
    Spelled lines c (spelling lines c) := by
  unfold spelling
  split
  · subst_vars
    exact .code ['b'] (fun _ => rfl) fun _ => rfl
  split
  · subst_vars
    exact .code ['t'] (fun _ => rfl) fun _ => rfl
  split
  · subst_vars
    cases lines with
    | true => exact .plain (by decide) (by decide) (by decide) (.inr ⟨rfl, rfl⟩)
    | false => exact .code ['n'] (fun _ => rfl) fun _ => rfl
  split
  · subst_vars
    exact .code ['f'] (fun _ => rfl) fun _ => rfl
  split
  · subst_vars
    exact .code ['r'] (fun _ => rfl) fun _ => rfl
  split
  · subst_vars
    exact .code ['\\'] (fun _ => rfl) fun _ => rfl
  split
  · rename_i hcode
    have hsmall : c.toNat < 128 := by
      simp only [needsCode] at hcode
      grind
    obtain ⟨hpoint, hlength⟩ := codePoint?_fourDigits c.toNat hsmall
    rw [Char.ofNat_toNat] at hpoint
    refine .code ('u' :: fourDigits c.toNat) (fun rest => ?_) fun _ => rfl
    rw [List.cons_append, escape?, List.length_append, hlength, if_neg (by omega),
      List.take_left' hlength, List.drop_left' hlength, hpoint, Option.map_some]
  · rename_i hline _ hreturn hbackslash hcode
    exact .plain h hbackslash hreturn (.inl (isPlain_of_needsCode (by simpa using hcode) hline))

theorem Spelled.length_pos {lines : Bool} {c : Char} {t : List Char} (h : Spelled lines c t) :
    0 < t.length := by
  cases h <;> simp

theorem length_le_escaped (lines : Bool) (allowed : Nat) (cs : List Char) (run : Nat) :
    cs.length ≤ (escaped lines allowed cs run).length := by
  induction cs generalizing run with
  | nil => exact Nat.zero_le _
  | cons c cs ih =>
    by_cases h : c = '"'
    · subst h
      rw [escaped, if_pos rfl]
      split
      · exact Nat.succ_le_succ (ih _)
      · exact Nat.le_succ_of_le (Nat.succ_le_succ (ih _))
    · rw [escaped_cons h, List.length_append, List.length_cons]
      have hpos := (spelled_spelling h lines).length_pos
      have hrest := ih 0
      omega

/-! ## Double quotes -/

theorem basicString_escaped (cs acc rest : List Char) {fuel : Nat} (h : cs.length < fuel) :
    basicString fuel acc (escaped false 0 cs 0 ++ '"' :: rest) =
      some (ofReversed (cs.reverse ++ acc), rest) := by
  induction cs generalizing acc fuel with
  | nil =>
    obtain ⟨fuel, rfl⟩ := Nat.exists_eq_add_one_of_ne_zero (Nat.ne_of_gt h)
    rfl
  | cons c cs ih =>
    obtain ⟨fuel, rfl⟩ := Nat.exists_eq_add_one_of_ne_zero (Nat.ne_of_gt (Nat.zero_lt_of_lt h))
    have hrest := ih (c :: acc) (Nat.lt_of_succ_lt_succ h)
    rw [List.reverse_cons, List.append_assoc, List.singleton_append, ← hrest]
    by_cases hq : c = '"'
    · subst hq
      rfl
    · rw [escaped_cons hq, List.append_assoc]
      have hspelled := spelled_spelling hq false
      generalize spelling false c = t at hspelled ⊢
      cases hspelled with
      | plain quote backslash return_ stands =>
        have hplain : isPlain c = true := by simpa using stands
        simp [basicString, hplain]
      | code e read joins => simp [basicString, read]

/-! ## Several lines -/

/-- Three quotes close a text, and up to two before them belong to it. -/
theorem basicLines_close {k : Nat} (hk : k ≤ 2) {rest : List Char} (hrest : rest.head? ≠ some '"')
    (acc : List Char) (fuel : Nat) :
    basicLines (fuel + 1) acc (List.replicate k '"' ++ '"' :: '"' :: '"' :: rest) =
      some (ofReversed (List.replicate k '"' ++ acc), rest) := by
  match k, hk with
  | 0, _ =>
    cases rest with
    | nil => rfl
    | cons c rest =>
      have hc : c ≠ '"' := by simpa using hrest
      simp [basicLines, hc]
  | 1, _ =>
    cases rest with
    | nil => rfl
    | cons c rest =>
      have hc : c ≠ '"' := by simpa using hrest
      simp [basicLines, hc]
  | 2, _ => rfl

theorem basicLines_cons {c : Char} {cs : List Char}
    (hquotes : ¬ List.replicate 3 '"' <+: c :: cs) (hbackslash : c ≠ '\\') (hreturn : c ≠ '\r')
    (hc : isPlain c = true ∨ c = '\n') (acc : List Char) (fuel : Nat) :
    basicLines (fuel + 1) acc (c :: cs) = basicLines fuel (c :: acc) cs := by
  rw [basicLines.eq_def]
  dsimp only
  split
  · rename_i heq
    exact absurd ⟨_, heq.symm⟩ hquotes
  · rename_i heq
    exact absurd ⟨_, heq.symm⟩ hquotes
  · rename_i heq
    exact absurd ⟨_, heq.symm⟩ hquotes
  · rename_i heq
    exact absurd (List.cons.inj heq).1 hbackslash
  · rename_i heq
    exact absurd (List.cons.inj heq).1 hreturn
  · rename_i heq
    obtain ⟨rfl, rfl⟩ := List.cons.inj heq
    rw [if_pos (by simpa using hc)]
  · rename_i heq
    cases heq

theorem literalLines_close {k : Nat} (hk : k ≤ 2) {rest : List Char}
    (hrest : rest.head? ≠ some '\'') (acc : List Char) (fuel : Nat) :
    literalLines (fuel + 1) acc (List.replicate k '\'' ++ '\'' :: '\'' :: '\'' :: rest) =
      some (ofReversed (List.replicate k '\'' ++ acc), rest) := by
  match k, hk with
  | 0, _ =>
    cases rest with
    | nil => rfl
    | cons c rest =>
      have hc : c ≠ '\'' := by simpa using hrest
      simp [literalLines, hc]
  | 1, _ =>
    cases rest with
    | nil => rfl
    | cons c rest =>
      have hc : c ≠ '\'' := by simpa using hrest
      simp [literalLines, hc]
  | 2, _ => rfl

theorem literalLines_cons {c : Char} {cs : List Char}
    (hquotes : ¬ List.replicate 3 '\'' <+: c :: cs) (hreturn : c ≠ '\r')
    (hc : isPlain c = true ∨ c = '\n') (acc : List Char) (fuel : Nat) :
    literalLines (fuel + 1) acc (c :: cs) = literalLines fuel (c :: acc) cs := by
  rw [literalLines.eq_def]
  dsimp only
  split
  · rename_i heq
    exact absurd ⟨_, heq.symm⟩ hquotes
  · rename_i heq
    exact absurd ⟨_, heq.symm⟩ hquotes
  · rename_i heq
    exact absurd ⟨_, heq.symm⟩ hquotes
  · rename_i heq
    exact absurd (List.cons.inj heq).1 hreturn
  · rename_i heq
    obtain ⟨rfl, rfl⟩ := List.cons.inj heq
    rw [if_pos (by simpa using hc)]
  · rename_i heq
    cases heq

theorem escaped_quotes {k run : Nat} (h : k + run ≤ 2) :
    escaped true 2 (List.replicate k '"') run = List.replicate k '"' := by
  induction k generalizing run with
  | zero => rfl
  | succ k ih =>
    rw [List.replicate_succ, escaped, if_pos rfl, if_pos (by omega), ih (by omega)]

theorem head_spelling {c : Char} (h : c ≠ '"') (lines : Bool) :
    ∃ d t, spelling lines c = d :: t ∧ d ≠ '"' := by
  have hspelled := spelled_spelling h lines
  generalize spelling lines c = t at hspelled
  cases hspelled with
  | plain quote backslash return_ stands => exact ⟨c, [], rfl, h⟩
  | code e read joins => exact ⟨'\\', e, rfl, by decide⟩

theorem not_three_escaped {cs : List Char} {run : Nat} (hrun : run ≤ 2)
    (hcs : ∀ k, k + run ≤ 2 → cs ≠ List.replicate k '"') (tail : List Char) :
    ¬ List.replicate (3 - run) '"' <+: escaped true 2 cs run ++ tail := by
  rw [show 3 - run = (2 - run) + 1 by omega, List.replicate_succ]
  induction cs generalizing run with
  | nil => exact absurd rfl (hcs 0 (by omega))
  | cons c cs ih =>
    by_cases hq : c = '"'
    · subst hq
      rw [escaped, if_pos rfl]
      split
      · rename_i hlt
        have hrest := @ih (run + 1) (by omega) fun k hk heq =>
          hcs (k + 1) (by omega) (by rw [heq, List.replicate_succ])
        rw [List.cons_append, List.cons_prefix_cons, show 2 - run = 2 - (run + 1) + 1 by omega,
          List.replicate_succ]
        exact fun hpre => hrest hpre.2
      · rw [List.cons_append, List.cons_prefix_cons]
        exact fun hpre => absurd hpre.1 (by decide)
    · obtain ⟨d, t, heq, hd⟩ := head_spelling hq true
      rw [escaped_cons hq, heq, List.cons_append, List.cons_append, List.cons_prefix_cons]
      exact fun hpre => hd hpre.1.symm

theorem basicLines_escaped (cs acc : List Char) {rest : List Char} (hrest : rest.head? ≠ some '"')
    {fuel run : Nat} (h : cs.length < fuel) (hrun : run ≤ 2) :
    basicLines fuel acc (escaped true 2 cs run ++ '"' :: '"' :: '"' :: rest) =
      some (ofReversed (cs.reverse ++ acc), rest) := by
  induction cs generalizing acc fuel run with
  | nil =>
    obtain ⟨fuel, rfl⟩ := Nat.exists_eq_add_one_of_ne_zero (Nat.ne_of_gt h)
    exact basicLines_close (k := 0) (by omega) hrest acc fuel
  | cons c cs ih =>
    obtain ⟨fuel, rfl⟩ := Nat.exists_eq_add_one_of_ne_zero (Nat.ne_of_gt (Nat.zero_lt_of_lt h))
    by_cases hall : ∃ k, k + run ≤ 2 ∧ c :: cs = List.replicate k '"'
    · obtain ⟨k, hk, heq⟩ := hall
      rw [heq, escaped_quotes hk, List.reverse_replicate]
      exact basicLines_close (by omega) hrest acc fuel
    · have hnot : ∀ k, k + run ≤ 2 → c :: cs ≠ List.replicate k '"' := fun k hk heq =>
        hall ⟨k, hk, heq⟩
      have hthree := not_three_escaped hrun hnot ('"' :: '"' :: '"' :: rest)
      have hih (run : Nat) := @ih (c :: acc) fuel run (Nat.lt_of_succ_lt_succ h)
      rw [List.reverse_cons, List.append_assoc, List.singleton_append]
      by_cases hq : c = '"'
      · subst hq
        rw [escaped, if_pos rfl] at hthree ⊢
        by_cases hlt : run < 2
        · rw [if_pos hlt] at hthree ⊢
          rw [← hih (run + 1) (by omega)]
          refine basicLines_cons (fun hpre => hthree ?_) (by decide) (by decide) (by decide)
            acc fuel
          refine List.IsPrefix.trans ?_ hpre
          exact ⟨List.replicate run '"', by
            rw [List.replicate_append_replicate, Nat.sub_add_cancel (by omega)]⟩
        · rw [if_neg hlt, ← hih 0 (by omega)]
          rfl
      · rw [← hih 0 (by omega), escaped_cons hq, List.append_assoc]
        have hspelled := spelled_spelling hq true
        generalize spelling true c = t at hspelled ⊢
        cases hspelled with
        | plain quote backslash return_ stands =>
          refine basicLines_cons (fun hpre => ?_) backslash return_ (by simpa using stands) acc fuel
          exact quote (List.cons_prefix_cons.mp hpre).1.symm
        | code e read joins => simp [basicLines, read, joins]

/-! ## Single quotes -/

theorem best_le_longestRun (q : Char) (cs : List Char) (run best : Nat) :
    best ≤ longestRun q cs run best := by
  fun_induction longestRun q cs run best with
  | case1 => exact Nat.le_refl _
  | case2 cs run best ih => exact Nat.le_trans (Nat.le_max_left ..) ih
  | case3 c cs run best hq ih => exact ih

theorem not_mem_of_longestRun {q : Char} {cs : List Char} {run best : Nat}
    (h : longestRun q cs run best = 0) : q ∉ cs := by
  fun_induction longestRun q cs run best with
  | case1 => exact List.not_mem_nil
  | case2 cs run best ih =>
    have hbest := best_le_longestRun q cs (run + 1) (max best (run + 1))
    omega
  | case3 c cs run best hq ih =>
    rw [List.mem_cons]
    exact not_or.mpr ⟨fun heq => hq heq.symm, ih h⟩

theorem literalString_self {cs : List Char} (hquote : '\'' ∉ cs)
    (hplain : ∀ c ∈ cs, isPlain c = true) (acc rest : List Char) :
    literalString acc (cs ++ '\'' :: rest) = some (ofReversed (cs.reverse ++ acc), rest) := by
  induction cs generalizing acc with
  | nil => rfl
  | cons c cs ih =>
    rw [List.mem_cons, not_or] at hquote
    rw [List.forall_mem_cons] at hplain
    rw [List.cons_append, literalString, if_pos hplain.1, ih hquote.2 hplain.2, List.reverse_cons,
      List.append_assoc, List.singleton_append]
    exact fun heq => hquote.1 heq.symm

/-- Where no more than `n` quotes are in a row, more come next only before the end. -/
theorem not_many_of_longestRun {q : Char} {n : Nat} {cs : List Char} {run best : Nat}
    (h : longestRun q cs run best ≤ n) (hrun : run ≤ n)
    (hcs : ∀ k, k + run ≤ n → cs ≠ List.replicate k q) (tail : List Char) :
    ¬ List.replicate (n - run + 1) q <+: cs ++ tail := by
  rw [List.replicate_succ]
  fun_induction longestRun q cs run best with
  | case1 => exact absurd rfl (hcs 0 (by omega))
  | case2 cs run best ih =>
    have hbest := best_le_longestRun q cs (run + 1) (max best (run + 1))
    have hrest := ih h (by omega) fun k hk heq =>
      hcs (k + 1) (by omega) (by rw [heq, List.replicate_succ])
    rw [List.cons_append, List.cons_prefix_cons, show n - run = n - (run + 1) + 1 by omega,
      List.replicate_succ]
    exact fun hpre => hrest hpre.2
  | case3 c cs run best hq ih =>
    rw [List.cons_append, List.cons_prefix_cons]
    exact fun hpre => hq hpre.1.symm

theorem literalLines_self {cs : List Char} {run best : Nat}
    (hquotes : longestRun '\'' cs run best ≤ 2) (hrun : run ≤ 2)
    (hplain : ∀ c ∈ cs, c ≠ '\r' ∧ (isPlain c = true ∨ c = '\n')) (acc : List Char)
    {rest : List Char} (hrest : rest.head? ≠ some '\'') {fuel : Nat} (h : cs.length < fuel) :
    literalLines fuel acc (cs ++ '\'' :: '\'' :: '\'' :: rest) =
      some (ofReversed (cs.reverse ++ acc), rest) := by
  induction cs generalizing acc fuel run best with
  | nil =>
    obtain ⟨fuel, rfl⟩ := Nat.exists_eq_add_one_of_ne_zero (Nat.ne_of_gt h)
    exact literalLines_close (k := 0) (by omega) hrest acc fuel
  | cons c cs ih =>
    obtain ⟨fuel, rfl⟩ := Nat.exists_eq_add_one_of_ne_zero (Nat.ne_of_gt (Nat.zero_lt_of_lt h))
    by_cases hall : ∃ k, k + run ≤ 2 ∧ c :: cs = List.replicate k '\''
    · obtain ⟨k, hk, heq⟩ := hall
      rw [heq, List.reverse_replicate]
      exact literalLines_close (by omega) hrest acc fuel
    · have hmany := not_many_of_longestRun hquotes hrun (fun k hk heq => hall ⟨k, hk, heq⟩)
        ('\'' :: '\'' :: '\'' :: rest)
      rw [List.forall_mem_cons] at hplain
      rw [List.cons_append, literalLines_cons _ hplain.1.1 hplain.1.2, List.reverse_cons,
        List.append_assoc, List.singleton_append]
      · rw [longestRun] at hquotes
        split at hquotes
        · have hbest := best_le_longestRun '\'' cs (run + 1) (max best (run + 1))
          exact ih hquotes (by omega) hplain.2 (c :: acc) (Nat.lt_of_succ_lt_succ h)
        · exact ih hquotes (by omega) hplain.2 (c :: acc) (Nat.lt_of_succ_lt_succ h)
      · refine fun hpre => hmany (List.IsPrefix.trans ?_ hpre)
        exact ⟨List.replicate run '\'', by
          rw [List.replicate_append_replicate, show 2 - run + 1 + run = 3 by omega]⟩

theorem literal_of_quotesFor {cs : List Char} (h : quotesFor cs = .literal) :
    '\'' ∉ cs ∧ ∀ c ∈ cs, isPlain c = true := by
  simp only [quotesFor] at h
  split at h
  · cases h
  split at h
  · rename_i _ hliteral
    simp only [Bool.and_eq_true, Bool.not_eq_true', beq_iff_eq, List.any_eq_false,
      List.contains_eq_mem, decide_eq_false_iff_not] at hliteral
    obtain ⟨⟨hcodes, hsingles⟩, hlines⟩ := hliteral
    refine ⟨not_mem_of_longestRun hsingles, fun c hc => isPlain_of_needsCode ?_ ?_⟩
    · simpa using hcodes c hc
    · rintro rfl
      exact hlines hc
  split at h
  · cases h
  split at h
  · cases h
  split at h <;> cases h

theorem literalLines_of_quotesFor {cs : List Char} (h : quotesFor cs = .literalLines) :
    longestRun '\'' cs 0 0 ≤ 2 ∧ ∀ c ∈ cs, c ≠ '\r' ∧ (isPlain c = true ∨ c = '\n') := by
  simp only [quotesFor] at h
  split at h
  · cases h
  split at h
  · cases h
  split at h
  · cases h
  split at h
  · rename_i hliteral
    simp only [Bool.and_eq_true, Bool.not_eq_true', List.any_eq_false, decide_eq_true_eq]
      at hliteral
    obtain ⟨hcodes, hsingles⟩ := hliteral
    refine ⟨hsingles, fun c hc => ?_⟩
    have hcode : needsCode c = false := by simpa using hcodes c hc
    refine ⟨?_, ?_⟩
    · rintro rfl
      cases hcode
    · by_cases hline : c = '\n'
      · exact .inr hline
      · exact .inl (isPlain_of_needsCode hcode hline)
  split at h <;> cases h

theorem string?_eq_shortString? {cs : List Char} (hdouble : ¬ List.replicate 3 '"' <+: cs)
    (hsingle : ¬ List.replicate 3 '\'' <+: cs) : string? cs = shortString? cs := by
  unfold string?
  split
  · exact absurd ⟨_, rfl⟩ hdouble
  · exact absurd ⟨_, rfl⟩ hsingle
  · rfl

/-- The line break that is written behind opening quotes is dropped, and no other. -/
theorem skipFirstBreak_lineBreak (cs t : List Char) (h : '\n' ∉ cs → newline? t = none) :
    skipFirstBreak ((if cs.contains '\n' then "\n" else "").toList ++ t) = t := by
  by_cases hline : '\n' ∈ cs
  · rw [if_pos (by simpa using hline)]
    rfl
  · rw [if_neg (by simpa using hline), skipFirstBreak, String.toList_empty, List.nil_append,
      h hline, Option.getD_none]

theorem newline?_cons {c : Char} (hline : c ≠ '\n') (hreturn : c ≠ '\r') (cs : List Char) :
    newline? (c :: cs) = none := by
  simp [newline?, hline, hreturn]

theorem newline?_escaped (cs : List Char) (h : '\n' ∉ cs) (tail : List Char) :
    newline? (escaped true 2 cs 0 ++ '"' :: tail) = none := by
  cases cs with
  | nil => rfl
  | cons c cs =>
    by_cases hq : c = '"'
    · subst hq
      rfl
    · have hspelled := spelled_spelling hq true
      rw [escaped_cons hq]
      generalize spelling true c = t at hspelled ⊢
      cases hspelled with
      | plain quote backslash return_ stands =>
        exact newline?_cons (fun heq => h (heq ▸ List.mem_cons_self)) return_ _
      | code e read joins => rfl

theorem ofReversed_toList (text : String) : ofReversed (text.toList.reverse ++ []) = text := by
  rw [ofReversed, List.append_nil, List.reverse_reverse, String.ofList_toList]

theorem not_two_quotes {q : Char} {cs rest : List Char} (hcs : cs.head? ≠ some q)
    (hrest : rest.head? ≠ some q) : ¬ List.replicate 2 q <+: cs ++ q :: rest := by
  rintro ⟨t, ht⟩
  cases cs with
  | nil =>
    rw [List.replicate_succ, List.nil_append, List.cons_append, List.cons.injEq] at ht
    exact hrest (by rw [← ht.2]; rfl)
  | cons c cs => exact hcs (by rw [(List.cons.inj ht).1]; rfl)

theorem head_escaped (cs : List Char) : (escaped false 0 cs 0).head? ≠ some '"' := by
  cases cs with
  | nil => exact fun h => (by cases h)
  | cons c cs =>
    by_cases hq : c = '"'
    · subst hq
      rw [escaped, if_pos rfl, if_neg (Nat.lt_irrefl 0)]
      exact fun h => absurd (Option.some.inj h) (by decide)
    · obtain ⟨d, t, heq, hd⟩ := head_spelling hq false
      rw [escaped_cons hq, heq]
      simpa using hd

theorem not_three_quotes {q q' : Char} (hne : q ≠ q') (cs : List Char) :
    ¬ List.replicate 3 q <+: q' :: cs :=
  fun hpre => hne (List.cons_prefix_cons.mp hpre).1

section Quoted

variable {cs rest : List Char}

theorem string?_basic (hdouble : rest.head? ≠ some '"') :
    string? ('"' :: (escaped false 0 cs 0 ++ '"' :: rest)) =
      some (ofReversed (cs.reverse ++ []), rest) := by
  have hlength : cs.length < (escaped false 0 cs 0 ++ '"' :: rest).length + 1 := by
    have hle := length_le_escaped false 0 cs 0
    rw [List.length_append]
    omega
  rw [string?_eq_shortString? _ (not_three_quotes (by decide) _), shortString?,
    basicString_escaped _ _ _ hlength]
  rw [List.replicate_succ, List.cons_prefix_cons]
  exact fun hpre => not_two_quotes (head_escaped _) hdouble hpre.2

theorem string?_literal (hquotes : quotesFor cs = .literal) (hsingle : rest.head? ≠ some '\'') :
    string? ('\'' :: (cs ++ '\'' :: rest)) = some (ofReversed (cs.reverse ++ []), rest) := by
  obtain ⟨hquote, hplain⟩ := literal_of_quotesFor hquotes
  rw [string?_eq_shortString? (not_three_quotes (by decide) _), shortString?,
    literalString_self hquote hplain]
  rw [List.replicate_succ, List.cons_prefix_cons]
  exact fun hpre => not_two_quotes (fun hhead => hquote (List.mem_of_head? hhead)) hsingle hpre.2

theorem string?_basicLines (hdouble : rest.head? ≠ some '"') :
    string? ('"' :: '"' :: '"' :: ((if cs.contains '\n' then "\n" else "").toList ++
        (escaped true 2 cs 0 ++ '"' :: '"' :: '"' :: rest))) =
      some (ofReversed (cs.reverse ++ []), rest) := by
  have hbreak := skipFirstBreak_lineBreak cs _ fun h => newline?_escaped cs h ('"' :: '"' :: rest)
  generalize (if cs.contains '\n' then "\n" else "").toList = lineBreak at hbreak ⊢
  rw [string?, hbreak, basicLines_escaped _ _ hdouble _ (by omega)]
  have hle := length_le_escaped true 2 cs 0
  rw [List.length_append, List.length_append]
  omega

theorem string?_literalLines (hquotes : quotesFor cs = .literalLines)
    (hsingle : rest.head? ≠ some '\'') :
    string? ('\'' :: '\'' :: '\'' :: ((if cs.contains '\n' then "\n" else "").toList ++
        (cs ++ '\'' :: '\'' :: '\'' :: rest))) =
      some (ofReversed (cs.reverse ++ []), rest) := by
  obtain ⟨hsingles, hplain⟩ := literalLines_of_quotesFor hquotes
  have hbreak := skipFirstBreak_lineBreak cs (cs ++ '\'' :: '\'' :: '\'' :: rest) fun h => by
    cases cs with
    | nil => rfl
    | cons c cs =>
      exact newline?_cons (fun heq => h (heq ▸ List.mem_cons_self))
        (hplain c List.mem_cons_self).1 _
  generalize (if cs.contains '\n' then "\n" else "").toList = lineBreak at hbreak ⊢
  rw [string?, hbreak, literalLines_self hsingles (by omega) hplain _ hsingle]
  rw [List.length_append, List.length_append]
  omega

end Quoted

/-- A text in quotes is read back, if it does not go on with a quote. -/
theorem string?_quoted (text : String) {rest : List Char} (hdouble : rest.head? ≠ some '"')
    (hsingle : rest.head? ≠ some '\'') :
    string? ((quoted text).toList ++ rest) = some (text, rest) := by
  suffices hread : string? ((quoted text).toList ++ rest) =
      some (ofReversed (text.toList.reverse ++ []), rest) by
    rwa [ofReversed_toList] at hread
  cases hquotes : quotesFor text.toList with
  | basic =>
    simp only [quoted, hquotes, String.toList_append, String.toList_ofList, List.append_assoc]
    exact string?_basic hdouble
  | literal =>
    simp only [quoted, hquotes, String.toList_append, List.append_assoc]
    exact string?_literal hquotes hsingle
  | basicLines =>
    simp only [quoted, hquotes, String.toList_append, String.toList_ofList, List.append_assoc]
    exact string?_basicLines hdouble
  | literalLines =>
    simp only [quoted, hquotes, String.toList_append, List.append_assoc]
    exact string?_literalLines hquotes hsingle

end PacketWire.Toml

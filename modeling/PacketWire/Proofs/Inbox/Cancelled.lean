import PacketWire.Proofs.Inbox

/-!
# Streams that are cancelled

`Inbox.turns` polls a packet stream again and again while others feed its source, use the pool and
switch the threshold, and while its token fires at any moments between the polls. Each `Turn` is
what a poll found and what it answered. A stream is over exactly when an answer has ended it
(`ends_iff_over`), and whatever ends it, only once: an error, the end of the source or the token.
So a stream that is cancelled gives what it would have given anyway, up to the moment when it is.
-/

namespace PacketWire.Inbox

variable {σ : Type} [Source σ]

/-- Whether the answer is an error or none: no packet comes after it. -/
def Answer.Ends (a : Answer σ) : Prop :=
  a.next = .ready none ∨ ∃ e, a.next = .ready (some (.error e))

def idle (i : Inbox) (s : σ) (r : Reserves) : Answer σ :=
  { next := .ready none, inbox := i, source := s, reserves := r }

/-- A stream that is over has nothing in its buffer. -/
def Tidy (i : Inbox) : Prop := i.phase = .over → i.buffer = []

variable {i : Inbox} {s : σ} {r : Reserves}

theorem tidy_finish (i : Inbox) : i.finish.Tidy := fun _ => rfl

theorem poll_cancelled (h : i.phase ≠ .over) (s : σ) (r : Reserves) :
    i.poll true s r = i.finish.idle s r := by
  rw [poll]
  split <;> simp_all [idle]

/-- A poll ends the stream, or leaves it to be polled on. -/
theorem ends_iff_over (cancelled : Bool) (i : Inbox) (s : σ) (r : Reserves) (h : i.Tidy) :
    ((i.poll cancelled s r).Ends ↔ (i.poll cancelled s r).inbox.phase = .over) ∧
      (i.poll cancelled s r).inbox.Tidy := by
  fun_induction poll cancelled i s r with
  | case1 i s r hp => exact ⟨by simp [Answer.Ends, hp], h⟩
  | case2 i s r hp hcan => exact ⟨by simp [Answer.Ends, finish], tidy_finish i⟩
  | case3 i s r hp hcan u q hu =>
    have hphase : (i.keep u.left).phase = .draining := hp
    exact ⟨by simp [Answer.Ends, hphase], fun hover => by cases hphase.symm.trans hover⟩
  | case4 i s r hp hcan u x hu => exact ⟨by simp [Answer.Ends, finish], tidy_finish i⟩
  | case5 i s r hp hcan u hu ih => exact ih fun hover => by cases hover
  | case6 i s r hp hcan => exact ⟨by simp [Answer.Ends, finish], tidy_finish i⟩
  | case7 i s r hp hcan s' hr =>
    have hphase : i.prepare.phase = .gathering := hp
    exact ⟨by simp [Answer.Ends, hphase], fun hover => by cases hphase.symm.trans hover⟩
  | case8 i s r hp hcan e s' hr => exact ⟨by simp [Answer.Ends, finish], tidy_finish i⟩
  | case9 i s r hp hcan s' hr =>
    refine ⟨?_, tidy_finish i⟩
    simp only [Answer.Ends, ending, finish, iff_true]
    split <;> simp
  | case10 i s r hp hcan b bs s' hr ih => exact ih fun hover => by cases hover

def Answer.item? (a : Answer σ) : Option (Except WireError Packet) :=
  match a.next with
  | .ready x => x
  | .pending => none

omit [Source σ] in
theorem Answer.errors_of_goesOn {a : Answer σ} (h : ¬ a.Ends) :
    a.item?.toList.countP (!·.isOk) = 0 := by
  simp only [Ends, not_or, not_exists] at h
  unfold item?
  split
  · rename_i x hx
    cases x with
    | none => rfl
    | some x =>
      cases x with
      | ok p => rfl
      | error e => exact absurd hx (h.2 e)
  · rfl

/-! ## Runs -/

/-- The threshold at each poll, and what others do to its source and to the reserves before it. -/
structure Around (σ : Type) where
  threshold : Nat → Nat → Int32
  others : Nat → σ × Reserves → σ × Reserves

/-- Whether the token has fired before poll `j`, at one of the moments or at several. -/
def firedBy (moments : Nat → Bool) (j : Nat) : Bool := (List.range (j + 1)).any moments

/-- A poll: what it found, and what it answered. -/
structure Turn (σ : Type) where
  fired : Bool
  inbox : Inbox
  source : σ
  reserves : Reserves
  answer : Answer σ

def turn (around : Around σ) (moments : Nat → Bool) (j k : Nat) (i : Inbox) (s : σ) (r : Reserves) :
    Turn σ :=
  let inbox := i.switch (around.threshold j k)
  let (source, reserves) := around.others j (s, r)
  let fired := firedBy moments j
  { fired, inbox, source, reserves, answer := inbox.poll fired source reserves }

/-- Polls `n` times, from poll `j` on, which comes after `k` items. -/
def turns (around : Around σ) (moments : Nat → Bool) :
    Nat → Nat → Nat → Inbox → σ → Reserves → List (Turn σ)
  | 0, _, _, _, _, _ => []
  | n + 1, j, k, i, s, r =>
    let t := turn around moments j k i s r
    t :: turns around moments n (j + 1) (k + t.answer.item?.toList.length) t.answer.inbox
      t.answer.source t.answer.reserves

def given (run : List (Turn σ)) : List (Except WireError Packet) :=
  run.filterMap (·.answer.item?)

omit [Source σ] in
theorem given_cons (t : Turn σ) (run : List (Turn σ)) :
    given (t :: run) = t.answer.item?.toList ++ given run := by
  unfold given
  rw [List.filterMap_cons]
  split <;> rename_i h <;> simp [h]

variable {around : Around σ} {moments : Nat → Bool} {n j k : Nat}

theorem firedBy_iff : firedBy moments j ↔ ∃ m ≤ j, moments m := by
  rw [firedBy, List.any_eq_true]
  simp only [List.mem_range, Nat.lt_succ_iff]

theorem answer_turn_of_over (around : Around σ) (moments : Nat → Bool) (j k : Nat)
    (hi : i.phase = .over) (s : σ) (r : Reserves) :
    let t := turn around moments j k i s r
    t.answer = t.inbox.idle t.source t.reserves :=
  have hover : (i.switch (around.threshold j k)).phase = .over := hi
  poll_of_over hover

theorem answer_turn_of_fired (around : Around σ) (k : Nat) (h : firedBy moments j)
    (hi : i.phase ≠ .over) (s : σ) (r : Reserves) :
    let t := turn around moments j k i s r
    t.answer = t.inbox.finish.idle t.source t.reserves := by
  have hnot : (i.switch (around.threshold j k)).phase ≠ .over := hi
  simp only [turn, h]
  exact poll_cancelled hnot _ _

theorem turn_ends_iff (around : Around σ) (moments : Nat → Bool) (j k : Nat) (hi : i.Tidy) (s : σ)
    (r : Reserves) :
    let a := (turn around moments j k i s r).answer
    (a.Ends ↔ a.inbox.phase = .over) ∧ a.inbox.Tidy :=
  ends_iff_over _ (i.switch (around.threshold j k)) _ _ hi

theorem fired_of_getElem? {m : Nat} {t : Turn σ}
    (h : (turns around moments n j k i s r)[m]? = some t) : t.fired = firedBy moments (j + m) := by
  induction n generalizing j k i s r m with
  | zero => simp [turns] at h
  | succ n ih =>
    cases m with
    | zero =>
      cases h
      rfl
    | succ m =>
      rw [turns, List.getElem?_cons_succ] at h
      rw [ih h, Nat.succ_add_eq_add_succ]

theorem turns_of_over (hi : i.phase = .over) (hb : i.buffer = []) :
    ∀ t ∈ turns around moments n j k i s r,
      t.inbox.phase = .over ∧ t.inbox.buffer = [] ∧
        t.answer = t.inbox.idle t.source t.reserves := by
  induction n generalizing j k i s r with
  | zero => simp [turns]
  | succ n ih =>
    have hidle := answer_turn_of_over around moments j k hi s r
    refine List.forall_mem_cons.mpr ⟨⟨hi, hb, hidle⟩, ?_⟩
    rw [hidle]
    exact ih hi hb

theorem given_of_over (hi : i.phase = .over) (hb : i.buffer = []) :
    given (turns around moments n j k i s r) = [] := by
  refine List.filterMap_eq_nil_iff.mpr fun t ht => ?_
  obtain ⟨-, -, hidle⟩ := turns_of_over hi hb t ht
  rw [hidle]
  rfl

/-! ## Cutting a run off -/

/-- From the moment on when the token has fired, a stream gives nothing. -/
theorem given_of_fired (hi : i.Tidy) (h : firedBy moments j) :
    given (turns around moments n j k i s r) = [] := by
  cases n with
  | zero => rfl
  | succ n =>
    by_cases hover : i.phase = .over
    · exact given_of_over hover (hi hover)
    · have hidle := answer_turn_of_fired around k h hover s r
      rw [turns, given_cons, hidle]
      exact given_of_over rfl rfl

/-- Firing the token cuts off what a stream gives, and changes nothing before. -/
theorem given_cut_off (hi : i.Tidy) :
    given (turns around moments n j k i s r) <+:
      given (turns around (fun _ => false) n j k i s r) := by
  induction n generalizing j k i s r with
  | zero => exact List.prefix_rfl
  | succ n ih =>
    cases hfired : firedBy moments j with
    | true =>
      rw [given_of_fired hi hfired]
      exact List.nil_prefix
    | false =>
      have hnever : firedBy (fun _ => false) j = false := by simp [firedBy]
      have hsame : turn around moments j k i s r = turn around (fun _ => false) j k i s r := by
        simp only [turn, hfired, hnever]
      obtain ⟨-, htidy⟩ := turn_ends_iff around (fun _ => false) j k hi s r
      rw [turns, turns, hsame, given_cons, given_cons]
      exact (List.prefix_append_right_inj _).mpr (ih htidy)

/-- A poll may only end the stream if the token has fired; else it ends it for good, or leaves it to
be polled on. -/
structure Turn.Proper (t : Turn σ) : Prop where
  fired : t.fired → t.inbox.isOver = false → t.answer = t.inbox.finish.idle t.source t.reserves
  ends : t.answer.Ends → t.answer.inbox.isOver ∧ t.answer.inbox.buffer = []
  goesOn : ¬ t.answer.Ends → t.answer.inbox.isOver = false

theorem proper_turn (hi : i.Tidy) : (turn around moments j k i s r).Proper := by
  obtain ⟨hends, htidy⟩ := turn_ends_iff around moments j k hi s r
  exact {
    fired := fun hfired hover => answer_turn_of_fired around k hfired (of_decide_eq_false hover) s r
    ends := fun h => ⟨decide_eq_true (hends.mp h), htidy (hends.mp h)⟩
    goesOn := fun h => decide_eq_false (mt hends.mpr h) }

theorem proper_turns (hi : i.Tidy) :
    (∀ t ∈ turns around moments n j k i s r, t.Proper) ∧
      (turns around moments n j k i s r).Pairwise fun t u => t.answer.Ends →
        u.inbox.isOver ∧ u.inbox.buffer = [] ∧ u.answer = u.inbox.idle u.source u.reserves := by
  induction n generalizing j k i s r with
  | zero => exact ⟨by simp [turns], .nil⟩
  | succ n ih =>
    obtain ⟨hends, htidy⟩ := turn_ends_iff around moments j k hi s r
    obtain ⟨hproper, hidle⟩ := ih htidy
    refine ⟨List.forall_mem_cons.mpr ⟨proper_turn hi, hproper⟩, .cons (fun u hu h => ?_) hidle⟩
    obtain ⟨hover, hempty, hu⟩ := turns_of_over (hends.mp h) (htidy (hends.mp h)) u hu
    exact ⟨decide_eq_true hover, hempty, hu⟩

theorem errors_le_one (hi : i.Tidy) :
    (given (turns around moments n j k i s r)).countP (!·.isOk) ≤ 1 := by
  induction n generalizing j k i s r with
  | zero => exact Nat.zero_le 1
  | succ n ih =>
    obtain ⟨hends, htidy⟩ := turn_ends_iff around moments j k hi s r
    rw [turns, given_cons, List.countP_append]
    by_cases h : (turn around moments j k i s r).answer.Ends
    · rw [given_of_over (hends.mp h) (htidy (hends.mp h)), List.countP_nil, Nat.add_zero]
      exact Nat.le_trans List.countP_le_length Option.length_toList_le
    · rw [Answer.errors_of_goesOn h, Nat.zero_add]
      exact ih htidy

/-- Whenever its token fires, a stream gives a beginning of what it would have given, with one error
at most. It drops what is buffered, and touches nothing once it has ended. -/
theorem cancelled_cuts_off (around : Around σ) (moments : Nat → Bool) (c : Codec) (chunk n : Nat)
    (s : σ) (r : Reserves) :
    let start : Inbox := { codec := c, chunk }
    let run := turns around moments n 0 0 start s r
    given run <+: given (turns around (fun _ => false) n 0 0 start s r) ∧
      (given run).countP (!·.isOk) ≤ 1 ∧
      (∀ j t, run[j]? = some t → (t.fired ↔ ∃ m ≤ j, moments m)) ∧
      (∀ t ∈ run, t.Proper) ∧
      run.Pairwise fun t u => t.answer.Ends →
        u.inbox.isOver ∧ u.inbox.buffer = [] ∧ u.answer = u.inbox.idle u.source u.reserves := by
  have htidy : Tidy { codec := c, chunk } := fun _ => rfl
  refine ⟨given_cut_off htidy, errors_le_one htidy, fun j t ht => ?_, proper_turns htidy⟩
  rw [fired_of_getElem? ht, Nat.zero_add]
  exact firedBy_iff

end PacketWire.Inbox

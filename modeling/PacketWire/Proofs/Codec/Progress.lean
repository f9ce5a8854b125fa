import PacketWire.Proofs.Codec.Decode

/-!
# What a call takes off a buffer

Taking a frame off a buffer is all or nothing. A `Whole` frame at the front goes; where the front is
`Refused`, or `Undecided` as yet, every byte stays. Bytes that come behind change no verdict. So
decoding removes nothing or one whole frame, a frame whose body is refused included, and a loop
that decodes over and over (`Codec.drain`) comes to its end.
-/

namespace PacketWire

namespace Frame

variable {max : Nat} {bs body rest left : Bytes} {e : WireError}

/-- As yet there is neither a frame at the front nor a reason why there never will be. -/
def Undecided (max : Nat) (bs : Bytes) : Prop :=
  (∀ body rest, ¬ Whole max bs body rest) ∧ ∀ e, ¬ Refused max bs e

theorem take_eq_none_iff : take max bs = .ok none ↔ Undecided max bs := by
  simp only [Undecided, ← take_eq_some_iff_whole, ← take_eq_error_iff]
  match take max bs with
  | .ok none => simp
  | .ok (some (body, rest)) => simp
  | .error e => simp

theorem Whole.length_rest (h : Whole max bs body rest) : rest.length + 2 ≤ bs.length := by
  obtain ⟨s, v, rfl, hs, -, hpos, -⟩ := h
  have := hs.length_pos
  simp only [List.length_append]
  omega

theorem takeAll_one_eq_body_iff :
    takeAll max 1 bs = (([body], none), rest) ↔ Whole max bs body rest := by
  rw [← take_eq_some_iff_whole, takeAll_one]
  split <;> simp [*]

theorem takeAll_one_eq_refusal_iff :
    takeAll max 1 bs = (([], some e), left) ↔ Refused max bs e ∧ left = bs := by
  rw [← take_eq_error_iff, takeAll_one]
  split <;> simp [*, eq_comm]

theorem takeAll_one_eq_nothing_iff :
    takeAll max 1 bs = (([], none), left) ↔ Undecided max bs ∧ left = bs := by
  rw [← take_eq_none_iff, takeAll_one]
  split <;> simp [*, eq_comm]

/-- What is found on a buffer is found on every longer one. -/
theorem takeAll_one_append (h : (takeAll max 1 bs).1 ≠ ([], none)) (more : Bytes) :
    takeAll max 1 (bs ++ more) = ((takeAll max 1 bs).1, (takeAll max 1 bs).2 ++ more) := by
  simp only [takeAll_one] at h ⊢
  split at h
  · exact absurd rfl h
  · rename_i e he
    rw [take_append_of_error he]
  · rename_i body rest hs
    rw [take_append_of_some hs]

end Frame

namespace Codec

variable {c : Codec} {bs body rest : Bytes} {r : Reserves}

theorem next_of_whole (h : Frame.Whole c.maxFrame bs body rest) :
    (c.next bs r).left = rest ∧ (c.next bs r).result = (c.decodeBody body r).1.map some :=
  (next_of_take r (Frame.take_eq_some_iff_whole.mpr h)).symm

theorem next_of_refused {e : WireError} (h : Frame.Refused c.maxFrame bs e) :
    (c.next bs r).left = bs ∧ (c.next bs r).result = .error e :=
  (next_of_refusal r (Frame.take_eq_error_iff.mpr h)).symm

theorem next_of_undecided (h : Frame.Undecided c.maxFrame bs) :
    (c.next bs r).left = bs ∧ (c.next bs r).result = .ok none :=
  (next_of_no_take r (Frame.take_eq_none_iff.mpr h)).symm

theorem length_left (h : (c.next bs r).left ≠ bs) : (c.next bs r).left.length + 2 ≤ bs.length := by
  match ht : Frame.take c.maxFrame bs with
  | .ok none => exact absurd (next_of_no_take r ht).2 h
  | .error e => exact absurd (next_of_refusal r ht).2 h
  | .ok (some (body, rest)) =>
    rw [(next_of_take r ht).2]
    exact (Frame.take_eq_some_iff_whole.mp ht).length_rest

/-- Whether a loop goes on after a call on `bs`, behind a refused body only if it is to `resume`. -/
def Taken.goesOn (t : Taken) (resume : Bool) (bs : Bytes) : Bool :=
  match t.result with
  | .ok (some _) => true
  | .ok none => false
  | .error _ => resume && t.left ≠ bs

/-- Decodes over and over, call `k` under `threshold k`, and gives what all calls gave, if they are
at most `n`. -/
def drain (c : Codec) (threshold : Nat → Int32) (resume : Bool) :
    Nat → Nat → Bytes → Reserves → Option (List Taken)
  | 0, _, _, _ => none
  | n + 1, k, bs, r =>
    let t := (c.switch (threshold k)).next bs r
    if t.goesOn resume bs then (drain c threshold resume n (k + 1) t.left t.reserves).map (t :: ·)
    else some [t]

theorem left_ne_of_goesOn {resume : Bool} (h : (c.next bs r).goesOn resume bs) :
    (c.next bs r).left ≠ bs := by
  unfold Taken.goesOn at h
  split at h
  · rename_i p hp
    have hlt := length_left_lt hp
    intro hleft
    rw [hleft] at hlt
    exact Nat.lt_irrefl _ hlt
  · cases h
  · simp only [Bool.and_eq_true, decide_eq_true_eq] at h
    exact h.2

/-- Half as many calls as there are bytes, and a last one, are always enough. -/
theorem drain_isSome (c : Codec) (threshold : Nat → Int32) (resume : Bool) {n : Nat} (k : Nat)
    {bs : Bytes} (r : Reserves) (h : bs.length / 2 < n) :
    (c.drain threshold resume n k bs r).isSome := by
  induction n generalizing k bs r with
  | zero => omega
  | succ n ih =>
    simp only [drain]
    split
    · rename_i hgo
      have := length_left (left_ne_of_goesOn hgo)
      rw [Option.isSome_map]
      exact ih (k + 1) _ (by omega)
    · rfl

/-- A call decides by the front of the buffer, whatever comes behind. It removes exactly the frame,
whatever its body comes to, and otherwise nothing; a loop of calls ends. -/
theorem next_all_or_nothing (c : Codec) (bs : Bytes) (r : Reserves) :
    let cut := Frame.takeAll c.maxFrame 1
    (∀ body rest, cut bs = (([body], none), rest) ↔ Frame.Whole c.maxFrame bs body rest) ∧
    (∀ e left, cut bs = (([], some e), left) ↔ Frame.Refused c.maxFrame bs e ∧ left = bs) ∧
    (∀ left, cut bs = (([], none), left) ↔ Frame.Undecided c.maxFrame bs ∧ left = bs) ∧
    (∀ more, (cut bs).1 ≠ ([], none) → cut (bs ++ more) = ((cut bs).1, (cut bs).2 ++ more)) ∧
    (∀ body rest, Frame.Whole c.maxFrame bs body rest →
      (c.next bs r).left = rest ∧ (c.next bs r).result = (c.decodeBody body r).1.map some) ∧
    (∀ e, Frame.Refused c.maxFrame bs e →
      (c.next bs r).left = bs ∧ (c.next bs r).result = .error e) ∧
    (Frame.Undecided c.maxFrame bs → (c.next bs r).left = bs ∧ (c.next bs r).result = .ok none) ∧
    (∀ threshold resume k,
      (c.drain threshold resume (bs.length / 2 + 1) k bs r).isSome) := by
  intro cut
  exact ⟨fun body rest => Frame.takeAll_one_eq_body_iff,
    fun e left => Frame.takeAll_one_eq_refusal_iff,
    fun left => Frame.takeAll_one_eq_nothing_iff,
    fun more h => Frame.takeAll_one_append h more,
    fun body rest => next_of_whole, fun e => next_of_refused, next_of_undecided,
    fun threshold resume k => drain_isSome c threshold resume k r (by omega)⟩

/-- A frame that declares a size below the threshold goes, and the frame behind it is next. -/
theorem next_all_or_nothing_below_threshold :
    let c : Codec := { threshold := 16 }
    let bs : Bytes := [2, 5, 9, 3, 0, 7, 1, 4]
    Frame.Whole c.maxFrame bs [5, 9] [3, 0, 7, 1, 4] ∧
    (c.next bs {}).left = [3, 0, 7, 1, 4] ∧
    (c.next bs {}).result = .error (.invalidFrame .belowThreshold) ∧
    (c.drain (fun _ => 16) true (bs.length / 2 + 1) 0 bs {}).isSome := by
  intro c bs
  have hwhole : Frame.Whole c.maxFrame bs [5, 9] [3, 0, 7, 1, 4] :=
    ⟨[2], 2, rfl, ⟨2, .last (b := 2) (by decide), by decide, rfl⟩, rfl, by decide, by decide⟩
  obtain ⟨-, -, -, -, hnext, -, -, hdrain⟩ := next_all_or_nothing c bs {}
  obtain ⟨hleft, hresult⟩ := hnext _ _ hwhole
  exact ⟨hwhole, hleft, hresult, hdrain (fun _ => 16) true 0⟩

end Codec

end PacketWire

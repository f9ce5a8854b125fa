import PacketWire.Inbox
import PacketWire.Proofs.Codec.Decode
import PacketWire.Proofs.Endpoint.Feed

/-!
# Packet streams and the cut of the bytes

`Codec.decodeAll` decodes a whole byte string at one go, each frame under the threshold of its
turn. `Inbox.items` polls a packet stream over and over, while others use the pool and the
threshold changes with every item. Whatever pieces and pauses the bytes arrive with, both come to
the same: a verdict on the bytes at hand stands when more arrive, and the source is asked for more
only while the first frame is incomplete.
-/

namespace PacketWire

/-! ## The reference -/

/-- What an ending means for the bytes that are left undecoded. -/
def Ending.after (e : Ending) (left : Bytes) : List (Except WireError Packet) :=
  match e with
  | .closed => if left.isEmpty then [] else [.error .unexpectedEndOfStream]
  | .failed x => [.error (.io x)]

/-- Decodes `bs` up to the first error or incomplete frame, and there ends with `e`. Packet `k` is
decoded under `threshold k`. -/
def Codec.decodeAll (c : Codec) (threshold : Nat → Int32) (e : Ending) (k : Nat) (bs : Bytes)
    (r : Reserves) : List (Except WireError Packet) :=
  let t := (c.switch (threshold k)).next bs r
  match _h : t.result with
  | .ok (some p) => .ok p :: decodeAll c threshold e (k + 1) t.left t.reserves
  | .ok none => e.after t.left
  | .error x => [.error x]
termination_by bs.length
decreasing_by exact length_left_lt _h

namespace Codec

variable {c : Codec} {threshold : Nat → Int32} {e : Ending} {k : Nat} {bs : Bytes} {r : Reserves}

theorem decodeAll_of_packet {p : Packet}
    (h : ((c.switch (threshold k)).next bs r).result = .ok (some p)) :
    c.decodeAll threshold e k bs r = .ok p :: c.decodeAll threshold e (k + 1)
      ((c.switch (threshold k)).next bs r).left ((c.switch (threshold k)).next bs r).reserves := by
  rw [decodeAll]
  split <;> simp_all

theorem decodeAll_of_incomplete
    (h : ((c.switch (threshold k)).next bs r).result = .ok none) :
    c.decodeAll threshold e k bs r = e.after bs := by
  have hl := (next_of_no_take r (next_eq_none_iff.mp h)).2
  rw [decodeAll]
  split <;> simp_all

theorem decodeAll_of_refusal {x : WireError}
    (h : ((c.switch (threshold k)).next bs r).result = .error x) :
    c.decodeAll threshold e k bs r = [.error x] := by
  rw [decodeAll]
  split <;> simp_all

end Codec

/-- Whether two rows of items are the same but for spare memory. -/
def SameItems (xs ys : List (Except WireError Packet)) : Prop :=
  xs.map (Except.map Packet.trimmed) = ys.map (Except.map Packet.trimmed)

namespace Inbox

/-! ## Polling to the end -/

/-- The threshold that each packet finds in force, and what others do to a pool without limit before
each poll. -/
structure Surroundings where
  threshold : Nat → Int32
  others : Nat → Reserves → Reserves
  unlimited : ∀ (j : Nat) (r : Reserves), r.Unlimited → (others j r).Unlimited

variable {σ : Type} [Source σ]

def pollIn (env : Surroundings) (k j : Nat) (i : Inbox) (s : σ) (r : Reserves) : Answer σ :=
  (i.switch (env.threshold k)).poll false s (env.others j r)

/-- The items from an answer on, if the stream comes to its end in fewer than `n` more polls. -/
def itemsFrom (env : Surroundings) : Nat → Nat → Nat → Answer σ →
    Option (List (Except WireError Packet))
  | 0, _, _, _ => none
  | n + 1, k, j, a =>
    match a.next with
    | .ready none => some []
    | .ready (some x) =>
      (itemsFrom env n (k + 1) (j + 1) (pollIn env (k + 1) j a.inbox a.source a.reserves)).map
        (x :: ·)
    | .pending => itemsFrom env n k (j + 1) (pollIn env k j a.inbox a.source a.reserves)

/-- All items of a stream, if it comes to its end in at most `n` polls. -/
def items (env : Surroundings) (n : Nat) (i : Inbox) (s : σ) (r : Reserves) :
    Option (List (Except WireError Packet)) :=
  itemsFrom env n 0 1 (pollIn env 0 0 i s r)

variable {i : Inbox} {s s' : σ} {r : Reserves}

theorem poll_of_over {cancelled : Bool} (h : i.phase = .over) :
    i.poll cancelled s r = { next := .ready none, inbox := i, source := s, reserves := r } := by
  rw [poll]
  split <;> simp_all

theorem poll_of_draining (h : i.phase = .draining) :
    i.poll false s r =
      let t := i.codec.next i.buffer r
      match t.result with
      | .ok (some p) =>
        { next := .ready (some (.ok p)), inbox := i.keep t.left, source := s,
          reserves := t.reserves }
      | .ok none => (i.keep t.left).gather.poll false s t.reserves
      | .error e =>
        { next := .ready (some (.error e)), inbox := i.finish, source := s,
          reserves := t.reserves } := by
  rw [poll]
  split
  · simp_all
  · simp only [Bool.false_eq_true, if_false]
    split <;> simp_all
  · simp_all

theorem poll_of_gathering (h : i.phase = .gathering) :
    i.poll false s r =
      match Source.read i.room s with
      | (.pending, s') => { next := .pending, inbox := i.prepare, source := s', reserves := r }
      | (.ready (.error e), s') =>
        { next := .ready (some (.error (.io e))), inbox := i.finish, source := s', reserves := r }
      | (.ready (.ok []), s') =>
        { next := .ready i.ending, inbox := i.finish, source := s', reserves := r }
      | (.ready (.ok (b :: bs)), s') =>
        { i.prepare with buffer := i.buffer ++ b :: bs, phase := .draining }.poll false s' r := by
  rw [poll]
  split
  · simp_all
  · simp_all
  · simp only [Bool.false_eq_true, if_false]
    split <;> simp_all

variable {env : Surroundings} {k j : Nat} {a : Answer σ} {x y : Except WireError Packet}
  {ys : List (Except WireError Packet)}

/-- From answer `a` on, the stream comes to its end, and its items are `ys`. -/
def Yields (env : Surroundings) (k j : Nat) (a : Answer σ) (ys : List (Except WireError Packet)) :
    Prop :=
  ∃ n, ∀ m, n ≤ m → ∃ xs, itemsFrom env m k j a = some xs ∧ SameItems xs ys

theorem yields_of_end (ha : a.next = .ready none) : Yields env k j a [] := by
  refine ⟨1, fun m hm => ⟨[], ?_, rfl⟩⟩
  obtain ⟨m, rfl⟩ : ∃ l, m = l + 1 := ⟨m - 1, by omega⟩
  simp only [itemsFrom, ha]

theorem yields_of_pending (ha : a.next = .pending)
    (h : Yields env k (j + 1) (pollIn env k j a.inbox a.source a.reserves) ys) :
    Yields env k j a ys := by
  obtain ⟨n, h⟩ := h
  refine ⟨n + 1, fun m hm => ?_⟩
  obtain ⟨m, rfl⟩ : ∃ l, m = l + 1 := ⟨m - 1, by omega⟩
  simp only [itemsFrom, ha]
  exact h m (by omega)

theorem yields_of_item (ha : a.next = .ready (some x))
    (hx : x.map Packet.trimmed = y.map Packet.trimmed)
    (h : Yields env (k + 1) (j + 1) (pollIn env (k + 1) j a.inbox a.source a.reserves) ys) :
    Yields env k j a (y :: ys) := by
  obtain ⟨n, h⟩ := h
  refine ⟨n + 1, fun m hm => ?_⟩
  obtain ⟨m, rfl⟩ : ∃ l, m = l + 1 := ⟨m - 1, by omega⟩
  obtain ⟨xs, hxs, hsame⟩ := h m (by omega)
  refine ⟨x :: xs, ?_, ?_⟩
  · simp only [itemsFrom, ha, hxs, Option.map_some]
  · rw [SameItems, List.map_cons, List.map_cons, hx, hsame]

theorem yields_of_last (ha : a.next = .ready (some x)) (ho : a.inbox.phase = .over) :
    Yields env k j a [x] := by
  refine yields_of_item ha rfl (yields_of_end ?_)
  have ho' : (a.inbox.switch (env.threshold (k + 1))).phase = .over := ho
  rw [pollIn, poll_of_over ho']

/-! ## One frame after the other -/

variable {c : Codec} {w : Bytes} {e : Ending}

/-- From inbox `i` on, polling to the end comes to decoding everything at one go. -/
def Agrees (env : Surroundings) (c : Codec) (i : Inbox) (s : σ) (w : Bytes) (e : Ending) : Prop :=
  ∀ (k j : Nat) (r r' : Reserves), i.codec = c.switch (env.threshold k) → r.Unlimited →
    r'.Unlimited →
    Yields env k j (i.poll false s r) (c.decodeAll env.threshold e k (i.buffer ++ w) r')

theorem codec_switch {i : Inbox} {t : Int32} (h : i.codec = c.switch t) (t' : Int32) :
    (i.switch t').codec = c.switch t' := by
  rw [switch, h]
  rfl

/-- Draining gives packet after packet, until the first frame is incomplete. -/
theorem agrees_of_draining
    (hg : ∀ i : Inbox, i.phase = .gathering → Frame.take c.maxFrame i.buffer = .ok none →
      Agrees env c i s w e) (i : Inbox) (hd : i.phase = .draining) : Agrees env c i s w e := by
  -- Every packet shortens the buffer. The verdict on the bytes at hand is also the one on all
  -- bytes, for which the reference asks.
  induction hn : i.buffer.length using Nat.strongRecOn generalizing i with
  | ind n ih =>
    intro k j r r' hc hr hr'
    have hr1 := Codec.next_unlimited i.codec i.buffer hr
    match ht : (i.codec.next i.buffer r).result with
    | .error x =>
      simp only [poll_of_draining hd, ht]
      rw [hc] at ht
      rw [Codec.decodeAll_of_refusal (Codec.next_append_of_refusal hr hr' ht w)]
      exact yields_of_last rfl rfl
    | .ok none =>
      have hnone := Codec.next_eq_none_iff.mp ht
      have hleft : (i.codec.next i.buffer r).left = i.buffer := (Codec.next_of_no_take r hnone).2
      simp only [poll_of_draining hd, ht, hleft]
      rw [hc] at hnone
      exact hg (i.keep i.buffer).gather rfl hnone k j _ r' hc hr1 hr'
    | .ok (some p) =>
      have hlt := Codec.length_left_lt ht
      simp only [poll_of_draining hd, ht]
      rw [hc] at ht
      obtain ⟨p', hp', htrim, hl⟩ := Codec.next_append_of_packet hr' ht w
      rw [Codec.decodeAll_of_packet hp', hl, ← hc]
      refine yields_of_item rfl (congrArg Except.ok htrim.symm) ?_
      have hnext := ih _ (hn ▸ hlt) ((i.keep _).switch (env.threshold (k + 1))) hd rfl
      exact hnext _ _ _ _ (codec_switch hc _) (env.unlimited j _ hr1) (Codec.next_unlimited _ _ hr')

/-- Gathering asks the source until it has enough or ends. -/
theorem agrees_of_gives {g : Poll (Except IoError Bytes) × σ} (h : Gives g w e) :
    ∀ (i : Inbox) (s : σ), i.phase = .gathering → Frame.take c.maxFrame i.buffer = .ok none →
      Source.read i.room s = g → Agrees env c i s w e := by
  induction h with
  | pending _ ih =>
    intro i s hi hnone hs k j r r' hc hr hr'
    rw [poll_of_gathering hi, hs]
    refine yields_of_pending rfl ?_
    have hnext := ih _ (room_pos _) (i.prepare.switch (env.threshold k)) _ hi hnone rfl
    exact hnext _ _ _ r' (codec_switch hc _) (env.unlimited j r hr) hr'
  | @data s' b bs w e _ ih =>
    intro i s hi hnone hs k j r r' hc hr hr'
    rw [poll_of_gathering hi, hs, ← List.append_assoc]
    have hmore := agrees_of_draining fun i hi hnone => ih i.room i.room_pos i s' hi hnone rfl
    exact hmore { i.prepare with buffer := i.buffer ++ b :: bs, phase := .draining } rfl
      k j r r' hc hr hr'
  | closed =>
    intro i s hi hnone hs k j r r' hc hr hr'
    simp only [poll_of_gathering hi, hs, List.append_nil, ending, Ending.after,
      Codec.decodeAll_of_incomplete (Codec.next_eq_none_iff.mpr hnone)]
    split
    · exact yields_of_end rfl
    · exact yields_of_last rfl rfl
  | failed =>
    intro i s hi hnone hs k j r r' hc hr hr'
    rw [poll_of_gathering hi, hs, List.append_nil,
      Codec.decodeAll_of_incomplete (Codec.next_eq_none_iff.mpr hnone)]
    exact yields_of_last rfl rfl

/-- However a stream is cut and whatever pauses lie between, polling it to its end gives the items
of decoding all its bytes at one go. -/
theorem items_eq_decodeAll (env : Surroundings) (c : Codec) (chunk : Nat) {s : σ} {w : Bytes}
    {e : Ending} (h : Feeds s w e) {r r' : Reserves} (hr : r.Unlimited) (hr' : r'.Unlimited) :
    ∃ n, ∀ m, n ≤ m → ∃ xs, items env m { codec := c, chunk } s r = some xs ∧
      SameItems xs (c.decodeAll env.threshold e 0 w r') := by
  let i : Inbox := Inbox.switch { codec := c, chunk } (env.threshold 0)
  have hg : Gives (Source.read i.room s) w e := h i.room i.room_pos
  have hi : Agrees env c i s w e := agrees_of_gives hg i s rfl (Frame.take_nil _) rfl
  exact hi 0 1 (env.others 0 r) r' rfl (env.unlimited 0 r hr) hr'

/-- Two packets, cut in the middle, and a length without its frame; the threshold is switched on
behind the first packet. -/
theorem items_eq_decodeAll_switched :
    let env : Surroundings :=
      { threshold := fun k => if k = 0 then -1 else 64, others := fun _ r => r,
        unlimited := fun _ _ h => h }
    let s : Script := { reads := [.data [2, 5], .pending, .data [7, 3, 0, 6], .data [1, 4]] }
    let ys : List (Except WireError Packet) :=
      [.ok { id := 5, storage := .shared [5, 7], start := 0, payloadStart := 1 },
        .ok { id := 6, storage := .shared [6, 1], start := 0, payloadStart := 1 },
        .error .unexpectedEndOfStream]
    Feeds s [2, 5, 7, 3, 0, 6, 1, 4] .closed ∧ ∃ n, ∀ m, n ≤ m →
      ∃ xs, items env m { codec := {}, chunk := 1 } s {} = some xs ∧ SameItems xs ys := by
  intro env s ys
  have hs : Feeds s [2, 5, 7, 3, 0, 6, 1, 4] .closed :=
    Script.feeds s.reads [] (by decide) rfl s rfl rfl
  have hd : ({} : Codec).decodeAll env.threshold .closed 0 [2, 5, 7, 3, 0, 6, 1, 4] {} = ys := by
    rw [Codec.decodeAll_of_packet (p := ⟨5, .shared [5, 7], 0, 1⟩) rfl,
      Codec.decodeAll_of_packet (p := ⟨6, .shared [6, 1], 0, 1⟩) rfl,
      Codec.decodeAll_of_incomplete rfl]
    rfl
  have h := items_eq_decodeAll env {} 1 hs (r := {}) rfl (rfl : Reserves.Unlimited {})
  rw [hd] at h
  exact ⟨hs, h⟩

end Inbox

end PacketWire

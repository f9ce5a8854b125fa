import Mathlib.Data.List.Perm.Basic
import PacketWire.Endpoint.Script
import PacketWire.Proofs.FrameRead
import PacketWire.Proofs.Codec.Encode

/-!
# The ledger of a pool

A `Ledger` is a pool together with all that its callers own: buffers, packets and reads under way.
`Op` is what they can do with it, and `step` what that does. Over every run, the pool's count of
buffers out is the number of buffers that are `live` in somebody's hands; what a call that comes to
nothing was given is back in the pool, and so is all that it took.
-/

namespace PacketWire

structure Ledger where
  reserves : Reserves
  buffers : List Buffer := []
  packets : List Packet := []
  reads : List FrameRead := []

namespace Ledger

/-- What a caller does. Buffers, packets and reads that are used up go by their place. -/
inductive Op (σ : Type) where
  | acquire (length : Nat)
  | edit (i : Nat) (change : Buffer → Buffer)
  | giveBack (i : Nat)
  | decode (c : Codec) (bs : Bytes)
  | decodeBody (c : Codec) (body : Bytes)
  | decodePooled (c : Codec) (i : Nat)
  | encode (c : Codec) (x : Codec.Item) (out : Bytes)
  /-- One read that is polled at most so often, and then given up. -/
  | read (c : Codec) (s : σ) (polls : Nat)
  /-- A read that other calls may come between. -/
  | start
  | poll (c : Codec) (i : Nat) (s : σ)
  | abandon (i : Nat)
  | intoPayload (i : Nat)
  | release (i : Nat)

/-- What becomes of a call. -/
inductive Outcome where
  | done
  | failed (e : WireError)
  /-- Given up before it was done. -/
  | abandoned
  deriving DecidableEq

def collect (l : Ledger) : Except WireError Packet × Reserves → Outcome × Ledger
  | (.ok p, reserves) => (.done, { l with reserves, packets := p :: l.packets })
  | (.error e, reserves) => (.failed e, { l with reserves })

def giveBack (l : Ledger) (i : Nat) : Ledger :=
  match l.buffers[i]? with
  | none => l
  | some b => { l with reserves := l.reserves.release b, buffers := l.buffers.eraseIdx i }

def abandon (l : Ledger) (i : Nat) : Ledger :=
  match l.reads[i]? with
  | none => l
  | some f => { l with reserves := f.abandon l.reserves, reads := l.reads.eraseIdx i }

def release (l : Ledger) (i : Nat) : Ledger :=
  match l.packets[i]? with
  | none => l
  | some p => { l with reserves := p.release l.reserves, packets := l.packets.eraseIdx i }

def intoPayload (l : Ledger) (i : Nat) : Ledger :=
  match l.packets[i]? with
  | none => l
  | some p => { l with reserves := (p.intoPayload l.reserves).2, packets := l.packets.eraseIdx i }

variable {σ : Type}

/-- Gives back what an operation is called with. -/
def forgo (l : Ledger) : Op σ → Ledger
  | .giveBack i | .decodePooled _ i => l.giveBack i
  | .poll _ i _ | .abandon i => l.abandon i
  | .intoPayload i | .release i => l.release i
  | _ => l

/-! ## Steps -/

variable [Source σ]

def step (l : Ledger) : Op σ → Outcome × Ledger
  | .acquire length =>
    match l.reserves.acquire length with
    | (.ok b, reserves) => (.done, { l with reserves, buffers := b :: l.buffers })
    | (.error e, reserves) => (.failed e, { l with reserves })
  | .edit i change => (.done, { l with buffers := l.buffers.modify i change })
  | .giveBack i => (.done, l.giveBack i)
  | .decode c bs =>
    let t := c.next bs l.reserves
    match t.result with
    | .ok (some p) => (.done, { l with reserves := t.reserves, packets := p :: l.packets })
    | .ok none => (.done, { l with reserves := t.reserves })
    | .error e => (.failed e, { l with reserves := t.reserves })
  | .decodeBody c body => l.collect (c.decodeBody body l.reserves)
  | .decodePooled c i =>
    match l.buffers[i]? with
    | none => (.done, l)
    | some b =>
      { l with buffers := l.buffers.eraseIdx i }.collect (c.decodePooled b l.reserves)
  | .encode c x out =>
    let e := c.putItem out l.reserves x
    (match e.result with
      | .ok _ => .done
      | .error e => .failed e,
      { l with reserves := e.reserves })
  | .read c s polls =>
    match drive (fun f (s, r) => FrameRead.poll c f s r) polls .start (s, l.reserves) with
    | (.waiting f, _, reserves) => (.abandoned, { l with reserves := f.abandon reserves })
    | (.done result, _, reserves) => l.collect (result, reserves)
  | .start => (.done, { l with reads := .start :: l.reads })
  | .poll c i s =>
    match l.reads[i]? with
    | none => (.done, l)
    | some f =>
      match f.poll c s l.reserves with
      | (.waiting f, _, reserves) =>
        (.done, { l with reserves, reads := f :: l.reads.eraseIdx i })
      | (.done result, _, reserves) =>
        { l with reads := l.reads.eraseIdx i }.collect (result, reserves)
  | .abandon i => (.abandoned, l.abandon i)
  | .intoPayload i => (.done, l.intoPayload i)
  | .release i => (.done, l.release i)

def run (l : Ledger) (ops : List (Op σ)) : Ledger := ops.foldl (fun l op => (l.step op).2) l

/-! ## Balance -/

/-- How many buffers are in somebody's hands. -/
def live (l : Ledger) : Nat :=
  l.buffers.length + l.packets.countP (·.isPooled) + l.reads.countP (·.holdsBuffer)

def outstanding (l : Ledger) : Nat := l.reserves.pool.outstanding

/-- The pool has out what is in somebody's hands. -/
def Balanced (l : Ledger) : Prop := l.outstanding = l.live

theorem Balanced.outstanding_eq {l : Ledger} (h : l.Balanced) :
    l.reserves.pool.outstanding = l.live := h

/-- The pool moves, buffer by buffer, as far as what is in somebody's hands does. -/
def Moves (l l' : Ledger) : Prop := l.reserves.Path (l'.live - l.live) l'.reserves

theorem length_eq_of_getElem? {α : Type} {xs : List α} {i : Nat} {x : α} (h : xs[i]? = some x) :
    xs.length = (xs.eraseIdx i).length + 1 := by
  obtain ⟨hi, rfl⟩ := List.getElem?_eq_some_iff.mp h
  exact (List.getElem_cons_eraseIdx_perm hi).length_eq.symm

theorem countP_eq_of_getElem? {α : Type} (q : α → Bool) {xs : List α} {i : Nat} {x : α}
    (h : xs[i]? = some x) :
    xs.countP q = (xs.eraseIdx i).countP q + if q x then 1 else 0 := by
  obtain ⟨hi, rfl⟩ := List.getElem?_eq_some_iff.mp h
  rw [← (List.getElem_cons_eraseIdx_perm hi).countP_eq q, List.countP_cons]

variable {l : Ledger}

theorem live_of_buffer {i : Nat} {b : Buffer} (h : l.buffers[i]? = some b) :
    l.live = { l with buffers := l.buffers.eraseIdx i }.live + 1 := by
  have := length_eq_of_getElem? h
  simp only [live]
  omega

theorem live_of_packet {i : Nat} {p : Packet} (h : l.packets[i]? = some p) :
    l.live = { l with packets := l.packets.eraseIdx i }.live + p.buffers := by
  have := countP_eq_of_getElem? (·.isPooled) h
  simp only [live, Packet.buffers]
  omega

theorem live_of_read {i : Nat} {f : FrameRead} (h : l.reads[i]? = some f) :
    l.live = { l with reads := l.reads.eraseIdx i }.live + f.buffers := by
  have := countP_eq_of_getElem? (·.holdsBuffer) h
  simp only [live, FrameRead.buffers]
  omega

/-! ## What every operation moves -/

theorem live_collect (x : Except WireError Packet × Reserves) :
    (l.collect x).2.live = l.live + Packet.held x.1 := by
  obtain ⟨_ | p, r⟩ := x
  · rfl
  · simp only [collect, live, List.countP_cons, Packet.held, Packet.buffers]
    omega

theorem reserves_collect (x : Except WireError Packet × Reserves) :
    (l.collect x).2.reserves = x.2 := by
  obtain ⟨_ | p, r⟩ := x <;> rfl

theorem Moves.refl (l : Ledger) : Moves l l :=
  (Reserves.Path.refl l.reserves).cast (by omega)

theorem Moves.collect {l l' : Ledger} {x : Except WireError Packet × Reserves}
    (h : l.reserves.Path (Packet.held x.1 + l'.live - l.live) x.2) : Moves l (l'.collect x).2 := by
  rw [Moves, reserves_collect, live_collect]
  exact h.cast (by omega)

theorem moves_giveBack (h : l.Balanced) (i : Nat) : Moves l (l.giveBack i) := by
  unfold giveBack
  split
  · exact .refl l
  · rename_i b hb
    have hl := live_of_buffer hb
    have hout := h.outstanding_eq
    exact (Reserves.Path.release b (by omega)).cast (by simp only [live] at hl ⊢; omega)

theorem moves_abandon (h : l.Balanced) (i : Nat) : Moves l (l.abandon i) := by
  unfold abandon
  split
  · exact .refl l
  · rename_i f hf
    have hl := live_of_read hf
    have hout := h.outstanding_eq
    exact (FrameRead.path_abandon (by omega)).cast (by simp only [live] at hl ⊢; omega)

theorem moves_release (h : l.Balanced) (i : Nat) : Moves l (l.release i) := by
  unfold release
  split
  · exact .refl l
  · rename_i p hp
    have hl := live_of_packet hp
    have hout := h.outstanding_eq
    exact (Packet.path_release (by omega)).cast (by simp only [live] at hl ⊢; omega)

theorem intoPayload_eq_release (l : Ledger) (i : Nat) : l.intoPayload i = l.release i := rfl

theorem moves_decode (l : Ledger) (c : Codec) (bs : Bytes) :
    Moves l (l.step (.decode c bs : Op σ)).2 := by
  have hp := Codec.path_next c bs l.reserves
  simp only [step]
  cases ht : (c.next bs l.reserves).result with
  | error e => exact hp.cast (by simp [Codec.Taken.held, ht, live])
  | ok found =>
    cases found with
    | none => exact hp.cast (by simp [Codec.Taken.held, ht, live])
    | some p =>
      refine hp.cast ?_
      simp only [Codec.Taken.held, ht, live, List.countP_cons, Packet.buffers]
      omega

theorem moves_decodePooled (h : l.Balanced) (c : Codec) (i : Nat) :
    Moves l (l.step (.decodePooled c i : Op σ)).2 := by
  simp only [step]
  split
  · exact .refl l
  · rename_i b hb
    have hl := live_of_buffer hb
    have hout := h.outstanding_eq
    have hp : l.reserves.Path (Packet.held (c.decodePooled b l.reserves).1 - 1)
        (c.decodePooled b l.reserves).2 := Codec.path_decodePooled (by omega) rfl
    exact .collect (hp.cast (by omega))

theorem moves_read (l : Ledger) (c : Codec) (s : σ) (polls : Nat) :
    Moves l (l.step (.read c s polls)).2 := by
  have hp := FrameRead.path_drive (c := c) (f := .start) (s := s) (r := l.reserves)
    (Nat.zero_le _) polls
  have h0 : (FrameRead.start.buffers : Int) = 0 := rfl
  simp only [step]
  split
  · rename_i f s' r hd
    rw [hd] at hp
    simp only [FrameRead.heldBy] at hp
    have hout := Pool.Path.outstanding hp
    exact (hp.trans (FrameRead.path_abandon (by omega))).cast (by simp only [live]; omega)
  · rename_i result s' r hd
    rw [hd] at hp
    exact .collect (hp.cast (by simp only [FrameRead.heldBy]; omega))

theorem moves_poll (h : l.Balanced) (c : Codec) (i : Nat) (s : σ) :
    Moves l (l.step (.poll c i s)).2 := by
  simp only [step]
  split
  · exact .refl l
  · rename_i f hf
    have hl := live_of_read hf
    have hout := h.outstanding_eq
    have hp := FrameRead.path_poll (c := c) (s := s) (f := f) (r := l.reserves) (by omega)
    split
    · rename_i f' s' r hd
      rw [hd] at hp
      refine hp.cast ?_
      simp only [FrameRead.heldBy, FrameRead.buffers, live, List.countP_cons] at hl ⊢
      omega
    · rename_i result s' r hd
      rw [hd] at hp
      exact .collect (hp.cast (by simp only [FrameRead.heldBy]; omega))

/-- No operation takes back what is not out, and each moves the pool as it moves the ledger. -/
theorem moves_step (h : l.Balanced) (op : Op σ) : Moves l (l.step op).2 := by
  cases op with
  | acquire length =>
    simp only [step]
    split
    · rename_i b r ha
      exact (Reserves.Path.of_acquire ha).cast (by simp only [live, List.length_cons]; omega)
    · rename_i e r ha
      exact (Reserves.Path.of_refusal ha).cast (by simp only [live]; omega)
  | edit i change =>
    exact (Reserves.Path.refl l.reserves).cast (by simp [step, live])
  | giveBack i => exact moves_giveBack h i
  | decode c bs => exact moves_decode l c bs
  | decodeBody c body =>
    have hp : l.reserves.Path (Packet.held (c.decodeBody body l.reserves).1)
        (c.decodeBody body l.reserves).2 := Codec.path_decodeBody rfl
    exact .collect (hp.cast (by omega))
  | decodePooled c i => exact moves_decodePooled h c i
  | encode c x out =>
    have hp : l.reserves.Path 0 (c.putItem out l.reserves x).reserves := by
      rw [Reserves.Path, Codec.pool_putItem]
      exact .refl l.reserves.pool
    exact hp.cast (by simp only [step, live]; omega)
  | read c s polls => exact moves_read l c s polls
  | start =>
    exact (Reserves.Path.refl l.reserves).cast
      (by simp [step, live, FrameRead.start, FrameRead.holdsBuffer])
  | poll c i s => exact moves_poll h c i s
  | abandon i => exact moves_abandon h i
  | intoPayload i =>
    show Moves l (l.intoPayload i)
    rw [intoPayload_eq_release]
    exact moves_release h i
  | release i => exact moves_release h i

theorem Balanced.of_moves {l l' : Ledger} (h : l.Balanced) (hm : Moves l l') : l'.Balanced := by
  have hout := Pool.Path.outstanding hm
  simp only [Balanced, outstanding] at h ⊢
  omega

theorem Balanced.run (h : l.Balanced) (ops : List (Op σ)) : (l.run ops).Balanced := by
  induction ops generalizing l with
  | nil => exact h
  | cons op ops ih => exact ih (h.of_moves (moves_step h op))

omit [Source σ] in
theorem Balanced.forgo (h : l.Balanced) (op : Op σ) : (l.forgo op).Balanced := by
  cases op with
  | giveBack i => exact h.of_moves (moves_giveBack h i)
  | decodePooled c i => exact h.of_moves (moves_giveBack h i)
  | poll c i s => exact h.of_moves (moves_abandon h i)
  | abandon i => exact h.of_moves (moves_abandon h i)
  | intoPayload i => exact h.of_moves (moves_release h i)
  | release i => exact h.of_moves (moves_release h i)
  | _ => exact h

theorem live_collect_of_ne_done {x : Except WireError Packet × Reserves}
    (h : (l.collect x).1 ≠ .done) : (l.collect x).2.live = l.live := by
  obtain ⟨e | p, r⟩ := x
  · rfl
  · exact absurd rfl h

/-- A call that comes to nothing leaves its caller with what giving its inputs back leaves. -/
theorem live_step_of_ne_done {op : Op σ} (h : (l.step op).1 ≠ .done) :
    (l.step op).2.live = (l.forgo op).live := by
  revert h
  cases op with
  | acquire length =>
    simp only [step]
    split
    · exact fun h => absurd rfl h
    · exact fun _ => rfl
  | edit i change => exact fun h => absurd rfl h
  | giveBack i => exact fun h => absurd rfl h
  | decode c bs =>
    simp only [step]
    split
    · exact fun h => absurd rfl h
    · exact fun h => absurd rfl h
    · exact fun _ => rfl
  | decodeBody c body => exact live_collect_of_ne_done
  | decodePooled c i =>
    simp only [step, Ledger.forgo, giveBack]
    split
    · exact fun h => absurd rfl h
    · exact live_collect_of_ne_done
  | encode c x out => exact fun _ => rfl
  | read c s polls =>
    simp only [step]
    split
    · exact fun _ => rfl
    · exact live_collect_of_ne_done
  | start => exact fun h => absurd rfl h
  | poll c i s =>
    simp only [step, Ledger.forgo, abandon]
    split
    · exact fun h => absurd rfl h
    · split
      · exact fun h => absurd rfl h
      · exact live_collect_of_ne_done
  | abandon i => exact fun _ => rfl
  | intoPayload i => exact fun h => absurd rfl h
  | release i => exact fun h => absurd rfl h

/-! ## Whole runs -/

/-- A fresh pool that nobody has taken anything from. -/
def opened (preallocated maxPooledSize maxOutstanding : Nat) (metrics : Metrics) : Ledger :=
  { reserves := { pool := Pool.withLimits preallocated maxPooledSize maxOutstanding, metrics } }

/-- After every run on a fresh pool, what is out is what is in somebody's hands. An operation that
comes to nothing leaves out what giving its inputs back leaves out. -/
theorem outstanding_run (preallocated maxPooledSize maxOutstanding : Nat) (metrics : Metrics)
    (ops : List (Op σ)) :
    let l := (opened preallocated maxPooledSize maxOutstanding metrics).run ops
    l.outstanding =
      l.buffers.length + l.packets.countP (·.isPooled) + l.reads.countP (·.holdsBuffer) ∧
    (l.reads = [] → l.outstanding = l.buffers.length + l.packets.countP (·.isPooled)) ∧
    (∀ op : Op σ, Moves l (l.step op).2) ∧
    (∀ op : Op σ, (l.step op).1 ≠ .done →
      (l.step op).2.outstanding = (l.forgo op).outstanding) ∧
    (l.buffers = [] → l.packets = [] → l.reads = [] → l.outstanding = 0) := by
  intro l
  have h : l.Balanced := Balanced.run (l := opened ..) rfl ops
  have hlive : l.outstanding = _ := h
  refine ⟨h, fun hr => ?_, moves_step h, fun op hop => ?_, fun hb hp hr => ?_⟩
  · simpa [live, hr] using hlive
  · have hs : (l.step op).2.Balanced := h.of_moves (moves_step h op)
    exact hs.trans ((live_step_of_ne_done hop).trans (h.forgo op).symm)
  · simpa [live, hb, hp, hr] using hlive

/-- A frame whose id is cut short goes back with its buffer, and the other buffer stays out. -/
theorem outstanding_run_truncated :
    let ops : List (Op Script) := [.acquire 3, .acquire 2, .edit 0 (·.overwrite 0 [255, 255])]
    let l := (opened 1 64 2 {}).run ops
    (l.step (.decodePooled {} 0 : Op Script)).1 = .failed (.invalidFrame .missingId) ∧
      l.outstanding = 2 ∧ (l.step (.decodePooled {} 0 : Op Script)).2.outstanding = 1 := by
  intro ops l
  obtain ⟨h, -, -, hfail, -⟩ := outstanding_run 1 64 2 {} ops
  exact ⟨by decide, h.trans (by decide), (hfail (.decodePooled {} 0) (by decide)).trans (by decide)⟩

end Ledger

end PacketWire

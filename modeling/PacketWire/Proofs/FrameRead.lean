import PacketWire.FrameRead
import PacketWire.Proofs.Codec.Decode
import PacketWire.Proofs.Endpoint.Driving

/-!
# Buffers of single reads

A read owns a buffer from the moment the length of its frame is known. `heldBy` counts the buffers
that an answer leaves with the caller, in a read that goes on or in a packet. However a read goes
on, fails or is given up, the buffer it owned is in the answer or back in the pool.
-/

namespace PacketWire.FrameRead

variable {σ : Type} [Source σ] {c : Codec}

def holdsBuffer : FrameRead → Bool
  | .length _ => false
  | .body _ _ => true

def buffers (f : FrameRead) : Nat := if f.holdsBuffer then 1 else 0

/-- How many buffers an answer owns. -/
def heldBy : Progress FrameRead (Except WireError Packet) → Nat
  | .waiting f => f.buffers
  | .done result => Packet.held result

theorem path_abandon {f : FrameRead} {r : Reserves} (h : f.buffers ≤ r.pool.outstanding) :
    r.Path (-f.buffers) (f.abandon r) := by
  cases f with
  | length number => exact .refl r
  | body buffer got => exact .release buffer h

omit [Source σ] in
@[simp] theorem heldBy_fail (e : WireError) (s : σ) (r : Reserves) :
    heldBy (fail e s r).1 = 0 := rfl

omit [Source σ] in
theorem path_fail {e : WireError} {s : σ} {r r' : Reserves} {d : Int} (h : r.Path d r') :
    r.Path d (fail e s r').2.2 := by
  simp only [fail]
  split
  · exact h
  · exact h.count _

theorem path_pollBody {buffer : Buffer} {got : Bytes} {s : σ} {r : Reserves}
    (hr : 0 < r.pool.outstanding) :
    r.Path (heldBy (pollBody c buffer got s r).1 - 1) (pollBody c buffer got s r).2.2 := by
  unfold pollBody
  split
  · exact .refl r
  · exact (path_fail (.release buffer hr)).cast (by simp)
  · split
    · rename_i p r' h
      exact Codec.path_decodePooled hr h
    · rename_i e r' h
      exact (path_fail (Codec.path_decodePooled hr h)).cast (by simp [Packet.held])

theorem path_pollSized {announced : Int32} {s : σ} {r : Reserves} :
    r.Path (heldBy (pollSized c announced s r).1) (pollSized c announced s r).2.2 := by
  unfold pollSized
  split
  · exact (path_fail (.refl r)).cast (by simp)
  · split
    · rename_i e r' h
      exact (path_fail (.of_refusal h)).cast (by simp)
    · rename_i buffer r' h
      have ha := Reserves.Path.of_acquire h
      have hout := Pool.Path.outstanding ha
      exact (ha.trans (path_pollBody (by omega))).cast (by omega)

theorem path_poll {f : FrameRead} {s : σ} {r : Reserves}
    (h : f.buffers ≤ r.pool.outstanding) :
    r.Path (heldBy (poll c f s r).1 - f.buffers) (poll c f s r).2.2 := by
  cases f with
  | body buffer got => exact path_pollBody h
  | length number =>
    have hf : (buffers (.length number) : Int) = 0 := rfl
    simp only [hf, Int.sub_zero, poll]
    split
    · exact .refl r
    · exact (path_fail (.refl r)).cast (by simp)
    · exact (path_fail (.refl r)).cast (by simp)
    · exact path_pollSized

/-- Polling again and again moves no other buffers than the last answer owns. -/
theorem path_drive {f : FrameRead} {s : σ} {r : Reserves} (h : f.buffers ≤ r.pool.outstanding)
    (n : Nat) :
    r.Path (heldBy (drive (fun f (s, r) => poll c f s r) n f (s, r)).1 - f.buffers)
      (drive (fun f (s, r) => poll c f s r) n f (s, r)).2.2 := by
  refine drive_induction
    (I := fun a : _ × σ × Reserves => r.Path (heldBy a.1 - f.buffers) a.2.2) ?_ n
    ((Reserves.Path.refl r).cast (by simp [heldBy]))
  rintro f' ⟨s', r'⟩ (hpath : r.Path (f'.buffers - f.buffers) r')
  have hout := Pool.Path.outstanding hpath
  exact (hpath.trans (path_poll (by omega))).cast (by simp only [heldBy]; omega)

end PacketWire.FrameRead

import Mathlib.Algebra.GroupWithZero.Nat
import PacketWire.Metrics

/-!
# Counting rows of frames

`Metrics.received` and `Metrics.delivered` count the frames of a row one after the other, each with
its length and whether it is compressed. Every counter of theirs grows by a sum over the row,
whatever it was before, and wraps around as a whole.
-/

namespace PacketWire.Metrics

/-- By how much a counter grew, whatever it was before. -/
theorem add_sub_self (a d : UInt64) : a + d - a = d := by
  rw [UInt64.add_comm, UInt64.add_sub_cancel]

def received (m : Metrics) (frames : List (Nat × Bool)) : Metrics :=
  frames.foldl (fun m f => m.packetDecoded f.1 f.2) m

def delivered (m : Metrics) (frames : List (Nat × Bool)) : Metrics :=
  frames.foldl (fun m f => m.packetEncoded f.1 f.2) m

variable {step : Metrics → Nat × Bool → Metrics} {counter : Metrics → UInt64}
  {weight : Nat × Bool → Nat} (frames : List (Nat × Bool)) (m : Metrics)

/-- A counter that every frame adds its weight to. -/
theorem foldl_adds (h : ∀ m f, counter (step m f) = counter m + .ofNat (weight f)) :
    counter (frames.foldl step m) = counter m + .ofNat (frames.map weight).sum := by
  induction frames generalizing m with
  | nil => exact (UInt64.add_zero _).symm
  | cons f frames ih =>
    rw [List.foldl_cons, ih, h, List.map_cons, List.sum_cons, UInt64.ofNat_add, UInt64.add_assoc]

theorem sum_map_one : (frames.map fun _ => 1).sum = frames.length := by
  induction frames with
  | nil => rfl
  | cons f frames ih => rw [List.map_cons, List.sum_cons, ih, List.length_cons, Nat.add_comm]

theorem sum_map_toNat : (frames.map (·.2.toNat)).sum = frames.countP (·.2) := by
  induction frames with
  | nil => rfl
  | cons f frames ih =>
    obtain ⟨n, _ | _⟩ := f <;> simp [ih, Nat.add_comm]

theorem ofNat_toNat (z : Bool) : UInt64.ofNat z.toNat = if z then 1 else 0 := by
  cases z <;> rfl

theorem packetsDecoded_received :
    (m.received frames).packetsDecoded = m.packetsDecoded + .ofNat frames.length := by
  rw [← sum_map_one]
  exact foldl_adds frames m fun _ _ => rfl

theorem bytesReceived_received :
    (m.received frames).bytesReceived = m.bytesReceived + .ofNat (frames.map (·.1)).sum :=
  foldl_adds frames m fun _ _ => rfl

theorem compressedReceived_received : (m.received frames).compressedReceived =
    m.compressedReceived + .ofNat (frames.countP (·.2)) := by
  rw [← sum_map_toNat]
  exact foldl_adds frames m fun m f => congrArg (m.compressedReceived + ·) (ofNat_toNat f.2).symm

theorem packetsEncoded_delivered :
    (m.delivered frames).packetsEncoded = m.packetsEncoded + .ofNat frames.length := by
  rw [← sum_map_one]
  exact foldl_adds frames m fun _ _ => rfl

theorem bytesSent_delivered :
    (m.delivered frames).bytesSent = m.bytesSent + .ofNat (frames.map (·.1)).sum :=
  foldl_adds frames m fun _ _ => rfl

theorem compressedSent_delivered : (m.delivered frames).compressedSent =
    m.compressedSent + .ofNat (frames.countP (·.2)) := by
  rw [← sum_map_toNat]
  exact foldl_adds frames m fun m f => congrArg (m.compressedSent + ·) (ofNat_toNat f.2).symm

@[simp] theorem decodeErrors_received :
    (m.received frames).decodeErrors = m.decodeErrors := by
  induction frames generalizing m with
  | nil => rfl
  | cons f frames ih => exact ih _

theorem received_adds : ∀ counter ∈ [packetsDecoded, bytesReceived, compressedReceived],
    ∃ d, ∀ m, counter (received m frames) = counter m + d := by
  intro counter hc
  simp only [List.mem_cons, List.not_mem_nil, or_false] at hc
  rcases hc with rfl | rfl | rfl
  · exact ⟨_, packetsDecoded_received frames⟩
  · exact ⟨_, bytesReceived_received frames⟩
  · exact ⟨_, compressedReceived_received frames⟩

theorem decodeError_stays :
    ∀ counter ∈ [packetsDecoded, bytesReceived, compressedReceived],
      ∀ m, counter (decodeError m) = counter m := by
  simp [decodeError]

end PacketWire.Metrics

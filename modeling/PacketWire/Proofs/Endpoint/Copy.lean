import PacketWire.Endpoint.Copy
import PacketWire.Proofs.Endpoint.Recorded

/-!
# Copying out of a pipe

A copy from a pipe carries the bytes that it has read and not yet written. `Copied` is all that a
poll of it can do: wait with every byte still on its way, come to its end with all of them taken
and the sink shut down, or fail with some of them lost.
-/

namespace PacketWire

namespace Pipe

variable {most : Nat} {p p' : Pipe}

theorem read_eq_pending (h : p.read most = (.pending, p')) : p' = p := by
  unfold read at h
  split at h
  · exact (congrArg Prod.snd h).symm
  · cases h

theorem read_eq_end (hm : 0 < most) (h : p.read most = (.ready (.ok []), p')) :
    p' = p ∧ p.held = [] ∧ p.closed = true := by
  unfold read at h
  split at h
  · rename_i he
    have hclosed : (p.closed || most == 0) = true :=
      Decidable.byContradiction fun hopen => by
        rw [if_neg hopen] at h
        cases h
    have hm' : (most == 0) = false := by simp only [beq_eq_false_iff_ne]; omega
    rw [hm', Bool.or_false] at hclosed
    exact ⟨(congrArg Prod.snd h).symm, List.isEmpty_iff.mp he, hclosed⟩
  · rename_i he
    simp only [Prod.mk.injEq, Poll.ready.injEq, Except.ok.injEq, List.take_eq_nil_iff] at h
    rcases h.1 with h0 | hn
    · omega
    · simp [hn] at he

theorem read_eq_bytes {b : UInt8} {bs : Bytes} (h : p.read most = (.ready (.ok (b :: bs)), p')) :
    b :: bs ++ p'.held = p.held ∧ p'.closed = p.closed := by
  unfold read at h
  split at h
  · split at h <;> simp at h
  · simp only [Prod.mk.injEq, Poll.ready.injEq, Except.ok.injEq] at h
    obtain ⟨hb, rfl⟩ := h
    rw [← hb]
    exact ⟨List.take_append_drop .., rfl⟩

end Pipe

namespace Copy

/-- The bytes that were read and not yet written. -/
def Phase.rest : Phase → Bytes
  | .writing _ rest => rest
  | .reading | .flushing _ | .closing => []

def rest (c : Copy) : Bytes := c.phase.rest

/-- Only a copy that is cancelled ends with the news of it. -/
theorem cancelled_of_poll {σ κ : Type} [Source σ] [Sink κ] {cancelled : Bool} {c : Copy} {s : σ}
    {k : κ} (h : (c.poll cancelled s k).1 = .done (.error .cancelled)) : cancelled = true := by
  have hfinish {c : Copy} {s : σ} {k : κ} (h : (c.finish s k).1 = .done (.error .cancelled)) :
      cancelled = true := by
    unfold finish at h
    split at h <;> simp at h
  fun_induction poll cancelled c s k with
  | case1 => exact hfinish h
  | case2 c s k hc hcan => exact hcan
  | case3 => cases h
  | case4 => cases h
  | case5 => exact hfinish h
  | case6 c s k hc hcan b bs s' hr ih => exact ih h
  | case7 c s k n bs hc hcan => exact hcan
  | case8 => cases h
  | case9 => cases h
  | case10 c s k n bs hc hcan k' hw ih => exact ih h
  | case11 c s k n hc hcan => exact hcan
  | case12 => cases h
  | case13 => cases h
  | case14 c s k n hc hcan k' hf ih => exact ih h

variable {τ : Type} [Transport τ]

/-- What a poll of the copy `c` from `p` to `k` can do. -/
def Copied (c : Copy) (p : Pipe) (k : Recorded τ) :
    Progress Copy (Except WireError Nat) × Pipe × Recorded τ → Prop
  | (.waiting c', p', k') =>
    k'.accepted ++ (c'.rest ++ p'.held) = k.accepted ++ (c.rest ++ p.held) ∧
      p'.closed = p.closed ∧ (c'.phase = .closing → p'.held = [] ∧ p'.closed = true)
  | (.done (.ok _), p', k') =>
    k'.accepted = k.accepted ++ (c.rest ++ p.held) ∧ p'.held = [] ∧ p.closed = true ∧
      k'.log.getLast? = some .shutdown
  | (.done (.error _), _, k') => k'.accepted <+: k.accepted ++ (c.rest ++ p.held)

variable {c c' : Copy} {p p' : Pipe} {k k' : Recorded τ}

omit [Transport τ] in
theorem Copied.congr {w : Progress Copy (Except WireError Nat) × Pipe × Recorded τ}
    (hbytes : k'.accepted ++ (c'.rest ++ p'.held) = k.accepted ++ (c.rest ++ p.held))
    (hclosed : p'.closed = p.closed) (h : Copied c' p' k' w) :
    Copied c p k w := by
  obtain ⟨_ | _ | _, _, _⟩ := w <;>
    simpa only [Copied, hbytes, hclosed] using h

theorem copied_finish (hrest : c.rest = []) (hheld : p.held = []) (hclosed : p.closed = true) :
    Copied c p k (c.finish p k) := by
  unfold finish
  split <;> rename_i k' hk <;> have hacc := Recorded.accepted_shutdown hk
  · exact ⟨by rw [hacc, hrest]; rfl, rfl, fun _ => ⟨hheld, hclosed⟩⟩
  · rw [Copied, hacc]
    exact List.prefix_append ..
  · refine ⟨by rw [hacc, hrest, hheld, List.append_nil, List.append_nil], hheld, hclosed, ?_⟩
    rw [Recorded.log_shutdown hk, Recorded.entry, List.getLast?_concat]

theorem copied_poll (cancelled : Bool) (k : Recorded τ)
    (hend : c.phase = .closing → p.held = [] ∧ p.closed = true) :
    Copied c p k (c.poll cancelled p k) := by
  fun_induction poll cancelled c p k with
  | case1 c p k hc => exact copied_finish (by rw [rest, hc]; rfl) (hend hc).1 (hend hc).2
  | case2 c p k hc hcan => exact List.prefix_append ..
  | case3 c p k hc hcan p' hr =>
    obtain rfl := Pipe.read_eq_pending hr
    exact ⟨rfl, rfl, hend⟩
  | case4 c p k hc hcan e p' hr => exact absurd hr Pipe.read_ne_error
  | case5 c p k hc hcan p' hr =>
    obtain ⟨rfl, hheld, hclosed⟩ := Pipe.read_eq_end (Nat.le_max_right ..) hr
    exact copied_finish (by rw [rest, hc]; rfl) hheld hclosed
  | case6 c p k hc hcan b bs p' hr ih =>
    obtain ⟨hbytes, hclosed⟩ := Pipe.read_eq_bytes hr
    refine (ih (by simp)).congr ?_ hclosed
    rw [← hbytes, rest, rest, hc]
    rfl
  | case7 c p k n bs hc hcan => exact List.prefix_append ..
  | case8 c p k n bs hc hcan bs' k' hw =>
    have hwrote := Recorded.keeps_accepted.writeAll bs k
    rw [hw] at hwrote
    refine ⟨?_, rfl, by simp⟩
    rw [rest, rest, hc, Phase.rest, Phase.rest, ← List.append_assoc, ← List.append_assoc, hwrote]
  | case9 c p k n bs hc hcan e k' hw =>
    have hwrote := Recorded.keeps_accepted.writeAll bs k
    rw [hw] at hwrote
    rw [Copied, rest, hc, Phase.rest, ← List.append_assoc]
    exact hwrote.trans (List.prefix_append ..)
  | case10 c p k n bs hc hcan k' hw ih =>
    have hwrote := Recorded.keeps_accepted.writeAll bs k
    rw [hw] at hwrote
    refine (ih (by simp)).congr ?_ rfl
    rw [rest, rest, hc, Phase.rest, Phase.rest, ← List.append_assoc, ← List.append_assoc, hwrote,
      List.append_nil]
  | case11 c p k n hc hcan => exact List.prefix_append ..
  | case12 c p k n hc hcan k' hf =>
    exact ⟨by rw [Recorded.accepted_flush hf], rfl, hend⟩
  | case13 c p k n hc hcan e k' hf =>
    rw [Copied, Recorded.accepted_flush hf]
    exact List.prefix_append ..
  | case14 c p k n hc hcan k' hf ih =>
    refine (ih (by simp)).congr ?_ rfl
    rw [Recorded.accepted_flush hf, rest, rest, hc]
    rfl

end Copy

end PacketWire

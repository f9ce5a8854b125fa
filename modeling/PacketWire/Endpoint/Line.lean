import PacketWire.Endpoint.Ciphered
import PacketWire.Endpoint.Script
import PacketWire.Endpoint.Pipe

/-!
# Lines

A line is what one side of a session talks over: a script or one end of an in-memory duplex,
with a cipher around it or without. `Line.onPeer` reaches the other end of the duplex, which
sees what the cipher made of the bytes.
-/

namespace PacketWire

variable {τ υ : Type} [Transport τ] [Transport υ]

def onEither {α : Type} (left : τ → α × τ) (right : υ → α × υ) : τ ⊕ υ → α × (τ ⊕ υ)
  | .inl t => (left t).map id .inl
  | .inr u => (right u).map id .inr

omit [Transport τ] [Transport υ] in
theorem onEither_eq {α : Type} {left : τ → α × τ} {right : υ → α × υ} {t t' : τ ⊕ υ} {a : α}
    (h : onEither left right t = (a, t')) :
    (∃ x x', t = .inl x ∧ t' = .inl x' ∧ left x = (a, x')) ∨
      (∃ y y', t = .inr y ∧ t' = .inr y' ∧ right y = (a, y')) := by
  cases t with
  | inl x =>
    simp only [onEither, Prod.map, id, Prod.mk.injEq] at h
    exact .inl ⟨x, (left x).2, rfl, h.2.symm, by rw [← h.1]⟩
  | inr y =>
    simp only [onEither, Prod.map, id, Prod.mk.injEq] at h
    exact .inr ⟨y, (right y).2, rfl, h.2.symm, by rw [← h.1]⟩

instance : Transport (τ ⊕ υ) where
  read n := onEither (Source.read n) (Source.read n)
  backlog := Sum.elim Source.backlog Source.backlog
  length_le h := by
    obtain ⟨x, x', rfl, rfl, hx⟩ | ⟨x, x', rfl, rfl, hx⟩ := onEither_eq h
    · exact Source.length_le hx
    · exact Source.length_le hx
  backlog_lt_of_bytes h := by
    obtain ⟨x, x', rfl, rfl, hx⟩ | ⟨x, x', rfl, rfl, hx⟩ := onEither_eq h
    · exact Source.backlog_lt_of_bytes hx
    · exact Source.backlog_lt_of_bytes hx
  backlog_lt_of_error h := by
    obtain ⟨x, x', rfl, rfl, hx⟩ | ⟨x, x', rfl, rfl, hx⟩ := onEither_eq h
    · exact Source.backlog_lt_of_error hx
    · exact Source.backlog_lt_of_error hx
  write bs := onEither (Sink.write bs) (Sink.write bs)
  flush := onEither Sink.flush Sink.flush
  shutdown := onEither Sink.shutdown Sink.shutdown
  patience := Sum.elim Sink.patience Sink.patience
  taken_le h := by
    obtain ⟨x, x', rfl, rfl, hx⟩ | ⟨x, x', rfl, rfl, hx⟩ := onEither_eq h
    · exact Sink.taken_le hx
    · exact Sink.taken_le hx
  patience_le h := by
    obtain ⟨x, x', rfl, rfl, hx⟩ | ⟨x, x', rfl, rfl, hx⟩ := onEither_eq h
    · exact Sink.patience_le hx
    · exact Sink.patience_le hx
  patience_lt_of_interrupted h hk := by
    obtain ⟨x, x', rfl, rfl, hx⟩ | ⟨x, x', rfl, rfl, hx⟩ := onEither_eq h
    · exact Sink.patience_lt_of_interrupted hx hk
    · exact Sink.patience_lt_of_interrupted hx hk
  callsBack := Sum.elim Transport.callsBack Transport.callsBack
  release := Sum.map Transport.release Transport.release

abbrev Wire := Script ⊕ Duplex

/-- A wire, with a cipher around it or without. -/
abbrev Line (ε δ : Type) := Wire ⊕ Ciphered Wire ε δ

namespace Line

variable {ε δ α : Type}

def onWire (act : Wire → α × Wire) : Line ε δ → α × Line ε δ :=
  onEither act fun c =>
    let (answer, inner) := act c.inner
    (answer, { c with inner })

/-- Acts on the other end of the duplex; a script has none, and never answers. -/
def onPeer (act : Duplex → Poll α × Duplex) : Line ε δ → Poll α × Line ε δ :=
  onWire (onEither (fun s => (.pending, s)) fun d =>
    let (answer, d) := act d.flip
    (answer, d.flip))

end Line

end PacketWire

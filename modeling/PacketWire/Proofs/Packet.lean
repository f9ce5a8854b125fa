import PacketWire.Packet
import PacketWire.Proofs.VarInt.Numeral
import PacketWire.Proofs.Pool.Path

/-!
# What packets say

The `Content` of a packet is its id, payload and body, wherever its bytes live: parsing gives the
content of the text it was given. `Packet.trimmed` is the packet with the spare memory of its
buffer left out, which is all that two runs over different pools can differ in. `Packet.held`
counts the buffers of a verdict, and the paths here say where they came from and go to.
-/

namespace PacketWire

/-- What a packet says. -/
structure Content where
  id : Int32
  payload : Bytes
  /-- The id and the payload as they are on the wire. -/
  body : Bytes
  deriving DecidableEq, Repr

/-- The content starts with its id, and the payload is all that follows. -/
def Content.Spelled (x : Content) : Prop :=
  ∃ s, x.body = s ++ x.payload ∧ VarInt.Numeral32 s x.id

/-- The storage with the spare memory of a buffer left out. -/
def Storage.trimmed : Storage → Storage
  | .shared bs => .shared bs
  | .pooled b => .pooled { b with capacity := 0 }

theorem Storage.bytes_trimmed (s : Storage) : s.trimmed.bytes = s.bytes := by
  cases s <;> rfl

namespace Packet

/-- The packet with the spare memory of its buffer left out. -/
def trimmed (p : Packet) : Packet := { p with storage := p.storage.trimmed }

def content (p : Packet) : Content := { id := p.id, payload := p.payload, body := p.body }

def contentOf (text : Bytes) : Except WireError Content := (ofShared text).map content

theorem contentOf_eq (text : Bytes) : contentOf text =
    match VarInt.scan32 text with
    | .found id used => .ok { id, payload := text.drop used, body := text }
    | .needMore => .error (.invalidFrame .missingId)
    | .invalid => .error .malformedVarInt := by
  simp only [contentOf, ofShared, parse, Storage.bytes, List.drop_zero]
  cases VarInt.scan32 text <;> simp [Except.map, content, payload, body, Storage.bytes]

theorem contentOf_eq_ok_iff {text : Bytes} {x : Content} :
    contentOf text = .ok x ↔ x.body = text ∧ x.Spelled := by
  rw [contentOf_eq]
  constructor
  · intro h
    split at h
    · rename_i id used hs
      obtain ⟨s, rest, rfl, hid, rfl⟩ := VarInt.scan32_eq_found_iff.mp hs
      cases h
      exact ⟨rfl, s, by simp, hid⟩
    · cases h
    · cases h
  · rintro ⟨rfl, s, hb, hid⟩
    have hp : x.body.drop s.length = x.payload := by simp [hb]
    rw [hb, VarInt.scan32_of_numeral hid, ← hb]
    simp only [hp]

theorem parse_content (storage : Storage) (start : Nat) :
    (parse storage start).map content = contentOf (storage.bytes.drop start) := by
  rw [contentOf_eq, parse]
  split <;> simp_all [Except.map, content, payload, body]

/-- The slices that a parsed packet takes of its storage lie inside it. -/
theorem parse_bounds {storage : Storage} {start : Nat} {p : Packet}
    (hs : start ≤ storage.bytes.length) (h : parse storage start = .ok p) :
    p.start ≤ p.payloadStart ∧ p.payloadStart ≤ p.storage.bytes.length := by
  unfold parse at h
  split at h
  · rename_i id used hscan
    obtain ⟨s, rest, hd, -, rfl⟩ := VarInt.scan32_eq_found_iff.mp hscan
    cases h
    have := congrArg List.length hd
    simp only [List.length_drop, List.length_append] at this
    exact ⟨Nat.le_add_right .., by simp only; omega⟩
  · cases h
  · cases h

/-- Parsing does not look at spare memory. -/
theorem parse_trimmed (storage : Storage) (start : Nat) :
    (parse storage start).map trimmed = parse storage.trimmed start := by
  simp only [parse, Storage.bytes_trimmed]
  cases VarInt.scan32 (storage.bytes.drop start) <;> rfl

theorem content_trimmed (p : Packet) : p.trimmed.content = p.content := by
  simp [content, trimmed, payload, body, Storage.bytes_trimmed]

def buffers (p : Packet) : Nat := if p.isPooled then 1 else 0

/-- How many buffers a verdict owns. -/
def held : Except WireError Packet → Nat
  | .ok p => p.buffers
  | .error _ => 0

theorem parse_storage {storage : Storage} {start : Nat} {p : Packet}
    (h : parse storage start = .ok p) : p.storage = storage := by
  unfold parse at h
  split at h
  · cases h; rfl
  · cases h
  · cases h

theorem held_ofShared (body : Bytes) : held (ofShared body) = 0 := by
  cases h : ofShared body with
  | error e => rfl
  | ok p => simp [held, buffers, isPooled, parse_storage h]

theorem path_ofPooled {r r' : Reserves} {buffer : Buffer} {start : Nat}
    {result : Except WireError Packet} (hr : 0 < r.pool.outstanding)
    (h : ofPooled r buffer start = (result, r')) : r.Path (held result - 1) r' := by
  unfold ofPooled at h
  split at h
  · rename_i p hp
    cases h
    simpa [held, buffers, isPooled, parse_storage hp] using Reserves.Path.refl r
  · cases h
    simpa [held] using Reserves.Path.release buffer hr

theorem path_release {r : Reserves} {p : Packet} (h : p.buffers ≤ r.pool.outstanding) :
    r.Path (-p.buffers) (p.release r) := by
  unfold buffers isPooled release at *
  split
  · simpa [*] using Reserves.Path.refl r
  · simp only [*, if_true] at h ⊢
    exact Reserves.Path.release _ h

end Packet

end PacketWire

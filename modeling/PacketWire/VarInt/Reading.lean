import PacketWire.VarInt
import PacketWire.Endpoint.Basic

/-!
# Reading a number from a source

A `NumberRead` takes one byte at a time from a source and so consumes no byte beyond the number.
A source that ends before the first byte gives no number; one that ends later is cut short.
-/

namespace PacketWire.VarInt

/-- The groups of a number read so far. -/
structure NumberRead where
  groups : Nat := 0
  value : Nat := 0
  deriving DecidableEq, Repr

namespace NumberRead

variable {σ : Type} [Source σ]

def add (n : NumberRead) (b : UInt8) : NumberRead :=
  { groups := n.groups + 1, value := n.value + (b.toNat % 128) <<< (7 * n.groups) }

/-- What a source that fails makes of the number. -/
def failed (n : NumberRead) (e : IoError) : Except WireError (Option Int32) :=
  if e.kind = .unexpectedEof then
    if n.groups = 0 then .ok none else .error .unexpectedEndOfStream
  else .error (.io e)

def poll (n : NumberRead) (s : σ) :
    Progress NumberRead (Except WireError (Option Int32)) × σ :=
  if maxLength32 ≤ n.groups then (.done (.error .malformedVarInt), s)
  else
    match readByte s with
    | (.pending, s) => (.waiting n, s)
    | (.ready (.error e), s) => (.done (n.failed e), s)
    | (.ready (.ok b), s) =>
      if b.toNat < 128 then (.done (.ok (some (Int32.ofNat (n.add b).value))), s)
      else poll (n.add b) s
termination_by maxLength32 - n.groups
decreasing_by simp only [add]; omega

end NumberRead

end PacketWire.VarInt

import PacketWire.Packet

/-!
# Packet decoders by version

Ids and payload layouts change between protocol versions, so an id may have several decoders
over disjoint ranges of versions. A `Registry` keeps the accepted registrations in order and
hands the payload of a packet to the one that covers its version.
-/

namespace PacketWire

/-- The protocol versions from `first` to `last`, both included. -/
structure Versions where
  first : Int32
  last : Int32
  deriving DecidableEq, Repr

namespace Versions

def isEmpty (v : Versions) : Bool := v.last < v.first

def contains (v : Versions) (version : Int32) : Bool := v.first ≤ version && version ≤ v.last

/-- Whether two ranges, neither of them empty, share a version. -/
def overlaps (v w : Versions) : Bool := v.first ≤ w.last && w.first ≤ v.last

def text (v : Versions) : String := toString v.first.toInt ++ "..=" ++ toString v.last.toInt

end Versions

/-- A decoder of payloads for a packet id and a range of versions. -/
structure Registration (M : Type) where
  id : Int32
  versions : Versions
  decode : Bytes → Except WireError M

/-- Accepted registrations, the earliest first. -/
structure Registry (M : Type) where
  entries : List (Registration M) := []

namespace Registry

variable {M : Type}

/-- The earliest registration of the same id that shares a version with `r`. -/
def clash? (g : Registry M) (r : Registration M) : Option (Registration M) :=
  g.entries.find? fun e => e.id == r.id && e.versions.overlaps r.versions

/-- Adds a registration. An empty range is refused, and one that overlaps an earlier range of
the same id. -/
def register (g : Registry M) (r : Registration M) : Except WireError (Registry M) :=
  if r.versions.isEmpty then
    .error (.config ("Empty protocol range " ++ r.versions.text ++ " for packet 0x" ++ hexId r.id))
  else
    match g.clash? r with
    | some e =>
      .error (.config ("Protocol range " ++ r.versions.text ++ " for packet 0x" ++ hexId r.id ++
        " overlaps " ++ e.versions.text))
    | none => .ok { entries := g.entries ++ [r] }

/-- The registration that covers an id at a version. -/
def find? (g : Registry M) (id version : Int32) : Option (Registration M) :=
  g.entries.find? fun e => e.id == id && e.versions.contains version

def contains (g : Registry M) (id version : Int32) : Bool := (g.find? id version).isSome

/-- Decodes the payload of `p` with the decoder that covers it. -/
def decode (g : Registry M) (p : Packet) (version : Int32) : Except WireError M :=
  match g.find? p.id version with
  | none => .error (.unknownPacket p.id version)
  | some r => r.decode p.payload

end Registry

end PacketWire

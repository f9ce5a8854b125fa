/-!
# Counters

What has gone through the framing, as 64-bit counters that wrap around.
-/

namespace PacketWire

structure Metrics where
  connectionsTotal : UInt64 := 0
  connectionsActive : UInt64 := 0
  packetsDecoded : UInt64 := 0
  packetsEncoded : UInt64 := 0
  bytesReceived : UInt64 := 0
  bytesSent : UInt64 := 0
  compressedReceived : UInt64 := 0
  compressedSent : UInt64 := 0
  decodeErrors : UInt64 := 0
  encodeErrors : UInt64 := 0
  poolExhaustions : UInt64 := 0
  deriving DecidableEq, Repr, Inhabited

namespace Metrics

def connectionEstablished (m : Metrics) : Metrics :=
  { m with connectionsTotal := m.connectionsTotal + 1,
           connectionsActive := m.connectionsActive + 1 }

def connectionClosed (m : Metrics) : Metrics :=
  { m with connectionsActive := m.connectionsActive - 1 }

def packetDecoded (m : Metrics) (length : Nat) (compressed : Bool) : Metrics :=
  { m with packetsDecoded := m.packetsDecoded + 1,
           bytesReceived := m.bytesReceived + UInt64.ofNat length,
           compressedReceived := m.compressedReceived + (if compressed then 1 else 0) }

def packetEncoded (m : Metrics) (length : Nat) (compressed : Bool) : Metrics :=
  { m with packetsEncoded := m.packetsEncoded + 1,
           bytesSent := m.bytesSent + UInt64.ofNat length,
           compressedSent := m.compressedSent + (if compressed then 1 else 0) }

def decodeError (m : Metrics) : Metrics := { m with decodeErrors := m.decodeErrors + 1 }

def encodeError (m : Metrics) : Metrics := { m with encodeErrors := m.encodeErrors + 1 }

def poolExhausted (m : Metrics) : Metrics := { m with poolExhaustions := m.poolExhaustions + 1 }

/-- Every counter with its name, in the order in which a report lists them. -/
def counters (m : Metrics) : List (String × UInt64) :=
  [("connections_total", m.connectionsTotal), ("connections_active", m.connectionsActive),
   ("packets_decoded", m.packetsDecoded), ("packets_encoded", m.packetsEncoded),
   ("bytes_received", m.bytesReceived), ("bytes_sent", m.bytesSent),
   ("compressed_received", m.compressedReceived), ("compressed_sent", m.compressedSent),
   ("decode_errors", m.decodeErrors), ("encode_errors", m.encodeErrors),
   ("pool_exhaustions", m.poolExhaustions)]

end Metrics

end PacketWire

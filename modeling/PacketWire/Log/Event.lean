import PacketWire.Log.Level
import PacketWire.Metrics
import PacketWire.Codec.Encode
import PacketWire.Codec.Decode

/-!
# Log events

What the framing reports: an event has a level, the part of the program that it comes from, a
message and named values. `encoded` and `taken` are the events of a codec at work.
-/

namespace PacketWire.Log

inductive FieldValue where
  | text (s : String)
  | number (n : Int)
  | flag (b : Bool)
  deriving DecidableEq, Repr

def FieldValue.render : FieldValue → String
  | .text s => s
  | .number n => toString n
  | .flag b => toString b

structure Event where
  level : Level
  target : String
  message : String
  fields : List (String × FieldValue) := []
  deriving DecidableEq, Repr

namespace Event

def codecTarget : String := "gamewire::core::codec"

def loggingTarget : String := "gamewire::utils::logging"

def metricsTarget : String := "gamewire::utils::metrics"

/-- The event as a line of text: level, target, message and the values behind it. -/
def line (e : Event) : String :=
  e.level.upperName ++ " " ++ e.target ++ ": " ++ e.message ++
    String.join (e.fields.map fun (k, v) => " " ++ k ++ "=" ++ v.render)

def loggingInitialized (app : String) (level : Level) : Event :=
  { level := .info, target := loggingTarget, message := "Logging initialized",
    fields := [("app", .text app), ("level", .text level.upperName)] }

def metricsInitialized : Event :=
  { level := .info, target := metricsTarget, message := "Metrics collection initialized" }

def packetEncoded (id : Int32) (bodyLength : Nat) (compressed : Bool) : Event :=
  { level := .trace, target := codecTarget, message := "Encoded packet",
    fields := [("id", .number id.toInt), ("body_len", .number bodyLength),
      ("compressed", .flag compressed)] }

def packetDecoded (id : Int32) (frameLength : Nat) (compressed : Bool) : Event :=
  { level := .trace, target := codecTarget, message := "Decoded packet",
    fields := [("id", .number id.toInt), ("frame_len", .number frameLength),
      ("compressed", .flag compressed)] }

def decodeFailed (error : WireError) (buffered : Nat) : Event :=
  { level := .warn, target := codecTarget, message := "Fatal frame decode error",
    fields := [("error", .text error.message), ("buffered", .number buffered)] }

def snapshot (m : Metrics) : Event :=
  { level := .info, target := metricsTarget, message := "Framing metrics snapshot",
    fields := m.counters.map fun (k, n) => (k, .number n.toNat) }

/-- The events of encoding `p`. -/
def encoded (p : Outgoing) (e : Codec.Encoded Bool) : List Event :=
  match e.result with
  | .ok compressed => [packetEncoded p.id p.bodyLength compressed]
  | .error _ => []

/-- The events of taking a packet off `bs`. -/
def taken (c : Codec) (bs : Bytes) (t : Codec.Taken) : List Event :=
  match t.result with
  | .ok none => []
  | .error e => [decodeFailed e t.left.length]
  | .ok (some p) =>
    match Frame.take c.maxFrame bs with
    | .ok (some (body, _)) => [packetDecoded p.id body.length p.isPooled]
    | _ => []

end Event

end PacketWire.Log

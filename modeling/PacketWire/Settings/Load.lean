import PacketWire.Settings.Document
import PacketWire.Toml.Reader
import PacketWire.Toml.Printer
import PacketWire.Basic

/-!
# Loading and saving settings

Settings come from the text of a document, from one of the `Files` or from environment variables,
and are saved as the text of a document. How the system takes a write is a parameter.
-/

namespace PacketWire.Settings

open Toml

/-! ## Documents -/

def ofTextFault (text : String) : Except Fault Settings :=
  match document? text with
  | none => .error .syntaxError
  | some es => ofDocument es

def ofText (text : String) : Except WireError Settings :=
  match ofTextFault text with
  | .ok s => .ok s
  | .error f => .error (.config ("Failed to parse TOML: " ++ f.message))

def noSuchFile : String := "No such file or directory (os error 2)"

/-- The settings in the content of a file, if it exists. -/
def ofFile (content : Option ByteArray) : Except WireError Settings :=
  match content with
  | none => .error (.config ("Failed to open config file: " ++ noSuchFile))
  | some bytes =>
    match String.fromUTF8? bytes with
    | none =>
      .error (.config "Failed to read config file: stream did not contain valid UTF-8")
    | some text => ofText text

/-- The numbers in settings that a document holds as integers of 64 bits with sign. -/
def sizes (s : Settings) : List Nat :=
  let ofCapacity : Capacity → List Nat
    | .unbounded => []
    | .bounded n => [n]
  [s.codec.maxFrame, s.codec.maxUncompressed, s.pipe.chunk] ++ s.pipe.sendQueue.toList ++
    ofCapacity s.pipe.inbound ++ ofCapacity s.pipe.outbound ++
    [s.pool.preallocated, s.pool.maxPooledSize, s.pool.maxOutstanding]

/-- Whether every number fits in a document. -/
def fits (s : Settings) : Bool := s.sizes.all fun n => n ≤ 9223372036854775807

def toText (s : Settings) : Except WireError String :=
  if s.fits then .ok (render s.toDocument)
  else .error (.config "Failed to serialize config: out-of-range value for u64 type")

def defaultText : String := render ({} : Settings).toDocument

/-! ## Files -/

/-- The files there are, by their paths. -/
structure Files where
  content : String → Option ByteArray := fun _ => none

/-- How a file is written, which the system decides. -/
inductive Writing where
  | whole
  /-- The file is not opened. -/
  | refused (why : String)
  /-- The file is emptied, and written to up to some byte. -/
  | cut (count : Nat) (why : String)
  deriving DecidableEq, Repr

def Files.put (path : String) (bytes : ByteArray) (files : Files) : Files :=
  { content := fun p => if p = path then some bytes else files.content p }

def Files.write (path : String) (bytes : ByteArray) (files : Files) :
    Writing → Except String Unit × Files
  | .whole => (.ok (), files.put path bytes)
  | .refused why => (.error why, files)
  | .cut count why => (.error why, files.put path (bytes.extract 0 count))

/-- Saves settings in a file. -/
def save (path : String) (how : Writing) (files : Files) (s : Settings) :
    Except WireError Unit × Files :=
  match s.toText with
  | .error e => (.error e, files)
  | .ok text =>
    match files.write path text.toUTF8 how with
    | (.ok (), files) => (.ok (), files)
    | (.error why, files) => (.error (.config ("Failed to write config file: " ++ why)), files)

/-- Loads settings from a file. -/
def load (path : String) (files : Files) : Except WireError Settings :=
  ofFile (files.content path)

/-! ## Environment -/

/-- The variables that override defaults. -/
structure Environment where
  threshold : Option String := none
  level : Option String := none
  capacity : Option String := none
  maxOutstanding : Option String := none

/-- A number that is passed over when it cannot be read. -/
def number? (max : Nat) (text : Option String) : Option Nat :=
  text.bind fun t => (Text.readNat max t).toOption

/-- Zero bytes stand for no limit. -/
def capacityOfNumber (n : Nat) : Capacity := if n = 0 then .unbounded else .bounded n

def thresholdOf (env : Environment) : Except WireError Int32 :=
  match env.threshold with
  | none => .ok compressionOff
  | some text =>
    match Text.readInt32 text with
    | .ok n => .ok n
    | .error f =>
      .error (.config ("Invalid GAMEWIRE_COMPRESSION_THRESHOLD: " ++ f.message))

/-- The default settings with what the environment overrides. -/
def ofEnvironment (env : Environment) : Except WireError Settings := do
  let threshold ← thresholdOf env
  let base : Settings := {}
  let level := (number? Text.max32 env.level).getD base.codec.level
  let capacity := (number? Text.max64 env.capacity).map capacityOfNumber
  return { base with
    codec := { base.codec with threshold, level },
    pipe := { base.pipe with
      inbound := capacity.getD base.pipe.inbound,
      outbound := capacity.getD base.pipe.outbound },
    pool := { base.pool with
      maxOutstanding :=
        (number? Text.max64 env.maxOutstanding).getD base.pool.maxOutstanding } }

end PacketWire.Settings

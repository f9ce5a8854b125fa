import PacketWire.Settings.Basic
import PacketWire.Toml.Value
import PacketWire.Text

/-!
# Settings as documents

`ofDocument` reads settings from a table of sections and `toDocument` writes them as one. Keys
that are missing leave the default; unknown keys are passed over. Entries are read in the order
of the document, so the first fault in that order is the one reported. A section may also be an
array of its values in order.
-/

namespace PacketWire.Settings

open Toml

/-! ## Faults -/

inductive Fault where
  | syntaxError
  | wrongType (key : String)
  | outOfRange (key : String)
  | unknownName (key text : String)
  | missing (key : String)
  | logLevel (text : String)
  deriving DecidableEq, Repr

def Fault.message : Fault → String
  | .syntaxError => "not a document"
  | .wrongType key => "wrong type for " ++ key
  | .outOfRange key => "number out of range for " ++ key
  | .unknownName key text => "unknown " ++ key ++ " " ++ text
  | .missing key => "missing " ++ key
  | .logLevel text => "Invalid log level: " ++ text

/-! ## Single values -/

def natOf (max : Nat) (key : String) : Value → Except Fault Nat
  | .integer n => if 0 ≤ n ∧ n.toNat ≤ max then .ok n.toNat else .error (.outOfRange key)
  | _ => .error (.wrongType key)

def wordOf (key : String) (v : Value) : Except Fault Nat := natOf Text.max64 key v

def int32Of (key : String) : Value → Except Fault Int32
  | .integer n =>
    if -2147483648 ≤ n ∧ n ≤ 2147483647 then .ok (Int32.ofInt n) else .error (.outOfRange key)
  | _ => .error (.wrongType key)

def stringOf (key : String) : Value → Except Fault String
  | .string s => .ok s
  | _ => .error (.wrongType key)

def boolOf (key : String) : Value → Except Fault Bool
  | .boolean b => .ok b
  | _ => .error (.wrongType key)

def kindOfName : String → Except Fault Compression.Kind
  | "zlib" => .ok .zlib
  | "lz4" => .ok .lz4
  | "zstd" => .ok .zstd
  | s => .error (.unknownName "compression" s)

/-- A kind is named by a text, or by the only key of a table, with nothing in its value. -/
def kindOf : Value → Except Fault Compression.Kind
  | .string s => kindOfName s
  | .table [(s, .table [])] => kindOfName s
  | .table [(s, .array [])] => kindOfName s
  | _ => .error (.wrongType "compression")

def levelOf (v : Value) : Except Fault Log.Level := do
  let text ← stringOf "log_level" v
  match Log.Level.ofText? text with
  | some l => return l
  | none => throw (.logLevel text)

/-- The entries of a value that can stand for a table. A moment has none that are known. -/
def entriesOf? : Value → Option (List (String × Value))
  | .table es => some es
  | .moment _ => some []
  | _ => none

def boundedOf (bytes : Option Value) : Except Fault Capacity :=
  match bytes with
  | none => .error (.missing "bytes")
  | some v => (wordOf "bytes" v).map .bounded

/-- A capacity is a table with a policy, or an array that starts with one. -/
def capacityOf (key : String) (v : Value) : Except Fault Capacity :=
  match v with
  | .array (.string "unbounded" :: []) => .ok .unbounded
  | .array (.string "bounded" :: v :: []) => boundedOf (some v)
  | _ =>
    match entriesOf? v with
    | none => .error (.wrongType key)
    | some es =>
      match es.lookup "policy" with
      | some (.string "unbounded") => .ok .unbounded
      | some (.string "bounded") => boundedOf (es.lookup "bytes")
      | some (.string s) => .error (.unknownName "policy" s)
      | some _ => .error (.wrongType "policy")
      | none => .error (.missing "policy")

/-! ## Sections -/

/-- How the value of a key goes into a section. -/
abbrev Field (σ : Type) := String × (Value → σ → Except Fault σ)

def field {α σ : Type} (key : String) (read : String → Value → Except Fault α)
    (put : α → σ → σ) : Field σ :=
  (key, fun v s => (read key v).map fun a => put a s)

def readEntry {σ : Type} (fields : List (Field σ)) (s : σ) (e : String × Value) :
    Except Fault σ :=
  match fields.lookup e.1 with
  | none => .ok s
  | some put => put e.2 s

def readSection {σ : Type} (key : String) (fields : List (Field σ)) (s : σ) (v : Value) :
    Except Fault σ :=
  match v with
  | .array vs => (fields.zip vs).foldlM (fun s (f, v) => f.2 v s) s
  | _ =>
    match entriesOf? v with
    | none => .error (.wrongType key)
    | some es => es.foldlM (readEntry fields) s

def codecFields : List (Field CodecSection) :=
  [field "compression_threshold" int32Of fun a s => { s with threshold := a },
   field "compression" (fun _ => kindOf) fun a s => { s with kind := a },
   field "compression_level" (natOf Text.max32) fun a s => { s with level := a },
   field "max_frame_length" wordOf fun a s => { s with maxFrame := a },
   field "max_uncompressed_length" wordOf fun a s => { s with maxUncompressed := a }]

def pipeFields : List (Field PipeSection) :=
  [field "read_chunk_size" wordOf fun a s => { s with chunk := a },
   field "send_queue" wordOf fun a s => { s with sendQueue := some a },
   field "inbound" capacityOf fun a s => { s with inbound := a },
   field "outbound" capacityOf fun a s => { s with outbound := a }]

def poolFields : List (Field PoolSection) :=
  [field "preallocated" wordOf fun a s => { s with preallocated := a },
   field "max_pooled_buffer_size" wordOf fun a s => { s with maxPooledSize := a },
   field "max_outstanding" wordOf fun a s => { s with maxOutstanding := a }]

def logFields : List (Field LogSection) :=
  [field "app_name" stringOf fun a s => { s with appName := a },
   field "log_level" (fun _ => levelOf) fun a s => { s with level := a },
   field "log_to_console" boolOf fun a s => { s with toConsole := a },
   field "log_file_path" stringOf fun a s => { s with file := some a },
   field "json_format" boolOf fun a s => { s with json := a }]

/-- A pipe section that leaves the length of the queue out has no limit on it. -/
def pipeStart : PipeSection := { sendQueue := none }

def codecOf (v : Value) : Except Fault CodecSection := readSection "codec" codecFields {} v

def pipeOf (v : Value) : Except Fault PipeSection := readSection "pipe" pipeFields pipeStart v

def poolOf (v : Value) : Except Fault PoolSection := readSection "pool" poolFields {} v

def logOf (v : Value) : Except Fault LogSection := readSection "logging" logFields {} v

def sectionFields : List (Field Settings) :=
  [field "codec" (fun _ => codecOf) fun a s => { s with codec := a },
   field "pipe" (fun _ => pipeOf) fun a s => { s with pipe := a },
   field "pool" (fun _ => poolOf) fun a s => { s with pool := a },
   field "logging" (fun _ => logOf) fun a s => { s with logging := a }]

def ofDocument (es : List (String × Value)) : Except Fault Settings :=
  es.foldlM (readEntry sectionFields) {}

/-! ## Writing -/

def kindValue : Compression.Kind → Value
  | .zlib => .string "zlib"
  | .lz4 => .string "lz4"
  | .zstd => .string "zstd"

def natValue (n : Nat) : Value := .integer n

def capacityValue : Capacity → Value
  | .unbounded => .table [("policy", .string "unbounded")]
  | .bounded n => .table [("policy", .string "bounded"), ("bytes", natValue n)]

/-- An entry that is left out when there is no value. -/
def optional (key : String) : Option Value → List (String × Value)
  | none => []
  | some v => [(key, v)]

def CodecSection.toEntries (s : CodecSection) : List (String × Value) :=
  [("compression_threshold", .integer s.threshold.toInt), ("compression", kindValue s.kind),
   ("compression_level", natValue s.level), ("max_frame_length", natValue s.maxFrame),
   ("max_uncompressed_length", natValue s.maxUncompressed)]

def PipeSection.toEntries (s : PipeSection) : List (String × Value) :=
  [("read_chunk_size", natValue s.chunk)] ++ optional "send_queue" (s.sendQueue.map natValue) ++
  [("inbound", capacityValue s.inbound), ("outbound", capacityValue s.outbound)]

def PoolSection.toEntries (s : PoolSection) : List (String × Value) :=
  [("preallocated", natValue s.preallocated),
   ("max_pooled_buffer_size", natValue s.maxPooledSize),
   ("max_outstanding", natValue s.maxOutstanding)]

def LogSection.toEntries (s : LogSection) : List (String × Value) :=
  [("app_name", .string s.appName), ("log_level", .string s.level.name),
   ("log_to_console", .boolean s.toConsole)] ++
  optional "log_file_path" (s.file.map .string) ++ [("json_format", .boolean s.json)]

def toDocument (s : Settings) : List (String × Value) :=
  [("codec", .table s.codec.toEntries), ("pipe", .table s.pipe.toEntries),
   ("pool", .table s.pool.toEntries), ("logging", .table s.logging.toEntries)]

end PacketWire.Settings

import PacketWire.Settings.Basic
import PacketWire.Basic

/-!
# Checking settings

Every way in which settings can be wrong is a `Problem`, and `Settings.problems` lists all of
them, section by section. Which directories exist is a parameter; `parent` names the one of a file.
-/

namespace PacketWire.Settings.Path

/-- The part behind the last separator, and what is before it with that separator dropped. -/
def splitLast (cs : List Char) : List Char × List Char :=
  let part := (cs.reverse.takeWhile (· ≠ '/')).reverse
  (cs.take (cs.length - part.length - 1), part)

def counts (part : List Char) : Bool := !(part == [] || part == ['.'])

/-- Drops parts that do not count from the end. -/
def trim : Nat → List Char → List Char
  | 0, cs => cs
  | fuel + 1, cs =>
    if cs.isEmpty then cs
    else
      let (front, part) := splitLast cs
      if counts part then cs else trim fuel front

/-- What is before the first part that counts for itself: a separator or a dot. -/
def lead (cs : List Char) : List Char :=
  match cs with
  | '/' :: _ => ['/']
  | ['.'] => ['.']
  | '.' :: '/' :: _ => ['.']
  | _ => []

/-- The parent of a path; none for the root and for the empty path. -/
def parent (path : String) : Option String :=
  let cs := path.toList
  let start := lead cs
  let body := trim cs.length (cs.drop start.length)
  if body.isEmpty then (if start = ['.'] then some "" else none)
  else
    let front := trim cs.length (splitLast body).1
    some (String.ofList (start ++ front))

end PacketWire.Settings.Path

namespace PacketWire.Settings

inductive Direction where
  | inbound
  | outbound
  deriving DecidableEq, Repr

def Direction.name : Direction → String
  | .inbound => "Inbound"
  | .outbound => "Outbound"

inductive Problem where
  | level (level : Nat) (kind : Compression.Kind)
  | frameZero
  | frameTooLarge (n : Nat)
  | uncompressedZero
  | uncompressedTooLarge (n : Nat)
  | thresholdAboveUncompressed
  | capacityZero (direction : Direction)
  | chunkZero
  | chunkTooLarge (n : Nat)
  | queueZero
  | tooManyBuffers (n : Nat)
  | fewerOutThanBuffers
  | appNameEmpty
  | appNameTooLong (n : Nat)
  | noDirectory (path : String)
  | noOutput
  deriving DecidableEq, Repr

def kindName : Compression.Kind → String
  | .zlib => "Zlib"
  | .lz4 => "Lz4"
  | .zstd => "Zstd"

def Problem.message : Problem → String
  | .level n kind =>
    "Invalid compression level: " ++ toString n ++ " (valid range for " ++ kindName kind ++ ": " ++
      toString kind.levelRange.1 ++ "-" ++ toString kind.levelRange.2 ++ ")"
  | .frameZero => "Max frame length cannot be 0"
  | .frameTooLarge n =>
    "Max frame length too large: " ++ toString n ++ " (must fit in a VarInt)"
  | .uncompressedZero => "Max uncompressed length cannot be 0"
  | .uncompressedTooLarge n =>
    "Max uncompressed length too large: " ++ toString n ++ " (must fit in a VarInt)"
  | .thresholdAboveUncompressed =>
    "Compression threshold cannot be larger than max uncompressed length"
  | .capacityZero d => d.name ++ " pipe capacity must be greater than 0"
  | .chunkZero => "Read chunk size must be greater than 0"
  | .chunkTooLarge n => "Read chunk size too large: " ++ toString n ++ " (maximum: 16 MB)"
  | .queueZero => "Send queue capacity must be greater than 0"
  | .tooManyBuffers n =>
    "Preallocated buffer count very high: " ++ toString n ++ " (maximum: 100,000)"
  | .fewerOutThanBuffers =>
    "Max outstanding buffers cannot be smaller than the preallocated count"
  | .appNameEmpty => "Application name cannot be empty"
  | .appNameTooLong n =>
    "Application name too long: " ++ toString n ++ " characters (maximum: 64)"
  | .noDirectory path => "Log file directory does not exist: " ++ path
  | .noOutput => "At least one logging output (console or file) must be enabled"

def maxChunk : Nat := 16777216

def maxPreallocated : Nat := 100000

def maxNameSize : Nat := 64

def CodecSection.problems (s : CodecSection) : List Problem :=
  (if s.level < s.kind.levelRange.1 ∨ s.kind.levelRange.2 < s.level
    then [.level s.level s.kind] else []) ++
  (if s.maxFrame = 0 then [.frameZero]
    else if VarInt.maxValue < s.maxFrame then [.frameTooLarge s.maxFrame] else []) ++
  (if s.maxUncompressed = 0 then [.uncompressedZero]
    else if VarInt.maxValue < s.maxUncompressed then [.uncompressedTooLarge s.maxUncompressed]
    else []) ++
  (if 0 ≤ s.threshold ∧ s.maxUncompressed < s.threshold.toInt.toNat
    then [.thresholdAboveUncompressed] else [])

def capacityProblems (d : Direction) (c : Capacity) : List Problem :=
  if c = .bounded 0 then [.capacityZero d] else []

def PipeSection.problems (s : PipeSection) : List Problem :=
  capacityProblems .inbound s.inbound ++ capacityProblems .outbound s.outbound ++
  (if s.chunk = 0 then [.chunkZero]
    else if maxChunk < s.chunk then [.chunkTooLarge s.chunk] else []) ++
  (if s.sendQueue = some 0 then [.queueZero] else [])

def PoolSection.problems (s : PoolSection) : List Problem :=
  (if maxPreallocated < s.preallocated then [.tooManyBuffers s.preallocated] else []) ++
  (if s.maxOutstanding ≠ 0 ∧ s.maxOutstanding < s.preallocated
    then [.fewerOutThanBuffers] else [])

def directoryProblems (isDirectory : String → Bool) (file : String) : List Problem :=
  match Path.parent file with
  | none => []
  | some dir => if dir.isEmpty || isDirectory dir then [] else [.noDirectory dir]

def LogSection.problems (isDirectory : String → Bool) (s : LogSection) : List Problem :=
  (if s.appName.isEmpty then [.appNameEmpty]
    else if maxNameSize < s.appName.utf8ByteSize then [.appNameTooLong s.appName.utf8ByteSize]
    else []) ++
  (match s.file with
    | none => []
    | some file => directoryProblems isDirectory file) ++
  (if !s.toConsole && s.file.isNone then [.noOutput] else [])

end Settings

namespace Settings

open Settings

def problems (isDirectory : String → Bool) (s : Settings) : List Problem :=
  s.codec.problems ++ s.pipe.problems ++ s.pool.problems ++ s.logging.problems isDirectory

/-- One error that lists all problems, if there are any. -/
def checked (isDirectory : String → Bool) (s : Settings) : Except WireError Unit :=
  match s.problems isDirectory with
  | [] => .ok ()
  | ps =>
    .error (.config ("Configuration validation failed:\n  - " ++
      "\n  - ".intercalate (ps.map Problem.message)))

end PacketWire.Settings

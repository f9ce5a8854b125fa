import PacketWire.Compression.Inflater
import PacketWire.Compression.Checksum
import PacketWire.Compression.Deflate

/-!
# Zlib streams

A two-byte header, a deflate stream and a checksum of the text. `Zlib.read` takes a whole
stream apart, without regard to any buffer. `Zlib.inflater` is the inflater of such streams, and
`Zlib.inflate` fills a buffer of a given size with it.
-/

namespace PacketWire.Compression.Zlib

open Lz77 Deflate

/-! ## Whole streams -/

/-- A stream as far as it can be read. -/
structure Stream where
  tokens : List Token
  ending : Except Stop Nat

/-- Whether two bytes announce a deflate stream without a preset dictionary. -/
def validHeader (method flags : UInt8) : Bool :=
  (method.toNat * 256 + flags.toNat) % 31 == 0 && flags.toNat / 32 % 2 == 0 &&
    method.toNat % 16 == 8

def checksum (bs : Bytes) : Except Stop Nat :=
  if bs.length < 4 then .error .truncated else .ok (Bytes.ofHighBytes (bs.take 4))

def read (bs : Bytes) : Stream :=
  match bs with
  | method :: flags :: rest =>
    if validHeader method flags then
      let (tokens, ending) := Deflate.parse rest
      { tokens, ending := ending.bind checksum }
    else { tokens := [], ending := .error .corrupt }
  | _ => { tokens := [], ending := .error .truncated }

/-- The tokens before the first copy from before the text, with their length; and whether they are
all of them. -/
def grounded : List Token → Nat → List Token → (List Token × Nat) × Bool
  | [], n, acc => ((acc, n), true)
  | t :: ts, n, acc =>
    if t.reach ≤ n then grounded ts (n + t.length) (t :: acc) else ((acc, n), false)

/-! ## Inflating -/

/-- The text is made in windows of this size. -/
def windowSize : Nat := 32768

/-- The end of the window that holds byte `n` of the text. -/
def windowEnd (n : Nat) : Nat := windowSize * (n / windowSize + 1)

/-- How a stream stands behind its last token. -/
def verdict (ending : Except Stop Nat) (text : Bytes) : Verdict :=
  match ending with
  | .ok sum => if adler32 text = sum then .ended else .failed
  | .error .truncated => .goesOn
  | .error .corrupt => .failed

/-- A stream of which `given` bytes went out. -/
structure Filling where
  tokens : List Token
  out : Array UInt8 := #[]
  given : Nat := 0
  ending : Except Stop Nat

inductive State where
  | fresh
  | filling (f : Filling)
  /-- After a call that had to be the last. -/
  | spent

def refusal : Reply State := { verdict := .failed, taken := 0, output := [], state := .spent }

/-- Makes the text to the end of the window from which bytes go out next. -/
def Filling.fillWindow (f : Filling) : Filling :=
  let filled := fillTo (windowEnd f.given) f.tokens f.out
  { f with tokens := filled.1, out := filled.2 }

/-- How a stream stands once the text was given out up to `n`. -/
def Filling.verdictAt (f : Filling) (n : Nat) : Verdict :=
  if f.tokens.isEmpty then
    let v := verdict f.ending f.out.toList
    if v = .ended ∧ n < f.out.size then .goesOn else v
  else .goesOn

/-- How much of the text will have gone out after `room` more bytes. -/
def Filling.upTo (f : Filling) (room : Nat) : Nat := min (f.given + room) f.out.size

/-- The next bytes of the window, at most `room`. A fault in a window comes before its bytes. -/
def Filling.hand (f : Filling) (room : Nat) : Reply State :=
  let f := f.fillWindow
  let n := f.upTo room
  if f.verdictAt n = .failed then refusal
  else
    { verdict := f.verdictAt n, taken := 0, output := (f.out.extract f.given n).toList,
      state := .filling { f with given := n } }

/-- All of a stream by one call. A copy from before the text is a fault here, while later calls find
zeros there. -/
def inflateAtOnce (bs : Bytes) (room : Nat) : Reply State :=
  let s := read bs
  let ((tokens, length), sound) := grounded s.tokens 0 []
  let written := (fillTo room tokens.reverse #[]).2.toList
  { verdict := if room < length then .goesOn
      else if sound then verdict s.ending written else .failed,
    taken := bs.length, output := written, state := .spent }

/-- One call. The first is given the whole input and takes it. -/
def call : Flush → Bytes → Nat → State → Reply State
  | .finish, bs, room, .fresh => inflateAtOnce bs room
  | .none, bs, room, .fresh =>
    let s := read bs
    { Filling.hand { tokens := s.tokens, ending := s.ending } room with taken := bs.length }
  | .none, _, room, .filling f => f.hand room
  | _, _, _, _ => refusal

theorem Filling.length_hand_le (f : Filling) (room : Nat) : (f.hand room).output.length ≤ room := by
  dsimp only [hand]
  split
  · exact Nat.zero_le _
  · simp only [Array.length_toList, Array.size_extract, upTo]
    omega

theorem Filling.taken_hand (f : Filling) (room : Nat) : (f.hand room).taken = 0 := by
  dsimp only [hand]
  split <;> rfl

def inflater : Inflater State where
  start := .fresh
  call := call
  taken_le flush input room state := by
    fun_cases call flush input room state with
    | case1 => exact Nat.le_refl _
    | case2 => exact Nat.le_refl _
    | case3 _ _ f => exact f.taken_hand _ ▸ Nat.zero_le _
    | case4 => exact Nat.zero_le _
  output_le flush input room state := by
    fun_cases call flush input room state with
    | case1 => exact size_fillTo_le _ (Nat.zero_le _)
    | case2 => exact Filling.length_hand_le _ _
    | case3 _ _ f => exact f.length_hand_le _
    | case4 => exact Nat.zero_le _

def inflate (bs : Bytes) (room : Nat) : Inflation := inflater.inflate bs room

/-! ## Writing -/

def header (level : Nat) : Bytes :=
  [120, if level ≤ 1 then 1 else if level ≤ 5 then 94 else if level = 6 then 156 else 218]

/-- A zlib stream of `bs`. Level zero stores it. -/
def compress (level : Nat) (bs : Bytes) : Bytes :=
  header level ++ Deflate.compress level bs ++ (Bytes.lowBytes 4 (adler32 bs)).reverse

end PacketWire.Compression.Zlib

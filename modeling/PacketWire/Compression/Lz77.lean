import PacketWire.Basic

/-!
# Literals and copies

The text that deflate, lz4 and zstd describe in their own ways: bytes taken as they are, and
copies of what was written before. `fillTo` writes the bytes out as far as there is room. `parse`
finds copies in a text; a copy is as long as the bytes agree, so writing them out gives the text
again.
-/

namespace PacketWire.Compression.Lz77

inductive Token where
  | literal (byte : UInt8)
  /-- `length` bytes from `distance` back. They may overlap what they write. -/
  | copy (length distance : Nat)
  deriving DecidableEq, Repr, Inhabited

def Token.length : Token → Nat
  | .literal _ => 1
  | .copy n _ => n

/-- How many bytes a token needs before it. -/
def Token.reach : Token → Nat
  | .literal _ => 0
  | .copy _ distance => distance

/-- Appends `n` bytes from `distance` back. A place before the start counts as zero. -/
def copyBack (distance : Nat) : Nat → Array UInt8 → Array UInt8
  | 0, out => out
  | n + 1, out =>
    let byte := if distance ≤ out.size then out.getD (out.size - distance) 0 else 0
    copyBack distance n (out.push byte)

/-- Writes tokens until `limit` bytes are there. What is left of a copy goes back to the tokens. -/
def fillTo (limit : Nat) : List Token → Array UInt8 → List Token × Array UInt8
  | [], out => ([], out)
  | t :: ts, out =>
    if limit ≤ out.size then (t :: ts, out)
    else
      match t with
      | .literal b => fillTo limit ts (out.push b)
      | .copy n distance =>
        if out.size + n ≤ limit then fillTo limit ts (copyBack distance n out)
        else (.copy (out.size + n - limit) distance :: ts,
          copyBack distance (limit - out.size) out)

@[simp] theorem size_copyBack (distance n : Nat) (out : Array UInt8) :
    (copyBack distance n out).size = out.size + n := by
  induction n generalizing out with
  | zero => rfl
  | succ n ih => simp only [copyBack, ih, Array.size_push]; omega

theorem size_fillTo_le {limit : Nat} (ts : List Token) {out : Array UInt8}
    (h : out.size ≤ limit) : (fillTo limit ts out).2.size ≤ limit := by
  fun_induction fillTo limit ts out with
  | case1 => exact h
  | case2 => exact h
  | case3 ts out hroom b ih => exact ih (by rw [Array.size_push]; omega)
  | case4 ts out hroom n distance hfits ih => exact ih (by rwa [size_copyBack])
  | case5 ts out hroom n distance hlong =>
    rw [size_copyBack]
    omega

/-- Adds to `found` how many bytes from `i` on agree with those from `j` on, at most `n`. -/
def agreement (x : Array UInt8) (i j : Nat) : Nat → Nat → Nat
  | 0, found => found
  | n + 1, found =>
    if hi : i < x.size then
      if hj : j < x.size then
        if x[i] = x[j] then agreement x (i + 1) (j + 1) n (found + 1) else found
      else found
    else found

/-- What a format demands of copies. -/
structure Limits where
  minLength : Nat
  maxLength : Nat
  maxDistance : Nat
  /-- How many bytes at the end of a text are always literals. -/
  literalTail : Nat := 0

def tableSize : Nat := 32768

/-- The slot of the four bytes from `i` on. -/
def slot (x : Array UInt8) (i : Nat) : Nat :=
  let word := (x.getD i 0).toNat + (x.getD (i + 1) 0).toNat * 256 +
    (x.getD (i + 2) 0).toNat * 65536
  (word * 40503 / 64) % tableSize

def find (limits : Limits) (x : Array UInt8) (places : Array Nat) (i : Nat) :
    Option (Nat × Nat) :=
  match places.getD (slot x i) 0 with
  | 0 => none
  | place + 1 =>
    if place < i ∧ i - place ≤ limits.maxDistance ∧ i + limits.literalTail ≤ x.size then
      let n := agreement x i place (min limits.maxLength (x.size - limits.literalTail - i)) 0
      if limits.minLength ≤ n then some (n, i - place) else none
    else none

/-- The tokens from `i` on, latest first. `places` holds one more than the last place of each
slot. -/
def parseFrom (limits : Limits) (x : Array UInt8) :
    Nat → Array Nat → Nat → List Token → List Token
  | 0, _, _, acc => acc
  | fuel + 1, places, i, acc =>
    if h : i < x.size then
      let found := find limits x places i
      let places := places.setIfInBounds (slot x i) (i + 1)
      match found with
      | some (n, distance) => parseFrom limits x fuel places (i + n) (.copy n distance :: acc)
      | none => parseFrom limits x fuel places (i + 1) (.literal x[i] :: acc)
    else acc

def parse (limits : Limits) (bs : Bytes) : List Token :=
  let x := bs.toArray
  (parseFrom limits x x.size (Array.replicate tableSize 0) 0 []).reverse

/-- The longest copy at `i` from a place below `j` that beats `best`; of equal ones the nearest. -/
def longestFrom (x : Array UInt8) (i most : Nat) : Nat → Nat × Nat → Nat × Nat
  | 0, best | 1, best => best
  | j + 2, best =>
    let n := agreement x i (j + 1) most 0
    longestFrom x i most (j + 1) (if best.1 < n then (n, i - (j + 1)) else best)

/-- The longest copy at `i` of more than `least` bytes. -/
def longest? (limits : Limits) (x : Array UInt8) (i least : Nat) : Option (Nat × Nat) :=
  let (n, distance) := longestFrom x i (min limits.maxLength (x.size - i)) i (least, 0)
  if distance = 0 then none else some (n, distance)

/-- A copy that is taken without a look at the place behind it. -/
def longEnough : Nat := 128

/-- The tokens from `i` on by a full search. A copy just before `i` gives way to a literal if there
is a longer one here. -/
def patientFrom (limits : Limits) (x : Array UInt8) (patience : Nat) :
    Nat → Nat → Option (Nat × Nat) → List Token → List Token
  | 0, _, _, acc => acc
  | fuel + 1, i, found, acc =>
    if h : i < x.size then
      match found, longest? limits x i ((found.map (·.1)).getD (limits.minLength - 1)) with
      | none, none => patientFrom limits x patience fuel (i + 1) none (.literal x[i] :: acc)
      | some (n, distance), none =>
        patientFrom limits x patience fuel (i - 1 + n) none (.copy n distance :: acc)
      | found, some (n, distance) =>
        let acc := if found.isSome then .literal (x.getD (i - 1) 0) :: acc else acc
        if patience ≤ n then
          patientFrom limits x patience fuel (i + n) none (.copy n distance :: acc)
        else patientFrom limits x patience fuel (i + 1) (some (n, distance)) acc
    else acc

/-- Parses with a full search; copies of `patience` bytes are taken at once. It takes long on
long texts. -/
def parsePatiently (limits : Limits) (patience : Nat) (bs : Bytes) : List Token :=
  let x := bs.toArray
  (patientFrom limits x patience (x.size + 1) 0 none []).reverse

end PacketWire.Compression.Lz77

import PacketWire.Basic

/-!
# Prefix codes

A binary tree whose leaves are symbols. A path that no symbol has is `absent`.
-/

namespace PacketWire.Compression

inductive PrefixCode where
  | absent
  | symbol (value : Nat)
  | node (zero one : PrefixCode)
  deriving Repr, Inhabited

/-- What following a code through the input ends with. -/
inductive Looked (ρ : Type) where
  | symbol (value : Nat) (rest : ρ)
  | noSuchCode
  | inputEnds

namespace PrefixCode

/-- Adds `value` under the `length` low bits of `code`, highest of them first. -/
def insert (value code : Nat) : Nat → PrefixCode → PrefixCode
  | 0, _ => .symbol value
  | length + 1, t =>
    let (zero, one) := match t with
      | .node zero one => (zero, one)
      | _ => (.absent, .absent)
    if code.testBit length then .node zero (insert value code length one)
    else .node (insert value code length zero) one

def depth : PrefixCode → Nat
  | .node zero one => max zero.depth one.depth + 1
  | _ => 0

def read {ρ : Type} (next : ρ → Option (Bool × ρ)) : PrefixCode → ρ → Looked ρ
  | .absent, _ => .noSuchCode
  | .symbol value, r => .symbol value r
  | .node zero one, r =>
    match next r with
    | none => .inputEnds
    | some (true, r) => read next one r
    | some (false, r) => read next zero r

def countOf (lengths : List Nat) (n : Nat) : Nat := lengths.count n

/-- The first code of each length from `n` on, when codes of one length are consecutive and
shorter codes come first. -/
def firstCodes (lengths : List Nat) : Nat → Nat → Nat → List Nat
  | 0, _, _ => []
  | k + 1, n, code =>
    let next := (code + (if n = 0 then 0 else countOf lengths n)) * 2
    code :: firstCodes lengths k (n + 1) next

/-- Inserts the symbols from `value` on, `next` holding the next free code of each length. -/
def insertAll (t : PrefixCode) (next : Array Nat) (value : Nat) : List Nat → PrefixCode
  | [] => t
  | 0 :: ls => insertAll t next (value + 1) ls
  | n :: ls =>
    let code := next.getD n 0
    insertAll (insert value code n t) (next.setIfInBounds n (code + 1)) (value + 1) ls

/-- The canonical code in which symbol `i` has the `i`-th length; a symbol of length zero has
no code. -/
def ofLengths (lengths : List Nat) : PrefixCode :=
  insertAll .absent (firstCodes lengths 16 0 0).toArray 0 lengths

/-- The part of all paths of length 15 that codes of these lengths take. -/
def weight (lengths : List Nat) : Nat :=
  (lengths.map fun n => if n = 0 then 0 else 1 <<< (15 - n)).foldl (· + ·) 0

/-- Whether every path leads to exactly one symbol. -/
def isComplete (lengths : List Nat) : Bool := weight lengths == 1 <<< 15

end PrefixCode

end PacketWire.Compression

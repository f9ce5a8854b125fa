import PacketWire.Toml.Value
import PacketWire.Toml.Lexeme

/-!
# Reading Toml

`statements?` reads a text line by line into pairs and headers, and `document?` builds the
table that they describe.
-/

namespace PacketWire.Toml

def wordValue? (w : List Char) : Option Value :=
  match String.ofList w with
  | "true" => some (.boolean true)
  | "false" => some (.boolean false)
  | text =>
    if isMoment w then some (.moment text)
    else if isFloat w then some (.float text)
    else (integer? w).map .integer

/-- How deep arrays and inline tables may be inside each other. -/
def maxDepth : Nat := 79

mutual

/-- The value at the start. `depth` more levels may be opened. -/
def value? : Nat → Nat → List Char → Option (Value × List Char)
  | 0, _, _ => none
  | fuel + 1, depth, cs =>
    match cs with
    | '"' :: _ => (string? cs).map fun (s, cs) => (.string s, cs)
    | '\'' :: _ => (string? cs).map fun (s, cs) => (.string s, cs)
    | '[' :: cs =>
      match depth with
      | 0 => none
      | depth + 1 => (items? fuel depth cs []).map fun (vs, cs) => (.array vs, cs)
    | '\x7b' :: cs =>
      match depth with
      | 0 => none
      | depth + 1 =>
        match skipBlanks cs with
        | '\x7d' :: cs => some (.table [], cs)
        | cs => do
          let (pairs, cs) ← pairs? fuel depth cs []
          let es ← insertPairs pairs .nil
          return (.table es.toPairs, cs)
    | _ =>
      let (w, rest) := word cs
      (wordValue? w).map (·, rest)

/-- The rest of an array, with the items so far, latest first. -/
def items? : Nat → Nat → List Char → List Value → Option (List Value × List Char)
  | 0, _, _, _ => none
  | fuel + 1, depth, cs, acc =>
    match skipFiller cs.length cs with
    | ']' :: cs => some (acc.reverse, cs)
    | cs => do
      let (v, cs) ← value? fuel depth cs
      match skipFiller cs.length cs with
      | ',' :: cs => items? fuel depth cs (v :: acc)
      | ']' :: cs => return ((v :: acc).reverse, cs)
      | _ => none

/-- The rest of an inline table, with the pairs so far, latest first. -/
def pairs? : Nat → Nat → List Char → List Pair → Option (List Pair × List Char)
  | 0, _, _, _ => none
  | fuel + 1, depth, cs, acc => do
    let (path, cs) ← key? cs
    let cs ← literal? '=' cs
    let (v, cs) ← value? fuel depth (skipBlanks cs)
    match skipBlanks cs with
    | ',' :: cs => pairs? fuel depth cs ((path, v) :: acc)
    | '\x7d' :: cs => return (((path, v) :: acc).reverse, cs)
    | _ => none

end

inductive Statement where
  | pair (path : List String) (value : Value)
  | table (path : List String)
  | row (path : List String)

def header? (closing cs : List Char) : Option (List String × List Char) := do
  let (path, cs) ← key? cs
  if closing.isPrefixOf cs then return (path, cs.drop closing.length) else none

/-- The statement that starts here, without the end of its line. -/
def statement? (cs : List Char) : Option (Statement × List Char) :=
  match cs with
  | '[' :: '[' :: cs => (header? "]]".toList cs).map fun (p, cs) => (.row p, cs)
  | '[' :: cs => (header? "]".toList cs).map fun (p, cs) => (.table p, cs)
  | _ => do
    let (path, cs) ← key? cs
    let cs ← literal? '=' cs
    let cs := skipBlanks cs
    let (v, cs) ← value? (2 * cs.length + 2) maxDepth cs
    return (.pair path v, cs)

/-- The statements of the lines from here on, after those so far, latest first. -/
def statementsFrom : Nat → List Char → List Statement → Option (List Statement)
  | 0, _, _ => none
  | fuel + 1, cs, acc =>
    match skipBlanks cs with
    | [] => some acc.reverse
    | '#' :: cs => do statementsFrom fuel (← lineEnd? ('#' :: cs)) acc
    | cs =>
      match newline? cs with
      | some cs => statementsFrom fuel cs acc
      | none => do
        let (s, cs) ← statement? cs
        statementsFrom fuel (← lineEnd? cs) (s :: acc)

def statements? (text : String) : Option (List Statement) :=
  let cs := text.toList
  let cs := match cs with
    | '\ufeff' :: cs => cs
    | cs => cs
  statementsFrom (cs.length + 1) cs []

/-- A header with the pairs after it. -/
structure Block where
  isRow : Bool
  path : List String
  pairs : List Pair

/-- The pairs before the first header, and the blocks. -/
def blocksOf : List Statement → List Pair × List Block
  | [] => ([], [])
  | .pair path v :: rest =>
    let (pairs, blocks) := blocksOf rest
    ((path, v) :: pairs, blocks)
  | .table path :: rest =>
    let (pairs, blocks) := blocksOf rest
    ([], { isRow := false, path, pairs } :: blocks)
  | .row path :: rest =>
    let (pairs, blocks) := blocksOf rest
    ([], { isRow := true, path, pairs } :: blocks)

def addBlock (es : Entries) (b : Block) : Option Entries :=
  match b.path.reverse with
  | [] => none
  | key :: parents =>
    within (if b.isRow then openRow key b.pairs else openTable key b.pairs) parents.reverse es

/-- The table that statements describe, if no key is given twice. -/
def build? (statements : List Statement) : Option (List (String × Value)) := do
  let (pairs, blocks) := blocksOf statements
  let es ← insertPairs pairs .nil
  let es ← blocks.foldlM addBlock es
  return es.toPairs

def document? (text : String) : Option (List (String × Value)) := do
  build? (← statements? text)

end PacketWire.Toml

/-!
# Toml values

The values of a configuration document. `Node` is a document under construction: its tables
remember how they came about, because that decides whether a later line may add to them.
`insertPair` adds a pair under a dotted key, and `openTable` and `openRow` act on headers.
-/

namespace PacketWire.Toml

inductive Value where
  | string (text : String)
  | integer (n : Int)
  | float (text : String)
  | boolean (b : Bool)
  | moment (text : String)
  | array (items : List Value)
  | table (entries : List (String × Value))
  deriving Repr, Inhabited

/-- How a table came about. -/
inductive Origin where
  /-- By a header of its own. -/
  | opened
  /-- By the header of a table inside it. -/
  | implied
  /-- By a dotted key. -/
  | dotted
  deriving DecidableEq, Repr

mutual

inductive Node where
  | leaf (value : Value)
  | table (origin : Origin) (entries : Entries)
  /-- The tables of an array of tables. -/
  | rows (tables : Rows)

inductive Entries where
  | nil
  | cons (key : String) (node : Node) (rest : Entries)

inductive Rows where
  | nil
  | cons (table : Entries) (rest : Rows)

end

instance : Inhabited Entries := ⟨.nil⟩
instance : Inhabited Node := ⟨.leaf default⟩

namespace Entries

def get? (key : String) : Entries → Option Node
  | .nil => none
  | .cons k n rest => if k = key then some n else rest.get? key

/-- Replaces the node of a key, or adds it at the end. -/
def set (key : String) (node : Node) : Entries → Entries
  | .nil => .cons key node .nil
  | .cons k n rest => if k = key then .cons k node rest else .cons k n (rest.set key node)

def remove (key : String) : Entries → Entries
  | .nil => .nil
  | .cons k n rest => if k = key then rest else .cons k n (rest.remove key)

end Entries

/-- The last table of an array and the tables before it. -/
def Rows.splitLast : Rows → Option (Rows × Entries)
  | .nil => none
  | .cons t .nil => some (.nil, t)
  | .cons t rest => rest.splitLast.map fun (front, last) => (.cons t front, last)

def Rows.push (t : Entries) : Rows → Rows
  | .nil => .cons t .nil
  | .cons u rest => .cons u (rest.push t)

/-- Acts on the table at a path of headers, making the tables on the way. -/
def within (act : Entries → Option Entries) : List String → Entries → Option Entries
  | [], es => act es
  | key :: path, es =>
    match es.get? key with
    | none => (within act path .nil).map fun inner => es.set key (.table .implied inner)
    | some (.leaf _) => none
    | some (.table origin inner) =>
      (within act path inner).map fun inner => es.set key (.table origin inner)
    | some (.rows tables) =>
      match tables.splitLast with
      | none => none
      | some (front, last) =>
        (within act path last).map fun last => es.set key (.rows (front.push last))

/-- Adds a pair to the table `es`. Only tables made by dotted keys may be added to by dotted
keys. -/
def addPair (key : String) (value : Value) (origin : Option Origin) (es : Entries) :
    Option Entries :=
  if origin.any (· ≠ .dotted) then none
  else
    match es.get? key with
    | some _ => none
    | none => some (es.set key (.leaf value))

/-- Adds a pair under a dotted key. No table with a header of its own may be on the way. -/
def insertPair (value : Value) : List String → Option Origin → Entries → Option Entries
  | [], _, _ => none
  | [key], origin, es => addPair key value origin es
  | key :: path, _, es =>
    match es.get? key with
    | none =>
      (insertPair value path (some .dotted) .nil).map fun inner =>
        es.set key (.table .dotted inner)
    | some (.leaf _) => none
    | some (.table origin inner) =>
      if origin = .opened then none
      else
        (insertPair value path (some origin) inner).map fun inner =>
          es.set key (.table origin inner)
    | some (.rows tables) =>
      match tables.splitLast with
      | none => none
      | some (front, last) =>
        (insertPair value path (some .opened) last).map fun last =>
          es.set key (.rows (front.push last))

abbrev Pair := List String × Value

def insertPairs (pairs : List Pair) (es : Entries) : Option Entries :=
  pairs.foldlM (fun es (path, value) => insertPair value path none es) es

/-- Opens the table `key`, which must be new or implied by an earlier header. It moves behind the
other entries. -/
def openTable (key : String) (pairs : List Pair) (es : Entries) : Option Entries :=
  match es.get? key with
  | none => (insertPairs pairs .nil).map fun t => es.set key (.table .opened t)
  | some (.table .implied inner) =>
    (insertPairs pairs inner).map fun t => (es.remove key).set key (.table .opened t)
  | some _ => none

/-- Adds a table with these pairs to the array of tables `key`. -/
def openRow (key : String) (pairs : List Pair) (es : Entries) : Option Entries :=
  match es.get? key with
  | none => (insertPairs pairs .nil).map fun t => es.set key (.rows (.cons t .nil))
  | some (.rows tables) =>
    (insertPairs pairs .nil).map fun t => es.set key (.rows (tables.push t))
  | some _ => none

mutual

def Node.toValue : Node → Value
  | .leaf v => v
  | .table _ es => .table es.toPairs
  | .rows ts => .array ts.toValues

def Entries.toPairs : Entries → List (String × Value)
  | .nil => []
  | .cons k n rest => (k, n.toValue) :: rest.toPairs

def Rows.toValues : Rows → List Value
  | .nil => []
  | .cons t rest => .table t.toPairs :: rest.toValues

end

end PacketWire.Toml

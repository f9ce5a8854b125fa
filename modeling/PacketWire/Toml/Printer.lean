import PacketWire.Toml.Value

/-!
# Writing Toml

`render` writes a table: its plain entries first, then each table in it under a header of its
own, with an empty line between. A string is written in the plainest quotes that can hold it.
-/

namespace PacketWire.Toml

/-- The most `q` in a row. -/
def longestRun (q : Char) : List Char → Nat → Nat → Nat
  | [], _, best => best
  | c :: cs, run, best =>
    if c = q then longestRun q cs (run + 1) (max best (run + 1)) else longestRun q cs 0 best

/-- Control characters that no quotes can hold as they are. -/
def needsCode (c : Char) : Bool :=
  (c.toNat < 32 || c.toNat == 127) && c != '\t' && c != '\n'

inductive Quotes where
  | basic
  | literal
  | basicLines
  | literalLines

/-- Double quotes if nothing has to be escaped, else single ones, else those for several lines. -/
def quotesFor (cs : List Char) : Quotes :=
  let codes := cs.any needsCode
  let escapes := cs.contains '\\'
  let lines := cs.contains '\n'
  let doubles := longestRun '"' cs 0 0
  let singles := longestRun '\'' cs 0 0
  if !codes && !escapes && doubles == 0 && !lines then .basic
  else if !codes && singles == 0 && !lines then .literal
  else if !codes && !escapes && doubles ≤ 2 then .basicLines
  else if !codes && singles ≤ 2 then .literalLines
  else if lines then .basicLines
  else .basic

def fourDigits (n : Nat) : List Char :=
  let ds := (Nat.toDigits 16 n).map Char.toUpper
  List.replicate (4 - ds.length) '0' ++ ds

/-- The text inside double quotes, of which `allowed` in a row may stand, `run` of them before this
place. -/
def escaped (lines : Bool) (allowed : Nat) : List Char → Nat → List Char
  | [], _ => []
  | c :: cs, run =>
    if c = '"' then
      if run < allowed then '"' :: escaped lines allowed cs (run + 1)
      else '\\' :: '"' :: escaped lines allowed cs 0
    else
      (if c = '\x08' then ['\\', 'b']
       else if c = '\t' then ['\\', 't']
       else if c = '\n' then if lines then ['\n'] else ['\\', 'n']
       else if c = '\x0c' then ['\\', 'f']
       else if c = '\r' then ['\\', 'r']
       else if c = '\\' then ['\\', '\\']
       else if needsCode c then '\\' :: 'u' :: fourDigits c.toNat
       else [c]) ++ escaped lines allowed cs 0

/-- Quotes for several lines are followed by a line break if the text has one. -/
def quoted (text : String) : String :=
  let cs := text.toList
  let lineBreak := if cs.contains '\n' then "\n" else ""
  match quotesFor cs with
  | .basic => "\"" ++ String.ofList (escaped false 0 cs 0) ++ "\""
  | .literal => "'" ++ text ++ "'"
  | .basicLines => "\"\"\"" ++ lineBreak ++ String.ofList (escaped true 2 cs 0) ++ "\"\"\""
  | .literalLines => "'''" ++ lineBreak ++ text ++ "'''"

mutual

def inline : Value → String
  | .string s => quoted s
  | .integer n => toString n
  | .float text => text
  | .boolean b => if b then "true" else "false"
  | .moment text => text
  | .array vs => "[" ++ ", ".intercalate (inlineAll vs) ++ "]"
  | .table es => "\x7b " ++ ", ".intercalate (inlinePairs es) ++ " \x7d"

def inlineAll : List Value → List String
  | [] => []
  | v :: vs => inline v :: inlineAll vs

def inlinePairs : List (String × Value) → List String
  | [] => []
  | (k, v) :: es => (k ++ " = " ++ inline v) :: inlinePairs es

end

/-- The plain entries of a table, a line each. -/
def plainLines (es : List (String × Value)) : String :=
  "".intercalate (es.filterMap fun (k, v) =>
    match v with
    | .table _ => none
    | v => some (k ++ " = " ++ inline v ++ "\n"))

mutual

/-- The texts of a table and the tables in it. -/
def tableTexts (path : List String) : Value → List String
  | .table es =>
    ("[" ++ ".".intercalate path ++ "]\n" ++ plainLines es) :: innerTexts path es
  | _ => []

def innerTexts (path : List String) : List (String × Value) → List String
  | [] => []
  | (k, v) :: es => tableTexts (path ++ [k]) v ++ innerTexts path es

end

def render (es : List (String × Value)) : String :=
  let plain := plainLines es
  let texts := innerTexts [] es
  "\n".intercalate (if plain.isEmpty then texts else plain :: texts)

end PacketWire.Toml

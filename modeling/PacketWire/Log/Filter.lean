import PacketWire.Log.Event

/-!
# Log filters

A filter is a list of directives, each of which sets the gravest-to-chattiest limit for the
targets that start with its text. The directive with the longest text that fits decides. A
filter is written as directives between commas: a level, a target, or both with `=` between.
-/

namespace PacketWire.Log

/-- The chattiest level let through; `none` lets nothing through. -/
abbrev Limit := Option Level

structure Directive where
  target : String
  limit : Limit
  deriving DecidableEq, Repr

abbrev Filter := List Directive

namespace Filter

/-- A limit by its name or number; the number zero and `off` let nothing through. -/
def limitOf? (text : String) : Option Limit :=
  match (Text.readNat Text.max64 text).toOption with
  | some 0 => some none
  | some n => (Level.ofRank? n).map some
  | none => if Text.agree "off" text then some none else (Level.ofName? text).map some

def startsDirective (c : Char) : Bool :=
  c.isAlphanum || c == '-' || c == ':' || c == '_' || 127 < c.toNat

/-- One directive. A target without a level lets everything through. -/
def directive? (text : String) : Option Directive :=
  match text.toList with
  | [] => none
  | c :: cs =>
    if startsDirective c then
      let target := (c :: cs).takeWhile (· ≠ '=')
      match (c :: cs).drop target.length with
      | [] =>
        match limitOf? text with
        | some limit => some { target := "", limit }
        | none => some { target := text, limit := some .trace }
      | ['='] => some { target := String.ofList target, limit := some .trace }
      | _ :: level =>
        (limitOf? (String.ofList level)).map fun limit =>
          { target := String.ofList target, limit }
    else none

/-- A whole filter. Without a directive it lets nothing through. -/
def ofText? (text : String) : Option Filter :=
  ((text.splitOn ",").filter (· ≠ "")).mapM directive?

def ofLevel (level : Level) : Filter := [{ target := "", limit := some level }]

/-- Of the directives that fit a target, the one with the longest text, and of equal ones the
last. -/
def deciding (f : Filter) (target : String) : Option Directive :=
  f.foldl (fun best d =>
    if d.target.isPrefixOf target then
      match best with
      | none => some d
      | some b => if b.target.length ≤ d.target.length then some d else best
    else best) none

def passes (f : Filter) (e : Event) : Bool :=
  match f.deciding e.target with
  | some { limit := some most, .. } => e.level.rank ≤ most.rank
  | _ => false

end Filter

end PacketWire.Log

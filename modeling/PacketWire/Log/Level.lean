import PacketWire.Text

/-!
# Log levels

Five levels, from the chattiest to the gravest. A level is read from its name in any case or
from its number, which counts from the gravest.
-/

namespace PacketWire.Log

inductive Level where
  | trace
  | debug
  | info
  | warn
  | error
  deriving DecidableEq, Repr, Inhabited

namespace Level

def name : Level → String
  | .trace => "trace"
  | .debug => "debug"
  | .info => "info"
  | .warn => "warn"
  | .error => "error"

def upperName : Level → String
  | .trace => "TRACE"
  | .debug => "DEBUG"
  | .info => "INFO"
  | .warn => "WARN"
  | .error => "ERROR"

/-- The place of a level, counted from the gravest. -/
def rank : Level → Nat
  | .error => 1
  | .warn => 2
  | .info => 3
  | .debug => 4
  | .trace => 5

def all : List Level := [.error, .warn, .info, .debug, .trace]

def ofRank? (n : Nat) : Option Level := all.find? fun l => l.rank == n

def ofName? (text : String) : Option Level := all.find? fun l => Text.agree l.name text

def ofText? (text : String) : Option Level :=
  match (Text.readNat Text.max64 text).toOption.bind ofRank? with
  | some l => some l
  | none => ofName? text

theorem ofText?_name (l : Level) : ofText? l.name = some l := by
  cases l <;> decide +kernel

end Level

end PacketWire.Log

import PacketWire.Log.Filter
import PacketWire.Settings.Basic

/-!
# Loggers

A logger is set up once from the logging settings. It sends the events that pass its filter to
the console, or to a file when there is to be no console output and a file is named.
-/

namespace PacketWire.Log

inductive Output where
  | console
  | file (path : String)
  deriving DecidableEq, Repr

structure Logger where
  filter : Filter
  output : Output
  /-- Whether events are written as objects instead of lines. -/
  json : Bool
  deriving DecidableEq, Repr

namespace Logger

/-- A filter given from outside wins over the level in the settings, if it can be read. -/
def filterOf (override : Option String) (s : Settings.LogSection) : Filter :=
  (override.bind Filter.ofText?).getD (.ofLevel s.level)

def outputOf (s : Settings.LogSection) : Output :=
  match s.file with
  | some path => if s.toConsole then .console else .file path
  | none => .console

def prepare (openFile : String → Except String Unit) : Output → Except WireError Unit
  | .console => .ok ()
  | .file path => (openFile path).mapError fun why => .config ("Failed to open log file: " ++ why)

/-- Sets the logger up, unless there is one already. The new one reports that it is there. -/
def install (override : Option String) (openFile : String → Except String Unit)
    (s : Settings.LogSection) (current : Option Logger) : Except WireError (Logger × Event) := do
  let output := outputOf s
  prepare openFile output
  match current with
  | some _ =>
    throw (.config
      "Failed to install logger: a global default trace dispatcher has already been set")
  | none =>
    return ({ filter := filterOf override s, output, json := s.json },
      .loggingInitialized s.appName s.level)

def record (l : Logger) (es : List Event) : List Event := es.filter l.filter.passes

end Logger

end PacketWire.Log

import ScriptLowering.Script.Literal

/-!
# Diagnostics and log

What was lost on the way is recorded: a `Diagnostic` names the method and, when known, the offset of
the instruction. The log holds one line for each step worth telling.
-/

namespace ScriptLowering

/-- How much of a method was lost. -/
inductive Severity where
  /-- Nothing. -/
  | info
  /-- Part of the method is unsupported. -/
  | warning
  /-- The method was replaced by a stub. -/
  | error
  deriving DecidableEq

namespace Severity

/-- All severities, the least first. -/
def all : List Severity :=
  [info, warning, error]

/-- The name of a severity. -/
def name : Severity → String
  | info => "INFO"
  | warning => "WARN"
  | error => "ERROR"

/-- The severity with a name. -/
def ofName? (s : String) : Option Severity :=
  all.find? (·.name == s)

end Severity

/-- What a diagnostic is about. -/
inductive Concern where
  | instruction
  | type
  | call
  | pass
  | method
  deriving DecidableEq

namespace Concern

/-- All concerns. -/
def all : List Concern :=
  [instruction, type, call, pass, method]

/-- The name of a concern. -/
def name : Concern → String
  | instruction => "Instruction"
  | type => "Type"
  | call => "Call"
  | pass => "Pass"
  | method => "Method"

/-- The concern with a name. -/
def ofName? (s : String) : Option Concern :=
  all.find? (·.name == s)

end Concern

/-- A recorded loss. -/
structure Diagnostic where
  severity : Severity
  concern : Concern
  message : String
  /-- The full name of the method. -/
  method? : Option String
  /-- The offset of the instruction. -/
  offset? : Option Nat

namespace Diagnostic

/-- The offset of an instruction as text. -/
def offsetText (offset : Nat) : String :=
  "@IL_" ++ Text.hex 4 offset

/-- Where the loss was. -/
def place (d : Diagnostic) : String :=
  match d.method?, d.offset? with
  | some method, some offset => " " ++ method ++ offsetText offset
  | some method, none => " " ++ method
  | none, some offset => " " ++ offsetText offset
  | none, none => ""

/-- The text of a diagnostic. -/
def text (d : Diagnostic) : String :=
  "[" ++ d.severity.name ++ "] " ++ d.concern.name ++ d.place ++ ": " ++ d.message

end Diagnostic

/-- The diagnostics of a run, in order. -/
structure Diagnostics where
  entries : List Diagnostic

namespace Diagnostics

/-- No diagnostics. -/
def empty : Diagnostics :=
  ⟨[]⟩

/-- Records one more. -/
def push (ds : Diagnostics) (d : Diagnostic) : Diagnostics :=
  ⟨ds.entries ++ [d]⟩

/-- The number of entries. -/
def count (ds : Diagnostics) : Nat :=
  ds.entries.length

/-- The number of entries of a severity. -/
def countOf (ds : Diagnostics) (s : Severity) : Nat :=
  ds.entries.countP (·.severity == s)

/-- Whether some method was replaced by a stub. -/
def hasErrors (ds : Diagnostics) : Bool :=
  ds.entries.any (·.severity == .error)

/-- The entries about a concern. -/
def about (ds : Diagnostics) (c : Concern) : List Diagnostic :=
  ds.entries.filter (·.concern == c)

/-- The entries about a method. -/
def forMethod (ds : Diagnostics) (method : String) : List Diagnostic :=
  ds.entries.filter (·.method? == some method)

/-- A line of counts by severity, then a line for each entry. -/
def summary (ds : Diagnostics) : String :=
  let counts := Severity.all.map fun s => s.name ++ "=" ++ toString (ds.countOf s)
  let lines := " ".intercalate counts :: ds.entries.map Diagnostic.text
  String.join (lines.map (· ++ "\n"))

end Diagnostics

/-- The weight of a log line. -/
inductive LogLevel where
  | debug
  | warn
  deriving DecidableEq

/-- A line of the log. -/
structure LogRecord where
  level : LogLevel
  message : String

namespace LogRecord

/-- The text of a log line. -/
def text (r : LogRecord) : String :=
  (match r.level with
    | .debug => "DEBUG "
    | .warn => "WARN ") ++ r.message

end LogRecord

end ScriptLowering

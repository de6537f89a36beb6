import MiniJava.Finding

namespace MiniJava

inductive Severity where
  | error
  | warning
  | info
deriving DecidableEq

def Severity.text : Severity → String
  | .error => "error"
  | .warning => "warning"
  | .info => "info"

/-- One message of a compilation; unknown coordinates are -1. -/
structure Report where
  severity : Severity
  stage : Stage
  line : Int
  col : Int
  message : String
deriving DecidableEq

namespace Report

/-- The text before and after the first colon that a space follows. -/
def splitLabel : List Char → Option (List Char × List Char)
  | ':' :: ' ' :: rest => some ([], rest)
  | c :: rest => (splitLabel rest).map fun (label, body) ↦ (c :: label, body)
  | [] => none

def stripPosition (text : String) : String :=
  match splitLabel text.toList with
  | some ('a' :: 't' :: ' ' :: _, body) => String.ofList body
  | _ => text

def ofFinding (f : Finding) : Report where
  severity := .error
  stage := f.stage
  line := f.pos.reportLine
  col := f.pos.reportCol
  message := stripPosition f.text

def isError (r : Report) : Bool := r.severity == .error

def text (r : Report) : String :=
  s!"{r.stage.text}:{r.line}:{r.col}: {r.severity.text}: {r.message}"

end Report

structure Reports where
  all : List Report := []

namespace Reports

variable (rs : Reports)

def push (r : Report) : Reports := ⟨rs.all ++ [r]⟩

def addFindings (fs : List Finding) : Reports := ⟨rs.all ++ fs.map Report.ofFinding⟩

def errors : List Report := rs.all.filter Report.isError

def hasErrors : Bool := rs.all.any Report.isError

def ofStage (s : Stage) : List Report := rs.all.filter (·.stage == s)

def text : String := String.join (rs.all.map fun r ↦ r.text ++ "\n")

end Reports

end MiniJava

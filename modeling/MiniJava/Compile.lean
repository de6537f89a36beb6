import MiniJava.Check.Program
import MiniJava.Jasmin.Class
import MiniJava.Lower.Program
import MiniJava.Report

namespace MiniJava

structure Options where
  emitJasmin : Bool := true
  /-- Whether code is generated for a program with findings. -/
  generateAnyway : Bool := false
  indent : Nat := 4
deriving DecidableEq

structure Output where
  code : Option Tac.Class
  text : Option String
  jasmin : Option String
  reports : Reports

def Output.success (o : Output) : Bool := !o.reports.hasErrors

def Program.compile (p : Program) (options : Options) : Output :=
  let checked := Reports.addFindings {} p.check
  if checked.hasErrors && !options.generateAnyway then ⟨none, none, none, checked⟩
  else
    let (cls, findings) := p.lower
    let lowered := checked.addFindings findings
    let text := cls.text options.indent
    if options.emitJasmin then
      let (jasmin, findings) := Jasmin.assemble cls options.indent
      ⟨some cls, some text, some jasmin, lowered.addFindings findings⟩
    else ⟨some cls, some text, none, lowered⟩

end MiniJava

import MiniJava.Lower.Stmt
import MiniJava.Tac.Class

namespace MiniJava

open Tac

def VarDecl.var (d : VarDecl) : Var := ⟨d.name.name, .ofTy d.ty.ty⟩

def ParamDecl.var (d : ParamDecl) : Var := ⟨d.name.name, .ofTy d.ty.ty⟩

/-- A method without a result may end without a return statement, its code may not. -/
def closeBody (ret : ValType) (code : List Instr) : List Instr :=
  if ret = .void && !code.getLast?.any Instr.isReturn then code ++ [.return .void none] else code

def MethodDecl.withBody (m : MethodDecl) (cls : String) (body : List Instr) : Tac.Method :=
  let params := m.params.map ParamDecl.var
  let ret := ValType.ofTy m.ret.ty
  let code := closeBody ret body
  { name := m.name.name
    isPublic := m.isPublic
    isStatic := m.isStatic
    isConstructor := false
    params
    ret
    code
    slots := .ofCode (if m.isStatic then none else some cls) params code }

def MethodDecl.lower (m : MethodDecl) (symbols : Symbols) : Lower Unit :=
  Scope.lowerStmts ⟨symbols, symbols.method? m.name.name⟩ m.body

/-- Methods share one numbering, so no two of them use the same temporary or label. -/
def Symbols.lowerMethods (symbols : Symbols) :
    Numbering → List MethodDecl → List Tac.Method × List Finding
  | _, [] => ([], [])
  | n, m :: rest =>
    let body := m.lower symbols n
    let (methods, findings) := symbols.lowerMethods body.next rest
    (m.withBody symbols.className body.code :: methods, body.findings ++ findings)

def Program.lower (p : Program) : Tac.Class × List Finding :=
  let symbols := p.symbols
  let (methods, findings) := symbols.lowerMethods {} p.cls.methods
  ({ name := symbols.className
     superName := symbols.superName
     imports := symbols.imports
     fields := p.cls.fields.map VarDecl.var
     methods := Tac.Method.constructor symbols.className :: methods },
   findings)

end MiniJava

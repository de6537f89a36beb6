import MiniJava.Check.Stmt

namespace MiniJava

def MethodDecl.checkMain (m : MethodDecl) (ret : Ty) : List Finding :=
  (if m.isPublic && m.isStatic then [] else [.located .mainNotPublicStatic m.name.pos]) ++
    (if ret = .void then [] else [.located .mainNotVoid m.name.pos]) ++
    match m.params with
    | [p] => if p.ty.ty = Ty.arrayOf .string then [] else [.located .mainParamType p.pos]
    | _ => [.located .mainParamCount m.pos]

def MethodDecl.checkShape (m : MethodDecl) (ret : Ty) : List Finding :=
  (if m.name.name = "main" then m.checkMain ret else []) ++
    if ret = .void || m.body.getLast?.any Stmt.isReturn then []
    else [.located (.missingReturn m.name.name) m.pos]

/-- A method is checked against the signature that its name stands for. -/
def MethodDecl.check (m : MethodDecl) (symbols : Symbols) : List Finding :=
  match symbols.method? m.name.name with
  | some sig => m.checkShape sig.ret ++ Scope.checkStmts ⟨symbols, some sig⟩ m.body
  | none => []

def Program.check (p : Program) : List Finding :=
  let symbols := p.symbols
  p.cls.methods.flatMap (·.check symbols)

end MiniJava

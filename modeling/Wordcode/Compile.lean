import Wordcode.Lower.Stmt

/-!
# Compiling programs

A module or an expression, with the table of its scope, becomes a code object. The code of nested
scopes is found among its constants.
-/

set_option autoImplicit false

namespace Wordcode
open Build

/-- The body of a module. -/
def Stmt.lowerModule (o : Options) (body : List Stmt) : Build Unit := do
  if let some s := body.head? then setLine s.line
  bindDocstring o body
  Stmt.lowerAll o [] (withoutDocstring o body)

/-- Builds the outermost scope, which a module's table must describe. -/
def compileScope (t : ScopeTable) (o : Options) (addNone : Bool) (body : Build Unit) :
    Except CompileError CodeObject :=
  if t.kind = .module then
    match body.run ⟨Draft.ofTable "<module>" "<module>" t 0 1 false, 1⟩ with
    | .ok _ s => s.draft.finish addNone o.filename
    | .error e _ => .error e
  else .error (.fault (.notAModule t.name t.kind))

def compile (p : Program) (t : ScopeTable) (o : Options) : Except CompileError CodeObject :=
  match p with
  | .module body => compileScope t o true (Stmt.lowerModule o body)
  | .expression e => compileScope t o false (e.lower o.filename .push)
  | .interactive _ => .error (.unsupportedMode p.mode)

end Wordcode

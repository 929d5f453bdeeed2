import Wordcode.Tree

/-!
# Scopes of an expression

How many scopes an expression creates in the scope it stands in: its lambdas and comprehensions,
those inside their bodies apart. Of a comprehension only the outermost iterable is evaluated
outside of it.
-/

set_option autoImplicit false

namespace Wordcode

mutual

/-- Adds the number of scopes that an expression creates to `n`. -/
def Expr.addScopes (n : Nat) : Expr → Nat
  | .boolOp _ _ values => Expr.addScopesOfAll n values
  | .binOp _ left _ right => Expr.addScopes (Expr.addScopes n left) right
  | .unaryOp _ _ operand => Expr.addScopes n operand
  | .lambda _ ⟨_, _, _, _, kwDefaults, _, defaults⟩ _ =>
    Expr.addScopesOfOptions (Expr.addScopesOfAll (n + 1) defaults) kwDefaults
  | .ifExp _ test body orelse => Expr.addScopes (Expr.addScopes (Expr.addScopes n test) body) orelse
  | .dict _ keys values => Expr.addScopesOfAll (Expr.addScopesOfAll n keys) values
  | .set _ elts => Expr.addScopesOfAll n elts
  | .listComp _ _ [] => n + 1
  | .listComp _ _ (⟨_, iter, _⟩ :: _) => Expr.addScopes (n + 1) iter
  | .yield _ value => Expr.addScopesOfOption n value
  | .compare _ left _ comparators => Expr.addScopesOfAll (Expr.addScopes n left) comparators
  | .call _ func args keywords =>
    Keyword.addScopesOfAll (Expr.addScopesOfAll (Expr.addScopes n func) args) keywords
  | .constant _ _ => n
  | .attribute _ object _ _ => Expr.addScopes n object
  | .subscript _ object index _ => Expr.addScopes (Expr.addScopes n object) index
  | .slice _ lower upper step =>
    Expr.addScopesOfOption (Expr.addScopesOfOption (Expr.addScopesOfOption n lower) upper) step
  | .name _ _ _ => n
  | .list _ elts _ => Expr.addScopesOfAll n elts
  | .tuple _ elts _ => Expr.addScopesOfAll n elts

def Expr.addScopesOfAll (n : Nat) : List Expr → Nat
  | [] => n
  | e :: es => Expr.addScopesOfAll (Expr.addScopes n e) es

def Expr.addScopesOfOption (n : Nat) : Option Expr → Nat
  | none => n
  | some e => Expr.addScopes n e

def Expr.addScopesOfOptions (n : Nat) : List (Option Expr) → Nat
  | [] => n
  | e :: es => Expr.addScopesOfOptions (Expr.addScopesOfOption n e) es

def Keyword.addScopesOfAll (n : Nat) : List Keyword → Nat
  | [] => n
  | ⟨_, value⟩ :: ks => Keyword.addScopesOfAll (Expr.addScopes n value) ks

end

def Expr.scopeCount (e : Expr) : Nat := e.addScopes 0

end Wordcode

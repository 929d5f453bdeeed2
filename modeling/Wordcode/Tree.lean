import Wordcode.Code

/-!
# Syntax trees

The programs to compile, as a parser hands them over. Every node carries its source line, or 0 if
it has none. A `Ctx` says whether a node is read, assigned or deleted.
-/

set_option autoImplicit false

namespace Wordcode

inductive Ctx where
  | load
  | store
  | del
  deriving DecidableEq

inductive BoolOp where
  | and
  | or
  deriving DecidableEq

inductive Operator where
  | add | sub | mult | matMult | div | mod | pow | lshift | rshift | bitOr | bitXor | bitAnd
  | floorDiv
  deriving DecidableEq

inductive UnaryOp where
  | invert
  | not
  | plus
  | minus
  deriving DecidableEq

inductive CmpOp where
  | eq | notEq | lt | le | gt | ge | is | isNot | in | notIn
  deriving DecidableEq

mutual

inductive Expr where
  | boolOp (line : UInt32) (op : BoolOp) (values : List Expr)
  | binOp (line : UInt32) (left : Expr) (op : Operator) (right : Expr)
  | unaryOp (line : UInt32) (op : UnaryOp) (operand : Expr)
  | lambda (line : UInt32) (args : Arguments) (body : Expr)
  | ifExp (line : UInt32) (test body orelse : Expr)
  | dict (line : UInt32) (keys values : List Expr)
  | set (line : UInt32) (elts : List Expr)
  | listComp (line : UInt32) (elt : Expr) (generators : List Generator)
  | yield (line : UInt32) (value : Option Expr)
  /-- `left op₀ c₀ op₁ c₁ …`. -/
  | compare (line : UInt32) (left : Expr) (ops : List CmpOp) (comparators : List Expr)
  | call (line : UInt32) (func : Expr) (args : List Expr) (keywords : List Keyword)
  | constant (line : UInt32) (value : Constant)
  | attribute (line : UInt32) (object : Expr) (attr : String) (ctx : Ctx)
  | subscript (line : UInt32) (object index : Expr) (ctx : Ctx)
  | slice (line : UInt32) (lower upper step : Option Expr)
  | name (line : UInt32) (id : String) (ctx : Ctx)
  | list (line : UInt32) (elts : List Expr) (ctx : Ctx)
  | tuple (line : UInt32) (elts : List Expr) (ctx : Ctx)

/-- The parameters of a function or lambda. -/
structure Arguments where
  posonly : List Param
  params : List Param
  vararg : Option Param
  kwonly : List Param
  /-- One entry for each keyword-only parameter. -/
  kwDefaults : List (Option Expr)
  kwarg : Option Param
  /-- Defaults of the last positional parameters. -/
  defaults : List Expr

structure Param where
  name : String
  annotation : Option Expr

/-- A named argument of a call or class definition. -/
structure Keyword where
  name : String
  value : Expr

/-- One loop of a comprehension, with its filters. -/
structure Generator where
  target : Expr
  iter : Expr
  filters : List Expr

end

/-- An imported name and the name it is bound to, if that differs. -/
structure Alias where
  name : String
  asname : Option String
  deriving DecidableEq

mutual

inductive Stmt where
  | functionDef (line : UInt32) (name : String) (args : Arguments) (body : List Stmt)
      (decorators : List Expr) (returns : Option Expr)
  | classDef (line : UInt32) (name : String) (bases : List Expr) (keywords : List Keyword)
      (body : List Stmt) (decorators : List Expr)
  | ret (line : UInt32) (value : Option Expr)
  | delete (line : UInt32) (targets : List Expr)
  /-- One value stored to every target, left to right. -/
  | assign (line : UInt32) (targets : List Expr) (value : Expr)
  | augAssign (line : UInt32) (target : Expr) (op : Operator) (value : Expr)
  | raise (line : UInt32) (exc cause : Option Expr)
  | assert (line : UInt32) (test : Expr) (msg : Option Expr)
  | importNames (line : UInt32) (names : List Alias)
  | importFrom (line : UInt32) (origin : Option String) (names : List Alias) (level : UInt32)
  | global (line : UInt32) (names : List String)
  | nonlocal (line : UInt32) (names : List String)
  | expr (line : UInt32) (value : Expr)
  | pass (line : UInt32)
  | breakLoop (line : UInt32)
  | continueLoop (line : UInt32)
  | forLoop (line : UInt32) (target iter : Expr) (body orelse : List Stmt)
  | whileLoop (line : UInt32) (test : Expr) (body orelse : List Stmt)
  | ifElse (line : UInt32) (test : Expr) (body orelse : List Stmt)
  | tryExcept (line : UInt32) (body : List Stmt) (handlers : List Handler)
      (orelse finalbody : List Stmt)

/-- An `except` clause; without a type it catches everything. -/
structure Handler where
  type : Option Expr
  name : Option String
  body : List Stmt
  line : UInt32

end

/-- What a compilation starts from. -/
inductive Program where
  | module (body : List Stmt)
  | expression (body : Expr)
  | interactive (body : List Stmt)

namespace Expr

def line : Expr → UInt32
  | .boolOp line .. | .binOp line .. | .unaryOp line .. | .lambda line .. | .ifExp line ..
  | .dict line .. | .set line .. | .listComp line .. | .yield line .. | .compare line ..
  | .call line .. | .constant line .. | .attribute line .. | .subscript line ..
  | .slice line .. | .name line .. | .list line .. | .tuple line .. => line

def constant? : Expr → Option Constant
  | .constant _ c => some c
  | _ => none

def isConstant (e : Expr) : Bool := e.constant?.isSome

end Expr

namespace Stmt

def line : Stmt → UInt32
  | .functionDef line .. | .classDef line .. | .ret line .. | .delete line ..
  | .assign line .. | .augAssign line .. | .raise line .. | .assert line ..
  | .importNames line .. | .importFrom line .. | .global line .. | .nonlocal line ..
  | .expr line .. | .pass line | .breakLoop line | .continueLoop line | .forLoop line ..
  | .whileLoop line .. | .ifElse line .. | .tryExcept line .. => line

end Stmt

/-- The text of a string that stands first in a body, as a statement of its own. -/
def docstring? : List Stmt → Option String
  | .expr _ (.constant _ (.str doc)) :: _ => some doc
  | _ => none

namespace Program

def mode : Program → String
  | .module _ => "module"
  | .expression _ => "expression"
  | .interactive _ => "interactive"

end Program
end Wordcode

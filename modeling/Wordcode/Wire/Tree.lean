import Wordcode.Tree
import Wordcode.Wire.Code

/-!
# The binary form of syntax trees

A node's line stands behind its other fields.
-/

set_option autoImplicit false

namespace Wordcode
open Wire

def Ctx.all : List Ctx := [.load, .store, .del]

def BoolOp.all : List BoolOp := [.and, .or]

def Operator.all : List Operator :=
  [.add, .sub, .mult, .matMult, .div, .mod, .pow, .lshift, .rshift, .bitOr, .bitXor, .bitAnd,
    .floorDiv]

def UnaryOp.all : List UnaryOp := [.invert, .not, .plus, .minus]

def CmpOp.all : List CmpOp := [.eq, .notEq, .lt, .le, .gt, .ge, .is, .isNot, .in, .notIn]

mutual

def Expr.fields (fs : Fields) : Expr → Fields
  | .boolOp line op values =>
    let fs := (fs.tag 0).choice BoolOp.all op
    (Expr.fieldsOfAll (fs.push (.size values.length)) values).word line
  | .binOp line left op right =>
    (Expr.fields ((Expr.fields (fs.tag 1) left).choice Operator.all op) right).word line
  | .unaryOp line op operand =>
    (Expr.fields ((fs.tag 2).choice UnaryOp.all op) operand).word line
  | .lambda line args body => (Expr.fields (Arguments.fields (fs.tag 3) args) body).word line
  | .ifExp line test body orelse =>
    (Expr.fields (Expr.fields (Expr.fields (fs.tag 4) test) body) orelse).word line
  | .dict line keys values =>
    let fs := Expr.fieldsOfAll ((fs.tag 5).push (.size keys.length)) keys
    (Expr.fieldsOfAll (fs.push (.size values.length)) values).word line
  | .set line elts =>
    (Expr.fieldsOfAll ((fs.tag 6).push (.size elts.length)) elts).word line
  | .listComp line elt generators =>
    let fs := (Expr.fields (fs.tag 7) elt).push (.size generators.length)
    (Generator.fieldsOfAll fs generators).word line
  | .yield line value => (Expr.fieldsOfOption (fs.tag 8) value).word line
  | .compare line left ops comparators =>
    let fs := (Expr.fields (fs.tag 9) left).list (Fields.choice CmpOp.all) ops
    (Expr.fieldsOfAll (fs.push (.size comparators.length)) comparators).word line
  | .call line func args keywords =>
    let fs := Expr.fields (fs.tag 10) func
    let fs := Expr.fieldsOfAll (fs.push (.size args.length)) args
    (Keyword.fieldsOfAll (fs.push (.size keywords.length)) keywords).word line
  | .constant line value => (Constant.fields (fs.tag 11) value).word line
  | .attribute line object attr ctx =>
    (((Expr.fields (fs.tag 12) object).text attr).choice Ctx.all ctx).word line
  | .subscript line object index ctx =>
    ((Expr.fields (Expr.fields (fs.tag 13) object) index).choice Ctx.all ctx).word line
  | .slice line lower upper step =>
    let fs := Expr.fieldsOfOption (Expr.fieldsOfOption (fs.tag 14) lower) upper
    (Expr.fieldsOfOption fs step).word line
  | .name line id ctx => (((fs.tag 15).text id).choice Ctx.all ctx).word line
  | .list line elts ctx =>
    let fs := Expr.fieldsOfAll ((fs.tag 16).push (.size elts.length)) elts
    (fs.choice Ctx.all ctx).word line
  | .tuple line elts ctx =>
    let fs := Expr.fieldsOfAll ((fs.tag 17).push (.size elts.length)) elts
    (fs.choice Ctx.all ctx).word line

def Expr.fieldsOfAll (fs : Fields) : List Expr → Fields
  | [] => fs
  | e :: es => Expr.fieldsOfAll (Expr.fields fs e) es

def Expr.fieldsOfOption (fs : Fields) : Option Expr → Fields
  | none => fs.push (.byte 0)
  | some e => Expr.fields (fs.push (.byte 1)) e

def Expr.fieldsOfOptions (fs : Fields) : List (Option Expr) → Fields
  | [] => fs
  | e :: es => Expr.fieldsOfOptions (Expr.fieldsOfOption fs e) es

def Arguments.fields (fs : Fields) : Arguments → Fields
  | ⟨posonly, params, vararg, kwonly, kwDefaults, kwarg, defaults⟩ =>
    let fs := Param.fieldsOfAll (fs.push (.size posonly.length)) posonly
    let fs := Param.fieldsOfAll (fs.push (.size params.length)) params
    let fs := Param.fieldsOfOption fs vararg
    let fs := Param.fieldsOfAll (fs.push (.size kwonly.length)) kwonly
    let fs := Expr.fieldsOfOptions (fs.push (.size kwDefaults.length)) kwDefaults
    let fs := Param.fieldsOfOption fs kwarg
    Expr.fieldsOfAll (fs.push (.size defaults.length)) defaults

def Param.fields (fs : Fields) : Param → Fields
  | ⟨name, annotation⟩ => Expr.fieldsOfOption (fs.text name) annotation

def Param.fieldsOfAll (fs : Fields) : List Param → Fields
  | [] => fs
  | p :: ps => Param.fieldsOfAll (Param.fields fs p) ps

def Param.fieldsOfOption (fs : Fields) : Option Param → Fields
  | none => fs.push (.byte 0)
  | some p => Param.fields (fs.push (.byte 1)) p

def Keyword.fields (fs : Fields) : Keyword → Fields
  | ⟨name, value⟩ => Expr.fields (fs.text name) value

def Keyword.fieldsOfAll (fs : Fields) : List Keyword → Fields
  | [] => fs
  | k :: ks => Keyword.fieldsOfAll (Keyword.fields fs k) ks

def Generator.fields (fs : Fields) : Generator → Fields
  | ⟨target, iter, filters⟩ =>
    let fs := Expr.fields (Expr.fields fs target) iter
    Expr.fieldsOfAll (fs.push (.size filters.length)) filters

def Generator.fieldsOfAll (fs : Fields) : List Generator → Fields
  | [] => fs
  | g :: gs => Generator.fieldsOfAll (Generator.fields fs g) gs

end

def Alias.fields (fs : Fields) (a : Alias) : Fields :=
  (fs.text a.name).option Fields.text a.asname

/-- A list of expressions behind its length. -/
def Expr.fieldsOfList (fs : Fields) (es : List Expr) : Fields :=
  Expr.fieldsOfAll (fs.push (.size es.length)) es

mutual

def Stmt.fields (fs : Fields) : Stmt → Fields
  | .functionDef line name args body decorators returns =>
    let fs := Arguments.fields ((fs.tag 0).text name) args
    let fs := Stmt.fieldsOfAll (fs.push (.size body.length)) body
    (Expr.fieldsOfOption (Expr.fieldsOfList fs decorators) returns).word line
  | .classDef line name bases keywords body decorators =>
    let fs := Expr.fieldsOfList ((fs.tag 1).text name) bases
    let fs := Keyword.fieldsOfAll (fs.push (.size keywords.length)) keywords
    let fs := Stmt.fieldsOfAll (fs.push (.size body.length)) body
    (Expr.fieldsOfList fs decorators).word line
  | .ret line value => (Expr.fieldsOfOption (fs.tag 2) value).word line
  | .delete line targets => (Expr.fieldsOfList (fs.tag 3) targets).word line
  | .assign line targets value =>
    (Expr.fields (Expr.fieldsOfList (fs.tag 4) targets) value).word line
  | .augAssign line target op value =>
    (Expr.fields ((Expr.fields (fs.tag 5) target).choice Operator.all op) value).word line
  | .raise line exc cause =>
    (Expr.fieldsOfOption (Expr.fieldsOfOption (fs.tag 6) exc) cause).word line
  | .assert line test msg => (Expr.fieldsOfOption (Expr.fields (fs.tag 7) test) msg).word line
  | .importNames line names => ((fs.tag 8).list Alias.fields names).word line
  | .importFrom line origin names level =>
    ((((fs.tag 9).option Fields.text origin).list Alias.fields names).word level).word line
  | .global line names => ((fs.tag 10).texts names).word line
  | .nonlocal line names => ((fs.tag 11).texts names).word line
  | .expr line value => (Expr.fields (fs.tag 12) value).word line
  | .pass line => (fs.tag 13).word line
  | .breakLoop line => (fs.tag 14).word line
  | .continueLoop line => (fs.tag 15).word line
  | .forLoop line target iter body orelse =>
    let fs := Expr.fields (Expr.fields (fs.tag 16) target) iter
    let fs := Stmt.fieldsOfAll (fs.push (.size body.length)) body
    (Stmt.fieldsOfAll (fs.push (.size orelse.length)) orelse).word line
  | .whileLoop line test body orelse =>
    let fs := Expr.fields (fs.tag 17) test
    let fs := Stmt.fieldsOfAll (fs.push (.size body.length)) body
    (Stmt.fieldsOfAll (fs.push (.size orelse.length)) orelse).word line
  | .ifElse line test body orelse =>
    let fs := Expr.fields (fs.tag 18) test
    let fs := Stmt.fieldsOfAll (fs.push (.size body.length)) body
    (Stmt.fieldsOfAll (fs.push (.size orelse.length)) orelse).word line
  | .tryExcept line body handlers orelse finalbody =>
    let fs := Stmt.fieldsOfAll ((fs.tag 19).push (.size body.length)) body
    let fs := Handler.fieldsOfAll (fs.push (.size handlers.length)) handlers
    let fs := Stmt.fieldsOfAll (fs.push (.size orelse.length)) orelse
    (Stmt.fieldsOfAll (fs.push (.size finalbody.length)) finalbody).word line

def Stmt.fieldsOfAll (fs : Fields) : List Stmt → Fields
  | [] => fs
  | s :: ss => Stmt.fieldsOfAll (Stmt.fields fs s) ss

def Handler.fields (fs : Fields) : Handler → Fields
  | ⟨type, name, body, line⟩ =>
    let fs := (Expr.fieldsOfOption fs type).option Fields.text name
    (Stmt.fieldsOfAll (fs.push (.size body.length)) body).word line

def Handler.fieldsOfAll (fs : Fields) : List Handler → Fields
  | [] => fs
  | h :: hs => Handler.fieldsOfAll (Handler.fields fs h) hs

end

namespace Program

def fields (fs : Fields) : Program → Fields
  | .module body => Stmt.fieldsOfAll ((fs.tag 0).push (.size body.length)) body
  | .expression body => Expr.fields (fs.tag 1) body
  | .interactive body => Stmt.fieldsOfAll ((fs.tag 2).push (.size body.length)) body

def encode (p : Program) : List UInt8 := Fields.encode (fields #[] p)

/-- Equality of programs, in which a NaN differs from itself. -/
def same (p q : Program) : Bool := Fields.same (fields #[] p) (fields #[] q)

end Program

namespace Wire.Reader

/-- The parts of expressions at one level, given how to read the level below. -/
def param (expr : Reader Expr) : Reader Param := do return ⟨← text, ← option expr⟩

def keyword (expr : Reader Expr) : Reader Keyword := do return ⟨← text, ← expr⟩

def comprehension (expr : Reader Expr) : Reader Generator := do
  return ⟨← expr, ← expr, ← list expr⟩

def arguments (expr : Reader Expr) : Reader Arguments := do
  let posonly ← list (param expr)
  let params ← list (param expr)
  let vararg ← option (param expr)
  let kwonly ← list (param expr)
  let kwDefaults ← list (option expr)
  let kwarg ← option (param expr)
  let defaults ← list expr
  return ⟨posonly, params, vararg, kwonly, kwDefaults, kwarg, defaults⟩

/-- Reads what follows an expression's fields: its line. -/
def withLine {α : Type} (node : UInt32 → α) : Reader α := do return node (← word)

/-- Reads an expression nested at most `depth` levels. -/
def expr : Nat → Reader Expr
  | 0 => fail .unexpectedEnd
  | depth + 1 => do
    match (← word).toNat with
    | 0 =>
      let op ← choice BoolOp.all
      let values ← list (expr depth)
      withLine (.boolOp · op values)
    | 1 =>
      let left ← expr depth
      let op ← choice Operator.all
      let right ← expr depth
      withLine (.binOp · left op right)
    | 2 =>
      let op ← choice UnaryOp.all
      let operand ← expr depth
      withLine (.unaryOp · op operand)
    | 3 =>
      let args ← arguments (expr depth)
      let body ← expr depth
      withLine (.lambda · args body)
    | 4 =>
      let test ← expr depth
      let body ← expr depth
      let orelse ← expr depth
      withLine (.ifExp · test body orelse)
    | 5 =>
      let keys ← list (expr depth)
      let values ← list (expr depth)
      withLine (.dict · keys values)
    | 6 =>
      let elts ← list (expr depth)
      withLine (.set · elts)
    | 7 =>
      let elt ← expr depth
      let generators ← list (comprehension (expr depth))
      withLine (.listComp · elt generators)
    | 8 =>
      let value ← option (expr depth)
      withLine (.yield · value)
    | 9 =>
      let left ← expr depth
      let ops ← list (choice CmpOp.all)
      let comparators ← list (expr depth)
      withLine (.compare · left ops comparators)
    | 10 =>
      let func ← expr depth
      let args ← list (expr depth)
      let keywords ← list (keyword (expr depth))
      withLine (.call · func args keywords)
    | 11 =>
      let value ← constant depth
      withLine (.constant · value)
    | 12 =>
      let object ← expr depth
      let attr ← text
      let ctx ← choice Ctx.all
      withLine (.attribute · object attr ctx)
    | 13 =>
      let object ← expr depth
      let index ← expr depth
      let ctx ← choice Ctx.all
      withLine (.subscript · object index ctx)
    | 14 =>
      let lower ← option (expr depth)
      let upper ← option (expr depth)
      let step ← option (expr depth)
      withLine (.slice · lower upper step)
    | 15 =>
      let id ← text
      let ctx ← choice Ctx.all
      withLine (.name · id ctx)
    | 16 =>
      let elts ← list (expr depth)
      let ctx ← choice Ctx.all
      withLine (.list · elts ctx)
    | 17 =>
      let elts ← list (expr depth)
      let ctx ← choice Ctx.all
      withLine (.tuple · elts ctx)
    | _ => fail .badTag

def importAlias : Reader Alias := do return ⟨← text, ← option text⟩

def handler (expr : Reader Expr) (stmt : Reader Stmt) : Reader Handler := do
  return ⟨← option expr, ← option text, ← list stmt, ← word⟩

/-- Reads a statement nested at most `depth` levels. -/
def stmt : Nat → Reader Stmt
  | 0 => fail .unexpectedEnd
  | depth + 1 => do
    match (← word).toNat with
    | 0 =>
      let name ← text
      let args ← arguments (expr depth)
      let body ← list (stmt depth)
      let decorators ← list (expr depth)
      let returns ← option (expr depth)
      withLine (.functionDef · name args body decorators returns)
    | 1 =>
      let name ← text
      let bases ← list (expr depth)
      let keywords ← list (keyword (expr depth))
      let body ← list (stmt depth)
      let decorators ← list (expr depth)
      withLine (.classDef · name bases keywords body decorators)
    | 2 =>
      let value ← option (expr depth)
      withLine (.ret · value)
    | 3 =>
      let targets ← list (expr depth)
      withLine (.delete · targets)
    | 4 =>
      let targets ← list (expr depth)
      let value ← expr depth
      withLine (.assign · targets value)
    | 5 =>
      let target ← expr depth
      let op ← choice Operator.all
      let value ← expr depth
      withLine (.augAssign · target op value)
    | 6 =>
      let exc ← option (expr depth)
      let cause ← option (expr depth)
      withLine (.raise · exc cause)
    | 7 =>
      let test ← expr depth
      let msg ← option (expr depth)
      withLine (.assert · test msg)
    | 8 =>
      let names ← list importAlias
      withLine (.importNames · names)
    | 9 =>
      let origin ← option text
      let names ← list importAlias
      let level ← word
      withLine (.importFrom · origin names level)
    | 10 =>
      let names ← texts
      withLine (.global · names)
    | 11 =>
      let names ← texts
      withLine (.nonlocal · names)
    | 12 =>
      let value ← expr depth
      withLine (.expr · value)
    | 13 => withLine .pass
    | 14 => withLine .breakLoop
    | 15 => withLine .continueLoop
    | 16 =>
      let target ← expr depth
      let iter ← expr depth
      let body ← list (stmt depth)
      let orelse ← list (stmt depth)
      withLine (.forLoop · target iter body orelse)
    | 17 =>
      let test ← expr depth
      let body ← list (stmt depth)
      let orelse ← list (stmt depth)
      withLine (.whileLoop · test body orelse)
    | 18 =>
      let test ← expr depth
      let body ← list (stmt depth)
      let orelse ← list (stmt depth)
      withLine (.ifElse · test body orelse)
    | 19 =>
      let body ← list (stmt depth)
      let handlers ← list (handler (expr depth) (stmt depth))
      let orelse ← list (stmt depth)
      let finalbody ← list (stmt depth)
      withLine (.tryExcept · body handlers orelse finalbody)
    | _ => fail .badTag

def program (depth : Nat) : Reader Program := do
  match (← word).toNat with
  | 0 => return .module (← list (stmt depth))
  | 1 => return .expression (← expr depth)
  | 2 => return .interactive (← list (stmt depth))
  | _ => fail .badTag

end Wire.Reader

def Program.decode (input : List UInt8) : Except ReadError Program :=
  (Reader.program input.length input).map Prod.fst

end Wordcode

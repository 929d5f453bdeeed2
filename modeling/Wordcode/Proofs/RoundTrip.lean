import Wordcode.Proofs.Carries
import Wordcode.Wire.Scope
import Wordcode.Wire.Tree

/-!
# Round trips through the binary form

Code objects, scope tables and programs come back from their binary form as they were, whatever
stands behind it, and no shorter beginning of it is taken for one. Each constructor is written in the
order in which it is read; that is all there is to prove about it.
-/

set_option autoImplicit false

namespace Wordcode
open Wire Reader

theorem Constant.fieldsOfAll_eq (fs : Fields) (cs : List Constant) :
    Constant.fieldsOfAll fs cs = cs.foldl Constant.fields fs := by
  induction cs generalizing fs with
  | nil => rfl
  | cons c cs ih => rw [Constant.fieldsOfAll, ih, List.foldl_cons]

theorem LineRange.carries (budget : Nat) (fs : Fields) (r : LineRange) :
    Carries budget fs (LineRange.fields fs r) lineRange r :=
  .bind (.word ..) (.bind (.word ..) (.bind (.word ..) (.pure ..)))

mutual

theorem Constant.carried (c : Constant) : Carried Constant.fields constant c := by
  refine .of_succ rfl rfl fun budget fs => ?_
  cases c with
  | none => exact .tagged 0 (.pure ..)
  | ellipsis => exact .tagged 1 (.pure ..)
  | bool b => exact .tagged 2 (.map (.bool ..) rfl)
  | int n => exact .tagged 3 (.map (.int ..) rfl)
  | float x => exact .tagged 4 (.map (.float ..) rfl)
  | complex re im => exact .tagged 5 (.bind (.float ..) (.map (.float ..) rfl))
  | str s => exact .tagged 6 (.map (.text ..) rfl)
  | bytes bs => exact .tagged 7 (.map (.bytes ..) rfl)
  | tuple items =>
    rw [Constant.fields, Constant.fieldsOfAll_eq]
    exact .tagged 8 (.map (.list (fun c hc => Constant.allCarried items c hc budget) _) rfl)
  | code c => exact .tagged 9 (.map (CodeObject.carried c budget _) rfl)

theorem Constant.allCarried (cs : List Constant) :
    ∀ c ∈ cs, Carried Constant.fields constant c := by
  cases cs with
  | nil => exact fun c hc => absurd hc List.not_mem_nil
  | cons c cs =>
    exact List.forall_mem_cons.mpr ⟨Constant.carried c, Constant.allCarried cs⟩

theorem CodeObject.carried (c : CodeObject) : Carried CodeObject.fields codeObject c := by
  refine .of_succ rfl rfl fun budget fs => ?_
  cases c with
  | mk name qualname filename firstLine flags argCount posonlyCount kwonlyCount stackSize serial
      constants names varnames cellvars freevars code lines =>
    simp only [CodeObject.fields, Constant.fieldsOfAll_eq]
    exact .descend (.text ..) rfl <| .bind (.text ..) <| .bind (.text ..) <| .bind (.word ..) <|
      .bind (.word ..) <| .bind (.word ..) <| .bind (.word ..) <| .bind (.word ..) <|
      .bind (.word ..) <| .bind (.word ..) <|
      .bind (.list (fun c hc => Constant.allCarried constants c hc budget) _) <|
      .bind (.texts ..) <| .bind (.texts ..) <| .bind (.texts ..) <| .bind (.texts ..) <|
      .bind (.bytes ..) <| .bind (.list (fun r _ fs => r.carries budget fs) _) (.pure ..)

end

theorem Expr.fieldsOfAll_eq (fs : Fields) (es : List Expr) :
    Expr.fieldsOfAll fs es = es.foldl Expr.fields fs := by
  induction es generalizing fs with
  | nil => rfl
  | cons e es ih => rw [Expr.fieldsOfAll, ih, List.foldl_cons]

theorem Expr.fieldsOfOption_eq (fs : Fields) (e : Option Expr) :
    Expr.fieldsOfOption fs e = fs.option Expr.fields e := by
  cases e with
  | none => rfl
  | some e => rw [Expr.fieldsOfOption, Fields.option]

theorem Expr.fieldsOfOptions_eq (fs : Fields) (es : List (Option Expr)) :
    Expr.fieldsOfOptions fs es = es.foldl (Fields.option Expr.fields) fs := by
  induction es generalizing fs with
  | nil => rfl
  | cons e es ih => rw [Expr.fieldsOfOptions, ih, List.foldl_cons, Expr.fieldsOfOption_eq]

theorem Param.fieldsOfAll_eq (fs : Fields) (ps : List Param) :
    Param.fieldsOfAll fs ps = ps.foldl Param.fields fs := by
  induction ps generalizing fs with
  | nil => rfl
  | cons p ps ih => rw [Param.fieldsOfAll, ih, List.foldl_cons]

theorem Param.fieldsOfOption_eq (fs : Fields) (p : Option Param) :
    Param.fieldsOfOption fs p = fs.option Param.fields p := by
  cases p with
  | none => rfl
  | some p => rw [Param.fieldsOfOption, Fields.option]

theorem Keyword.fieldsOfAll_eq (fs : Fields) (ks : List Keyword) :
    Keyword.fieldsOfAll fs ks = ks.foldl Keyword.fields fs := by
  induction ks generalizing fs with
  | nil => rfl
  | cons k ks ih => rw [Keyword.fieldsOfAll, ih, List.foldl_cons]

theorem Generator.fieldsOfAll_eq (fs : Fields) (gs : List Generator) :
    Generator.fieldsOfAll fs gs = gs.foldl Generator.fields fs := by
  induction gs generalizing fs with
  | nil => rfl
  | cons g gs ih => rw [Generator.fieldsOfAll, ih, List.foldl_cons]

section
variable (budget : Nat) (fs : Fields)

theorem Ctx.carries (c : Ctx) : Carries budget fs (fs.choice Ctx.all c) (choice Ctx.all) c :=
  .choice (by cases c <;> decide) (by decide) budget fs

theorem BoolOp.carries (op : BoolOp) :
    Carries budget fs (fs.choice BoolOp.all op) (choice BoolOp.all) op :=
  .choice (by cases op <;> decide) (by decide) budget fs

theorem Operator.carries (op : Operator) :
    Carries budget fs (fs.choice Operator.all op) (choice Operator.all) op :=
  .choice (by cases op <;> decide) (by decide) budget fs

theorem UnaryOp.carries (op : UnaryOp) :
    Carries budget fs (fs.choice UnaryOp.all op) (choice UnaryOp.all) op :=
  .choice (by cases op <;> decide) (by decide) budget fs

theorem CmpOp.carries (op : CmpOp) :
    Carries budget fs (fs.choice CmpOp.all op) (choice CmpOp.all) op :=
  .choice (by cases op <;> decide) (by decide) budget fs

end

/-- A node's line, behind its other fields. -/
theorem Wire.Carries.withLine {α : Type} {node : UInt32 → α} {a : α} {line : UInt32}
    (ha : node line = a) (budget : Nat) (fs : Fields) :
    Carries budget fs (fs.word line) (withLine node) a :=
  .map (.word ..) ha

mutual

theorem Expr.carried (e : Expr) : Carried Expr.fields expr e := by
  refine .of_succ rfl rfl fun budget fs => ?_
  cases e with
  | boolOp line op values =>
    simp only [Expr.fields, Expr.fieldsOfAll_eq]
    exact .tagged 0 <| .bind (op.carries ..) <|
      .bind (.list (fun e he => Expr.allCarried values e he budget) _) (.withLine rfl ..)
  | binOp line left op right =>
    exact .tagged 1 <| .bind (Expr.carried left ..) <| .bind (op.carries ..) <|
      .bind (Expr.carried right ..) (.withLine rfl ..)
  | unaryOp line op operand =>
    exact .tagged 2 <| .bind (op.carries ..) <| .bind (Expr.carried operand ..) (.withLine rfl ..)
  | lambda line args body =>
    exact .tagged 3 <| .bind (Arguments.carries args ..) <| .bind (Expr.carried body ..)
      (.withLine rfl ..)
  | ifExp line test body orelse =>
    exact .tagged 4 <| .bind (Expr.carried test ..) <| .bind (Expr.carried body ..) <|
      .bind (Expr.carried orelse ..) (.withLine rfl ..)
  | dict line keys values =>
    simp only [Expr.fields, Expr.fieldsOfAll_eq]
    exact .tagged 5 <| .bind (.list (fun e he => Expr.allCarried keys e he budget) _) <|
      .bind (.list (fun e he => Expr.allCarried values e he budget) _) (.withLine rfl ..)
  | set line elts =>
    simp only [Expr.fields, Expr.fieldsOfAll_eq]
    exact .tagged 6 <| .bind (.list (fun e he => Expr.allCarried elts e he budget) _)
      (.withLine rfl ..)
  | listComp line elt generators =>
    simp only [Expr.fields, Generator.fieldsOfAll_eq]
    exact .tagged 7 <| .bind (Expr.carried elt ..) <|
      .bind (.list (Generator.allCarry generators budget) _) (.withLine rfl ..)
  | yield line value =>
    simp only [Expr.fields, Expr.fieldsOfOption_eq]
    exact .tagged 8 <| .bind (.option (fun e he => Expr.carriedOfOption value e he budget) _)
      (.withLine rfl ..)
  | compare line left ops comparators =>
    simp only [Expr.fields, Expr.fieldsOfAll_eq]
    exact .tagged 9 <| .bind (Expr.carried left ..) <|
      .bind (.list (fun op _ fs => op.carries budget fs) _) <|
      .bind (.list (fun e he => Expr.allCarried comparators e he budget) _) (.withLine rfl ..)
  | call line func args keywords =>
    simp only [Expr.fields, Expr.fieldsOfAll_eq, Keyword.fieldsOfAll_eq]
    exact .tagged 10 <| .bind (Expr.carried func ..) <|
      .bind (.list (fun e he => Expr.allCarried args e he budget) _) <|
      .bind (.list (Keyword.allCarry keywords budget) _) (.withLine rfl ..)
  | constant line value =>
    exact .tagged 11 <| .bind (Constant.carried value ..) (.withLine rfl ..)
  | «attribute» line object attr ctx =>
    exact .tagged 12 <| .bind (Expr.carried object ..) <| .bind (.text ..) <|
      .bind (ctx.carries ..) (.withLine rfl ..)
  | subscript line object index ctx =>
    exact .tagged 13 <| .bind (Expr.carried object ..) <| .bind (Expr.carried index ..) <|
      .bind (ctx.carries ..) (.withLine rfl ..)
  | slice line lower upper step =>
    simp only [Expr.fields, Expr.fieldsOfOption_eq]
    exact .tagged 14 <| .bind (.option (fun e he => Expr.carriedOfOption lower e he budget) _) <|
      .bind (.option (fun e he => Expr.carriedOfOption upper e he budget) _) <|
      .bind (.option (fun e he => Expr.carriedOfOption step e he budget) _) (.withLine rfl ..)
  | name line id ctx =>
    exact .tagged 15 <| .bind (.text ..) <| .bind (ctx.carries ..) (.withLine rfl ..)
  | list line elts ctx =>
    simp only [Expr.fields, Expr.fieldsOfAll_eq]
    exact .tagged 16 <| .bind (.list (fun e he => Expr.allCarried elts e he budget) _) <|
      .bind (ctx.carries ..) (.withLine rfl ..)
  | tuple line elts ctx =>
    simp only [Expr.fields, Expr.fieldsOfAll_eq]
    exact .tagged 17 <| .bind (.list (fun e he => Expr.allCarried elts e he budget) _) <|
      .bind (ctx.carries ..) (.withLine rfl ..)

theorem Expr.allCarried (es : List Expr) : ∀ e ∈ es, Carried Expr.fields expr e := by
  cases es with
  | nil => exact fun e he => absurd he List.not_mem_nil
  | cons e es => exact List.forall_mem_cons.mpr ⟨Expr.carried e, Expr.allCarried es⟩

theorem Expr.carriedOfOption (o : Option Expr) : ∀ e ∈ o, Carried Expr.fields expr e := by
  cases o with
  | none => exact fun e he => nomatch he
  | some e => exact fun e' he => Option.some.inj he ▸ Expr.carried e

theorem Expr.carriedOfOptions (os : List (Option Expr)) :
    ∀ o ∈ os, ∀ e ∈ o, Carried Expr.fields expr e := by
  cases os with
  | nil => exact fun o ho => absurd ho List.not_mem_nil
  | cons o os =>
    exact List.forall_mem_cons.mpr ⟨Expr.carriedOfOption o, Expr.carriedOfOptions os⟩

theorem Arguments.carries (a : Arguments) (budget : Nat) (fs : Fields) :
    Carries budget fs (Arguments.fields fs a) (arguments (expr budget)) a := by
  cases a with
  | mk posonly params vararg kwonly kwDefaults kwarg defaults =>
    simp only [Arguments.fields, Param.fieldsOfAll_eq, Param.fieldsOfOption_eq,
      Expr.fieldsOfOptions_eq, Expr.fieldsOfAll_eq]
    exact .bind (.list (Param.allCarry posonly budget) _) <|
      .bind (.list (Param.allCarry params budget) _) <|
      .bind (.option (Param.carryOfOption vararg budget) _) <|
      .bind (.list (Param.allCarry kwonly budget) _) <|
      .bind (.list (fun o ho =>
        .option fun e he => Expr.carriedOfOptions kwDefaults o ho e he budget) _) <|
      .bind (.option (Param.carryOfOption kwarg budget) _) <|
      .bind (.list (fun e he => Expr.allCarried defaults e he budget) _) (.pure ..)

theorem Param.carries (p : Param) (budget : Nat) (fs : Fields) :
    Carries budget fs (Param.fields fs p) (param (expr budget)) p := by
  cases p with
  | mk name annotation =>
    simp only [Param.fields, Expr.fieldsOfOption_eq]
    exact .bind (.text ..) <|
      .map (.option (fun e he => Expr.carriedOfOption annotation e he budget) _) rfl

theorem Param.allCarry (ps : List Param) (budget : Nat) :
    ∀ p ∈ ps, ∀ fs, Carries budget fs (Param.fields fs p) (param (expr budget)) p := by
  cases ps with
  | nil => exact fun p hp => absurd hp List.not_mem_nil
  | cons p ps =>
    exact List.forall_mem_cons.mpr ⟨Param.carries p budget, Param.allCarry ps budget⟩

theorem Param.carryOfOption (o : Option Param) (budget : Nat) :
    ∀ p ∈ o, ∀ fs, Carries budget fs (Param.fields fs p) (param (expr budget)) p := by
  cases o with
  | none => exact fun p hp => nomatch hp
  | some p => exact fun p' hp => Option.some.inj hp ▸ Param.carries p budget

theorem Keyword.carries (k : Keyword) (budget : Nat) (fs : Fields) :
    Carries budget fs (Keyword.fields fs k) (keyword (expr budget)) k := by
  cases k with
  | mk name value => exact .bind (.text ..) (.map (Expr.carried value ..) rfl)

theorem Keyword.allCarry (ks : List Keyword) (budget : Nat) :
    ∀ k ∈ ks, ∀ fs, Carries budget fs (Keyword.fields fs k) (keyword (expr budget)) k := by
  cases ks with
  | nil => exact fun k hk => absurd hk List.not_mem_nil
  | cons k ks =>
    exact List.forall_mem_cons.mpr ⟨Keyword.carries k budget, Keyword.allCarry ks budget⟩

theorem Generator.carries (g : Generator) (budget : Nat) (fs : Fields) :
    Carries budget fs (Generator.fields fs g) (comprehension (expr budget)) g := by
  cases g with
  | mk target iter filters =>
    simp only [Generator.fields, Expr.fieldsOfAll_eq]
    exact .bind (Expr.carried target ..) <| .bind (Expr.carried iter ..) <|
      .map (.list (fun e he => Expr.allCarried filters e he budget) _) rfl

theorem Generator.allCarry (gs : List Generator) (budget : Nat) :
    ∀ g ∈ gs, ∀ fs, Carries budget fs (Generator.fields fs g) (comprehension (expr budget)) g := by
  cases gs with
  | nil => exact fun g hg => absurd hg List.not_mem_nil
  | cons g gs =>
    exact List.forall_mem_cons.mpr ⟨Generator.carries g budget, Generator.allCarry gs budget⟩

end

theorem Stmt.fieldsOfAll_eq (fs : Fields) (ss : List Stmt) :
    Stmt.fieldsOfAll fs ss = ss.foldl Stmt.fields fs := by
  induction ss generalizing fs with
  | nil => rfl
  | cons s ss ih => rw [Stmt.fieldsOfAll, ih, List.foldl_cons]

theorem Handler.fieldsOfAll_eq (fs : Fields) (hs : List Handler) :
    Handler.fieldsOfAll fs hs = hs.foldl Handler.fields fs := by
  induction hs generalizing fs with
  | nil => rfl
  | cons h hs ih => rw [Handler.fieldsOfAll, ih, List.foldl_cons]

section
variable (budget : Nat) (fs : Fields)

theorem Alias.carries (a : Alias) : Carries budget fs (Alias.fields fs a) importAlias a :=
  .bind (.text ..) (.map (.option (fun s _ fs => .text budget fs s) _) rfl)

theorem Expr.listCarries (es : List Expr) :
    Carries budget fs (Expr.fieldsOfList fs es) (Reader.list (expr budget)) es := by
  rw [Expr.fieldsOfList, Expr.fieldsOfAll_eq]
  exact .list (fun e _ => Expr.carried e budget) fs

theorem Expr.optionCarries (e : Option Expr) :
    Carries budget fs (Expr.fieldsOfOption fs e) (option (expr budget)) e := by
  rw [Expr.fieldsOfOption_eq]
  exact .option (fun e _ => Expr.carried e budget) fs

theorem Keyword.listCarries (ks : List Keyword) :
    Carries budget fs (Keyword.fieldsOfAll (fs.push (.size ks.length)) ks)
      (list (keyword (expr budget))) ks := by
  rw [Keyword.fieldsOfAll_eq]
  exact .list (fun k _ => Keyword.carries k budget) fs

end

mutual

theorem Stmt.carried (s : Stmt) : Carried Stmt.fields stmt s := by
  refine .of_succ rfl rfl fun budget fs => ?_
  cases s with
  | functionDef line name args body decorators returns =>
    exact .tagged 0 <| .bind (.text ..) <| .bind (Arguments.carries args ..) <|
      .bind (Stmt.listCarries body ..) <| .bind (Expr.listCarries ..) <|
      .bind (Expr.optionCarries ..) (.withLine rfl ..)
  | classDef line name bases keywords body decorators =>
    exact .tagged 1 <| .bind (.text ..) <| .bind (Expr.listCarries ..) <|
      .bind (Keyword.listCarries ..) <| .bind (Stmt.listCarries body ..) <|
      .bind (Expr.listCarries ..) (.withLine rfl ..)
  | ret line value => exact .tagged 2 <| .bind (Expr.optionCarries ..) (.withLine rfl ..)
  | delete line targets => exact .tagged 3 <| .bind (Expr.listCarries ..) (.withLine rfl ..)
  | assign line targets value =>
    exact .tagged 4 <| .bind (Expr.listCarries ..) <| .bind (value.carried ..) (.withLine rfl ..)
  | augAssign line target op value =>
    exact .tagged 5 <| .bind (target.carried ..) <| .bind (op.carries ..) <|
      .bind (value.carried ..) (.withLine rfl ..)
  | raise line exc cause =>
    exact .tagged 6 <| .bind (Expr.optionCarries ..) <| .bind (Expr.optionCarries ..)
      (.withLine rfl ..)
  | assert line test msg =>
    exact .tagged 7 <| .bind (test.carried ..) <| .bind (Expr.optionCarries ..) (.withLine rfl ..)
  | importNames line names =>
    exact .tagged 8 <| .bind (.list (fun a _ fs => a.carries budget fs) _) (.withLine rfl ..)
  | importFrom line origin names level =>
    exact .tagged 9 <| .bind (.option (fun s _ fs => .text budget fs s) _) <|
      .bind (.list (fun a _ fs => a.carries budget fs) _) <| .bind (.word ..) (.withLine rfl ..)
  | global line names => exact .tagged 10 <| .bind (.texts ..) (.withLine rfl ..)
  | nonlocal line names => exact .tagged 11 <| .bind (.texts ..) (.withLine rfl ..)
  | expr line value => exact .tagged 12 <| .bind (value.carried ..) (.withLine rfl ..)
  | pass line => exact .tagged 13 (.withLine rfl ..)
  | breakLoop line => exact .tagged 14 (.withLine rfl ..)
  | continueLoop line => exact .tagged 15 (.withLine rfl ..)
  | forLoop line target iter body orelse =>
    exact .tagged 16 <| .bind (target.carried ..) <| .bind (iter.carried ..) <|
      .bind (Stmt.listCarries body ..) <| .bind (Stmt.listCarries orelse ..) (.withLine rfl ..)
  | whileLoop line test body orelse =>
    exact .tagged 17 <| .bind (test.carried ..) <| .bind (Stmt.listCarries body ..) <|
      .bind (Stmt.listCarries orelse ..) (.withLine rfl ..)
  | ifElse line test body orelse =>
    exact .tagged 18 <| .bind (test.carried ..) <| .bind (Stmt.listCarries body ..) <|
      .bind (Stmt.listCarries orelse ..) (.withLine rfl ..)
  | tryExcept line body handlers orelse finalbody =>
    exact .tagged 19 <| .bind (Stmt.listCarries body ..) <| .bind (Handler.listCarries handlers ..) <|
      .bind (Stmt.listCarries orelse ..) <| .bind (Stmt.listCarries finalbody ..) (.withLine rfl ..)

theorem Stmt.allCarried (ss : List Stmt) : ∀ s ∈ ss, Carried Stmt.fields stmt s := by
  cases ss with
  | nil => exact fun s hs => absurd hs List.not_mem_nil
  | cons s ss => exact List.forall_mem_cons.mpr ⟨Stmt.carried s, Stmt.allCarried ss⟩

theorem Stmt.listCarries (ss : List Stmt) (budget : Nat) (fs : Fields) :
    Carries budget fs (Stmt.fieldsOfAll (fs.push (.size ss.length)) ss) (list (stmt budget)) ss := by
  rw [Stmt.fieldsOfAll_eq]
  exact .list (fun s hs => Stmt.allCarried ss s hs budget) fs

theorem Handler.carries (h : Handler) (budget : Nat) (fs : Fields) :
    Carries budget fs (Handler.fields fs h) (handler (expr budget) (stmt budget)) h := by
  cases h with
  | mk type name body line =>
    exact .bind (Expr.optionCarries ..) <| .bind (.option (fun s _ fs => .text budget fs s) _) <|
      .bind (Stmt.listCarries body ..) (.map (.word ..) rfl)

theorem Handler.allCarry (hs : List Handler) (budget : Nat) : ∀ h ∈ hs, ∀ fs,
    Carries budget fs (Handler.fields fs h) (handler (expr budget) (stmt budget)) h := by
  cases hs with
  | nil => exact fun h hh => absurd hh List.not_mem_nil
  | cons h hs =>
    exact List.forall_mem_cons.mpr ⟨Handler.carries h budget, Handler.allCarry hs budget⟩

theorem Handler.listCarries (hs : List Handler) (budget : Nat) (fs : Fields) :
    Carries budget fs (Handler.fieldsOfAll (fs.push (.size hs.length)) hs)
      (list (handler (expr budget) (stmt budget))) hs := by
  rw [Handler.fieldsOfAll_eq]
  exact .list (Handler.allCarry hs budget) fs

end

theorem Program.carried (p : Program) : Carried Program.fields program p := by
  intro budget fs
  cases p with
  | module body => exact .bind (.word _ _ 0) (.map (Stmt.listCarries ..) rfl)
  | expression body => exact .bind (.word _ _ 1) (.map (body.carried ..) rfl)
  | interactive body => exact .bind (.word _ _ 2) (.map (Stmt.listCarries ..) rfl)

/-- No scope of the table gives one name two resolutions. -/
inductive ScopeTable.Distinct : ScopeTable → Prop where
  | intro {t : ScopeTable} : (t.symbols.map Prod.fst).Nodup →
      (∀ u ∈ t.children, u.Distinct) → t.Distinct

theorem Symbols.assign_of_not_mem {name : String} (r : Resolution) {s : Symbols}
    (h : name ∉ s.map Prod.fst) : s.assign name r = s ++ [(name, r)] := by
  induction s with
  | nil => rfl
  | cons p s ih =>
    rw [List.map_cons, List.mem_cons, not_or] at h
    rw [assign, if_neg (Ne.symm h.1), ih h.2, List.cons_append]

theorem Symbols.foldl_assign {s ps : Symbols} (h : ((s ++ ps).map Prod.fst).Nodup) :
    ps.foldl (fun s p => s.assign p.1 p.2) s = s ++ ps := by
  induction ps generalizing s with
  | nil => rw [List.foldl_nil, List.append_nil]
  | cons p ps ih =>
    have hnew : p.1 ∉ s.map Prod.fst := fun hmem => by
      rw [List.map_append, List.nodup_append] at h
      exact h.2.2 p.1 hmem p.1 (by simp) rfl
    have happend : s ++ p :: ps = s ++ [(p.1, p.2)] ++ ps := by simp
    rw [happend] at h ⊢
    rw [List.foldl_cons, assign_of_not_mem p.2 hnew, ih h]

theorem Symbols.carries {s : Symbols} (h : (s.map Prod.fst).Nodup) (budget : Nat) (fs : Fields) :
    Carries budget fs (fs.list Symbols.pairFields s) symbols s := by
  refine .map (.list (fun p _ fs => ?_) fs) (Symbols.foldl_assign h)
  have hall : p.2 ∈ Resolution.all := by cases p.2 <;> decide
  exact .bind (.text ..) (.map (.choice hall (by decide) budget _) rfl)

theorem ScopeTable.fieldsOfAll_eq (fs : Fields) (ts : List ScopeTable) :
    ScopeTable.fieldsOfAll fs ts = ts.foldl ScopeTable.fields fs := by
  induction ts generalizing fs with
  | nil => rfl
  | cons t ts ih => rw [ScopeTable.fieldsOfAll, ih, List.foldl_cons]

theorem ScopeTable.carried {t : ScopeTable} (h : t.Distinct) :
    Carried ScopeTable.fields scopeTable t := by
  induction h with
  | @intro t hsymbols _ ih =>
    refine .of_succ rfl rfl fun budget fs => ?_
    have hkind : t.kind ∈ ScopeKind.all := by cases t.kind <;> decide
    have hname (o : Option String) (fs : Fields) :
        Carries budget fs (fs.option Fields.text o) (option text) o :=
      .option (fun s _ fs => .text budget fs s) fs
    cases t
    simp only [ScopeTable.fields, ScopeTable.fieldsOfAll_eq]
    exact .descend (.text ..) rfl <| .bind (.choice hkind (by decide) budget _) <|
      .bind (.word ..) <| .bind (.texts ..) <| .bind (.texts ..) <| .bind (.texts ..) <|
      .bind (hname _ _) <| .bind (hname _ _) <| .bind (Symbols.carries hsymbols ..) <|
      .bind (.bool ..) <| .bind (.bool ..) <|
      .bind (.list (fun u hu => ih u hu budget) _) (.pure ..)

/-- Code objects, scope tables in which no name stands twice, and programs come back from their
binary form, floats bit for bit and symbols in order, if no length in them is too large for memory.
What follows is ignored, and every shorter beginning ends too early. -/
theorem binary_roundTrips :
    (∀ c : CodeObject, (∀ f ∈ (CodeObject.fields #[] c).toList, f.Fits) →
      RoundTrips CodeObject.encode CodeObject.decode c) ∧
    (∀ t : ScopeTable, t.Distinct → (∀ f ∈ (ScopeTable.fields #[] t).toList, f.Fits) →
      RoundTrips ScopeTable.encode ScopeTable.decode t) ∧
    ∀ p : Program, (∀ f ∈ (Program.fields #[] p).toList, f.Fits) →
      RoundTrips Program.encode Program.decode p :=
  ⟨fun c hfit => c.carried.roundTrips hfit,
    fun _ hdistinct hfit => (ScopeTable.carried hdistinct).roundTrips hfit,
    fun p hfit => p.carried.roundTrips hfit⟩

/-- A code object with flags that have no name and a NaN inside a tuple, the table of a module with
a function in it, and a program. -/
theorem binary_roundTrips_nested :
    RoundTrips CodeObject.encode CodeObject.decode
      ⟨"f", "f", "a.py", 1, ⟨0xFFFFFFFF⟩, 0, 0, 0, 1, 7,
        [.tuple [.float ⟨0x7FF8000000000001⟩, .int (-1)]], ["é"], [], [], ["x"], [100, 0],
        [⟨0, 2, 1⟩]⟩ ∧
    RoundTrips ScopeTable.encode ScopeTable.decode
      { name := "top", kind := .module, line := 0, symbols := [("g", .local), ("a", .local)],
        children := [{ name := "g", kind := .function, line := 3, vararg := some "args" }] } ∧
    RoundTrips Program.encode Program.decode (.module [.ret 1 (some (.name 1 "x" .load)), .pass 2]) := by
  refine ⟨binary_roundTrips.1 _ (by decide), binary_roundTrips.2.1 _ ?_ (by decide),
    binary_roundTrips.2.2 _ (by decide)⟩
  exact .intro (by decide) fun u hu => by
    rw [List.mem_singleton.mp hu]
    exact .intro (by decide) fun _ h => absurd h List.not_mem_nil

end Wordcode

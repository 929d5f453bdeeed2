import Wordcode.Proofs.Accepted
import Wordcode.Proofs.Depths

/-!
# Operands

The operand of an instruction that accesses a name is the number of the name in a table of the
finished scope. Numbers are given out while the tables still grow, also for code that is dropped
later; what makes them right is that a table only grows behind and that the opcodes whose operand
stands for a name are never used for anything else.
-/

set_option autoImplicit false

namespace Wordcode

open Step (value branch simple)

/-- The tables of a scope that operands refer to. -/
inductive NameTable where
  | names
  | varnames
  /-- The cells and behind them the free variables. -/
  | cells
  deriving DecidableEq

/-- The table in which the operand of an opcode is a number. -/
def Opcode.nameTable? : Opcode → Option NameTable
  | .loadName | .storeName | .deleteName | .loadGlobal | .storeGlobal | .deleteGlobal
  | .loadAttr | .storeAttr | .deleteAttr | .loadMethod | .importName | .importFrom => some .names
  | .loadFast | .storeFast | .deleteFast => some .varnames
  | .loadDeref | .storeDeref | .deleteDeref | .loadClassderef | .loadClosure => some .cells
  | _ => none

/-- The operand of such an opcode stands for itself. -/
def Opcode.isLiteral (op : Opcode) : Bool := op.nameTable?.isNone && decide (op ≠ .loadConst)

theorem Opcode.isLiteral_of_isJump {op : Opcode} (h : op.isJump = true) : op.isLiteral = true := by
  cases op <;> first | rfl | cases h

/-- Opcodes are used for what their operand stands for. -/
def Step.isFaithful : Step → Bool
  | .emit op _ => op.isLiteral
  | .named op _ => op.nameTable?.isSome
  | _ => true

/-- The opcode makes no function, and its operand stands for itself. -/
def Opcode.isBasic (op : Opcode) : Bool := op.isLiteral && decide (op ≠ .makeFunction)

/-- Opcodes are used for what their operand stands for, and none makes a function. -/
def Step.isBasic : Step → Bool
  | .emit op _ => op.isBasic
  | .named op _ => op.nameTable?.isSome
  | _ => true

section Opcodes

@[simp] theorem isBasic_operator (op : Operator) : op.opcode.isBasic = true := by
  cases op <;> decide

@[simp] theorem isBasic_inplace (op : Operator) : op.inplaceOpcode.isBasic = true := by
  cases op <;> decide

@[simp] theorem isBasic_unary (op : UnaryOp) : op.opcode.isBasic = true := by
  cases op <;> decide

@[simp] theorem isBasic_compare (op : CmpOp) : op.opcode.1.isBasic = true := by
  cases op <;> decide

@[simp] theorem isBasic_subscript (ctx : Ctx) : (subscriptOpcode ctx).isBasic = true := by
  cases ctx <;> decide

@[simp] theorem nameTable?_attribute (ctx : Ctx) :
    (attributeOpcode ctx).nameTable? = some .names := by
  cases ctx <;> rfl

@[simp] theorem isSome_nameTable?_nameOpcode (d : Draft) (x : String) (ctx : Ctx) :
    (d.nameOpcode x ctx).nameTable?.isSome = true := by
  unfold Draft.nameOpcode
  cases d.access x <;> cases ctx
  case deref.load =>
    simp only [derefOpcode]
    split <;> rfl
  all_goals rfl

end Opcodes

/-- Opcodes of all steps are basic. -/
def Basic (steps : List Step) : Prop := steps.all Step.isBasic = true

@[simp] theorem basic_nil : Basic [] := rfl

@[simp] theorem basic_cons {x : Step} {xs : List Step} :
    Basic (x :: xs) ↔ x.isBasic = true ∧ Basic xs := by
  simp [Basic]

@[simp] theorem basic_append {xs ys : List Step} :
    Basic (xs ++ ys) ↔ Basic xs ∧ Basic ys := by
  simp [Basic]

theorem Basic.append {xs ys : List Step} (hx : Basic xs) (hy : Basic ys) :
    Basic (xs ++ ys) := basic_append.mpr ⟨hx, hy⟩

theorem Basic.cons {x : Step} {xs : List Step} (hx : x.isBasic = true) (hxs : Basic xs) :
    Basic (x :: xs) := basic_cons.mpr ⟨hx, hxs⟩

theorem basic_name (d : Draft) (x : String) (ctx : Ctx) : Basic [Step.name d x ctx] := by
  simp [Step.isBasic]

theorem basic_flatMap {α : Type} {f : α → List Step} (h : ∀ a, Basic (f a)) (as : List α) :
    Basic (as.flatMap f) := by
  induction as with
  | nil => rfl
  | cons a as ih => exact (h a).append ih

@[simp] theorem basic_optionSteps (e : Option Expr) : Basic (optionSteps e) := by
  cases e <;> rfl

@[simp] theorem basic_callSteps (extra : Nat) (args : List Expr) (ks : List Keyword) :
    Basic (callSteps extra args ks) := by
  unfold callSteps
  split <;> rfl

@[simp] theorem basic_defaultSteps (a : Arguments) : Basic a.defaultSteps := by
  unfold Arguments.defaultSteps
  split <;> split <;> rfl

@[simp] theorem basic_annotationSteps (a : Arguments) (returns : Option Expr) :
    Basic (a.annotationSteps returns) := by
  unfold Arguments.annotationSteps
  split <;> rfl

theorem basic_mapSteps (entries : List (Expr × Expr)) : Basic (mapSteps entries) := by
  unfold mapSteps
  split
  · split <;> rfl
  · rfl

theorem basic_sequenceSteps {build : Opcode} (h : build.isBasic = true) (ctx : Ctx)
    (es : List Expr) : Basic (sequenceSteps build ctx es) := by
  cases ctx with
  | load => simp [sequenceSteps, Step.isBasic, h]
  | store | del => rfl

theorem basic_valueSteps (d : Draft) (e : Expr) : Basic (e.valueSteps d) := by
  unfold Expr.valueSteps
  split
  all_goals first
  | rfl
  | exact basic_sequenceSteps rfl _ _
  | exact basic_name d _ _
  | simp [Step.isBasic, compareStep]; done
  | exact (basic_defaultSteps _).append rfl
  | exact (basic_optionSteps _).append rfl
  | exact ((basic_optionSteps _).append (basic_optionSteps _)).append rfl
  | split <;> rfl

@[simp] theorem basic_testSteps (dest : Dest) : Basic dest.testSteps := by
  cases dest <;> rfl

theorem Expr.basic (d : Draft) (n : Nat) (e : Expr) (dest : Dest) :
    Basic (e.steps d n dest) := by
  fun_cases Expr.steps d n e dest
  case case1 | case2 | case4 | case5 | case6 => rfl
  case case3 => split <;> rfl
  case case7 => exact (basic_valueSteps d e).append (basic_testSteps dest)

@[simp] theorem basic_clearSteps (d : Draft) (x : String) : Basic (clearSteps d x) := by
  simp [clearSteps, Step.isBasic]

theorem basic_augmentedSteps (d : Draft) (op : Operator) (e target : Expr) :
    Basic (augmentedSteps d op e target) := by
  unfold augmentedSteps
  split
  · simp [Step.isBasic]
    decide
  · simp [Step.isBasic]
    decide
  · simp [Step.isBasic]
  · rfl

theorem basic_raiseSteps (exc cause : Option Expr) : Basic (raiseSteps exc cause) := by
  unfold raiseSteps
  split <;> rfl

theorem basic_importPartSteps (parts : List String) : Basic (importPartSteps parts) := by
  induction parts with
  | nil => rfl
  | cons part rest ih =>
    cases rest with
    | nil => rfl
    | cons part' rest => exact .cons rfl (.cons rfl (.cons rfl ih))

theorem basic_bindImportSteps (d : Draft) (a : Alias) : Basic (bindImportSteps d a) := by
  unfold bindImportSteps
  split
  · exact basic_name d _ .store
  · exact basic_name d _ .store
  · exact (basic_importPartSteps _).append ((basic_name d _ .store).append rfl)

theorem basic_importFromSteps (d : Draft) (origin : Option String) (names : List Alias)
    (level : UInt32) : Basic (importFromSteps d origin names level) := by
  have hnames : Basic (bindFromSteps d names) :=
    basic_flatMap (fun a => .cons rfl (basic_name d _ .store)) names
  refine .cons rfl (.cons rfl (.cons rfl ?_))
  split
  · rfl
  · exact hnames.append rfl

theorem basic_replicate {x : Step} (h : x.isBasic = true) (n : Nat) :
    Basic (List.replicate n x) := by
  induction n with
  | zero => rfl
  | succ n ih => exact .cons h ih

theorem basic_leaveSteps (d : Draft) (keep : Bool) (f : Frame) :
    Basic (leaveSteps d keep f) := by
  cases f with
  | handlerCleanup x =>
    cases x with
    | none => cases keep <;> rfl
    | some x =>
      cases keep
      · exact .cons rfl (.cons rfl (basic_clearSteps d x))
      · exact .cons rfl (.cons rfl (.cons rfl (basic_clearSteps d x)))
  | _ => cases keep <;> rfl

theorem basic_docSteps (o : Options) (d : Draft) (body : List Stmt) :
    Basic (docSteps o d body) := by
  unfold docSteps
  split
  · rfl
  · exact .cons rfl (basic_name d _ .store)

theorem Stmt.basic (o : Options) (d : Draft) (frames : List Frame) (n : Nat) (s : Stmt) :
    Basic (s.steps o d frames n) := by
  cases s with
  | functionDef line name args body decorators returns =>
    have hcalls := basic_replicate (x := .emit .callFunction 1) rfl decorators.length
    simp [Stmt.steps, Step.isBasic, hcalls]
  | classDef line name bases keywords body decorators =>
    have hcalls := basic_replicate (x := .emit .callFunction 1) rfl decorators.length
    simp [Stmt.steps, Step.isBasic, hcalls]
    rfl
  | ret line e =>
    cases e with
    | none => rfl
    | some e =>
      simp only [Stmt.steps]
      split <;> rfl
  | augAssign line target op e => exact basic_augmentedSteps d op e target
  | raise line exc cause => exact basic_raiseSteps exc cause
  | assert line test msg =>
    simp only [Stmt.steps]
    split
    · rfl
    · cases msg <;> rfl
  | importNames line names =>
    refine basic_flatMap (fun a => ?_) names
    exact .cons rfl (.cons rfl (.cons rfl (basic_bindImportSteps d a)))
  | importFrom line origin names level => exact basic_importFromSteps d origin names level
  | expr line e =>
    simp only [Stmt.steps]
    split <;> rfl
  | breakLoop | continueLoop =>
    simp only [Stmt.steps]
    split <;> rfl
  | ifElse line test body orelse => cases orelse <;> rfl
  | tryExcept line body handlers orelse finalbody => cases finalbody <;> rfl
  | delete | assign | «global» | «nonlocal» | pass | forLoop | whileLoop => rfl

theorem Task.basic (o : Options) (d : Draft) (n : Nat) (t : Task) :
    Basic (t.steps o d n) := by
  cases t with
  | expr e dest => exact e.basic d n dest
  | stmt frames s => exact s.basic o d frames n
  | all es => cases es <;> rfl
  | operands jump done es => rcases es with _ | ⟨_, _ | ⟨_, _⟩⟩ <;> rfl
  | tests decided decisive target sense es => rcases es with _ | ⟨_, _ | ⟨_, _⟩⟩ <;> rfl
  | links jump cleanup last ops es =>
    rcases es with _ | ⟨_, _ | ⟨_, _⟩⟩
    · rfl
    · simp [Task.steps, Step.isBasic, compareStep]
    · cases ops with
      | nil => rfl
      | cons =>
        simp [Task.steps, Step.isBasic, compareStep]
        decide
  | chain | block | tryExcept => rfl
  | chainEnd cleanup dest =>
    cases dest with
    | push => rfl
    | jump target sense => cases sense <;> rfl
  | filters cleanup es => cases es <;> rfl
  | loop input target conditions rest element depth =>
    cases input <;> cases rest <;> rfl
  | inner element depth gs => rcases gs with _ | ⟨⟨_, _, _⟩, _⟩ <;> rfl
  | map entries => exact basic_mapSteps entries
  | extendMap entries => cases entries <;> rfl
  | storeAll targets => rcases targets with _ | ⟨_, _ | ⟨_, _⟩⟩ <;> rfl
  | stmts frames ss => cases ss <;> rfl
  | handlers frames done hs => rcases hs with _ | ⟨⟨_ | _, _, _, _⟩, _⟩ <;> rfl
  | handler frames done name body =>
    cases name with
    | none => rfl
    | some x =>
      simp only [Task.steps, basic_append, basic_cons, basic_clearSteps]
      simp [Step.isBasic]
      decide
  | unwind keep toLoop frames =>
    cases frames with
    | nil => rfl
    | cons f outer =>
      simp only [Task.steps]
      split
      · rfl
      · refine ((basic_leaveSteps d keep f).append ?_).append rfl
        cases f <;> rfl

theorem Body.basic (o : Options) (d : Draft) (body : Body) : Basic (body.steps o d) := by
  cases body with
  | lambda e =>
    unfold Body.steps
    cases d.isGenerator <;> rfl
  | comprehension | function => rfl
  | classBody body =>
    have hdoc := basic_docSteps o d body
    simp only [Body.steps]
    split <;> simp [Step.isBasic, hdoc] <;> decide

theorem Program.basic (o : Options) (d : Draft) (p : Program) : Basic (p.steps o d) := by
  cases p with
  | module body => exact (basic_docSteps o d body).append rfl
  | expression | interactive => rfl

/-- Opcodes of all steps are used for what their operand stands for. -/
def Faithful (steps : List Step) : Prop := steps.all Step.isFaithful = true

theorem faithful_cons {x : Step} {xs : List Step} :
    Faithful (x :: xs) ↔ x.isFaithful = true ∧ Faithful xs := by
  simp [Faithful]

theorem Faithful.append {xs ys : List Step} (hx : Faithful xs) (hy : Faithful ys) :
    Faithful (xs ++ ys) := by
  simp_all [Faithful]

theorem Basic.faithful {steps : List Step} (h : Basic steps) : Faithful steps := by
  refine List.all_eq_true.mpr fun x hx => ?_
  have hbasic := List.all_eq_true.mp h x hx
  cases x with
  | emit op arg => exact (Bool.and_eq_true_iff.mp hbasic).1
  | named => exact hbasic
  | _ => rfl

theorem Source.basic (o : Options) (d : Draft) (src : Source) : Basic (src.steps o d) := by
  cases src with
  | program p => exact p.basic o d
  | body b => exact b.basic o d

theorem Source.faithful (o : Options) (d : Draft) (src : Source) : Faithful (src.steps o d) :=
  (src.basic o d).faithful

theorem faithful_closureSteps (code : CodeObject) (parts : FunctionParts) (qualname : String) :
    Faithful (closureSteps code parts qualname) := by
  unfold closureSteps
  split
  · rfl
  · have hcells : Faithful (code.freevars.map (Step.named .loadClosure)) := by
      induction code.freevars with
      | nil => rfl
      | cons x xs ih => exact faithful_cons.mpr ⟨rfl, ih⟩
    refine (hcells.append ?_).append ?_ <;> rfl

def Item.isFaithful : Item → Bool
  | .emit op _ => op.isLiteral
  | .named op _ _ => op.nameTable?.isSome
  | _ => true

theorem Step.Puts.faithful {x : Step} {out : Script} (h : x.Puts out) (hx : x.isFaithful = true) :
    ∀ item ∈ out, item.isFaithful = true := by
  cases h with
  | emit | named =>
    rw [List.forall_mem_singleton]
    exact hx
  | load | jump | label | intern => simp [Item.isFaithful]

theorem Emits.faithful {o : Options} {d : Draft} {steps : List Step} {n m : Nat} {log : Script}
    (h : Emits o d steps n log m) (hsteps : Faithful steps) :
    ∀ item ∈ log, item.isFaithful = true := by
  induction h with
  | nil => simp
  | put hx _ ih =>
    rw [faithful_cons] at hsteps
    exact List.forall_mem_append.mpr ⟨hx.faithful hsteps.1, ih hsteps.2⟩
  | closure _ _ _ _ _ _ _ ih =>
    rw [faithful_cons] at hsteps
    exact ih ((faithful_closureSteps ..).append hsteps.2)
  | run _ _ _ ihsub ih =>
    rw [faithful_cons] at hsteps
    refine List.forall_mem_append.mpr ⟨List.forall_mem_append.mpr ⟨?_, ?_⟩, ih hsteps.2⟩
    · intro item hitem
      rw [(List.mem_replicate.mp hitem).2]
      rfl
    · exact ihsub (Task.basic ..).faithful

/-- What an item stands for when it is added, it stands for in the end. -/
theorem Draft.Writes.resolves {d d' : Draft} {log : Script} (h : d.Writes log d') {item : Item}
    (hitem : item ∈ log) : d'.Resolves item := by
  induction h with
  | nil => cases hitem
  | quiet _ hevolves _ _ _ _ ih => exact hevolves.resolves (ih hitem)
  | @alloc log d₁ hw ih =>
    rcases List.mem_append.mp hitem with hitem | hitem
    · exact (Writes.nil.alloc.evolves).resolves (ih hitem)
    · rw [List.mem_singleton.mp hitem]
      trivial
  | label b _ ih =>
    rcases List.mem_append.mp hitem with hitem | hitem
    · exact ((Writes.nil.label b).evolves).resolves (ih hitem)
    · rw [List.mem_singleton.mp hitem]
      trivial
  | code _ _ hresolves ih =>
    refine (evolves_append _ _).resolves ?_
    rcases List.mem_append.mp hitem with hitem | hitem
    · exact ih hitem
    · rw [List.mem_singleton.mp hitem]
      exact hresolves
  | intern c _ ih =>
    rcases List.mem_append.mp hitem with hitem | hitem
    · exact (evolves_internConstant _ c).resolves (ih hitem)
    · rw [List.mem_singleton.mp hitem]
      trivial

namespace Pool

theorem nodup_toList (p : NamePool) : p.toList.Nodup := by
  simpa using p.nodup_keys

/-- A pool of distinct names numbers them in their order. -/
theorem toList_ofList_of_nodup {xs : List String} (h : xs.Nodup) :
    (Pool.ofList xs : NamePool).toList = xs := by
  have hfold (xs : List String) (p : NamePool) (h : (p.toList ++ xs).Nodup) :
      (xs.foldl (fun p x => (p.intern x).2) p).toList = p.toList ++ xs := by
    induction xs generalizing p with
    | nil => simp
    | cons x xs ih =>
      have hnew : p.find? x = none := (p.find?_eq_none_iff x).mpr fun y hy hyx =>
        (List.nodup_append.mp h).2.2 y hy x List.mem_cons_self hyx
      have hgrow : (p.intern x).2.toList = p.toList ++ [x] := by
        rw [toList_intern, hnew]
        rfl
      rw [List.foldl_cons, ih _ (by rwa [hgrow, List.append_assoc]), hgrow, List.append_assoc]
      rfl
  exact hfold xs .empty h

end Pool

namespace CodeObject

/-- The name with a number in a table. -/
def nameAt? (c : CodeObject) (i : Nat) : NameTable → Option String
  | .names => c.names[i]?
  | .varnames => c.varnames[i]?
  | .cells => c.derefName? i

def nameCount (c : CodeObject) : NameTable → Nat
  | .names => c.names.length
  | .varnames => c.varnames.length
  | .cells => c.cellvars.length + c.freevars.length

theorem lt_nameCount {c : CodeObject} {i : Nat} {table : NameTable} {x : String}
    (h : c.nameAt? i table = some x) : i < c.nameCount table := by
  cases table with
  | names | varnames => exact (List.getElem?_eq_some_iff.mp h).1
  | cells =>
    simp only [nameAt?, derefName?] at h
    split at h
    · exact Nat.lt_add_right _ ‹_›
    · have := (List.getElem?_eq_some_iff.mp h).1
      simp only [nameCount]
      omega

/-- An instruction and the position `m` of the script that added it. A name is found at the operand
if its number is a word. -/
structure Operand (c : CodeObject) (log : Script) (m : Nat) (e : Decoded) : Prop where
  constant : e.opcode = .loadConst → e.arg.toNat < c.constants.length
  name : ∀ table, e.opcode.nameTable? = some table → ∃ x i,
    log[m]? = some (.named e.opcode e.arg x) ∧ e.arg = UInt32.ofNat i ∧
    c.nameAt? i table = some x ∧ (c.nameCount table ≤ 2 ^ 32 → e.arg.toNat = i)

/-- The operands of the wordcode that a script was assembled to, the return at its end included. -/
def HasOperands (c : CodeObject) (log : Script) : Prop :=
  ∃ tail code pos, Wordcode.decode c.code = .ok code ∧ Script.Renders (log ++ tail) code pos ∧
    ∀ j e, code[j]? = some e → c.Operand log (pos j) e

/-- The tables of a finished scope. -/
structure HasTables (c : CodeObject) (t : ScopeTable) : Prop where
  names : c.names.Nodup
  varnames : c.varnames.Nodup
  cellvars : c.cellvars.Nodup
  freevars : c.freevars.Nodup
  parameters : t.parameterNames.Nodup →
    t.posonly ++ t.params ++ t.kwonly ++ t.vararg.toList ++ t.kwarg.toList <+: c.varnames

end CodeObject

section

variable {o : Options} {name qualname : String} {t : ScopeTable} {serial firstLine : UInt32}
  {nested : Bool} {log : Script} {d : Draft} {addNone : Bool} {filename : String} {c : CodeObject}

/-- The tables of the code object are those of the draft. -/
theorem nameAt?_of_finish (hc : d.finish addNone filename = .ok c) {op : Opcode}
    {table : NameTable} (hop : op.nameTable? = some table) (i : Nat) :
    c.nameAt? i table = ((d.close addNone).operandNames op)[i]? := by
  obtain ⟨_, _, _, _, _, _, _, _, _, _, _, _, _, hnames, hvarnames, hcells, hfree, _⟩ :=
    Draft.assemble_eq_ok (Draft.of_finish_ok hc)
  have hsplit : c.derefName? i = (c.cellvars ++ c.freevars)[i]? := by
    rw [CodeObject.derefName?, List.getElem?_append]
  cases op <;> cases hop
  all_goals first
  | exact congrArg (·[i]?) hnames
  | exact congrArg (·[i]?) hvarnames
  | exact hsplit.trans (by rw [hcells, hfree]; rfl)

theorem hasTables_of_finish
    (hw : (Draft.ofTable name qualname t serial firstLine nested).Writes log d)
    (hc : d.finish addNone filename = .ok c) : c.HasTables t := by
  obtain ⟨_, _, _, _, _, _, _, _, _, _, _, _, _, hnames, hvarnames, hcells, hfree, _⟩ :=
    Draft.assemble_eq_ok (Draft.of_finish_ok hc)
  refine ⟨hnames ▸ Pool.nodup_toList _, hvarnames ▸ Pool.nodup_toList _,
    hcells ▸ Pool.nodup_toList _, hfree ▸ Pool.nodup_toList _, fun hnodup => ?_⟩
  have hstart : (Draft.ofTable name qualname t serial firstLine nested).varnames.toList =
      t.parameterNames := Pool.toList_ofList_of_nodup hnodup
  rw [hvarnames, ← ScopeTable.parameterNames, ← hstart]
  rcases hw.close addNone with ⟨_, hw'⟩ | ⟨_, _, hw'⟩ <;> exact hw'.evolves.varnames

/-- What an item leaves in the wordcode, if it stands for what the finished tables say. -/
theorem operand_of_item (hc : d.finish addNone filename = .ok c) {item : Item} {m : Nat}
    {e : Decoded} {i : Instruction} (hfaithful : item.isFaithful = true)
    (hresolves : (d.close addNone).Resolves item) (hi : item.instruction? = some i)
    (hop : e.opcode = i.opcode) (harg : i.target = none → e.arg = i.arg)
    (hlog : ∀ op arg x, item = .named op arg x → log[m]? = some item) : c.Operand log m e := by
  have hliteral (h : e.opcode.isLiteral = true) : c.Operand log m e := by
    simp only [Opcode.isLiteral, Bool.and_eq_true, Option.isNone_iff_eq_none,
      decide_eq_true_eq] at h
    refine ⟨fun hload => absurd hload h.2, fun table htable => ?_⟩
    rw [h.1] at htable
    cases htable
  cases item with
  | emit op arg =>
    cases hi
    exact hliteral (hop ▸ hfaithful)
  | jump op b =>
    cases hi
    exact hliteral (hop ▸ Opcode.isLiteral_of_isJump hresolves)
  | load arg k =>
    cases hi
    obtain ⟨n, rfl, hn⟩ := hresolves
    obtain ⟨_, _, _, _, _, _, _, _, _, _, _, _, hconstants, _⟩ :=
      Draft.assemble_eq_ok (Draft.of_finish_ok hc)
    refine ⟨fun _ => ?_, fun table htable => ?_⟩
    · obtain ⟨k', hk', _⟩ := Option.map_eq_some_iff.mp hn
      have hlt := (List.getElem?_eq_some_iff.mp hk').1
      rw [hconstants, harg rfl, UInt32.toNat_ofNat']
      exact Nat.lt_of_le_of_lt (Nat.mod_le _ _) hlt
    · rw [hop] at htable
      cases htable
  | named op arg x =>
    cases hi
    obtain ⟨n, rfl, hn⟩ := hresolves
    obtain rfl : e.opcode = op := hop
    refine ⟨fun hload => ?_, fun table htable => ?_⟩
    · rw [Item.isFaithful, hload] at hfaithful
      cases hfaithful
    · have hname := nameAt?_of_finish hc htable n
      rw [hn] at hname
      refine ⟨x, n, ?_, harg rfl, hname, fun hsmall => ?_⟩
      · rw [harg rfl]
        exact hlog _ _ _ rfl
      · rw [harg rfl]
        exact UInt32.toNat_ofNat_of_lt' (Nat.lt_of_lt_of_le (CodeObject.lt_nameCount hname) hsmall)
  | label | alloc | intern => cases hi

theorem hasOperands_of_finish {d₀ : Draft} {steps : List Step} {k : Nat}
    (hd : d₀ = .ofTable name qualname t serial firstLine nested)
    (h : Emits o d₀ steps 1 log k) (hclosed : Closed steps) (hfaithful : Faithful steps)
    (hw : d₀.Writes log d) (hc : d.finish addNone filename = .ok c) : c.HasOperands log := by
  subst hd
  obtain ⟨tail, code, pos, hwhole, _, _, htail, hdecode, hrenders, _⟩ :=
    hw.exists_renders (h.sound hclosed hw rfl) (Draft.of_finish_ok hc)
  -- the return at the end refers to no name
  have hreturn : ∀ item ∈ tail, item.isFaithful = true ∧ ∀ op arg x, item ≠ .named op arg x := by
    rcases htail with rfl | ⟨arg, rfl⟩
    · simp
    · cases addNone <;> simp [Script.closing, Item.isFaithful] <;> decide
  refine ⟨tail, code, pos, hdecode, hrenders, fun j e he => ?_⟩
  obtain ⟨item, i, hitem, hi, hop, harg⟩ := hrenders.item j e he
  have hmem := List.mem_of_getElem? hitem
  have hresolves := hwhole.resolves hmem
  rcases Nat.lt_or_ge (pos j) log.length with hlt | hge
  · rw [List.getElem?_append_left hlt] at hitem
    have hitemFaithful := h.faithful hfaithful item (List.mem_of_getElem? hitem)
    exact operand_of_item hc hitemFaithful hresolves hi hop harg fun _ _ _ _ => hitem
  · rw [List.getElem?_append_right hge] at hitem
    obtain ⟨hitemFaithful, hnot⟩ := hreturn item (List.mem_of_getElem? hitem)
    exact operand_of_item hc hitemFaithful hresolves hi hop harg fun op arg x hx =>
      absurd hx (hnot op arg x)

end

theorem ScopeRun.Within.hasOperands {o : Options} {p : Program} {t : ScopeTable} {r : ScopeRun}
    (h : r.Within o p t) : r.code.HasOperands r.log ∧ r.code.HasTables r.table := by
  obtain ⟨hcompletes, ⟨_, _, _, _, _, hopened⟩, _⟩ := h
  have hw := hcompletes.runs.writes
  exact ⟨hasOperands_of_finish hopened hcompletes.emits (r.source.closed o _)
      (r.source.faithful o _) hw hcompletes.finish,
    hasTables_of_finish (hopened ▸ hw) hcompletes.finish⟩

/-- Operands resolve in the final tables. Every code object that compiling a program makes is what the
run of the program, or of a scope entered within it, was finished to. In the code of every such run an
instruction that accesses a name has as its operand the number of the very name for which the run
added the instruction, in the table that its opcode refers to, and an instruction that loads a
constant the number of one. No table has an entry twice, and the local variables begin with the
parameters of the scope's table, if these are distinct. (Operands are words, so a table with more
entries than there are words gives some entries the same operand.) -/
theorem compile_hasOperands {p : Program} {t : ScopeTable} {o : Options} {c : CodeObject}
    (h : compile p t o = .ok c) :
    (∀ c', c.Yields p.Quotes c' → ∃ r, p.HasRun o t r ∧ r.code = c') ∧
      ∀ r, p.HasRun o t r → r.code.HasOperands r.log ∧ r.code.HasTables r.table :=
  ⟨fun _ => exists_hasRun h, fun _ hrun => hrun.within.hasOperands⟩

theorem searchProgram_hasOperands : ∃ c, compile searchProgram searchTable {} = .ok c ∧
    (∀ c', c.Yields searchProgram.Quotes c' → ∃ r, searchProgram.HasRun {} searchTable r ∧
      r.code = c') ∧
    ∀ r, searchProgram.HasRun {} searchTable r →
      r.code.HasOperands r.log ∧ r.code.HasTables r.table := by
  obtain ⟨c, hc⟩ := exists_compile_searchProgram
  exact ⟨c, hc, compile_hasOperands hc⟩

end Wordcode

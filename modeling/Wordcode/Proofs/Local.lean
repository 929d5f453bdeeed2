import Wordcode.Lower.Stmt
import Wordcode.Proofs.Script

/-!
# Builds that stay in their scope

Most of what generates code works on the draft of the scope at hand alone: it takes no table of a
nested scope, does the same whatever tables are left, and fails only for a fault of the tables or of
the tree. These builds are put together here once. What is shown of compiling as a whole starts from
what follows for all of them, and has only to look at nested scopes, at the parts of expressions and
statements, and at refusals.
-/

set_option autoImplicit false

namespace Wordcode
namespace Build

/-- A build that is put together from faults and from steps on the draft of the scope at hand that
keep what makes the scope what it is and do not look at the tables of nested scopes. -/
inductive Local : {α : Type} → Build α → Prop where
  | pure {α : Type} (a : α) : Local (Pure.pure a)
  | fail {α : Type} (f : Fault) : Local (Build.fail f : Build α)
  | onDraft {α : Type} {f : Draft → α × Draft} : (∀ d, (f d).2.header = d.header) →
    (∀ d ts, f { d with children := ts } = ((f d).1, { (f d).2 with children := ts })) →
    Local (onDraft f)
  | bind {α β : Type} {b : Build α} {f : α → Build β} :
    Local b → (∀ a, Local (f a)) → Local (b >>= f)

namespace Local

variable {α : Type}

theorem ask {f : Draft → α} (hf : ∀ d ts, f { d with children := ts } = f d) :
    Local (ask f) := by
  change Local (Build.onDraft fun d => (f d, d))
  refine onDraft (fun _ => rfl) fun d ts => ?_
  rw [hf]

theorem modifyDraft {f : Draft → Draft} (hheader : ∀ d, (f d).header = d.header)
    (hf : ∀ d ts, f { d with children := ts } = { f d with children := ts }) :
    Local (modifyDraft f) := by
  change Local (Build.onDraft fun d => ((), f d))
  refine onDraft hheader fun d ts => ?_
  rw [hf]

theorem ofExcept {x : Except CompileError α} (h : ∀ e, x = .error e → ∃ f, e = .fault f) :
    Local (ofExcept x) := by
  cases x with
  | ok a => exact pure a
  | error e =>
    obtain ⟨f, rfl⟩ := h e rfl
    exact fail f

/-- What is looked up in the draft, and may not be found. -/
theorem lookup {f : Draft → Except CompileError α}
    (hf : ∀ d ts, f { d with children := ts } = f d)
    (h : ∀ d e, f d = .error e → ∃ f, e = .fault f) :
    Local (do Build.ofExcept (← Build.ask f)) := by
  -- what is found does not depend on the tables, so it may be looked up without them
  have hsame : (do Build.ofExcept (← Build.ask f) : Build α) =
      Build.onDraft (fun d => ({ d with children := [] }, d)) >>= fun d =>
        Build.ofExcept (f d) := by
    funext s
    change Build.ofExcept (f s.draft) s = Build.ofExcept (f { s.draft with children := [] }) s
    rw [hf s.draft []]
  rw [hsame]
  exact (onDraft (fun _ => rfl) fun _ _ => rfl).bind fun d => ofExcept (h d)

theorem newBlock : Local newBlock := onDraft (fun _ => rfl) fun _ _ => rfl

theorem fallInto (b : BlockId) : Local (fallInto b) := modifyDraft (fun _ => rfl) fun _ _ => rfl

theorem nextBlock : Local nextBlock :=
  newBlock.bind fun b => (fallInto b).bind fun _ => pure b

theorem setLine (line : UInt32) : Local (setLine line) := by
  refine modifyDraft (fun d => ?_) fun d ts => ?_
  · unfold Draft.setLine
    split <;> rfl
  · unfold Draft.setLine
    dsimp only
    split <;> rfl

theorem restamp : Local restamp := modifyDraft (fun _ => rfl) fun _ _ => rfl

theorem append (i : Instruction) : Local (Build.modifyDraft (·.append i)) := by
  have hcurrent (d : Draft) (ts : List ScopeTable) :
      Draft.currentBlock { d with children := ts } = d.currentBlock := rfl
  refine modifyDraft (fun d => ?_) fun d ts => ?_
  · unfold Draft.append
    split <;> rfl
  · unfold Draft.append
    rw [hcurrent]
    split <;> rfl

theorem emitArg (op : Opcode) (arg : UInt32) : Local (emitArg op arg) := by
  refine (ofExcept fun e he => ?_).bind append
  unfold Instruction.plain at he
  split at he <;> cases he
  exact ⟨_, rfl⟩

theorem emit (op : Opcode) : Local (emit op) := emitArg op 0

theorem emitJump (op : Opcode) (b : BlockId) : Local (emitJump op b) := by
  refine (ofExcept fun e he => ?_).bind append
  unfold Instruction.jump at he
  split at he <;> cases he
  exact ⟨_, rfl⟩

theorem internConstant (c : Constant) : Local (internConstant c) :=
  (onDraft (fun _ => rfl) fun _ _ => rfl).bind fun _ => pure _

theorem internName (x : String) : Local (internName x) :=
  (onDraft (fun _ => rfl) fun _ _ => rfl).bind fun _ => pure _

theorem internVarname (x : String) : Local (internVarname x) :=
  (onDraft (fun _ => rfl) fun _ _ => rfl).bind fun _ => pure _

theorem emitName (op : Opcode) (x : String) : Local (emitName op x) :=
  (internName x).bind fun _ => emitArg op _

theorem emitCompare (op : CmpOp) : Local (emitCompare op) := emitArg _ _

theorem loadConst (c : Constant) : Local (loadConst c) :=
  (internConstant c).bind fun _ => emitArg .loadConst _

theorem repeatEmit (op : Opcode) (arg : UInt32) (n : Nat) : Local (repeatEmit op arg n) := by
  induction n with
  | zero => exact pure ()
  | succ n ih => exact (emitArg op arg).bind fun _ => ih

theorem derefSlot (x : String) : Local (derefSlot x) := by
  refine lookup (fun _ _ => rfl) fun d e he => ?_
  unfold Draft.derefSlot at he
  split at he <;> cases he
  exact ⟨_, rfl⟩

theorem accessName (x : String) (ctx : Ctx) : Local (accessName x ctx) := by
  refine (ask fun _ _ => rfl).bind fun access => ?_
  cases access with
  | deref => exact (ask fun _ _ => rfl).bind fun _ => (derefSlot x).bind fun _ => emitArg _ _
  | fast => exact (internVarname x).bind fun _ => emitArg _ _
  | global | name => exact emitName _ x

theorem clearName (x : String) : Local (clearName x) :=
  (loadConst _).bind fun _ => (accessName x _).bind fun _ => accessName x _

theorem loadCells (child : String) (xs : List String) : Local (loadCells child xs) := by
  induction xs with
  | nil => exact pure ()
  | cons x xs ih =>
    have hslot : Local (do Build.ofExcept (← Build.ask (·.closureSlot x child))) := by
      refine lookup (fun _ _ => rfl) fun d e he => ?_
      unfold Draft.closureSlot at he
      dsimp only at he
      split at he <;> cases he
      exact ⟨_, rfl⟩
    unfold Build.loadCells
    rw [← bind_assoc]
    exact hslot.bind fun _ => (emitArg _ _).bind fun _ => ih

theorem makeClosure (code : CodeObject) (parts : FunctionParts) (qualname : String) :
    Local (makeClosure code parts qualname) := by
  have hlast (arg : UInt32) : Local (do
      Build.loadConst (.code code)
      Build.loadConst (.str qualname)
      Build.emitArg .makeFunction arg) :=
    (loadConst _).bind fun _ => (loadConst _).bind fun _ => emitArg _ _
  unfold Build.makeClosure
  split
  · exact (loadCells _ _).bind fun _ => (emitArg _ _).bind fun _ => hlast _
  · exact hlast _

/-- The names of the keyword-only parameters that have a default, behind the values of these. -/
theorem defaultKeys (keys : List String) (parts : FunctionParts) : Local (do
    if !keys.isEmpty then
      Build.loadConst (nameTuple keys)
      Build.emitArg .buildConstKeyMap (UInt32.ofNat keys.length)
    return parts) := by
  split
  · exact (loadConst _).bind fun _ => (emitArg _ _).bind fun _ => pure parts
  · exact pure parts

/-- The names of annotations behind their values. -/
theorem annotationKeys (keys : Array String) : Local (do
    if keys.isEmpty then return false
    Build.loadConst (nameTuple keys.toList)
    Build.emitArg .buildConstKeyMap (UInt32.ofNat keys.size)
    return true) := by
  split
  · exact pure false
  · exact (loadConst _).bind fun _ => (emitArg _ _).bind fun _ => pure true

theorem test (dest : Dest) : Local (test dest) := by
  cases dest with
  | push => exact pure ()
  | jump => exact (emitJump _ _).bind fun _ => nextBlock.bind fun _ => pure ()

theorem chainEnd {rest : Build Unit} (h : Local rest) (cleanup : BlockId) :
    Local (chainEnd cleanup rest) :=
  newBlock.bind fun done => (emitJump _ done).bind fun _ => (fallInto cleanup).bind fun _ =>
    h.bind fun _ => fallInto done

/-- What drops the operand that a chain of comparisons as a condition leaves where it breaks off. -/
theorem chainFailed (target : BlockId) (sense : Bool) : Local (do
    Build.emit .popTop
    if !sense then Build.emitJump .jumpForward target) := by
  refine (emit _).bind fun _ => ?_
  split
  · exact emitJump _ _
  · exact pure ()

theorem leave (f : Frame) (keep : Bool) : Local (leave f keep) := by
  have hrot {op : Opcode} {b : Build Unit} (hb : Local b) :
      Local (if keep = true then do Build.emit op; b else b) := by
    split
    · exact (emit op).bind fun _ => hb
    · exact hb
  cases f with
  | whileLoop | exceptionHandler => exact pure ()
  | tryExcept | finallyTry => exact emit _
  | forLoop | popValue => exact hrot (emit _)
  | finallyEnd => exact hrot ((repeatEmit _ _ _).bind fun _ => hrot (emit _))
  | handlerCleanup name =>
    cases name with
    | none => exact hrot ((emit _).bind fun _ => pure ())
    | some x => exact (emit _).bind fun _ => hrot ((emit _).bind fun _ => clearName x)

theorem importParts (parts : List String) : Local (importParts parts) := by
  induction parts with
  | nil => exact pure ()
  | cons part rest ih =>
    cases rest with
    | nil => exact emitName _ part
    | cons part' rest =>
      exact (emitName _ part).bind fun _ => (emit _).bind fun _ => (emit _).bind fun _ => ih

theorem bindImport (a : Alias) : Local (bindImport a) := by
  unfold Build.bindImport
  split
  · exact accessName _ _
  · exact accessName _ _
  · exact (importParts _).bind fun _ => (accessName _ _).bind fun _ => emit _

theorem importAll (names : List Alias) : Local (importAll names) := by
  induction names with
  | nil => exact pure ()
  | cons a rest ih =>
    exact (loadConst _).bind fun _ => (loadConst _).bind fun _ => (emitName _ a.name).bind fun _ =>
      (bindImport a).bind fun _ => ih

theorem bindFrom (names : List Alias) : Local (bindFrom names) := by
  induction names with
  | nil => exact pure ()
  | cons a rest ih => exact (emitName _ a.name).bind fun _ => (accessName _ _).bind fun _ => ih

theorem importFrom (origin : Option String) (names : List Alias) (level : UInt32) :
    Local (importFrom origin names level) := by
  refine (loadConst _).bind fun _ => (loadConst _).bind fun _ => (emitName _ _).bind fun _ => ?_
  split
  · exact emit _
  · exact (bindFrom names).bind fun _ => emit _

theorem bindDocstring (o : Options) (body : List Stmt) : Local (bindDocstring o body) := by
  have hbind (doc : String) : Local (do
      Build.loadConst (.str doc)
      Build.accessName "__doc__" .store) := (loadConst _).bind fun _ => accessName _ _
  unfold Build.bindDocstring
  split
  · split
    · exact (setLine _).bind fun _ => hbind _
    · exact hbind _
  · exact pure ()

theorem classProlog : Local classProlog :=
  (accessName _ _).bind fun _ => (accessName _ _).bind fun _ => (ask fun _ _ => rfl).bind fun _ =>
    (loadConst _).bind fun _ => accessName _ _

theorem classEpilog : Local classEpilog := by
  refine restamp.bind fun _ => (ask fun _ _ => rfl).bind fun cell => ?_
  split
  · exact (derefSlot _).bind fun _ => (emitArg _ _).bind fun _ => (emit _).bind fun _ =>
      (accessName _ _).bind fun _ => emit _
  · exact (loadConst _).bind fun _ => emit _

/-- What stands behind the expression of a lambda. -/
theorem lambdaEpilog : Local (do
    if ← Build.ask (·.isGenerator) then return false
    Build.emit .returnValue
    return true) := by
  refine (ask fun _ _ => rfl).bind fun generator => ?_
  split
  · exact pure false
  · exact (emit _).bind fun _ => pure true

end Local
end Build
end Wordcode

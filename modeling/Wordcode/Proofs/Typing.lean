import Wordcode.Proofs.Context
import Wordcode.Proofs.Shape

/-!
# Shapes of code schemes

The rules for the stacks: with which shape the code of each construct starts and with which it
ends, given the shapes at the labels it knows. Each rule is about a construct by itself; that its
scheme keeps the rules of its parts is shown construct by construct.
-/

set_option autoImplicit false

namespace Wordcode

open Build

/-- A frame that was entered with the first shape has the second one inside. -/
inductive Frame.Encloses (K : CodeObject → Prop) (F M : Nat) (Γ : Shapes) : Frame → Shape → Shape → Prop where
  | whileLoop {start exit : BlockId} {σ : Shape} : (start, σ) ∈ Γ → (exit, σ) ∈ Γ →
      Encloses K F M Γ (.whileLoop start exit) σ σ
  | forLoop {start exit : BlockId} {σ : Shape} : (start, σ.up 1) ∈ Γ → (exit, σ) ∈ Γ →
      Encloses K F M Γ (.forLoop start exit) σ (σ.up 1)
  | tryExcept {h : BlockId} {σ : Shape} : Encloses K F M Γ .tryExcept σ (σ.guarded h)
  /-- The final body may have to run above a value that is to be returned. -/
  | finallyTry {h : BlockId} {σ : Shape} {body : List Stmt} : (∀ s ∈ body, s.Fits K) →
      σ.depth + 1 + Stmt.needOfAll F body ≤ M →
      Encloses K F M Γ (.finallyTry body) σ (σ.guarded h)
  | finallyEnd {σ : Shape} : Encloses K F M Γ .finallyEnd σ σ.caught
  | exceptionHandler {σ : Shape} : Encloses K F M Γ .exceptionHandler σ σ
  | handlerCleanup {σ : Shape} : Encloses K F M Γ (.handlerCleanup none) σ σ.handling
  | namedCleanup {h : BlockId} {x : String} {σ : Shape} :
      Encloses K F M Γ (.handlerCleanup (some x)) σ (σ.handling.guarded h)
  | popValue {σ : Shape} : Encloses K F M Γ .popValue σ (σ.up 1)

/-- The shape of the innermost of some frames. -/
inductive Framed (K : CodeObject → Prop) (F M : Nat) (Γ : Shapes) : List Frame → Shape → Prop where
  | base : Framed K F M Γ [] .empty
  | enter {f : Frame} {frames : List Frame} {σ τ : Shape} : Framed K F M Γ frames σ →
      f.Encloses K F M Γ σ τ → Framed K F M Γ (f :: frames) τ

/-- The rules. `F` bounds the names that a scope captures, and `M` the depth. -/
inductive Task.Types (K : CodeObject → Prop) (F M : Nat) (Γ : Shapes) : Task → Shape → Shape → Prop where
  | load {e : Expr} {σ : Shape} : e.Fits K .load → σ.depth + e.need F ≤ M →
      Types K F M Γ (.expr e .push) σ (σ.up 1)
  | store {e : Expr} {σ : Shape} : e.Fits K .store → σ.depth + e.need F ≤ M →
      Types K F M Γ (.expr e .push) (σ.up 1) σ
  | del {e : Expr} {σ : Shape} : e.Fits K .del → σ.depth + e.need F ≤ M →
      Types K F M Γ (.expr e .push) σ σ
  | branch {e : Expr} {target : BlockId} {sense : Bool} {σ : Shape} : e.Fits K .load →
      σ.depth + e.need F ≤ M → (target, σ) ∈ Γ → Types K F M Γ (.expr e (.jump target sense)) σ σ
  | loads {es : List Expr} {σ : Shape} : (∀ e ∈ es, e.Fits K .load) →
      σ.depth + rowNeed (Expr.needs F es) ≤ M → Types K F M Γ (.all es) σ (σ.up es.length)
  | stores {es : List Expr} {σ : Shape} : (∀ e ∈ es, e.Fits K .store) →
      σ.depth + storeNeed (Expr.needs F es) ≤ M → Types K F M Γ (.all es) (σ.up es.length) σ
  | dels {es : List Expr} {σ : Shape} : (∀ e ∈ es, e.Fits K .del) →
      σ.depth + mostNeed (Expr.needs F es) ≤ M → Types K F M Γ (.all es) σ σ
  | operands {jump : Opcode} {done : BlockId} {es : List Expr} {σ : Shape} :
      jump = .jumpIfTrueOrPop ∨ jump = .jumpIfFalseOrPop → (∀ e ∈ es, e.Fits K .load) →
      σ.depth + mostNeed (Expr.needs F es) ≤ M → (done, σ.up 1) ∈ Γ →
      Types K F M Γ (.operands jump done es) σ (σ.up 1)
  | tests {decided target : BlockId} {decisive sense : Bool} {es : List Expr} {σ : Shape} :
      (∀ e ∈ es, e.Fits K .load) → σ.depth + mostNeed (Expr.needs F es) ≤ M →
      (decided, σ) ∈ Γ → (target, σ) ∈ Γ →
      Types K F M Γ (.tests decided decisive target sense es) σ σ
  /-- A comparison that fails keeps its result if the jump is one that does. -/
  | links {jump : Opcode} {cleanup : BlockId} {last : CmpOp} {ops : List CmpOp} {es : List Expr}
      {σ : Shape} {k : Nat} :
      (jump = .jumpIfFalseOrPop ∧ k = 2) ∨ (jump = .popJumpIfFalse ∧ k = 1) →
      ops.length + 1 = es.length → (∀ e ∈ es, e.Fits K .load) →
      σ.depth + max 3 (mostNeed (Expr.needs F es) + 1) ≤ M → (cleanup, σ.up k) ∈ Γ →
      Types K F M Γ (.links jump cleanup last ops es) (σ.up 1) (σ.up 1)
  | chain {last : CmpOp} {ops : List CmpOp} {es : List Expr} {σ : Shape} :
      ops.length + 1 = es.length → (∀ e ∈ es, e.Fits K .load) →
      σ.depth + max 3 (mostNeed (Expr.needs F es) + 1) ≤ M →
      Types K F M Γ (.chain last ops es) (σ.up 1) (σ.up 1)
  | chainPush {cleanup : BlockId} {σ : Shape} : σ.depth + 2 ≤ M → (cleanup, σ.up 2) ∈ Γ →
      Types K F M Γ (.chainEnd cleanup .push) (σ.up 1) (σ.up 1)
  | chainJump {cleanup target : BlockId} {sense : Bool} {σ : Shape} : σ.depth ≤ M →
      (cleanup, σ.up 1) ∈ Γ → (target, σ) ∈ Γ →
      Types K F M Γ (.chainEnd cleanup (.jump target sense)) σ σ
  | filters {cleanup : BlockId} {es : List Expr} {σ : Shape} : (∀ e ∈ es, e.Fits K .load) →
      σ.depth + mostNeed (Expr.needs F es) ≤ M → (cleanup, σ) ∈ Γ →
      Types K F M Γ (.filters cleanup es) σ σ
  | loop {input : Option Expr} {target : Expr} {filters : List Expr} {rest : List Generator}
      {element : Expr} {depth : Nat} {σ : Shape} : (∀ e, input = some e → e.Fits K .load) →
      target.Fits K .store → (∀ e ∈ filters, e.Fits K .load) → element.Fits K .load →
      (∀ g ∈ rest, g.target.Fits K .store) → (∀ g ∈ rest, g.iter.Fits K .load) →
      (∀ g ∈ rest, ∀ e ∈ g.filters, e.Fits K .load) →
      σ.depth + Expr.needOrNone F input ≤ M → σ.depth + 1 + target.need F ≤ M →
      σ.depth + 1 + mostNeed (Expr.needs F filters) ≤ M →
      Generator.need F (element.need F) (σ.depth + 1) rest ≤ M →
      Types K F M Γ (.loop input target filters rest element depth) σ σ
  | inner {rest : List Generator} {element : Expr} {depth : Nat} {σ : Shape} :
      element.Fits K .load → (∀ g ∈ rest, g.target.Fits K .store) →
      (∀ g ∈ rest, g.iter.Fits K .load) → (∀ g ∈ rest, ∀ e ∈ g.filters, e.Fits K .load) →
      Generator.need F (element.need F) σ.depth rest ≤ M →
      Types K F M Γ (.inner element depth rest) σ σ
  | map {entries : List (Expr × Expr)} {σ : Shape} :
      (∀ p ∈ entries, p.1.Fits K .load ∧ p.2.Fits K .load) →
      σ.depth + rowNeed (Expr.needs F (entries.flatMap fun p => [p.1, p.2])) + 1 ≤ M →
      Types K F M Γ (.map entries) σ (σ.up 1)
  | extendMap {entries : List (Expr × Expr)} {σ : Shape} {k : Nat} :
      (∀ p ∈ entries, p.1.Fits K .load ∧ p.2.Fits K .load) →
      (∀ p ∈ entries, p.1.need F ≤ k ∧ p.2.need F ≤ k) →
      (entries ≠ [] → σ.depth + 2 * maxMapEntries + k + 2 ≤ M) →
      Types K F M Γ (.extendMap entries) (σ.up 1) (σ.up 1)
  | block {σ : Shape} : Types K F M Γ .block σ σ
  | storeAll {targets : List Expr} {σ : Shape} : targets ≠ [] → (∀ e ∈ targets, e.Fits K .store) →
      σ.depth + mostNeed (Expr.needs F targets) + 1 ≤ M → Types K F M Γ (.storeAll targets) (σ.up 1) σ
  | stmt {frames : List Frame} {s : Stmt} {σ : Shape} : Framed K F M Γ frames σ → s.Fits K →
      σ.depth + s.need F ≤ M → Types K F M Γ (.stmt frames s) σ σ
  | stmts {frames : List Frame} {ss : List Stmt} {σ : Shape} : Framed K F M Γ frames σ →
      (∀ s ∈ ss, s.Fits K) → σ.depth + Stmt.needOfAll F ss ≤ M → Types K F M Γ (.stmts frames ss) σ σ
  | tryExcept {frames : List Frame} {body orelse : List Stmt} {handlers : List Handler}
      {σ : Shape} : Framed K F M Γ frames σ → (∀ s ∈ body, s.Fits K) →
      (∀ h ∈ handlers, ∀ e, h.type = some e → e.Fits K .load) →
      (∀ h ∈ handlers, ∀ s ∈ h.body, s.Fits K) → (∀ s ∈ orelse, s.Fits K) → σ.depth + 6 ≤ M →
      σ.depth + Stmt.needOfAll F body ≤ M → σ.depth + Handler.needOfAll F handlers ≤ M →
      σ.depth + Stmt.needOfAll F orelse ≤ M →
      Types K F M Γ (.tryExcept frames body handlers orelse) σ σ
  | handlers {frames : List Frame} {done : BlockId} {handlers : List Handler} {σ : Shape} :
      Framed K F M Γ frames σ → (∀ h ∈ handlers, ∀ e, h.type = some e → e.Fits K .load) →
      (∀ h ∈ handlers, ∀ s ∈ h.body, s.Fits K) → σ.depth + 6 ≤ M →
      σ.depth + Handler.needOfAll F handlers ≤ M → (done, σ) ∈ Γ →
      Types K F M Γ (.handlers (.exceptionHandler :: frames) done handlers) σ.caught σ.caught
  | handler {frames : List Frame} {done : BlockId} {name : Option String} {body : List Stmt}
      {σ τ : Shape} : Framed K F M Γ frames σ → (∀ s ∈ body, s.Fits K) →
      σ.depth + (if name.isSome then 10 else 6) ≤ M →
      σ.depth + 3 + Stmt.needOfAll F body ≤ M → (done, σ) ∈ Γ →
      Types K F M Γ (.handler (.exceptionHandler :: frames) done name body) (σ.handling.up 2) τ
  | unwound {keep toLoop : Bool} {σ : Shape} : Types K F M Γ (.unwind keep toLoop []) σ σ
  | unwindLoop {keep : Bool} {f : Frame} {frames : List Frame} {σ : Shape} : f.isLoop = true →
      Types K F M Γ (.unwind keep true (f :: frames)) σ σ
  | unwind {keep toLoop : Bool} {f : Frame} {frames : List Frame} {σ τ υ : Shape} :
      (toLoop && f.isLoop) = false → f.Encloses K F M Γ σ τ → Framed K F M Γ frames σ →
      τ.depth + keep.toNat ≤ M → Types K F M Γ (.unwind keep toLoop frames) (σ.up keep.toNat) υ →
      Types K F M Γ (.unwind keep toLoop (f :: frames)) (τ.up keep.toNat) υ

/-- What a nested scope is made from can be typed by itself. -/
def Body.Fits (K : CodeObject → Prop) (F M : Nat) : Body → Prop
  | .lambda e => e.Fits K .load ∧ e.need F ≤ M
  | .comprehension target filters rest element =>
    target.Fits K .store ∧ (∀ e ∈ filters, e.Fits K .load) ∧ element.Fits K .load ∧
      (∀ g ∈ rest, g.target.Fits K .store) ∧ (∀ g ∈ rest, g.iter.Fits K .load) ∧
      (∀ g ∈ rest, ∀ e ∈ g.filters, e.Fits K .load) ∧ 2 ≤ M ∧ 2 + target.need F ≤ M ∧
      2 + mostNeed (Expr.needs F filters) ≤ M ∧ Generator.need F (element.need F) 2 rest ≤ M
  | .function body => (∀ s ∈ body, s.Fits K) ∧ max 1 (Stmt.needOfAll F body) ≤ M
  | .classBody body => (∀ s ∈ body, s.Fits K) ∧ max 2 (Stmt.needOfAll F body) ≤ M

def FunctionParts.count (p : FunctionParts) : Nat :=
  p.defaults.toNat + p.kwDefaults.toNat + p.annotations.toNat

/-- The shapes before and after a step, whatever is written for it. -/
def Step.Types (K : CodeObject → Prop) (F M : Nat) (Γ : Shapes) : Step → Shape → Shape → Prop
  | .run t, σ, σ' => t.Types K F M Γ σ σ'
  | .closure body _ _ parts _, σ, σ' => body.Fits K F M ∧
      ∃ τ : Shape, σ = τ.up parts.count ∧ σ' = τ.up 1 ∧ τ.depth + parts.count + max F 3 ≤ M
  | .load c, σ, σ' => c.Known K ∧ σ' = σ.up 1 ∧ σ.depth + 1 ≤ M
  | .intern c, σ, σ' => c.Known K ∧ σ' = σ
  | x, σ, σ' => ∀ out, x.Puts out → Checks M Γ σ out σ'

inductive Types (K : CodeObject → Prop) (F M : Nat) (Γ : Shapes) : Shape → List Step → Shape → Prop where
  | nil {σ : Shape} : Types K F M Γ σ [] σ
  | cons {x : Step} {steps : List Step} {σ τ υ : Shape} : x.Types K F M Γ σ τ →
      Types K F M Γ τ steps υ → Types K F M Γ σ (x :: steps) υ

variable {K : CodeObject → Prop} {F M : Nat} {Γ Γ' : Shapes} {σ σ' τ : Shape}

theorem Types.append {xs ys : List Step} (h : Types K F M Γ σ xs τ) (h' : Types K F M Γ τ ys σ') :
    Types K F M Γ σ (xs ++ ys) σ' := by
  induction h with
  | nil => exact h'
  | cons hx _ ih => exact .cons hx (ih h')

theorem Frame.Encloses.mono {f : Frame} (h : f.Encloses K F M Γ σ σ') (hsub : Γ ⊆ Γ') :
    f.Encloses K F M Γ' σ σ' := by
  cases h with
  | whileLoop hs he => exact .whileLoop (hsub hs) (hsub he)
  | forLoop hs he => exact .forLoop (hsub hs) (hsub he)
  | tryExcept => exact .tryExcept
  | finallyTry hbody hneed => exact .finallyTry hbody hneed
  | finallyEnd => exact .finallyEnd
  | exceptionHandler => exact .exceptionHandler
  | handlerCleanup => exact .handlerCleanup
  | namedCleanup => exact .namedCleanup
  | popValue => exact .popValue

theorem Frame.Encloses.depth_le {f : Frame} (h : f.Encloses K F M Γ σ σ') : σ.depth ≤ σ'.depth := by
  cases h with
  | whileLoop | exceptionHandler | tryExcept | finallyTry => exact Nat.le_refl _
  | _ => exact Nat.le_add_right _ _

theorem Framed.mono {frames : List Frame} (h : Framed K F M Γ frames σ) (hsub : Γ ⊆ Γ') :
    Framed K F M Γ' frames σ := by
  induction h with
  | base => exact .base
  | enter _ hf ih => exact .enter ih (hf.mono hsub)

theorem checks_plain {x : Item} {i : Instruction} {a b : Nat} (hi : x.instruction? = some i)
    (ht : i.target = none) (hop : i.opcode.isOrdinary = true)
    (heff : Int32.ofNat b = Int32.ofNat a + i.effect false) (hM : σ.depth + b ≤ M) :
    Checks M Γ (σ.up a) [x] (σ.up b) := by
  refine .cons (.plain hi ht hop hM ?_) .nil
  rw [word_add, word_add, heff, Int32.add_assoc]

theorem types_emit {op : Opcode} {arg : UInt32} (a b : Nat) (hop : op.isOrdinary = true)
    (heff : Int32.ofNat b = Int32.ofNat a + op.effect arg false) (hM : σ.depth + b ≤ M) :
    (Step.emit op arg).Types K F M Γ (σ.up a) (σ.up b) := by
  rintro out ⟨⟩
  exact checks_plain rfl rfl hop heff hM

theorem types_named {op : Opcode} {name : String} (a b : Nat) (hop : op.isOrdinary = true)
    (heff : ∀ arg, Int32.ofNat b = Int32.ofNat a + op.effect arg false)
    (hM : σ.depth + b ≤ M) : (Step.named op name).Types K F M Γ (σ.up a) (σ.up b) := by
  rintro out ⟨⟩
  exact checks_plain rfl rfl hop (heff _) hM

theorem types_load {c : Constant} (hc : c.code? = none) (hM : σ.depth + 1 ≤ M) :
    (Step.load c).Types K F M Γ σ (σ.up 1) :=
  ⟨c.known_of_code? hc, rfl, hM⟩

theorem types_intern {c : Constant} (hc : c.code? = none) :
    (Step.intern c).Types K F M Γ σ σ :=
  ⟨c.known_of_code? hc, rfl⟩

theorem types_refuse : Step.refuse.Types K F M Γ σ σ' := by
  rintro out ⟨⟩

theorem types_label {b : BlockId} (hb : (b, σ) ∈ Γ) : (Step.label b).Types K F M Γ σ σ := by
  rintro out ⟨⟩
  exact .cons (.label hb) .nil

theorem types_goto {op : Opcode} {b : BlockId} (hop : op = .jumpForward ∨ op = .jumpAbsolute)
    (hb : (b, σ) ∈ Γ) (hM : σ.depth ≤ M) : (Step.jump op b).Types K F M Γ σ σ' := by
  rintro out ⟨⟩
  exact .cons (.jump hop hb hM) .nil

theorem types_branch {op : Opcode} {b : BlockId} (a there after : Nat) (hop : op.isBranch = true)
    (hb : (b, σ.up there) ∈ Γ) (hthere : Int32.ofNat there = Int32.ofNat a + op.effect 0 true)
    (hafter : Int32.ofNat after = Int32.ofNat a + op.effect 0 false)
    (hM : σ.depth + max there after ≤ M) :
    (Step.jump op b).Types K F M Γ (σ.up a) (σ.up after) := by
  rintro out ⟨⟩
  refine .cons (.branch hop hb ?_ ?_ ?_ ?_) .nil
  · exact Nat.le_trans (Nat.add_le_add_left (Nat.le_max_left _ _) _) hM
  · exact Nat.le_trans (Nat.add_le_add_left (Nat.le_max_right _ _) _) hM
  · rw [word_add, word_add, hthere, Int32.add_assoc]
  · rw [word_add, word_add, hafter, Int32.add_assoc]

theorem types_setup {b : BlockId} (hb : (b, σ.caught) ∈ Γ) (hM : σ.depth + 6 ≤ M) :
    (Step.jump .setupFinally b).Types K F M Γ σ (σ.guarded b) := by
  rintro out ⟨⟩
  exact .cons (.setup hb hM) .nil

theorem types_popBlock {h : BlockId} {k : Nat} (hM : σ.depth + k ≤ M) :
    (Step.simple .popBlock).Types K F M Γ ((σ.guarded h).up k) (σ.up k) := by
  rintro out ⟨⟩
  exact .cons (.popBlock hM) .nil

theorem types_popExcept {k : Nat} (hk : k ≤ 1) (hM : σ.depth + k ≤ M) :
    (Step.simple .popExcept).Types K F M Γ (σ.handling.up k) (σ.up k) := by
  rintro out ⟨⟩
  have hdepth : σ.depth + 3 + k = σ.depth + k + 3 := by omega
  rw [show σ.handling.up k = ⟨σ.depth + k + 3, .handler σ.depth :: σ.guards⟩ from
    congrArg (Shape.mk · _) hdepth]
  exact .cons (.popExcept (by omega) hM) .nil

theorem types_return : (Step.simple .returnValue).Types K F M Γ (Shape.empty.up 1) σ := by
  rintro out ⟨⟩
  exact .cons .returnValue .nil

theorem types_raise {n : Nat} (hn : n ≤ 2) (hM : σ.depth ≤ M) :
    (Step.emit .raiseVarargs (UInt32.ofNat n)).Types K F M Γ (σ.up n) σ' := by
  rintro out ⟨⟩
  exact .cons (.raise hn hM) .nil

theorem types_reraise (hM : σ.depth ≤ M) :
    (Step.simple .reraise).Types K F M Γ (σ.up 3) σ' := by
  rintro out ⟨⟩
  exact .cons (.reraise hM) .nil

section Names

variable (d : Draft) (x : String)

theorem isOrdinary_nameOpcode (ctx : Ctx) : (d.nameOpcode x ctx).isOrdinary = true := by
  unfold Draft.nameOpcode
  cases d.access x <;> cases ctx
  case deref.load => simp only [derefOpcode]; split <;> rfl
  all_goals rfl

theorem effect_nameOpcode_load (arg : UInt32) :
    (d.nameOpcode x .load).effect arg false = 1 := by
  unfold Draft.nameOpcode
  cases d.access x
  case deref => simp only [derefOpcode]; split <;> rfl
  all_goals rfl

theorem effect_nameOpcode_store (arg : UInt32) :
    (d.nameOpcode x .store).effect arg false = -1 := by
  unfold Draft.nameOpcode
  cases d.access x <;> rfl

theorem effect_nameOpcode_del (arg : UInt32) :
    (d.nameOpcode x .del).effect arg false = 0 := by
  unfold Draft.nameOpcode
  cases d.access x <;> rfl

theorem types_name_load (hM : σ.depth + 1 ≤ M) :
    (Step.name d x .load).Types K F M Γ σ (σ.up 1) :=
  types_named 0 1 (isOrdinary_nameOpcode d x _)
    (fun arg => by rw [effect_nameOpcode_load]; rfl) hM

theorem types_name_store (hM : σ.depth ≤ M) :
    (Step.name d x .store).Types K F M Γ (σ.up 1) σ :=
  types_named 1 0 (isOrdinary_nameOpcode d x _)
    (fun arg => by rw [effect_nameOpcode_store]; rfl) hM

theorem types_name_del (hM : σ.depth ≤ M) : (Step.name d x .del).Types K F M Γ σ σ :=
  types_named 0 0 (isOrdinary_nameOpcode d x _)
    (fun arg => by rw [effect_nameOpcode_del]; rfl) hM

theorem types_clear (hM : σ.depth + 1 ≤ M) : Types K F M Γ σ (clearSteps d x) σ :=
  .cons (types_load rfl hM) (.cons (types_name_store d x (by omega))
    (.cons (types_name_del d x (by omega)) .nil))

end Names

end Wordcode

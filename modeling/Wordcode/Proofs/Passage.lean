import Wordcode.Proofs.Context
import Wordcode.Proofs.Lowering

/-!
# Passage through expressions

The code of an expression can be passed: there is a way from its start to its end. So what stands
behind an expression that control gets to is not left out of the wordcode.
-/

set_option autoImplicit false

namespace Wordcode

/-- A way through the script `log`, from where one rest of it begins to where another does. -/
inductive Script.Leads (log : Script) : Script → Script → Prop where
  | refl {pt : Script} : Leads log pt pt
  | skip {x : Item} {pt pt' : Script} : x.instruction? = none → Leads log pt pt' →
      Leads log (x :: pt) pt'
  | fall {x : Item} {i : Instruction} {pt pt' : Script} : x.instruction? = some i →
      i.opcode.isTerminal = false → Leads log pt pt' → Leads log (x :: pt) pt'
  | jump {op : Opcode} {b : BlockId} {pt pt₁ pt' : Script} : .label b :: pt₁ <:+ log →
      Leads log (.label b :: pt₁) pt' → Leads log (.jump op b :: pt) pt'

theorem Script.Leads.trans {log pt pt₁ pt₂ : Script} (h : log.Leads pt pt₁)
    (h' : log.Leads pt₁ pt₂) : log.Leads pt pt₂ := by
  induction h with
  | refl => exact h'
  | skip hx _ ih => exact .skip hx (ih h')
  | fall hi hopen _ ih => exact .fall hi hopen (ih h')
  | jump hb _ ih => exact .jump hb (ih h')

theorem Script.leads_allocs (log : Script) (n : Nat) (pt : Script) :
    log.Leads (List.replicate n .alloc ++ pt) pt := by
  induction n with
  | zero => exact .refl
  | succ n ih => exact .skip rfl ih

/-- The constructs that expressions are made of. -/
def Task.OfExpr : Task → Prop
  | .operands jump _ _ | .links jump _ _ _ _ => jump.isTerminal = false
  | .expr .. | .all .. | .tests .. | .chain .. | .chainEnd .. | .map .. | .extendMap .. | .block =>
    True
  | _ => False

/-- Control may go on behind a step. -/
def Step.Falls : Step → Prop
  | .emit op _ | .named op _ | .jump op _ => op.isTerminal = false
  | .run t => t.OfExpr
  | _ => True

section
variable (op : Opcode) (e : Expr) (dest : Dest) (es : List Expr)

@[simp] theorem Task.ofExpr_expr : (Task.expr e dest).OfExpr := trivial

@[simp] theorem Task.ofExpr_all : (Task.all es).OfExpr := trivial

@[simp] theorem Task.ofExpr_operands (done : BlockId) :
    (Task.operands op done es).OfExpr ↔ op.isTerminal = false := Iff.rfl

@[simp] theorem Task.ofExpr_tests (decided target : BlockId) (decisive sense : Bool) :
    (Task.tests decided decisive target sense es).OfExpr := trivial

@[simp] theorem Task.ofExpr_links (cleanup : BlockId) (last : CmpOp) (ops : List CmpOp) :
    (Task.links op cleanup last ops es).OfExpr ↔ op.isTerminal = false := Iff.rfl

@[simp] theorem Task.ofExpr_chain (last : CmpOp) (ops : List CmpOp) :
    (Task.chain last ops es).OfExpr := trivial

@[simp] theorem Task.ofExpr_chainEnd (cleanup : BlockId) : (Task.chainEnd cleanup dest).OfExpr :=
  trivial

@[simp] theorem Task.ofExpr_map (entries : List (Expr × Expr)) : (Task.map entries).OfExpr := trivial

@[simp] theorem Task.ofExpr_extendMap (entries : List (Expr × Expr)) :
    (Task.extendMap entries).OfExpr := trivial

@[simp] theorem Task.ofExpr_block : Task.block.OfExpr := trivial

@[simp] theorem Step.falls_emit (arg : UInt32) :
    (Step.emit op arg).Falls ↔ op.isTerminal = false := Iff.rfl

@[simp] theorem Step.falls_named (name : String) :
    (Step.named op name).Falls ↔ op.isTerminal = false := Iff.rfl

@[simp] theorem Step.falls_jump (b : BlockId) :
    (Step.jump op b).Falls ↔ op.isTerminal = false := Iff.rfl

@[simp] theorem Step.falls_run (t : Task) : (Step.run t).Falls ↔ t.OfExpr := Iff.rfl

@[simp] theorem Step.falls_load (c : Constant) : (Step.load c).Falls := trivial

@[simp] theorem Step.falls_intern (c : Constant) : (Step.intern c).Falls := trivial

@[simp] theorem Step.falls_label (b : BlockId) : (Step.label b).Falls := trivial

@[simp] theorem Step.falls_refuse : Step.refuse.Falls := trivial

@[simp] theorem Step.falls_closure (body : Body) (name : String) (line : UInt32)
    (parts : FunctionParts) (qualname : Option String) :
    (Step.closure body name line parts qualname).Falls := trivial

end

/-- There is a way past the steps. -/
inductive Passes : List Step → Prop where
  | nil : Passes []
  | cons {x : Step} {xs : List Step} : x.Falls → Passes xs → Passes (x :: xs)
  /-- A jump around some of the steps. -/
  | around {op : Opcode} {b : BlockId} (skipped : List Step) {xs : List Step} : Passes xs →
      Passes (.jump op b :: (skipped ++ .label b :: xs))

theorem Passes.of_falls {xs : List Step} (h : ∀ x ∈ xs, x.Falls) : Passes xs := by
  induction xs with
  | nil => exact .nil
  | cons x xs ih =>
    rw [List.forall_mem_cons] at h
    exact .cons h.1 (ih h.2)

theorem Passes.append {xs ys : List Step} (hx : ∀ x ∈ xs, x.Falls) (hy : Passes ys) :
    Passes (xs ++ ys) := by
  induction xs with
  | nil => exact hy
  | cons x xs ih =>
    rw [List.forall_mem_cons] at hx
    exact .cons hx.1 (ih hx.2)

@[simp] theorem isTerminal_operator (op : Operator) : op.opcode.isTerminal = false := by
  cases op <;> rfl

@[simp] theorem isTerminal_unaryOp (op : UnaryOp) : op.opcode.isTerminal = false := by
  cases op <;> rfl

@[simp] theorem isTerminal_cmpOp (op : CmpOp) : op.opcode.1.isTerminal = false := by
  cases op <;> rfl

@[simp] theorem isTerminal_boolOp (op : BoolOp) : op.jumpOpcode.isTerminal = false := by
  cases op <;> rfl

@[simp] theorem isTerminal_popJump (sense : Bool) : (popJumpOpcode sense).isTerminal = false := by
  cases sense <;> rfl

@[simp] theorem isTerminal_attribute (ctx : Ctx) : (attributeOpcode ctx).isTerminal = false := by
  cases ctx <;> rfl

@[simp] theorem isTerminal_subscript (ctx : Ctx) : (subscriptOpcode ctx).isTerminal = false := by
  cases ctx <;> rfl

@[simp] theorem isTerminal_name (d : Draft) (x : String) (ctx : Ctx) :
    (d.nameOpcode x ctx).isTerminal = false := by
  unfold Draft.nameOpcode
  cases d.access x <;> cases ctx <;> first | rfl | (simp only [derefOpcode]; split <;> rfl)

theorem falls_optionSteps (e : Option Expr) : ∀ x ∈ optionSteps e, x.Falls := by
  cases e <;> simp [optionSteps]

theorem falls_callSteps (extra : Nat) (args : List Expr) (keywords : List Keyword) :
    ∀ x ∈ callSteps extra args keywords, x.Falls := by
  unfold callSteps
  split <;> simp +decide

theorem falls_sequenceSteps {build : Opcode} (h : build.isTerminal = false) (ctx : Ctx)
    (es : List Expr) : ∀ x ∈ sequenceSteps build ctx es, x.Falls := by
  cases ctx <;> simp +decide [sequenceSteps, h]

theorem Arguments.falls_defaultSteps (args : Arguments) : ∀ x ∈ args.defaultSteps, x.Falls := by
  unfold Arguments.defaultSteps
  split <;> split <;> simp +decide

theorem Expr.falls_valueSteps (d : Draft) (e : Expr) : ∀ x ∈ e.valueSteps d, x.Falls := by
  have hoptions (lower upper : Option Expr) :
      ∀ x ∈ optionSteps lower ++ optionSteps upper, x.Falls :=
    List.forall_mem_append.mpr ⟨falls_optionSteps lower, falls_optionSteps upper⟩
  unfold Expr.valueSteps
  split
  all_goals first
  | exact falls_sequenceSteps rfl _ _
  | exact List.forall_mem_cons.mpr ⟨trivial, falls_callSteps _ _ _⟩
  | (split <;> simp)
  | (simp +decide [compareStep]; done)
  | (refine List.forall_mem_append.mpr ⟨?_, by simp +decide⟩
     first
     | exact hoptions _ _
     | exact falls_optionSteps _
     | exact Arguments.falls_defaultSteps _)

theorem falls_mapSteps (entries : List (Expr × Expr)) : ∀ x ∈ mapSteps entries, x.Falls := by
  unfold mapSteps
  dsimp only
  split
  · split <;> simp +decide
  · simp +decide

theorem falls_testSteps (dest : Dest) : ∀ x ∈ dest.testSteps, x.Falls := by
  cases dest <;> simp [Dest.testSteps]

theorem Expr.passes (d : Draft) (n : Nat) (e : Expr) (dest : Dest) : Passes (e.steps d n dest) := by
  unfold Expr.steps
  split
  · exact .cons (isTerminal_boolOp _) (.cons trivial .nil)
  · dsimp only
    split
    · exact .cons trivial .nil
    · split
      · exact .cons trivial .nil
      · exact .cons trivial (.cons trivial .nil)
  · exact .cons trivial .nil
  · exact .cons trivial (.cons trivial (.around [_, _] .nil))
  · exact .cons trivial (.cons rfl (.append (falls_testSteps _) (.cons trivial .nil)))
  · exact .append (Expr.falls_valueSteps d _) (.of_falls (falls_testSteps _))

theorem Task.passes {o : Options} {d : Draft} {n : Nat} {t : Task} (h : t.OfExpr) :
    Passes (t.steps o d n) := by
  cases t with
  | expr e dest => exact e.passes d n dest
  | all es => cases es <;> exact .of_falls (by simp [Task.steps])
  | operands jump done es =>
    have hjump : jump.isTerminal = false := h
    rcases es with _ | ⟨e, _ | ⟨e', es⟩⟩ <;>
      exact .of_falls (by simp [Task.steps, hjump])
  | tests decided decisive target sense es =>
    rcases es with _ | ⟨e, _ | ⟨e', es⟩⟩ <;>
      exact .of_falls (by simp [Task.steps])
  | links jump cleanup last ops es =>
    have hjump : jump.isTerminal = false := h
    rcases es with _ | ⟨e, _ | ⟨e', es⟩⟩ <;> cases ops <;>
      exact .of_falls (by simp +decide [Task.steps, compareStep, hjump])
  | chain last ops es => exact .of_falls (by simp +decide [Task.steps])
  | chainEnd cleanup dest =>
    simp only [Task.steps, List.cons_append, List.nil_append]
    exact .around (.label cleanup :: dest.cleanupSteps) .nil
  | map entries => exact .of_falls (falls_mapSteps entries)
  | extendMap entries =>
    cases entries <;> exact .of_falls (by simp +decide [Task.steps])
  | block => exact .cons trivial .nil
  | _ => exact h.elim

namespace Emits

variable {o : Options} {d : Draft} {steps : List Step} {n m : Nat} {log : Script}

theorem of_nil (h : Emits o d [] n log m) : log = [] ∧ m = n := by
  cases h with
  | nil => exact ⟨rfl, rfl⟩

theorem of_emit {op : Opcode} {arg : UInt32} (h : Emits o d (.emit op arg :: steps) n log m) :
    ∃ rest, log = .emit op arg :: rest ∧ Emits o d steps n rest m := by
  cases h with
  | put hx hrest =>
    cases hx
    exact ⟨_, rfl, hrest⟩

theorem of_named {op : Opcode} {x : String} (h : Emits o d (.named op x :: steps) n log m) :
    ∃ arg rest, log = .named op arg x :: rest ∧ Emits o d steps n rest m := by
  cases h with
  | put hx hrest =>
    cases hx
    exact ⟨_, _, rfl, hrest⟩

theorem of_load {c : Constant} (h : Emits o d (.load c :: steps) n log m) :
    ∃ arg rest, log = .intern c :: .load arg c :: rest ∧ Emits o d steps n rest m := by
  cases h with
  | put hx hrest =>
    cases hx
    exact ⟨_, _, rfl, hrest⟩

theorem of_jump {op : Opcode} {b : BlockId} (h : Emits o d (.jump op b :: steps) n log m) :
    ∃ rest, log = .jump op b :: rest ∧ Emits o d steps n rest m := by
  cases h with
  | put hx hrest =>
    cases hx
    exact ⟨_, rfl, hrest⟩

theorem of_label {b : BlockId} (h : Emits o d (.label b :: steps) n log m) :
    ∃ rest, log = .label b :: rest ∧ Emits o d steps n rest m := by
  cases h with
  | put hx hrest =>
    cases hx
    exact ⟨_, rfl, hrest⟩

theorem of_task {t : Task} (h : Emits o d [.run t] n log m) :
    ∃ out, log = List.replicate (t.labelCount o) .alloc ++ out ∧
      Emits o d (t.steps o d n) (n + t.labelCount o) out m := by
  cases h with
  | put hx => cases hx
  | run hsub _ hnil =>
    cases hnil
    exact ⟨_, List.append_nil _, hsub⟩

theorem of_run {t : Task} (h : Emits o d (.run t :: steps) n log m) :
    ∃ first rest k, log = first ++ rest ∧ Emits o d [.run t] n first k ∧ Emits o d steps k rest m := by
  have happend : Emits o d ([.run t] ++ steps) n log m := h
  exact happend.of_append

theorem of_block (h : Emits o d (.run .block :: steps) n log m) :
    ∃ rest k, log = .alloc :: .label n :: rest ∧ Emits o d steps k rest m := by
  obtain ⟨first, rest, k, rfl, hblock, hrest⟩ := h.of_run
  obtain ⟨out, rfl, hsub⟩ := hblock.of_task
  obtain ⟨_, rfl, hnil⟩ := hsub.of_label
  obtain ⟨rfl, rfl⟩ := hnil.of_nil
  exact ⟨rest, _, rfl, hrest⟩

end Emits

theorem Step.Puts.leads {x : Step} {out : Script} (h : x.Puts out) (hx : x.Falls)
    (log pt : Script) : log.Leads (out ++ pt) pt := by
  cases h with
  | load arg c => exact .skip rfl (.fall rfl rfl .refl)
  | label b => exact .skip rfl .refl
  | intern c => exact .skip rfl .refl
  | _ => exact .fall rfl hx .refl

section

variable {o : Options} {d : Draft} {steps : List Step} {n m : Nat} {out : Script}

theorem falls_closureSteps (code : CodeObject) (parts : FunctionParts) (qualname : String) :
    ∀ x ∈ closureSteps code parts qualname, x.Falls := by
  unfold closureSteps
  refine List.forall_mem_append.mpr ⟨?_, by simp +decide⟩
  split
  · simp
  · refine List.forall_mem_append.mpr ⟨fun x hx => ?_, by simp +decide⟩
    obtain ⟨name, _, rfl⟩ := List.mem_map.mp hx
    exact rfl

/-- What steps that can be passed write can be passed. A label at the head of the steps is at the
head of what they write, so that a jump around others gets there. -/
theorem Emits.leads_of_append (h : Emits o d steps n out m) {xs ys : List Step}
    (hsteps : steps = xs ++ ys) (hpasses : Passes ys) : ∃ out₁ out₂ : Script, out = out₁ ++ out₂ ∧
      (∀ b ys', ys = .label b :: ys' → ∃ out', out₂ = .label b :: out') ∧ (xs = [] → out₁ = []) ∧
      ∀ log pt : Script, out ++ pt <:+ log → log.Leads (out₂ ++ pt) pt := by
  induction h generalizing xs ys with
  | nil =>
    obtain ⟨rfl, rfl⟩ := List.append_eq_nil_iff.mp hsteps.symm
    exact ⟨[], [], rfl, nofun, fun _ => rfl, fun _ _ _ => .refl⟩
  | @put d x steps n m first out hx _ ih =>
    have hrest {log pt : Script} (h : first ++ out ++ pt <:+ log) : out ++ pt <:+ log := by
      rw [List.append_assoc] at h
      exact (List.suffix_append _ _).trans h
    rcases List.append_eq_cons_iff.mp hsteps.symm with ⟨rfl, rfl⟩ | ⟨xs', rfl, rfl⟩
    · refine ⟨[], first ++ out, rfl, ?_, fun _ => rfl, fun log pt hlog => ?_⟩
      · rintro b ys' ⟨⟩
        cases hx
        exact ⟨_, rfl⟩
      · cases hpasses with
        | cons hfalls hpasses =>
          obtain ⟨out₁, out₂, rfl, _, hnil, hleads⟩ := ih (List.nil_append _).symm hpasses
          obtain rfl := hnil rfl
          rw [List.append_assoc]
          exact (hx.leads hfalls log _).trans (hleads log pt (hrest hlog))
        | @around op b skipped xs hpasses =>
          obtain ⟨out₁, out₂, rfl, hlabel, _, hleads⟩ := ih rfl (.cons trivial hpasses)
          obtain ⟨out', rfl⟩ := hlabel b xs rfl
          cases hx
          have hlog := hrest hlog
          have hb : .label b :: (out' ++ pt) <:+ log := by
            rw [List.append_assoc] at hlog
            exact (List.suffix_append _ _).trans hlog
          exact .jump hb (hleads log pt hlog)
    · obtain ⟨out₁, out₂, rfl, hlabel, _, hleads⟩ := ih rfl hpasses
      exact ⟨first ++ out₁, out₂, (List.append_assoc ..).symm, hlabel, nofun,
        fun log pt hlog => hleads log pt (hrest hlog)⟩
  | @closure d d' body name line serial parts qualname table code steps n m k inner out
      _ _ _ _ _ _ _ ih =>
    have hcode := falls_closureSteps code parts (qualname.getD code.qualname)
    rcases List.append_eq_cons_iff.mp hsteps.symm with ⟨rfl, rfl⟩ | ⟨xs', rfl, rfl⟩
    · cases hpasses with
      | cons _ hpasses =>
        obtain ⟨out₁, out₂, rfl, _, hnil, hleads⟩ := ih (List.nil_append _).symm (.append hcode hpasses)
        obtain rfl := hnil rfl
        exact ⟨[], out₂, rfl, nofun, fun _ => rfl, hleads⟩
    · obtain ⟨out₁, out₂, rfl, hlabel, _, hleads⟩ := ih (List.append_assoc ..).symm hpasses
      exact ⟨out₁, out₂, rfl, hlabel, nofun, hleads⟩
  | @run d t steps n k m first out _ _ _ ihsub ih =>
    have hrest {log pt : Script}
        (h : List.replicate (t.labelCount o) .alloc ++ first ++ out ++ pt <:+ log) :
        out ++ pt <:+ log := by
      rw [List.append_assoc] at h
      exact (List.suffix_append _ _).trans h
    rcases List.append_eq_cons_iff.mp hsteps.symm with ⟨rfl, rfl⟩ | ⟨xs', rfl, rfl⟩
    · cases hpasses with
      | cons hfalls hpasses =>
        obtain ⟨out₁, out₂, rfl, _, hnil, hleads⟩ := ih (List.nil_append _).symm hpasses
        obtain ⟨first₁, first₂, rfl, _, hnil', hsub⟩ :=
          ihsub (List.nil_append _).symm (Task.passes hfalls)
        obtain rfl := hnil rfl
        obtain rfl := hnil' rfl
        refine ⟨[], List.replicate (t.labelCount o) .alloc ++ first₂ ++ out₂, rfl, nofun,
          fun _ => rfl, fun log pt hlog => ?_⟩
        have hout := hrest hlog
        simp only [List.nil_append, List.append_assoc] at hlog ⊢
        refine (log.leads_allocs _ _).trans ((hsub log _ ?_).trans (hleads log pt hout))
        exact (List.suffix_append _ _).trans hlog
    · obtain ⟨out₁, out₂, rfl, hlabel, _, hleads⟩ := ih rfl hpasses
      exact ⟨_, out₂, (List.append_assoc ..).symm, hlabel, nofun,
        fun log pt hlog => hleads log pt (hrest hlog)⟩

theorem Emits.leads_of_passes (h : Emits o d steps n out m) (hpasses : Passes steps)
    {log pt : Script} (hlog : out ++ pt <:+ log) : log.Leads (out ++ pt) pt := by
  obtain ⟨out₁, out₂, rfl, _, hnil, hleads⟩ :=
    h.leads_of_append (List.nil_append _).symm hpasses
  obtain rfl := hnil rfl
  exact hleads log pt hlog

/-- A step that writes an instruction. -/
def Step.isCode : Step → Bool
  | .emit .. | .named .. | .load _ | .jump .. | .closure .. => true
  | _ => false

/-- A script with an instruction in it. -/
def Script.Acts (log : Script) : Prop := ∃ x ∈ log, x.instruction? ≠ none

theorem Script.Acts.append_left {log : Script} (h : log.Acts) (log' : Script) :
    Script.Acts (log ++ log') := by
  obtain ⟨x, hx, hi⟩ := h
  exact ⟨x, List.mem_append_left _ hx, hi⟩

theorem Script.Acts.append_right {log : Script} (h : log.Acts) (log' : Script) :
    Script.Acts (log' ++ log) := by
  obtain ⟨x, hx, hi⟩ := h
  exact ⟨x, List.mem_append_right _ hx, hi⟩

theorem Step.Puts.acts {x : Step} (h : x.Puts out) (hx : x.isCode = true) : out.Acts := by
  cases h with
  | label | intern => cases hx
  | load arg c => exact ⟨.load arg c, by simp, nofun⟩
  | _ => exact ⟨_, List.mem_singleton.mpr rfl, nofun⟩

theorem Emits.acts (h : Emits o d steps n out m) (hcode : steps.any Step.isCode = true) :
    out.Acts := by
  induction h with
  | nil => cases hcode
  | put hy _ ih =>
    rw [List.any_cons, Bool.or_eq_true] at hcode
    rcases hcode with hcode | hcode
    · exact (hy.acts hcode).append_left _
    · exact (ih hcode).append_right _
  | closure _ _ _ _ _ _ _ ih => exact ih (by simp [closureSteps, Step.isCode])
  | run _ _ _ _ ih =>
    rw [List.any_cons, Bool.or_eq_true] at hcode
    exact (ih (hcode.resolve_left nofun)).append_right _

/-- Code of a part is code of the whole. -/
theorem Emits.acts_of_run (h : Emits o d steps n out m) {t : Task} (ht : .run t ∈ steps)
    (hacts : ∀ n m k out, Emits o d (t.steps o d n) m out k → out.Acts) : out.Acts := by
  induction h with
  | nil => cases ht
  | put hy _ ih =>
    rcases List.mem_cons.mp ht with rfl | ht
    · cases hy
    · exact (ih ht hacts).append_right _
  | closure _ _ _ _ _ _ _ ih =>
    rcases List.mem_cons.mp ht with heq | ht
    · cases heq
    · exact ih (List.mem_append_right _ ht) hacts
  | run hsub _ _ _ ih =>
    rcases List.mem_cons.mp ht with heq | ht
    · cases heq
      exact ((hacts _ _ _ _ hsub).append_right _).append_left _
    · exact (ih ht hacts).append_right _

theorem Emits.not_refuse : ¬ Emits o d (.refuse :: steps) n out m := by
  intro h
  cases h with
  | put hx => cases hx

theorem any_isCode_call (d : Draft) (line : UInt32) (func : Expr) (args : List Expr)
    (keywords : List Keyword) :
    ((Expr.call line func args keywords).valueSteps d).any Step.isCode = true := by
  cases keywords with
  | cons k ks => simp [Expr.valueSteps, callSteps, Step.isCode]
  | nil =>
    cases func with
    | «attribute» line object attr ctx =>
      cases ctx <;> simp [Expr.valueSteps, callSteps, Step.isCode]
    | _ => simp [Expr.valueSteps, callSteps, Step.isCode]

theorem any_isCode_mapSteps (entries : List (Expr × Expr)) :
    (mapSteps entries).any Step.isCode = true := by
  unfold mapSteps
  dsimp only
  split
  · split <;> rfl
  · rfl

/-- The code of an expression that is read is not empty. -/
theorem Expr.Fits.acts {K : CodeObject → Prop} {e : Expr} {ctx : Ctx} (h : e.Fits K ctx)
    (hctx : ctx = .load) {dest : Dest} {k : Nat} (hemits : Emits o d (e.steps d n dest) m out k) :
    out.Acts := by
  induction h generalizing dest n m out k with
  | @boolOp line op values _ ih =>
    cases dest with
    | push =>
      refine hemits.acts_of_run (t := .operands op.jumpOpcode n values) List.mem_cons_self
        fun n' _ _ _ hsub => ?_
      rcases values with _ | ⟨e, _ | ⟨e', es⟩⟩
      · exact absurd hsub Emits.not_refuse
      all_goals exact hsub.acts_of_run List.mem_cons_self fun _ _ _ _ => ih e List.mem_cons_self rfl
    | jump target sense =>
      obtain ⟨inner, hmem⟩ : ∃ inner, .run (.tests inner (decide (op = .or)) target sense values) ∈
          (Expr.boolOp line op values).steps d n (.jump target sense) := by
        simp only [Expr.steps]
        split <;> exact ⟨_, List.mem_cons_self⟩
      refine hemits.acts_of_run hmem fun n' _ _ _ hsub => ?_
      rcases values with _ | ⟨e, _ | ⟨e', es⟩⟩
      · exact absurd hsub Emits.not_refuse
      all_goals exact hsub.acts_of_run List.mem_cons_self fun _ _ _ _ => ih e List.mem_cons_self rfl
  | @unaryOp line op operand _ ih =>
    cases op <;> cases dest
    case not.jump =>
      exact hemits.acts_of_run List.mem_cons_self fun _ _ _ _ => ih rfl
    all_goals exact hemits.acts (by simp [Expr.steps, Expr.valueSteps, Step.isCode])
  | @compare line left ops comparators hlen _ _ ih _ =>
    rcases ops with _ | ⟨op, _ | ⟨op', ops⟩⟩
    · exact absurd hemits Emits.not_refuse
    · obtain ⟨e, rfl⟩ := List.length_eq_one_iff.mp hlen.symm
      exact hemits.acts_of_run List.mem_cons_self fun _ _ _ _ => ih rfl
    · obtain ⟨steps, hsteps⟩ : ∃ steps, (Expr.compare line left (op :: op' :: ops) comparators).steps
          d n dest = .value left :: steps := by
        cases dest with
        | push =>
          simp only [Expr.steps, Expr.valueSteps, List.getLast?_cons]
          exact ⟨_, rfl⟩
        | jump target sense => exact ⟨_, rfl⟩
      rw [hsteps] at hemits
      exact hemits.acts_of_run List.mem_cons_self fun _ _ _ _ => ih rfl
  | @dict line keys values =>
    exact hemits.acts_of_run List.mem_cons_self fun _ _ _ _ hsub =>
      hsub.acts (any_isCode_mapSteps _)
  | @listComp line elt generators =>
    rcases generators with _ | ⟨⟨target, iter, filters⟩, rest⟩
    · cases hemits with
      | put hx => cases hx
    · exact hemits.acts rfl
  | @call line func args keywords =>
    refine hemits.acts ?_
    simp only [Expr.steps, List.any_append, any_isCode_call, Bool.true_or]
  | @slice line lower upper step =>
    cases step <;> exact hemits.acts (by simp [Expr.steps, Expr.valueSteps, Step.isCode])
  | list | tuple =>
    subst hctx
    exact hemits.acts (by simp [Expr.steps, Expr.valueSteps, sequenceSteps, Step.isCode])
  | _ => exact hemits.acts (by simp [Expr.steps, Expr.valueSteps, Step.isCode])

end

/-- A script that the steps of an expression stand for if its value is to be pushed. -/
def Expr.Codes (o : Options) (e : Expr) (log : Script) : Prop :=
  ∃ d n k m, Emits o d (e.steps d n .push) k log m

namespace Expr.Codes

variable {o : Options} {e : Expr} {out log pt : Script}

/-- Expressions can be passed. -/
theorem leads (h : e.Codes o out) (hlog : out ++ pt <:+ log) : log.Leads (out ++ pt) pt := by
  obtain ⟨d, n, k, m, hemits⟩ := h
  exact hemits.leads_of_passes (e.passes d n .push) hlog

theorem acts (h : e.Codes o out) (he : e.Fits (fun _ => True) .load) : out.Acts := by
  obtain ⟨d, n, k, m, hemits⟩ := h
  exact he.acts rfl hemits

end Expr.Codes

end Wordcode

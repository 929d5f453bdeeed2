import Wordcode.Proofs.ScopeRuns

/-!
# Statements of a scope

Which statements the steps of a scope compile in the scope itself, and what follows for assertions:
one that is among the steps stands in a statement of the scope.
-/

set_option autoImplicit false

namespace Wordcode

/-- The statements directly inside a statement that belong to the same scope. -/
def Stmt.ownInner : Stmt → List Stmt
  | .functionDef .. | .classDef .. => []
  | s => s.inner

/-- An assertion stands in the statement, in the same scope. -/
inductive Stmt.Asserts : Stmt → Prop where
  | here {line : UInt32} {test : Expr} {msg : Option Expr} : Asserts (.assert line test msg)
  | inner {s s' : Stmt} : s' ∈ s.ownInner → Asserts s' → Asserts s

def Program.Asserts : Program → Prop
  | .module body | .interactive body => ∃ s ∈ body, s.Asserts
  | .expression _ => False

def Body.Asserts (body : Body) : Prop := ∃ s ∈ body.statements, s.Asserts

def Source.Asserts : Source → Prop
  | .program p => p.Asserts
  | .body b => b.Asserts

/-- The statements that a step compiles in its own scope. -/
def Step.statements : Step → List Stmt
  | .run t => t.statements
  | _ => []

def statementsOf (steps : List Step) : List Stmt := steps.flatMap Step.statements

section Schemes

attribute [local simp] Step.statements Task.statements Frame.finalBodies Stmt.ownInner Stmt.inner

variable (d : Draft)

@[simp] theorem statementsOf_nil : statementsOf [] = [] := rfl

@[simp] theorem statementsOf_cons (x : Step) (xs : List Step) :
    statementsOf (x :: xs) = x.statements ++ statementsOf xs := rfl

@[simp] theorem statementsOf_append (xs ys : List Step) :
    statementsOf (xs ++ ys) = statementsOf xs ++ statementsOf ys :=
  List.flatMap_append

@[simp] theorem statementsOf_replicate (n : Nat) (op : Opcode) (arg : UInt32) :
    statementsOf (List.replicate n (.emit op arg)) = [] := by
  induction n with
  | zero => rfl
  | succ n ih => exact ih

theorem statementsOf_flatMap {α : Type} {f : α → List Step} (h : ∀ a, statementsOf (f a) = [])
    (as : List α) : statementsOf (as.flatMap f) = [] := by
  induction as with
  | nil => rfl
  | cons a as ih => rw [List.flatMap_cons, statementsOf_append, h, ih, List.append_nil]

@[simp] theorem statementsOf_optionSteps (e : Option Expr) : statementsOf (optionSteps e) = [] := by
  cases e <;> rfl

@[simp] theorem statementsOf_callSteps (extra : Nat) (args : List Expr) (ks : List Keyword) :
    statementsOf (callSteps extra args ks) = [] := by
  unfold callSteps
  split <;> rfl

@[simp] theorem statementsOf_defaultSteps (a : Arguments) : statementsOf a.defaultSteps = [] := by
  unfold Arguments.defaultSteps
  split <;> split <;> rfl

@[simp] theorem statementsOf_annotationSteps (a : Arguments) (returns : Option Expr) :
    statementsOf (a.annotationSteps returns) = [] := by
  unfold Arguments.annotationSteps
  split <;> rfl

@[simp] theorem statementsOf_mapSteps (entries : List (Expr × Expr)) :
    statementsOf (mapSteps entries) = [] := by
  unfold mapSteps
  split
  · split <;> rfl
  · rfl

@[simp] theorem statementsOf_valueSteps (e : Expr) : statementsOf (e.valueSteps d) = [] := by
  unfold Expr.valueSteps
  split
  all_goals first
  | rfl
  | simp only [statementsOf_append, statementsOf_defaultSteps, statementsOf_optionSteps]; rfl
  | exact statementsOf_callSteps _ _ _
  | split <;> rfl
  | unfold sequenceSteps; split <;> rfl

theorem Expr.statementsOf_steps (n : Nat) (e : Expr) (dest : Dest) :
    statementsOf (e.steps d n dest) = [] := by
  fun_cases Expr.steps d n e dest
  case case1 | case2 | case4 | case5 | case6 => rfl
  case case3 => split <;> rfl
  case case7 =>
    rw [statementsOf_append, statementsOf_valueSteps]
    cases dest <;> rfl

@[simp] theorem statementsOf_importPartSteps (parts : List String) :
    statementsOf (importPartSteps parts) = [] := by
  induction parts with
  | nil => rfl
  | cons part rest ih =>
    cases rest with
    | nil => rfl
    | cons part' rest => exact ih

@[simp] theorem statementsOf_bindImportSteps (a : Alias) : statementsOf (bindImportSteps d a) = [] := by
  unfold bindImportSteps
  split
  · rfl
  · rfl
  · rw [statementsOf_append, statementsOf_importPartSteps]
    rfl

@[simp] theorem statementsOf_leaveSteps (keep : Bool) (f : Frame) :
    statementsOf (leaveSteps d keep f) = [] := by
  cases f with
  | handlerCleanup x => cases x <;> cases keep <;> rfl
  | _ => cases keep <;> rfl

@[simp] theorem statementsOf_docSteps (o : Options) (body : List Stmt) :
    statementsOf (docSteps o d body) = [] := by
  unfold docSteps
  split <;> rfl

/-- A statement compiles statements inside it, in its own scope, and final bodies around it. -/
theorem Stmt.statementsOf_steps (o : Options) (frames : List Frame) (n : Nat) (s : Stmt) :
    statementsOf (s.steps o d frames n) ⊆ s.ownInner ++ Frame.finalBodies frames := by
  cases s with
  | functionDef | classDef => simp [Stmt.steps]
  | ret line e =>
    cases e with
    | none => simp [Stmt.steps]
    | some e =>
      simp only [Stmt.steps]
      split <;> simp
  | augAssign line target op e =>
    simp only [Stmt.steps, augmentedSteps]
    split <;> simp
  | raise line exc cause =>
    simp only [Stmt.steps, raiseSteps]
    split <;> simp
  | assert line test msg =>
    simp only [Stmt.steps]
    split
    · simp
    · cases msg <;> simp
  | importNames line names =>
    have hnone : statementsOf (importSteps d names) = [] :=
      statementsOf_flatMap (fun a => by simp) names
    simp [Stmt.steps, hnone]
  | importFrom line origin names level =>
    have hnone : statementsOf (bindFromSteps d names) = [] :=
      statementsOf_flatMap (fun a => by simp) names
    simp only [Stmt.steps, importFromSteps]
    split <;> simp [hnone]
  | expr line e =>
    simp only [Stmt.steps]
    split <;> simp
  | breakLoop | continueLoop =>
    simp only [Stmt.steps]
    split <;> simp
  | ifElse line test body orelse =>
    intro x hx
    cases orelse <;> simp [Stmt.steps] at hx ⊢ <;> grind
  | tryExcept line body handlers orelse finalbody =>
    intro x hx
    cases finalbody <;> cases handlers <;> simp [Stmt.steps] at hx ⊢ <;> grind
  | delete | assign | «global» | «nonlocal» | pass | forLoop | whileLoop => simp [Stmt.steps]

/-- What a construct compiles are statements of its own or, if it is a statement, inside it. -/
theorem Task.asserts_of_steps {o : Options} {n : Nat} {t : Task} {s : Stmt}
    (hs : s ∈ statementsOf (t.steps o d n)) (hasserts : s.Asserts) :
    ∃ s' ∈ t.statements, s'.Asserts := by
  cases t with
  | expr e dest =>
    rw [Task.steps, Expr.statementsOf_steps] at hs
    cases hs
  | stmt frames s' =>
    rcases List.mem_append.mp (Stmt.statementsOf_steps d o frames n s' hs) with hs | hs
    · exact ⟨s', List.mem_cons_self, .inner hs hasserts⟩
    · exact ⟨s, List.mem_cons_of_mem _ hs, hasserts⟩
  | map entries =>
    rw [Task.steps, statementsOf_mapSteps] at hs
    cases hs
  | all es | storeAll es | operands _ _ es | tests _ _ _ _ es | filters _ es =>
    rcases es with _ | ⟨_, _ | ⟨_, _⟩⟩ <;> simp [Task.steps] at hs
  | links _ _ _ ops es =>
    rcases ops with _ | ⟨_, _⟩ <;> rcases es with _ | ⟨_, _ | ⟨_, _⟩⟩ <;>
      simp [Task.steps, compareStep] at hs
  | chain => simp [Task.steps] at hs
  | chainEnd cleanup dest =>
    rcases dest with _ | ⟨_, _ | _⟩ <;>
      simp [Task.steps, Dest.cleanupSteps] at hs
  | loop input target conditions rest element depth =>
    cases input <;> cases rest <;>
      simp [Task.steps, inputSteps] at hs
  | inner element depth gs =>
    rcases gs with _ | ⟨⟨_, _, _⟩, _⟩ <;> simp [Task.steps] at hs
  | extendMap entries =>
    cases entries <;> simp [Task.steps] at hs
  | block => simp [Task.steps] at hs
  | stmts frames ss =>
    refine ⟨s, ?_, hasserts⟩
    cases ss <;> simp [Task.steps] at hs ⊢
    grind
  | tryExcept frames body hs' orelse =>
    refine ⟨s, ?_, hasserts⟩
    simp [Task.steps] at hs ⊢
    grind
  | handlers frames done hs' =>
    refine ⟨s, ?_, hasserts⟩
    rcases hs' with _ | ⟨⟨_ | _, _, _, _⟩, _⟩ <;>
      simp [Task.steps] at hs ⊢ <;> grind
  | handler frames done name body =>
    refine ⟨s, ?_, hasserts⟩
    cases name <;>
      simp [Task.steps, clearSteps] at hs ⊢ <;>
      grind
  | unwind keep toLoop frames =>
    refine ⟨s, ?_, hasserts⟩
    cases frames with
    | nil => simp [Task.steps] at hs
    | cons f outer =>
      simp only [Task.steps] at hs
      split at hs
      · cases hs
      · cases f <;> cases keep <;>
          simp at hs ⊢ <;> grind

theorem Body.asserts_of_steps {o : Options} {body : Body} {s : Stmt}
    (hs : s ∈ statementsOf (body.steps o d)) (hasserts : s.Asserts) : body.Asserts := by
  refine ⟨s, ?_, hasserts⟩
  cases body with
  | lambda e =>
    cases hgen : d.isGenerator <;> simp [Body.steps, hgen] at hs
  | comprehension => simp [Body.steps] at hs
  | function body =>
    simp [Body.steps] at hs
    exact mem_of_mem_withoutDocstring hs
  | classBody body =>
    cases hcell : d.needsClassCell <;>
      simp [Body.steps, hcell] at hs <;>
      exact mem_of_mem_withoutDocstring hs

theorem Program.asserts_of_steps {o : Options} {p : Program} {s : Stmt}
    (hs : s ∈ statementsOf (p.steps o d)) (hasserts : s.Asserts) : p.Asserts := by
  cases p with
  | module body =>
    simp [Program.steps] at hs
    exact ⟨s, mem_of_mem_withoutDocstring hs, hasserts⟩
  | expression e => simp [Program.steps] at hs
  | interactive body => simp [Program.steps] at hs

theorem Source.asserts_of_steps {o : Options} {src : Source} {s : Stmt}
    (hs : s ∈ statementsOf (src.steps o d)) (hasserts : s.Asserts) : src.Asserts := by
  cases src with
  | program p => exact Program.asserts_of_steps d hs hasserts
  | body b => exact Body.asserts_of_steps d hs hasserts

end Schemes
end Wordcode

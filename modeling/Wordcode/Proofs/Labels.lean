import Wordcode.Proofs.Rendering
import Wordcode.Proofs.Scheme

/-!
# Labels of code schemes

A scheme goes on at each label it makes at most once, and jumps only to labels that it goes on at
or that it was given. This is a property of each scheme by itself; it follows for the scripts of
all programs, whether they make sense or not.
-/

set_option autoImplicit false

namespace Wordcode

open Step (value branch simple)

def Dest.targets : Dest → List BlockId
  | .push => []
  | .jump target _ => [target]

def Frame.targets : Frame → List BlockId
  | .whileLoop start exit | .forLoop start exit => [start, exit]
  | _ => []

namespace Task

/-- Labels given to a construct that it goes on at. -/
def places : Task → List BlockId
  | .chainEnd cleanup _ => [cleanup]
  | _ => []

/-- Labels given to a construct that it may jump to. -/
def uses : Task → List BlockId
  | .expr _ dest | .chainEnd _ dest => dest.targets
  | .operands _ done _ => [done]
  | .tests decided _ target _ _ => [decided, target]
  | .links _ cleanup _ _ _ | .filters cleanup _ => [cleanup]
  | .stmt frames _ | .stmts frames _ | .tryExcept frames .. | .unwind _ _ frames =>
    frames.flatMap Frame.targets
  | .handlers frames done _ | .handler frames done _ _ => done :: frames.flatMap Frame.targets
  | .all _ | .chain .. | .loop .. | .inner .. | .map _ | .extendMap _ | .block | .storeAll _ => []

end Task

/-- An opcode for instructions that do not jump. -/
def Opcode.isPlain (op : Opcode) : Bool := !op.isJump && decide (op ≠ .extendedArg)

namespace Step

def places : Step → List BlockId
  | .label b => [b]
  | .run t => t.places
  | _ => []

def uses : Step → List BlockId
  | .jump _ b => [b]
  | .run t => t.uses
  | _ => []

def isPlain : Step → Bool
  | .emit op _ | .named op _ => op.isPlain
  | _ => true

end Step

def placesOf (steps : List Step) : List BlockId := steps.flatMap Step.places

def usesOf (steps : List Step) : List BlockId := steps.flatMap Step.uses

@[simp] theorem placesOf_append (xs ys : List Step) :
    placesOf (xs ++ ys) = placesOf xs ++ placesOf ys := List.flatMap_append

@[simp] theorem usesOf_append (xs ys : List Step) :
    usesOf (xs ++ ys) = usesOf xs ++ usesOf ys := List.flatMap_append

@[simp] theorem placesOf_nil : placesOf [] = [] := rfl

@[simp] theorem usesOf_nil : usesOf [] = [] := rfl

@[simp] theorem placesOf_cons (x : Step) (xs : List Step) :
    placesOf (x :: xs) = x.places ++ placesOf xs := rfl

@[simp] theorem usesOf_cons (x : Step) (xs : List Step) :
    usesOf (x :: xs) = x.uses ++ usesOf xs := rfl

/-- Steps that go on at no label, jump to none outside and add no jump by hand. -/
structure Closed (steps : List Step) : Prop where
  places : placesOf steps = []
  uses : usesOf steps = []
  plain : steps.all Step.isPlain = true

theorem Closed.append {l r : List Step} (hx : Closed l) (hy : Closed r) : Closed (l ++ r) :=
  ⟨by simp [hx.places, hy.places], by simp [hx.uses, hy.uses], by simp [hx.plain, hy.plain]⟩

theorem closed_nil : Closed [] := ⟨rfl, rfl, rfl⟩

theorem Closed.cons {x : Step} {xs : List Step} (hx : Closed [x]) (hxs : Closed xs) :
    Closed (x :: xs) := hx.append hxs

theorem closed_value (e : Expr) : Closed [value e] := ⟨rfl, rfl, rfl⟩

section Plain

@[simp] theorem isPlain_operator (op : Operator) : op.opcode.isPlain = true := by
  cases op <;> decide

@[simp] theorem isPlain_inplace (op : Operator) : op.inplaceOpcode.isPlain = true := by
  cases op <;> decide

@[simp] theorem isPlain_unary (op : UnaryOp) : op.opcode.isPlain = true := by
  cases op <;> decide

@[simp] theorem isPlain_compare (op : CmpOp) : op.opcode.1.isPlain = true := by
  cases op <;> decide

@[simp] theorem isPlain_attribute (ctx : Ctx) : (attributeOpcode ctx).isPlain = true := by
  cases ctx <;> decide

@[simp] theorem isPlain_subscript (ctx : Ctx) : (subscriptOpcode ctx).isPlain = true := by
  cases ctx <;> decide

@[simp] theorem isPlain_nameOpcode (d : Draft) (x : String) (ctx : Ctx) :
    (d.nameOpcode x ctx).isPlain = true := by
  unfold Draft.nameOpcode
  cases d.access x <;> cases ctx
  case deref.load => simp only [derefOpcode]; split <;> rfl
  all_goals rfl

end Plain

theorem closed_optionSteps (e : Option Expr) : Closed (optionSteps e) := by
  cases e <;> exact ⟨rfl, rfl, rfl⟩

theorem closed_callSteps (extra : Nat) (args : List Expr) (ks : List Keyword) :
    Closed (callSteps extra args ks) := by
  unfold callSteps
  split <;> exact ⟨rfl, rfl, rfl⟩

theorem closed_defaultSteps (a : Arguments) : Closed a.defaultSteps := by
  unfold Arguments.defaultSteps
  split <;> split <;> exact ⟨rfl, rfl, rfl⟩

theorem closed_annotationSteps (a : Arguments) (returns : Option Expr) :
    Closed (a.annotationSteps returns) := by
  unfold Arguments.annotationSteps
  split <;> exact ⟨rfl, rfl, rfl⟩

theorem closed_mapSteps (entries : List (Expr × Expr)) : Closed (mapSteps entries) := by
  unfold mapSteps
  split
  · split <;> exact ⟨rfl, rfl, rfl⟩
  · exact ⟨rfl, rfl, rfl⟩

theorem closed_sequenceSteps {build : Opcode} (h : build.isPlain = true) (ctx : Ctx)
    (es : List Expr) : Closed (sequenceSteps build ctx es) := by
  cases ctx with
  | load => exact ⟨rfl, rfl, by simp [sequenceSteps, Step.isPlain, h]⟩
  | store | del => exact ⟨rfl, rfl, rfl⟩

theorem closed_valueSteps (d : Draft) (e : Expr) : Closed (e.valueSteps d) := by
  unfold Expr.valueSteps
  split
  all_goals first
  | exact ⟨rfl, rfl, rfl⟩
  | exact ⟨rfl, rfl, by simp [Step.isPlain, compareStep]⟩
  | exact (closed_defaultSteps _).append ⟨rfl, rfl, rfl⟩
  | exact (closed_optionSteps _).append ⟨rfl, rfl, rfl⟩
  | exact ((closed_optionSteps _).append (closed_optionSteps _)).append ⟨rfl, rfl, rfl⟩
  | exact (closed_value _).append (closed_callSteps _ _ _)
  | exact closed_sequenceSteps rfl _ _
  | split <;> exact ⟨rfl, rfl, rfl⟩

theorem closed_clearSteps (d : Draft) (x : String) : Closed (clearSteps d x) :=
  ⟨rfl, rfl, by simp [clearSteps, Step.isPlain]⟩

theorem closed_augmentedSteps (d : Draft) (op : Operator) (e target : Expr) :
    Closed (augmentedSteps d op e target) := by
  unfold augmentedSteps
  split
  · exact ⟨rfl, rfl, by simp [Step.isPlain]; decide⟩
  · exact ⟨rfl, rfl, by simp [Step.isPlain]; decide⟩
  · exact ⟨rfl, rfl, by simp [Step.isPlain]⟩
  · exact ⟨rfl, rfl, rfl⟩

theorem closed_raiseSteps (exc cause : Option Expr) : Closed (raiseSteps exc cause) := by
  unfold raiseSteps
  split <;> exact ⟨rfl, rfl, rfl⟩

theorem closed_importPartSteps (parts : List String) : Closed (importPartSteps parts) := by
  induction parts with
  | nil => exact closed_nil
  | cons part rest ih =>
    cases rest with
    | nil => exact ⟨rfl, rfl, rfl⟩
    | cons part' rest =>
      have hhead : Closed [.named .importFrom part, simple .rotTwo, simple .popTop] :=
        ⟨rfl, rfl, rfl⟩
      exact hhead.append ih

theorem closed_name (d : Draft) (x : String) (ctx : Ctx) : Closed [Step.name d x ctx] :=
  ⟨rfl, rfl, by simp [Step.isPlain]⟩

theorem closed_bindImportSteps (d : Draft) (a : Alias) : Closed (bindImportSteps d a) := by
  unfold bindImportSteps
  split
  · exact closed_name d _ .store
  · exact closed_name d _ .store
  · exact (closed_importPartSteps _).append ((closed_name d _ .store).append ⟨rfl, rfl, rfl⟩)

theorem closed_flatMap {α : Type} {f : α → List Step} (h : ∀ a, Closed (f a)) (as : List α) :
    Closed (as.flatMap f) := by
  induction as with
  | nil => exact closed_nil
  | cons a as ih => exact (h a).append ih

theorem closed_importFromSteps (d : Draft) (origin : Option String) (names : List Alias)
    (level : UInt32) : Closed (importFromSteps d origin names level) := by
  refine Closed.append (l := [_, _, _]) ⟨rfl, rfl, rfl⟩ ?_
  split
  · exact ⟨rfl, rfl, rfl⟩
  · refine Closed.append (closed_flatMap (fun a => ?_) names) ⟨rfl, rfl, rfl⟩
    exact Closed.cons ⟨rfl, rfl, rfl⟩ (closed_name d _ .store)

theorem closed_replicate {x : Step} (h : Closed [x]) (n : Nat) : Closed (List.replicate n x) := by
  induction n with
  | zero => exact closed_nil
  | succ n ih => exact h.cons ih

theorem closed_leaveSteps (d : Draft) (keep : Bool) (f : Frame) : Closed (leaveSteps d keep f) := by
  cases f with
  | handlerCleanup x =>
    cases x with
    | none => cases keep <;> exact ⟨rfl, rfl, rfl⟩
    | some x =>
      cases keep
      · exact Closed.append (l := [_, _]) ⟨rfl, rfl, rfl⟩ (closed_clearSteps d x)
      · exact Closed.append (l := [_, _, _]) ⟨rfl, rfl, rfl⟩ (closed_clearSteps d x)
  | _ => cases keep <;> exact ⟨rfl, rfl, rfl⟩

theorem closed_docSteps (o : Options) (d : Draft) (body : List Stmt) :
    Closed (docSteps o d body) := by
  unfold docSteps
  split
  · exact closed_nil
  · exact Closed.cons ⟨rfl, rfl, rfl⟩ (closed_name d _ .store)

theorem closed_closureSteps (code : CodeObject) (parts : FunctionParts) (qualname : String) :
    Closed (closureSteps code parts qualname) := by
  unfold closureSteps
  split
  · exact ⟨rfl, rfl, rfl⟩
  · have hcells : Closed (code.freevars.map (Step.named .loadClosure)) := by
      induction code.freevars with
      | nil => exact closed_nil
      | cons x xs ih => exact Closed.cons ⟨rfl, rfl, rfl⟩ ih
    exact (hcells.append ⟨rfl, rfl, rfl⟩).append ⟨rfl, rfl, rfl⟩

theorem closed_bodySteps (o : Options) (d : Draft) (body : Body) : Closed (body.steps o d) := by
  cases body with
  | lambda e =>
    unfold Body.steps
    cases d.isGenerator <;> exact ⟨rfl, rfl, rfl⟩
  | comprehension | function => exact ⟨rfl, rfl, rfl⟩
  | classBody body =>
    unfold Body.steps
    refine Closed.append (Closed.append (Closed.append ?_ (closed_docSteps o d body))
      (Closed.cons ⟨rfl, rfl, rfl⟩ ?_)) ⟨rfl, rfl, rfl⟩
    · exact (closed_name d _ .load).append ((closed_name d _ .store).append
        (Closed.cons ⟨rfl, rfl, rfl⟩ (closed_name d _ .store)))
    · split
      · exact Closed.append (l := [_, _]) ⟨rfl, rfl, rfl⟩ (closed_name d _ .store)
      · exact ⟨rfl, rfl, rfl⟩

/-- Steps in order: they go on at what they were given to and at the `k` labels from `n`, at the
latter at most once, and jump nowhere else but to what they were given. -/
structure Regular (n k : Nat) (given used : List BlockId) (steps : List Step) : Prop where
  count : ∀ b, (placesOf steps).count b ≤ given.count b + if n ≤ b ∧ b < n + k then 1 else 0
  given : ∀ b ∈ given, b ∈ placesOf steps
  used : ∀ b ∈ usesOf steps, b ∈ placesOf steps ∨ b ∈ used
  plain : steps.all Step.isPlain = true

theorem Closed.regular {n k : Nat} {used : List BlockId} {steps : List Step} (h : Closed steps) :
    Regular n k [] used steps :=
  ⟨fun b => by rw [h.places]; exact Nat.zero_le _, by simp, by simp [h.uses], h.plain⟩

theorem isPlain_testSteps (dest : Dest) : dest.testSteps.all Step.isPlain = true := by
  cases dest <;> rfl

theorem placesOf_testSteps (dest : Dest) : placesOf dest.testSteps = [] := by
  cases dest <;> rfl

theorem usesOf_testSteps (dest : Dest) : usesOf dest.testSteps = dest.targets := by
  cases dest <;> rfl

theorem Regular.of_eq {n k : Nat} {given used : List BlockId} {steps : List Step}
    (ps us : List BlockId) (hps : placesOf steps = ps) (hus : usesOf steps = us)
    (count : ∀ b, ps.count b ≤ given.count b + if n ≤ b ∧ b < n + k then 1 else 0)
    (hgiven : given ⊆ ps) (hused : us ⊆ ps ++ used) (plain : steps.all Step.isPlain = true) :
    Regular n k given used steps :=
  ⟨hps ▸ count, hps ▸ hgiven, hps ▸ hus ▸ fun _ hb => List.mem_append.mp (hused hb), plain⟩

theorem Expr.regular (d : Draft) (n : Nat) (e : Expr) (dest : Dest) :
    Regular n (e.labelCount dest) [] dest.targets (e.steps d n dest) := by
  fun_cases Expr.steps d n e dest
  case case1 =>
    show Regular n 1 [] [] _
    exact .of_eq [n] [n] rfl rfl (by grind) (by simp) (by simp) rfl
  case case2 target _ =>
    exact .of_eq [] [target, target] rfl rfl (by simp) (by simp) (by simp [Dest.targets]) rfl
  case case3 op _ target sense _ h =>
    have hcount : (Expr.boolOp ‹_› op ‹_›).labelCount (.jump target sense) = 1 := if_neg h
    by_cases ht : n = target
    · rw [if_pos ht]
      exact .of_eq [] [n, target] rfl rfl (by simp) (by simp) (by simp [Dest.targets, ht]) rfl
    · rw [if_neg ht, hcount]
      exact .of_eq [n] [n, target] rfl rfl (by grind) (by simp) (by simp [Dest.targets]) rfl
  case case4 op target sense =>
    exact .of_eq [] [target] rfl rfl (by simp) (by simp) (by simp [Dest.targets]) rfl
  case case5 =>
    show Regular n 2 [] _ _
    exact .of_eq [n + 1, n] ([n + 1] ++ (dest.targets ++ n :: dest.targets)) rfl
      (by simp [Step.uses, Task.uses]; rfl) (by grind) (by simp) (by simp) rfl
  case case6 target sense =>
    show Regular n 1 [] _ _
    exact .of_eq [n] [n, target, target] rfl rfl (by grind) (by simp) (by simp [Dest.targets]) rfl
  case case7 =>
    refine .of_eq [] dest.targets ?_ ?_ (by simp) (by simp) (by simp) ?_
    · rw [placesOf_append, placesOf_testSteps, (closed_valueSteps d e).places]
      rfl
    · rw [usesOf_append, usesOf_testSteps, (closed_valueSteps d e).uses]
      rfl
    · rw [List.all_append, isPlain_testSteps, (closed_valueSteps d e).plain]
      rfl

theorem targets_subset_of_find? {frames : List Frame} {f : Frame}
    (h : frames.find? Frame.isLoop = some f) : f.targets ⊆ frames.flatMap Frame.targets :=
  fun _ hb => List.mem_flatMap.mpr ⟨f, List.mem_of_find?_eq_some h, hb⟩

theorem Stmt.regular (o : Options) (d : Draft) (frames : List Frame) (n : Nat) (s : Stmt) :
    Regular n (s.labelCount o) [] (frames.flatMap Frame.targets) (s.steps o d frames n) := by
  have hleave {steps : List Step} (hplaces : placesOf steps = [])
      (huses : usesOf steps = frames.flatMap Frame.targets)
      (hplain : steps.all Step.isPlain = true) :
      Regular n 0 [] (frames.flatMap Frame.targets) steps :=
    .of_eq [] _ hplaces huses (by simp) (by simp) (by simp) hplain
  have hloop {steps : List Step} {b : BlockId} {f : Frame}
      (hf : frames.find? Frame.isLoop = some f) (hb : b ∈ f.targets)
      (hplaces : placesOf steps = []) (huses : usesOf steps = frames.flatMap Frame.targets ++ [b])
      (hplain : steps.all Step.isPlain = true) :
      Regular n 0 [] (frames.flatMap Frame.targets) steps :=
    .of_eq [] _ hplaces huses (by simp) (by simp)
      (by simpa using targets_subset_of_find? hf hb) hplain
  cases s with
  | functionDef line name args body decorators returns =>
    refine (Closed.cons ⟨rfl, rfl, rfl⟩ (((((closed_defaultSteps args).append
      (closed_annotationSteps args returns)).append ⟨rfl, rfl, rfl⟩).append
      (closed_replicate ⟨rfl, rfl, rfl⟩ _)).append (closed_name d name .store))).regular
  | classDef line name bases keywords body decorators =>
    have hhead : Closed [.run (.all decorators), simple .loadBuildClass,
        .closure (.classBody body) name (Build.definitionLine line decorators) {} (some name),
        .load (.str name)] := ⟨rfl, rfl, rfl⟩
    exact (((hhead.append (closed_callSteps 2 bases keywords)).append
      (closed_replicate ⟨rfl, rfl, rfl⟩ _)).append (closed_name d name .store)).regular
  | ret line e =>
    cases e with
    | none => exact hleave rfl (List.append_nil _) rfl
    | some e =>
      simp only [Stmt.steps]
      split <;> exact hleave rfl (List.append_nil _) rfl
  | delete | assign | «global» | «nonlocal» | pass => exact Closed.regular ⟨rfl, rfl, rfl⟩
  | augAssign line target op e => exact (closed_augmentedSteps d op e target).regular
  | raise line exc cause => exact (closed_raiseSteps exc cause).regular
  | assert line test msg =>
    simp only [Stmt.steps, Stmt.labelCount]
    split
    · exact closed_nil.regular
    · cases msg <;> exact .of_eq [n] [n] rfl rfl (by grind) (by simp) (by simp) rfl
  | importNames line names =>
    refine Closed.regular (closed_flatMap (fun a => ?_) names)
    exact Closed.append ⟨rfl, rfl, rfl⟩ (closed_bindImportSteps d a)
  | importFrom line origin names level =>
    exact (closed_importFromSteps d origin names level).regular
  | expr line e =>
    simp only [Stmt.steps]
    split <;> exact Closed.regular ⟨rfl, rfl, rfl⟩
  | breakLoop =>
    simp only [Stmt.steps]
    split
    · next h => exact hloop h (by simp [Frame.targets]) rfl rfl rfl
    · next h => exact hloop h (by simp [Frame.targets]) rfl rfl rfl
    · exact hleave rfl (List.append_nil _) rfl
  | continueLoop =>
    simp only [Stmt.steps]
    split
    · next h => exact hloop h (by simp [Frame.targets]) rfl rfl rfl
    · next h => exact hloop h (by simp [Frame.targets]) rfl rfl rfl
    · exact hleave rfl (List.append_nil _) rfl
  | forLoop line target iter body orelse =>
    show Regular n 3 [] _ _
    refine .of_eq [n, n + 1, n + 2] _ rfl rfl (by grind) (by simp) ?_ rfl
    simp only [Stmt.steps, usesOf_cons, usesOf_nil, Step.uses, Task.uses, Frame.targets,
      Dest.targets, List.flatMap_cons]
    grind
  | whileLoop line test body orelse =>
    show Regular n 3 [] _ _
    refine .of_eq [n, n + 2, n + 1] _ rfl rfl (by grind) (by simp) ?_ rfl
    simp only [Stmt.steps, usesOf_cons, usesOf_nil, Step.uses, Task.uses, Frame.targets,
      Dest.targets, List.flatMap_cons]
    grind
  | ifElse line test body orelse =>
    cases orelse with
    | nil =>
      show Regular n 1 [] _ _
      refine .of_eq [n] _ rfl rfl (by grind) (by simp) ?_ rfl
      simp [Stmt.steps, Step.uses, Task.uses, Dest.targets]
    | cons s ss =>
      show Regular n 2 [] _ _
      refine .of_eq [n + 1, n] _ rfl rfl (by grind) (by simp) ?_ rfl
      simp [Stmt.steps, Step.uses, Task.uses, Dest.targets]
  | tryExcept line body handlers orelse finalbody =>
    cases finalbody with
    | nil => exact hleave rfl (List.append_nil _) rfl
    | cons s ss =>
      show Regular n 3 [] _ _
      simp only [Stmt.steps]
      split
      · refine .of_eq [n, n + 1, n + 2] _ rfl rfl (by grind) (by simp) ?_ rfl
        simp only [usesOf_cons, usesOf_nil, Step.uses, Task.uses, Frame.targets, List.flatMap_cons]
        grind
      · refine .of_eq [n, n + 1, n + 2] _ rfl rfl (by grind) (by simp) ?_ rfl
        simp only [usesOf_cons, usesOf_nil, Step.uses, Task.uses, Frame.targets, List.flatMap_cons]
        grind

theorem Task.regular (o : Options) (d : Draft) (n : Nat) (t : Task) :
    Regular n (t.labelCount o) t.places t.uses (t.steps o d n) := by
  have hpass {used : List BlockId} {steps : List Step} (hplaces : placesOf steps = [])
      (huses : usesOf steps ⊆ used) (hplain : steps.all Step.isPlain = true) :
      Regular n 0 [] used steps :=
    .of_eq [] _ hplaces rfl (by simp) (by simp) (by simpa using huses) hplain
  cases t with
  | expr e dest => exact e.regular d n dest
  | stmt frames s => exact s.regular o d frames n
  | all es => cases es <;> exact Closed.regular ⟨rfl, rfl, rfl⟩
  | operands jump done es =>
    rcases es with _ | ⟨_, _ | ⟨_, _⟩⟩
    · exact Closed.regular ⟨rfl, rfl, rfl⟩
    · exact Closed.regular ⟨rfl, rfl, rfl⟩
    · exact hpass rfl (by simp [Task.steps, Step.uses, Task.uses, Dest.targets]) rfl
  | tests decided decisive target sense es =>
    rcases es with _ | ⟨_, _ | ⟨_, _⟩⟩
    · exact Closed.regular ⟨rfl, rfl, rfl⟩
    all_goals exact hpass rfl (by simp [Task.steps, Step.uses, Task.uses, Dest.targets]) rfl
  | links jump cleanup last ops es =>
    rcases es with _ | ⟨_, _ | ⟨_, _⟩⟩
    · exact Closed.regular ⟨rfl, rfl, rfl⟩
    · exact Closed.regular ⟨rfl, rfl, by simp [Task.steps, Step.isPlain, compareStep]⟩
    · cases ops with
      | nil => exact hpass rfl (by simp [Task.steps, Step.uses, Task.uses]) rfl
      | cons =>
        exact hpass rfl (by simp [Task.steps, Step.uses, Task.uses, compareStep, Dest.targets])
          (by simp [Task.steps, Step.isPlain, compareStep]; decide)
  | chain =>
    show Regular n 1 [] _ _
    exact .of_eq [n] [n] rfl rfl (by grind) (by simp) (by simp) rfl
  | chainEnd cleanup dest =>
    show Regular n 1 [cleanup] _ _
    cases dest with
    | push => exact .of_eq [cleanup, n] [n] rfl rfl (by grind) (by simp) (by simp) rfl
    | jump target sense =>
      cases sense
      · exact .of_eq [cleanup, n] [n, target] rfl rfl (by grind) (by simp)
          (by simp [Task.uses, Dest.targets]) rfl
      · exact .of_eq [cleanup, n] [n] rfl rfl (by grind) (by simp) (by simp) rfl
  | filters cleanup es =>
    cases es with
    | nil => exact Closed.regular ⟨rfl, rfl, rfl⟩
    | cons => exact hpass rfl (by simp [Task.steps, Step.uses, Task.uses, Dest.targets]) rfl
  | loop input target conditions rest element depth =>
    show Regular n 4 [] _ _
    have hinput : Closed (inputSteps input) := by cases input <;> exact ⟨rfl, rfl, rfl⟩
    cases rest with
    | nil =>
      refine .of_eq [n, n + 1, n + 2, n + 3] [n + 3, n + 2, n] ?_ ?_ (by grind) (by simp)
        (by simp) ?_
      · simp [Task.steps, hinput.places, Step.places, Task.places]
      · simp [Task.steps, hinput.uses, Step.uses, Task.uses, Dest.targets]
      · simp [Task.steps, hinput.plain, Step.isPlain]
    | cons g gs =>
      refine .of_eq [n, n + 2, n + 3] [n + 3, n + 2, n] ?_ ?_ (by grind) (by simp) (by simp) ?_
      · simp [Task.steps, hinput.places, Step.places, Task.places]
      · simp [Task.steps, hinput.uses, Step.uses, Task.uses, Dest.targets]
      · simp [Task.steps, hinput.plain, Step.isPlain]
  | inner element depth gs =>
    rcases gs with _ | ⟨⟨_, _, _⟩, _⟩ <;> exact Closed.regular ⟨rfl, rfl, rfl⟩
  | map entries => exact (closed_mapSteps entries).regular
  | extendMap entries => cases entries <;> exact Closed.regular ⟨rfl, rfl, rfl⟩
  | block =>
    show Regular n 1 [] _ _
    exact .of_eq [n] [] rfl rfl (by grind) (by simp) (by simp) rfl
  | storeAll targets =>
    rcases targets with _ | ⟨_, _ | ⟨_, _⟩⟩ <;> exact Closed.regular ⟨rfl, rfl, rfl⟩
  | stmts frames ss =>
    cases ss with
    | nil => exact Closed.regular ⟨rfl, rfl, rfl⟩
    | cons => exact hpass rfl (by simp [Task.steps, Step.uses, Task.uses]) rfl
  | tryExcept frames body hs orelse =>
    show Regular n 4 [] _ _
    refine .of_eq [n, n + 1, n + 2, n + 3] _ rfl rfl (by grind) (by simp) ?_ rfl
    simp only [Task.steps, usesOf_cons, usesOf_nil, Step.uses, Task.uses, Frame.targets,
      List.flatMap_cons]
    grind
  | handlers frames done hs =>
    cases hs with
    | nil => exact Closed.regular ⟨rfl, rfl, rfl⟩
    | cons h rest =>
      obtain ⟨type, name, body, line⟩ := h
      show Regular n 1 [] _ _
      cases type <;>
      · refine .of_eq [n] _ rfl rfl (by grind) (by simp) ?_ rfl
        simp only [Task.steps, usesOf_append, usesOf_cons, usesOf_nil, Step.uses, Task.uses,
          Dest.targets]
        grind
  | handler frames done name body =>
    cases name with
    | none =>
      show Regular n 1 [] _ _
      refine .of_eq [n] _ rfl rfl (by grind) (by simp) ?_ rfl
      simp only [Task.steps, usesOf_cons, usesOf_nil, Step.uses, Task.uses, Frame.targets,
        List.flatMap_cons]
      grind
    | some x =>
      show Regular n 2 [] _ _
      refine .of_eq [n + 1, n] (n :: (frames.flatMap Frame.targets ++ [done])) rfl ?_ (by grind)
        (by simp) ?_ ?_
      · simp [Task.steps, Step.uses, Task.uses, Frame.targets, clearSteps]
      · simp only [Task.uses]
        grind
      · simp [Task.steps, Step.isPlain, clearSteps]; decide
  | unwind keep toLoop frames =>
    cases frames with
    | nil => exact Closed.regular ⟨rfl, rfl, rfl⟩
    | cons f outer =>
      have hleave := closed_leaveSteps d keep f
      simp only [Task.steps]
      split
      · exact closed_nil.regular
      · cases f with
        | finallyTry finalbody =>
          refine hpass ?_ ?_ ?_
          · simp [hleave.places, Step.places, Task.places]
          · cases keep <;> simp [hleave.uses, Step.uses, Task.uses, Frame.targets]
          · simp [hleave.plain, Step.isPlain]
        | _ =>
          refine hpass ?_ ?_ ?_
          · simp [hleave.places, Step.places, Task.places]
          · simp [hleave.uses, Step.uses, Task.uses, Frame.targets]
          · simp [hleave.plain, Step.isPlain]

def Item.isJump : Item → Bool
  | .jump .. => true
  | _ => false

/-- The labels of a script that was written for some steps. -/
structure Labelled (steps : List Step) (n : Nat) (log : Script) (m : Nat) : Prop where
  size : m = n + log.allocs
  count : ∀ b, log.labels.count b ≤
    (placesOf steps).count b + if n ≤ b ∧ b < m then 1 else 0
  given : ∀ b ∈ placesOf steps, b ∈ log.labels
  used : ∀ b ∈ log.targets, b ∈ log.labels ∨ b ∈ usesOf steps
  placed : (∀ b ∈ placesOf steps, b < n) →
    ∀ i b, log[i]? = some (.label b) → b < n + Script.allocs (log.take i)
  plain : steps.all Step.isPlain = true → ∀ x ∈ log, ∀ i, x.instruction? = some i →
    x.isJump = true ∨ i.opcode.isPlain = true

theorem Regular.lt {n k : Nat} {given used : List BlockId} {steps : List Step}
    (h : Regular n k given used steps) (hgiven : ∀ b ∈ given, b < n) :
    ∀ b ∈ placesOf steps, b < n + k := by
  intro b hb
  have hcount := h.count b
  have hpos : 0 < (placesOf steps).count b := List.count_pos_iff.mpr hb
  by_cases hg : b ∈ given
  · exact Nat.lt_add_right k (hgiven b hg)
  · rw [List.count_eq_zero_of_not_mem hg] at hcount
    grind

theorem Labelled.nil (n : Nat) : Labelled [] n [] n where
  size := rfl
  count _ := Nat.zero_le _
  given := by simp
  used := by simp [Script.targets]
  placed := by simp
  plain := by simp

theorem Labelled.append {xs ys : List Step} {n k m : Nat} {log log' : Script}
    (hx : Labelled xs n log k) (hy : Labelled ys k log' m) :
    Labelled (xs ++ ys) n (log ++ log') m where
  size := by
    rw [Script.allocs_append, hy.size, hx.size, Nat.add_assoc]
  count b := by
    have hk := hx.size
    have hm := hy.size
    have hcx := hx.count b
    have hcy := hy.count b
    rw [Script.labels_append, placesOf_append, List.count_append, List.count_append]
    grind
  given b hb := by
    rw [Script.labels_append, List.mem_append]
    rw [placesOf_append, List.mem_append] at hb
    exact hb.imp (hx.given b) (hy.given b)
  used b hb := by
    rw [Script.targets_append, List.mem_append] at hb
    have := hx.used b
    have := hy.used b
    simp only [Script.labels_append, usesOf_append, List.mem_append]
    grind
  placed hgiven i b hb := by
    rw [placesOf_append] at hgiven
    rcases Nat.lt_or_ge i log.length with hi | hi
    · rw [List.getElem?_append_left hi] at hb
      rw [List.take_append_of_le_length (Nat.le_of_lt hi)]
      exact hx.placed (fun b hb => hgiven b (List.mem_append_left _ hb)) i b hb
    · rw [List.getElem?_append_right hi] at hb
      have hsize := hx.size
      have hlt : ∀ b ∈ placesOf ys, b < k := fun b hb =>
        hsize ▸ Nat.lt_add_right _ (hgiven b (List.mem_append_right _ hb))
      rw [List.take_append, List.take_of_length_le hi, Script.allocs_append, ← Nat.add_assoc,
        ← hsize]
      exact hy.placed hlt _ b hb
  plain hplain x hx' i hi := by
    rw [List.all_append, Bool.and_eq_true] at hplain
    rcases List.mem_append.mp hx' with hmem | hmem
    · exact hx.plain hplain.1 x hmem i hi
    · exact hy.plain hplain.2 x hmem i hi

theorem Labelled.congr {xs ys : List Step} {n m : Nat} {log : Script} (h : Labelled xs n log m)
    (hplaces : placesOf ys = placesOf xs) (huses : usesOf ys = usesOf xs)
    (hplain : ys.all Step.isPlain = true → xs.all Step.isPlain = true) : Labelled ys n log m :=
  ⟨h.size, hplaces ▸ h.count, hplaces ▸ h.given, huses ▸ h.used, hplaces ▸ h.placed,
    fun hys => h.plain (hplain hys)⟩

theorem labelled_item {x : Step} {item : Item} (n : Nat)
    (hallocs : Script.allocs [item] = 0) (hlabels : Script.labels [item] = x.places)
    (htargets : Script.targets [item] = x.uses)
    (hplain : x.isPlain = true → ∀ i, item.instruction? = some i →
      item.isJump = true ∨ i.opcode.isPlain = true) : Labelled [x] n [item] n where
  size := by rw [hallocs]; rfl
  count b := by simp [hlabels]
  given b hb := by simpa [hlabels] using hb
  used b hb := .inr (by simpa [htargets] using hb)
  placed hgiven i b hb := by
    obtain rfl : i = 0 := by
      have := (List.getElem?_eq_some_iff.mp hb).1
      simpa using this
    have hmem : b ∈ x.places := by
      rw [← hlabels, Script.mem_labels]
      simpa using hb.symm
    exact Nat.lt_add_right _ (hgiven b (by simpa using hmem))
  plain hx y hy := by
    rw [List.mem_singleton] at hy
    exact hy ▸ hplain (by simpa using hx)

theorem Step.Puts.labelled {x : Step} {out : Script} (h : x.Puts out) (n : Nat) :
    Labelled [x] n out n := by
  cases h with
  | emit | named =>
    exact labelled_item n rfl rfl rfl fun h i hi => .inr (by cases hi; exact h)
  | jump op b => exact labelled_item n rfl rfl rfl fun _ _ _ => .inl rfl
  | label | intern => exact labelled_item n rfl rfl rfl fun _ _ hi => by cases hi
  | load arg c =>
    have hintern : Labelled [.intern c] n [.intern c] n :=
      labelled_item n rfl rfl rfl fun _ _ hi => by cases hi
    have hload : Labelled [.load c] n [.load arg c] n :=
      labelled_item n rfl rfl rfl fun _ _ hi => .inr (by cases hi; rfl)
    exact (hintern.append hload).congr rfl rfl fun _ => rfl

theorem labels_replicate_alloc (k : Nat) : Script.labels (List.replicate k .alloc) = [] := by
  induction k with
  | zero => rfl
  | succ k ih => exact ih

theorem labelled_replicate_alloc (n k : Nat) :
    Labelled [] n (List.replicate k .alloc) (n + k) where
  size := by
    rw [Script.allocs, List.countP_replicate]
    rfl
  count b := by simp [labels_replicate_alloc]
  given b hb := by simp at hb
  used b hb := by
    obtain ⟨op, hop⟩ := Script.mem_targets.mp hb
    simp at hop
  placed _ i b hb := by
    have := List.mem_of_getElem? hb
    simp at this
  plain _ x hx i hi := by
    rw [(List.mem_replicate.mp hx).2] at hi
    cases hi

theorem Labelled.run {t : Task} {o : Options} {d : Draft} {n m : Nat} {log : Script}
    (h : Labelled (t.steps o d n) (n + t.labelCount o) log m) :
    Labelled [.run t] n (List.replicate (t.labelCount o) .alloc ++ log) m := by
  have hreg := t.regular o d n
  have hall := (labelled_replicate_alloc n (t.labelCount o)).append h
  have hplaces : placesOf [.run t] = t.places := List.append_nil _
  have huses : usesOf [.run t] = t.uses := List.append_nil _
  have hlabels : Script.labels (List.replicate (t.labelCount o) .alloc ++ log) = log.labels := by
    rw [Script.labels_append, labels_replicate_alloc, List.nil_append]
  refine ⟨hall.size, fun b => ?_, fun b hb => ?_, fun b hb => ?_, fun hgiven => ?_, fun _ => ?_⟩
  · have hcount := h.count b
    have hgiven := hreg.count b
    have hsize := h.size
    rw [hlabels, hplaces]
    grind
  · rw [hlabels]
    exact h.given b (hreg.given b (hplaces ▸ hb))
  · rw [hlabels, huses]
    rcases hall.used b hb with hb | hb
    · exact .inl (hlabels ▸ hb)
    · rcases hreg.used b hb with hb | hb
      · exact .inl (h.given b hb)
      · exact .inr hb
  · intro i b hb
    have hlt := hreg.lt (hplaces ▸ hgiven)
    rcases Nat.lt_or_ge i (t.labelCount o) with hi | hi
    · rw [List.getElem?_append_left (by simpa using hi)] at hb
      have := List.mem_of_getElem? hb
      simp at this
    · rw [List.getElem?_append_right (by simpa using hi)] at hb
      rw [List.take_append, List.take_of_length_le (by simpa using hi), Script.allocs_append,
        ← Nat.add_assoc, ← (labelled_replicate_alloc n (t.labelCount o)).size]
      exact h.placed hlt _ b hb
  · exact hall.plain hreg.plain

/-- What was written for some steps goes on at each label at most once, after it was made. -/
theorem Emits.labelled {o : Options} {d : Draft} {steps : List Step} {n m : Nat} {log : Script}
    (h : Emits o d steps n log m) : Labelled steps n log m := by
  induction h with
  | nil => exact .nil _
  | put hx _ ih => exact (hx.labelled _).append ih
  | @closure d d' body name line serial parts qualname table code steps n m k inner log
      _ _ _ _ _ _ _ ih =>
    have hclosed := closed_closureSteps code parts (qualname.getD code.qualname)
    refine ih.congr ?_ ?_ fun hall => ?_
    · rw [placesOf_append, hclosed.places]
      rfl
    · rw [usesOf_append, hclosed.uses]
      rfl
    · rw [List.all_append, hclosed.plain]
      exact hall
  | run _ _ _ ihsub ih => exact ihsub.run.append ih

theorem Emits.le {o : Options} {d : Draft} {steps : List Step} {n m : Nat} {log : Script}
    (h : Emits o d steps n log m) : n ≤ m :=
  h.labelled.size ▸ Nat.le_add_right _ _

theorem Draft.Writes.isJump {d d' : Draft} {log : Script} (h : d.Writes log d') {op : Opcode}
    {b : BlockId} (hjump : Item.jump op b ∈ log) : op.isJump = true := by
  induction h with
  | nil => simp at hjump
  | quiet _ _ _ _ _ _ ih => exact ih hjump
  | alloc _ ih | label _ _ ih | intern _ _ ih => exact ih (by simpa using hjump)
  | code _ _ hr ih =>
    rcases List.mem_append.mp hjump with hjump | hjump
    · exact ih hjump
    · exact (List.mem_singleton.mp hjump ▸ hr :)

theorem Emits.sound {o : Options} {d d' : Draft} {steps : List Step} {log : Script} {k : Nat}
    (h : Emits o d steps 1 log k) (hclosed : Closed steps) (hw : d.Writes log d')
    (hsize : d.blocks.size = 1) : log.Sound d'.blocks.size := by
  have hl := h.labelled
  have hd' : d'.blocks.size = k := by rw [hw.size_blocks, hsize, hl.size]
  have hcount (b : BlockId) : log.labels.count b ≤ if 1 ≤ b ∧ b < k then 1 else 0 := by
    have := hl.count b
    rwa [hclosed.places, List.count_nil, Nat.zero_add] at this
  have hlabel (b : BlockId) (hb : b ∈ log.labels) : 1 ≤ b ∧ b < k := by
    have hpos := List.count_pos_iff.mpr hb
    have := hcount b
    grind
  have htargets (b : BlockId) (hb : b ∈ log.targets) : b ∈ log.labels := by
    rcases hl.used b hb with hb | hb
    · exact hb
    · rw [hclosed.uses] at hb
      cases hb
  refine ⟨⟨List.nodup_cons.mpr ⟨fun h0 => ?_, ?_⟩, ?_⟩, fun x hx i hi => ?_,
    fun b hb => hd' ▸ (hlabel b hb).2, htargets⟩
  · exact absurd (hlabel _ h0).1 (by decide)
  · rw [List.nodup_iff_count_le_one]
    intro b
    have := hcount b
    grind
  · exact hl.placed (by simp [hclosed.places])
  · cases x with
    | jump op b =>
      cases hi
      have hop := hw.isJump hx
      refine ⟨?_, hop.symm, ?_, fun _ => rfl⟩
      · rintro rfl
        cases hop
      · rintro t ⟨⟩
        rw [hd']
        exact (hlabel b (htargets b (Script.mem_targets.mpr ⟨op, hx⟩))).2
    | label | alloc | intern => cases hi
    | emit | named | load =>
      have hplain := (hl.plain hclosed.plain _ hx i hi).resolve_left Bool.false_ne_true
      cases hi
      simp only [Opcode.isPlain, Bool.and_eq_true, Bool.not_eq_true', decide_eq_true_eq] at hplain
      exact ⟨hplain.2, hplain.1.symm, by simp, by simp [hplain.1]⟩

end Wordcode

import Wordcode.Proofs.Labels
import Wordcode.Proofs.LowerStmt

/-!
# Code objects that stand in a program

A constant of a program may be a code object. Such a code object is not made by compiling the
program; what holds of all of them holds of every code constant of a script that no nested scope of
it was made into.
-/

set_option autoImplicit false

namespace Wordcode

open Step (value branch simple)

/-- The expressions directly inside a statement that are compiled in the same scope. -/
def Stmt.exprs : Stmt → List Expr
  | .functionDef _ _ args _ decorators returns =>
    decorators ++ args.defaults ++ args.kwDefaults.filterMap id ++
      (args.annotated returns).map Prod.snd
  | .classDef _ _ bases keywords _ decorators =>
    decorators ++ bases ++ keywords.map Keyword.value
  | .ret _ e => e.toList
  | .delete _ targets => targets
  | .assign _ targets e => e :: targets
  | .augAssign _ target _ e => [target, e]
  | .raise _ exc cause => exc.toList ++ cause.toList
  | .assert _ test msg => test :: msg.toList
  | .expr _ e => [e]
  | .forLoop _ target iter _ _ => [target, iter]
  | .whileLoop _ test _ _ | .ifElse _ test _ _ => [test]
  | .tryExcept _ _ handlers _ _ => handlers.filterMap Handler.type
  | .importNames .. | .importFrom .. | .global .. | .nonlocal .. | .pass _ | .breakLoop _
  | .continueLoop _ => []

/-- The statements directly inside a statement. -/
def Stmt.inner : Stmt → List Stmt
  | .functionDef _ _ _ body _ _ | .classDef _ _ _ _ body _ => body
  | .forLoop _ _ _ body orelse | .whileLoop _ _ body orelse | .ifElse _ _ body orelse =>
    body ++ orelse
  | .tryExcept _ body handlers orelse finalbody =>
    body ++ handlers.flatMap Handler.body ++ orelse ++ finalbody
  | _ => []

/-- The code object stands in the expression as a constant. -/
inductive Expr.Quotes (k : CodeObject) : Expr → Prop where
  | constant {line : UInt32} : Quotes k (.constant line (.code k))
  | part {e e' : Expr} : e' ∈ e.parts → Quotes k e' → Quotes k e

inductive Stmt.Quotes (k : CodeObject) : Stmt → Prop where
  | expr {s : Stmt} {e : Expr} : e ∈ s.exprs → e.Quotes k → Quotes k s
  | inner {s s' : Stmt} : s' ∈ s.inner → Quotes k s' → Quotes k s

def Program.Quotes (p : Program) (k : CodeObject) : Prop :=
  match p with
  | .module body | .interactive body => ∃ s ∈ body, s.Quotes k
  | .expression e => e.Quotes k

/-- The statements that are compiled again where control leaves the frames. -/
def Frame.finalBodies : List Frame → List Stmt
  | [] => []
  | .finallyTry body :: outer => body ++ finalBodies outer
  | _ :: outer => finalBodies outer

namespace Task

def expressions : Task → List Expr
  | .expr e _ => [e]
  | .all es | .operands _ _ es | .tests _ _ _ _ es | .links _ _ _ _ es | .chain _ _ es
  | .filters _ es | .storeAll es => es
  | .loop input target conditions rest element _ =>
    element :: target :: conditions ++ input.toList ++
      rest.flatMap fun g => g.target :: g.iter :: g.filters
  | .inner element _ gs => element :: gs.flatMap fun g => g.target :: g.iter :: g.filters
  | .map entries | .extendMap entries => entries.flatMap fun p => [p.1, p.2]
  | .tryExcept _ _ hs _ | .handlers _ _ hs => hs.filterMap Handler.type
  | .chainEnd .. | .block | .stmt .. | .stmts .. | .handler .. | .unwind .. => []

def statements : Task → List Stmt
  | .stmt frames s => s :: Frame.finalBodies frames
  | .stmts frames ss => ss ++ Frame.finalBodies frames
  | .tryExcept frames body hs orelse =>
    body ++ hs.flatMap Handler.body ++ orelse ++ Frame.finalBodies frames
  | .handlers frames _ hs => hs.flatMap Handler.body ++ Frame.finalBodies frames
  | .handler frames _ _ body => body ++ Frame.finalBodies frames
  | .unwind _ _ frames => Frame.finalBodies frames
  | _ => []

end Task

def Body.expressions : Body → List Expr
  | .lambda e => [e]
  | .comprehension target filters rest element =>
    element :: target :: filters ++ rest.flatMap fun g => g.target :: g.iter :: g.filters
  | .function _ | .classBody _ => []

def Body.statements : Body → List Stmt
  | .function body | .classBody body => body
  | .lambda _ | .comprehension .. => []

/-- The code object stands in one of the expressions or statements. -/
def QuotesIn (es : List Expr) (ss : List Stmt) (k : CodeObject) : Prop :=
  (∃ e ∈ es, e.Quotes k) ∨ ∃ s ∈ ss, s.Quotes k

/-- The code object is a constant of the step itself or stands in what the step is made from. -/
def Step.Quotes (k : CodeObject) : Step → Prop
  | .load c | .intern c => c = .code k
  | .run t => QuotesIn t.expressions t.statements k
  | .closure body .. => QuotesIn body.expressions body.statements k
  | .emit .. | .named .. | .jump .. | .label _ | .refuse => False

def QuotesOf (steps : List Step) (k : CodeObject) : Prop := ∃ x ∈ steps, x.Quotes k

section Schemes

variable {k : CodeObject}

@[simp] theorem not_quotesOf_nil : ¬ QuotesOf [] k := by simp [QuotesOf]

@[simp] theorem quotesOf_cons {x : Step} {xs : List Step} :
    QuotesOf (x :: xs) k ↔ x.Quotes k ∨ QuotesOf xs k := by
  simp [QuotesOf]

@[simp] theorem quotesOf_append {xs ys : List Step} :
    QuotesOf (xs ++ ys) k ↔ QuotesOf xs k ∨ QuotesOf ys k := by
  simp [QuotesOf, or_and_right, exists_or]

theorem Expr.quotes_iff {e : Expr} : e.Quotes k ↔
    (∃ line, e = .constant line (.code k)) ∨ ∃ e' ∈ e.parts, e'.Quotes k := by
  constructor
  · rintro (⟨⟩ | ⟨hpart, h⟩)
    · exact .inl ⟨_, rfl⟩
    · exact .inr ⟨_, hpart, h⟩
  · rintro (⟨line, rfl⟩ | ⟨e', hpart, h⟩)
    · exact .constant
    · exact .part hpart h

theorem Stmt.quotes_iff {s : Stmt} : s.Quotes k ↔ QuotesIn s.exprs s.inner k := by
  constructor
  · rintro (⟨he, h⟩ | ⟨hs, h⟩)
    · exact .inl ⟨_, he, h⟩
    · exact .inr ⟨_, hs, h⟩
  · rintro (⟨e, he, h⟩ | ⟨s', hs, h⟩)
    · exact .expr he h
    · exact .inner hs h

attribute [local simp] Step.Quotes Task.expressions Task.statements QuotesIn Body.expressions
  Body.statements Build.nameTuple compareStep

@[simp] theorem quotesOf_optionSteps {e : Option Expr} :
    QuotesOf (optionSteps e) k ↔ ∃ e' ∈ e, e'.Quotes k := by
  cases e <;> simp [optionSteps]

@[simp] theorem quotesOf_callSteps {extra : Nat} {args : List Expr} {ks : List Keyword} :
    QuotesOf (callSteps extra args ks) k ↔
      (∃ e ∈ args, e.Quotes k) ∨ ∃ kw ∈ ks, kw.value.Quotes k := by
  cases ks <;> simp [callSteps]

@[simp] theorem quotesOf_defaultSteps {a : Arguments} : QuotesOf a.defaultSteps k ↔
    (∃ e ∈ a.defaults, e.Quotes k) ∨ ∃ e ∈ a.kwDefaultValues, e.Quotes k := by
  unfold Arguments.defaultSteps
  cases a.defaults <;> cases a.kwDefaultNames <;> simp

@[simp] theorem quotesOf_annotationSteps {a : Arguments} {returns : Option Expr} :
    QuotesOf (a.annotationSteps returns) k ↔
      ∃ e ∈ (a.annotated returns).map Prod.snd, e.Quotes k := by
  unfold Arguments.annotationSteps
  cases a.annotated returns <;> simp

@[simp] theorem quotesOf_sequenceSteps {build : Opcode} {ctx : Ctx} {es : List Expr} :
    QuotesOf (sequenceSteps build ctx es) k ↔ ∃ e ∈ es, e.Quotes k := by
  cases ctx <;> simp [sequenceSteps]

theorem mem_kwDefaults_of_mem_values {a : Arguments} {e : Expr} (h : e ∈ a.kwDefaultValues) :
    some e ∈ a.kwDefaults := by
  obtain ⟨p, hp, hsome⟩ := List.mem_filterMap.mp h
  exact hsome ▸ (List.of_mem_zip hp).2

theorem Expr.quotes_of_valueSteps {d : Draft} {e : Expr} (h : QuotesOf (e.valueSteps d) k) :
    e.Quotes k := by
  revert h
  rw [Expr.quotes_iff]
  fun_cases Expr.valueSteps d e <;> intro h <;> simp at h
  case case6 line args body =>
    have hkw (e : Expr) (he : e ∈ args.kwDefaultValues) := mem_kwDefaults_of_mem_values he
    simp only [Expr.parts, List.mem_cons, List.mem_append, List.mem_filterMap, id]
    grind
  case case7 line keys values =>
    obtain ⟨e, a, b, hmem, he, hk⟩ : ∃ e a b, (a, b) ∈ keys.zip values ∧ (e = a ∨ e = b) ∧
        e.Quotes k := by
      rcases h with ⟨e, ⟨a, b, hmem, he⟩, hk⟩ | ⟨e, ⟨a, b, hmem, he⟩, hk⟩
      · exact ⟨e, a, b, List.mem_of_mem_take hmem, he, hk⟩
      · exact ⟨e, a, b, List.mem_of_mem_drop hmem, he, hk⟩
    have hzip := List.of_mem_zip hmem
    simp only [Expr.parts, List.mem_append]
    grind
  case case9 line elt target iter filters rest =>
    simp only [Expr.parts, List.flatMap_cons, List.mem_cons, List.mem_append, List.mem_flatMap]
    grind
  case case14 line line' object attr args =>
    rcases h with h | ⟨e, he, h⟩
    · refine .inr ⟨.attribute line' object attr .load, by simp [Expr.parts], .part ?_ h⟩
      simp [Expr.parts]
    · exact .inr ⟨e, by simp [Expr.parts, he], h⟩
  case case16 line c => exact .inl ⟨line, h ▸ rfl⟩
  all_goals
    simp only [Expr.parts, List.mem_cons, List.mem_append, List.mem_map,
      Option.mem_toList]
    grind

theorem Expr.quotes_of_steps {d : Draft} {n : Nat} {e : Expr} {dest : Dest}
    (h : QuotesOf (e.steps d n dest) k) : e.Quotes k := by
  have htest (dest : Dest) : ¬ QuotesOf dest.testSteps k := by
    cases dest <;> simp [Dest.testSteps]
  revert h
  fun_cases Expr.steps d n e dest <;> intro h
  case case3 target _ _ _ =>
    have hlabel : ¬ QuotesOf (if n = target then [] else [Step.label n]) k := by
      split <;> simp
    rw [Expr.quotes_iff]
    simp [hlabel] at h
    exact .inr h
  case case7 =>
    rw [quotesOf_append] at h
    exact quotes_of_valueSteps (h.resolve_right (htest dest))
  all_goals
    rw [Expr.quotes_iff]
    simp [htest] at h
    simp only [Expr.parts, List.mem_cons]
    grind

theorem quotesOf_mapSteps {entries : List (Expr × Expr)} (h : QuotesOf (mapSteps entries) k) :
    ∃ p ∈ entries, p.1.Quotes k ∨ p.2.Quotes k := by
  unfold mapSteps at h
  simp only at h
  split at h
  · split at h <;> simp at h <;> grind
  · simp at h
    grind

theorem not_quotesOf_clearSteps {d : Draft} {x : String} : ¬ QuotesOf (clearSteps d x) k := by
  simp [clearSteps]

theorem not_quotesOf_leaveSteps {d : Draft} {keep : Bool} {f : Frame} :
    ¬ QuotesOf (leaveSteps d keep f) k := by
  cases f with
  | handlerCleanup x => cases x <;> cases keep <;> simp [leaveSteps, clearSteps]
  | _ => cases keep <;> simp [leaveSteps]

theorem not_quotesOf_replicate {m : Nat} {op : Opcode} {arg : UInt32} :
    ¬ QuotesOf (List.replicate m (.emit op arg)) k := by
  rintro ⟨x, hx, h⟩
  rw [(List.mem_replicate.mp hx).2] at h
  exact h

attribute [local simp] not_quotesOf_clearSteps not_quotesOf_leaveSteps not_quotesOf_replicate

theorem not_quotesOf_importPartSteps {parts : List String} :
    ¬ QuotesOf (importPartSteps parts) k := by
  induction parts with
  | nil => simp [importPartSteps]
  | cons part rest ih => cases rest <;> simp_all [importPartSteps]

theorem not_quotesOf_bindImportSteps {d : Draft} {a : Alias} :
    ¬ QuotesOf (bindImportSteps d a) k := by
  unfold bindImportSteps
  split <;> simp [not_quotesOf_importPartSteps]

theorem not_quotesOf_flatMap {α : Type} {f : α → List Step} (h : ∀ a, ¬ QuotesOf (f a) k)
    (as : List α) : ¬ QuotesOf (as.flatMap f) k := by
  rintro ⟨x, hx, hk⟩
  obtain ⟨a, _, hxa⟩ := List.mem_flatMap.mp hx
  exact h a ⟨x, hxa, hk⟩

theorem Stmt.quotes_of_steps {o : Options} {d : Draft} {frames : List Frame} {n : Nat} {s : Stmt}
    (h : QuotesOf (s.steps o d frames n) k) :
    QuotesIn s.exprs (s.inner ++ Frame.finalBodies frames) k := by
  cases s with
  | functionDef line name args body decorators returns =>
    have hkw (e : Expr) (he : e ∈ args.kwDefaultValues) := mem_kwDefaults_of_mem_values he
    simp only [Stmt.steps, quotesOf_cons, quotesOf_append, quotesOf_defaultSteps,
      quotesOf_annotationSteps] at h
    simp at h
    simp only [QuotesIn, Stmt.exprs, Stmt.inner, List.mem_append, List.mem_filterMap, List.mem_map,
      id]
    grind
  | classDef line name bases keywords body decorators =>
    simp [Stmt.steps] at h
    simp only [QuotesIn, Stmt.exprs, Stmt.inner, List.mem_append, List.mem_map]
    grind
  | importNames line names =>
    refine absurd h (not_quotesOf_flatMap (fun a => ?_) names)
    simp [not_quotesOf_bindImportSteps]
  | importFrom line origin names level =>
    have hbind : ¬ QuotesOf (bindFromSteps d names) k :=
      not_quotesOf_flatMap (fun a => by simp) names
    simp only [Stmt.steps, importFromSteps, quotesOf_append] at h
    split at h <;> simp [hbind] at h
  | ret line e =>
    cases e with
    | none =>
      simp [Stmt.steps] at h
      simp only [QuotesIn, Stmt.exprs, Stmt.inner, List.mem_append]
      grind
    | some e =>
      simp only [Stmt.steps] at h
      split at h <;> simp at h
      all_goals
        simp only [QuotesIn, Stmt.exprs, Stmt.inner, List.mem_append,
          Option.mem_toList]
        grind
  | augAssign line target op e =>
    simp only [Stmt.steps, augmentedSteps] at h
    simp only [QuotesIn, Stmt.exprs, Stmt.inner, List.mem_cons]
    split at h <;> simp at h
    · rcases h with h | h
      · exact .inl ⟨_, .inl rfl, .part (by simp [Expr.parts]) h⟩
      · exact .inl ⟨e, .inr (.inl rfl), h⟩
    · rcases h with h | h | h
      · exact .inl ⟨_, .inl rfl, .part (by simp [Expr.parts]) h⟩
      · exact .inl ⟨_, .inl rfl, .part (by simp [Expr.parts]) h⟩
      · exact .inl ⟨e, .inr (.inl rfl), h⟩
    · exact .inl ⟨e, .inr (.inl rfl), h⟩
  | raise line exc cause =>
    simp only [Stmt.steps] at h
    simp only [QuotesIn, Stmt.exprs, Stmt.inner, List.mem_append, Option.mem_toList]
    cases exc <;> cases cause <;> simp [raiseSteps] at h <;> grind
  | assert line test msg =>
    simp only [Stmt.steps] at h
    simp only [QuotesIn, Stmt.exprs, Stmt.inner, List.mem_cons, Option.mem_toList]
    split at h
    · simp at h
    · cases msg <;> simp at h <;> grind
  | expr line e =>
    simp only [Stmt.steps] at h
    simp only [QuotesIn, Stmt.exprs, List.mem_cons]
    split at h <;> simp at h
    exact .inl ⟨e, .inl rfl, h⟩
  | breakLoop | continueLoop =>
    simp only [Stmt.steps] at h
    simp only [QuotesIn, Stmt.exprs, Stmt.inner, List.nil_append]
    split at h <;> simp at h <;> grind
  | ifElse line test body orelse =>
    simp only [QuotesIn, Stmt.exprs, Stmt.inner, List.mem_append, List.mem_cons]
    cases orelse <;> simp [Stmt.steps] at h <;> grind
  | tryExcept line body handlers orelse finalbody =>
    simp only [QuotesIn, Stmt.exprs, Stmt.inner, List.mem_append, List.mem_flatMap,
      List.mem_filterMap]
    cases finalbody with
    | nil =>
      simp [Stmt.steps] at h
      grind
    | cons s ss =>
      simp only [Stmt.steps] at h
      split at h <;> simp [Frame.finalBodies] at h <;> grind
  | delete | assign | «global» | «nonlocal» | pass | forLoop | whileLoop =>
    simp [Stmt.steps, Frame.finalBodies] at h
    try
      simp only [QuotesIn, Stmt.exprs, Stmt.inner, List.mem_append, List.mem_cons]
      grind

theorem Task.quotes_of_steps {o : Options} {d : Draft} {n : Nat} {t : Task}
    (h : QuotesOf (t.steps o d n) k) : QuotesIn t.expressions t.statements k := by
  cases t with
  | expr e dest => exact .inl ⟨e, by simp, Expr.quotes_of_steps h⟩
  | stmt frames s =>
    rcases Stmt.quotes_of_steps h with ⟨e, he, h⟩ | ⟨s', hs', h⟩
    · exact .inr ⟨s, List.mem_cons_self, .expr he h⟩
    · rcases List.mem_append.mp hs' with hs' | hs'
      · exact .inr ⟨s, List.mem_cons_self, .inner hs' h⟩
      · exact .inr ⟨s', List.mem_cons_of_mem _ hs', h⟩
  | map entries =>
    obtain ⟨p, hp, h | h⟩ := quotesOf_mapSteps h
    · exact .inl ⟨p.1, List.mem_flatMap.mpr ⟨p, hp, by simp⟩, h⟩
    · exact .inl ⟨p.2, List.mem_flatMap.mpr ⟨p, hp, by simp⟩, h⟩
  | all es | storeAll es | operands _ _ es | tests _ _ _ _ es | filters _ es =>
    rcases es with _ | ⟨_, _ | ⟨_, _⟩⟩ <;> simp [Task.steps] at h <;> simp <;> grind
  | links _ _ _ ops es =>
    rcases ops with _ | ⟨_, _⟩ <;> rcases es with _ | ⟨_, _ | ⟨_, _⟩⟩ <;>
      simp [Task.steps] at h <;> simp <;> grind
  | chain => simpa [Task.steps] using h
  | chainEnd cleanup dest =>
    rcases dest with _ | ⟨_, _ | _⟩ <;> simp [Task.steps, Dest.cleanupSteps] at h
  | loop input target conditions rest element depth =>
    cases input <;> cases rest <;> simp [Task.steps, inputSteps] at h <;>
      simp only [QuotesIn, Task.expressions, List.flatMap_cons, List.mem_append, List.mem_cons,
        List.mem_flatMap, Option.mem_toList] <;> grind
  | inner element depth gs =>
    rcases gs with _ | ⟨⟨_, _, _⟩, _⟩ <;> simp [Task.steps] at h <;>
      simp only [QuotesIn, Task.expressions, List.flatMap_cons, List.mem_append, List.mem_cons,
        List.mem_flatMap] <;> grind
  | extendMap entries =>
    have hsub {l : List (Expr × Expr)} (hl : l ⊆ entries)
        (h : QuotesIn (l.flatMap fun p => [p.1, p.2]) [] k) :
        QuotesIn (entries.flatMap fun p => [p.1, p.2]) [] k := by
      rcases h with ⟨e, he, h⟩ | ⟨_, hs, _⟩
      · obtain ⟨p, hp, he⟩ := List.mem_flatMap.mp he
        exact .inl ⟨e, List.mem_flatMap.mpr ⟨p, hl hp, he⟩, h⟩
      · cases hs
    cases entries with
    | nil => simp [Task.steps] at h
    | cons p entries =>
      simp only [Task.steps, quotesOf_cons, not_quotesOf_nil, or_false] at h
      rcases h with h | h | h
      · exact hsub (List.take_subset _ _) h
      · exact h.elim
      · exact hsub (List.drop_subset _ _) h
  | block => simp [Task.steps] at h
  | stmts frames ss =>
    cases ss <;> simp [Task.steps] at h
    simp
    grind
  | tryExcept frames body hs orelse =>
    simp [Task.steps, Frame.finalBodies] at h
    simp only [QuotesIn, Task.expressions, Task.statements, List.mem_append, List.mem_flatMap,
      List.mem_filterMap]
    grind
  | handlers frames done hs =>
    cases hs with
    | nil => simp [Task.steps] at h
    | cons hd hs =>
      obtain ⟨type, name, body, line⟩ := hd
      cases type <;> simp [Task.steps] at h <;>
        simp only [QuotesIn, Task.expressions, Task.statements, List.flatMap_cons, List.mem_append,
          List.mem_flatMap, List.filterMap_cons, List.mem_cons, List.mem_filterMap] <;> grind
  | handler frames done name body =>
    cases name <;> simp [Task.steps, Frame.finalBodies] at h <;>
      simp only [QuotesIn, Task.statements, List.mem_append] <;> grind
  | unwind keep toLoop frames =>
    cases frames with
    | nil => simp [Task.steps] at h
    | cons f outer =>
      simp only [Task.steps] at h
      split at h
      · simp at h
      · simp only [quotesOf_append, not_quotesOf_leaveSteps, false_or] at h
        cases f <;> simp [Frame.finalBodies] at h ⊢
        all_goals first | exact h | skip
        cases keep <;> simp [Frame.finalBodies] at h <;> grind

theorem not_quotesOf_docSteps {o : Options} {d : Draft} {body : List Stmt} :
    ¬ QuotesOf (docSteps o d body) k := by
  unfold docSteps
  split <;> simp

theorem Body.quotes_of_steps {o : Options} {d : Draft} {body : Body}
    (h : QuotesOf (body.steps o d) k) : QuotesIn body.expressions body.statements k := by
  have hdoc (s : Stmt) (ss : List Stmt) (hs : s ∈ Build.withoutDocstring o ss) : s ∈ ss :=
    mem_of_mem_withoutDocstring hs
  cases body with
  | lambda e =>
    simp only [Body.steps] at h
    cases hgen : d.isGenerator <;> simp [hgen] at h <;> simp [h]
  | comprehension target filters rest element =>
    simp [Body.steps] at h
    simp only [QuotesIn, Body.expressions, List.mem_append, List.mem_cons, List.mem_flatMap]
    grind
  | function body =>
    have hnone : (Build.keptDocstring? o body).elim Constant.none Constant.str ≠ .code k := by
      cases Build.keptDocstring? o body <;> simp
    simp [Body.steps, hnone, Frame.finalBodies] at h
    simp only [QuotesIn, Body.statements]
    grind
  | classBody body =>
    have hend : ¬ QuotesOf (if d.needsClassCell then
        [.named .loadClosure Draft.classCell, simple .dupTop, Step.name d "__classcell__" .store]
        else [.load .none]) k := by
      split <;> simp
    simp [Body.steps, not_quotesOf_docSteps, hend, Frame.finalBodies] at h
    simp only [QuotesIn, Body.statements]
    grind

theorem quotes_of_programSteps {o : Options} {d : Draft} {p : Program}
    (h : QuotesOf (p.steps o d) k) : p.Quotes k := by
  cases p with
  | module body =>
    simp [Program.steps, not_quotesOf_docSteps, Frame.finalBodies] at h
    obtain ⟨s, hs, h⟩ := h
    exact ⟨s, mem_of_mem_withoutDocstring hs, h⟩
  | expression e =>
    simp [Program.steps] at h
    exact h
  | interactive body => simp [Program.steps] at h

end Schemes

/-- A table stands inside another one. -/
inductive ScopeTable.Inside (t : ScopeTable) : ScopeTable → Prop where
  | child {u : ScopeTable} : u ∈ t.children → Inside t u
  | deeper {u v : ScopeTable} : Inside t u → v ∈ u.children → Inside t v

end Wordcode

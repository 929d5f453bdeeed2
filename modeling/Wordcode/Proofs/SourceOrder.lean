import Wordcode.Proofs.EnteringStmt

/-!
# The order of nested scopes

Nested scopes are entered in the order in which code is evaluated. That is the order in which they
are written unless two parts of a construct that are written the other way round both create
scopes: what a condition decides on and the condition, targets and the value, the element of a
comprehension and its loops, and parameters whose defaults and annotations are evaluated apart.
-/

set_option autoImplicit false

namespace Wordcode

open Build

theorem Expr.scopesOf_eq_zero_iff {es : List Expr} :
    Expr.scopesOf es = 0 ↔ ∀ e ∈ es, e.scopeCount = 0 := by
  induction es with
  | nil => simp
  | cons e es ih => rw [scopesOf_cons, Nat.add_eq_zero_iff, ih, List.forall_mem_cons]

theorem Expr.visits_eq_nil (r : Reading) {e : Expr} (h : e.scopeCount = 0) : e.visits r = [] := by
  induction hn : sizeOf e using Nat.strongRecOn generalizing e with
  | ind n ih =>
    subst hn
    rw [scopeCount_eq, Nat.add_eq_zero_iff] at h
    have hparts : ∀ e' ∈ e.partsIn r, e'.visits r = [] := fun e' he' => by
      have hmem := mem_operands_of_mem_partsIn he'
      refine ih _ (sizeOf_lt_of_mem_operands hmem) ?_ rfl
      exact scopesOf_eq_zero_iff.mp h.2 _ hmem
    have hopens : e.opens = [] ∧ e.closes = [] := by
      cases e with
      | lambda | listComp => cases h.1
      | _ => exact ⟨rfl, rfl⟩
    rw [visits_eq, hopens.1, hopens.2]
    simpa [visitsOf] using hparts

theorem Expr.visitsOf_eq_nil (r : Reading) {es : List Expr} (h : ∀ e ∈ es, e.scopeCount = 0) :
    Expr.visitsOf r es = [] :=
  List.flatMap_eq_nil_iff.mpr fun e he => Expr.visits_eq_nil r (h e he)

/-- Of two groups of expressions at most one creates scopes. -/
def Expr.Apart (xs ys : List Expr) : Prop :=
  (∀ e ∈ xs, e.scopeCount = 0) ∨ ∀ e ∈ ys, e.scopeCount = 0

def Expr.conditionApart : Expr → Prop
  | .ifExp _ test body _ => Expr.Apart [test] [body]
  | _ => True

/-- No condition in an expression creates scopes and what it decides on too. -/
inductive Expr.Straight : Expr → Prop where
  | intro {e : Expr} : e.conditionApart → (∀ e' ∈ e.operands, Straight e') → Straight e

/-- Annotations of parameters create no scopes, or defaults create none and the annotations of
parameters in front of the slash or behind it create none. -/
def Arguments.Apart (a : Arguments) (returns : Option Expr) : Prop :=
  a.defaults.length ≤ a.posonly.length + a.params.length ∧
    Expr.Apart (a.defaults ++ a.kwDefaultValues) ((a.annotated returns).map Prod.snd) ∧
      Expr.Apart (a.posonly.filterMap Param.annotation) (a.params.filterMap Param.annotation)

def Stmt.partsApart : Stmt → Prop
  | .functionDef _ _ args _ _ returns => args.Apart returns
  | .assign _ targets value => Expr.Apart [value] targets
  | .forLoop _ target iter _ _ => Expr.Apart [iter] [target]
  | _ => True

inductive Stmt.Straight : Stmt → Prop where
  | intro {s : Stmt} : s.partsApart → (∀ e ∈ s.exprs, e.Straight) → (∀ s' ∈ s.block, Straight s') →
    Straight s

def Body.Straight : Body → Prop
  | .lambda e => e.Straight
  | .comprehension target filters rest element =>
    Expr.Apart (target :: (filters ++ rest.flatMap (Generator.partsIn .evaluated))) [element] ∧
      (∀ g ∈ rest, Expr.Apart [g.iter] [g.target]) ∧
        ∀ e ∈ target :: (filters ++ rest.flatMap (Generator.partsIn .evaluated)) ++ [element],
          e.Straight
  | .function body | .classBody body => ∀ s ∈ body, s.Straight

def Program.Straight : Program → Prop
  | .module body | .interactive body => ∀ s ∈ body, s.Straight
  | .expression e => e.Straight

section

variable {xs ys : List Expr}

theorem Expr.visitsOf_congr (h : ∀ e ∈ xs, e.visits .written = e.visits .evaluated) :
    Expr.visitsOf .written xs = Expr.visitsOf .evaluated xs := by
  unfold visitsOf
  rw [List.flatMap_def, List.flatMap_def, List.map_congr_left h]

/-- Where at most one of two groups creates scopes their order makes no difference. -/
theorem Expr.visitsOf_swap (h : Expr.Apart xs ys)
    (hxs : ∀ e ∈ xs, e.visits .written = e.visits .evaluated)
    (hys : ∀ e ∈ ys, e.visits .written = e.visits .evaluated) :
    Expr.visitsOf .written (Reading.written.swap xs ys) =
      Expr.visitsOf .evaluated (Reading.evaluated.swap xs ys) := by
  simp only [Reading.swap, visitsOf_append, visitsOf_congr hxs, visitsOf_congr hys]
  rcases h with h | h
  · rw [visitsOf_eq_nil .evaluated h, List.append_nil, List.nil_append]
  · rw [visitsOf_eq_nil .evaluated h, List.append_nil, List.nil_append]

end

theorem Expr.visits_written_eq {e : Expr} (h : e.Straight) :
    e.visits .written = e.visits .evaluated := by
  induction h with
  | @intro e hcondition _ ih =>
    have hparts (hsame : e.partsIn .written = e.partsIn .evaluated) :
        e.visits .written = e.visits .evaluated := by
      rw [visits_eq, visits_eq, hsame, visitsOf_congr fun e' he' =>
        ih e' (mem_operands_of_mem_partsIn he')]
    cases e with
    | ifExp line test body orelse =>
      have hswap := visitsOf_swap hcondition
        (fun e he => ih e (by simp [operands, parts, List.mem_singleton.mp he]))
        (fun e he => ih e (by simp [operands, parts, List.mem_singleton.mp he]))
      have horelse := ih orelse (by simp [operands, parts])
      simp only [visits_eq _ (.ifExp ..), partsIn, visitsOf_append, visitsOf_cons, visitsOf_nil,
        hswap, horelse]
    | listComp line elt gs => cases gs <;> exact hparts rfl
    | _ => exact hparts rfl

section

variable {r : Reading}

theorem Expr.visitsOf_flatMap_congr {α : Type} {f g : α → List Expr} {xs : List α}
    (h : ∀ x ∈ xs, Expr.visitsOf r (f x) = Expr.visitsOf r (g x)) :
    Expr.visitsOf r (xs.flatMap f) = Expr.visitsOf r (xs.flatMap g) := by
  induction xs with
  | nil => rfl
  | cons x xs ih =>
    rw [List.forall_mem_cons] at h
    rw [List.flatMap_cons, List.flatMap_cons, visitsOf_append, visitsOf_append, h.1, ih h.2]

theorem Param.map_fst_beside (ps : List Param) (xs : List (Option Expr)) :
    (beside ps xs).map Prod.fst = ps :=
  List.map_fst_zip (by simp only [List.length_append, List.length_replicate]; omega)

/-- The places without a default add nothing. -/
theorem Param.filterMap_snd_beside (ps : List Param) (xs : List (Option Expr)) :
    (beside ps xs).filterMap Prod.snd = (ps.zip xs).filterMap Prod.snd := by
  induction ps generalizing xs with
  | nil => rfl
  | cons p ps ih =>
    cases xs with
    | nil => simpa [beside, List.replicate_succ] using ih []
    | cons x xs => cases x <;> simpa [beside] using ih xs

variable {ps : List Param} {xs : List (Option Expr)}

theorem Param.visitsOf_annotations (h : ∀ e ∈ (ps.zip xs).filterMap Prod.snd, e.scopeCount = 0) :
    Expr.visitsOf r ((Param.beside ps xs).flatMap Param.written) =
      Expr.visitsOf r (ps.filterMap Param.annotation) := by
  have hannotations : ps.filterMap Param.annotation =
      (beside ps xs).flatMap fun q => (Param.annotation q.1).toList := by
    rw [← List.flatMap_map Prod.fst fun p => (Param.annotation p).toList, map_fst_beside,
      List.filterMap_eq_flatMap_toList]
  rw [hannotations]
  refine Expr.visitsOf_flatMap_congr fun q hq => ?_
  have hnone : Expr.visitsOf r q.2.toList = [] := by
    refine Expr.visitsOf_eq_nil r fun e he => h e ?_
    rw [← filterMap_snd_beside]
    exact List.mem_filterMap.mpr ⟨q, hq, Option.mem_toList.mp he⟩
  rw [written, Expr.visitsOf_append, hnone, List.append_nil]

theorem Param.visitsOf_defaults (h : ∀ e ∈ ps.filterMap Param.annotation, e.scopeCount = 0) :
    Expr.visitsOf r ((Param.beside ps xs).flatMap Param.written) =
      Expr.visitsOf r ((ps.zip xs).filterMap Prod.snd) := by
  rw [← filterMap_snd_beside, List.filterMap_eq_flatMap_toList]
  refine Expr.visitsOf_flatMap_congr fun q hq => ?_
  have hnone : Expr.visitsOf r (Param.annotation q.1).toList = [] := by
    refine Expr.visitsOf_eq_nil r fun e he => h e ?_
    rw [← map_fst_beside ps xs]
    exact List.mem_filterMap.mpr ⟨q.1, List.mem_map_of_mem hq, Option.mem_toList.mp he⟩
  rw [written, Expr.visitsOf_append, hnone, List.nil_append]

end

theorem Arguments.zip_positional (a : Arguments)
    (h : a.defaults.length ≤ a.posonly.length + a.params.length) :
    ((a.posonly ++ a.params).zip
      (List.replicate (a.posonly.length + a.params.length - a.defaults.length) none ++
        a.defaults.map some)).filterMap Prod.snd = a.defaults := by
  have hlength : (List.replicate (a.posonly.length + a.params.length - a.defaults.length) none ++
      a.defaults.map some).length = (a.posonly ++ a.params).length := by
    simp only [List.length_append, List.length_replicate, List.length_map]
    omega
  have hsnd (ps : List (Param × Option Expr)) :
      ps.filterMap Prod.snd = (ps.map Prod.snd).filterMap id := by
    rw [List.filterMap_map]
    rfl
  rw [hsnd, List.map_snd_zip (Nat.le_of_eq hlength)]
  simp

theorem Arguments.visits_written_eq {a : Arguments} {returns : Option Expr} (h : a.Apart returns)
    (hparts : ∀ e ∈ a.partsIn .evaluated returns, e.visits .written = e.visits .evaluated) :
    Expr.visitsOf .written (a.partsIn .written returns) =
      Expr.visitsOf .evaluated (a.partsIn .evaluated returns) := by
  obtain ⟨hlength, hapart, hslash⟩ := h
  rw [← Expr.visitsOf_congr hparts]
  have hpositional := a.zip_positional hlength
  simp only [partsIn, map_snd_annotated, positional, Expr.visitsOf_append, List.filterMap_append]
    at hapart ⊢
  rcases hapart with hdefaults | hannotations
  · rw [List.forall_mem_append] at hdefaults
    rw [Param.visitsOf_annotations (by rw [hpositional]; exact hdefaults.1),
      Param.visitsOf_annotations hdefaults.2, Expr.visitsOf_eq_nil _ hdefaults.1,
      Expr.visitsOf_eq_nil _ hdefaults.2, List.filterMap_append, Expr.visitsOf_append]
    rcases hslash with hnone | hnone <;> simp [Expr.visitsOf_eq_nil _ hnone]
  · simp only [List.forall_mem_append] at hannotations
    obtain ⟨⟨⟨⟨⟨hparams, hposonly⟩, hvararg⟩, hkwonly⟩, hkwarg⟩, hreturns⟩ := hannotations
    rw [Param.visitsOf_defaults (by
        rw [List.filterMap_append]
        exact List.forall_mem_append.mpr ⟨hposonly, hparams⟩),
      Param.visitsOf_defaults hkwonly, hpositional]
    simp [Expr.visitsOf_eq_nil _ hparams, Expr.visitsOf_eq_nil _ hposonly,
      Expr.visitsOf_eq_nil _ hvararg, Expr.visitsOf_eq_nil _ hkwonly, Expr.visitsOf_eq_nil _ hkwarg,
      Expr.visitsOf_eq_nil _ hreturns, kwDefaultValues]

section

variable {o : Options}

theorem Stmt.visitsOf_congr {ss : List Stmt}
    (h : ∀ s ∈ ss, s.visits .written o = s.visits .evaluated o) :
    Stmt.visitsOf .written o ss = Stmt.visitsOf .evaluated o ss := by
  induction ss with
  | nil => rfl
  | cons s ss ih =>
    rw [List.forall_mem_cons] at h
    rw [visitsOf, visitsOf, h.1, ih h.2]

theorem Handler.visitsOf_congr {hs : List Handler}
    (htypes : ∀ e ∈ hs.filterMap Handler.type, e.visits .written = e.visits .evaluated)
    (hbodies : ∀ s ∈ hs.flatMap Handler.body, s.visits .written o = s.visits .evaluated o) :
    Handler.visitsOf .written o hs = Handler.visitsOf .evaluated o hs := by
  induction hs with
  | nil => rfl
  | cons handler rest ih =>
    obtain ⟨type, name, body, line⟩ := handler
    rw [List.flatMap_cons, List.forall_mem_append] at hbodies
    have htype : Expr.visitsOf .written type.toList = Expr.visitsOf .evaluated type.toList := by
      refine Expr.visitsOf_congr fun e he => ?_
      obtain rfl := Option.mem_toList.mp he
      exact htypes e List.mem_cons_self
    have ih := ih (fun e he => htypes e (by
      cases type with
      | none => exact he
      | some t => exact List.mem_cons_of_mem _ he)) hbodies.2
    rw [visitsOf, visitsOf, htype, Stmt.visitsOf_congr hbodies.1, ih]

theorem Stmt.visits_written_eq {s : Stmt} (h : s.Straight) :
    s.visits .written o = s.visits .evaluated o := by
  induction h with
  | @intro s hapart hexprs _ ih =>
    have hexpr (e : Expr) (he : e ∈ s.exprs) := Expr.visits_written_eq (hexprs e he)
    have hlist (es : List Expr) (hes : es ⊆ s.exprs) := Expr.visitsOf_congr fun e he =>
      hexpr e (hes he)
    cases s with
    | functionDef line name args body decorators returns =>
      have hdecorators := hlist decorators fun e he => by simp [exprs, he]
      have hargs := Arguments.visits_written_eq hapart fun e he => hexpr e (by
        simp only [Arguments.partsIn, exprs, List.mem_append, List.mem_filterMap] at he ⊢
        rcases he with (he | he) | he
        · exact .inl (.inl (.inr he))
        · exact .inl (.inr ⟨_, mem_kwDefaults_of_mem_values he, rfl⟩)
        · exact .inr he)
      simp only [visits, Expr.visitsOf_append, hdecorators, hargs]
    | classDef line name bases keywords body decorators =>
      have hdecorators := hlist decorators fun e he => by simp [exprs, he]
      have hrest := hlist (bases ++ keywords.map Keyword.value) fun e he => by
        simp only [exprs, List.append_assoc]
        exact List.mem_append_right _ he
      simp only [visits, hdecorators, hrest]
    | ret | delete | augAssign =>
      simp only [visits]
      exact hlist _ (List.Subset.refl _)
    | assign line targets e =>
      exact Expr.visitsOf_swap hapart
        (fun e he => hexpr e (by simp [exprs, List.mem_singleton.mp he]))
        fun e he => hexpr e (List.mem_cons_of_mem _ he)
    | raise line exc cause =>
      cases exc with
      | none => rfl
      | some exc => exact hlist _ (List.Subset.refl _)
    | assert line test msg =>
      simp only [visits]
      rw [hlist _ (List.Subset.refl (test :: msg.toList))]
    | expr line e => exact hexpr e List.mem_cons_self
    | forLoop line target iter body orelse =>
      have hhead := Expr.visitsOf_swap hapart
        (fun e he => hexpr e (by simp [exprs, List.mem_singleton.mp he]))
        fun e he => hexpr e (by simp [exprs, List.mem_singleton.mp he])
      have hbody := visitsOf_congr fun s hs => ih s (List.mem_append_left _ hs)
      have horelse := visitsOf_congr fun s hs => ih s (List.mem_append_right _ hs)
      simp only [visits, hhead, hbody, horelse]
    | whileLoop line test body orelse | ifElse line test body orelse =>
      have htest := hexpr test List.mem_cons_self
      have hbody := visitsOf_congr fun s hs => ih s (List.mem_append_left _ hs)
      have horelse := visitsOf_congr fun s hs => ih s (List.mem_append_right _ hs)
      simp only [visits, htest, hbody, horelse]
    | tryExcept line body handlers orelse finalbody =>
      have hbody : visitsOf .written o body = visitsOf .evaluated o body :=
        visitsOf_congr fun s hs => ih s (by simp [block, inner, hs])
      have hhandlers : Handler.visitsOf .written o handlers = Handler.visitsOf .evaluated o handlers :=
        Handler.visitsOf_congr (fun e he => hexpr e he)
          fun s hs => ih s (by simp only [block, inner, List.mem_append]; tauto)
      have horelse : visitsOf .written o orelse = visitsOf .evaluated o orelse :=
        visitsOf_congr fun s hs => ih s (by simp [block, inner, hs])
      simp only [visits, hbody, hhandlers, horelse]
    | _ => rfl

theorem Generator.visits_written_eq {gs : List Generator}
    (hloops : ∀ g ∈ gs, Expr.Apart [g.iter] [g.target])
    (hparts : ∀ e ∈ gs.flatMap (Generator.partsIn .evaluated),
      e.visits .written = e.visits .evaluated) :
    Expr.visitsOf .written (gs.flatMap (Generator.partsIn .written)) =
      Expr.visitsOf .evaluated (gs.flatMap (Generator.partsIn .evaluated)) := by
  induction gs with
  | nil => rfl
  | cons g gs ih =>
    rw [List.forall_mem_cons] at hloops
    rw [List.flatMap_cons, List.forall_mem_append] at hparts
    have hpart {e : Expr} (he : e ∈ g.iter :: g.target :: g.filters) := hparts.1 e he
    have hhead := Expr.visitsOf_swap hloops.1
      (fun e he => hpart (by simp [List.mem_singleton.mp he]))
      fun e he => hpart (by simp [List.mem_singleton.mp he])
    have hfilters : Expr.visitsOf .written g.filters = Expr.visitsOf .evaluated g.filters :=
      Expr.visitsOf_congr fun e he => hpart (by simp [he])
    simp only [List.flatMap_cons, partsIn, Expr.visitsOf_append, hhead, hfilters,
      ih hloops.2 hparts.2]

theorem Body.visits_written_eq {body : Body} (h : body.Straight) :
    body.visits .written o = body.visits .evaluated o := by
  cases body with
  | lambda e => exact Expr.visits_written_eq h
  | comprehension target filters rest element =>
    obtain ⟨hapart, hloops, hparts⟩ := h
    rw [List.forall_mem_append, List.forall_mem_cons, List.forall_mem_append] at hparts
    obtain ⟨⟨htarget, hfilters, hrest⟩, helement⟩ := hparts
    have hclauses : Expr.visitsOf .written
        (target :: (filters ++ rest.flatMap (Generator.partsIn .written))) =
          Expr.visitsOf .evaluated
            (target :: (filters ++ rest.flatMap (Generator.partsIn .evaluated))) := by
      simp only [Expr.visitsOf_cons, Expr.visitsOf_append, Expr.visits_written_eq htarget,
        Expr.visitsOf_congr fun e he => Expr.visits_written_eq (hfilters e he),
        Generator.visits_written_eq hloops fun e he => Expr.visits_written_eq (hrest e he)]
    have helement := Expr.visitsOf_congr fun e he => Expr.visits_written_eq (helement e he)
    simp only [Body.visits, Reading.swap]
    rw [Expr.visitsOf_append, Expr.visitsOf_append, hclauses, helement]
    rcases hapart with h | h
    · rw [Expr.visitsOf_eq_nil .evaluated h, List.append_nil, List.nil_append]
    · rw [Expr.visitsOf_eq_nil .evaluated h, List.append_nil, List.nil_append]
  | function body | classBody body =>
    exact Stmt.visitsOf_congr fun s hs =>
      Stmt.visits_written_eq (h s (mem_of_mem_withoutDocstring hs))

theorem Program.visits_written_eq {p : Program} (h : p.Straight) :
    p.visits .written o = p.visits .evaluated o := by
  cases p with
  | module body =>
    exact Stmt.visitsOf_congr fun s hs =>
      Stmt.visits_written_eq (h s (mem_of_mem_withoutDocstring hs))
  | expression e => exact Expr.visits_written_eq h
  | interactive body => rfl

end

/-- In a scope without final bodies, tables are taken in turn for the nested scopes in the order of
evaluation, which is the order in which they are written if no two parts of a construct that are
written the other way round both create scopes. -/
theorem scopes_entered_as_evaluated (o : Options) :
    (∀ body : Body, body.NoFinal → ∀ d k addNone s, body.build o ⟨d, k⟩ = .ok addNone s →
      (∃ taken, d.children = taken ++ s.draft.children ∧
        Entered o d (body.visits .evaluated o) taken k s.nextSerial) ∧
      (body.Straight → body.visits .written o = body.visits .evaluated o)) ∧
    ∀ p : Program, p.NoFinal → ∀ d k s, p.build o ⟨d, k⟩ = .ok () s →
      (∃ taken, d.children = taken ++ s.draft.children ∧
        Entered o d (p.visits .evaluated o) taken k s.nextSerial) ∧
      (p.Straight → p.visits .written o = p.visits .evaluated o) := by
  refine ⟨fun body hfinal d k addNone s hrun => ⟨?_, Body.visits_written_eq⟩,
    fun p hfinal d k s hrun => ⟨?_, Program.visits_written_eq⟩⟩
  · obtain ⟨made, taken, hmade, hchildren, hentered, _⟩ :=
      Body.enters (p := True) body (fun _ => hfinal) ⟨d, k⟩ addNone s hrun
    exact ⟨taken, hchildren, hmade trivial ▸ hentered⟩
  · obtain ⟨made, taken, hmade, hchildren, hentered, _⟩ :=
      Program.enters (p := True) p (fun _ => hfinal) ⟨d, k⟩ () s hrun
    exact ⟨taken, hchildren, hmade trivial ▸ hentered⟩

/-- The statement `(lambda: 0) if y else lambda: 1`, whose condition creates no scope. -/
def eitherLambda : Stmt :=
  .expr 4 (.ifExp 4 (.name 4 "y" .load)
    (.lambda 4 ⟨[], [], none, [], [], none, []⟩ (.constant 4 (.int 0)))
    (.lambda 4 ⟨[], [], none, [], [], none, []⟩ (.constant 4 (.int 1))))

theorem eitherLambda_straight : eitherLambda.Straight := by
  refine .intro trivial (fun e he => ?_) fun _ h => absurd h List.not_mem_nil
  obtain rfl := List.mem_singleton.mp he
  refine .intro (.inl (by decide)) fun e' he' => ?_
  have hlambda (n : Int64) : Expr.Straight
      (.lambda 4 ⟨[], [], none, [], [], none, []⟩ (.constant 4 (.int n))) :=
    .intro trivial fun _ h => absurd h List.not_mem_nil
  simp only [Expr.operands, Expr.parts, List.mem_cons, List.not_mem_nil, or_false] at he'
  rcases he' with rfl | rfl | rfl
  · exact .intro trivial fun _ h => absurd h List.not_mem_nil
  · exact hlambda 0
  · exact hlambda 1

/-- Its lambdas take the tables in the order in which they are written. -/
theorem eitherLambda_entered_as_written : ∃ (d : Draft) (p : Program) (s : Session),
    p = .module [eitherLambda] ∧ p.NoFinal ∧ p.Straight ∧ p.build {} ⟨d, 1⟩ = .ok () s ∧
      d.children.length = 2 ∧ s.draft.children = [] ∧
        Entered {} d (p.visits .written {}) d.children 1 s.nextSerial := by
  have hleft : ((Program.module [eitherLambda]).build {}).left? twoLambdas = some 0 := by
    decide +kernel
  obtain ⟨s, hrun, hlength⟩ := Build.of_left? hleft
  have hnil := List.length_eq_zero_iff.mp hlength
  have hfinal : (Program.module [eitherLambda]).NoFinal := by
    intro s hs
    obtain rfl := List.mem_singleton.mp hs
    exact .intro rfl nofun
  have hstraight : (Program.module [eitherLambda]).Straight := by
    intro s hs
    obtain rfl := List.mem_singleton.mp hs
    exact eitherLambda_straight
  obtain ⟨⟨taken, htaken, hentered⟩, hsame⟩ := (scopes_entered_as_evaluated {}).2
    (.module [eitherLambda]) hfinal twoLambdas.draft 1 s hrun
  rw [hnil, List.append_nil] at htaken
  rw [← htaken, ← hsame hstraight] at hentered
  exact ⟨_, _, s, rfl, hfinal, hstraight, hrun, rfl, hnil, hentered⟩

/-- The expression `lambda x: x`, then `if` and the test `lambda: x` on a line of its own. -/
def decidedLambda : Expr :=
  .ifExp 1 (.lambda 2 ⟨[], [], none, [], [], none, []⟩ (.name 2 "x" .load))
    (.lambda 1 ⟨[], [⟨"x", none⟩], none, [], [], none, []⟩ (.name 1 "x" .load))
    (.constant 3 (.int 0))

/-- The tables of its lambdas in the order in which they are written. -/
def decidedTable : ScopeTable :=
  { ScopeTable.module with
    children := [{ ScopeTable.lambda 1 with params := ["x"], symbols := [("x", .local)] },
      { ScopeTable.lambda 2 with symbols := [("x", .globalImplicit)] }] }

/-- The lambda with a parameter is written first, but the test takes its table: the code for line 2
has a parameter and that for line 1 has none. -/
theorem decidedLambda_enters_test_first : ∃ c,
    decidedLambda.visits .written =
      [.enter (.lambda (.name 1 "x" .load)) "<lambda>" 1,
        .enter (.lambda (.name 2 "x" .load)) "<lambda>" 2] ∧
    decidedLambda.visits .evaluated =
      [.enter (.lambda (.name 2 "x" .load)) "<lambda>" 2,
        .enter (.lambda (.name 1 "x" .load)) "<lambda>" 1] ∧
    compile (.module [.expr 1 decidedLambda]) decidedTable {} = .ok c ∧
    c.nested.map (fun k => (k.firstLine, k.argCount)) = [(2, 1), (1, 0)] := by
  have hcode : (compile (.module [.expr 1 decidedLambda]) decidedTable {}).toOption.map
      (fun c => c.nested.map fun k => (k.firstLine, k.argCount)) = some [(2, 1), (1, 0)] := by
    decide +kernel
  have hvisits (r : Reading) : decidedLambda.visits r =
      r.swap [.enter (.lambda (.name 2 "x" .load)) "<lambda>" 2]
        [.enter (.lambda (.name 1 "x" .load)) "<lambda>" 1] := by
    cases r <;> simp [decidedLambda, Expr.visits_eq, Expr.opens, Expr.closes, Expr.partsIn,
      Expr.parts, Reading.swap, Arguments.kwDefaultValues]
  cases hc : compile (.module [.expr 1 decidedLambda]) decidedTable {} with
  | error e => simp [hc, Except.toOption] at hcode
  | ok c =>
    rw [hc] at hcode
    exact ⟨c, hvisits .written, hvisits .evaluated, rfl, Option.some.inj hcode⟩

end Wordcode

import Wordcode.Proofs.Enacting

/-!
# Assignments

An assignment evaluates its value once and stores it in each of its targets, from left to right; a
pattern stores in each of its places the component of the value that has the same position. An
augmented assignment reads and writes the same place.
-/

set_option autoImplicit false

namespace Wordcode

open Step (value simple)

/-- What one value is stored in. -/
inductive Target where
  | variable (name : String)
  | attribute (object : Expr) (name : String)
  | item (object index : Expr)

def Expr.target? : Expr → Option Target
  | .name _ id _ => some (.variable id)
  | .attribute _ object attr _ => some (.attribute object attr)
  | .subscript _ object index _ => some (.item object index)
  | _ => none

mutual

/-- The targets in a pattern from left to right, each with its position below `path`. -/
def Expr.targets (path : List Nat) : Expr → List (List Nat × Target)
  | .list _ elts _ | .tuple _ elts _ => Expr.targetsFrom path 0 elts
  | e => e.target?.toList.map (path, ·)

/-- Those of the elements of a pattern from the one numbered `i` on. -/
def Expr.targetsFrom (path : List Nat) (i : Nat) : List Expr → List (List Nat × Target)
  | [] => []
  | e :: es => Expr.targets (path ++ [i]) e ++ Expr.targetsFrom path (i + 1) es

end

/-- What can be assigned to. A pattern has no more elements than an operand can tell. -/
inductive Expr.IsTarget : Expr → Prop where
  | name {line : UInt32} {id : String} : IsTarget (.name line id .store)
  | attribute {line : UInt32} {object : Expr} {attr : String} :
      object.Fits (fun _ => True) .load → IsTarget (.attribute line object attr .store)
  | subscript {line : UInt32} {object index : Expr} : object.Fits (fun _ => True) .load →
      index.Fits (fun _ => True) .load → IsTarget (.subscript line object index .store)
  | list {line : UInt32} {elts : List Expr} : elts.length < 2 ^ 32 →
      (∀ e ∈ elts, IsTarget e) → IsTarget (.list line elts .store)
  | tuple {line : UInt32} {elts : List Expr} : elts.length < 2 ^ 32 →
      (∀ e ∈ elts, IsTarget e) → IsTarget (.tuple line elts .store)

namespace World

variable {V : Type} (W : World V)

/-- The component of a value at a position. -/
def componentAt (v : V) (path : List Nat) : V := path.foldl W.component v

theorem componentAt_append_singleton (v : V) (path : List Nat) (i : Nat) :
    W.componentAt v (path ++ [i]) = W.component (W.componentAt v path) i := List.foldl_append

/-- The object and the index of a target are evaluated. -/
def locate (access : String → Access) (h : History V) : Target → Site V × History V
  | .variable name => (.variable (access name) name, h)
  | .attribute object name => (.attribute (W.value h object) name, h ++ object.note)
  | .item object index =>
    (.item (W.value h object) (W.value (h ++ object.note) index), h ++ object.note ++ index.note)

def store (access : String → Access) (h : History V) (v : V) (t : Target) : History V :=
  (W.locate access h t).2 ++ [.stored (W.locate access h t).1 v]

/-- Components of a value are stored one after the other. -/
def storeAll (access : String → Access) (v : V) (h : History V)
    (ts : List (List Nat × Target)) : History V :=
  ts.foldl (fun h t => W.store access h (W.componentAt v t.1) t.2) h

def assign (access : String → Access) (v : V) (h : History V) (target : Expr) : History V :=
  W.storeAll access v h (target.targets [])

/-- The old value of a target and a new one are combined, and stored where the old one was. -/
def augment (access : String → Access) (h : History V) (op : Operator) (t : Target) (e : Expr) :
    History V :=
  let (p, h) := W.locate access h t
  let v := W.read h p
  let h := h ++ [.read p]
  let w := W.value h e
  let h := h ++ e.note
  h ++ [.combined op v w] ++ [.stored p (W.combine h op v w)]

/-- What happens when an assignment is executed. -/
def executes (access : String → Access) (h : History V) : Stmt → History V
  | .assign _ targets e => targets.foldl (W.assign access (W.value h e)) (h ++ e.note)
  | .augAssign _ target op e =>
    target.target?.elim h fun t => W.augment access h op t e
  | _ => h

theorem storeAll_append (access : String → Access) (v : V) (h : History V)
    (ts ts' : List (List Nat × Target)) :
    W.storeAll access v h (ts ++ ts') = W.storeAll access v (W.storeAll access v h ts) ts' :=
  List.foldl_append

end World

section

variable {o : Options} {d : Draft} {n m : Nat} {log : Script}

/-- The code of a target stores what is on top of the stack. -/
def Expr.Stores (o : Options) (target : Expr) : Prop :=
  ∀ {d : Draft} {n m : Nat} {log : Script}, Emits o d [value target] n log m →
    ∃ pl : Plot, pl.Shows o TakesAll log ∧ ∀ {V : Type} (W : World V) (env : Env V),
      env.Knows log → ∀ (v : V) (path : List Nat) (st : List (Cell V)) (h : History V),
        pl.Makes W env (.value (W.componentAt v path) :: st, h)
          (st, W.storeAll d.access v h (target.targets path))

theorem Expr.stores_name (line : UInt32) (id : String) : (Expr.name line id .store).Stores o := by
  intro d n m log hemits
  obtain ⟨_, rfl, hsteps⟩ := hemits.of_task
  obtain ⟨arg, _, rfl, hnil⟩ := hsteps.of_named
  obtain ⟨rfl, -⟩ := hnil.of_nil
  refine ⟨_, Plot.shows_items o _, fun W env hknows v path st h => .named ?_⟩
  exact World.does_store hknows.head_name

theorem Expr.stores_attribute {line : UInt32} {object : Expr} {attr : String}
    (hobject : object.Fits (fun _ => True) .load) :
    (Expr.attribute line object attr .store).Stores o := by
  intro d n m log hemits
  obtain ⟨_, rfl, hsteps⟩ := hemits.of_task
  obtain ⟨_, _, _, rfl, hvalue, hstore⟩ := hsteps.of_run
  obtain ⟨arg, _, rfl, hnil⟩ := hstore.of_named
  obtain ⟨rfl, -⟩ := hnil.of_nil
  obtain ⟨pl, hshows, hpushes⟩ := object.exists_plot_pushes hobject hvalue
  refine ⟨_, hshows.append (Plot.shows_items o _), fun W env hknows v path st h => ?_⟩
  exact (hpushes W env _ h).append (.named (World.does_storeAttr hknows.right.head_name))

theorem Expr.stores_subscript {line : UInt32} {object index : Expr}
    (hobject : object.Fits (fun _ => True) .load) (hindex : index.Fits (fun _ => True) .load) :
    (Expr.subscript line object index .store).Stores o := by
  intro d n m log hemits
  obtain ⟨_, rfl, hsteps⟩ := hemits.of_task
  obtain ⟨_, _, _, rfl, hvalue, hrest⟩ := hsteps.of_run
  obtain ⟨_, _, _, rfl, hvalue', hstore⟩ := hrest.of_run
  obtain ⟨_, rfl, hnil⟩ := hstore.of_emit
  obtain ⟨rfl, -⟩ := hnil.of_nil
  obtain ⟨pl, hshows, hpushes⟩ := object.exists_plot_pushes hobject hvalue
  obtain ⟨pl', hshows', hpushes'⟩ := index.exists_plot_pushes hindex hvalue'
  refine ⟨_, hshows.append (hshows'.append (Plot.shows_items o _)), fun W env _ v path st h => ?_⟩
  exact (hpushes W env _ h).append ((hpushes' W env _ _).append (.emit rfl))

/-- The components of a value from the one numbered `i` on, as unpacking leaves them. -/
def World.spread {V : Type} (W : World V) (v : V) (i count : Nat) (st : List (Cell V)) :
    List (Cell V) :=
  (List.range' i count).map (fun k => .value (W.component v k)) ++ st

/-- The elements of a pattern store the components that are on the stack. -/
theorem Expr.exists_plot_elements {elts : List Expr} (helts : ∀ e ∈ elts, e.Stores o)
    (hemits : Emits o d [.run (.all elts)] n log m) :
    ∃ pl : Plot, pl.Shows o TakesAll log ∧ ∀ {V : Type} (W : World V) (env : Env V),
      env.Knows log → ∀ (v : V) (path : List Nat) (i : Nat) (st : List (Cell V)) (h : History V),
        pl.Makes W env (W.spread (W.componentAt v path) i elts.length st, h)
          (st, W.storeAll d.access v h (targetsFrom path i elts)) := by
  induction elts generalizing n log with
  | nil =>
    obtain ⟨_, rfl, hnil⟩ := hemits.of_task
    obtain ⟨rfl, -⟩ := hnil.of_nil
    exact ⟨[], Plot.shows_items o [], fun W env _ v path i st h => .nil _⟩
  | cons e elts ih =>
    obtain ⟨_, rfl, hsteps⟩ := hemits.of_task
    obtain ⟨_, _, _, rfl, hfirst, hrest⟩ := hsteps.of_run
    obtain ⟨pl, hshows, hstores⟩ := helts e List.mem_cons_self hfirst
    obtain ⟨pl', hshows', hstores'⟩ := ih (fun e he => helts e (List.mem_cons_of_mem _ he)) hrest
    refine ⟨_, hshows.append hshows', fun W env hknows v path i st h => ?_⟩
    have hcomponent := hstores W env hknows.left v (path ++ [i])
      (W.spread (W.componentAt v path) (i + 1) elts.length st) h
    rw [W.componentAt_append_singleton] at hcomponent
    rw [targetsFrom, W.storeAll_append]
    exact hcomponent.append (hstores' W env hknows.right v path (i + 1) st _)

/-- A pattern of elements each of which is stored. -/
theorem Expr.exists_plot_pattern {elts : List Expr} (hlength : elts.length < 2 ^ 32)
    (helts : ∀ e ∈ elts, e.Stores o)
    (hemits : Emits o d [.emit .unpackSequence (UInt32.ofNat elts.length), .run (.all elts)] n log
      m) :
    ∃ pl : Plot, pl.Shows o TakesAll log ∧ ∀ {V : Type} (W : World V) (env : Env V),
      env.Knows log → ∀ (v : V) (path : List Nat) (st : List (Cell V)) (h : History V),
        pl.Makes W env (.value (W.componentAt v path) :: st, h)
          (st, W.storeAll d.access v h (targetsFrom path 0 elts)) := by
  obtain ⟨_, rfl, hrest⟩ := hemits.of_emit
  obtain ⟨pl, hshows, hstores⟩ := exists_plot_elements helts hrest
  refine ⟨_, (Plot.shows_items o [_]).append hshows, fun W env hknows v path st h => ?_⟩
  have hunpack : W.does env .unpackSequence (UInt32.ofNat elts.length)
      (.value (W.componentAt v path) :: st) h =
        some (W.spread (W.componentAt v path) 0 elts.length st, h) := by
    have hcount : (UInt32.ofNat elts.length).toNat = elts.length :=
      UInt32.toNat_ofNat_of_lt' hlength
    rw [World.spread, ← List.range_eq_range', World.does, hcount]
  exact (Plot.Makes.emit hunpack).append (hstores W env hknows.tail v path 0 st h)

theorem Expr.IsTarget.stores {target : Expr} (h : target.IsTarget) : target.Stores o := by
  induction h with
  | name => exact stores_name _ _
  | «attribute» hobject => exact stores_attribute hobject
  | subscript hobject hindex => exact stores_subscript hobject hindex
  | list hlength _ ih | tuple hlength _ ih =>
    intro d n m log hemits
    obtain ⟨_, rfl, hsteps⟩ := hemits.of_task
    exact exists_plot_pattern hlength ih hsteps

/-- A value is stored in one target after the other. -/
theorem exists_plot_storeAll {targets : List Expr} (hne : targets ≠ [])
    (htargets : ∀ t ∈ targets, t.IsTarget) (hemits : Emits o d [.run (.storeAll targets)] n log m) :
    ∃ pl : Plot, pl.Shows o TakesAll log ∧ ∀ {V : Type} (W : World V) (env : Env V),
      env.Knows log → ∀ (v : V) (st : List (Cell V)) (h : History V),
        pl.Makes W env (.value v :: st, h) (st, targets.foldl (W.assign d.access v) h) := by
  induction targets generalizing n log with
  | nil => exact absurd rfl hne
  | cons t targets ih =>
    have ht : t.IsTarget := htargets t List.mem_cons_self
    obtain ⟨_, rfl, hsteps⟩ := hemits.of_task
    cases targets with
    | nil =>
      obtain ⟨pl, hshows, hstores⟩ := ht.stores hsteps
      exact ⟨pl, hshows, fun W env hknows v st h => hstores W env hknows v [] st h⟩
    | cons t' targets =>
      obtain ⟨_, rfl, hrest⟩ := hsteps.of_emit
      obtain ⟨_, _, _, rfl, hfirst, hrest⟩ := hrest.of_run
      obtain ⟨pl, hshows, hstores⟩ := ht.stores hfirst
      obtain ⟨pl', hshows', hstores'⟩ := ih (List.cons_ne_nil _ _)
        (fun t ht => htargets t (List.mem_cons_of_mem _ ht)) hrest
      refine ⟨_, (Plot.shows_items o [_]).append (hshows.append hshows'),
        fun W env hknows v st h => ?_⟩
      have hdup : Plot.Makes [.item (.emit .dupTop 0)] W env (.value v :: st, h)
          (.value v :: .value v :: st, h) := .emit rfl
      exact hdup.append ((hstores W env hknows.tail.left v [] _ h).append
        (hstores' W env hknows.tail.right v st _))

/-- A statement that stores a value in targets, or combines a value with that of a target. -/
inductive Stmt.IsAssignment : Stmt → Prop where
  | assign {line : UInt32} {targets : List Expr} {e : Expr} : targets ≠ [] →
      (∀ t ∈ targets, t.IsTarget) → e.Fits (fun _ => True) .load →
      IsAssignment (.assign line targets e)
  | augAssign {line : UInt32} {target : Expr} {op : Operator} {e : Expr} : target.IsTarget →
      target.target? ≠ none → e.Fits (fun _ => True) .load →
      IsAssignment (.augAssign line target op e)

/-- The code of an augmented assignment to a target of one of the three kinds. -/
theorem exists_plot_augmented {target e : Expr} (op : Operator) (htarget : target.IsTarget)
    {t : Target} (ht : target.target? = some t) (he : e.Fits (fun _ => True) .load)
    (hemits : Emits o d (augmentedSteps d op e target) n log m) :
    ∃ pl : Plot, pl.Shows o TakesAll log ∧ ∀ {V : Type} (W : World V) (env : Env V),
      env.Knows log → env.input = none → ∀ (st : List (Cell V)) (h : History V),
        pl.Makes W env (st, h) (st, W.augment d.access h op t e) := by
  cases htarget with
  | @name _ id =>
    cases ht
    obtain ⟨arg, _, rfl, hrest₁⟩ := hemits.of_named
    obtain ⟨_, _, _, rfl, hvalue, hrest₂⟩ := hrest₁.of_run
    obtain ⟨_, rfl, hrest₃⟩ := hrest₂.of_emit
    obtain ⟨arg', _, rfl, hnil⟩ := hrest₃.of_named
    obtain ⟨rfl, -⟩ := hnil.of_nil
    obtain ⟨pl, hshows, hpushes⟩ := e.exists_plot_pushes he hvalue
    refine ⟨_, (Plot.shows_items o [_]).append (hshows.append (Plot.shows_items o [_, _])),
      fun W env hknows hinput st h => ?_⟩
    have hload : W.does env (d.nameOpcode id .load) arg st h =
        some (.value (W.read h (.variable (d.access id) id)) :: st,
          h ++ [.read (.variable (d.access id) id)]) := by
      rw [World.does_load hknows.head_name, World.load_of_input hinput]
    exact (Plot.Makes.named hload).append ((hpushes W env _ _).append
      ((Plot.Makes.emit (World.does_inplace op _ _)).append
        (.named (World.does_store hknows.tail.right.tail.head_name))))
  | «attribute» hobject =>
    cases ht
    obtain ⟨_, _, _, rfl, hvalue, hrest₁⟩ := hemits.of_run
    obtain ⟨_, rfl, hrest₂⟩ := hrest₁.of_emit
    obtain ⟨arg, _, rfl, hrest₃⟩ := hrest₂.of_named
    obtain ⟨_, _, _, rfl, hvalue', hrest₄⟩ := hrest₃.of_run
    obtain ⟨_, rfl, hrest₅⟩ := hrest₄.of_emit
    obtain ⟨_, rfl, hrest₆⟩ := hrest₅.of_emit
    obtain ⟨arg', _, rfl, hnil⟩ := hrest₆.of_named
    obtain ⟨rfl, -⟩ := hnil.of_nil
    obtain ⟨pl, hshows, hpushes⟩ := Expr.exists_plot_pushes hobject hvalue
    obtain ⟨pl', hshows', hpushes'⟩ := e.exists_plot_pushes he hvalue'
    refine ⟨_, hshows.append ((Plot.shows_items o [_, _]).append (hshows'.append
      (Plot.shows_items o [_, _, _]))), fun W env hknows _ st h => ?_⟩
    exact (hpushes W env _ _).append ((Plot.Makes.emit rfl).append
      ((Plot.Makes.named (World.does_loadAttr hknows.right.tail.head_name)).append
        ((hpushes' W env _ _).append ((Plot.Makes.emit (World.does_inplace op _ _)).append
          ((Plot.Makes.emit rfl).append
            (.named (World.does_storeAttr hknows.right.tail.tail.right.tail.tail.head_name)))))))
  | subscript hobject hindex =>
    cases ht
    obtain ⟨_, _, _, rfl, hvalue, hrest₁⟩ := hemits.of_run
    obtain ⟨_, _, _, rfl, hvalue', hrest₂⟩ := hrest₁.of_run
    obtain ⟨_, rfl, hrest₃⟩ := hrest₂.of_emit
    obtain ⟨_, rfl, hrest₄⟩ := hrest₃.of_emit
    obtain ⟨_, _, _, rfl, hvalue'', hrest₅⟩ := hrest₄.of_run
    obtain ⟨_, rfl, hrest₆⟩ := hrest₅.of_emit
    obtain ⟨_, rfl, hrest₇⟩ := hrest₆.of_emit
    obtain ⟨_, rfl, hnil⟩ := hrest₇.of_emit
    obtain ⟨rfl, -⟩ := hnil.of_nil
    obtain ⟨pl, hshows, hpushes⟩ := Expr.exists_plot_pushes hobject hvalue
    obtain ⟨pl', hshows', hpushes'⟩ := Expr.exists_plot_pushes hindex hvalue'
    obtain ⟨pl'', hshows'', hpushes''⟩ := e.exists_plot_pushes he hvalue''
    refine ⟨_, hshows.append (hshows'.append ((Plot.shows_items o [_, _]).append (hshows''.append
      (Plot.shows_items o [_, _, _])))), fun W env _ _ st h => ?_⟩
    exact (hpushes W env _ _).append ((hpushes' W env _ _).append
      ((Plot.Makes.emit rfl).append ((Plot.Makes.emit rfl).append ((hpushes'' W env _ _).append
        ((Plot.Makes.emit (World.does_inplace op _ _)).append
          ((Plot.Makes.emit rfl).append (.emit rfl)))))))
  | list | tuple => cases ht

theorem Stmt.IsAssignment.exists_plot {s : Stmt} (hs : s.IsAssignment) {frames : List Frame}
    (hemits : Emits o d [.run (.stmt frames s)] n log m) :
    ∃ pl : Plot, pl.Shows o TakesAll log ∧ ∀ {V : Type} (W : World V) (env : Env V),
      env.Knows log → env.input = none → ∀ (st : List (Cell V)) (h : History V),
        pl.Makes W env (st, h) (st, W.executes d.access h s) := by
  obtain ⟨_, rfl, hsteps⟩ := hemits.of_task
  cases hs with
  | assign hne htargets he =>
    obtain ⟨_, _, _, rfl, hvalue, hstore⟩ := hsteps.of_run
    obtain ⟨pl, hshows, hpushes⟩ := Expr.exists_plot_pushes he hvalue
    obtain ⟨pl', hshows', hstores⟩ := exists_plot_storeAll hne htargets hstore
    exact ⟨_, hshows.append hshows', fun W env hknows _ st h =>
      (hpushes W env st h).append (hstores W env hknows.right.right _ st _)⟩
  | @augAssign _ target op e htarget hsome he =>
    obtain ⟨t, ht⟩ := Option.ne_none_iff_exists'.mp hsome
    simp only [World.executes, ht]
    exact exists_plot_augmented op htarget ht he hsteps

end

/-- Assignments store what they are to store where they are to. The code of an assignment, wherever
it stands, evaluates the value once; then, from left to right, it stores in each target of each
pattern the component of the value that has the position of the target, and before it does so
evaluates the object and the index of the target once. An augmented assignment evaluates object and
index once, reads the target, evaluates the new value, combines it with the old one, and stores the
result in the same place. The stack is in the end as it was at the start. -/
theorem assignment_stores {o : Options} {s : Stmt} (hs : s.IsAssignment) {frames : List Frame}
    {σ σ' : Session} (hlower : Stmt.lower o frames s σ = .ok () σ') :
    ∃ pl : Plot, pl.Realizes o σ.draft σ'.draft (fun env => env.input = none)
      fun W a => (a.1, W.executes σ.draft.access a.2 s) := by
  obtain ⟨-, log, hemits, hruns⟩ := (Stmt.lowers o frames s σ.draft).ok (.refl _) hlower
  have hw := hruns.writes
  have hfaithful := hemits.faithful (show Faithful [.run (.stmt frames s)] from rfl)
  obtain ⟨pl, ⟨rfl, htakes⟩, hmakes⟩ := hs.exists_plot hemits
  exact ⟨pl, Plot.realizes hw htakes hfaithful fun W env hknows hinput a =>
    hmakes W env hknows hinput a.1 a.2⟩

/-- The assignment `p.x, [b, c[i]] = y = v`. -/
def nestedAssignment : Stmt :=
  .assign 1
    [.tuple 1 [.attribute 1 (.name 1 "p" .load) "x" .store,
      .list 1 [.name 1 "b" .store,
        .subscript 1 (.name 1 "c" .load) (.name 1 "i" .load) .store] .store] .store,
      .name 1 "y" .store]
    (.name 1 "v" .load)

theorem isAssignment_nestedAssignment : nestedAssignment.IsAssignment := by
  refine .assign nofun ?_ .name
  simp only [List.forall_mem_cons]
  refine ⟨.tuple (by decide) ?_, .name, nofun⟩
  simp only [List.forall_mem_cons]
  refine ⟨.attribute .name, .list (by decide) ?_, nofun⟩
  simp only [List.forall_mem_cons]
  exact ⟨.name, .subscript .name .name, nofun⟩

theorem nestedAssignment_stores : ∃ σ', nestedAssignment.IsAssignment ∧
    nestedAssignment.lower {} [] ⟨.ofModule .module, 1⟩ = .ok () σ' ∧
    ∃ pl : Plot, pl.Realizes {} (.ofModule .module) σ'.draft (fun env => env.input = none)
      fun W a => (a.1, W.executes (Draft.ofModule .module).access a.2 nestedAssignment) := by
  have hok : (nestedAssignment.lower {} []).succeeds ⟨.ofModule .module, 1⟩ = true := by
    decide +kernel
  obtain ⟨σ', hlower⟩ := Build.of_succeeds hok
  exact ⟨σ', isAssignment_nestedAssignment, hlower,
    assignment_stores isAssignment_nestedAssignment hlower⟩

/-- Each target with its position. -/
example : Expr.targets [] (.tuple 1 [.attribute 1 (.name 1 "p" .load) "x" .store,
    .list 1 [.name 1 "b" .store, .subscript 1 (.name 1 "c" .load) (.name 1 "i" .load) .store]
      .store] .store) =
    [([0], .attribute (.name 1 "p" .load) "x"), ([1, 0], .variable "b"),
      ([1, 1], .item (.name 1 "c" .load) (.name 1 "i" .load))] := rfl

end Wordcode

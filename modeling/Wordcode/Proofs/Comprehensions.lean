import Wordcode.Proofs.Assignments
import Wordcode.Proofs.Closures
import Wordcode.Proofs.Filters

/-!
# List comprehensions

The scope of a list comprehension goes through its loops, the last one innermost, and appends the
value of the element to the one list that it has made, each time that all filters pass. Where it
does so, the iterators of all loops are between the list and the value.
-/

set_option autoImplicit false

namespace Wordcode

open Step (value branch simple)

/-- What has happened, and what has been collected so far. -/
structure Collected (V : Type) where
  history : History V
  elements : List V

namespace World

variable {V : Type} (W : World V)

/-- The list that is collected, below what is left of the iterators of the loops that control is in,
the innermost on top. -/
def collecting (its : List (List V)) (vs : List V) : List (Cell V) :=
  its.map .iterator ++ [.value (W.list vs)]

/-- A turn of a loop of a comprehension: an item is stored in the target, and if all filters pass,
`inner` is what happens then. -/
def turn (access : String → Access) (target : Expr) (filters : List Expr)
    (inner : Collected V → Collected V) (x : V) (s : Collected V) : Collected V :=
  let (passed, h) := W.passes (W.assign access x s.history target) filters
  if passed then inner ⟨h, s.elements⟩ else ⟨h, s.elements⟩

/-- The turns of a loop, of which each may depend on the items that are left. -/
def turns (access : String → Access) (target : Expr) (filters : List Expr)
    (inner : List V → Collected V → Collected V) : List V → Collected V → Collected V
  | [], s => s
  | x :: xs, s => turns access target filters inner xs (W.turn access target filters (inner xs) x s)

/-- What is collected inside the loops whose iterators are `its`: there may be further loops, and
inside all of them is the element. -/
def gather (access : String → Access) (element : Expr) :
    List Generator → List (List V) → Collected V → Collected V
  | [], its, s =>
    let v := W.value s.history element
    ⟨s.history ++ element.note ++
        [.appended (its.length + 1) (.value v :: W.collecting its s.elements)],
      s.elements ++ [v]⟩
  | g :: rest, its, s =>
    W.turns access g.target g.filters (fun xs => gather access element rest (xs :: its))
      (W.items (W.value s.history g.iter)) ⟨s.history ++ g.iter.note, s.elements⟩

/-- What a comprehension collects whose outermost loop goes through the items `xs`. -/
def comprehend (access : String → Access) (target : Expr) (filters : List Expr)
    (rest : List Generator) (element : Expr) (xs : List V) (h : History V) : Collected V :=
  W.turns access target filters (fun xs => W.gather access element rest [xs]) xs ⟨h, []⟩

/-- From `h` to `h'` more happens. Where a value is appended to a list, what is left of the
iterators of `n` loops is between the two. -/
def Appends (n : Nat) (h h' : History V) : Prop :=
  ∃ new, h' = h ++ new ∧ ∀ distance st, .appended distance st ∈ new → distance = n + 1 ∧
    ∃ v its vs, its.length = n ∧ st = .value v :: W.collecting its vs

variable {W}

theorem Appends.refl (n : Nat) (h : History V) : W.Appends n h h :=
  ⟨[], (List.append_nil h).symm, nofun⟩

theorem Appends.trans {n : Nat} {h h' h'' : History V} (hh : W.Appends n h h')
    (hh' : W.Appends n h' h'') : W.Appends n h h'' := by
  obtain ⟨new, rfl, hnew⟩ := hh
  obtain ⟨new', rfl, hnew'⟩ := hh'
  refine ⟨new ++ new', List.append_assoc .., fun distance st hmem => ?_⟩
  rcases List.mem_append.mp hmem with hmem | hmem
  · exact hnew distance st hmem
  · exact hnew' distance st hmem

theorem appends_note (n : Nat) (h : History V) (e : Expr) : W.Appends n h (h ++ e.note) := by
  refine ⟨_, rfl, fun distance st hmem => ?_⟩
  unfold Expr.note at hmem
  split at hmem <;> simp at hmem

theorem appends_notes (n : Nat) (h : History V) (es : List Expr) :
    W.Appends n h (h ++ Expr.notes es) := by
  induction es generalizing h with
  | nil =>
    rw [Expr.notes, List.flatMap_nil, List.append_nil]
    exact .refl n h
  | cons e es ih =>
    rw [Expr.notes_cons, ← List.append_assoc]
    exact (appends_note n h e).trans (ih _)

theorem appends_store (n : Nat) (access : String → Access) (h : History V) (v : V) (t : Target) :
    W.Appends n h (W.store access h v t) := by
  have hstored (h : History V) (p : Site V) : W.Appends n h (h ++ [.stored p v]) :=
    ⟨_, rfl, by simp⟩
  cases t with
  | «variable» => exact hstored h _
  | «attribute» object => exact (appends_note n h object).trans (hstored _ _)
  | item object index =>
    exact ((appends_note n h object).trans (appends_note n _ index)).trans (hstored _ _)

theorem appends_assign (n : Nat) (access : String → Access) (v : V) (h : History V)
    (target : Expr) : W.Appends n h (W.assign access v h target) := by
  unfold assign storeAll
  induction target.targets [] generalizing h with
  | nil => exact .refl n h
  | cons t ts ih => exact (appends_store n access h _ _).trans (ih _)

theorem appends_passes (n : Nat) (h : History V) (es : List Expr) :
    W.Appends n h (W.passes h es).2 := by
  induction es generalizing h with
  | nil => exact .refl n h
  | cons e es ih =>
    have htest := appends_notes (W := W) n h (e.evaluate (W.after h) []).2
    simp only [passes]
    split
    · exact htest.trans (ih _)
    · exact htest

theorem appends_turns {n : Nat} (access : String → Access) (target : Expr) (filters : List Expr)
    {inner : List V → Collected V → Collected V}
    (hinner : ∀ xs s, W.Appends n s.history (inner xs s).history) (xs : List V) (s : Collected V) :
    W.Appends n s.history (W.turns access target filters inner xs s).history := by
  induction xs generalizing s with
  | nil => exact .refl n _
  | cons x xs ih =>
    refine .trans ?_ (ih _)
    have htest := (appends_assign n access x s.history target).trans
      (appends_passes (W := W) n _ filters)
    simp only [turn]
    split
    · exact htest.trans (hinner xs _)
    · exact htest

theorem appends_gather (access : String → Access) (element : Expr) (gs : List Generator)
    (its : List (List V)) (s : Collected V) :
    W.Appends (its.length + gs.length) s.history (W.gather access element gs its s).history := by
  induction gs generalizing its s with
  | nil =>
    refine (appends_note _ _ element).trans ⟨_, rfl, fun distance st hmem => ?_⟩
    cases List.mem_singleton.mp hmem
    exact ⟨rfl, _, its, _, rfl, rfl⟩
  | cons g gs ih =>
    have hinner (xs : List V) (s : Collected V) := ih (xs :: its) s
    simp only [List.length_cons, Nat.succ_add_eq_add_succ] at hinner
    exact (appends_note _ _ g.iter).trans (appends_turns access g.target g.filters hinner _ ⟨_, _⟩)

theorem appends_comprehend (access : String → Access) (target : Expr) (filters : List Expr)
    (rest : List Generator) (element : Expr) (xs : List V) (h : History V) :
    W.Appends (rest.length + 1) h
      (W.comprehend access target filters rest element xs h).history := by
  refine appends_turns access target filters (fun xs s => ?_) xs ⟨h, []⟩
  have hgather := appends_gather (W := W) access element rest [xs] s
  rwa [List.length_singleton, Nat.add_comm] at hgather

variable (W)

/-- The operand is the number of entries from the value down to the list. -/
theorem does_listAppend {env : Env V} {its : List (List V)} (hits : its.length + 1 < 2 ^ 32)
    (v : V) (vs : List V) (h : History V) :
    W.does env .listAppend (UInt32.ofNat its.length + 1) (.value v :: W.collecting its vs) h =
      some (W.collecting its (vs ++ [v]),
        h ++ [.appended (its.length + 1) (.value v :: W.collecting its vs)]) := by
  have harg : (UInt32.ofNat its.length + 1).toNat = its.length + 1 := by
    rw [UInt32.toNat_add, UInt32.toNat_ofNat_of_lt' (Nat.lt_of_succ_lt hits)]
    exact Nat.mod_eq_of_lt hits
  have hlist : (W.collecting its vs)[its.length]? = some (.value (W.list vs)) := by
    rw [collecting, List.getElem?_append_right (by simp)]
    simp
  have hset : (W.collecting its vs).set its.length (.value (W.list (vs ++ [v]))) =
      W.collecting its (vs ++ [v]) := by
    rw [collecting, List.set_append_right _ _ (by simp)]
    simp [collecting]
  rw [← hset]
  simp only [does, harg, Nat.add_sub_cancel, hlist, W.elements_list]
  rfl

end World

section

variable {o : Options} {d : Draft} {n m : Nat} {log : Script}

/-- The code inside `depth` loops collects what is to be collected there. -/
def Gathers (o : Options) (element : Expr) (gs : List Generator) (depth : Nat) : Prop :=
  ∀ {d : Draft} {n m : Nat} {log : Script}, Emits o d [.run (.inner element depth gs)] n log m →
    ∃ pl : Plot, pl.Shows o TakesAll log ∧ ∀ {V : Type} (W : World V) (env : Env V),
      env.Knows log → ∀ (its : List (List V)), its.length = depth → ∀ s : Collected V,
        pl.Makes W env (W.collecting its s.elements, s.history)
          (W.collecting its (W.gather d.access element gs its s).elements,
            (W.gather d.access element gs its s).history)

theorem gathers_element {element : Expr} (helement : element.IsRead) {depth : Nat}
    (hdepth : depth + 1 < 2 ^ 32) : Gathers o element [] depth := by
  intro d n m log hemits
  obtain ⟨_, rfl, hsteps⟩ := hemits.of_task
  obtain ⟨_, _, _, rfl, hvalue, happend⟩ := hsteps.of_run
  obtain ⟨_, rfl, hnil⟩ := happend.of_emit
  obtain ⟨rfl, -⟩ := hnil.of_nil
  obtain ⟨pl, hshows, hpushes⟩ := element.exists_plot_pushes helement hvalue
  refine ⟨_, hshows.append (Plot.shows_items o _), ?_⟩
  rintro V W env - its rfl s
  exact (hpushes W env _ _).append (.emit (W.does_listAppend hdepth _ _ _))

/-- A loop behind the code that pushes its iterator. -/
def loopSteps (n : Nat) (target : Expr) (filters : List Expr) (rest : List Generator)
    (element : Expr) (depth : Nat) : List Step :=
  [.label n, .jump .forIter (n + 3), .run .block, value target, .run (.filters (n + 2) filters),
    .run (.inner element depth rest)] ++ (if rest.isEmpty then [.label (n + 1)] else []) ++
    [.label (n + 2), .jump .jumpAbsolute n, .label (n + 3)]

theorem World.run_skip {V : Type} {W : World V} {env : Env V} {P pt : Plot} {st : List (Cell V)}
    {h : History V} {b : BlockId} {c : Bool}
    (hemits : Emits o d (if c then [.label b] else []) n log m) :
    W.Runs env P.course ⟨log.map .item ++ pt, st, h⟩ ⟨pt, st, h⟩ := by
  cases c with
  | false =>
    obtain ⟨rfl, -⟩ := Emits.of_nil hemits
    exact .refl
  | true =>
    obtain ⟨_, rfl, hnil⟩ := Emits.of_label hemits
    obtain ⟨rfl, -⟩ := hnil.of_nil
    exact World.run_label b

/-- A loop that control is in, with an iterator on the stack. -/
theorem exists_plot_loop {target element : Expr} {filters : List Expr} {rest : List Generator}
    {depth : Nat} (htarget : target.IsTarget) (hfilters : ∀ e ∈ filters, e.IsCondition)
    (hrest : Gathers o element rest depth) {b : Nat} (hb : b + 2 < n)
    (hemits : Emits o d (loopSteps b target filters rest element depth) n log m) :
    ∃ pl : Plot, pl.Shows o TakesAll log ∧ ∀ {V : Type} (W : World V) (env : Env V),
      env.Knows log → ∀ (its : List (List V)), its.length + 1 = depth → ∀ (xs : List V)
        (s r : Collected V), r = W.turns d.access target filters
          (fun xs => W.gather d.access element rest (xs :: its)) xs s →
        pl.Makes W env (W.collecting (xs :: its) s.elements, s.history)
          (W.collecting its r.elements, r.history) := by
  obtain ⟨_, _, _, rfl, hbody, hend⟩ := Emits.of_append hemits
  obtain ⟨_, skip, _, rfl, hturn, hskip⟩ := Emits.of_append hbody
  obtain ⟨_, rfl, hturn₁⟩ := hturn.of_label
  obtain ⟨_, rfl, hturn₂⟩ := hturn₁.of_jump
  obtain ⟨_, rfl, hturn₃⟩ := hturn₂.of_block_succ
  obtain ⟨_, _, k, rfl, hstore, hturn₄⟩ := hturn₃.of_run
  obtain ⟨_, _, _, rfl, htest, hinner⟩ := hturn₄.of_run
  obtain ⟨_, rfl, hend₁⟩ := hend.of_label
  obtain ⟨_, rfl, hend₂⟩ := hend₁.of_jump
  obtain ⟨_, rfl, hnil⟩ := hend₂.of_label
  obtain ⟨rfl, -⟩ := hnil.of_nil
  have hcleanup : b + 2 < k := Nat.lt_of_lt_of_le (Nat.lt_succ_of_lt hb) hstore.le
  obtain ⟨plt, hshowst, hstores⟩ := htarget.stores hstore
  obtain ⟨plf, hshowsf, hpasses⟩ := exists_plot_filters hfilters htest hcleanup
  obtain ⟨pli, hshowsi, hgathers⟩ := hrest hinner
  have hshows := (Plot.shows_items o [.label b, .jump .forIter (b + 3), .alloc, .label n]).append
    (hshowst.append (hshowsf.append hshowsi))
  refine ⟨_, (hshows.append (Plot.shows_items o skip)).append (Plot.shows_items o _), ?_⟩
  rintro V W env hknows its rfl xs s r rfl P rest' hP
  simp only [List.append_assoc, List.map_cons, List.map_nil, List.cons_append,
    List.nil_append] at hP ⊢
  have hstoreP := (List.suffix_append [_, _, _, _] _).trans hP
  have htestP := (List.suffix_append _ _).trans hstoreP
  have hinnerP := (List.suffix_append _ _).trans htestP
  have hcleanupP := (List.suffix_append _ _).trans ((List.suffix_append _ _).trans hinnerP)
  have hexitP := (List.suffix_append [_, _] _).trans hcleanupP
  refine .trans (World.run_label b) ?_
  induction xs generalizing s with
  | nil => exact World.run_jump rfl hexitP
  | cons x xs ih =>
    have hitem : W.does env .forIter 0 (W.collecting ((x :: xs) :: its) s.elements) s.history =
        some (.value x :: W.collecting (xs :: its) s.elements, s.history) := rfl
    have hstored := hstores W env hknows.left.left.tail.tail.tail.tail.left x []
      (W.collecting (xs :: its) s.elements) s.history P _ hstoreP
    have htested := hpasses W env P _ _ (W.collecting (xs :: its) s.elements)
      (W.assign d.access x s.history target) htestP hcleanupP
    refine .trans (World.run_item rfl hitem) (.trans (World.run_allocs 1)
      (.trans (World.run_label _) (.trans hstored (.trans htested (.trans ?_ (ih _))))))
    simp only [World.turn]
    rcases W.passes (W.assign d.access x s.history target) filters with ⟨_ | _, h⟩
    · exact World.run_jump rfl hP
    · have hgathered := hgathers W env hknows.left.left.tail.tail.tail.tail.right.right
        (xs :: its) rfl ⟨h, s.elements⟩ P _ hinnerP
      exact .trans hgathered (.trans (World.run_skip hskip) (.trans (World.run_label _)
        (World.run_jump rfl hP)))

/-- What is iterated over is read, targets can be assigned to, and filters are conditions. -/
structure Generator.IsClause (g : Generator) : Prop where
  target : g.target.IsTarget
  iter : g.iter.IsRead
  filters : ∀ e ∈ g.filters, e.IsCondition

/-- The loops of a comprehension inside `depth` others. -/
theorem gathers {element : Expr} (helement : element.IsRead) {gs : List Generator}
    (hgs : ∀ g ∈ gs, g.IsClause) {depth : Nat} (hdepth : depth + gs.length + 1 < 2 ^ 32) :
    Gathers o element gs depth := by
  induction gs generalizing depth with
  | nil => exact gathers_element helement hdepth
  | cons g gs ih =>
    have hg : g.IsClause := hgs g List.mem_cons_self
    have hrest : Gathers o element gs (depth + 1) :=
      ih (fun g hg => hgs g (List.mem_cons_of_mem _ hg)) (by rw [List.length_cons] at hdepth; omega)
    obtain ⟨target, iter, filters⟩ := g
    intro d n m log hemits
    obtain ⟨_, rfl, hsteps⟩ := hemits.of_task
    obtain ⟨_, rfl, hloop⟩ := hsteps.of_task
    obtain ⟨_, _, _, rfl, hvalue, hiter⟩ := hloop.of_run
    obtain ⟨_, rfl, hturns⟩ := hiter.of_emit
    have hb : n + 2 < n + 4 := by omega
    obtain ⟨pl, hshows, hpushes⟩ := iter.exists_plot_pushes hg.iter hvalue
    obtain ⟨pl', hshows', hcollects⟩ := exists_plot_loop hg.target hg.filters hrest
      (Nat.lt_of_lt_of_le hb hvalue.le) hturns
    refine ⟨_, (Plot.shows_items o (List.replicate 4 .alloc)).append (hshows.append
      ((Plot.shows_items o [_]).append hshows')), ?_⟩
    rintro V W env hknows its rfl s
    exact (Plot.Makes.allocs 4).append ((hpushes W env _ _).append ((Plot.Makes.emit rfl).append
      (hcollects W env hknows.right.right.tail its rfl _ ⟨_, s.elements⟩ _ rfl)))

/-- The scope of a comprehension, up to the instruction that returns the list. -/
theorem exists_plot_comprehension {target element : Expr} {filters : List Expr}
    {rest : List Generator} (htarget : target.IsTarget) (hfilters : ∀ e ∈ filters, e.IsCondition)
    (hrest : ∀ g ∈ rest, g.IsClause) (helement : element.IsRead)
    (hcount : rest.length + 2 < 2 ^ 32)
    (hemits : Emits o d ((Body.comprehension target filters rest element).steps o d) n log m) :
    ∃ (pl : Plot) (out : Script), log = out ++ [.emit .returnValue 0] ∧ pl.Shows o TakesAll out ∧
      ∀ {V : Type} (W : World V) (env : Env V), env.Knows log → ∀ (xs : List V),
        env.input = some xs → ∀ (h : History V) (r : Collected V),
          r = W.comprehend d.access target filters rest element xs h →
          pl.Makes W env ([], h) ([.value (W.list r.elements)], r.history) := by
  obtain ⟨_, rfl, hbody⟩ := hemits.of_emit
  obtain ⟨_, _, _, rfl, hrun, hreturn⟩ := hbody.of_run
  obtain ⟨_, rfl, hnil⟩ := hreturn.of_emit
  obtain ⟨rfl, -⟩ := hnil.of_nil
  obtain ⟨_, rfl, hloop⟩ := hrun.of_task
  obtain ⟨arg, _, rfl, hturns⟩ := hloop.of_named
  have hb : n + 2 < n + 4 := by omega
  have hinner : Gathers o element rest 1 := gathers helement hrest (by omega)
  obtain ⟨pl, hshows, hcollects⟩ := exists_plot_loop htarget hfilters hinner hb hturns
  refine ⟨_, _, rfl, (Plot.shows_items o [.emit .buildList 0]).append ((Plot.shows_items o
    (List.replicate 4 .alloc)).append ((Plot.shows_items o [.named .loadFast arg ".0"]).append
      hshows)), ?_⟩
  rintro V W env hknows xs hinput h r rfl
  have hname : env.name? .loadFast arg = some ".0" := hknows.name .loadFast arg ".0" (by simp)
  have hload : W.does env .loadFast arg [.value (W.list [])] h =
      some ([.iterator xs, .value (W.list [])], h) := by
    simp [World.does, Opcode.access?, hname, World.load, hinput]
  have hturns := hcollects W env hknows.tail.left.right.tail [] rfl xs ⟨h, []⟩ _ rfl
  exact (Plot.Makes.emit rfl).append ((Plot.Makes.allocs 4).append
    ((Plot.Makes.named hload).append hturns))

/-- The cells that a function is made with, if its code refers to any. -/
def World.cells {V : Type} (W : World V) (c : CodeObject) : Option V :=
  if c.freevars.isEmpty then none else some (W.tuple (c.freevars.map W.cell))

theorem makes_loadCells {V : Type} {W : World V} {env : Env V} {names : List String}
    {slots : List UInt32} (hslots : slots.length = names.length)
    (hknows : env.Knows (List.zipWith (Item.named .loadClosure) slots names)) (st : List (Cell V))
    (h : History V) :
    Plot.Makes ((List.zipWith (Item.named .loadClosure) slots names).map .item) W env (st, h)
      (pushValues (names.map W.cell) st, h) := by
  induction names generalizing slots st with
  | nil =>
    obtain rfl := List.length_eq_zero_iff.mp hslots
    exact .nil _
  | cons x names ih =>
    cases slots with
    | nil => cases hslots
    | cons slot slots =>
      have hload : W.does env .loadClosure slot st h = some (.value (W.cell x) :: st, h) := by
        simp [World.does, hknows.head_name]
      exact (Plot.Makes.named hload).append (ih (Nat.succ.inj hslots) hknows.tail _)

theorem makes_captures {V : Type} {W : World V} {env : Env V} {c : CodeObject}
    {slots : List UInt32} (hslots : slots.length = c.freevars.length)
    (hcount : c.freevars.length < 2 ^ 32) (hknows : env.Knows (Script.captures c slots))
    (st : List (Cell V)) (h : History V) :
    Plot.Makes ((Script.captures c slots).map .item) W env (st, h)
      ((W.cells c).toList.map .value ++ st, h) := by
  unfold Script.captures World.cells at *
  split
  · exact .nil _
  · next hne =>
    rw [if_neg hne] at hknows
    have hpop := popValues_pushValues (c.freevars.map W.cell) st
    rw [List.length_map] at hpop
    rw [List.map_append]
    refine (makes_loadCells hslots hknows.left st h).append (.emit ?_)
    rw [World.does, UInt32.toNat_ofNat_of_lt' hcount, hpop]
    rfl

theorem popCells_zero {V : Type} (st : List (Cell V)) : popCells 0 st = some (none, st) := by
  cases st with
  | nil => rfl
  | cons x st => cases x <;> rfl

theorem does_makeFunction {V : Type} (W : World V) {env : Env V} {c c' : CodeObject}
    {arg arg' : UInt32} (hc' : env.constant? arg = some (.code c')) (hserial : c'.serial = c.serial)
    (st : List (Cell V)) (h : History V) :
    W.does env .makeFunction { ({} : FunctionParts) with closure := !c.freevars.isEmpty }.operand
      (.constant arg' :: .constant arg :: ((W.cells c).toList.map .value ++ st)) h =
        some (.value (W.function c.serial (W.cells c)) :: st, h) := by
  simp only [World.does, hc', hserial, World.cells]
  cases c.freevars.isEmpty with
  | true =>
    show Option.bind (popCells 0 st) _ = _
    rw [popCells_zero]
    rfl
  | false => rfl

/-- What makes a function of a code object, with the cells that the code refers to. -/
theorem makes_closure {V : Type} {W : World V} {env : Env V} {c : CodeObject} {slots : List UInt32}
    {qualname : String} {arg arg' : UInt32} (hslots : slots.length = c.freevars.length)
    (hcount : c.freevars.length < 2 ^ 32)
    (hknows : env.Knows (Script.closure c slots qualname arg arg')) (st : List (Cell V))
    (h : History V) :
    Plot.Makes ((Script.closure c slots qualname arg arg' ++ [Item.emit .makeFunction
      { ({} : FunctionParts) with closure := !c.freevars.isEmpty }.operand]).map .item)
        W env (st, h) (.value (W.function c.serial (W.cells c)) :: st, h) := by
  obtain ⟨k, hk, halike⟩ := hknows.constant arg (.code c) (by simp [Script.closure])
  obtain ⟨c', rfl, hserial⟩ : ∃ c', k = .code c' ∧ c'.serial = c.serial := by
    cases halike with
    | refl => exact ⟨c, rfl, rfl⟩
    | code hserial => exact ⟨_, rfl, hserial⟩
  simp only [Script.closure, List.map_append, List.append_assoc]
  exact (makes_captures hslots hcount hknows.left st h).append ((Plot.Makes.load arg _).append
    ((Plot.Makes.load arg' _).append (.emit (does_makeFunction W hk hserial st h))))

/-- The iterable of the outermost loop is evaluated where the comprehension stands, and its function
is called with an iterator. -/
theorem exists_plot_called {c : CodeObject} {qualname : String} {iter : Expr} (hiter : iter.IsRead)
    (hcount : c.freevars.length < 2 ^ 32)
    (hemits : Emits o d (closureSteps c {} qualname ++
      [value iter, simple .getIter, .emit .callFunction 1]) n log m) :
    ∃ pl : Plot, pl.Shows o TakesAll log ∧ Item.intern (.code c) ∈ log ∧
      ∀ {V : Type} (W : World V) (env : Env V), env.Knows log →
        ∀ (st : List (Cell V)) (h : History V) (xs : List V) (f : V),
          xs = W.items (W.value h iter) → f = W.function c.serial (W.cells c) →
          pl.Makes W env (st, h)
            (.value (W.call (h ++ iter.note) f xs) :: st, h ++ iter.note ++ [.called f xs]) := by
  obtain ⟨_, _, _, rfl, hclosure, hrest⟩ := hemits.of_append
  obtain ⟨slots, arg, arg', hslots, rfl⟩ := hclosure.of_closureSteps
  obtain ⟨_, _, _, rfl, hvalue, hrest₁⟩ := hrest.of_run
  obtain ⟨_, rfl, hrest₂⟩ := hrest₁.of_emit
  obtain ⟨_, rfl, hnil⟩ := hrest₂.of_emit
  obtain ⟨rfl, -⟩ := hnil.of_nil
  obtain ⟨pl, hshows, hpushes⟩ := iter.exists_plot_pushes hiter hvalue
  refine ⟨_, (Plot.shows_items o _).append (hshows.append (Plot.shows_items o _)),
    by simp [Script.closure], ?_⟩
  rintro V W env hknows st h xs f rfl rfl
  exact (makes_closure hslots hcount hknows.left.left st h).append ((hpushes W env _ h).append
    ((Plot.Makes.emit rfl).append (.emit rfl)))

end

/-- Wordcode that is run from its first instruction with nothing on the stack returns the list of
what is collected. It does not do anything else. -/
def World.Collects {V : Type} (W : World V) (env : Env V) (F : Course Nat) (h : History V)
    (r : Collected V) : Prop :=
  ∃ s, W.Runs env F ⟨0, [], h⟩ s ∧ s.history = r.history ∧
    World.Returns F s (.value (W.list r.elements)) ∧
    ∀ s', W.Runs env F ⟨0, [], h⟩ s' → W.Runs env F s' s

/-- The code object is what a nested scope that is opened as the draft `d` is compiled to. -/
def Body.CompilesTo (o : Options) (body : Body) (d : Draft) (c : CodeObject) : Prop :=
  ∃ log d', (body.build o).Drafts d log d' ∧ d'.finish (body.addNone d) o.filename = .ok c

/-- The scope of a comprehension does so when it is finished. -/
theorem collects_of_finish {o : Options} {target element : Expr} {filters : List Expr}
    {rest : List Generator} (htarget : target.IsTarget) (hfilters : ∀ e ∈ filters, e.IsCondition)
    (hrest : ∀ g ∈ rest, g.IsClause) (helement : element.IsRead)
    (hcount : rest.length + 2 < 2 ^ 32) {name qualname : String} {t : ScopeTable}
    {serial firstLine : UInt32} {nested addNone : Bool} {d d' : Draft} {log : Script} {k : Nat}
    {c : CodeObject} (hd : d = .ofTable name qualname t serial firstLine nested)
    (hemits : Emits o d ((Body.comprehension target filters rest element).steps o d) 1 log k)
    (hw : d.Writes log d') (hc : d'.finish addNone o.filename = .ok c) :
    ∃ (P : Plot) (code : List Decoded) (pos : Nat → Nat), decode c.code = .ok code ∧
      P.Rendered o code pos ∧ ∀ {V : Type} (W : World V) (env : Env V), env.Reads c →
        ∀ (xs : List V), env.input = some xs → ∀ (h : History V) (r : Collected V),
          r = W.comprehend d.access target filters rest element xs h →
          W.Collects env (P.wordcourse code pos) h r := by
  have hsound := hemits.sound (closed_bodySteps o d _) hw (hd ▸ rfl)
  have hfaithful := hemits.faithful (Body.basic o d _).faithful
  obtain ⟨pl, out, rfl, ⟨rfl, htakes⟩, hmakes⟩ :=
    exists_plot_comprehension htarget hfilters hrest helement hcount hemits
  have hscript : Plot.script (pl ++ [.item (.emit .returnValue 0)]) =
      pl.script ++ [.emit .returnValue 0] := Plot.script_append _ _
  rw [← hscript] at hsound hw hfaithful
  obtain ⟨tail, code, pos, hdecode, hP, hclose, -⟩ := Plot.exists_rendered (hd ▸ hw) hsound
    (htakes.append (Plot.takes_map_item [.emit .returnValue 0])) hc
  rw [List.append_assoc] at hP
  refine ⟨_, code, pos, hdecode, hP, fun W env hreads xs hinput h r hr => ?_⟩
  have hknows := hreads.knows hclose hc (List.subset_append_left _ _) hfaithful
  obtain ⟨j, hj, hruns⟩ := (hmakes W env (hscript ▸ hknows) xs hinput h r hr).enacts hP
    List.suffix_rfl 0 hP.renders.at_start
  have hreturns := hP.returns (c := ⟨_, [.value (W.list r.elements)], []⟩)
    ⟨⟨0, _, _, _, rfl, rfl, rfl, rfl⟩, rfl⟩ (List.suffix_append _ _) hj
  exact ⟨_, hruns, rfl, hreturns, fun s' hs' => hP.enacts_only hruns hreturns hs'⟩

/-- The comprehension `[y for x in xs if not z for y in x if y]`. -/
def filteredItems : Expr :=
  .listComp 1 (.name 1 "y" .load)
    [⟨.name 1 "x" .store, .name 1 "xs" .load, [.unaryOp 1 .not (.name 1 "z" .load)]⟩,
      ⟨.name 1 "y" .store, .name 1 "x" .load, [.name 1 "y" .load]⟩]

/-- A function around the comprehension, which captures `z`. -/
def aroundItems : ScopeTable :=
  { ScopeTable.function "f" 1 with
    symbols := [("z", .cell), ("xs", .local)]
    children := [{ ScopeTable.listComprehension 1 with
      symbols := [(".0", .local), ("x", .local), ("y", .local), ("z", .free)] }] }

/-- The items of lists, one list after the other. -/
example : (World.small.comprehend (fun _ => .fast) (.name 1 "x" .store) []
    [⟨.name 1 "y" .store, .name 1 "x" .load, []⟩] (.name 1 "y" .load)
    [.list [.bool true, .unit], .list [.bool false]] []).elements =
      [.bool true, .unit, .bool false] := rfl

end Wordcode

import Wordcode.Proofs.Discipline
import Wordcode.Proofs.Quoted

/-!
# The runs of the scopes of a program

To compile a program is to run its scope. Where this run comes to a closure a nested scope is run,
with the table and the number that are due at this point, and within this one there may be others.
Every code object that compiling a program makes is what one of these runs was finished to.
-/

set_option autoImplicit false

namespace Wordcode

/-- What a scope is made from. -/
inductive Source where
  | program (p : Program)
  | body (b : Body)

namespace Source

def build (o : Options) : Source → Build Bool
  | .program p => do
    p.build o
    return p.addNone
  | .body b => b.build o

def steps (o : Options) (d : Draft) : Source → List Step
  | .program p => p.steps o d
  | .body b => b.steps o d

/-- Whether the scope returns `None` at its end. -/
def addNone (d : Draft) : Source → Bool
  | .program p => p.addNone
  | .body b => b.addNone d

def Quotes (src : Source) (k : CodeObject) : Prop :=
  match src with
  | .program p => p.Quotes k
  | .body b => QuotesIn b.expressions b.statements k

theorem closed (o : Options) (d : Draft) (src : Source) : Closed (src.steps o d) := by
  cases src with
  | program p => exact closed_programSteps o d p
  | body b => exact closed_bodySteps o d b

theorem quotes_of_steps {o : Options} {d : Draft} {src : Source} {k : CodeObject}
    (h : QuotesOf (src.steps o d) k) : src.Quotes k := by
  cases src with
  | program p => exact quotes_of_programSteps h
  | body b => exact Body.quotes_of_steps h

end Source

/-- How a scope was run: what it is made from and its table, the session it began with and the one
it came to, the script that was written in between, and the code object it was finished to. -/
structure ScopeRun where
  source : Source
  table : ScopeTable
  first : Session
  log : Script
  last : Session
  code : CodeObject

namespace ScopeRun

def steps (o : Options) (r : ScopeRun) : List Step := r.source.steps o r.first.draft

def addNone (r : ScopeRun) : Bool := r.source.addNone r.first.draft

/-- The scope is built from the first session to the last one, by running its steps, and finished. -/
structure Completes (o : Options) (r : ScopeRun) : Prop where
  build : r.source.build o r.first = .ok r.addNone r.last
  emits : Emits o r.first.draft (r.steps o) 1 r.log r.last.draft.blocks.size
  runs : Proceeds o r.first.draft (r.steps o) r.first r.log [] r.last
  finish : r.last.draft.finish r.addNone o.filename = .ok r.code

end ScopeRun

/-- Where steps are run from `s` to `s'`, which writes a script, they come to a closure and the
nested scope is entered. Its run is `r`. -/
inductive Meets (o : Options) (d : Draft) (steps : List Step) (s s' : Session) (r : ScopeRun) :
    Script → Prop where
  | intro {body : Body} {name : String} {line : UInt32} {parts : FunctionParts}
      {qualname : Option String} {lead rest : List Step} {log log' : Script}
      {before after : Session} :
      Proceeds o d steps s log (lead ++ .closure body name line parts qualname :: rest) before →
      lead.all Step.isSimple = true → before.Enters o body name line r.table r.code r.last after →
      r.source = .body body → r.first = before.inside name r.table line → r.Completes o →
      Proceeds o d (lead ++ closureSteps r.code parts (qualname.getD r.code.qualname) ++ rest) after
        log' [] s' →
      Meets o d steps s s' r (log ++ log')

/-- Within the run `r` of a scope, the nested scope with the run `r'` is entered. -/
abbrev ScopeRun.Enters (o : Options) (r r' : ScopeRun) : Prop :=
  Meets o r.first.draft (r.steps o) r.first r.last r' r.log

namespace Program

/-- The run of the program itself. -/
structure IsRun (o : Options) (p : Program) (t : ScopeTable) (r : ScopeRun) : Prop where
  source : r.source = .program p
  table : r.table = t
  first : r.first = ⟨.ofModule t, 1⟩
  completes : r.Completes o

/-- The run of the program or of a scope that is entered within it, however deep. -/
inductive HasRun (o : Options) (p : Program) (t : ScopeTable) : ScopeRun → Prop where
  | root {r : ScopeRun} : p.IsRun o t r → HasRun o p t r
  | nested {r r' : ScopeRun} : HasRun o p t r → r.Enters o r' → HasRun o p t r'

end Program

section Meets

variable {o : Options} {d : Draft} {xs ys : List Step} {s s₁ s' : Session} {log log' : Script}
  {r : ScopeRun} {k : CodeObject}

theorem Meets.after (h : Meets o d ys s₁ s' r log') (hruns : Proceeds o d xs s log ys s₁) :
    Meets o d xs s s' r (log ++ log') := by
  obtain ⟨hbefore, hlead, henters, hsource, hfirst, hcompletes, hafter⟩ := h
  rw [← List.append_assoc]
  exact .intro (hruns.trans hbefore) hlead henters hsource hfirst hcompletes hafter

theorem Meets.completes (h : Meets o d xs s s' r log) : r.Completes o := by
  obtain ⟨_, _, _, _, _, hcompletes, _⟩ := h
  exact hcompletes

theorem codes_closureSteps (code : CodeObject) (parts : FunctionParts) (qualname : String) :
    (closureSteps code parts qualname).filterMap Step.code? = [code] := by
  have hcells (xs : List String) : (xs.map (Step.named .loadClosure)).filterMap Step.code? = [] := by
    induction xs with
    | nil => rfl
    | cons x xs ih => exact ih
  unfold closureSteps
  split
  · rfl
  · simp only [List.filterMap_append, hcells]
    rfl

theorem Step.quotes_of_code? {x : Step} (h : x.code? = some k) : x.Quotes k := by
  cases x with
  | load c | intern c =>
    cases c <;> cases h
    rfl
  | _ => cases h

theorem quotesOf_of_mem_codes (h : k ∈ xs.filterMap Step.code?) : QuotesOf xs k := by
  obtain ⟨x, hx, hk⟩ := List.mem_filterMap.mp h
  exact ⟨x, hx, Step.quotes_of_code? hk⟩

/-- What steps load is put among the constants. -/
theorem Proceeds.codes_subset (h : Proceeds o d xs s log [] s') :
    xs.filterMap Step.code? ⊆ log.codes := by
  generalize hrest : ([] : List Step) = rest at h
  induction h with
  | stop => exact hrest ▸ List.nil_subset _
  | quiet _ _ ih => exact ih hrest
  | @put d x steps _ out log _ _ _ hx _ _ ih =>
    have hcons : (x :: steps).filterMap Step.code? = x.code?.toList ++ steps.filterMap Step.code? := by
      rw [List.filterMap_cons]
      cases x.code? <;> rfl
    rw [Script.codes_append, hx.codes_eq, hcons]
    intro k hk
    exact List.mem_append.mpr ((List.mem_append.mp hk).imp_right fun hk => ih hrest hk)
  | run _ _ _ _ _ ih =>
    rw [Script.codes_alloc]
    rw [List.filterMap_append] at ih
    exact fun k hk => ih hrest (List.mem_append_right _ hk)
  | closure _ _ _ _ _ _ _ ihmade ih =>
    rw [Script.codes_append, List.filterMap_append]
    rw [List.filterMap_append] at ihmade
    rintro k hk
    rcases List.mem_append.mp hk with hk | hk
    · exact List.mem_append_left _ (ihmade rfl (List.mem_append_left _ hk))
    · exact List.mem_append_right _ (ih hrest hk)

/-- Nothing stands in the steps that are left that did not stand in those before. -/
theorem Proceeds.quotesOf (h : Proceeds o d xs s log ys s') (hk : QuotesOf ys k) :
    QuotesOf xs k := by
  induction h with
  | stop => exact hk
  | quiet _ _ ih => exact ih hk
  | put _ _ _ ih => exact quotesOf_cons.mpr (.inr (ih hk))
  | run _ _ _ _ _ ih =>
    rw [quotesOf_cons]
    exact (quotesOf_append.mp (ih hk)).imp_left Task.quotes_of_steps
  | closure _ _ _ _ _ _ _ _ ih =>
    exact quotesOf_append.mpr (.inr (quotesOf_cons.mpr (.inr (ih hk))))

theorem Meets.mem_children (h : Meets o d xs s s' r log) : r.table ∈ s.draft.children := by
  obtain ⟨hbefore, _, henters, _⟩ := h
  exact hbefore.writes.evolves.children.subset (henters.children ▸ List.mem_cons_self)

theorem Meets.opened (h : Meets o d xs s s' r log) : ∃ name qualname serial line nested,
    r.first.draft = .ofTable name qualname r.table serial line nested := by
  obtain ⟨_, _, _, _, hfirst, _⟩ := h
  exact ⟨_, _, _, _, _, congrArg Session.draft hfirst⟩

/-- The code object of a nested scope becomes a constant. -/
theorem Meets.mem_codes (h : Meets o d xs s s' r log) : r.code ∈ log.codes := by
  obtain ⟨_, _, _, _, _, _, hafter⟩ := h
  rw [Script.codes_append]
  refine List.mem_append_right _ (hafter.codes_subset ?_)
  simp only [List.filterMap_append, codes_closureSteps]
  simp

theorem Meets.quotesOf (h : Meets o d xs s s' r log) (hk : r.source.Quotes k) : QuotesOf xs k := by
  obtain ⟨hbefore, _, _, hsource, _⟩ := h
  rw [hsource] at hk
  exact hbefore.quotesOf (quotesOf_append.mpr (.inr (quotesOf_cons.mpr (.inl hk))))

/-- The code objects that running steps puts among the constants stand in what the steps are made
from or are made of nested scopes that are entered. -/
theorem Proceeds.exists_meets (h : Proceeds o d xs s log [] s') (hk : k ∈ log.codes)
    (hnot : ¬ QuotesOf xs k) : ∃ r, Meets o d xs s s' r log ∧ r.code = k := by
  generalize hrest : ([] : List Step) = rest at h
  induction h with
  | stop => cases hk
  | quiet hw _ ih =>
    obtain ⟨r, hmeets, hcode⟩ := ih hk hnot hrest
    exact ⟨r, hmeets.after (.quiet hw .stop), hcode⟩
  | put hx hw _ ih =>
    rw [quotesOf_cons, not_or] at hnot
    rw [Script.codes_append, List.mem_append, hx.codes_eq, Option.mem_toList] at hk
    rcases hk with hk | hk
    · exact absurd (Step.quotes_of_code? hk) hnot.1
    · obtain ⟨r, hmeets, hcode⟩ := ih hk hnot.2 hrest
      have hmeets := hmeets.after (.put hx hw .stop)
      rw [List.append_nil] at hmeets
      exact ⟨r, hmeets, hcode⟩
  | run hw hchildren hpassed hserial _ ih =>
    rw [quotesOf_cons, not_or] at hnot
    rw [Script.codes_alloc] at hk
    obtain ⟨r, hmeets, hcode⟩ := ih hk
      (fun h => (quotesOf_append.mp h).elim (hnot.1 ∘ Task.quotes_of_steps) hnot.2) hrest
    have hmeets := hmeets.after (.run hw hchildren hpassed hserial .stop)
    rw [List.append_nil] at hmeets
    exact ⟨r, hmeets, hcode⟩
  | @closure d body name line parts qualname table code lead steps rest within out log s inner s₁ s₂
      s' hlead henters hinner hemits hmade hsteps _ _ ih =>
    rw [quotesOf_append, quotesOf_cons, not_or, not_or] at hnot
    have hsimple : (lead ++ closureSteps code parts (qualname.getD code.qualname)).all
        Step.isSimple = true := by
      rw [List.all_append, hlead, Build.all_isSimple_closureSteps]
      rfl
    rw [Script.codes_append, List.mem_append, (hmade.of_simple hsimple).2, List.filterMap_append,
      codes_closureSteps, List.mem_append, List.mem_singleton] at hk
    rcases hk with (hk | rfl) | hk
    · exact absurd (quotesOf_of_mem_codes hk) hnot.1
    · subst hrest
      have hcompletes : ScopeRun.Completes o
          ⟨.body body, table, s.inside name table line, within, inner, k⟩ :=
        ⟨henters.build, hemits, hinner, henters.finish⟩
      have hmeets := Meets.intro .stop hlead henters rfl rfl hcompletes (hmade.append hsteps)
      exact ⟨_, hmeets, rfl⟩
    · obtain ⟨r, hmeets, hcode⟩ := ih hk hnot.2.2 hrest
      have hmeets := hmeets.after (.closure hlead henters hinner hemits hmade .stop)
      rw [List.append_nil] at hmeets
      exact ⟨r, hmeets, hcode⟩

end Meets

section Compile

variable {o : Options} {p : Program} {t : ScopeTable} {r : ScopeRun} {c c' : CodeObject}

/-- What is known of every run within that of a program. -/
structure ScopeRun.Within (o : Options) (p : Program) (t : ScopeTable) (r : ScopeRun) : Prop where
  completes : r.Completes o
  opened : ∃ name qualname serial line nested,
    r.first.draft = .ofTable name qualname r.table serial line nested
  table : r.table = t ∨ t.Inside r.table
  quotes : ∀ k, r.source.Quotes k → p.Quotes k

theorem Program.HasRun.within (h : p.HasRun o t r) : r.Within o p t := by
  induction h with
  | @root r h =>
    refine ⟨h.completes, ⟨"<module>", "<module>", 0, 1, false, ?_⟩, .inl h.table, ?_⟩
    · rw [h.first, h.table]
      rfl
    · rw [h.source]
      exact fun k hk => hk
  | @nested r r' _ hmeets ih =>
    obtain ⟨_, _, _, _, _, hopened⟩ := ih.opened
    have hmem : r'.table ∈ r.table.children := by
      have hmem := hmeets.mem_children
      rwa [hopened] at hmem
    refine ⟨hmeets.completes, hmeets.opened, .inr ?_, fun k hk =>
      ih.quotes k (Source.quotes_of_steps (hmeets.quotesOf hk))⟩
    rcases ih.table with htable | htable
    · exact .child (htable ▸ hmem)
    · exact .deeper htable hmem

/-- A program that compiles has a run. -/
theorem exists_isRun (h : compile p t o = .ok c) : ∃ r, p.IsRun o t r ∧ r.code = c := by
  obtain ⟨_, s, hrun, hfinish⟩ := of_compile_run h
  have hbuild : (Source.program p).build o ⟨.ofModule t, 1⟩ = .ok p.addNone s := by
    show (p.build o >>= fun _ => pure p.addNone) _ = _
    change EStateM.bind (p.build o) _ _ = _
    rw [EStateM.bind, hrun]
    rfl
  obtain ⟨_, log, hemits, hruns⟩ := (p.follows o (.ofModule t)).ok (.refl _) hrun
  exact ⟨⟨.program p, t, ⟨.ofModule t, 1⟩, log, s, c⟩, ⟨rfl, rfl, rfl, hbuild, hemits, hruns,
    hfinish⟩, rfl⟩

/-- A code object inside another one is made of a nested scope that is entered or stands in the
program. -/
theorem Program.HasRun.exists_enters (h : p.HasRun o t r) (hc : c ∈ r.code.nested)
    (hnot : ¬ p.Quotes c) : ∃ r', r.Enters o r' ∧ r'.code = c := by
  have hwithin := h.within
  obtain ⟨_, _, _, _, _, hopened⟩ := hwithin.opened
  have hw := hwithin.completes.runs.writes
  rw [hopened] at hw
  obtain ⟨k, hk, hcode⟩ := List.mem_filterMap.mp hc
  obtain rfl : k = .code c := by
    cases k <;> cases hcode
    rfl
  have hintern := mem_constants_of_finish hw hwithin.completes.finish hk
  have hmem : c ∈ r.log.codes :=
    List.mem_filterMap.mpr ⟨.code c, List.mem_filterMap.mpr ⟨_, hintern, rfl⟩, rfl⟩
  exact hwithin.completes.runs.exists_meets hmem fun hq =>
    hnot (hwithin.quotes c (Source.quotes_of_steps hq))

/-- Every code object that compiling a program makes is what a run was finished to. -/
theorem exists_hasRun (h : compile p t o = .ok c) (hc' : c.Yields p.Quotes c') :
    ∃ r, p.HasRun o t r ∧ r.code = c' := by
  have hroot : ∃ r, p.HasRun o t r ∧ r.code = c :=
    have ⟨r, hrun, hcode⟩ := exists_isRun h
    ⟨r, .root hrun, hcode⟩
  clear h
  induction hc' with
  | root => exact hroot
  | nested hmem hnot _ ih =>
    obtain ⟨r, hrun, rfl⟩ := hroot
    obtain ⟨r', henters, hcode⟩ := hrun.exists_enters hmem hnot
    exact ih ⟨r', .nested hrun henters, hcode⟩

end Compile

end Wordcode

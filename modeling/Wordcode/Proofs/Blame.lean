import Wordcode.Proofs.Comparisons
import Wordcode.Proofs.Makeup
import Wordcode.Proofs.Slots

/-!
# The scope an error names

An internal error is raised without a scope. A statement names the scope at hand in the errors that
pass it, and a scope that cannot be finished names itself; only the first name stays. So an error
names the scope in which compiling broke off, whatever statements and scopes there are around it.
An expression that is compiled by itself stands in no statement: what breaks off in it names no
scope, unless a scope cannot be finished.
-/

set_option autoImplicit false

namespace Wordcode

/-- What is being done to a scope. -/
inductive Phase where
  | building
  | finishing
  deriving DecidableEq

namespace Build

/-- A build breaks off with a fault while the draft of the innermost open scope is built, or because
that of a scope cannot be finished. -/
inductive Breaks : {α : Type} → Build α → Session → Fault → Draft → Phase → Prop where
  | fail {α : Type} (f : Fault) (s : Session) : Breaks (fail f : Build α) s f s.draft .building
  | finish {d : Draft} {addNone : Bool} {filename : String} {f : Fault} {scope : Option String}
    {line : Option UInt32} (s : Session) :
    d.finish addNone filename = .error (.internal f scope line) →
    Breaks (ofExcept (d.finish addNone filename)) s f d .finishing
  | first {α β : Type} {b : Build α} {g : α → Build β} {s : Session} {f : Fault} {d : Draft}
    {phase : Phase} : Breaks b s f d phase → Breaks (b >>= g) s f d phase
  | later {α β : Type} {b : Build α} {g : α → Build β} {s s' : Session} {a : α} {f : Fault}
    {d : Draft} {phase : Phase} : b s = .ok a s' → Breaks (g a) s' f d phase →
    Breaks (b >>= g) s f d phase
  | inStatement {b : Build Unit} {line : UInt32} {s : Session} {f : Fault} {d : Draft}
    {phase : Phase} : Breaks b ⟨s.draft.setLine line, s.nextSerial⟩ f d phase →
    Breaks (inStatement line b) s f d phase

/-- What is known of the scope that an error names. -/
def Blames (scope : Option String) (s : Session) (d : Draft) : Phase → Prop
  | .building => s.draft = d ∧ (scope = none ∨ scope = some d.qualname)
  | .finishing => scope = some d.qualname

end Build

/-- What cannot be finished is named in the error. -/
theorem Draft.scope_of_finish {d : Draft} {addNone : Bool} {filename : String} {f : Fault}
    {scope : Option String} {line : Option UInt32}
    (h : d.finish addNone filename = .error (.internal f scope line)) :
    scope = some d.qualname := by
  have hcontext {f' : Fault}
      (heq : (CompileError.fault f').withContext d.qualname 0 = .internal f scope line) :
      scope = some d.qualname := (CompileError.internal.inj heq).2.1.symm
  unfold Draft.finish at h
  split at h
  · cases hassemble : d.assemble addNone filename with
    | ok c =>
      rw [hassemble] at h
      cases h
    | error e =>
      rw [hassemble] at h
      have h := Except.error.inj h
      rcases of_assemble_error hassemble with hlayout | hdepth
      · cases hlayout with
        | overflow => cases h
        | fault _ => exact hcontext h
      · rcases maxStackDepth_error hdepth with ⟨b, k, op, rfl⟩ | rfl
        · exact hcontext h
        · cases h
  · exact hcontext (Except.error.inj h)

/-- A scope has a slot for every name that it reaches through a cell. -/
theorem Draft.Evolves.exists_derefSlot {name qualname : String} {t : ScopeTable}
    {serial line : UInt32} {nested : Bool} {d : Draft} {x : String}
    (hd : (Draft.ofTable name qualname t serial line nested).Evolves d)
    (haccess : d.access x = .deref) : ∃ slot, d.derefSlot x = .ok slot := by
  have hlookup : d.resolution? x = t.symbols.lookup x := by
    rw [Draft.resolution?, hd.keeps Draft.symbols fun _ => rfl]
    rfl
  have hfree : d.freevars = .ofList t.freevars := hd.keeps Draft.freevars fun _ => rfl
  by_cases hcell : x ∈ d.cellvars.toList
  · exact ⟨_, derefSlot_of_mem_cellvars hcell⟩
  · refine ⟨_, derefSlot_of_mem_freevars hcell ?_⟩
    rw [hd.toList_cellvars, List.mem_eraseDups, ScopeTable.mem_cellNames, not_or] at hcell
    rw [hfree, Pool.toList_ofList, List.mem_eraseDups]
    unfold Draft.access at haccess
    rw [hlookup] at haccess
    split at haccess
    · next h => exact Symbols.mem_sortedNames.mpr (Symbols.mem_of_lookup h)
    · next h => exact absurd (Symbols.mem_sortedNames.mpr (Symbols.mem_of_lookup h)) hcell.2
    all_goals try split at haccess
    all_goals cases haccess

/-- Access to a name never fails. -/
theorem Draft.Evolves.accessName_ne_error {name qualname : String} {t : ScopeTable}
    {serial line : UInt32} {nested : Bool} {s s' : Session} {e : CompileError} {x : String}
    {ctx : Ctx} (hd : (Draft.ofTable name qualname t serial line nested).Evolves s.draft) :
    Build.accessName x ctx s ≠ .error e s' := by
  intro h
  rcases Build.of_bind_error h with hask | ⟨access, s₁, hask, hrun⟩
  · cases hask
  obtain ⟨rfl, rfl⟩ : s.draft.access x = access ∧ s = s₁ := by
    cases hask
    exact ⟨rfl, rfl⟩
  cases haccess : s.draft.access x with
  | deref =>
    obtain ⟨slot, hslot⟩ := hd.exists_derefSlot haccess
    rw [show s = ⟨s.draft, s.nextSerial⟩ from rfl, derefs_of_derefSlot haccess hslot] at h
    cases h
  | fast | global | name =>
    rw [haccess] at hrun
    rcases Build.of_bind_error hrun with hname | ⟨_, _, _, hemit⟩
    · cases hname
    · exact Build.emitArg_ne_error (.inl (by cases ctx <;> rfl)) hemit

namespace Build

variable {α : Type} {s s' : Session} {f : Fault} {d : Draft} {phase : Phase}
  {scope : Option String} {line : Option UInt32}

theorem inStatement_run (line : UInt32) (b : Build Unit) (s : Session) :
    inStatement line b s = match b ⟨s.draft.setLine line, s.nextSerial⟩ with
      | .ok a s' => .ok a s'
      | .error e s' => .error (e.withContext s'.draft.qualname line) s' :=
  tryCatch_run b line ⟨s.draft.setLine line, s.nextSerial⟩

/-- Whatever breaks off ends in the fault, with the scope it is said to name. -/
theorem Breaks.run {b : Build α} (h : Breaks b s f d phase) : ∃ scope line s',
    b s = .error (.internal f scope line) s' ∧ Blames scope s' d phase := by
  induction h with
  | fail f s => exact ⟨none, none, s, rfl, rfl, .inl rfl⟩
  | finish s h => exact ⟨_, _, s, by rw [h]; rfl, Draft.scope_of_finish h⟩
  | @first _ _ b g s f d phase _ ih =>
    obtain ⟨scope, line, s', hb, hscope⟩ := ih
    refine ⟨scope, line, s', ?_, hscope⟩
    show EStateM.bind b g s = _
    rw [EStateM.bind, hb]
  | @later _ _ b g s s₁ a f d phase hb _ ih =>
    obtain ⟨scope, line, s', hg, hscope⟩ := ih
    refine ⟨scope, line, s', ?_, hscope⟩
    show EStateM.bind b g s = _
    rw [EStateM.bind, hb]
    exact hg
  | @inStatement b line s f d phase _ ih =>
    obtain ⟨scope, l, s', hb, hscope⟩ := ih
    rw [inStatement_run, hb]
    cases scope with
    | some q => exact ⟨some q, l, s', rfl, hscope⟩
    | none =>
      cases phase with
      | finishing => cases hscope
      | building =>
        obtain ⟨rfl, _⟩ := hscope
        exact ⟨_, _, s', rfl, rfl, .inr rfl⟩

theorem Breaks.blames {b : Build α} (h : Breaks b s f d phase) {f' : Fault}
    (hrun : b s = .error (.internal f' scope line) s') : Blames scope s' d phase := by
  obtain ⟨_, _, _, heq, hscope⟩ := h.run
  rw [heq] at hrun
  cases hrun
  exact hscope

/-- A build that fails breaks off somewhere. If that is outside of all statements it names no
scope. -/
theorem Made.breaks {stmts bare : Bool} {b : Build α} (h : Made stmts bare b)
    (hrun : b s = .error (.internal f scope line) s') : ∃ d phase, Breaks b s f d phase ∧
      (scope = none → bare = true) ∧ (scope.isSome = true → phase = .building → stmts = true) := by
  induction h generalizing scope line s s' with
  | pure a | change g => cases hrun
  | fail f =>
    cases hrun
    exact ⟨s.draft, .building, .fail f s, fun _ => rfl, nofun⟩
  | refuse he =>
    cases hrun
    cases he
  | finish d addNone filename =>
    cases hfinish : d.finish addNone filename with
    | ok c =>
      rw [hfinish] at hrun
      cases hrun
    | error e =>
      rw [hfinish] at hrun
      cases hrun
      refine ⟨d, .finishing, hfinish ▸ .finish s hfinish, fun hnone => ?_, nofun⟩
      rw [Draft.scope_of_finish hfinish] at hnone
      cases hnone
  | bind _ _ ihb ihf =>
    rcases of_bind_error hrun with hb | ⟨a, s₁, hb, hf⟩
    · obtain ⟨d, phase, hbreaks, hscope⟩ := ihb hb
      exact ⟨d, phase, .first hbreaks, hscope⟩
    · obtain ⟨d, phase, hbreaks, hscope⟩ := ihf a hf
      exact ⟨d, phase, .later hb hbreaks, hscope⟩
  | inStatement line hstmts _ ih =>
    rw [inStatement_run] at hrun
    split at hrun
    · cases hrun
    · next e s₁ hb =>
      cases e with
      | internal f' inner l =>
        obtain ⟨hfault, hscope, rfl⟩ : f' = f ∧ scope.isSome = true ∧ s₁ = s' := by
          cases inner <;> cases hrun <;> exact ⟨rfl, rfl, rfl⟩
        obtain ⟨d, phase, hbreaks, _⟩ := ih (hfault ▸ hb)
        exact ⟨d, phase, .inStatement hbreaks, fun hnone => by simp [hnone] at hscope,
          fun _ _ => hstmts⟩
      | unsupportedMode | invalidPosition | overflow => cases hrun

end Build

open Build

section Modules

variable {o : Options} {t : ScopeTable} {body : List Stmt} {s s' : Session}

/-- No module breaks off at its docstring. -/
theorem bindDocstring_ne_error {e : CompileError} (hd : (Draft.ofModule t).Evolves s.draft) :
    bindDocstring o body s ≠ .error e s' := by
  have hbind {doc : String} {s : Session} (hd : (Draft.ofModule t).Evolves s.draft) :
      (do loadConst (.str doc); accessName "__doc__" .store) s ≠ .error e s' := by
    intro h
    rcases of_bind_error h with hload | ⟨_, s₁, hload, haccess⟩
    · exact loadConst_ne_error hload
    · have hloaded := ((follows_loadConst (o := o) _).ok hd hload).2.evolves
      exact (hd.trans hloaded).accessName_ne_error haccess
  unfold bindDocstring
  cases keptDocstring? o body with
  | none => nofun
  | some doc =>
    cases body.head? with
    | none => exact hbind hd
    | some first =>
      intro h
      rcases of_bind_error h with hline | ⟨_, s₁, hline, h⟩
      · cases hline
      · exact hbind (hd.trans ((follows_setLine (o := o) _).ok hd hline).2.evolves) h

variable {f : Fault} {scope : Option String} {line : Option UInt32}

/-- The statements of a module, with its docstring in front of them. -/
theorem breaks_documented (hd : (Draft.ofModule t).Evolves s.draft)
    (h : (do bindDocstring o body; Stmt.lowerAll o [] (withoutDocstring o body)) s =
      .error (.internal f scope line) s') :
    scope.isSome = true ∧ ∃ d phase,
      Breaks (do bindDocstring o body; Stmt.lowerAll o [] (withoutDocstring o body)) s f d
        phase := by
  rcases of_bind_error h with hdoc | ⟨_, s₁, hdoc, h⟩
  · exact absurd hdoc (bindDocstring_ne_error hd)
  · have hmade : Made true false (Stmt.lowerAll o [] (withoutDocstring o body)) :=
      Stmt.made_all o [] _
    obtain ⟨d, phase, hbreaks, hnone, _⟩ := hmade.breaks h
    refine ⟨?_, d, phase, .later hdoc hbreaks⟩
    cases scope with
    | none => cases hnone rfl
    | some => rfl

/-- A module breaks off within a statement, or when a scope in one is finished. -/
theorem breaks_lowerModule
    (h : Stmt.lowerModule o body ⟨.ofModule t, 1⟩ = .error (.internal f scope line) s') :
    scope.isSome = true ∧
      ∃ d phase, Breaks (Stmt.lowerModule o body) ⟨.ofModule t, 1⟩ f d phase := by
  unfold Stmt.lowerModule at h ⊢
  cases hhead : body.head? with
  | none =>
    rw [hhead] at h
    exact breaks_documented (.refl _) h
  | some first =>
    rw [hhead] at h
    rcases of_bind_error h with hline | ⟨_, s₁, hline, h⟩
    · cases hline
    · have hd := ((follows_setLine (o := o) _).ok (.refl _) hline).2.evolves
      obtain ⟨hscope, d, phase, hbreaks⟩ := breaks_documented hd h
      exact ⟨hscope, d, phase, .later hline hbreaks⟩

end Modules

def Program.isExpression : Program → Bool
  | .expression _ => true
  | _ => false

/-- Compiling a program breaks off with a fault: some scope in it, which may be the outermost one,
cannot be built or finished. -/
inductive Program.BreaksOff (p : Program) (t : ScopeTable) (o : Options) :
    Fault → Draft → Phase → Prop where
  | within {f : Fault} {d : Draft} {phase : Phase} :
    Breaks (p.build o) ⟨.ofModule t, 1⟩ f d phase → BreaksOff p t o f d phase
  | atEnd {s : Session} {f : Fault} {scope : Option String} {line : Option UInt32} :
    p.build o ⟨.ofModule t, 1⟩ = .ok () s →
    s.draft.finish p.addNone o.filename = .error (.internal f scope line) →
    BreaksOff p t o f s.draft .finishing

section Programs

variable {p : Program} {t : ScopeTable} {o : Options} {f : Fault} {scope : Option String}
  {line : Option UInt32}

theorem compile_eq (hkind : t.kind = .module) :
    compile p t o = match p.build o ⟨.ofModule t, 1⟩ with
      | .ok _ s => s.draft.finish p.addNone o.filename
      | .error e _ => .error e := by
  cases p with
  | module body => exact if_pos hkind
  | expression e => exact if_pos hkind
  | interactive body => rfl

/-- The scope that an error names, if any, is that in which compiling broke off, however that is
told. -/
theorem Program.BreaksOff.scope_eq {d : Draft} {phase : Phase} {f' : Fault}
    (h : p.BreaksOff t o f d phase) (hkind : t.kind = .module)
    (herror : compile p t o = .error (.internal f' scope line)) :
    scope = none ∨ scope = some d.qualname := by
  rw [compile_eq hkind] at herror
  cases h with
  | within hbreaks =>
    obtain ⟨_, _, s', hrun, hblames⟩ := hbreaks.run
    rw [hrun] at herror
    cases herror
    cases phase with
    | building => exact hblames.2
    | finishing => exact .inr hblames
  | atEnd hrun hfinish =>
    rw [hrun] at herror
    exact .inr (Draft.scope_of_finish herror)

/-- What breaks off in building an expression names no scope; any other part of a program names the
one that was being built. -/
theorem breaks_build {s' : Session}
    (h : p.build o ⟨.ofModule t, 1⟩ = .error (.internal f scope line) s') : ∃ d phase,
      Breaks (p.build o) ⟨.ofModule t, 1⟩ f d phase ∧
      scope = if p.isExpression ∧ phase = .building then none else some d.qualname := by
  cases p with
  | module body =>
    obtain ⟨hscope, d, phase, hbreaks⟩ := breaks_lowerModule h
    refine ⟨d, phase, hbreaks, ?_⟩
    have hblames := hbreaks.blames h
    cases phase with
    | building =>
      obtain ⟨_, rfl | hblames⟩ := hblames
      · cases hscope
      · exact hblames
    | finishing => exact hblames
  | expression e =>
    have hmade : Made false true (e.lower o.filename .push) := e.made o.filename .push
    obtain ⟨d, phase, hbreaks, _, hstmts⟩ := hmade.breaks h
    refine ⟨d, phase, hbreaks, ?_⟩
    have hblames := hbreaks.blames h
    cases phase with
    | building =>
      obtain ⟨_, hblames | rfl⟩ := hblames
      · exact hblames
      · cases hstmts rfl rfl
    | finishing => exact hblames
  | interactive body => cases h

/-- An internal error names the scope in which compiling broke off, be it in building that scope or
in finishing it, and no statement or scope around it changes that. The exception is an expression
that is compiled by itself: it names no scope unless one could not be finished. -/
theorem compile_blames (hkind : t.kind = .module)
    (h : compile p t o = .error (.internal f scope line)) :
    (∃ d phase, p.BreaksOff t o f d phase ∧
      scope = if p.isExpression ∧ phase = .building then none else some d.qualname) ∧
    ∀ d phase, p.BreaksOff t o f d phase → scope = none ∨ scope = some d.qualname := by
  refine ⟨?_, fun d phase hbreaks => hbreaks.scope_eq hkind h⟩
  rw [compile_eq hkind] at h
  cases hrun : p.build o ⟨.ofModule t, 1⟩ with
  | ok u s =>
    rw [hrun] at h
    exact ⟨s.draft, .finishing, .atEnd hrun h, by simp [Draft.scope_of_finish h]⟩
  | error e s =>
    rw [hrun] at h
    cases h
    obtain ⟨d, phase, hbreaks, hscope⟩ := breaks_build hrun
    exact ⟨d, phase, .within hbreaks, hscope⟩

end Programs

/-- A class with a method that makes a lambda of which the method's table knows nothing. -/
def methodLambda : Program :=
  let noArgs : Arguments := ⟨[], [], none, [], [], none, []⟩
  .module [.classDef 1 "A" [] []
    [.functionDef 2 "f" noArgs [.expr 3 (.lambda 3 noArgs (.constant 3 (.int 0)))] [] none] []]

def methodLambdaTable : ScopeTable :=
  let a := { ScopeTable.ofClass "A" 1 with
    symbols := [("f", .local)], children := [.function "f" 2] }
  { ScopeTable.module with symbols := [("A", .local)], children := [a] }

/-- The method is named, with the class it stands in, and so is the statement: the statement around
the class adds nothing. -/
theorem methodLambda_blames : methodLambdaTable.kind = .module ∧
    compile methodLambda methodLambdaTable {} =
      .error (.internal (.noChildScope "f") (some "A.f") (some 3)) ∧
    (∃ d phase, methodLambda.BreaksOff methodLambdaTable {} (.noChildScope "f") d phase ∧
      some "A.f" =
        if methodLambda.isExpression ∧ phase = .building then none else some d.qualname) ∧
    ∀ d phase, methodLambda.BreaksOff methodLambdaTable {} (.noChildScope "f") d phase →
      some "A.f" = none ∨ some "A.f" = some d.qualname := by
  have herror : failure? (compile methodLambda methodLambdaTable {}) =
      some (.internal (.noChildScope "f") (some "A.f") (some 3)) := by
    decide +kernel
  have hcompile := failure?_eq_some_iff.mp herror
  exact ⟨rfl, hcompile, compile_blames rfl hcompile⟩

/-- A lambda that is compiled by itself with a table that knows nothing of it. -/
def bareLambda : Program :=
  .expression (.lambda 1 ⟨[], [], none, [], [], none, []⟩ (.constant 1 (.int 0)))

/-- The scope of the module is open when it turns out that there is no table for the lambda, and
the error does not name it. -/
theorem bareLambda_blames_none : ScopeTable.module.kind = .module ∧
    compile bareLambda .module {} = .error (.internal (.noChildScope "<module>") none none) := by
  have herror : failure? (compile bareLambda .module {}) =
      some (.internal (.noChildScope "<module>") none none) := by
    decide
  exact ⟨rfl, failure?_eq_some_iff.mp herror⟩

end Wordcode

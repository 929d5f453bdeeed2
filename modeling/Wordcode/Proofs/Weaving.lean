import Wordcode.Proofs.Scheme

/-!
# Running the steps of a scope

What is left to be done in a scope is a list of steps. A construct comes down to the steps of its
scheme, and what is written goes into the draft. Where a function is made the next table is taken,
and the nested scope is run from its start to its end and finished before the scope around it goes
on; an assertion that is left out passes over the tables that it would take.
-/

set_option autoImplicit false

namespace Wordcode

/-- How many tables of nested scopes a construct passes over: those of an assertion left out. -/
def Task.skipCount (o : Options) : Task → Nat
  | .stmt _ (.assert _ test msg) =>
    if o.stripsAsserts then test.scopeCount + (msg.map Expr.scopeCount).getD 0 else 0
  | _ => 0

/-- No expression, so that its script may be any, and no assertion, which may pass over tables. -/
def Task.isSimple : Task → Bool
  | .expr .. | .stmt _ (.assert ..) => false
  | _ => true

theorem Task.ran_of_isSimple {t : Task} (h : t.isSimple = true) (o : Options) (log : Script) :
    t.Ran o log := by
  unfold Task.Ran
  split
  · cases h
  · trivial

theorem Task.skipCount_of_isSimple {t : Task} (h : t.isSimple = true) (o : Options) :
    t.skipCount o = 0 := by
  unfold Task.skipCount
  split
  · cases h
  · rfl

namespace Session

/-- A script is written, and no nested scope is entered or passed over. -/
structure Writes (s : Session) (log : Script) (s' : Session) : Prop where
  draft : s.draft.Writes log s'.draft
  children : s'.draft.children = s.draft.children
  serial : s'.nextSerial = s.nextSerial

/-- What a nested scope begins with. -/
def inside (s : Session) (name : String) (table : ScopeTable) (line : UInt32) : Session :=
  ⟨s.draft.child name table s.nextSerial line, s.nextSerial + 1⟩

/-- A nested scope takes the next table. It is built to its end, the session `inner`, and finished
to `code`; the scope around it goes on from `s'`. -/
structure Enters (o : Options) (body : Body) (name : String) (line : UInt32) (table : ScopeTable)
    (code : CodeObject) (s inner s' : Session) : Prop where
  children : s.draft.children = table :: s'.draft.children
  kind : table.kind = body.kind
  build : body.build o (s.inside name table line) =
    .ok (body.addNone (s.inside name table line).draft) inner
  finish : inner.draft.finish (body.addNone (s.inside name table line).draft) o.filename = .ok code
  draft : s'.draft = { s.draft with children := s'.draft.children }
  serial : s'.nextSerial = inner.nextSerial

variable {s s₁ s' : Session} {log log' : Script}

theorem Writes.refl (s : Session) : s.Writes [] s := ⟨.nil, rfl, rfl⟩

theorem Writes.trans (h : s.Writes log s₁) (h' : s₁.Writes log' s') : s.Writes (log ++ log') s' :=
  ⟨h.draft.trans h'.draft, h'.children.trans h.children, h'.serial.trans h.serial⟩

theorem Enters.writes {o : Options} {body : Body} {name : String} {line : UInt32}
    {table : ScopeTable} {code : CodeObject} {inner : Session}
    (h : s.Enters o body name line table code inner s') : s.draft.Writes [] s'.draft := by
  have hsuffix : s'.draft.children <:+ s.draft.children := h.children ▸ List.suffix_cons _ _
  rw [h.draft]
  exact .quiet .nil ⟨rfl, hsuffix, List.prefix_rfl, List.prefix_rfl, List.prefix_rfl⟩ rfl rfl rfl
    fun hstamped => ⟨hstamped, rfl⟩

end Session

/-- A step that is written by itself. -/
def Step.isSimple : Step → Bool
  | .run _ | .closure .. => false
  | _ => true

/-- The steps of the scope that was opened as `d` are run down to the last ones. This writes a script
and leads from one session to another. -/
inductive Proceeds (o : Options) :
    Draft → List Step → Session → Script → List Step → Session → Prop where
  | stop {d : Draft} {steps : List Step} {s : Session} : Proceeds o d steps s [] steps s
  /-- Lines and tables of names change. -/
  | quiet {d : Draft} {steps rest : List Step} {log : Script} {s s₁ s' : Session} :
      s.Writes [] s₁ → Proceeds o d steps s₁ log rest s' → Proceeds o d steps s log rest s'
  | put {d : Draft} {x : Step} {steps rest : List Step} {out log : Script} {s s₁ s' : Session} :
      x.Puts out → s.Writes out s₁ → Proceeds o d steps s₁ log rest s' →
      Proceeds o d (x :: steps) s (out ++ log) rest s'
  | run {d : Draft} {t : Task} {steps rest : List Step} {passed : List ScopeTable} {log : Script}
      {s s₁ s' : Session} : s.draft.Writes (List.replicate (t.labelCount o) .alloc) s₁.draft →
      s.draft.children = passed ++ s₁.draft.children → passed.length = t.skipCount o →
      s₁.nextSerial = s.nextSerial →
      Proceeds o d (t.steps o d s.draft.blocks.size ++ steps) s₁ log rest s' →
      Proceeds o d (.run t :: steps) s (List.replicate (t.labelCount o) .alloc ++ log) rest s'
  /-- Simple steps before a closure are only written behind the nested scope. -/
  | closure {d : Draft} {body : Body} {name : String} {line : UInt32} {parts : FunctionParts}
      {qualname : Option String} {table : ScopeTable} {code : CodeObject}
      {lead steps rest : List Step} {within out log : Script} {s inner s₁ s₂ s' : Session} :
      lead.all Step.isSimple = true → s.Enters o body name line table code inner s₁ →
      Proceeds o (s.inside name table line).draft
        (body.steps o (s.inside name table line).draft) (s.inside name table line) within [] inner →
      Emits o (s.inside name table line).draft (body.steps o (s.inside name table line).draft) 1 within
        inner.draft.blocks.size →
      Proceeds o d (lead ++ closureSteps code parts (qualname.getD code.qualname)) s₁ out [] s₂ →
      Proceeds o d steps s₂ log rest s' →
      Proceeds o d (lead ++ .closure body name line parts qualname :: steps) s (out ++ log) rest s'

namespace Proceeds

variable {o : Options} {d : Draft} {xs ys zs : List Step} {s s₁ s' : Session} {log log' : Script}

theorem trans (h : Proceeds o d xs s log ys s₁) (h' : Proceeds o d ys s₁ log' zs s') :
    Proceeds o d xs s (log ++ log') zs s' := by
  induction h with
  | stop => exact h'
  | quiet hw _ ih => exact .quiet hw (ih h')
  | put hx hw _ ih =>
    rw [List.append_assoc]
    exact .put hx hw (ih h')
  | run hw hchildren hpassed hserial _ ih =>
    rw [List.append_assoc]
    exact .run hw hchildren hpassed hserial (ih h')
  | closure hlead henters hinner hemits hmade _ _ _ ih =>
    rw [List.append_assoc]
    exact .closure hlead henters hinner hemits hmade (ih h')

/-- Steps behind others are left over. -/
theorem append_right (h : Proceeds o d xs s log ys s') (zs : List Step) :
    Proceeds o d (xs ++ zs) s log (ys ++ zs) s' := by
  induction h with
  | stop => exact .stop
  | quiet hw _ ih => exact .quiet hw ih
  | put hx hw _ ih => exact .put hx hw ih
  | run hw hchildren hpassed hserial _ ih =>
    exact .run hw hchildren hpassed hserial (List.append_assoc .. ▸ ih)
  | closure hlead henters hinner hemits hmade _ _ _ ih =>
    rw [List.append_assoc]
    exact .closure hlead henters hinner hemits hmade ih

theorem append (h : Proceeds o d xs s log [] s₁) (h' : Proceeds o d ys s₁ log' [] s') :
    Proceeds o d (xs ++ ys) s (log ++ log') [] s' := (h.append_right ys).trans h'

theorem then_quiet (h : Proceeds o d xs s log ys s₁) (h' : s₁.Writes [] s') :
    Proceeds o d xs s log ys s' := by
  have htrans := h.trans (.quiet h' .stop)
  rwa [List.append_nil] at htrans

theorem single {x : Step} (hx : x.Puts log) (hw : s.Writes log s') :
    Proceeds o d [x] s log [] s' := by
  have h : Proceeds o d [x] s (log ++ []) [] s' := .put hx hw .stop
  rwa [List.append_nil] at h

theorem writes (h : Proceeds o d xs s log ys s') : s.draft.Writes log s'.draft := by
  induction h with
  | stop => exact .nil
  | quiet hw _ ih => exact hw.draft.trans ih
  | put _ hw _ ih => exact hw.draft.trans ih
  | run hw _ _ _ _ ih => exact hw.trans ih
  | closure _ henters _ _ _ _ _ ihmade ih => exact henters.writes.trans (ihmade.trans ih)

end Proceeds

/-- The code objects that a script puts among the constants. -/
def Script.codes (log : Script) : List CodeObject := log.interned.filterMap Constant.code?

theorem Script.codes_append (log log' : Script) : codes (log ++ log') = codes log ++ codes log' := by
  simp [codes, interned]

theorem Script.codes_alloc (k : Nat) (log : Script) :
    codes (List.replicate k .alloc ++ log) = codes log := by
  rw [codes_append]
  induction k with
  | zero => rfl
  | succ k ih => exact ih

/-- The code object that a step loads by itself. -/
def Step.code? : Step → Option CodeObject
  | .load c | .intern c => c.code?
  | _ => none

theorem Step.Puts.codes_eq {x : Step} {out : Script} (h : x.Puts out) :
    Script.codes out = x.code?.toList := by
  cases h with
  | load arg c | intern c => cases h : c.code? <;> simp [Script.codes, Script.interned, Step.code?, h]
  | emit | named | jump | label => rfl

/-- Simple steps only write what they stand for. -/
theorem Proceeds.of_simple {o : Options} {d : Draft} {steps : List Step} {s s' : Session}
    {log : Script} (h : Proceeds o d steps s log [] s') (hsimple : steps.all Step.isSimple = true) :
    s.Writes log s' ∧ log.codes = steps.filterMap Step.code? := by
  generalize hrest : ([] : List Step) = rest at h
  induction h with
  | stop => exact ⟨.refl _, hrest ▸ rfl⟩
  | quiet hw _ ih =>
    obtain ⟨hw', hcodes⟩ := ih hsimple hrest
    exact ⟨hw.trans hw', hcodes⟩
  | @put d x steps rest out log _ _ _ hx hw _ ih =>
    rw [List.all_cons, Bool.and_eq_true_iff] at hsimple
    obtain ⟨hw', hcodes⟩ := ih hsimple.2 hrest
    refine ⟨hw.trans hw', ?_⟩
    rw [Script.codes_append, hx.codes_eq, hcodes, List.filterMap_cons]
    cases x.code? <;> rfl
  | run => cases hsimple
  | closure => simp [Step.isSimple] at hsimple

end Wordcode

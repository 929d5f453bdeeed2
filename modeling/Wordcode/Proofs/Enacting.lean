import Wordcode.Proofs.Effects

/-!
# Effects of wordcode

Wordcode that goes through the script of a plot has the effects of the plot. The operands of its
instructions stand for what the tables of its code object say.
-/

set_option autoImplicit false

namespace Wordcode

namespace Plot

variable {V : Type} {W : World V} {env : Env V} {P : Plot} {o : Options} {code : List Decoded}
  {pos : Nat → Nat}

theorem Rendered.does_eq (hP : P.Rendered o code pos) {x : Item} {i : Instruction}
    (hx : x ∈ P.script) (hi : x.instruction? = some i) {e : Decoded} (hop : e.opcode = i.opcode)
    (harg : i.target = none → e.arg = i.arg) (st : List (Cell V)) (h : History V) :
    W.does env e.opcode e.arg st h = W.does env i.opcode i.arg st h := by
  rw [hop]
  cases htarget : i.target with
  | none => rw [harg htarget]
  | some b =>
    obtain ⟨n, hsound⟩ := hP.sound
    apply World.does_of_isJump
    rw [← (hsound.instructions x hx i hi).target_isSome, htarget]
    rfl

/-- What a move of the plot does the wordcode does in one move or none. -/
theorem Rendered.enacts (hP : P.Rendered o code pos) {s s' : State Plot V}
    (hmove : W.Moves env P.course s s') (hs : s.point <:+ P) {j : Nat}
    (hj : P.script.At code pos (script s.point) j) :
    s'.point <:+ P ∧ ∃ j', P.script.At code pos (script s'.point) j' ∧
      W.Runs env (P.wordcourse code pos) ⟨j, s.stack, s.history⟩ ⟨j', s'.stack, s'.history⟩ := by
  cases hmove with
  | silent hsilent =>
    obtain ⟨x, rfl, hx⟩ := hsilent
    exact ⟨(List.suffix_cons _ _).trans hs, j, hj.skip (script_suffix hs) hx, .refl⟩
  | next hop hdoes hnext =>
    obtain ⟨x, rest, i, rfl, hx, rfl, rfl⟩ := hop
    obtain ⟨_, heq⟩ := hnext
    obtain rfl := (List.cons.inj heq).2
    have hscript : x :: script rest <:+ P.script := script_suffix hs
    obtain ⟨hj', e, hop, harg, hword⟩ := hP.fall hs hx (World.isTerminal_of_does hdoes) hj
    refine ⟨(List.suffix_cons _ _).trans hs, j + 1, hj', .single (.next hword ?_ rfl)⟩
    rw [hP.does_eq (hscript.subset List.mem_cons_self) hx hop harg]
    exact hdoes
  | jump hop hjumps htarget =>
    obtain ⟨x, rest, i, rfl, hx, rfl, rfl⟩ := hop
    obtain ⟨op, b, _, heq, hb⟩ := htarget
    obtain ⟨rfl⟩ := (List.cons.inj heq).1
    cases hx
    obtain ⟨_, j', hj', hword, htarget⟩ := hP.jump hs hb hj
    exact ⟨(List.suffix_cons _ _).trans hb, j', hj', .single (.jump hword hjumps htarget)⟩
  | value hvalue =>
    obtain ⟨log, rfl⟩ := hvalue
    obtain ⟨j', hj', hword⟩ := hP.value hs hj
    exact ⟨(List.suffix_cons _ _).trans hs, j', hj', .single (.value hword)⟩

/-- What the plot comes to the wordcode comes to. -/
theorem Rendered.enacts_runs (hP : P.Rendered o code pos) {s s' : State Plot V}
    (hruns : W.Runs env P.course s s') (hs : s.point <:+ P) {j : Nat}
    (hj : P.script.At code pos (script s.point) j) :
    s'.point <:+ P ∧ ∃ j', P.script.At code pos (script s'.point) j' ∧
      W.Runs env (P.wordcourse code pos) ⟨j, s.stack, s.history⟩ ⟨j', s'.stack, s'.history⟩ := by
  induction hruns with
  | refl => exact ⟨hs, j, hj, .refl⟩
  | tail _ hmove ih =>
    obtain ⟨hs₁, j₁, hj₁, hruns₁⟩ := ih
    obtain ⟨hs₂, j₂, hj₂, hruns₂⟩ := hP.enacts hmove hs₁ hj₁
    exact ⟨hs₂, j₂, hj₂, hruns₁.trans hruns₂⟩

/-- The machine does not have a choice. -/
theorem Rendered.enacts_unique (hP : P.Rendered o code pos) {s s₁ s₂ : State Nat V}
    (h₁ : W.Moves env (P.wordcourse code pos) s s₁)
    (h₂ : W.Moves env (P.wordcourse code pos) s s₂) : s₁ = s₂ := by
  cases h₁ with
  | silent hsilent => exact hsilent.elim
  | next hop hdoes hnext =>
    cases h₂ with
    | silent hsilent => exact hsilent.elim
    | next hop' hdoes' hnext' =>
      obtain ⟨rfl, rfl⟩ := wordcourse_op_unique hop hop'
      obtain rfl := hnext.trans hnext'.symm
      rw [hdoes] at hdoes'
      cases hdoes'
      rfl
    | jump hop' hjumps' _ =>
      obtain ⟨rfl, -⟩ := wordcourse_op_unique hop hop'
      rw [World.jumps_of_does hdoes] at hjumps'
      cases hjumps'
    | value hvalue => exact (not_op_of_value hvalue hop).elim
  | jump hop hjumps htarget =>
    cases h₂ with
    | silent hsilent => exact hsilent.elim
    | next hop' hdoes' _ =>
      obtain ⟨rfl, -⟩ := wordcourse_op_unique hop hop'
      rw [World.jumps_of_does hdoes'] at hjumps
      cases hjumps
    | jump hop' hjumps' htarget' =>
      obtain ⟨rfl, -⟩ := wordcourse_op_unique hop hop'
      obtain rfl := wordcourse_target_unique htarget htarget'
      rw [hjumps] at hjumps'
      cases hjumps'
      rfl
    | value hvalue => exact (not_op_of_value hvalue hop).elim
  | value hvalue =>
    cases h₂ with
    | silent hsilent => exact hsilent.elim
    | next hop => exact (not_op_of_value hvalue hop).elim
    | jump hop => exact (not_op_of_value hvalue hop).elim
    | value hvalue' =>
      obtain ⟨rfl, rfl⟩ := hP.value_unique hvalue hvalue'
      rfl

/-- Where the machine is to return, it has stopped. -/
theorem not_enacts_of_returns {s s' : State Nat V} {x : Cell V}
    (h : World.Returns (P.wordcourse code pos) s x) :
    ¬ W.Moves env (P.wordcourse code pos) s s' := by
  obtain ⟨⟨_, hop⟩, _⟩ := h
  intro hmove
  cases hmove with
  | silent hsilent => exact hsilent
  | next hop' hdoes =>
    obtain ⟨rfl, -⟩ := wordcourse_op_unique hop hop'
    cases World.isTerminal_of_does hdoes
  | jump hop' hjumps =>
    obtain ⟨rfl, -⟩ := wordcourse_op_unique hop hop'
    cases hjumps
  | value hvalue => exact not_op_of_value hvalue hop

/-- What wordcode comes to where it is to return is all that it does. -/
theorem Rendered.enacts_only (hP : P.Rendered o code pos) {s s₁ s₂ : State Nat V} {x : Cell V}
    (h₁ : W.Runs env (P.wordcourse code pos) s s₁)
    (hreturns : World.Returns (P.wordcourse code pos) s₁ x)
    (h₂ : W.Runs env (P.wordcourse code pos) s s₂) :
    W.Runs env (P.wordcourse code pos) s₂ s₁ := by
  have hunique : Relator.RightUnique (W.Moves env (P.wordcourse code pos)) :=
    fun _ _ _ h h' => hP.enacts_unique h h'
  rcases Relation.ReflTransGen.total_of_right_unique hunique h₁ h₂ with h | h
  · cases Relation.ReflTransGen.cases_head h with
    | inl heq => exact heq ▸ .refl
    | inr hmove =>
      obtain ⟨_, hmove, _⟩ := hmove
      exact (not_enacts_of_returns hreturns hmove).elim
  · exact h

end Plot

/-- Operands stand for what the tables of the code object say. -/
structure Env.Reads {V : Type} (env : Env V) (c : CodeObject) : Prop where
  name : ∀ op table i name, op.nameTable? = some table → c.nameAt? i table = some name →
    env.name? op (UInt32.ofNat i) = some name
  constant : ∀ i k, c.constants[i]? = some k → env.constant? (UInt32.ofNat i) = some k

/-- What the tables of a finished scope say is what the items of its script were written for. -/
theorem Env.Reads.knows {V : Type} {env : Env V} {c : CodeObject} (hreads : env.Reads c)
    {d₀ d : Draft} {addNone : Bool} {filename : String} {log log' : Script}
    (hw : d₀.Writes log (d.close addNone)) (hc : d.finish addNone filename = .ok c)
    (hsub : log' ⊆ log) (hfaithful : ∀ x ∈ log', x.isFaithful = true) : env.Knows log' := by
  refine ⟨fun op arg name hmem => ?_, fun arg k hmem => ?_⟩
  · obtain ⟨i, rfl, hi⟩ := hw.resolves (hsub hmem)
    obtain ⟨table, htable⟩ := Option.isSome_iff_exists.mp (hfaithful _ hmem)
    exact hreads.name op table i name htable ((nameAt?_of_finish hc htable i).trans hi)
  · obtain ⟨i, rfl, hi⟩ := hw.resolves (hsub hmem)
    obtain ⟨k', hk', hkey⟩ := Option.map_eq_some_iff.mp hi
    obtain ⟨_, _, _, _, _, _, _, _, _, _, _, _, hconstants, _⟩ :=
      Draft.assemble_eq_ok (Draft.of_finish_ok hc)
    exact ⟨k', hreads.constant i k' (hconstants ▸ hk'), Constant.key_inj.mp hkey⟩

/-- The build does not fail in the session. -/
def Build.succeeds {α : Type} (b : Build α) (s : Session) : Bool :=
  match b s with
  | .ok .. => true
  | .error .. => false

theorem Build.of_succeeds {b : Build Unit} {s : Session} (h : b.succeeds s = true) :
    ∃ s', b s = .ok () s' := by
  unfold succeeds at h
  split at h
  · next s' hrun => exact ⟨s', hrun⟩
  · cases h

/-- Wordcode of the plot `P` that is run from where control comes to from `pt` gets to where control
comes to from `rest`, and makes one stack and history of another. -/
def Plot.Enacts {V : Type} (P : Plot) (W : World V) (env : Env V) (code : List Decoded)
    (pos : Nat → Nat) (pt rest : Plot) (before after : List (Cell V) × History V) : Prop :=
  ∀ j, P.script.At code pos (script pt) j → ∃ j', P.script.At code pos (script rest) j' ∧
    W.Runs env (P.wordcourse code pos) ⟨j, before.1, before.2⟩ ⟨j', after.1, after.2⟩

theorem Plot.Makes.enacts {V : Type} {W : World V} {env : Env V} {pl P rest : Plot}
    {a b : List (Cell V) × History V} (h : pl.Makes W env a b) {o : Options} {code : List Decoded}
    {pos : Nat → Nat} (hP : P.Rendered o code pos) (hpl : pl ++ rest <:+ P) :
    P.Enacts W env code pos (pl ++ rest) rest a b := by
  intro j hj
  obtain ⟨_, j', hj', hruns⟩ := hP.enacts_runs (h P rest hpl) hpl hj
  exact ⟨j', hj', hruns⟩

/-- What is written between two drafts makes of the stack and the history what `f` tells, in such
scopes as `K` allows. This is so of the script and of the wordcode of every scope that goes on with
it. -/
structure Plot.Realizes (o : Options) (pl : Plot) (d d' : Draft) (K : ∀ {V : Type}, Env V → Prop)
    (f : ∀ {V : Type}, World V → List (Cell V) × History V → List (Cell V) × History V) :
    Prop where
  writes : d.Writes pl.script d'
  takes : pl.Takes o TakesAll
  makes : ∀ {V : Type} (W : World V) (env : Env V), env.Knows pl.script → K env →
    ∀ a, pl.Makes W env a (f W a)
  wordcode : ∀ {name qualname : String} {t : ScopeTable} {serial firstLine : UInt32}
    {nested addNone : Bool} {before after : Script} {d₁ : Draft} {c : CodeObject},
    (Draft.ofTable name qualname t serial firstLine nested).Writes before d →
    d'.Writes after d₁ → Script.Sound d₁.blocks.size (before ++ pl.script ++ after) →
    d₁.finish addNone o.filename = .ok c →
    ∃ (P rest : Plot) (tail : Script) (code : List Decoded) (pos : Nat → Nat),
      P = before.map .item ++ (pl ++ rest) ∧ rest.script = after ++ tail ∧
      decode c.code = .ok code ∧ P.Rendered o code pos ∧
      ∀ {V : Type} (W : World V) (env : Env V), env.Reads c → K env →
        ∀ a, P.Enacts W env code pos (pl ++ rest) rest a (f W a)

theorem Plot.realizes {o : Options} {pl : Plot} {d d' : Draft} {K : ∀ {V : Type}, Env V → Prop}
    {f : ∀ {V : Type}, World V → List (Cell V) × History V → List (Cell V) × History V}
    (hw : d.Writes pl.script d') (htakes : pl.Takes o TakesAll)
    (hfaithful : ∀ x ∈ pl.script, x.isFaithful = true)
    (hmakes : ∀ {V : Type} (W : World V) (env : Env V), env.Knows pl.script → K env →
      ∀ a, pl.Makes W env a (f W a)) : pl.Realizes o d d' K f := by
  refine ⟨hw, htakes, hmakes, ?_⟩
  intro name qualname t serial firstLine nested addNone before after d₁ c hbefore hafter hsound hc
  have hscript : Plot.script (before.map .item ++ pl ++ after.map .item) =
      before ++ pl.script ++ after := by
    simp only [Plot.script_append, Plot.script_map_item]
  have hall := ((Plot.takes_map_item before).append htakes).append (Plot.takes_map_item after)
  obtain ⟨tail, code, pos, hdecode, hP, hclose, -⟩ :=
    Plot.exists_rendered (hscript ▸ (hbefore.trans hw).trans hafter) (hscript ▸ hsound) hall hc
  have hplot : before.map .item ++ pl ++ after.map .item ++ tail.map .item =
      before.map .item ++ (pl ++ (after ++ tail).map Piece.item) := by
    simp only [List.append_assoc, List.map_append]
  rw [hplot] at hP
  refine ⟨_, _, tail, code, pos, rfl, Plot.script_map_item _, hdecode, hP, ?_⟩
  intro V W env hreads hK a
  have hsub : pl.script ⊆ Plot.script (before.map .item ++ pl ++ after.map .item) ++ tail := by
    rw [hscript]
    simp
  exact (hmakes W env (hreads.knows hclose hc hsub hfaithful) hK a).enacts hP
    (List.suffix_append _ _)

end Wordcode

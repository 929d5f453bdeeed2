import Mathlib.Logic.Relation
import Wordcode.Proofs.Driver
import Wordcode.Proofs.StmtTables

/-!
# Lines, frames and scopes are restored

However deep a build goes, when it has succeeded it is back where it began: in the same scope, with
the frames and the scopes around it that there were before. An expression is back at the line at
hand, too. So the machine with explicit stacks never complains of them.
-/

set_option autoImplicit false

namespace Wordcode

open Build
open Drive (Agrees Tracks)

theorem Draft.line_setLine (d : Draft) (line : UInt32) : (d.setLine line).line = line := by
  unfold setLine
  split
  · next h => exact h.symm
  · rfl

/-- A build that succeeds is back at the line at which it began. -/
def Build.KeepsLine {α : Type} (b : Build α) : Prop :=
  ∀ s a s', b s = .ok a s' → s'.draft.line = s.draft.line

namespace Build.KeepsLine

variable {α β : Type}

theorem pure (a : α) : KeepsLine (Pure.pure a) := by
  rintro s a s' ⟨⟩
  rfl

theorem refuse (e : CompileError) (f : α → Build β) : KeepsLine (throw e >>= f) := by
  rintro s a s' ⟨⟩

theorem bind {b : Build α} {f : α → Build β} (h : KeepsLine b) (h' : ∀ a, KeepsLine (f a)) :
    KeepsLine (b >>= f) := by
  intro s r s'' hrun
  obtain ⟨a, s', hb, hf⟩ := of_bind_ok hrun
  exact (h' a s' r s'' hf).trans (h s a s' hb)

theorem modifyDraft {f : Draft → Draft} (hf : ∀ d, (f d).line = d.line) :
    KeepsLine (Build.modifyDraft f) := by
  rintro s a s' ⟨⟩
  exact hf s.draft

theorem newBlock : KeepsLine Build.newBlock := by
  rintro s a s' ⟨⟩
  rfl

theorem fallInto (b : BlockId) : KeepsLine (Build.fallInto b) := modifyDraft fun _ => rfl

theorem nextBlock : KeepsLine Build.nextBlock :=
  newBlock.bind fun b => (fallInto b).bind fun _ => pure b

/-- An instruction may take the line as its stamp, but does not change it. -/
theorem append (r : Except CompileError Instruction) :
    KeepsLine (do let i ← Build.ofExcept r; Build.modifyDraft (·.append i)) := by
  cases r with
  | error e => exact refuse e _
  | ok i =>
    refine (pure i).bind fun i => modifyDraft fun d => ?_
    unfold Draft.append
    split <;> rfl

theorem emitArg (op : Opcode) (arg : UInt32) : KeepsLine (Build.emitArg op arg) := append _

theorem emitJump (op : Opcode) (target : BlockId) : KeepsLine (Build.emitJump op target) := append _

theorem test (dest : Dest) : KeepsLine (Build.test dest) := by
  cases dest with
  | push => exact pure ()
  | jump target sense => exact (emitJump _ _).bind fun _ => nextBlock.bind fun _ => pure ()

/-- The line that is left by the build within does not matter. -/
theorem atLine (line : UInt32) (b : Build Unit) : KeepsLine (Build.atLine line b) := by
  intro s a s' hrun
  have hlast : ∃ s₁, Build.setLine s.draft.line s₁ = .ok a s' := by
    unfold Build.atLine at hrun
    obtain ⟨_, _, ⟨⟩, hrun⟩ := of_bind_ok hrun
    dsimp only at hrun
    split at hrun
    · obtain ⟨_, _, _, hrun⟩ := of_bind_ok hrun
      obtain ⟨_, s₁, _, hrun⟩ := of_bind_ok hrun
      exact ⟨s₁, hrun⟩
    · obtain ⟨_, s₁, _, hrun⟩ := of_bind_ok hrun
      exact ⟨s₁, hrun⟩
  obtain ⟨s₁, ⟨⟩⟩ := hlast
  exact Draft.line_setLine _ _

theorem deliver (line : UInt32) (dest : Dest) (b : Build Unit) :
    KeepsLine (Build.deliver line dest b) :=
  (atLine line b).bind fun _ => test dest

variable {filename : String}

theorem tests {decided target : BlockId} {decisive sense : Bool} {es : List Expr}
    (h : ∀ e ∈ es, ∀ dest, KeepsLine (e.lower filename dest)) :
    KeepsLine (Expr.lowerTests filename decided decisive target sense es) := by
  induction es with
  | nil =>
    rw [Expr.lowerTests]
    exact pure ()
  | cons e es ih =>
    cases es with
    | nil =>
      rw [Expr.lowerTests]
      exact h e List.mem_cons_self _
    | cons e' es =>
      rw [Expr.lowerTests]
      · exact (h e List.mem_cons_self _).bind fun _ =>
          ih fun e he => h e (List.mem_cons_of_mem _ he)
      · simp

theorem links {jump : Opcode} {cleanup : BlockId} {last : CmpOp} {ops : List CmpOp} {es : List Expr}
    (h : ∀ e ∈ es, KeepsLine (e.lower filename .push)) :
    KeepsLine (Expr.lowerLinks filename jump cleanup last ops es) := by
  induction es generalizing ops with
  | nil =>
    rw [Expr.lowerLinks]
    exact pure ()
  | cons e es ih =>
    have he := h e List.mem_cons_self
    have ih (ops : List CmpOp) : KeepsLine (Expr.lowerLinks filename jump cleanup last ops es) :=
      ih fun e he => h e (List.mem_cons_of_mem _ he)
    cases es with
    | nil =>
      rw [Expr.lowerLinks]
      exact he.bind fun _ => emitArg _ _
    | cons e' es =>
      cases ops with
      | nil =>
        rw [Expr.lowerLinks]
        · exact ih []
        · simp
      | cons op ops =>
        rw [Expr.lowerLinks]
        · exact he.bind fun _ => (emitArg _ _).bind fun _ => (emitArg _ _).bind fun _ =>
            (emitArg _ _).bind fun _ => (emitJump _ _).bind fun _ => nextBlock.bind fun _ => ih ops
        · simp

end Build.KeepsLine

/-- The code of an expression is built at the lines of its parts, but the line at hand is the same
before and after. -/
theorem Expr.keepsLine (filename : String) (e : Expr) (dest : Dest) :
    KeepsLine (e.lower filename dest) := by
  induction hn : sizeOf e using Nat.strongRecOn generalizing e dest with
  | ind n ih =>
    subst hn
    have hpart (e' : Expr) (h : e' ∈ e.parts) (dest : Dest) : KeepsLine (e'.lower filename dest) :=
      ih _ (sizeOf_lt_of_mem_parts h) e' dest rfl
    -- only conditions have code that is not built at a line of its own
    fun_cases Expr.lower filename e dest
    case case2 => exact .refuse _ _
    case case3 op values target sense _ _ =>
      have hrest (decided : BlockId) : KeepsLine (do
          Expr.lowerTests filename decided (decide (op = .or)) target sense values
          if decided ≠ target then fallInto decided) := by
        refine .bind (.tests hpart) fun _ => ?_
        split
        · exact .fallInto _
        · exact .pure ()
      change KeepsLine (if decide (op = .or) = sense then _ else _)
      split
      · exact .bind (.pure target) hrest
      · exact .bind .newBlock hrest
    case case5 operand _ _ => exact hpart operand (by simp [Expr.parts]) _
    case case9 test body orelse _ _ =>
      have ht := hpart test (by simp [Expr.parts])
      have hb := hpart body (by simp [Expr.parts])
      have he := hpart orelse (by simp [Expr.parts])
      exact .bind .newBlock fun done => .bind .newBlock fun next => (ht _).bind fun _ =>
        (hb _).bind fun _ => .bind (.emitJump _ _) fun _ => .bind (.fallInto _) fun _ =>
          (he _).bind fun _ => .fallInto _
    case case15 => exact .refuse _ _
    case case16 left op op' ops comparators _ _ _ _ =>
      have hl := hpart left (by simp [Expr.parts]) .push
      have hcs (e : Expr) (he : e ∈ comparators) := hpart e (by simp [Expr.parts, he]) .push
      refine .bind .newBlock fun cleanup => hl.bind fun _ => .bind (.links hcs) fun _ =>
        .bind (.test _) fun _ => .bind .newBlock fun done => .bind (.emitJump _ _) fun _ =>
          .bind (.fallInto _) fun _ => .bind (.bind (.emitArg _ _) fun _ => ?_) fun _ => .fallInto _
      split
      · exact .emitJump _ _
      · exact .pure ()
    all_goals first | exact .atLine _ _ | exact .deliver _ _ _

/-- A scope that waits for one nested in it, with what is to be done in it once that is finished. -/
structure Waiting extends Layer where
  opened : Draft
  addNone : Bool
  ahead : CodeObject → List Step

/-- The scope at hand, which was opened as `opened`, with the steps that are left in it and the scopes
around it, innermost first. -/
structure Worker where
  session : Session
  frames : List Frame
  opened : Draft
  addNone : Bool
  steps : List Step
  parents : List Waiting

/-- What is done next. Whatever scope is nested, be it that of a lambda or of a comprehension, the
scope at hand is laid aside for it, and is taken up again where it has been finished. -/
inductive Worker.Moves (o : Options) : Worker → Worker → Prop where
  /-- Lines and tables of names change. -/
  | quiet {s s' : Session} {fs : List Frame} {d : Draft} {addNone : Bool} {steps : List Step}
      {ps : List Waiting} : s.Writes [] s' →
      Moves o ⟨s, fs, d, addNone, steps, ps⟩ ⟨s', fs, d, addNone, steps, ps⟩
  | put {s s' : Session} {fs : List Frame} {d : Draft} {addNone : Bool} {x : Step} {out : Script}
      {steps : List Step} {ps : List Waiting} : x.Puts out → s.Writes out s' →
      Moves o ⟨s, fs, d, addNone, x :: steps, ps⟩ ⟨s', fs, d, addNone, steps, ps⟩
  | run {s s' : Session} {fs : List Frame} {d : Draft} {addNone : Bool} {t : Task}
      {passed : List ScopeTable} {steps : List Step} {ps : List Waiting} :
      s.draft.Writes (List.replicate (t.labelCount o) .alloc) s'.draft →
      s.draft.children = passed ++ s'.draft.children → passed.length = t.skipCount o →
      s'.nextSerial = s.nextSerial →
      Moves o ⟨s, fs, d, addNone, .run t :: steps, ps⟩
        ⟨s', fs, d, addNone, t.steps o d s.draft.blocks.size ++ steps, ps⟩
  | enter {s inside : Session} {fs : List Frame} {d : Draft} {addNone : Bool} {lead steps : List Step}
      {body : Body} {name : String} {line : UInt32} {parts : FunctionParts}
      {qualname : Option String} {table : ScopeTable} {children : List ScopeTable}
      {ps : List Waiting} : lead.all Step.isSimple = true → s.draft.children = table :: children →
      table.kind = body.kind → inside = s.inside name table line →
      Moves o ⟨s, fs, d, addNone, lead ++ .closure body name line parts qualname :: steps, ps⟩
        ⟨inside, [], inside.draft, body.addNone inside.draft, body.steps o inside.draft,
          { draft := { s.draft with children := children }
            frames := fs
            opened := d
            addNone := addNone
            ahead := fun code =>
              lead ++ closureSteps code parts (qualname.getD code.qualname) ++ steps } :: ps⟩
  | exit {s : Session} {d : Draft} {addNone : Bool} {outer : Waiting} {code : CodeObject}
      {ps : List Waiting} : s.draft.finish addNone o.filename = .ok code →
      Moves o ⟨s, [], d, addNone, [], outer :: ps⟩
        ⟨⟨outer.draft, s.nextSerial⟩, outer.frames, outer.opened, outer.addNone, outer.ahead code, ps⟩

/-- Moves that never leave the scopes `ps`. -/
abbrev Worker.Nests (o : Options) (ps : List Waiting) : Worker → Worker → Prop :=
  Relation.ReflTransGen fun w w' => w.Moves o w' ∧ ps <:+ w'.parents

theorem Worker.Nests.mono {o : Options} {ps qs : List Waiting} {w w' : Worker}
    (h : Worker.Nests o qs w w') (hps : ps <:+ qs) : Worker.Nests o ps w w' :=
  Relation.ReflTransGen.mono (fun _ _ hmove => ⟨hmove.1, hps.trans hmove.2⟩) w w' h

/-- Each nested scope is entered and left again, whatever scopes there are around it and whatever is
left to be done behind. -/
theorem Proceeds.nests {o : Options} {d : Draft} {steps rest : List Step} {log : Script}
    {s s' : Session} (h : Proceeds o d steps s log rest s') (fs : List Frame) (addNone : Bool)
    (more : List Step) (ps : List Waiting) :
    Worker.Nests o ps ⟨s, fs, d, addNone, steps ++ more, ps⟩ ⟨s', fs, d, addNone, rest ++ more, ps⟩ := by
  induction h generalizing fs addNone more ps with
  | stop => exact .refl
  | quiet hw _ ih => exact .head ⟨.quiet hw, List.suffix_rfl⟩ (ih fs addNone more ps)
  | put hx hw _ ih => exact .head ⟨.put hx hw, List.suffix_rfl⟩ (ih fs addNone more ps)
  | run hw hchildren hpassed hserial _ ih =>
    have hrest := ih fs addNone more ps
    rw [List.append_assoc] at hrest
    exact .head ⟨.run hw hchildren hpassed hserial, List.suffix_rfl⟩ hrest
  | @closure d body name line parts qualname table code lead steps rest within out log s inner s₁ s₂
      s' hlead henters _ _ _ _ ihinner ihmade ih =>
    let outer : Waiting :=
      { draft := { s.draft with children := s₁.draft.children }
        frames := fs
        opened := d
        addNone := addNone
        ahead := fun code =>
          lead ++ closureSteps code parts (qualname.getD code.qualname) ++ (steps ++ more) }
    have henter : Worker.Moves o
        ⟨s, fs, d, addNone, lead ++ .closure body name line parts qualname :: (steps ++ more), ps⟩
        ⟨s.inside name table line, [], (s.inside name table line).draft,
          body.addNone (s.inside name table line).draft,
          body.steps o (s.inside name table line).draft, outer :: ps⟩ :=
      .enter hlead henters.children henters.kind rfl
    have hinner := (ihinner [] (body.addNone (s.inside name table line).draft) [] (outer :: ps)).mono
      (List.suffix_cons outer ps)
    rw [List.append_nil, List.append_nil] at hinner
    have hexit : Worker.Moves o ⟨inner, [], (s.inside name table line).draft,
        body.addNone (s.inside name table line).draft, [], outer :: ps⟩
        ⟨⟨outer.draft, inner.nextSerial⟩, fs, d, addNone, outer.ahead code, ps⟩ :=
      .exit henters.finish
    have hback : (⟨outer.draft, inner.nextSerial⟩ : Session) = s₁ := by
      rw [← henters.serial]
      exact congrArg (Session.mk · s₁.nextSerial) henters.draft.symm
    rw [hback] at hexit
    have hbehind := (ihmade fs addNone (steps ++ more) ps).trans (ih fs addNone more ps)
    rw [List.append_assoc, List.cons_append]
    exact .head ⟨henter, List.suffix_cons outer ps⟩
      (hinner.trans (.head ⟨hexit, List.suffix_rfl⟩ hbehind))

/-- The machine ends as a build does. If it succeeds it is back in the scope where it began, with
the frames and the scopes around it that there were before. -/
structure Drive.Restores {α : Type} (m : Drive α) (b : Build α) (st : Driver) : Prop where
  agrees : Agrees (b st.session) st.frames st.parents (m st)
  serial : ∀ a st', m st = some (.ok a, st') → st'.session.draft.serial = st.session.draft.serial
  frames : ∀ a st', m st = some (.ok a, st') → st'.frames = st.frames
  parents : ∀ a st', m st = some (.ok a, st') → st'.parents = st.parents

theorem Drive.Tracks.restores {α : Type} {m : Drive α} {b : Build α} {st : Driver}
    (h : Tracks m b st.frames st.frames)
    (hb : ∀ {a s'}, b st.session = .ok a s' → st.session.draft.Evolves s'.draft) :
    m.Restores b st := by
  have hst := h st.session st.parents
  have hok {a : α} {st' : Driver} (hrun : m st = some (.ok a, st')) :
      st.session.draft.Evolves st'.session.draft ∧ st'.frames = st.frames ∧
        st'.parents = st.parents := by
    have hagrees : Agrees (b st.session) st.frames st.parents (some (.ok a, st')) := hrun ▸ hst
    cases hbuild : b st.session with
    | ok a' s' =>
      rw [hbuild] at hagrees
      cases hagrees
      exact ⟨hb hbuild, rfl, rfl⟩
    | error e s' =>
      rw [hbuild] at hagrees
      obtain ⟨_, _, hagrees⟩ := hagrees
      cases hagrees
  exact ⟨hst, fun a st' hrun => (hok hrun).1.keeps Draft.serial fun _ => rfl,
    fun a st' hrun => (hok hrun).2.1, fun a st' hrun => (hok hrun).2.2⟩

/-- The stacks of the compiler. Statements and lists of them, whatever they are, leave the scope at
hand, the frames and the scopes around it as they found them if they succeed, though unwinding takes
frames off and compiles final bodies within those that are left. An expression, for its value or as
a condition, is back in its scope and at its line. The scopes of lambdas and comprehensions, and all
others, are entered and left on a stack above those that there were, step by step. So the machine
with explicit stacks gives what compiling gives, and no error about frames that do not match or are
left open, about scopes that are left open or left too often, or about unwinding to a frame that is
no loop, ever comes of it. -/
theorem drive_restores (o : Options) :
    (∀ s st, (Stmt.drive o s).Restores (Stmt.lower o st.frames s) st) ∧
    (∀ ss st, (Stmt.driveAll o ss).Restores (Stmt.lowerAll o st.frames ss) st) ∧
    (∀ e dest s s', Expr.lower o.filename e dest s = .ok () s' →
      s'.draft.serial = s.draft.serial ∧ s'.draft.line = s.draft.line ∧
      ∀ fs addNone ps, Worker.Nests o ps ⟨s, fs, s.draft, addNone, [.run (.expr e dest)], ps⟩
        ⟨s', fs, s.draft, addNone, [], ps⟩) ∧
    (∀ frames ss s s', Stmt.lowerAll o frames ss s = .ok () s' →
      ∀ addNone ps, Worker.Nests o ps
        ⟨s, frames, s.draft, addNone, [.run (.stmts frames ss)], ps⟩
        ⟨s', frames, s.draft, addNone, [], ps⟩) ∧
    ∀ p t, Program.drive p t o = some (compile p t o) ∧
      ∀ e, compile p t o = .error e → e.ofBookkeeping = false := by
  refine ⟨fun s st => ?_, fun ss st => ?_, fun e dest s s' hrun => ?_, fun frames ss s s' hrun => ?_,
    fun p t => ⟨p.drive_eq t o, ?_⟩⟩
  · exact (Stmt.tracks o st.frames s).restores fun hrun =>
      ((Stmt.lowers o st.frames s _).ok (.refl _) hrun).2.evolves
  · exact (Stmt.tracksAll o st.frames ss).restores fun hrun =>
      ((Stmt.lowersAll o st.frames ss _).ok (.refl _) hrun).2.evolves
  · obtain ⟨_, hadvances⟩ := (e.lowers o s.draft dest).ok (.refl _) hrun
    have ⟨_, _, hruns⟩ := hadvances
    exact ⟨hadvances.evolves.keeps Draft.serial fun _ => rfl, e.keepsLine o.filename dest s () s' hrun,
      fun fs addNone ps => hruns.nests fs addNone [] ps⟩
  · obtain ⟨_, _, _, hruns⟩ := (Stmt.lowersAll o frames ss s.draft).ok (.refl _) hrun
    exact fun addNone ps => hruns.nests frames addNone [] ps
  · exact fun e => not_ofBookkeeping_of_compile

/-- A loop with a `break` in a `try`, whose final body has a list of lambdas. The final body is
compiled three times, the first time while the `break` unwinds. -/
def finalLambdas : Stmt :=
  .forLoop 1 (.name 1 "x" .store) (.name 1 "xs" .load)
    [.tryExcept 2 [.breakLoop 3] [] []
      [.expr 4 (.listComp 4 (.lambda 4 ⟨[], [], none, [], [], none, []⟩ (.constant 4 (.int 0)))
        [⟨.name 4 "y" .store, .name 4 "x" .load, []⟩])]] []

/-- The table of such a list. -/
def lambdaList : ScopeTable :=
  { ScopeTable.listComprehension 4 with
    symbols := [(".0", .local), ("y", .local)]
    children := [.lambda 4] }

/-- A module's session with the tables of three such lists. -/
def threeLists : Session :=
  ⟨.ofModule { ScopeTable.module with children := List.replicate 3 lambdaList }, 1⟩

theorem finalLambdas_restored : ∃ s', Stmt.lowerAll {} [] [finalLambdas] threeLists = .ok () s' ∧
    s'.draft.children = [] ∧ s'.draft.serial = threeLists.draft.serial ∧
    Stmt.driveAll {} [finalLambdas] ⟨threeLists, [], []⟩ = some (.ok (), ⟨s', [], []⟩) ∧
    Worker.Nests {} []
      ⟨threeLists, [], threeLists.draft, true, [.run (.stmts [] [finalLambdas])], []⟩
      ⟨s', [], threeLists.draft, true, [], []⟩ := by
  have hleft : (Stmt.lowerAll {} [] [finalLambdas]).left? threeLists = some 0 := by decide +kernel
  obtain ⟨s', hrun, hlength⟩ := Build.of_left? hleft
  obtain ⟨-, hall, -, hnests, -⟩ := drive_restores {}
  have hrestores := hall [finalLambdas] ⟨threeLists, [], []⟩
  have hdrive : Stmt.driveAll {} [finalLambdas] ⟨threeLists, [], []⟩ =
      some (.ok (), ⟨s', [], []⟩) := by
    have hagrees := hrestores.agrees
    rw [hrun] at hagrees
    exact hagrees
  exact ⟨s', hrun, List.length_eq_zero_iff.mp hlength, hrestores.serial () _ hdrive, hdrive,
    hnests [] [finalLambdas] threeLists s' hrun true []⟩

end Wordcode

import Wordcode.Proofs.Refusals
import Wordcode.Proofs.Weaving

/-!
# Builds and their steps

A build follows steps if whenever it succeeds it has run them to their end and written a script of
them, and whenever it fails for the code it writes this is due to a nested scope among them. What
the primitive builds do is said here once; the steps of a sequence of builds are those of its parts.
-/

set_option autoImplicit false

namespace Wordcode

/-- The faults of the code that is written: those that assembly finds, and an operand or a target
that an opcode does not take. -/
def Fault.ofCode : Fault → Bool
  | .operandNotTaken .. | .targetNotTaken .. | .stackUnderflow .. | .notLaidOutAfter ..
  | .targetNotLaidOut .. | .backwardJump .. | .offsetMismatch .. => true
  | _ => false

def CompileError.ofCode (e : CompileError) : Bool := (e.fault?.map Fault.ofCode).getD false

/-- The session `s` is turned into `s'` by running the steps, which writes a script of them. -/
def Advances (o : Options) (d : Draft) (steps : List Step) (s s' : Session) : Prop :=
  ∃ log, Emits o d steps s.draft.blocks.size log s'.draft.blocks.size ∧
    Proceeds o d steps s log [] s'

structure Follows {α : Type} (o : Options) (d : Draft) (b : Build α) (steps : List Step) (a : α) :
    Prop where
  ok : ∀ {s a' s'}, d.Evolves s.draft → b s = .ok a' s' → a' = a ∧ Advances o d steps s s'
  err : ∀ {s e s' f}, d.Evolves s.draft → b s = .error e s' → e.fault? = some f →
    f.ofCode = true → Fails o d steps f
  kind : ∀ {s e s'}, d.Evolves s.draft → b s = .error e s' → e.ofBookkeeping = false

/-- A build that makes `k` blocks first, of which there are `n` before, and then follows steps. -/
structure Opens {α : Type} (o : Options) (d : Draft) (n k : Nat) (b : Build α) (steps : List Step)
    (a : α) : Prop where
  ok : ∀ {s a' s'}, d.Evolves s.draft → s.draft.blocks.size = n → b s = .ok a' s' → a' = a ∧
    ∃ log s₁, Emits o d steps (n + k) log s'.draft.blocks.size ∧
      s.Writes (List.replicate k .alloc) s₁ ∧ Proceeds o d steps s₁ log [] s'
  err : ∀ {s e s' f}, d.Evolves s.draft → s.draft.blocks.size = n → b s = .error e s' →
    e.fault? = some f → f.ofCode = true → Fails o d steps f
  kind : ∀ {s e s'}, d.Evolves s.draft → s.draft.blocks.size = n → b s = .error e s' →
    e.ofBookkeeping = false

section Rules

variable {α β : Type} {o : Options} {d : Draft}

theorem Advances.refl (s : Session) : Advances o d [] s s :=
  ⟨[], .nil, .stop⟩

theorem Advances.append {xs ys : List Step} {s s' s'' : Session} (h : Advances o d xs s s')
    (h' : Advances o d ys s' s'') : Advances o d (xs ++ ys) s s'' := by
  obtain ⟨log, he, hruns⟩ := h
  obtain ⟨log', he', hruns'⟩ := h'
  exact ⟨log ++ log', he.append he', hruns.append hruns'⟩

theorem Advances.evolves {xs : List Step} {s s' : Session} (h : Advances o d xs s s') :
    s.draft.Evolves s'.draft :=
  have ⟨_, _, hruns⟩ := h
  hruns.writes.evolves

/-- What is written and not recorded. -/
theorem Advances.of_writes {s s' : Session} (h : s.Writes [] s') : Advances o d [] s s' := by
  have hsize : s'.draft.blocks.size = s.draft.blocks.size := h.draft.size_blocks
  exact ⟨[], hsize ▸ .nil, .quiet h .stop⟩

theorem Advances.put {x : Step} {log : Script} {s s' : Session} (hx : x.Puts log)
    (hsize : s'.draft.blocks.size = s.draft.blocks.size) (h : s.Writes log s') :
    Advances o d [x] s s' := by
  refine ⟨log, ?_, .single hx h⟩
  have hemits : Emits o d [x] s.draft.blocks.size (log ++ []) s.draft.blocks.size := .put hx .nil
  rwa [List.append_nil, ← congrArg (Emits o d [x] _ _) hsize] at hemits

theorem Build.of_bind_ok {b : Build α} {f : α → Build β} {s s'' : Session} {r : β}
    (h : (b >>= f) s = .ok r s'') : ∃ a s', b s = .ok a s' ∧ f a s' = .ok r s'' := by
  change EStateM.bind b f s = .ok r s'' at h
  unfold EStateM.bind at h
  split at h
  · next a s' hb => exact ⟨a, s', hb, h⟩
  · cases h

theorem Build.of_bind_error {b : Build α} {f : α → Build β} {s s'' : Session} {e : CompileError}
    (h : (b >>= f) s = .error e s'') :
    b s = .error e s'' ∨ ∃ a s', b s = .ok a s' ∧ f a s' = .error e s'' := by
  change EStateM.bind b f s = .error e s'' at h
  unfold EStateM.bind at h
  split at h
  · next a s' hb => exact .inr ⟨a, s', hb, h⟩
  · next hb =>
    cases h
    exact .inl hb

namespace Follows

theorem pure (a : α) : Follows o d (Pure.pure a) [] a where
  ok := by
    rintro s a' s' _ ⟨⟩
    exact ⟨rfl, .refl s⟩
  err := by rintro s e s' f _ ⟨⟩
  kind := by rintro s e s' _ ⟨⟩

theorem throw {e : CompileError} (he : e.ofCode = false) (hkind : e.ofBookkeeping = false)
    (steps : List Step) (a : α) :
    Follows o d (MonadExcept.throw e : Build α) steps a where
  ok := by rintro s a' s' _ ⟨⟩
  err := by
    rintro s e' s' f _ ⟨⟩ hf hcode
    simp [CompileError.ofCode, hf, hcode] at he
  kind := by
    rintro s e' s' _ ⟨⟩
    exact hkind

theorem append {b : Build α} {f : α → Build β} {xs ys : List Step} {a : α} {c : β}
    (h : Follows o d b xs a) (h' : Follows o d (f a) ys c) :
    Follows o d (b >>= f) (xs ++ ys) c where
  ok := by
    intro s r s'' hs hrun
    obtain ⟨a', s', hb, hf⟩ := Build.of_bind_ok hrun
    obtain ⟨rfl, hxs⟩ := h.ok hs hb
    obtain ⟨hr, hys⟩ := h'.ok (hs.trans hxs.evolves) hf
    exact ⟨hr, hxs.append hys⟩
  err := by
    intro s e s'' f hs hrun hf hcode
    rcases Build.of_bind_error hrun with hb | ⟨a', s', hb, hrest⟩
    · exact (h.err hs hb hf hcode).append_left
    · obtain ⟨rfl, hxs⟩ := h.ok hs hb
      exact (h'.err (hs.trans hxs.evolves) hrest hf hcode).append_right
  kind := by
    intro s e s'' hs hrun
    rcases Build.of_bind_error hrun with hb | ⟨a', s', hb, hrest⟩
    · exact h.kind hs hb
    · obtain ⟨rfl, hxs⟩ := h.ok hs hb
      exact h'.kind (hs.trans hxs.evolves) hrest

theorem cons {b : Build α} {f : α → Build β} {x : Step} {ys : List Step} {a : α} {c : β}
    (h : Follows o d b [x] a) (h' : Follows o d (f a) ys c) :
    Follows o d (b >>= f) (x :: ys) c :=
  h.append h'

theorem seq {b : Build α} {b' : Build β} {xs ys : List Step} {a : α} {c : β}
    (h : Follows o d b xs a) (h' : Follows o d b' ys c) :
    Follows o d (b >>= fun _ => b') (xs ++ ys) c :=
  h.append h'

theorem silent {b : Build α} {f : α → Build β} {ys : List Step} {a : α} {c : β}
    (h : Follows o d b [] a) (h' : Follows o d (f a) ys c) : Follows o d (b >>= f) ys c :=
  h.append h'

/-- What a build asks of the draft is settled when the draft is opened. -/
theorem ask {g : Draft → α} {f : α → Build β} {ys : List Step} {c : β}
    (hg : ∀ d, g d.header = g d) (h : Follows o d (f (g d)) ys c) :
    Follows o d (Build.ask g >>= f) ys c where
  ok := by
    intro s r s' hs hrun
    have hrun : f (g s.draft) s = .ok r s' := hrun
    rw [hs.keeps g hg] at hrun
    exact h.ok hs hrun
  err := by
    intro s e s' fault hs hrun
    have hrun : f (g s.draft) s = .error e s' := hrun
    rw [hs.keeps g hg] at hrun
    exact h.err hs hrun
  kind := by
    intro s e s' hs hrun
    have hrun : f (g s.draft) s = .error e s' := hrun
    rw [hs.keeps g hg] at hrun
    exact h.kind hs hrun

/-- What depends on the line makes no difference. -/
theorem askLine {f : UInt32 → Build β} {ys : List Step} {c : β}
    (h : ∀ line, Follows o d (f line) ys c) :
    Follows o d (Build.ask Draft.line >>= f) ys c where
  ok := fun {s} _ _ hs hrun => (h s.draft.line).ok hs hrun
  err := fun {s} _ _ _ hs hrun => (h s.draft.line).err hs hrun
  kind := fun {s} _ _ hs hrun => (h s.draft.line).kind hs hrun

theorem guard {c : Prop} [Decidable c] {e : CompileError} (he : e.ofCode = false)
    (hkind : e.ofBookkeeping = false) {f : α → Build β} {b : Build β} {steps : List Step} {r : β}
    (h : ¬ c → Follows o d b steps r) :
    Follows o d (if c then (MonadExcept.throw e : Build α) >>= f else b) steps r := by
  split
  · constructor
    · intro s r' s' _ hrun
      cases hrun
    · intro s e' s' fault _ hrun hf hcode
      cases hrun
      simp [CompileError.ofCode, hf, hcode] at he
    · intro s e' s' _ hrun
      cases hrun
      exact hkind
  · next hc => exact h hc

theorem of_advances {b : Build Unit} {steps : List Step} (g : Session → Session)
    (hb : ∀ s, b s = .ok () (g s)) (hg : ∀ s, d.Evolves s.draft → Advances o d steps s (g s)) :
    Follows o d b steps () where
  ok := by
    intro s a s' hs hrun
    rw [hb] at hrun
    cases hrun
    exact ⟨rfl, hg s hs⟩
  err := by
    intro s e s' f _ hrun
    rw [hb] at hrun
    cases hrun
  kind := by
    intro s e s' _ hrun
    rw [hb] at hrun
    cases hrun

theorem task_of {t : Task} {b : Build α} {a : α}
    (hran : ∀ {s s' log}, b s = .ok a s' → s.draft.Writes log s'.draft → t.Ran o log)
    (hskip : t.skipCount o = 0) (h : ∀ n, Opens o d n (t.labelCount o) b (t.steps o d n) a) :
    Follows o d b [.run t] a where
  ok := by
    intro s a' s' hs hrun
    obtain ⟨rfl, log, s₁, he, hw, hruns⟩ := (h _).ok hs rfl hrun
    have hemits := Emits.run he (hran hrun (hw.draft.trans hruns.writes)) .nil
    have hnone : ([] : List ScopeTable).length = t.skipCount o := hskip.symm
    have hchildren : s.draft.children = [] ++ s₁.draft.children := hw.children.symm
    rw [List.append_nil] at hemits
    refine ⟨rfl, _, hemits, .run hw.draft hchildren hnone hw.serial ?_⟩
    rwa [List.append_nil]
  err := fun {s} _ _ _ hs hrun hf hcode => .run ((h s.draft.blocks.size).err hs rfl hrun hf hcode)
  kind := fun {s} _ _ hs hrun => (h s.draft.blocks.size).kind hs rfl hrun

theorem task {t : Task} {b : Build α} {a : α} (ht : t.isSimple = true)
    (h : ∀ n, Opens o d n (t.labelCount o) b (t.steps o d n) a) : Follows o d b [.run t] a :=
  .task_of (fun _ _ => t.ran_of_isSimple ht o _) (t.skipCount_of_isSimple ht o) h

theorem of_eq {b b' : Build α} {xs ys : List Step} {a : α} (h : Follows o d b xs a) (hb : b' = b)
    (hxs : ys = xs) : Follows o d b' ys a := by
  rw [hb, hxs]
  exact h

end Follows

namespace Opens

theorem of_follows {n : Nat} {b : Build α} {steps : List Step} {a : α}
    (h : Follows o d b steps a) : Opens o d n 0 b steps a where
  ok := by
    intro s a' s' hs hn hrun
    obtain ⟨ha, log, he, hruns⟩ := h.ok hs hrun
    exact ⟨ha, log, s, by rwa [hn] at he, ⟨.nil, rfl, rfl⟩, hruns⟩
  err := fun hs _ hrun hf hcode => h.err hs hrun hf hcode
  kind := fun hs _ hrun => h.kind hs hrun

theorem newBlock {n k : Nat} {f : BlockId → Build α} {steps : List Step} {a : α}
    (h : Opens o d (n + 1) k (f n) steps a) :
    Opens o d n (k + 1) (Build.newBlock >>= f) steps a where
  ok := by
    intro s a' s' hs hn hrun
    have hrun : f s.draft.blocks.size ⟨s.draft.newBlock.2, s.nextSerial⟩ = .ok a' s' := hrun
    rw [hn] at hrun
    have hgrow : s.Writes [.alloc] ⟨s.draft.newBlock.2, s.nextSerial⟩ := ⟨.alloc .nil, rfl, rfl⟩
    obtain ⟨ha, log, s₁, he, hw, hruns⟩ :=
      h.ok (hs.trans hgrow.draft.evolves) (by simp [Draft.newBlock, hn]) hrun
    refine ⟨ha, log, s₁, ?_, hgrow.trans hw, hruns⟩
    rwa [Nat.add_assoc, Nat.add_comm 1 k] at he
  err := by
    intro s e s' fault hs hn hrun
    have hrun : f s.draft.blocks.size ⟨s.draft.newBlock.2, s.nextSerial⟩ = .error e s' := hrun
    rw [hn] at hrun
    have hgrow : s.draft.Writes [.alloc] s.draft.newBlock.2 := .alloc .nil
    exact h.err (hs.trans hgrow.evolves) (by simp [Draft.newBlock, hn]) hrun
  kind := by
    intro s e s' hs hn hrun
    have hrun : f s.draft.blocks.size ⟨s.draft.newBlock.2, s.nextSerial⟩ = .error e s' := hrun
    rw [hn] at hrun
    have hgrow : s.draft.Writes [.alloc] s.draft.newBlock.2 := .alloc .nil
    exact h.kind (hs.trans hgrow.evolves) (by simp [Draft.newBlock, hn]) hrun

theorem guard {n k : Nat} {c : Prop} [Decidable c] {e : CompileError} (he : e.ofCode = false)
    (hkind : e.ofBookkeeping = false) {f : β → Build α} {b : Build α} {steps : List Step} {r : α}
    (h : ¬ c → Opens o d n k b steps r) :
    Opens o d n k (if c then (MonadExcept.throw e : Build β) >>= f else b) steps r := by
  split
  · constructor
    · intro s r' s' _ _ hrun
      cases hrun
    · intro s e' s' fault _ _ hrun hf hcode
      cases hrun
      simp [CompileError.ofCode, hf, hcode] at he
    · intro s e' s' _ _ hrun
      cases hrun
      exact hkind
  · next hc => exact h hc

end Opens

theorem Follows.bind_any {b : Build α} {f : α → Build β} {xs ys : List Step} {c : β}
    (h : Follows o d (b >>= fun _ => Pure.pure ()) xs ()) (h' : ∀ a, Follows o d (f a) ys c) :
    Follows o d (b >>= f) (xs ++ ys) c where
  ok := by
    intro s r s'' hs hrun
    obtain ⟨a, s', hb, hf⟩ := Build.of_bind_ok hrun
    have hunit : (b >>= fun _ => Pure.pure ()) s = .ok () s' := by
      change EStateM.bind b _ s = _
      rw [EStateM.bind, hb]
      rfl
    obtain ⟨_, hxs⟩ := h.ok hs hunit
    obtain ⟨hr, hys⟩ := (h' a).ok (hs.trans hxs.evolves) hf
    exact ⟨hr, hxs.append hys⟩
  err := by
    intro s e s'' fault hs hrun hf hcode
    rcases Build.of_bind_error hrun with hb | ⟨a, s', hb, hrest⟩
    · have hunit : (b >>= fun _ => Pure.pure ()) s = .error e s'' := by
        change EStateM.bind b _ s = _
        rw [EStateM.bind, hb]
      exact (h.err hs hunit hf hcode).append_left
    · have hunit : (b >>= fun _ => Pure.pure ()) s = .ok () s' := by
        change EStateM.bind b _ s = _
        rw [EStateM.bind, hb]
        rfl
      obtain ⟨_, hxs⟩ := h.ok hs hunit
      exact ((h' a).err (hs.trans hxs.evolves) hrest hf hcode).append_right
  kind := by
    intro s e s'' hs hrun
    rcases Build.of_bind_error hrun with hb | ⟨a, s', hb, hrest⟩
    · have hunit : (b >>= fun _ => Pure.pure ()) s = .error e s'' := by
        change EStateM.bind b _ s = _
        rw [EStateM.bind, hb]
      exact h.kind hs hunit
    · have hunit : (b >>= fun _ => Pure.pure ()) s = .ok () s' := by
        change EStateM.bind b _ s = _
        rw [EStateM.bind, hb]
        rfl
      obtain ⟨_, hxs⟩ := h.ok hs hunit
      exact (h' a).kind (hs.trans hxs.evolves) hrest

theorem Session.writes_setLine (s : Session) (line : UInt32) :
    s.Writes [] ⟨s.draft.setLine line, s.nextSerial⟩ := by
  unfold Draft.setLine
  split
  · exact ⟨.nil, rfl, rfl⟩
  · exact ⟨.quiet .nil ⟨rfl, List.suffix_rfl, List.prefix_rfl, List.prefix_rfl, List.prefix_rfl⟩ rfl
      rfl rfl nofun, rfl, rfl⟩

theorem Session.Writes.add {s s₁ : Session} {item : Item} {i : Instruction} (h : s.Writes [] s₁)
    (hi : item.instruction? = some i) (hitem : s₁.draft.Resolves item) :
    s.Writes [item] ⟨s₁.draft.append i, s₁.nextSerial⟩ := by
  refine ⟨.code h.draft hi hitem, ?_, h.serial⟩
  rw [← h.children]
  unfold Draft.append
  split <;> rfl

namespace Build

theorem follows_setLine (line : UInt32) : Follows o d (setLine line) [] () :=
  .of_advances (fun s => ⟨s.draft.setLine line, s.nextSerial⟩) (fun _ => rfl)
    fun s _ => .of_writes (s.writes_setLine line)

theorem follows_restamp : Follows o d restamp [] () :=
  .of_advances (fun s => ⟨s.draft.restamp, s.nextSerial⟩) (fun _ => rfl) fun _ _ =>
    .of_writes ⟨.quiet .nil ⟨rfl, List.suffix_rfl, List.prefix_rfl, List.prefix_rfl,
      List.prefix_rfl⟩ rfl rfl rfl nofun, rfl, rfl⟩

theorem follows_fallInto (b : BlockId) : Follows o d (fallInto b) [.label b] () :=
  .of_advances (fun s => ⟨s.draft.fallInto b, s.nextSerial⟩) (fun _ => rfl) fun _ _ =>
    .put (.label b) (by simp [Draft.fallInto]) ⟨.label b .nil, rfl, rfl⟩

theorem follows_nextBlock {f : BlockId → Build β} {ys : List Step} {c : β}
    (h : ∀ b, Follows o d (f b) ys c) : Follows o d (nextBlock >>= f) (.run .block :: ys) c := by
  refine .bind_any (.task rfl fun n => ?_) h
  exact .newBlock (.of_follows (follows_fallInto n))

theorem internConstant_run (k : Constant) (s : Session) : internConstant k s =
    .ok (UInt32.ofNat (s.draft.internConstant k).1)
      ⟨(s.draft.internConstant k).2, s.nextSerial⟩ := rfl

theorem follows_internConstant (k : Constant) {f : UInt32 → Build β} {ys : List Step} {c : β}
    (h : ∀ i, Follows o d (f i) ys c) :
    Follows o d (internConstant k >>= f) (.intern k :: ys) c := by
  have hunit : Follows o d (internConstant k >>= fun _ => Pure.pure ()) [.intern k] () :=
    .of_advances (fun s => ⟨(s.draft.internConstant k).2, s.nextSerial⟩) (fun _ => rfl)
      fun _ _ => .put (.intern k) rfl ⟨.intern k .nil, rfl, rfl⟩
  exact .bind_any hunit h

theorem of_emitArg_ok {op : Opcode} {arg : UInt32} {s s' : Session} {u : Unit}
    (h : emitArg op arg s = .ok u s') :
    s' = ⟨s.draft.append ⟨op, arg, none, 0⟩, s.nextSerial⟩ := by
  unfold emitArg at h
  obtain ⟨i, s₁, hi, hrun⟩ := of_bind_ok h
  unfold Instruction.plain at hi
  split at hi
  · cases hi
  · cases hi
    cases hrun
    rfl

theorem emitArg_ne_error {op : Opcode} {arg : UInt32} {s s' : Session} {e : CompileError}
    (hop : op.hasOperand = true ∨ arg = 0) : emitArg op arg s ≠ .error e s' := by
  intro h
  unfold emitArg at h
  rcases of_bind_error h with hi | ⟨i, s₁, _, hrun⟩
  · unfold Instruction.plain at hi
    rcases hop with hop | rfl
    · simp only [hop, Bool.not_true, Bool.false_and, Bool.false_eq_true, if_false] at hi
      cases hi
    · simp only [bne_self_eq_false, Bool.and_false, Bool.false_eq_true, if_false] at hi
      cases hi
  · cases hrun

theorem emitJump_ne_error {op : Opcode} {b : BlockId} {s s' : Session} {e : CompileError}
    (hop : op.isJump = true) : emitJump op b s ≠ .error e s' := by
  intro h
  unfold emitJump at h
  rcases of_bind_error h with hi | ⟨i, s₁, _, hrun⟩
  · rw [Instruction.jump, if_pos hop] at hi
    cases hi
  · cases hrun

theorem absurd_ofCode {e : CompileError} {f : Fault} {p : Prop} (he : e.ofCode = false)
    (hf : e.fault? = some f) (h : f.ofCode = true) : p := by
  simp [CompileError.ofCode, hf, h] at he

theorem follows_plain {op : Opcode} {arg : UInt32} (hop : op.hasOperand = true ∨ arg = 0) :
    Follows o d (emitArg op arg) [.emit op arg] () where
  ok := by
    intro s a s' _ hrun
    rw [of_emitArg_ok hrun]
    exact ⟨rfl, .put (.emit op arg) (by simp) (.add (.refl _) rfl trivial)⟩
  err := fun _ hrun => absurd hrun (emitArg_ne_error hop)
  kind := fun _ hrun => absurd hrun (emitArg_ne_error hop)

theorem follows_emitArg (op : Opcode) (arg : UInt32) (hop : op.hasOperand = true) :
    Follows o d (emitArg op arg) [.emit op arg] () := follows_plain (.inl hop)

theorem follows_emit (op : Opcode) : Follows o d (emit op) [.emit op 0] () :=
  follows_plain (.inr rfl)

theorem follows_emitJump (op : Opcode) (b : BlockId) (hop : op.isJump = true) :
    Follows o d (emitJump op b) [.jump op b] () where
  ok := by
    intro s a s' _ hrun
    obtain ⟨i, s₁, hi, hrun⟩ := of_bind_ok hrun
    rw [Instruction.jump, if_pos hop] at hi
    cases hi
    cases hrun
    exact ⟨rfl, .put (.jump op b) (by simp) (.add (.refl _) rfl hop)⟩
  err := fun _ hrun => absurd hrun (emitJump_ne_error hop)
  kind := fun _ hrun => absurd hrun (emitJump_ne_error hop)

theorem of_loadConst_ok {c : Constant} {s s' : Session} {u : Unit}
    (h : loadConst c s = .ok u s') :
    s' = ⟨(s.draft.internConstant c).2.append
      ⟨.loadConst, UInt32.ofNat (s.draft.internConstant c).1, none, 0⟩, s.nextSerial⟩ := by
  obtain ⟨i, s₁, hi, hrun⟩ := of_bind_ok h
  rw [internConstant_run] at hi
  injection hi with hi hs₁
  subst hi hs₁
  exact of_emitArg_ok hrun

theorem loadConst_ne_error {c : Constant} {s s' : Session} {e : CompileError} :
    loadConst c s ≠ .error e s' := by
  intro h
  rcases of_bind_error h with hi | ⟨i, s₁, _, hrun⟩
  · cases hi
  · exact absurd hrun (emitArg_ne_error (.inl rfl))

theorem follows_loadConst (c : Constant) : Follows o d (loadConst c) [.load c] () where
  ok := by
    intro s a s' _ hrun
    rw [of_loadConst_ok hrun]
    have hintern : s.Writes [.intern c] ⟨(s.draft.internConstant c).2, s.nextSerial⟩ :=
      ⟨.intern c .nil, rfl, rfl⟩
    exact ⟨rfl, .put (.load _ c) (by simp [Draft.internConstant])
      (hintern.trans (.add (.refl _) rfl (Draft.resolves_load _ c)))⟩
  err := fun _ hrun => absurd hrun loadConst_ne_error
  kind := fun _ hrun => absurd hrun loadConst_ne_error

/-- A build that gives the operand which stands for a name. -/
structure Finds (d : Draft) (b : Build UInt32) (op : Opcode) (x : String) : Prop where
  ok : ∀ {s arg s'}, d.Evolves s.draft → b s = .ok arg s' →
    s.Writes [] s' ∧ s'.draft.Resolves (.named op arg x)
  err : ∀ {s e s'}, b s = .error e s' → e.ofCode = false ∧ e.ofBookkeeping = false

theorem Finds.follows {b : Build UInt32} {op : Opcode} {x : String} (h : Finds d b op x)
    (hop : op.hasOperand = true) : Follows o d (b >>= emitArg op) [.named op x] () where
  ok := by
    intro s a s' hs hrun
    obtain ⟨arg, s₁, hb, hrun⟩ := of_bind_ok hrun
    obtain ⟨hw, hres⟩ := h.ok hs hb
    rw [of_emitArg_ok hrun]
    refine ⟨rfl, .put (.named op arg x) ?_ (.add hw rfl hres)⟩
    rw [Draft.size_blocks_append]
    exact hw.draft.size_blocks
  err := by
    intro s e s' f _ hrun
    rcases of_bind_error hrun with hi | ⟨i, s₁, _, hrun⟩
    · exact absurd_ofCode (h.err hi).1
    · exact absurd hrun (emitArg_ne_error (.inl hop))
  kind := by
    intro s e s' _ hrun
    rcases of_bind_error hrun with hi | ⟨i, s₁, _, hrun⟩
    · exact (h.err hi).2
    · exact absurd hrun (emitArg_ne_error (.inl hop))

theorem finds_internName {op : Opcode} (x : String)
    (hop : ∀ d : Draft, d.operandNames op = d.names.toList) : Finds d (internName x) op x where
  ok := by
    intro s arg s' _ hrun
    cases hrun
    have hget := Pool.getElem?_intern s.draft.names x
    rw [Option.map_id'] at hget
    refine ⟨⟨.quiet .nil ⟨rfl, List.suffix_rfl, List.prefix_rfl, Pool.toList_prefix_intern _ _,
      List.prefix_rfl⟩ rfl rfl rfl fun h => ⟨h, rfl⟩, rfl, rfl⟩, _, rfl, ?_⟩
    rw [hop]
    exact hget
  err := by rintro s e s' ⟨⟩

theorem finds_internVarname (op : Opcode) (x : String)
    (hop : ∀ d : Draft, d.operandNames op = d.varnames.toList) :
    Finds d (internVarname x) op x where
  ok := by
    intro s arg s' _ hrun
    cases hrun
    have hget := Pool.getElem?_intern s.draft.varnames x
    rw [Option.map_id'] at hget
    refine ⟨⟨.quiet .nil ⟨rfl, List.suffix_rfl, List.prefix_rfl, List.prefix_rfl,
      Pool.toList_prefix_intern _ _⟩ rfl rfl rfl fun h => ⟨h, rfl⟩, rfl, rfl⟩, _, rfl, ?_⟩
    rw [hop]
    exact hget
  err := by rintro s e s' ⟨⟩

theorem getElem?_of_find? {p : NamePool} {x : String} {i : Nat} (h : p.find? x = some i) :
    p.toList[i]? = some x := by
  simpa using (p.find?_eq_some_iff x i).mp h

theorem getElem?_freevars {d : Draft} {x : String} {i : Nat} (h : d.freevars.find? x = some i) :
    (d.cellvars.toList ++ d.freevars.toList)[i + d.cellvars.size]? = some x := by
  rw [List.getElem?_append_right (by simp [Pool.size, Pool.toList])]
  simpa [Pool.size, Pool.toList] using getElem?_of_find? h

theorem getElem?_cellvars {d : Draft} {x : String} {i : Nat} (h : d.cellvars.find? x = some i) :
    (d.cellvars.toList ++ d.freevars.toList)[i]? = some x := by
  have hi := getElem?_of_find? h
  rw [List.getElem?_append_left (List.getElem?_eq_some_iff.mp hi).1]
  exact hi

theorem finds_derefSlot (op : Opcode) (x : String)
    (hop : ∀ d : Draft, d.operandNames op = d.cellvars.toList ++ d.freevars.toList) :
    Finds d (derefSlot x) op x where
  ok := by
    intro s arg s' _ hrun
    have hrun : ofExcept (s.draft.derefSlot x) s = .ok arg s' := hrun
    unfold Draft.derefSlot at hrun
    split at hrun
    · next i hcell =>
      cases hrun
      exact ⟨.refl _, i, rfl, by rw [hop]; exact getElem?_cellvars hcell⟩
    · next i _ hfree =>
      cases hrun
      exact ⟨.refl _, _, rfl, by rw [hop]; exact getElem?_freevars hfree⟩
    · cases hrun
  err := by
    intro s e s' hrun
    have hrun : ofExcept (s.draft.derefSlot x) s = .error e s' := hrun
    unfold Draft.derefSlot at hrun
    split at hrun <;> cases hrun
    exact ⟨rfl, rfl⟩

theorem finds_closureSlot (x child : String) :
    Finds d (ask (·.closureSlot x child) >>= ofExcept) .loadClosure x where
  ok := by
    intro s arg s' _ hrun
    have hrun : ofExcept (s.draft.closureSlot x child) s = .ok arg s' := hrun
    unfold Draft.closureSlot at hrun
    simp only at hrun
    split at hrun
    · next i hslot =>
      cases hrun
      refine ⟨.refl _, i, rfl, ?_⟩
      split at hslot
      · exact getElem?_cellvars hslot
      · obtain ⟨k, hk, rfl⟩ := Option.map_eq_some_iff.mp hslot
        exact getElem?_freevars hk
    · cases hrun
  err := by
    intro s e s' hrun
    have hrun : ofExcept (s.draft.closureSlot x child) s = .error e s' := hrun
    unfold Draft.closureSlot at hrun
    simp only at hrun
    split at hrun <;> cases hrun
    exact ⟨rfl, rfl⟩

theorem follows_emitName {op : Opcode} (x : String)
    (hnames : ∀ d : Draft, d.operandNames op = d.names.toList)
    (hop : op.hasOperand = true) : Follows o d (emitName op x) [.named op x] () :=
  (finds_internName x hnames).follows hop

theorem follows_accessName (x : String) (ctx : Ctx) :
    Follows o d (accessName x ctx) [Step.name d x ctx] () := by
  refine .ask (fun _ => rfl) ?_
  unfold Step.name Draft.nameOpcode
  cases d.access x with
  | deref =>
    have hop (d' : Draft) : d'.operandNames (derefOpcode d.kind ctx) =
        d'.cellvars.toList ++ d'.freevars.toList := by
      cases ctx with
      | load => simp only [derefOpcode]; split <;> rfl
      | store | del => rfl
    refine .ask (fun _ => rfl) ((finds_derefSlot _ x hop).follows ?_)
    cases ctx with
    | load => simp only [derefOpcode]; split <;> rfl
    | store | del => rfl
  | fast =>
    have hop (d' : Draft) : d'.operandNames (fastOpcode ctx) = d'.varnames.toList := by
      cases ctx <;> rfl
    exact (finds_internVarname _ x hop).follows (by cases ctx <;> rfl)
  | global => exact follows_emitName x (fun d' => by cases ctx <;> rfl) (by cases ctx <;> rfl)
  | name => exact follows_emitName x (fun d' => by cases ctx <;> rfl) (by cases ctx <;> rfl)

theorem follows_clearName (x : String) : Follows o d (clearName x) (clearSteps d x) () :=
  .cons (follows_loadConst .none) (.cons (follows_accessName x .store) (follows_accessName x .del))

theorem follows_repeatEmit (op : Opcode) (arg : UInt32) (n : Nat)
    (hop : op.hasOperand = true ∨ arg = 0) :
    Follows o d (repeatEmit op arg n) (List.replicate n (.emit op arg)) () := by
  induction n with
  | zero => exact .pure ()
  | succ n ih => exact .cons (follows_plain hop) ih

theorem follows_loadCells (child : String) (names : List String) :
    Follows o d (loadCells child names) (names.map (Step.named .loadClosure)) () := by
  induction names with
  | nil => exact .pure ()
  | cons x rest ih =>
    have h := ((finds_closureSlot x child).follows rfl).seq ih
    rw [bind_assoc, bind_assoc] at h
    exact h

theorem follows_makeClosure (code : CodeObject) (parts : FunctionParts) (qualname : String) :
    Follows o d (makeClosure code parts qualname) (closureSteps code parts qualname) () := by
  have hlast : Follows o d
      (loadConst (.code code) >>= fun _ => loadConst (.str qualname) >>= fun _ =>
        emitArg .makeFunction { parts with closure := !code.freevars.isEmpty }.operand)
      [.load (.code code), .load (.str qualname),
        .emit .makeFunction { parts with closure := !code.freevars.isEmpty }.operand] () :=
    .cons (follows_loadConst _) (.cons (follows_loadConst _) (follows_emitArg _ _ rfl))
  unfold makeClosure closureSteps
  by_cases hfree : code.freevars.isEmpty = true
  · simp only [hfree, Bool.not_true, Bool.false_eq_true, if_false, if_true, List.nil_append]
      at hlast ⊢
    exact hlast
  · rw [Bool.not_eq_true] at hfree
    simp only [hfree, Bool.not_false, if_true, Bool.false_eq_true, if_false] at hlast ⊢
    have hcells := (follows_loadCells code.name code.freevars).seq
      (follows_emitArg (o := o) (d := d) .buildTuple (UInt32.ofNat code.freevars.length) rfl)
    have h := hcells.seq hlast
    rw [bind_assoc] at h
    exact h

theorem nextChild_run (s : Session) : nextChild s =
    match s.draft.children with
    | [] => .error (.fault (.noChildScope s.draft.name)) s
    | t :: rest => .ok t { s with draft := { s.draft with children := rest } } := by
  obtain ⟨⟨⟩, number⟩ := s
  dsimp only
  split <;> rfl

theorem of_nextChild_ok {s s' : Session} {t : ScopeTable} (h : nextChild s = .ok t s') :
    ∃ rest, s.draft.children = t :: rest ∧
      s' = { s with draft := { s.draft with children := rest } } := by
  rw [nextChild_run] at h
  split at h
  · cases h
  · next t' rest heq =>
    cases h
    exact ⟨rest, heq, rfl⟩

theorem of_nextChild_error {s s' : Session} {e : CompileError} (h : nextChild s = .error e s') :
    e.ofCode = false ∧ e.ofBookkeeping = false := by
  rw [nextChild_run] at h
  split at h <;> cases h
  exact ⟨rfl, rfl⟩

theorem of_skipChildren_ok {n : Nat} {s s' : Session} {u : Unit} (h : skipChildren n s = .ok u s') :
    ∃ passed rest, passed.length = n ∧ s.draft.children = passed ++ rest ∧
      s' = { s with draft := { s.draft with children := rest } } := by
  induction n generalizing s with
  | zero =>
    cases h
    exact ⟨[], _, rfl, rfl, rfl⟩
  | succ n ih =>
    obtain ⟨t, s₁, hchild, hrest⟩ := of_bind_ok h
    obtain ⟨_, hchildren, rfl⟩ := of_nextChild_ok hchild
    obtain ⟨passed, rest, hlength, rfl, rfl⟩ := ih hrest
    exact ⟨t :: passed, rest, congrArg (· + 1) hlength, hchildren, rfl⟩

theorem of_skipChildren_error {n : Nat} {s s' : Session} {e : CompileError}
    (h : skipChildren n s = .error e s') : e.ofCode = false ∧ e.ofBookkeeping = false := by
  induction n generalizing s with
  | zero => cases h
  | succ n ih =>
    rcases of_bind_error h with hchild | ⟨t, s₁, _, hrest⟩
    · exact of_nextChild_error hchild
    · exact ih hrest

/-- An assertion that is left out writes nothing; it passes over the scopes inside it. -/
theorem follows_skipChildren {frames : List Frame} {line : UInt32} {test : Expr}
    {msg : Option Expr} (ho : o.stripsAsserts = true) :
    Follows o d (skipChildren (test.scopeCount + (msg.map Expr.scopeCount).getD 0))
      [.run (.stmt frames (.assert line test msg))] () where
  ok := by
    intro s a s' _ hrun
    obtain ⟨passed, rest, hlength, hchildren, hs'⟩ := of_skipChildren_ok hrun
    have hdraft : s'.draft = { s.draft with children := rest } := congrArg Session.draft hs'
    have hserial : s'.nextSerial = s.nextSerial := by rw [hs']
    generalize ht : Task.stmt frames (.assert line test msg) = t
    have hlabels : t.labelCount o = 0 := ht ▸ if_pos ho
    have hsteps (n : Nat) : t.steps o d n = [] := ht ▸ if_pos ho
    have hskip : passed.length = t.skipCount o := ht ▸ hlength.trans (if_pos ho).symm
    have hsuffix : rest <:+ s.draft.children := hchildren ▸ List.suffix_append _ _
    have hquiet : s.draft.Writes (List.replicate (t.labelCount o) .alloc) s'.draft := by
      rw [hlabels, hdraft]
      exact .quiet .nil ⟨rfl, hsuffix, List.prefix_rfl, List.prefix_rfl, List.prefix_rfl⟩ rfl rfl
        rfl fun hstamped => ⟨hstamped, rfl⟩
    have hemits : Emits o d [.run t] s.draft.blocks.size
        (List.replicate (t.labelCount o) .alloc ++ [] ++ []) s'.draft.blocks.size :=
      .run (by rw [hsteps, hlabels, hdraft]; exact .nil) (by subst ht; trivial) .nil
    rw [List.append_nil] at hemits
    have hchildren : s.draft.children = passed ++ s'.draft.children := hdraft ▸ hchildren
    refine ⟨rfl, _, hemits, .run hquiet hchildren hskip hserial ?_⟩
    rw [hsteps]
    exact .stop
  err := fun _ hrun => absurd_ofCode (of_skipChildren_error hrun).1
  kind := fun _ hrun => (of_skipChildren_error hrun).2

end Build
end Rules

theorem Emits.of_append {o : Options} {d : Draft} {xs ys : List Step} {n m : Nat} {log : Script}
    (h : Emits o d (xs ++ ys) n log m) : ∃ log₁ log₂ k, log = log₁ ++ log₂ ∧
      Emits o d xs n log₁ k ∧ Emits o d ys k log₂ m := by
  generalize hzs : xs ++ ys = zs at h
  induction h generalizing xs with
  | nil =>
    obtain ⟨rfl, rfl⟩ := List.append_eq_nil_iff.mp hzs
    exact ⟨[], [], _, rfl, .nil, .nil⟩
  | put hx h ih =>
    rcases List.append_eq_cons_iff.mp hzs with ⟨rfl, rfl⟩ | ⟨xs', rfl, hrest⟩
    · exact ⟨[], _, _, rfl, .nil, .put hx h⟩
    · obtain ⟨log₁, log₂, k, rfl, h₁, h₂⟩ := ih hrest.symm
      exact ⟨_, log₂, k, (List.append_assoc ..).symm, .put hx h₁, h₂⟩
  | closure ht hkind hinner hw hfinish h _ ih =>
    rcases List.append_eq_cons_iff.mp hzs with ⟨rfl, rfl⟩ | ⟨xs', rfl, hrest⟩
    · exact ⟨[], _, _, rfl, .nil, .closure ht hkind hinner hw hfinish h⟩
    · -- the steps that make the function belong to the first part
      obtain ⟨log₁, log₂, k, rfl, h₁, h₂⟩ := ih (by rw [hrest, List.append_assoc])
      exact ⟨log₁, log₂, k, rfl, .closure ht hkind hinner hw hfinish h₁, h₂⟩
  | run hsub hran h _ ih =>
    rcases List.append_eq_cons_iff.mp hzs with ⟨rfl, rfl⟩ | ⟨xs', rfl, hrest⟩
    · exact ⟨[], _, _, rfl, .nil, .run hsub hran h⟩
    · obtain ⟨log₁, log₂, k, rfl, h₁, h₂⟩ := ih hrest.symm
      exact ⟨_, log₂, k, (List.append_assoc ..).symm, .run hsub hran h₁, h₂⟩

theorem Fails.of_append {o : Options} {d : Draft} {xs ys : List Step} {f : Fault}
    (h : Fails o d (xs ++ ys) f) : Fails o d xs f ∨ Fails o d ys f := by
  induction xs with
  | nil => exact .inr h
  | cons x xs ih =>
    cases h with
    | later h => exact (ih h).imp_left .later
    | run h => exact .inl (.run h)
    | inner ht hkind h => exact .inl (.inner ht hkind h)
    | finish ht hkind he hw hf hfault => exact .inl (.finish ht hkind he hw hf hfault)

theorem not_fails_closureSteps {o : Options} {d : Draft} {code : CodeObject}
    {parts : FunctionParts} {qualname : String} {f : Fault} :
    ¬ Fails o d (closureSteps code parts qualname) f := by
  have hplain (steps : List Step) (hs : ∀ x ∈ steps, (∃ op arg, x = .emit op arg) ∨
      (∃ op y, x = .named op y) ∨ ∃ c, x = .load c) : ¬ Fails o d steps f := by
    induction steps with
    | nil => rintro ⟨⟩
    | cons x steps ih =>
      intro h
      rcases hs x List.mem_cons_self with ⟨_, _, rfl⟩ | ⟨_, _, rfl⟩ | ⟨_, rfl⟩ <;>
        cases h with
        | later h => exact ih (fun y hy => hs y (List.mem_cons_of_mem _ hy)) h
  refine hplain _ fun x hx => ?_
  unfold closureSteps at hx
  rcases List.mem_append.mp hx with hx | hx
  · split at hx
    · cases hx
    · simp only [List.mem_append, List.mem_map, List.mem_singleton] at hx
      rcases hx with ⟨y, _, rfl⟩ | rfl
      · exact .inr (.inl ⟨_, _, rfl⟩)
      · exact .inl ⟨_, _, rfl⟩
  · simp only [List.mem_cons, List.not_mem_nil, or_false] at hx
    rcases hx with rfl | rfl | rfl
    · exact .inr (.inr ⟨_, rfl⟩)
    · exact .inr (.inr ⟨_, rfl⟩)
    · exact .inl ⟨_, _, rfl⟩

namespace Build

variable {o : Options} {d : Draft}

theorem of_inScope_ok {filename name : String} {kind : ScopeKind} {line : UInt32} {b : Build Bool}
    {s s' : Session} {code : CodeObject}
    (h : inScope filename name kind line b s = .ok code s') : ∃ table s₁ addNone s₂,
      nextChild s = .ok table s₁ ∧ table.kind = kind ∧
      b ⟨s₁.draft.child name table s₁.nextSerial line, s₁.nextSerial + 1⟩ = .ok addNone s₂ ∧
      s₂.draft.finish addNone filename = .ok code ∧ s' = ⟨s₁.draft, s₂.nextSerial⟩ := by
  unfold inScope at h
  obtain ⟨table, s₁, hchild, h⟩ := of_bind_ok h
  dsimp only at h
  split at h
  · cases h
  · next hkind =>
    obtain ⟨outer, _, hget, h⟩ := of_bind_ok h
    cases hget
    obtain ⟨_, _, hset, h⟩ := of_bind_ok h
    cases hset
    obtain ⟨addNone, s₂, hb, h⟩ := of_bind_ok h
    obtain ⟨inner, _, hget, h⟩ := of_bind_ok h
    cases hget
    obtain ⟨_, _, hset, h⟩ := of_bind_ok h
    cases hset
    refine ⟨table, s₁, addNone, s₂, hchild, not_not.mp hkind, hb, ?_⟩
    cases hfinish : s₂.draft.finish addNone filename with
    | error e =>
      rw [hfinish] at h
      cases h
    | ok c =>
      rw [hfinish] at h
      cases h
      exact ⟨rfl, rfl⟩

theorem of_inScope_error {filename name : String} {kind : ScopeKind} {line : UInt32}
    {b : Build Bool} {s s' : Session} {e : CompileError}
    (h : inScope filename name kind line b s = .error e s') :
    (e.ofCode = false ∧ e.ofBookkeeping = false) ∨
      ∃ table s₁, nextChild s = .ok table s₁ ∧ table.kind = kind ∧
        (b ⟨s₁.draft.child name table s₁.nextSerial line, s₁.nextSerial + 1⟩ = .error e s' ∨
          ∃ addNone s₂,
            b ⟨s₁.draft.child name table s₁.nextSerial line, s₁.nextSerial + 1⟩ =
              .ok addNone s₂ ∧ s₂.draft.finish addNone filename = .error e) := by
  unfold inScope at h
  rcases of_bind_error h with hchild | ⟨table, s₁, hchild, h⟩
  · exact .inl (of_nextChild_error hchild)
  dsimp only at h
  split at h
  · cases h
    exact .inl ⟨rfl, rfl⟩
  · next hkind =>
    refine .inr ⟨table, s₁, hchild, not_not.mp hkind, ?_⟩
    rcases of_bind_error h with hget | ⟨outer, _, hget, h⟩ <;> cases hget
    rcases of_bind_error h with hset | ⟨_, _, hset, h⟩ <;> cases hset
    rcases of_bind_error h with hb | ⟨addNone, s₂, hb, h⟩
    · exact .inl hb
    rcases of_bind_error h with hget | ⟨inner, _, hget, h⟩ <;> cases hget
    rcases of_bind_error h with hset | ⟨_, _, hset, h⟩ <;> cases hset
    refine .inr ⟨addNone, s₂, hb, ?_⟩
    cases hfinish : s₂.draft.finish addNone filename with
    | error e =>
      rw [hfinish] at h
      cases h
      rfl
    | ok c =>
      rw [hfinish] at h
      cases h

theorem evolves_children {d : Draft} {t : ScopeTable} {rest : List ScopeTable}
    (h : d.children = t :: rest) : d.Evolves { d with children := rest } :=
  ⟨rfl, h ▸ List.suffix_cons t rest, List.prefix_rfl, List.prefix_rfl, List.prefix_rfl⟩

theorem child_eq {d d' : Draft} (h : d.Evolves d') (name : String) (t : ScopeTable)
    (serial line : UInt32) : d'.child name t serial line = d.child name t serial line :=
  h.keeps (Draft.child · name t serial line) fun _ => rfl

theorem all_isSimple_closureSteps (code : CodeObject) (parts : FunctionParts) (qualname : String) :
    (closureSteps code parts qualname).all Step.isSimple = true := by
  unfold closureSteps
  split <;> simp [Step.isSimple]

/-- A nested scope whose body follows steps, and the function that is made of it behind `prep`. -/
theorem follows_inScope {α : Type} (body : Body) {name : String} {line : UInt32}
    {parts : FunctionParts} (qualname : Option String) {prep : Build Unit} {rest : Build α}
    {lead ys : List Step} {a : α}
    (hb : ∀ d', Follows o d' (body.build o) (body.steps o d') (body.addNone d'))
    (hprep : Follows o d prep lead ()) (hrest : Follows o d rest ys a)
    (hlead : lead.all Step.isSimple = true) :
    Follows o d (inScope o.filename name body.kind line (body.build o) >>= fun code =>
        prep >>= fun _ => makeClosure code parts (qualname.getD code.qualname) >>= fun _ => rest)
      (lead ++ .closure body name line parts qualname :: ys) a := by
  have hf (code : CodeObject) : Follows o d
      (prep >>= fun _ => makeClosure code parts (qualname.getD code.qualname) >>= fun _ => rest)
      (lead ++ (closureSteps code parts (qualname.getD code.qualname) ++ ys)) a :=
    hprep.append ((follows_makeClosure _ _ _).append hrest)
  refine ⟨?_, ?_, ?_⟩
  · intro s r s'' hs hrun
    obtain ⟨code, s', hscope, hrest'⟩ := of_bind_ok hrun
    obtain ⟨table, s₁, addNone, s₂, hchild, hkind, hbody, hfinish, rfl⟩ := of_inScope_ok hscope
    obtain ⟨tables, hchildren, rfl⟩ := of_nextChild_ok hchild
    have hbody : body.build o (s.inside name table line) = .ok addNone s₂ := hbody
    obtain ⟨rfl, inner, hinner, hruns⟩ := (hb (s.inside name table line).draft).ok (.refl _) hbody
    have henters : s.Enters o body name line table code s₂
        ⟨{ s.draft with children := tables }, s₂.nextSerial⟩ :=
      ⟨hchildren, hkind, hbody, hfinish, rfl, rfl⟩
    have hs' := hs.trans henters.writes.evolves
    obtain ⟨_, s₃, hprep', hrest'⟩ := of_bind_ok hrest'
    obtain ⟨_, s₄, hmake, hrest'⟩ := of_bind_ok hrest'
    obtain ⟨_, log, hlog, hw⟩ := hprep.ok hs' hprep'
    have hs₃ := hs'.trans hw.writes.evolves
    obtain ⟨_, log', hlog', hw'⟩ :=
      (follows_makeClosure code parts (qualname.getD code.qualname)).ok hs₃ hmake
    obtain ⟨hr, log'', hlog'', hw''⟩ := hrest.ok (hs₃.trans hw'.writes.evolves) hrest'
    refine ⟨hr, log ++ log' ++ log'', ?_, .closure hlead henters hruns hinner (hw.append hw') hw''⟩
    have hchild : s.inside name table line = ⟨d.child name table s.nextSerial line, s.nextSerial + 1⟩ :=
      congrArg (Session.mk · _) (child_eq hs ..)
    have htable : table ∈ d.children := hs.children.subset (hchildren ▸ List.mem_cons_self)
    rw [List.append_assoc]
    rw [hchild] at hinner hruns hbody hfinish
    exact hlog.append (.closure htable hkind hinner ⟨hruns.writes, _, _, _, hbody, rfl⟩ hfinish
      (hlog'.append hlog''))
  · intro s e s'' fault hs hrun hfault hcode
    rcases of_bind_error hrun with hscope | ⟨code, s', hscope, hrest⟩
    · rcases of_inScope_error hscope with he | ⟨table, s₁, hchild, hkind, hinner⟩
      · exact absurd_ofCode he.1 hfault hcode
      · obtain ⟨tables, hchildren, rfl⟩ := of_nextChild_ok hchild
        have htable : table ∈ d.children :=
          hs.children.subset (hchildren ▸ List.mem_cons_self)
        rw [child_eq (hs.trans (evolves_children hchildren))] at hinner
        refine .append_right ?_
        rcases hinner with hbody | ⟨addNone, s₂, hbody, hfinish⟩
        · exact .inner htable hkind ((hb _).err (.refl _) hbody hfault hcode)
        · obtain ⟨hnone, inner, hinner, hruns⟩ := (hb _).ok (.refl _) hbody
          exact .finish htable hkind hinner hruns.writes (hnone ▸ hfinish) hfault
    · obtain ⟨table, s₁, addNone, s₂, hchild, _, _, _, rfl⟩ := of_inScope_ok hscope
      obtain ⟨tables, hchildren, rfl⟩ := of_nextChild_ok hchild
      have hs' := hs.trans (evolves_children hchildren)
      rcases ((hf code).err hs' hrest hfault hcode).of_append with h | h
      · exact h.append_left
      · rcases h.of_append with h | h
        · exact absurd h not_fails_closureSteps
        · exact .append_right (.later h)
  · intro s e s'' hs hrun
    rcases of_bind_error hrun with hscope | ⟨code, s', hscope, hrest⟩
    · rcases of_inScope_error hscope with he | ⟨table, s₁, hchild, hkind, hinner⟩
      · exact he.2
      · obtain ⟨tables, hchildren, rfl⟩ := of_nextChild_ok hchild
        rw [child_eq (hs.trans (evolves_children hchildren))] at hinner
        rcases hinner with hbody | ⟨addNone, s₂, hbody, hfinish⟩
        · exact (hb _).kind (.refl _) hbody
        · exact Draft.not_ofBookkeeping_of_finish hfinish
    · obtain ⟨table, s₁, addNone, s₂, hchild, _, _, _, rfl⟩ := of_inScope_ok hscope
      obtain ⟨tables, hchildren, rfl⟩ := of_nextChild_ok hchild
      have hs' := hs.trans (evolves_children hchildren)
      exact (hf code).kind hs' hrest

/-- A nested scope that is made into a function at once. -/
theorem follows_closure {α : Type} (body : Body) {name : String} {line : UInt32}
    {parts : FunctionParts} {rest : Build α} {ys : List Step} {a : α}
    (hb : ∀ d', Follows o d' (body.build o) (body.steps o d') (body.addNone d'))
    (hrest : Follows o d rest ys a) :
    Follows o d (inScope o.filename name body.kind line (body.build o) >>= fun code =>
        makeClosure code parts code.qualname >>= fun _ => rest)
      (.closure body name line parts none :: ys) a := by
  have h : Follows o d (inScope o.filename name body.kind line (body.build o) >>= fun code =>
      pure () >>= fun _ => makeClosure code parts code.qualname >>= fun _ => rest) _ a :=
    follows_inScope body none hb (.pure ()) hrest rfl
  simpa only [pure_bind, List.nil_append] using h

end Build
end Wordcode

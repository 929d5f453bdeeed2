import Wordcode.Proofs.Conditions
import Wordcode.Proofs.Context

/-!
# Control flow of statements

What statements do if nothing is raised: which expressions they evaluate, one after the other, and
how they end. Tests are conditions, of which the operands are evaluated and the truth decides. A
`while` loop need not end, so its turns are counted: one that takes more of them than it is given is
broken off, and what has been evaluated by then is known.
-/

set_option autoImplicit false

namespace Wordcode

/-- What a function returns. -/
inductive Result (V : Type) where
  | value (v : V)
  | constant (c : Constant)

/-- How a statement ends. -/
inductive Outcome (V : Type) where
  | normal
  | breaks
  | continues
  | returns (r : Result V)
  /-- A loop took all the turns that it was given. -/
  | timeout

/-- What is done: it goes on from the expressions that were evaluated before. -/
abbrev Effect (V : Type) := List Expr → Outcome V × List Expr

namespace Effect

variable {V : Type}

def skip : Effect V := fun tr => (.normal, tr)

def seq (a b : Effect V) : Effect V := fun tr =>
  match a tr with
  | (.normal, tr) => b tr
  | r => r

/-- The final body `b` of what ended with `out`. If it does not end normally, that is how all ends. -/
def finish (b : Effect V) (out : Outcome V) : Effect V := fun tr =>
  match b tr with
  | (.normal, tr) => (out, tr)
  | r => r

/-- `a` with the final body `b`. -/
def guarded (a b : Effect V) : Effect V := fun tr =>
  match a tr with
  | (.timeout, tr) => (.timeout, tr)
  | (out, tr) => finish b out tr

def branch (M : Meaning V) (test : Expr) (a b : Effect V) : Effect V := fun tr =>
  let (v, tr) := test.evaluate M tr
  if M.truth v then a tr else b tr

/-- How a loop goes on when its body has ended, if `again` are its further turns. -/
def turn (body again : Effect V) : Effect V := fun tr =>
  match body tr with
  | (.normal, tr) | (.continues, tr) => again tr
  | (.breaks, tr) => (.normal, tr)
  | r => r

/-- A loop with at most so many turns. -/
def loop (M : Meaning V) (test : Expr) (body orelse : Effect V) : Nat → Effect V
  | 0 => fun tr => (.timeout, tr)
  | n + 1 => branch M test (turn body (loop M test body orelse n)) orelse

/-- A loop over the items of an iterable. -/
def each (body orelse : Effect V) : List V → Effect V
  | [] => orelse
  | _ :: xs => turn body (each body orelse xs)

variable {a b : Effect V} {out : Outcome V}

theorem seq_skip (a : Effect V) : seq a skip = a := by
  funext tr
  unfold seq
  split
  · next heq => exact heq.symm
  · rfl

theorem finish_normal (b : Effect V) (tr : List Expr) : finish b .normal tr = b tr := by
  unfold finish
  split
  · next heq => exact heq.symm
  · rfl

theorem finish_ne_normal (h : out ≠ .normal) (tr : List Expr) : (finish b out tr).1 ≠ .normal := by
  unfold finish
  split
  · exact h
  · next hout => exact fun heq => hout _ (Prod.ext heq rfl)

/-- An empty final body does nothing. -/
theorem guarded_skip (a : Effect V) : guarded a skip = a := by
  funext tr
  unfold guarded
  split
  · next heq => exact heq.symm
  · next heq => exact heq.symm

end Effect

namespace Stmt

/-- The statements that control flow is made of. Tests are conditions over any operands, the targets
of `for` loops are names, and only a `try` statement with handlers has an `else` part. -/
inductive IsFlow : Stmt → Prop where
  | pass {line : UInt32} : IsFlow (.pass line)
  | breakLoop {line : UInt32} : IsFlow (.breakLoop line)
  | continueLoop {line : UInt32} : IsFlow (.continueLoop line)
  | expr {line : UInt32} {e : Expr} : e.isConstant = false → e.Fits (fun _ => True) .load →
      IsFlow (.expr line e)
  | ret {line : UInt32} {value : Option Expr} :
      (∀ e, value = some e → e.Fits (fun _ => True) .load) → IsFlow (.ret line value)
  | ifElse {line : UInt32} {test : Expr} {body orelse : List Stmt} :
      test.IsCondition → (∀ s ∈ body, IsFlow s) → (∀ s ∈ orelse, IsFlow s) →
      IsFlow (.ifElse line test body orelse)
  | whileLoop {line : UInt32} {test : Expr} {body orelse : List Stmt} :
      test.IsCondition → (∀ s ∈ body, IsFlow s) → (∀ s ∈ orelse, IsFlow s) →
      IsFlow (.whileLoop line test body orelse)
  | forLoop {line line' : UInt32} {id : String} {iter : Expr} {body orelse : List Stmt} :
      iter.Fits (fun _ => True) .load → (∀ s ∈ body, IsFlow s) → (∀ s ∈ orelse, IsFlow s) →
      IsFlow (.forLoop line (.name line' id .store) iter body orelse)
  | tryExcept {line : UInt32} {body orelse finalbody : List Stmt} {handlers : List Handler} :
      (handlers = [] → orelse = []) → (∀ s ∈ body, IsFlow s) → (∀ s ∈ orelse, IsFlow s) →
      (∀ s ∈ finalbody, IsFlow s) → IsFlow (.tryExcept line body handlers orelse finalbody)

variable {V : Type} (M : Meaning V) (fuel : Nat)

mutual

/-- What a statement does if every `while` loop may take so many turns each time it is come to. As
nothing is raised, no handler runs. -/
def exec : Stmt → Effect V
  | .expr _ e => fun tr => (.normal, tr ++ [e])
  | .ret _ none => fun tr => (.returns (.constant .none), tr)
  | .ret _ (some e) => fun tr =>
    match e.constant? with
    | some c => (.returns (.constant c), tr)
    | none => (.returns (.value (M.value tr e)), tr ++ [e])
  | .breakLoop _ => fun tr => (.breaks, tr)
  | .continueLoop _ => fun tr => (.continues, tr)
  | .ifElse _ test body orelse => .branch M test (execAll body) (execAll orelse)
  | .whileLoop _ test body orelse => .loop M test (execAll body) (execAll orelse) fuel
  | .forLoop _ _ iter body orelse => fun tr =>
    Effect.each (execAll body) (execAll orelse) (M.items (M.value tr iter)) (tr ++ [iter])
  | .tryExcept _ body _ orelse finalbody =>
    .guarded (.seq (execAll body) (execAll orelse)) (execAll finalbody)
  | _ => .skip

def execAll : List Stmt → Effect V
  | [] => .skip
  | s :: ss => .seq (exec s) (execAll ss)

end

end Stmt

namespace Effect

variable {V : Type} {a b : Effect V} {turns : Nat}

/-- What has been evaluated stays, and what is broken off has taken so many turns. -/
def Lasts (turns : Nat) (f : Effect V) : Prop :=
  ∀ tr, tr.length ≤ (f tr).2.length ∧ ((f tr).1 = .timeout → tr.length + turns ≤ (f tr).2.length)

theorem lasts_skip : Lasts turns (skip : Effect V) := fun _ => ⟨Nat.le_refl _, nofun⟩

theorem Lasts.mono {turns' : Nat} (h : Lasts turns a) (hle : turns' ≤ turns) : Lasts turns' a :=
  fun tr => ⟨(h tr).1, fun hout => Nat.le_trans (Nat.add_le_add_left hle _) ((h tr).2 hout)⟩

/-- Nothing is lost by going on. -/
theorem Lasts.after (h : Lasts turns b) {tr tr' : List Expr} (hle : tr.length ≤ tr'.length) :
    tr.length ≤ (b tr').2.length ∧
      ((b tr').1 = .timeout → tr.length + turns ≤ (b tr').2.length) :=
  ⟨Nat.le_trans hle (h tr').1,
    fun hout => Nat.le_trans (Nat.add_le_add_right hle _) ((h tr').2 hout)⟩

theorem Lasts.seq (ha : Lasts turns a) (hb : Lasts turns b) : Lasts turns (seq a b) := by
  intro tr
  have h := ha tr
  unfold Effect.seq
  split
  · next heq =>
    rw [heq] at h
    exact hb.after h.1
  · exact h

theorem Lasts.guarded (ha : Lasts turns a) (hb : Lasts turns b) : Lasts turns (guarded a b) := by
  intro tr
  have h := ha tr
  unfold Effect.guarded
  split
  · next heq =>
    rw [heq] at h
    exact h
  · next out tr' hout heq =>
    rw [heq] at h
    have h' := hb.after h.1
    unfold finish
    split
    · next heq' =>
      rw [heq'] at h'
      exact ⟨h'.1, fun h => (hout h).elim⟩
    · exact h'

/-- The test is evaluated before either branch. -/
theorem Lasts.branch {test : Expr} (ha : Lasts turns a) (hb : Lasts turns b) (M : Meaning V)
    (ht : test.IsCondition) : Lasts (turns + 1) (branch M test a b) := by
  intro tr
  have hlt := ht.length_lt (M := M) tr
  have hlater {f : Effect V} (hf : Lasts turns f) : tr.length ≤ (f (test.evaluate M tr).2).2.length ∧
      ((f (test.evaluate M tr).2).1 = .timeout →
        tr.length + (turns + 1) ≤ (f (test.evaluate M tr).2).2.length) := by
    have h := hf (test.evaluate M tr).2
    exact ⟨Nat.le_trans (Nat.le_of_lt hlt) h.1, fun hout => Nat.le_trans (by omega) (h.2 hout)⟩
  unfold Effect.branch
  dsimp only
  split
  · exact hlater ha
  · exact hlater hb

theorem Lasts.turn (ha : Lasts turns a) (hb : Lasts turns b) : Lasts turns (turn a b) := by
  intro tr
  have h := ha tr
  unfold Effect.turn
  split
  · next heq =>
    rw [heq] at h
    exact hb.after h.1
  · next heq =>
    rw [heq] at h
    exact hb.after h.1
  · next heq =>
    rw [heq] at h
    exact ⟨h.1, nofun⟩
  · exact h

theorem Lasts.loop {test : Expr} (ha : Lasts turns a) (hb : Lasts turns b) (M : Meaning V)
    (ht : test.IsCondition) (n : Nat) (hn : n ≤ turns) : Lasts n (loop M test a b n) := by
  induction n with
  | zero => exact fun tr => ⟨Nat.le_refl _, fun _ => Nat.le_refl _⟩
  | succ n ih =>
    have hle := Nat.le_of_succ_le hn
    exact ((ha.mono hle).turn (ih hle)).branch (hb.mono hle) M ht

theorem Lasts.each (ha : Lasts turns a) (hb : Lasts turns b) (xs : List V) :
    Lasts turns (each a b xs) := by
  induction xs with
  | nil => exact hb
  | cons x xs ih => exact ha.turn ih

end Effect

section

variable {V : Type} (M : Meaning V) (fuel : Nat)

mutual

theorem Stmt.lasts_exec (s : Stmt) (hs : s.IsFlow) : (s.exec M fuel).Lasts fuel := by
  cases hs with
  | @expr _ e => exact fun tr => ⟨(List.prefix_append tr [e]).length_le, nofun⟩
  | @ret _ value =>
    cases value with
    | none => exact fun tr => ⟨Nat.le_refl _, nofun⟩
    | some e =>
      intro tr
      simp only [Stmt.exec]
      split
      · exact ⟨Nat.le_refl _, nofun⟩
      · exact ⟨(List.prefix_append tr [e]).length_le, nofun⟩
  | pass => exact Effect.lasts_skip
  | breakLoop | continueLoop => exact fun tr => ⟨Nat.le_refl _, nofun⟩
  | @ifElse _ _ body orelse ht hbody horelse =>
    exact ((Stmt.lasts_execAll body hbody).branch (Stmt.lasts_execAll orelse horelse) M ht).mono
      (Nat.le_succ fuel)
  | @whileLoop _ _ body orelse ht hbody horelse =>
    exact (Stmt.lasts_execAll body hbody).loop (Stmt.lasts_execAll orelse horelse) M ht fuel
      (Nat.le_refl fuel)
  | @forLoop _ _ _ iter body orelse _ hbody horelse =>
    intro tr
    refine ((Stmt.lasts_execAll body hbody).each (Stmt.lasts_execAll orelse horelse) _).after ?_
    simp
  | @tryExcept _ body orelse finalbody _ _ hbody horelse hfinal =>
    exact ((Stmt.lasts_execAll body hbody).seq (Stmt.lasts_execAll orelse horelse)).guarded
      (Stmt.lasts_execAll finalbody hfinal)

theorem Stmt.lasts_execAll (ss : List Stmt) (hss : ∀ s ∈ ss, s.IsFlow) :
    (Stmt.execAll M fuel ss).Lasts fuel := by
  match ss with
  | [] => exact Effect.lasts_skip
  | s :: ss =>
    rw [List.forall_mem_cons] at hss
    exact (Stmt.lasts_exec s hss.1).seq (Stmt.lasts_execAll ss hss.2)

end

end

end Wordcode

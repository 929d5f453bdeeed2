import Wordcode.Proofs.Labels

/-!
# Jumps that go forward

Only `jumpAbsolute` goes back in a scheme: at every other jump the label is still to come. This too
is a property of each scheme by itself, since the labels a construct is given for such jumps lie
behind it. The scripts of all programs have it.
-/

set_option autoImplicit false

namespace Wordcode

open Step (value branch simple)

/-- Labels given to a construct that lie behind it. The labels of loops around a statement do not:
they are reached by `jumpAbsolute` only. -/
def Task.ahead : Task → List BlockId
  | .stmt .. | .stmts .. | .tryExcept .. | .unwind .. => []
  | .handlers _ done _ | .handler _ done _ _ => [done]
  | t => t.uses

def Step.ahead : Step → List BlockId
  | .jump op b => if op = .jumpAbsolute then [] else [b]
  | .run t => t.ahead
  | _ => []

def aheadOf (steps : List Step) : List BlockId := steps.flatMap Step.ahead

@[simp] theorem aheadOf_nil : aheadOf [] = [] := rfl

@[simp] theorem aheadOf_cons (x : Step) (xs : List Step) :
    aheadOf (x :: xs) = x.ahead ++ aheadOf xs := rfl

@[simp] theorem aheadOf_append (xs ys : List Step) :
    aheadOf (xs ++ ys) = aheadOf xs ++ aheadOf ys := List.flatMap_append

theorem Task.ahead_subset_uses (t : Task) : t.ahead ⊆ t.uses := by
  cases t <;> simp [Task.ahead, Task.uses]

theorem Step.ahead_subset_uses (x : Step) : x.ahead ⊆ x.uses := by
  cases x with
  | jump op b =>
    simp only [Step.ahead, Step.uses]
    split <;> simp
  | run t => exact t.ahead_subset_uses
  | _ => exact List.nil_subset _

theorem aheadOf_subset_usesOf (steps : List Step) : aheadOf steps ⊆ usesOf steps := by
  induction steps with
  | nil => exact List.Subset.refl _
  | cons x xs ih =>
    rw [aheadOf_cons, usesOf_cons]
    exact List.append_subset.mpr ⟨List.subset_append_of_subset_left _ x.ahead_subset_uses,
      List.subset_append_of_subset_right _ ih⟩

/-- No step jumps ahead to a label that it goes on at, or that a step before it has gone on at. -/
structure Ordered (steps : List Step) : Prop where
  own : ∀ x ∈ steps, ∀ b ∈ x.places, b ∉ x.ahead
  later : steps.Pairwise fun x y => ∀ b ∈ x.places, b ∉ y.ahead

@[simp] theorem ordered_nil : Ordered [] := ⟨by simp, List.Pairwise.nil⟩

/-- The order of steps is checked from the front, at the labels that each of them goes on at. -/
@[simp] theorem ordered_cons {x : Step} {steps : List Step} :
    Ordered (x :: steps) ↔
      (∀ b ∈ x.places, b ∉ x.ahead ∧ b ∉ aheadOf steps) ∧ Ordered steps := by
  refine ⟨fun h => ?_, fun ⟨hx, h⟩ => ⟨List.forall_mem_cons.mpr ⟨fun b hb => (hx b hb).1, h.own⟩,
    List.pairwise_cons.mpr ⟨fun y hy b hb hahead => ?_, h.later⟩⟩⟩
  · obtain ⟨hlater, htail⟩ := List.pairwise_cons.mp h.later
    refine ⟨fun b hb => ⟨h.own x List.mem_cons_self b hb, fun hahead => ?_⟩,
      fun y hy => h.own y (List.mem_cons_of_mem _ hy), htail⟩
    obtain ⟨y, hy, hb'⟩ := List.mem_flatMap.mp hahead
    exact hlater y hy b hb hb'
  · exact (hx b hb).2 (List.mem_flatMap.mpr ⟨y, hy, hahead⟩)

/-- Steps in order that jump ahead only to labels they go on at or were given. -/
structure Heads (given : List BlockId) (steps : List Step) : Prop extends Ordered steps where
  outward : ∀ b ∈ aheadOf steps, b ∈ placesOf steps ∨ b ∈ given

theorem not_mem_places {steps : List Step} (h : placesOf steps = []) {x : Step} {b : BlockId}
    (hx : x ∈ steps) : b ∉ x.places := by
  intro hb
  have hmem : b ∈ placesOf steps := List.mem_flatMap.mpr ⟨x, hx, hb⟩
  rw [h] at hmem
  cases hmem

theorem Ordered.of_placesOf_nil {steps : List Step} (h : placesOf steps = []) : Ordered steps :=
  ⟨fun _ hx _ hb => absurd hb (not_mem_places h hx),
    List.pairwise_of_forall_mem_list fun _ hx _ _ _ hb => absurd hb (not_mem_places h hx)⟩

theorem Heads.of_placesOf_nil {given : List BlockId} {steps : List Step}
    (hplaces : placesOf steps = []) (hahead : aheadOf steps ⊆ given) : Heads given steps :=
  ⟨.of_placesOf_nil hplaces, fun _ hb => .inr (hahead hb)⟩

theorem Closed.heads {given : List BlockId} {steps : List Step} (h : Closed steps) :
    Heads given steps := by
  refine .of_placesOf_nil h.places fun b hb => ?_
  have hmem := aheadOf_subset_usesOf steps hb
  rw [h.uses] at hmem
  cases hmem

/-- Steps that make no label and are given none. -/
theorem Regular.heads_of_none {n : Nat} {steps : List Step} (h : Regular n 0 [] [] steps) :
    Heads [] steps := by
  have hplaces : placesOf steps = [] := by
    refine List.eq_nil_iff_forall_not_mem.mpr fun b hb => ?_
    have hcount := h.count b
    rw [if_neg fun h => absurd h.2 (Nat.not_lt.mpr h.1), List.count_nil] at hcount
    exact absurd (List.count_pos_iff.mpr hb) (Nat.not_lt.mpr hcount)
  refine .of_placesOf_nil hplaces fun b hb => ?_
  rcases h.used b (aheadOf_subset_usesOf steps hb) with hb | hb
  · exact hplaces ▸ hb
  · exact hb

/-- Where all labels given lie ahead, it is enough to look at the order of the steps. -/
theorem Regular.heads {n k : Nat} {given used : List BlockId} {steps : List Step}
    (h : Regular n k given used steps)
    (horder : Ordered steps) : Heads used steps :=
  ⟨horder, fun b hb => h.used b (aheadOf_subset_usesOf steps hb)⟩

theorem Expr.heads (d : Draft) (n : Nat) (e : Expr) (dest : Dest)
    (hdest : ∀ b ∈ dest.targets, b < n) : Heads dest.targets (e.steps d n dest) := by
  have hfresh {k : Nat} : n + k ∉ dest.targets := fun h =>
    absurd (hdest _ h) (Nat.not_lt.mpr (Nat.le_add_right n k))
  refine (Expr.regular d n e dest).heads ?_
  fun_cases Expr.steps d n e dest
  case case1 | case2 | case4 => simp [Step.places, Step.ahead, Task.places]
  case case3 => split <;> simp [Step.places, Step.ahead, Task.places]
  case case5 => simp [Step.places, Step.ahead, Task.places, Task.ahead, Task.uses, hfresh]
  case case6 target sense =>
    have hne : n ≠ target := fun h => hfresh (k := 0) (by simp [Dest.targets, h])
    simp [Dest.testSteps, Step.places, Step.ahead, Task.places, Task.ahead, Task.uses, Dest.targets,
      hne]
  case case7 =>
    have hplaces : placesOf (e.valueSteps d ++ dest.testSteps) = [] := by
      rw [placesOf_append, (closed_valueSteps d e).places, placesOf_testSteps]
      rfl
    exact .of_placesOf_nil hplaces

theorem Stmt.heads (o : Options) (d : Draft) (frames : List Frame) (n : Nat) (s : Stmt) :
    Heads [] (s.steps o d frames n) := by
  have hnone := Stmt.regular o d [] n s
  cases s with
  | assert line test msg =>
    simp only [Stmt.steps]
    split
    · exact closed_nil.heads
    · cases msg <;> refine ⟨?_, ?_⟩
      all_goals simp [Step.places, Step.ahead, Task.places, Task.ahead, Task.uses, Dest.targets]
  | breakLoop =>
    simp only [Stmt.steps]
    split <;> exact .of_placesOf_nil rfl (List.Subset.refl _)
  | continueLoop =>
    simp only [Stmt.steps]
    split <;> exact .of_placesOf_nil rfl (List.Subset.refl _)
  | forLoop | whileLoop =>
    refine ⟨?_, ?_⟩
    all_goals
      simp [Stmt.steps, Step.places, Step.ahead, Task.places, Task.ahead, Task.uses, Dest.targets]
  | ifElse line test body orelse =>
    cases orelse <;> refine ⟨?_, ?_⟩
    all_goals
      simp [Stmt.steps, Step.places, Step.ahead, Task.places, Task.ahead, Task.uses, Dest.targets]
  | tryExcept line body handlers orelse finalbody =>
    cases finalbody with
    | nil => exact .of_placesOf_nil rfl (List.Subset.refl _)
    | cons s ss =>
      simp only [Stmt.steps]
      split <;> refine ⟨?_, ?_⟩
      all_goals simp [Step.places, Step.ahead, Task.places, Task.ahead]
  | ret line e =>
    cases e with
    | none => exact .of_placesOf_nil rfl (List.Subset.refl _)
    | some e =>
      simp only [Stmt.steps]
      split <;> exact .of_placesOf_nil rfl (List.Subset.refl _)
  | functionDef | classDef | delete | assign | augAssign | raise | importNames | importFrom
  | «global» | «nonlocal» | expr | pass =>
    exact Regular.heads_of_none (n := n) hnone

theorem Task.heads (o : Options) (d : Draft) (n : Nat) (t : Task) (huses : ∀ b ∈ t.uses, b < n)
    (hplaces : ∀ b ∈ t.places, b < n) (hown : ∀ b ∈ t.places, b ∉ t.ahead) :
    Heads t.ahead (t.steps o d n) := by
  have hreg := t.regular o d n
  have hflat (hplaces : placesOf (t.steps o d n) = []) (hahead : t.ahead = t.uses) :
      Heads t.ahead (t.steps o d n) := by
    refine .of_placesOf_nil hplaces fun b hb => ?_
    have hused := hreg.used b (aheadOf_subset_usesOf _ hb)
    rw [hplaces] at hused
    exact hahead ▸ hused.resolve_left List.not_mem_nil
  cases t with
  | expr e dest => exact e.heads d n dest huses
  | stmt frames s => exact s.heads o d frames n
  | all es | extendMap es | filters _ es | storeAll es =>
    rcases es with _ | ⟨_, _ | ⟨_, _⟩⟩ <;> exact hflat rfl rfl
  | operands _ _ es | tests _ _ _ _ es =>
    rcases es with _ | ⟨_, _ | ⟨_, _⟩⟩ <;> exact hflat rfl rfl
  | links _ _ _ ops es =>
    rcases ops with _ | ⟨_, _⟩ <;> rcases es with _ | ⟨_, _ | ⟨_, _⟩⟩ <;> exact hflat rfl rfl
  | inner _ _ gs => rcases gs with _ | ⟨⟨_, _, _⟩, _⟩ <;> exact hflat rfl rfl
  | map entries => exact (closed_mapSteps entries).heads
  | chain | block =>
    refine hreg.heads ?_
    simp [Task.steps, Step.places, Step.ahead, Task.places, Task.ahead, Task.uses, Dest.targets]
  | chainEnd cleanup dest =>
    have hcleanup : cleanup ∉ dest.targets := hown cleanup List.mem_cons_self
    cases dest with
    | push =>
      refine hreg.heads ?_
      simp [Task.steps, Dest.cleanupSteps, Step.places, Step.ahead]
    | jump target sense =>
      have hne : cleanup ≠ target := fun h => hcleanup (by simp [Dest.targets, h])
      refine hreg.heads ?_
      cases sense <;> simp [Task.steps, Dest.cleanupSteps, Step.places, Step.ahead, hne]
  | loop input target filters rest element depth =>
    refine hreg.heads ?_
    cases input <;> cases rest <;>
      simp [Task.steps, inputSteps, Step.places, Step.ahead, Task.places, Task.ahead, Task.uses,
        Dest.targets]
  | stmts frames ss => cases ss <;> exact .of_placesOf_nil rfl (List.Subset.refl _)
  | tryExcept frames body hs orelse =>
    refine ⟨?_, ?_⟩
    all_goals simp [Task.steps, Step.places, Step.ahead, Task.places, Task.ahead]
  | handlers frames done hs =>
    have hdone : done < n := huses done (by simp [Task.uses])
    rcases hs with _ | ⟨⟨type, name, body, line⟩, rest⟩
    · exact closed_nil.heads
    · cases type <;> refine ⟨?_, ?_⟩
      all_goals
        simp [Task.steps, Step.places, Step.ahead, Task.places, Task.ahead, Task.uses, Dest.targets,
          (Nat.ne_of_lt hdone).symm]
  | handler frames done name body =>
    have hdone : done < n := huses done (by simp [Task.uses])
    have hne : n + 1 ≠ done := fun h => absurd hdone (Nat.not_lt.mpr (h ▸ Nat.le_succ n))
    cases name <;> refine ⟨?_, ?_⟩
    all_goals
      simp [Task.steps, clearSteps, Step.places, Step.ahead, Task.places, Task.ahead, hne,
        (Nat.ne_of_lt hdone).symm]
  | unwind keep toLoop frames =>
    cases frames with
    | nil => exact closed_nil.heads
    | cons f outer =>
      have hleave := closed_leaveSteps d keep f
      have hahead : aheadOf (leaveSteps d keep f) = [] :=
        List.subset_nil.mp (hleave.uses ▸ aheadOf_subset_usesOf _)
      simp only [Task.steps]
      split
      · exact closed_nil.heads
      · refine .of_placesOf_nil ?_ ?_
        · cases f <;> simp [hleave.places, Step.places, Task.places]
        · cases f <;> simp [hahead, Step.ahead, Task.ahead]

def Item.ahead : Item → List BlockId
  | .jump op b => if op = .jumpAbsolute then [] else [b]
  | _ => []

namespace Script

/-- The labels of jumps that go forward. -/
def aheads (log : Script) : List BlockId := log.flatMap Item.ahead

/-- No jump that goes forward has its label before it. -/
def Forward (log : Script) : Prop := log.Pairwise fun x y => ∀ b, x = .label b → b ∉ y.ahead

@[simp] theorem aheads_append (log log' : Script) :
    aheads (log ++ log') = aheads log ++ aheads log' := List.flatMap_append

/-- A script that jumps ahead only to labels it comes to or that its steps were given. -/
structure Heading (steps : List Step) (log : Script) : Prop where
  forward : log.Forward
  outward : ∀ b ∈ log.aheads, b ∈ log.labels ∨ b ∈ aheadOf steps

theorem Heading.append {xs ys : List Step} {n k : Nat} {log log' : Script}
    (hx : Heading xs log) (hy : Heading ys log') (hlabelled : Labelled xs n log k)
    (hnodup : (log ++ log').labels.Nodup) (hbound : ∀ b ∈ aheadOf ys, b < n)
    (hlater : ∀ b ∈ placesOf xs, b ∉ aheadOf ys) : Heading (xs ++ ys) (log ++ log') := by
  refine ⟨List.pairwise_append.mpr ⟨hx.forward, hy.forward, ?_⟩, fun b hb => ?_⟩
  · rintro x hlabel y hy' b rfl hb
    have hmem : b ∈ log.labels := mem_labels.mpr hlabel
    rcases hy.outward b (List.mem_flatMap.mpr ⟨y, hy', hb⟩) with hlabel' | hahead
    · -- both parts would go on at the label
      rw [labels_append] at hnodup
      exact (List.nodup_append.mp hnodup).2.2 b hmem b hlabel' rfl
    · -- a label that was made before the first part is one it was given
      have hcount := hlabelled.count b
      have hpos := List.count_pos_iff.mpr hmem
      have hold := hbound b hahead
      rw [if_neg fun h => absurd hold (Nat.not_lt.mpr h.1)] at hcount
      exact hlater b (List.count_pos_iff.mp (Nat.lt_of_lt_of_le hpos hcount)) hahead
  · rw [labels_append, aheadOf_append, List.mem_append, List.mem_append]
    rw [aheads_append, List.mem_append] at hb
    rcases hb with hb | hb
    · exact (hx.outward b hb).imp .inl .inl
    · exact (hy.outward b hb).imp .inr .inr

end Script

theorem Step.Puts.heading {x : Step} {out : Script} (h : x.Puts out) : Script.Heading [x] out := by
  cases h with
  | load arg c => exact ⟨by simp [Script.Forward], by simp [Script.aheads, Item.ahead]⟩
  | emit | named | jump | label | intern =>
    exact ⟨List.pairwise_singleton _ _, fun b hb => .inr hb⟩

theorem Closed.ordered_append {xs steps : List Step} (h : Closed xs) (hsteps : Ordered steps) :
    Ordered (xs ++ steps) := by
  have hxs : Ordered xs := .of_placesOf_nil h.places
  refine ⟨fun x hx => ?_, List.pairwise_append.mpr ⟨hxs.later, hsteps.later, ?_⟩⟩
  · exact (List.mem_append.mp hx).elim (hxs.own x) (hsteps.own x)
  · exact fun x hx y _ b hb => absurd hb (not_mem_places h.places hx)

theorem Script.Heading.run {t : Task} {o : Options} {d : Draft} {n m : Nat} {log : Script}
    (h : Heading (t.steps o d n) log) (hheads : Heads t.ahead (t.steps o d n))
    (hlabelled : Labelled (t.steps o d n) (n + t.labelCount o) log m) :
    Heading [.run t] (List.replicate (t.labelCount o) .alloc ++ log) := by
  have hnone {x : Item} (hx : x ∈ List.replicate (t.labelCount o) Item.alloc) : x = .alloc :=
    (List.mem_replicate.mp hx).2
  refine ⟨List.pairwise_append.mpr ⟨?_, h.forward, ?_⟩, fun b hb => ?_⟩
  · exact List.pairwise_of_forall_mem_list fun x hx _ _ b hb => by cases (hnone hx).symm.trans hb
  · exact fun x hx _ _ b hb => by cases (hnone hx).symm.trans hb
  · rw [labels_append, labels_replicate_alloc, List.nil_append, aheadOf_cons, aheadOf_nil,
      List.append_nil]
    rw [aheads_append, List.mem_append] at hb
    rcases hb with hb | hb
    · obtain ⟨x, hx, hb⟩ := List.mem_flatMap.mp hb
      rw [hnone hx] at hb
      cases hb
    · rcases h.outward b hb with hb | hb
      · exact .inl hb
      · exact (hheads.outward b hb).imp_left (hlabelled.given b)

theorem Emits.heading {o : Options} {d : Draft} {steps : List Step} {n m : Nat} {log : Script}
    (h : Emits o d steps n log m) (hnodup : log.labels.Nodup)
    (hplaces : ∀ b ∈ placesOf steps, b < n) (huses : ∀ b ∈ usesOf steps, b < n)
    (hordered : Ordered steps) : Script.Heading steps log := by
  induction h with
  | nil => exact ⟨List.Pairwise.nil, by simp [Script.aheads]⟩
  | @put d x steps n m out log hx hrest ih =>
    obtain ⟨hplace, htail⟩ := ordered_cons.mp hordered
    have hlater : ∀ b ∈ placesOf [x], b ∉ aheadOf steps := by simpa using fun b hb => (hplace b hb).2
    have hplaces' (b : BlockId) (hb : b ∈ placesOf steps) : b < n := hplaces b (by simp [hb])
    have huses' (b : BlockId) (hb : b ∈ usesOf steps) : b < n := huses b (by simp [hb])
    have hlog : log.labels.Nodup := (Script.labels_append .. ▸ hnodup).of_append_right
    refine hx.heading.append (ih hlog hplaces' huses' htail) (hx.labelled n) hnodup
      (fun b hb => huses' b (aheadOf_subset_usesOf _ hb)) hlater
  | @closure d d' body name line serial parts qualname table code steps n m k inner log
      _ _ _ _ _ _ _ ih =>
    have hclosed := closed_closureSteps code parts (qualname.getD code.qualname)
    have hsame : placesOf (closureSteps code parts (qualname.getD code.qualname) ++ steps) =
        placesOf steps := by rw [placesOf_append, hclosed.places, List.nil_append]
    have hused : usesOf (closureSteps code parts (qualname.getD code.qualname) ++ steps) =
        usesOf steps := by rw [usesOf_append, hclosed.uses, List.nil_append]
    have hheading := ih hnodup (hsame ▸ hplaces) (hused ▸ huses)
      (hclosed.ordered_append (ordered_cons.mp hordered).2)
    refine ⟨hheading.forward, fun b hb => (hheading.outward b hb).imp_right fun hb => ?_⟩
    rw [aheadOf_append, List.mem_append] at hb
    exact hb.resolve_left fun hb => by
      have hmem := aheadOf_subset_usesOf _ hb
      rw [hclosed.uses] at hmem
      cases hmem
  | @run d t steps n k m log log' hsub _ hrest ihsub ih =>
    obtain ⟨hplace, htail⟩ := ordered_cons.mp hordered
    have hlater : ∀ b ∈ placesOf [.run t], b ∉ aheadOf steps := by
      simpa using fun b hb => (hplace b hb).2
    have hreg := t.regular o d n
    have ht (b : BlockId) (hb : b ∈ t.places) : b < n := hplaces b (by simp [Step.places, hb])
    have hu (b : BlockId) (hb : b ∈ t.uses) : b < n := huses b (by simp [Step.uses, hb])
    have hlt := hreg.lt ht
    have hheads := t.heads o d n hu ht fun b hb => (hplace b hb).1
    have hlogs : (log.labels ++ log'.labels).Nodup := by
      rw [Script.labels_append, Script.labels_append, labels_replicate_alloc] at hnodup
      exact hnodup
    have husub (b : BlockId) (hb : b ∈ usesOf (t.steps o d n)) : b < n + t.labelCount o :=
      (hreg.used b hb).elim (hlt b) fun hb => Nat.lt_add_right _ (hu b hb)
    have hk := hsub.labelled.run.size
    have hle {b : BlockId} (hb : b < n) : b < k := hk ▸ Nat.lt_add_right _ hb
    have hfirst := (ihsub hlogs.of_append_left hlt husub hheads.toOrdered).run hheads hsub.labelled
    have hsecond := ih hlogs.of_append_right (fun b hb => hle (hplaces b (by simp [hb])))
      (fun b hb => hle (huses b (by simp [hb]))) htail
    refine hfirst.append hsecond hsub.labelled.run hnodup (fun b hb => ?_) hlater
    exact huses b (by simp [aheadOf_subset_usesOf _ hb])

/-- In the script of a scope only `jumpAbsolute` goes back. -/
theorem Emits.forward {o : Options} {d : Draft} {steps : List Step} {log : Script} {n m : Nat}
    (h : Emits o d steps n log m) (hclosed : Closed steps) (hnodup : log.labels.Nodup) :
    log.Forward :=
  (h.heading hnodup (by simp [hclosed.places]) (by simp [hclosed.uses])
    (.of_placesOf_nil hclosed.places)).forward

end Wordcode

import Wordcode.Proofs.Visits

/-!
# Entering nested scopes

A build takes tables from the front of the list for one visit after the other, and what else is on
the list makes no difference to it. The rules for sequences of builds carry both from the parts of
an expression to the expression.
-/

set_option autoImplicit false

namespace Wordcode

open Build

/-- Visits from the draft `d` that take the tables in turn: every scope that is entered is built
with its table and finished, and the next serial number goes from `k` to the last one. -/
inductive Entered (o : Options) (d : Draft) :
    List Visit → List ScopeTable → UInt32 → UInt32 → Prop where
  | nil {k : UInt32} : Entered o d [] [] k k
  | enter {body : Body} {name : String} {line k l : UInt32} {t : ScopeTable} {addNone : Bool}
      {inner : Session} {code : CodeObject} {vs : List Visit} {ts : List ScopeTable} :
      t.kind = body.kind →
      body.build o ⟨d.child name t k line, k + 1⟩ = .ok addNone inner →
      inner.draft.finish addNone o.filename = .ok code →
      Entered o d vs ts inner.nextSerial l → Entered o d (.enter body name line :: vs) (t :: ts) k l
  | skip {t : ScopeTable} {vs : List Visit} {ts : List ScopeTable} {k l : UInt32} :
      Entered o d vs ts k l → Entered o d (.skip :: vs) (t :: ts) k l

theorem Draft.child_congr {d d' : Draft} (h : d'.header = d.header) (name : String)
    (t : ScopeTable) (serial line : UInt32) :
    d'.child name t serial line = d.child name t serial line := by
  change d'.header.child name t serial line = d.header.child name t serial line
  rw [h]

namespace Entered

variable {o : Options} {d d' : Draft} {vs ws : List Visit} {ts us : List ScopeTable}
  {k l m : UInt32}

theorem append (h : Entered o d vs ts k l) (h' : Entered o d ws us l m) :
    Entered o d (vs ++ ws) (ts ++ us) k m := by
  induction h with
  | nil => exact h'
  | enter hkind hrun hfinish _ ih => exact .enter hkind hrun hfinish (ih h')
  | skip _ ih => exact .skip (ih h')

theorem congr (h : Entered o d vs ts k l) (hd : d'.header = d.header) :
    Entered o d' vs ts k l := by
  induction h with
  | nil => exact .nil
  | enter hkind hrun hfinish _ ih => exact .enter hkind (Draft.child_congr hd .. ▸ hrun) hfinish ih
  | skip _ ih => exact .skip ih

end Entered

namespace Build

variable {α β : Type} {o : Options} {p q : Prop} {vs ws : List Visit}

/-- A build that takes no table and does not depend on those there are. -/
def Idle (b : Build α) : Prop :=
  ∀ s a s', b s = .ok a s' → s'.draft.header = s.draft.header ∧ s'.nextSerial = s.nextSerial ∧
    ∀ ts, b (s.withTables ts) = .ok a (s'.withTables ts)

/-- A build that takes tables for visits, and does the same if others follow those that it takes.
If `p` holds the visits are the ones given. -/
def Enters (o : Options) (p : Prop) (vs : List Visit) (b : Build α) : Prop :=
  ∀ s a s', b s = .ok a s' → ∃ made taken, (p → made = vs) ∧
    s.draft.children = taken ++ s'.draft.children ∧
    Entered o s.draft made taken s.nextSerial s'.nextSerial ∧ s'.draft.header = s.draft.header ∧
    ∀ rest, b (s.withTables (taken ++ rest)) = .ok a (s'.withTables rest)

theorem bind_ok {b : Build α} {f : α → Build β} {s s' : Session} {a : α} (h : b s = .ok a s') :
    (b >>= f) s = f a s' := by
  change EStateM.bind b f s = _
  rw [EStateM.bind, h]

theorem Idle.bind {b : Build α} {f : α → Build β} (h : Idle b) (h' : ∀ a, Idle (f a)) :
    Idle (b >>= f) := by
  intro s r s'' hrun
  obtain ⟨a, s', hb, hf⟩ := of_bind_ok hrun
  obtain ⟨hheader, hserial, htables⟩ := h s a s' hb
  obtain ⟨hheader', hserial', htables'⟩ := h' a s' r s'' hf
  exact ⟨hheader'.trans hheader, hserial'.trans hserial, fun ts =>
    (bind_ok (htables ts)).trans (htables' ts)⟩

theorem Local.idle {b : Build α} (h : Local b) : Idle b := by
  induction h with
  | pure a =>
    rintro s a' s' ⟨⟩
    exact ⟨rfl, rfl, fun _ => rfl⟩
  | fail f => rintro s a s' ⟨⟩
  | @onDraft _ f hheader htables =>
    rintro s a s' ⟨⟩
    refine ⟨hheader s.draft, rfl, fun ts => ?_⟩
    change EStateM.Result.ok (f { s.draft with children := ts }).1
      (Session.mk (f { s.draft with children := ts }).2 s.nextSerial) = _
    rw [htables]
    rfl
  | bind _ _ ih ih' => exact ih.bind ih'

/-- What stays in its scope enters no other. -/
theorem Enters.of {b : Build α} (h : Local b) : Enters o p [] b := by
  intro s a s' hrun
  obtain ⟨hheader, hserial, htables⟩ := h.idle s a s' hrun
  have hsame : s' = s'.withTables s.draft.children := by
    have hself := htables s.draft.children
    rw [Session.withTables_self, hrun] at hself
    injection hself
  refine ⟨[], [], fun _ => rfl, ?_, ?_, hheader, fun rest => htables rest⟩
  · rw [hsame]
    rfl
  · rw [hserial]
    exact .nil

theorem Enters.bind {b : Build α} {f : α → Build β} (h : Enters o p vs b)
    (h' : ∀ a, Enters o p ws (f a)) : Enters o p (vs ++ ws) (b >>= f) := by
  intro s r s'' hrun
  obtain ⟨a, s', hb, hf⟩ := of_bind_ok hrun
  obtain ⟨made, taken, hmade, hs, hentered, hheader, hframe⟩ := h s a s' hb
  obtain ⟨made', taken', hmade', hs', hentered', hheader', hframe'⟩ := h' a s' r s'' hf
  refine ⟨made ++ made', taken ++ taken', fun hp => by rw [hmade hp, hmade' hp], ?_,
    hentered.append (hentered'.congr hheader.symm), hheader'.trans hheader, fun rest => ?_⟩
  · rw [hs, hs', List.append_assoc]
  · rw [List.append_assoc, bind_ok (hframe _)]
    exact hframe' rest

theorem Enters.step {b : Build α} {f : α → Build β} (h : Local b)
    (h' : ∀ a, Enters o p vs (f a)) : Enters o p vs (b >>= f) :=
  (Enters.of h).bind h'

theorem Enters.after {b : Build α} {f : α → Build β} (h : Enters o p vs b)
    (h' : ∀ a, Local (f a)) : Enters o p vs (b >>= f) := by
  have hbind := h.bind fun a => Enters.of (h' a)
  rwa [List.append_nil] at hbind

theorem Enters.of_eq {b : Build α} (h : Enters o p vs b) (hvs : vs = ws) : Enters o p ws b := hvs ▸ h

theorem Enters.mono {b : Build α} (h : Enters o p vs b) (hq : q → p) (hvs : q → vs = ws) :
    Enters o q ws b := by
  intro s a s' hrun
  obtain ⟨made, taken, hmade, hrest⟩ := h s a s' hrun
  exact ⟨made, taken, fun hholds => (hmade (hq hholds)).trans (hvs hholds), hrest⟩

theorem enters_throw (e : CompileError) : Enters o p vs (throw e : Build α) := by
  rintro s a s' ⟨⟩

theorem enters_fail (f : Fault) : Enters o p vs (fail f : Build α) := enters_throw _

/-- What follows a check that has failed is not run. -/
theorem Enters.guard {c : Prop} [Decidable c] {e : CompileError} {f : α → Build β} {b : Build β}
    (h : ¬ c → Enters o p vs b) : Enters o p vs (if c then (throw e : Build α) >>= f else b) := by
  split
  · intro s a s' hrun
    cases hrun
  · next hc => exact h hc

theorem enters_skipChildren (n : Nat) :
    Enters o p (List.replicate n .skip) (skipChildren n) := by
  intro s a s' hrun
  obtain ⟨taken, hlength, hs⟩ := takes_skipChildren n s a s' hrun
  subst hlength
  rw [skipChildren_run hs] at hrun
  have hskipped := (EStateM.Result.ok.inj hrun).2
  refine ⟨_, taken, fun _ => rfl, hs, ?_, hskipped ▸ rfl, fun rest => ?_⟩
  · rw [← hskipped]
    clear hs hrun hskipped
    induction taken with
    | nil => exact .nil
    | cons t taken ih => exact .skip ih
  · rw [← hskipped]
    exact skipChildren_run rfl

theorem inScope_run {filename name : String} {kind : ScopeKind} {line : UInt32} {b : Build Bool}
    {s inner : Session} {t : ScopeTable} {rest : List ScopeTable} {addNone : Bool}
    {code : CodeObject} (hchildren : s.draft.children = t :: rest) (hkind : t.kind = kind)
    (hrun : b ⟨s.draft.child name t s.nextSerial line, s.nextSerial + 1⟩ = .ok addNone inner)
    (hfinish : inner.draft.finish addNone filename = .ok code) :
    inScope filename name kind line b s =
      .ok code ⟨(s.withTables rest).draft, inner.nextSerial⟩ := by
  have hnext : nextChild s = .ok t (s.withTables rest) := by
    rw [nextChild_run, hchildren]
    rfl
  unfold inScope
  rw [bind_ok hnext, if_neg (not_not.mpr hkind)]
  change (b >>= fun addNone => do
    let inner ← get
    set (Session.mk (s.withTables rest).draft inner.nextSerial)
    ofExcept (inner.draft.finish addNone filename))
      ⟨s.draft.child name t s.nextSerial line, s.nextSerial + 1⟩ = _
  rw [bind_ok hrun]
  change ofExcept (inner.draft.finish addNone filename) _ = _
  rw [hfinish]
  rfl

/-- A nested scope takes its own table; those of scopes inside it come from that table. -/
theorem enters_inScope (body : Body) (name : String) (line : UInt32) :
    Enters o p [.enter body name line] (inScope o.filename name body.kind line (body.build o)) := by
  intro s code s' hrun
  obtain ⟨t, s₁, addNone, inner, hnext, hkind, hbody, hfinish, rfl⟩ := of_inScope_ok hrun
  rw [nextChild_run] at hnext
  split at hnext
  · cases hnext
  · next t' rest hchildren =>
    cases hnext
    refine ⟨_, [t], fun _ => rfl, hchildren, .enter hkind hbody hfinish .nil, rfl, fun others => ?_⟩
    have hframe := inScope_run (s := s.withTables (t :: others)) rfl hkind hbody hfinish
    exact hframe

theorem Enters.atLine {b : Build Unit} (h : Enters o p vs b) (line : UInt32) :
    Enters o p vs (atLine line b) := by
  unfold Build.atLine
  refine .step (.ask fun _ _ => rfl) fun saved => ?_
  have hrest : Enters o p vs (do b; setLine saved) := h.after fun _ => .setLine saved
  split
  · exact .step (.setLine line) fun _ => hrest
  · exact hrest

theorem Enters.deliver {b : Build Unit} (h : Enters o p vs b) (line : UInt32) (dest : Dest) :
    Enters o p vs (deliver line dest b) :=
  (h.atLine line).after fun _ => .test dest

theorem Enters.inStatement {b : Build Unit} (h : Enters o p vs b) (line : UInt32) :
    Enters o p vs (inStatement line b) := by
  refine .step (.setLine line) fun _ s a s' hrun => ?_
  rw [tryCatch_run] at hrun
  split at hrun
  · next a' s₁ hb =>
    cases hrun
    obtain ⟨made, taken, hmade, hs, hentered, hheader, hframe⟩ := h s a s' hb
    refine ⟨made, taken, hmade, hs, hentered, hheader, fun rest => ?_⟩
    rw [tryCatch_run, hframe]
  · cases hrun

end Build

end Wordcode

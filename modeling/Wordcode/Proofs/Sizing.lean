import Mathlib.Data.List.Forall2
import Wordcode.Proofs.Encoding

/-!
# Settled jumps

Operands start at 0, so a first pass can only widen instructions; and wider instructions move every
block and every distance up, so the next pass can only widen them further. When the code no longer
grows every width is what it was, so the offsets by which the last operands were computed are the
offsets in the code that has these operands.
-/

set_option autoImplicit false

namespace Wordcode

theorem codeUnits_zero : codeUnits 0 = 1 := by decide

theorem codeUnits_mono {a b : UInt32} (h : a.toNat ≤ b.toNat) : codeUnits a ≤ codeUnits b := by
  simp only [codeUnits, UInt32.le_iff_toNat_le]
  repeat' split
  all_goals first | decide | omega

theorem codeSize_cons (p : Placed) (code : List Placed) :
    codeSize (p :: code) = bodySize p.body + codeSize code := rfl

theorem codeSize_append (code code' : List Placed) :
    codeSize (code ++ code') = codeSize code + codeSize code' := by
  induction code with
  | nil => simp [codeSize]
  | cons p rest ih =>
    rw [List.cons_append, codeSize_cons, codeSize_cons, ih]
    omega

theorem codeSize_take_succ {code : List Placed} {a : Nat} {p : Placed} (h : code[a]? = some p) :
    codeSize (code.take (a + 1)) = codeSize (code.take a) + bodySize p.body := by
  rw [List.take_add_one, h, Option.toList_some, codeSize_append, codeSize_cons]
  rfl

theorem codeSize_take_le (code : List Placed) {a b : Nat} (h : a ≤ b) :
    codeSize (code.take a) ≤ codeSize (code.take b) := by
  rw [← Nat.min_eq_left h, ← List.take_take]
  conv_rhs => rw [← List.take_append_drop a (code.take b), codeSize_append]
  exact Nat.le_add_right _ _

theorem forall₂_getElem? {α β : Type} {R : α → β → Prop} {as : List α} {bs : List β}
    (h : List.Forall₂ R as bs) {k : Nat} {a : α} (ha : as[k]? = some a) :
    ∃ b, bs[k]? = some b ∧ R a b := by
  induction h generalizing k with
  | nil => simp at ha
  | @cons x y xs ys hxy _ ih =>
    cases k with
    | zero => exact ⟨y, rfl, Option.some.inj ha ▸ hxy⟩
    | succ k => exact ih ha

theorem exists_of_forall₂_right {α β : Type} {R : α → β → Prop} {as : List α} {bs : List β}
    (h : List.Forall₂ R as bs) {b : β} (hb : b ∈ bs) : ∃ a ∈ as, R a b := by
  induction h with
  | nil => simp at hb
  | @cons x y xs ys hxy _ ih =>
    rcases List.mem_cons.mp hb with rfl | hb
    · exact ⟨x, List.mem_cons_self, hxy⟩
    · obtain ⟨a, ha, hab⟩ := ih hb
      exact ⟨a, List.mem_cons_of_mem x ha, hab⟩

namespace Sizing

/-- The same instruction, with another operand if it is a jump. -/
structure Rewritten (i j : Instruction) : Prop where
  opcode : j.opcode = i.opcode
  target : j.target = i.target
  line : j.line = i.line
  arg : i.target = none → j.arg = i.arg

/-- The same instruction, perhaps wider. -/
structure Widened (i j : Instruction) : Prop extends Rewritten i j where
  size_le : i.size ≤ j.size

/-- Block by block and instruction by instruction, related by `R`. -/
def Alike (R : Instruction → Instruction → Prop) (code code' : List Placed) : Prop :=
  List.Forall₂ (fun p q => p.id = q.id ∧ List.Forall₂ R p.body q.body) code code'

theorem Alike.imp {R S : Instruction → Instruction → Prop} (h : ∀ i j, R i j → S i j)
    {code code' : List Placed} (hc : Alike R code code') : Alike S code code' :=
  List.Forall₂.imp (fun _ _ hpq => ⟨hpq.1, hpq.2.imp h⟩) hc

theorem Alike.map_id {R : Instruction → Instruction → Prop} {code code' : List Placed}
    (h : Alike R code code') : code'.map Placed.id = code.map Placed.id := by
  induction h with
  | nil => rfl
  | cons hpq _ ih => rw [List.map_cons, List.map_cons, ih, hpq.1]

theorem Alike.id_lt {R : Instruction → Instruction → Prop} {code code' : List Placed} {n : Nat}
    (h : Alike R code code') (hlt : ∀ p ∈ code, p.id < n) : ∀ q ∈ code', q.id < n := by
  intro q hq
  have hmem : q.id ∈ code.map Placed.id := h.map_id ▸ List.mem_map_of_mem hq
  obtain ⟨p, hp, hid⟩ := List.mem_map.mp hmem
  exact hid ▸ hlt p hp

theorem Rewritten.trans {i j k : Instruction} (hij : Rewritten i j) (hjk : Rewritten j k) :
    Rewritten i k :=
  ⟨hjk.opcode.trans hij.opcode, hjk.target.trans hij.target, hjk.line.trans hij.line,
    fun h => (hjk.arg (hij.target.trans h)).trans (hij.arg h)⟩

theorem forall₂_comp {α β γ : Type} {R : α → β → Prop} {S : β → γ → Prop} {T : α → γ → Prop}
    (h : ∀ a b c, R a b → S b c → T a c) {as : List α} {bs : List β} {cs : List γ}
    (hab : List.Forall₂ R as bs) (hbc : List.Forall₂ S bs cs) : List.Forall₂ T as cs := by
  induction hab generalizing cs with
  | nil =>
    cases hbc
    exact .nil
  | cons hxy _ ih =>
    obtain ⟨z, zs, hyz, hzs, rfl⟩ := List.forall₂_cons_left_iff.mp hbc
    exact .cons (h _ _ _ hxy hyz) (ih hzs)

theorem Alike.comp {R S T : Instruction → Instruction → Prop}
    (h : ∀ i j k, R i j → S j k → T i k) {code code' code'' : List Placed}
    (hc : Alike R code code') (hc' : Alike S code' code'') : Alike T code code'' :=
  forall₂_comp (fun _ _ _ hpq hqr => ⟨hpq.1.trans hqr.1, forall₂_comp h hpq.2 hqr.2⟩) hc hc'

theorem Alike.trans {code code' code'' : List Placed} (h : Alike Rewritten code code')
    (h' : Alike Rewritten code' code'') : Alike Rewritten code code'' :=
  Alike.comp (R := Rewritten) (S := Rewritten) (T := Rewritten)
    (fun _ _ _ hij hjk => hij.trans hjk) h h'

theorem Widened.trans {i j k : Instruction} (hij : Widened i j) (hjk : Widened j k) :
    Widened i k :=
  ⟨hij.toRewritten.trans hjk.toRewritten, Nat.le_trans hij.size_le hjk.size_le⟩

theorem bodySize_mono {body body' : List Instruction} (h : List.Forall₂ Widened body body') :
    bodySize body ≤ bodySize body' := by
  induction h with
  | nil => exact Nat.le_refl _
  | cons hij _ ih => exact Nat.add_le_add hij.size_le ih

theorem codeSize_mono {code code' : List Placed} (h : Alike Widened code code') :
    codeSize code ≤ codeSize code' := by
  induction h with
  | nil => exact Nat.le_refl _
  | cons hpq _ ih => exact Nat.add_le_add (bodySize_mono hpq.2) ih

theorem getD_foldl_assign {code : List Placed} {b : BlockId} (hb : b ∉ code.map Placed.id)
    (total : Nat) (offs : Offsets) :
    (code.foldl assign (total, offs)).2.getD b none = offs.getD b none := by
  induction code generalizing total offs with
  | nil => rfl
  | cons p rest ih =>
    rw [List.map_cons, List.mem_cons, not_or] at hb
    rw [List.foldl_cons, assign, ih hb.2, Array.getD_eq_getD_getElem?, Array.getD_eq_getD_getElem?,
      Array.getElem?_setIfInBounds, if_neg (Ne.symm hb.1)]

theorem getD_foldl_assign_getElem? {code : List Placed} {offs : Offsets}
    (hnodup : (code.map Placed.id).Nodup) (hlt : ∀ p ∈ code, p.id < offs.size) {a : Nat}
    {p : Placed} (hp : code[a]? = some p) (total : Nat) :
    (code.foldl assign (total, offs)).2.getD p.id none =
      some (total + codeSize (code.take a)) := by
  induction code generalizing total offs a with
  | nil => simp at hp
  | cons q rest ih =>
    rw [List.map_cons, List.nodup_cons] at hnodup
    rw [List.foldl_cons, assign]
    cases a with
    | zero =>
      obtain rfl : q = p := by simpa using hp
      rw [getD_foldl_assign hnodup.1, Array.getD_eq_getD_getElem?, Array.getElem?_setIfInBounds,
        if_pos rfl, if_pos (hlt q List.mem_cons_self)]
      simp [codeSize]
    | succ a =>
      rw [ih hnodup.2 (fun r hr => by simpa using hlt r (List.mem_cons_of_mem q hr)) hp,
        List.take_succ_cons, codeSize_cons, Nat.add_assoc]

/-- A block that has a place starts behind the blocks placed before it. -/
theorem getD_offsets {blockCount : Nat} {code : List Placed} (hnodup : (code.map Placed.id).Nodup)
    (hlt : ∀ p ∈ code, p.id < blockCount) {a : Nat} {p : Placed} (hp : code[a]? = some p) :
    (offsets blockCount code).getD p.id none = some (codeSize (code.take a)) := by
  rw [offsets, getD_foldl_assign_getElem? hnodup (by simpa using hlt) hp, Nat.zero_add]

/-- Only such a block has an offset. -/
theorem exists_of_getD_offsets {blockCount : Nat} {code : List Placed} {b : BlockId} {off : Nat}
    (h : (offsets blockCount code).getD b none = some off) :
    ∃ (a : Nat) (p : Placed), code[a]? = some p ∧ p.id = b := by
  by_cases hb : b ∈ code.map Placed.id
  · obtain ⟨p, hp, rfl⟩ := List.mem_map.mp hb
    obtain ⟨a, ha⟩ := List.getElem?_of_mem hp
    exact ⟨a, p, ha, rfl⟩
  · rw [offsets, getD_foldl_assign hb, Array.getD_eq_getD_getElem?] at h
    simp only [Array.getElem?_replicate] at h
    split at h <;> cases h

/-- Offsets depend on the widths alone. -/
theorem offsets_congr {blockCount : Nat} {code code' : List Placed}
    (h : List.Forall₂ (fun p q => p.id = q.id ∧ bodySize p.body = bodySize q.body) code code') :
    offsets blockCount code = offsets blockCount code' := by
  unfold offsets
  generalize (0, Array.replicate blockCount (none : Option Nat)) = start
  induction h generalizing start with
  | nil => rfl
  | cons hpq _ ih =>
    rw [List.foldl_cons, List.foldl_cons, ih, assign, assign, hpq.1, hpq.2]

/-- The operand is the target's offset, or leads there from where the jump ends. -/
theorem operand_eq_ok {offs : Offsets} {i : Instruction} {stop : Nat} {t : BlockId} {arg : UInt32} :
    operand offs i stop t = .ok arg ↔ ∃ off, offs.getD t none = some off ∧
      if i.opcode.isRelativeJump then stop + arg.toNat = off else arg.toNat = off := by
  unfold operand
  cases offs.getD t none with
  | none => simp
  | some off =>
    cases i.opcode.isRelativeJump with
    | false => simp [wordOf_eq_ok]
    | true =>
      simp only [Bool.not_true, Bool.false_eq_true, if_false, if_true, Option.some.injEq,
        exists_eq_left']
      split
      · rw [wordOf_eq_ok]
        omega
      · next hback =>
        simp only [reduceCtorEq, false_iff]
        omega

theorem resolve_of_operand {offs : Offsets} {i : Instruction} {stop : Nat} {t : BlockId}
    {arg : UInt32} (ht : i.target = some t) (hop : operand offs i stop t = .ok arg) :
    resolve offs i stop = .ok { i with arg := arg } := by
  simp only [resolve, ht, hop, Except.map]

theorem resolve_eq_ok {offs : Offsets} {i j : Instruction} {stop : Nat}
    (h : resolve offs i stop = .ok j) : (i.target = none ∧ j = i) ∨
      ∃ t arg, i.target = some t ∧ operand offs i stop t = .ok arg ∧ j = { i with arg := arg } := by
  unfold resolve at h
  split at h
  · next hnone =>
    cases h
    exact Or.inl ⟨hnone, rfl⟩
  · next t ht =>
    cases hop : operand offs i stop t with
    | error e => simp [hop, Except.map] at h
    | ok arg =>
      rw [hop] at h
      cases h
      exact Or.inr ⟨t, arg, ht, hop, rfl⟩

theorem rewritten_of_resolve {offs : Offsets} {i j : Instruction} {stop : Nat}
    (h : resolve offs i stop = .ok j) : Rewritten i j := by
  rcases resolve_eq_ok h with ⟨_, rfl⟩ | ⟨t, arg, ht, _, rfl⟩
  · exact ⟨rfl, rfl, rfl, fun _ => rfl⟩
  · exact ⟨rfl, rfl, rfl, fun hnone => by simp [ht] at hnone⟩

/-- Resolving a resolved instruction of the same width changes nothing. -/
theorem resolve_again {offs : Offsets} {i j : Instruction} {stop : Nat}
    (h : resolve offs i stop = .ok j) : resolve offs j stop = .ok j := by
  rcases resolve_eq_ok h with ⟨_, rfl⟩ | ⟨t, arg, ht, hop, rfl⟩
  · exact h
  · have hsame := operand_eq_ok.mp hop
    exact resolve_of_operand ht (operand_eq_ok.mpr hsame)

/-- The instructions of a body that starts at `pos`, each resolved where it ends. -/
inductive ResolvedBody (offs : Offsets) : Nat → List Instruction → List Instruction → Prop where
  | nil {pos : Nat} : ResolvedBody offs pos [] []
  | cons {pos : Nat} {i j : Instruction} {body body' : List Instruction} :
      resolve offs i (pos + i.size) = .ok j → ResolvedBody offs (pos + i.size) body body' →
      ResolvedBody offs pos (i :: body) (j :: body')

/-- The place of a block in a table of offsets, if it has one. -/
def startOf (offs : Offsets) (b : BlockId) : Nat := (offs.getD b none).getD 0

def ResolvedCode (offs : Offsets) (code code' : List Placed) : Prop :=
  List.Forall₂ (fun p q => p.id = q.id ∧ ResolvedBody offs (startOf offs p.id) p.body q.body)
    code code'

theorem resolvedBody_of_ok {offs : Offsets} {out : Array Instruction} {pos : Nat}
    {body result : List Instruction} (h : resolveBody offs out pos body = .ok result) :
    ∃ body', result = out.toList ++ body' ∧ ResolvedBody offs pos body body' := by
  induction body generalizing out pos with
  | nil =>
    cases h
    exact ⟨[], by simp, .nil⟩
  | cons i rest ih =>
    unfold resolveBody at h
    split at h
    · cases h
    · next j hj =>
      obtain ⟨body', hresult, hbody⟩ := ih h
      exact ⟨j :: body', by simpa using hresult, .cons hj hbody⟩

theorem resolvedCode_of_ok {offs : Offsets} {out : Array Placed} {code result : List Placed}
    (h : resolveCode offs out code = .ok result) :
    ∃ code', result = out.toList ++ code' ∧ ResolvedCode offs code code' := by
  induction code generalizing out with
  | nil =>
    cases h
    exact ⟨[], by simp, .nil⟩
  | cons p rest ih =>
    unfold resolveCode at h
    split at h
    · cases h
    · next body hbody =>
      obtain ⟨code', hresult, hcode⟩ := ih h
      obtain ⟨body', hbody', hresolved⟩ := resolvedBody_of_ok hbody
      obtain rfl : body = body' := by simpa using hbody'
      exact ⟨⟨p.id, body⟩ :: code', by simpa using hresult, .cons ⟨rfl, hresolved⟩ hcode⟩

theorem resolvedCode_of_pass {blockCount : Nat} {code code' : List Placed}
    (h : pass blockCount code = .ok code') : ResolvedCode (offsets blockCount code) code code' := by
  obtain ⟨_, rfl, hcode⟩ := resolvedCode_of_ok (pass_eq_ok.mp h).2
  exact hcode

theorem ResolvedBody.rewritten {offs : Offsets} {pos : Nat} {body body' : List Instruction}
    (h : ResolvedBody offs pos body body') : List.Forall₂ Rewritten body body' := by
  induction h with
  | nil => exact .nil
  | cons hj _ ih => exact .cons (rewritten_of_resolve hj) ih

theorem ResolvedCode.rewritten {offs : Offsets} {code code' : List Placed}
    (h : ResolvedCode offs code code') : Alike Rewritten code code' :=
  List.Forall₂.imp (fun _ _ hpq => ⟨hpq.1, hpq.2.rewritten⟩) h

section Growth
variable {blockCount : Nat} {code wide : List Placed}

/-- How the offset of a block moves when the code before it grows, seen from the block at `a`: it
goes up, and so does its distance from the end of that block if it stands behind it. -/
theorem offset_mono (hgrown : Alike Widened code wide) (hnodup : (code.map Placed.id).Nodup)
    (hlt : ∀ p ∈ code, p.id < blockCount) {a : Nat} {p q : Placed} (hp : code[a]? = some p)
    (hq : wide[a]? = some q) {t : BlockId} {off off' : Nat}
    (hoff : (offsets blockCount code).getD t none = some off)
    (hoff' : (offsets blockCount wide).getD t none = some off') :
    off ≤ off' ∧ (off ≤ codeSize (code.take a) ∨
      ∃ far far', far ≤ far' ∧ off = codeSize (code.take a) + bodySize p.body + far ∧
        off' = codeSize (wide.take a) + bodySize q.body + far') := by
  have hids : wide.map Placed.id = code.map Placed.id := hgrown.map_id
  have hlt' := hgrown.id_lt hlt
  obtain ⟨b, r, hr, rfl⟩ := exists_of_getD_offsets hoff
  obtain ⟨r', hr', hid, _⟩ := forall₂_getElem? hgrown hr
  have hstart := getD_offsets hnodup hlt hr
  have hstart' := getD_offsets (hids ▸ hnodup) hlt' hr'
  rw [hoff] at hstart
  rw [hid, hstart'] at hoff'
  cases hstart
  cases hoff'
  have htake (k : Nat) : Alike Widened (code.take k) (wide.take k) := List.forall₂_take k hgrown
  refine ⟨codeSize_mono (htake b), ?_⟩
  rcases Nat.lt_or_ge a b with hab | hab
  · refine Or.inr ⟨codeSize ((code.take b).drop (a + 1)), codeSize ((wide.take b).drop (a + 1)),
      codeSize_mono (List.forall₂_drop (a + 1) (htake b)), ?_, ?_⟩
    · conv_lhs => rw [← List.take_append_drop (a + 1) (code.take b), codeSize_append,
        List.take_take, Nat.min_eq_left hab, codeSize_take_succ hp]
    · conv_lhs => rw [← List.take_append_drop (a + 1) (wide.take b), codeSize_append,
        List.take_take, Nat.min_eq_left hab, codeSize_take_succ hq]
  · exact Or.inl (codeSize_take_le code hab)

theorem size_mono {a b : UInt32} (h : a.toNat ≤ b.toNat) (i j : Instruction) :
    ({ i with arg := a } : Instruction).size ≤ ({ j with arg := b } : Instruction).size :=
  Nat.mul_le_mul_left 2 (codeUnits_mono h)

/-- The pass over a body, in narrow and in wide code: from `lo` and `lo'` the body at hand ends at
`stop` and `stop'`. -/
theorem widened_of_resolvedBody {offs offs' : Offsets} {first stop stop' : Nat}
    (hmono : ∀ t off off', offs.getD t none = some off → offs'.getD t none = some off' →
      off ≤ off' ∧ (off ≤ first ∨
        ∃ far far', far ≤ far' ∧ off = stop + far ∧ off' = stop' + far'))
    {body body' result result' : List Instruction} {lo lo' : Nat} (hfirst : first ≤ lo)
    (hgrown : List.Forall₂ Widened body body') (hstop : lo + bodySize body = stop)
    (hstop' : lo' + bodySize body' = stop') (h : ResolvedBody offs lo body result)
    (h' : ResolvedBody offs' lo' body' result') : List.Forall₂ Widened result result' := by
  induction hgrown generalizing lo lo' result result' with
  | nil =>
    cases h
    cases h'
    exact .nil
  | @cons i i' rest rest' hi hrest ih =>
    have hrestSize := bodySize_mono hrest
    cases h with | @cons _ _ j _ js hj hjs =>
    cases h' with | @cons _ _ j' _ js' hj' hjs' =>
    rw [bodySize_cons, ← Nat.add_assoc] at hstop hstop'
    refine .cons ?_ (ih (by omega) hstop hstop' hjs hjs')
    have hrewritten : Rewritten j j' := by
      have hr := rewritten_of_resolve hj
      have hr' := rewritten_of_resolve hj'
      refine ⟨?_, ?_, ?_, fun hnone => ?_⟩
      · rw [hr'.opcode, hi.opcode, hr.opcode]
      · rw [hr'.target, hi.target, hr.target]
      · rw [hr'.line, hi.line, hr.line]
      · have hnone' : i.target = none := hr.target ▸ hnone
        rw [hr'.arg (hi.target.trans hnone'), hi.arg hnone', hr.arg hnone']
    refine ⟨hrewritten, ?_⟩
    rcases resolve_eq_ok hj with ⟨hnone, rfl⟩ | ⟨t, arg, ht, hop, rfl⟩
    · rcases resolve_eq_ok hj' with ⟨_, rfl⟩ | ⟨t', _, ht', _, _⟩
      · exact hi.size_le
      · rw [hi.target, hnone] at ht'
        cases ht'
    · rcases resolve_eq_ok hj' with ⟨hnone, _⟩ | ⟨t', arg', ht', hop', rfl⟩
      · rw [hi.target, ht] at hnone
        cases hnone
      · obtain rfl : t' = t := by
          rw [hi.target, ht] at ht'
          exact (Option.some.inj ht').symm
        apply size_mono
        have hsize : 0 < i.size := Nat.mul_pos (by omega) (codeUnits_pos i.arg)
        obtain ⟨off, hoff, hcase⟩ := operand_eq_ok.mp hop
        obtain ⟨off', hoff', hcase'⟩ := operand_eq_ok.mp hop'
        obtain ⟨hle, hfar⟩ := hmono _ _ _ hoff hoff'
        rw [hi.opcode] at hcase'
        cases hrel : i.opcode.isRelativeJump with
        | false =>
          simp only [hrel, Bool.false_eq_true, if_false] at hcase hcase'
          omega
        | true =>
          simp only [hrel, if_true] at hcase hcase'
          rcases hfar with hback | ⟨far, far', hfar, rfl, rfl⟩ <;> omega

/-- Where the code is wider, the operands for its own offsets are wider too. -/
theorem Widened.resolved {code' wide' : List Placed} (hgrown : Alike Widened code wide)
    (hnodup : (code.map Placed.id).Nodup) (hlt : ∀ p ∈ code, p.id < blockCount)
    (hcode : ResolvedCode (offsets blockCount code) code code')
    (hwide : ResolvedCode (offsets blockCount wide) wide wide') : Alike Widened code' wide' := by
  have hids : wide.map Placed.id = code.map Placed.id := hgrown.map_id
  have hlen : code'.length = wide'.length := by
    rw [← hcode.length_eq, ← hwide.length_eq, hgrown.length_eq]
  apply List.forall₂_of_length_eq_of_get hlen
  intro a ha ha'
  have hlt' := hgrown.id_lt hlt
  obtain ⟨p, hp⟩ : ∃ p, code[a]? = some p :=
    ⟨_, List.getElem?_eq_getElem (hcode.length_eq ▸ ha)⟩
  obtain ⟨q, hq, hid, hbody⟩ := forall₂_getElem? hgrown hp
  obtain ⟨p', hp', hidp, hres⟩ := forall₂_getElem? hcode hp
  obtain ⟨q', hq', hidq, hres'⟩ := forall₂_getElem? hwide hq
  obtain rfl : code'.get ⟨a, ha⟩ = p' := by
    rw [List.getElem?_eq_getElem ha] at hp'
    exact Option.some.inj hp'
  obtain rfl : wide'.get ⟨a, ha'⟩ = q' := by
    rw [List.getElem?_eq_getElem ha'] at hq'
    exact Option.some.inj hq'
  rw [startOf, getD_offsets hnodup hlt hp, Option.getD_some] at hres
  rw [startOf, getD_offsets (hids ▸ hnodup) hlt' hq, Option.getD_some] at hres'
  exact ⟨hidp ▸ hidq ▸ hid, widened_of_resolvedBody
    (fun t off off' hoff hoff' => offset_mono hgrown hnodup hlt hp hq hoff hoff')
    (Nat.le_refl _) hbody rfl rfl hres hres'⟩

/-- Code that is wider to begin with is wider after a pass. -/
theorem Widened.pass {code' wide' : List Placed} (hgrown : Alike Widened code wide)
    (hnodup : (code.map Placed.id).Nodup) (hlt : ∀ p ∈ code, p.id < blockCount)
    (h : pass blockCount code = .ok code') (h' : Sizing.pass blockCount wide = .ok wide') :
    Alike Widened code' wide' :=
  Widened.resolved hgrown hnodup hlt (resolvedCode_of_pass h) (resolvedCode_of_pass h')

/-- A pass over this code makes nothing narrower. -/
def Rising (blockCount : Nat) (code : List Placed) : Prop :=
  ∀ code', pass blockCount code = .ok code' → Alike Widened code code'

theorem Rising.pass {code' : List Placed} (h : Rising blockCount code)
    (hnodup : (code.map Placed.id).Nodup) (hlt : ∀ p ∈ code, p.id < blockCount)
    (hpass : Sizing.pass blockCount code = .ok code') : Rising blockCount code' :=
  fun _ hpass' => Widened.pass (h _ hpass) hnodup hlt hpass hpass'

/-- Jumps whose operands are 0 are as narrow as can be. -/
theorem rising_of_args_zero
    (h : ∀ p ∈ code, ∀ i ∈ p.body, i.target.isSome = true → i.arg = 0) :
    Rising blockCount code := by
  have hbody {offs : Offsets} {pos : Nat} {body body' : List Instruction}
      (hzero : ∀ i ∈ body, i.target.isSome = true → i.arg = 0)
      (hres : ResolvedBody offs pos body body') : List.Forall₂ Widened body body' := by
    induction hres with
    | nil => exact .nil
    | @cons pos i j body body' hj _ ih =>
      refine .cons ⟨rewritten_of_resolve hj, ?_⟩
        (ih fun k hk => hzero k (List.mem_cons_of_mem i hk))
      rcases resolve_eq_ok hj with ⟨_, rfl⟩ | ⟨t, arg, ht, _, rfl⟩
      · exact Nat.le_refl _
      · have hi := hzero i List.mem_cons_self (by simp [ht])
        have := codeUnits_pos arg
        simp only [Instruction.size, hi, codeUnits_zero]
        omega
  intro code' hpass
  have hcode := resolvedCode_of_pass hpass
  generalize offsets blockCount code = offs at hcode
  clear hpass
  induction hcode with
  | nil => exact .nil
  | @cons p q ps qs hpq _ ih =>
    exact .cons ⟨hpq.1, hbody (h p List.mem_cons_self) hpq.2⟩
      (ih fun r hr => h r (List.mem_cons_of_mem p hr))

/-- The same instruction in the same width. -/
structure Kept (i j : Instruction) : Prop extends Rewritten i j where
  size_eq : i.size = j.size

theorem kept_of_bodySize {body body' : List Instruction} (h : List.Forall₂ Widened body body')
    (hle : bodySize body' ≤ bodySize body) : List.Forall₂ Kept body body' := by
  induction h with
  | nil => exact .nil
  | cons hij hrest ih =>
    have hmono := bodySize_mono hrest
    have hsize := hij.size_le
    rw [bodySize_cons, bodySize_cons] at hle
    exact .cons ⟨hij.toRewritten, by omega⟩ (ih (by omega))

theorem kept_of_codeSize (h : Alike Widened code wide) (hle : codeSize wide ≤ codeSize code) :
    Alike Kept code wide := by
  induction h with
  | nil => exact .nil
  | cons hpq hrest ih =>
    have hmono := codeSize_mono hrest
    have hbody := bodySize_mono hpq.2
    rw [codeSize_cons, codeSize_cons] at hle
    exact .cons ⟨hpq.1, kept_of_bodySize hpq.2 (by omega)⟩ (ih (by omega))

theorem bodySize_eq_of_kept {body body' : List Instruction} (h : List.Forall₂ Kept body body') :
    bodySize body = bodySize body' := by
  induction h with
  | nil => rfl
  | cons hij _ ih => rw [bodySize_cons, bodySize_cons, ih, hij.size_eq]

theorem resolvedBody_again {offs : Offsets} {pos : Nat} {body body' : List Instruction}
    (h : ResolvedBody offs pos body body') (hkept : List.Forall₂ Kept body body') :
    ResolvedBody offs pos body' body' := by
  induction h with
  | nil => exact .nil
  | cons hj _ ih =>
    obtain ⟨hij, hrest⟩ := List.forall₂_cons.mp hkept
    rw [hij.size_eq] at hj ih
    exact .cons (resolve_again hj) (ih hrest)

theorem resolvedCode_again {offs : Offsets} {code' : List Placed}
    (h : ResolvedCode offs code code') (hkept : Alike Kept code code') :
    ResolvedCode offs code' code' := by
  induction h with
  | nil => exact .nil
  | cons hpq _ ih =>
    obtain ⟨hkept', hrest⟩ := List.forall₂_cons.mp hkept
    exact .cons ⟨rfl, hpq.1 ▸ resolvedBody_again hpq.2 hkept'.2⟩ (ih hrest)

/-- The size of settled code is a word. -/
theorem codeSize_lt_of_settle {offs : Offsets} {code' : List Placed}
    (h : settle blockCount code = .ok (offs, code')) : codeSize code' < UInt32.size := by
  fun_induction settle blockCount code with
  | case1 code e he => cases h
  | case2 code next hpass hgrow ih => exact ih h
  | case3 code next hpass hgrow =>
    cases h
    exact Nat.lt_of_le_of_lt (Nat.le_of_not_lt hgrow) (pass_eq_ok.mp hpass).1

/-- Settled code: the operands are right for the offsets, and the offsets are those of this very
code. -/
structure Settled (blockCount : Nat) (code : List Placed) (offs : Offsets)
    (code' : List Placed) : Prop where
  rewritten : Alike Rewritten code code'
  offsets_eq : offs = offsets blockCount code'
  resolved : ResolvedCode offs code' code'

theorem settled_of_settle {offs : Offsets} {code' : List Placed} (hrising : Rising blockCount code)
    (hnodup : (code.map Placed.id).Nodup) (hlt : ∀ p ∈ code, p.id < blockCount)
    (h : settle blockCount code = .ok (offs, code')) : Settled blockCount code offs code' := by
  fun_induction settle blockCount code with
  | case1 code e he => cases h
  | case2 code next hpass hgrow ih =>
    have hwide := hrising next hpass
    have hids := hwide.map_id
    have hrest := ih (hrising.pass hnodup hlt hpass) (hids ▸ hnodup) (hwide.id_lt hlt) h
    exact ⟨(hwide.imp fun _ _ hij => hij.toRewritten).trans hrest.rewritten, hrest.offsets_eq,
      hrest.resolved⟩
  | case3 code next hpass hgrow =>
    cases h
    have hkept := kept_of_codeSize (hrising _ hpass) (Nat.le_of_not_lt hgrow)
    refine ⟨hkept.imp fun _ _ hij => hij.toRewritten, ?_, ?_⟩
    · exact offsets_congr (List.Forall₂.imp (fun _ _ hpq =>
        ⟨hpq.1, bodySize_eq_of_kept hpq.2⟩) hkept)
    · exact resolvedCode_again (resolvedCode_of_pass hpass) hkept

end Growth
end Sizing
end Wordcode

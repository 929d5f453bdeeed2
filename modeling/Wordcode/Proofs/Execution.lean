import Wordcode.Proofs.Discipline
import Wordcode.Proofs.Machine
import Wordcode.Proofs.Passage

/-!
# Running wordcode

Wordcode that goes through the script of a plot is run by the same machine as the plot. Each move of
the plot is none or one of the wordcode, so what the plot comes to the wordcode comes to, and its
moves are determined.
-/

set_option autoImplicit false

namespace Wordcode

namespace Script

variable {log pt pt' : Script} {code : List Decoded} {pos : Nat → Nat} {j : Nat} {blockCount : Nat}

/-- Control that is where a rest of the script begins comes to instruction `j` of the wordcode. -/
def At (log : Script) (code : List Decoded) (pos : Nat → Nat) (pt : Script) (j : Nat) : Prop :=
  j < code.length ∧ log.Next (log.length - pt.length) (pos j)

theorem Next.of_silent {m k : Nat} {x : Item} (h : log.Next m k) (hm : log[m]? = some x)
    (hx : x.instruction? = none) : log.Next (m + 1) k := by
  cases h with
  | here hy hi =>
    rw [hm] at hy
    cases hy
    rw [hx] at hi
    cases hi
  | skip _ _ h => exact h

theorem Next.eq_of_instruction {m k : Nat} {x : Item} {i : Instruction} (h : log.Next m k)
    (hm : log[m]? = some x) (hx : x.instruction? = some i) : k = m :=
  (h.unique (.here hm hx))

theorem Next.le {m k : Nat} (h : log.Next m k) : m ≤ k := by
  induction h with
  | here => exact Nat.le_refl _
  | skip _ _ _ ih => exact Nat.le_of_succ_le ih

/-- Control does not go past an instruction. -/
theorem Next.le_of_instruction {m k l : Nat} (h : log.Next m k) {x : Item} (hx : log[l]? = some x)
    (hi : x.instruction? ≠ none) (hml : m ≤ l) : k ≤ l := by
  induction h with
  | here => exact hml
  | @skip m _ y hm hy _ ih =>
    refine ih (Nat.lt_of_le_of_ne hml ?_)
    rintro rfl
    rw [hm] at hx
    cases hx
    exact hi hy

theorem getElem?_of_suffix {x : Item} (h : x :: pt <:+ log) :
    log[log.length - (x :: pt).length]? = some x := by
  obtain ⟨pre, rfl⟩ := h
  simp

theorem succ_of_suffix {x : Item} (h : x :: pt <:+ log) :
    log.length - (x :: pt).length + 1 = log.length - pt.length := by
  have := h.length_le
  rw [List.length_cons] at this ⊢
  omega

theorem Renders.at_start (h : log.Renders code pos) : log.At code pos log 0 := by
  refine ⟨h.start.1, ?_⟩
  rw [Nat.sub_self]
  exact h.start.2

theorem Renders.at_unique (h : log.Renders code pos) {j' : Nat} (hj : log.At code pos pt j)
    (hj' : log.At code pos pt j') : j = j' :=
  h.injective j j' hj.1 hj'.1 (hj.2.unique hj'.2)

theorem At.skip {x : Item} (h : log.At code pos (x :: pt) j) (hpt : x :: pt <:+ log)
    (hx : x.instruction? = none) : log.At code pos pt j := by
  refine ⟨h.1, ?_⟩
  rw [← succ_of_suffix hpt]
  exact h.2.of_silent (getElem?_of_suffix hpt) hx

theorem At.pos_eq {x : Item} {i : Instruction} (h : log.At code pos (x :: pt) j)
    (hpt : x :: pt <:+ log) (hx : x.instruction? = some i) :
    pos j = log.length - (x :: pt).length :=
  h.2.eq_of_instruction (getElem?_of_suffix hpt) hx

/-- The instruction of an item. -/
theorem At.instruction {x : Item} {i : Instruction} (h : log.At code pos (x :: pt) j)
    (hr : log.Renders code pos) (hpt : x :: pt <:+ log) (hx : x.instruction? = some i) :
    ∃ e, code[j]? = some e ∧ log[pos j]? = some x ∧ e.opcode = i.opcode ∧
      (i.target = none → e.arg = i.arg) := by
  have hget : log[pos j]? = some x := by
    rw [h.pos_eq hpt hx]
    exact getElem?_of_suffix hpt
  obtain ⟨y, i', hy, hi', hop, harg⟩ := hr.item j _ (List.getElem?_eq_getElem h.1)
  rw [hget] at hy
  cases hy
  rw [hx] at hi'
  cases hi'
  exact ⟨_, List.getElem?_eq_getElem h.1, hget, hop, harg⟩

theorem At.fall {x : Item} {i : Instruction} (h : log.At code pos (x :: pt) j)
    (hr : log.Renders code pos) (hpt : x :: pt <:+ log) (hx : x.instruction? = some i)
    (hopen : i.opcode.isTerminal = false) : log.At code pos pt (j + 1) := by
  obtain ⟨e, he, _, hop, _⟩ := h.instruction hr hpt hx
  obtain ⟨hlt, hnext⟩ := hr.falls j e he (hop ▸ hopen)
  refine ⟨hlt, ?_⟩
  rwa [h.pos_eq hpt hx, succ_of_suffix hpt] at hnext

theorem At.jump {op : Opcode} {b : BlockId} (h : log.At code pos (.jump op b :: pt) j)
    (hr : log.Renders code pos) (hlog : log.Fresh) (hpt : .jump op b :: pt <:+ log)
    (hb : .label b :: pt' <:+ log) : ∃ e off j', code[j]? = some e ∧ e.jumpTarget = .ok (some off) ∧
      code.findIdx? (fun e => e.offset == off) = some j' ∧ log.At code pos (.label b :: pt') j' := by
  obtain ⟨e, he, hget, _⟩ := h.instruction hr hpt rfl
  obtain ⟨off, k, m, hoff, hfind, hk, hm, hnext⟩ := hr.jumps j e op b he hget
  obtain rfl := hlog.label_unique hm (getElem?_of_suffix hb)
  exact ⟨e, off, k, he, hoff, hfind, hk, hnext⟩

/-- Control that may come from one place to another does so in the wordcode as well. -/
theorem Leads.exists_at (h : log.Leads pt pt') (hr : log.Renders code pos) (hlog : log.Fresh)
    (hpt : pt <:+ log) (hj : log.At code pos pt j) : ∃ j', log.At code pos pt' j' := by
  induction h generalizing j with
  | refl => exact ⟨j, hj⟩
  | skip hx _ ih => exact ih ((List.suffix_cons _ _).trans hpt) (hj.skip hpt hx)
  | fall hx hopen _ ih => exact ih ((List.suffix_cons _ _).trans hpt) (hj.fall hr hpt hx hopen)
  | jump hb _ ih =>
    obtain ⟨_, _, _, _, _, _, hj⟩ := hj.jump hr hlog hpt hb
    exact ih hb hj

end Script

namespace Plot

/-- A piece covers a position of the script. -/
def Covers (P : Plot) (p : Piece) (rest : Plot) (m : Nat) : Prop :=
  p :: rest <:+ P ∧ P.script.length - (script (p :: rest)).length ≤ m ∧
    m < P.script.length - (script rest).length

/-- One piece at most covers a position. -/
theorem Covers.unique {P : Plot} {p p' : Piece} {rest rest' : Plot} {m : Nat}
    (h : P.Covers p rest m) (h' : P.Covers p' rest' m) : p = p' ∧ rest = rest' := by
  have hlater {p p' : Piece} {rest rest' : Plot} (h : P.Covers p rest m) (h' : P.Covers p' rest' m)
      (hsuffix : p' :: rest' <:+ p :: rest) : p = p' ∧ rest = rest' := by
    rcases List.suffix_cons_iff.mp hsuffix with heq | hsuffix
    · cases heq
      exact ⟨rfl, rfl⟩
    · have hle := (script_suffix hsuffix).length_le
      have := h.2.2
      have := h'.2.1
      omega
  rcases List.suffix_or_suffix_of_suffix h.1 h'.1 with hsuffix | hsuffix
  · obtain ⟨rfl, rfl⟩ := hlater h' h hsuffix
    exact ⟨rfl, rfl⟩
  · exact hlater h h' hsuffix

theorem covers_item {P : Plot} {x : Item} {rest : Plot} (h : .item x :: rest <:+ P) :
    P.Covers (.item x) rest (P.script.length - (script (.item x :: rest)).length) := by
  have hscript : x :: script rest <:+ P.script := script_suffix h
  refine ⟨h, Nat.le_refl _, ?_⟩
  rw [← Script.succ_of_suffix hscript]
  exact Nat.lt_succ_self _

theorem covers_at {P : Plot} {code : List Decoded} {pos : Nat → Nat} {x : Item} {i : Instruction}
    {rest : Plot} (h : .item x :: rest <:+ P) (hx : x.instruction? = some i) {j : Nat}
    (hj : P.script.At code pos (script (.item x :: rest)) j) : P.Covers (.item x) rest (pos j) := by
  have hpos := hj.pos_eq (script_suffix h) hx
  rw [hpos]
  exact covers_item h

/-- How control goes through the wordcode of a plot, from instruction to instruction. The code of an
expression that the plot takes as a whole is entered where control comes to it, and left for where
control comes to from behind it. -/
def wordcourse (P : Plot) (code : List Decoded) (pos : Nat → Nat) : Course Nat where
  op j op arg := ∃ x rest e, P.Covers (.item x) rest (pos j) ∧ code[j]? = some e ∧ e.opcode = op ∧
    e.arg = arg
  next j j' := j' = j + 1
  target j j' := ∃ e off, code[j]? = some e ∧ e.jumpTarget = .ok (some off) ∧
    code.findIdx? (fun e => e.offset == off) = some j'
  silent _ _ := False
  value j e j' := ∃ log rest, P.Covers (.whole e log) rest (pos j) ∧
    P.script.At code pos (script (.whole e log :: rest)) j ∧ P.script.At code pos (script rest) j'

/-- What is taken as a whole is the code of expressions that are read, and of such as `K` allows. -/
def Takes (P : Plot) (o : Options) (K : Expr → Prop) : Prop :=
  ∀ e log, .whole e log ∈ P → K e ∧ e.Fits (fun _ => True) .load ∧ e.Codes o log

/-- The wordcode of a plot: it goes through the script. -/
structure Rendered (P : Plot) (o : Options) (code : List Decoded) (pos : Nat → Nat) : Prop where
  renders : P.script.Renders code pos
  sound : ∃ n, P.script.Sound n
  takes : P.Takes o fun _ => True

variable {P : Plot} {o : Options} {code : List Decoded} {pos : Nat → Nat} {V : Type}
  {M : Meaning V} {K : Expr → Prop}

theorem Takes.append {Q : Plot} (h : P.Takes o K) (h' : Q.Takes o K) : Takes (P ++ Q) o K := by
  intro e log hmem
  rcases List.mem_append.mp hmem with hmem | hmem
  · exact h e log hmem
  · exact h' e log hmem

theorem Takes.cons (h : P.Takes o K) (x : Item) : Takes (.item x :: P) o K := by
  intro e log hmem
  exact h e log ((List.mem_cons.mp hmem).resolve_left nofun)

theorem takes_map_item (log : Script) : Takes (log.map .item) o K := by
  intro e out hmem
  obtain ⟨_, _, heq⟩ := List.mem_map.mp hmem
  cases heq

theorem takes_whole {e : Expr} {log : Script} (hK : K e) (he : e.Fits (fun _ => True) .load)
    (hcodes : e.Codes o log) : Takes [.whole e log] o K := by
  intro e' log' hmem
  cases List.mem_singleton.mp hmem
  exact ⟨hK, he, hcodes⟩

theorem Takes.mono {K' : Expr → Prop} (h : P.Takes o K) (hK : ∀ e, K e → K' e) :
    P.Takes o K' := by
  intro e log hmem
  obtain ⟨hKe, hrest⟩ := h e log hmem
  exact ⟨hK e hKe, hrest⟩

/-- A plot of a script in which the code of such expressions as `K` allows is taken as a whole. -/
structure Shows (o : Options) (K : Expr → Prop) (P : Plot) (log : Script) : Prop where
  script : P.script = log
  takes : P.Takes o K

theorem Shows.append {Q : Plot} {log log' : Script} (h : P.Shows o K log) (h' : Q.Shows o K log') :
    Shows o K (P ++ Q) (log ++ log') :=
  ⟨by rw [script_append, h.script, h'.script], h.takes.append h'.takes⟩

theorem shows_items (o : Options) {K : Expr → Prop} (log : Script) :
    Shows o K (log.map .item) log :=
  ⟨script_map_item log, takes_map_item log⟩

theorem shows_whole {e : Expr} {log : Script} (hK : K e) (he : e.Fits (fun _ => True) .load)
    (hcodes : e.Codes o log) : Shows o K [.whole e log] log :=
  ⟨by simp [Piece.script], takes_whole hK he hcodes⟩

theorem Rendered.fresh (h : P.Rendered o code pos) : P.script.Fresh := h.sound.choose_spec.fresh

/-- The entry of the code of an expression is one of its instructions. -/
theorem Rendered.covers_whole (h : P.Rendered o code pos) {e : Expr} {log : Script} {rest : Plot}
    (hpt : .whole e log :: rest <:+ P) {j : Nat}
    (hj : P.script.At code pos (script (.whole e log :: rest)) j) :
    P.Covers (.whole e log) rest (pos j) := by
  obtain ⟨_, hfits, hcodes⟩ := h.takes e log (hpt.subset List.mem_cons_self)
  obtain ⟨x, hx, hi⟩ := hcodes.acts hfits
  obtain ⟨i, hlt, rfl⟩ := List.mem_iff_getElem.mp hx
  obtain ⟨pre, hpre⟩ := script_suffix hpt
  have hget : P.script[pre.length + i]? = some log[i] := by
    rw [← hpre, List.getElem?_append_right (Nat.le_add_right _ _), Nat.add_sub_cancel_left,
      script_cons, List.getElem?_append_left (by exact hlt)]
    exact List.getElem?_eq_getElem hlt
  have hlen : P.script.length = pre.length + (log.length + (script rest).length) := by
    rw [← hpre]
    simp [Piece.script]
  have hnext := hj.2
  have hstart := hnext.le
  have hend := hnext.le_of_instruction hget hi
  simp only [script_cons, Piece.script, List.length_append] at hstart hend
  refine ⟨hpt, ?_, ?_⟩
  · simp only [script_cons, Piece.script, List.length_append]
    omega
  · omega

/-- An instruction of the wordcode does what that of the script does; an operand that is not the
same is one of a jump. -/
theorem Rendered.falls_eq (h : P.Rendered o code pos) {x : Item} {i : Instruction}
    (hx : x ∈ P.script) (hi : x.instruction? = some i) {e : Decoded} (hop : e.opcode = i.opcode)
    (harg : i.target = none → e.arg = i.arg) (st : List (Cell V)) :
    M.falls e.opcode e.arg st = M.falls i.opcode i.arg st := by
  rw [hop]
  cases htarget : i.target with
  | none => rw [harg htarget]
  | some b =>
    obtain ⟨n, hsound⟩ := h.sound
    apply M.falls_of_isJump
    rw [← (hsound.instructions x hx i hi).target_isSome, htarget]
    rfl

/-- The instruction of an item, from which control goes on to the next one. -/
theorem Rendered.fall (h : P.Rendered o code pos) {x : Item} {i : Instruction} {rest : Plot}
    (hc : .item x :: rest <:+ P) (hx : x.instruction? = some i) (hopen : i.opcode.isTerminal = false)
    {j : Nat} (hj : P.script.At code pos (script (.item x :: rest)) j) :
    P.script.At code pos (script rest) (j + 1) ∧ ∃ e : Decoded, e.opcode = i.opcode ∧
      (i.target = none → e.arg = i.arg) ∧ (P.wordcourse code pos).op j e.opcode e.arg := by
  have hscript : x :: script rest <:+ P.script := script_suffix hc
  obtain ⟨e, he, _, hop, harg⟩ := hj.instruction h.renders hscript hx
  exact ⟨hj.fall h.renders hscript hx hopen, e, hop, harg, x, rest, e, covers_at hc hx hj, he, rfl,
    rfl⟩

/-- The instruction of a jump, which leads to where control comes to from behind its label. -/
theorem Rendered.jump (h : P.Rendered o code pos) {op : Opcode} {b : BlockId} {rest taken : Plot}
    (hc : .item (.jump op b) :: rest <:+ P) (hb : .item (.label b) :: taken <:+ P) {j : Nat}
    (hj : P.script.At code pos (script (.item (.jump op b) :: rest)) j) :
    ∃ arg j', P.script.At code pos (script taken) j' ∧ (P.wordcourse code pos).op j op arg ∧
      (P.wordcourse code pos).target j j' := by
  have hscript : .jump op b :: script rest <:+ P.script := script_suffix hc
  obtain ⟨e, he, _, hop, _⟩ := hj.instruction h.renders hscript rfl
  obtain ⟨e', off, j', he', hoff, hfind, hj'⟩ :=
    hj.jump h.renders h.fresh hscript (script_suffix hb)
  rw [he] at he'
  cases he'
  exact ⟨e.arg, j', hj'.skip (script_suffix hb) rfl,
    ⟨_, rest, e, covers_at hc rfl hj, he, hop, rfl⟩, e, off, he, hoff, hfind⟩

/-- The code of an expression whose value is pushed. -/
theorem Rendered.value (h : P.Rendered o code pos) {e : Expr} {log : Script} {rest : Plot}
    (hc : .whole e log :: rest <:+ P) {j : Nat}
    (hj : P.script.At code pos (script (.whole e log :: rest)) j) :
    ∃ j', P.script.At code pos (script rest) j' ∧ (P.wordcourse code pos).value j e j' := by
  obtain ⟨_, _, hcodes⟩ := h.takes _ _ (hc.subset List.mem_cons_self)
  have hleads := hcodes.leads (script_suffix hc)
  obtain ⟨j', hj'⟩ := hleads.exists_at h.renders h.fresh (script_suffix hc) hj
  exact ⟨j', hj', log, rest, h.covers_whole hc hj, hj, hj'⟩

/-- What a move of the plot does the wordcode does in one move or none. -/
theorem Rendered.simulates (h : P.Rendered o code pos) {c c' : Config Plot V}
    (hmove : Moves M P.course c c') (hc : c.point <:+ P) {j : Nat}
    (hj : P.script.At code pos (script c.point) j) :
    c'.point <:+ P ∧ ∃ j', P.script.At code pos (script c'.point) j' ∧
      Runs M (P.wordcourse code pos) ⟨j, c.stack, c.trace⟩ ⟨j', c'.stack, c'.trace⟩ := by
  cases hmove with
  | silent hsilent =>
    obtain ⟨x, rfl, hx⟩ := hsilent
    exact ⟨(List.suffix_cons _ _).trans hc, j, hj.skip (script_suffix hc) hx, .refl⟩
  | next hop hfalls hnext =>
    obtain ⟨x, rest, i, rfl, hx, rfl, rfl⟩ := hop
    obtain ⟨_, heq⟩ := hnext
    obtain rfl := (List.cons.inj heq).2
    have hscript : x :: script rest <:+ P.script := script_suffix hc
    obtain ⟨hj', e, hop, harg, hword⟩ := h.fall hc hx (Meaning.isTerminal_of_falls hfalls) hj
    refine ⟨(List.suffix_cons _ _).trans hc, j + 1, hj', .single (.next hword ?_ rfl)⟩
    rw [h.falls_eq (hscript.subset List.mem_cons_self) hx hop harg]
    exact hfalls
  | jump hop hjumps htarget =>
    obtain ⟨x, rest, i, rfl, hx, rfl, rfl⟩ := hop
    obtain ⟨op, b, _, heq, hb⟩ := htarget
    obtain ⟨rfl⟩ := (List.cons.inj heq).1
    cases hx
    obtain ⟨_, j', hj', hword, htarget⟩ := h.jump hc hb hj
    exact ⟨(List.suffix_cons _ _).trans hb, j', hj', .single (.jump hword hjumps htarget)⟩
  | value hvalue =>
    obtain ⟨log, rfl⟩ := hvalue
    obtain ⟨j', hj', hword⟩ := h.value hc hj
    exact ⟨(List.suffix_cons _ _).trans hc, j', hj', .single (.value hword)⟩

/-- What the plot comes to the wordcode comes to. -/
theorem Rendered.runs (h : P.Rendered o code pos) {c c' : Config Plot V}
    (hruns : Runs M P.course c c') (hc : c.point <:+ P) {j : Nat}
    (hj : P.script.At code pos (script c.point) j) :
    c'.point <:+ P ∧ ∃ j', P.script.At code pos (script c'.point) j' ∧
      Runs M (P.wordcourse code pos) ⟨j, c.stack, c.trace⟩ ⟨j', c'.stack, c'.trace⟩ := by
  induction hruns with
  | refl => exact ⟨hc, j, hj, .refl⟩
  | tail _ hmove ih =>
    obtain ⟨hc₁, j₁, hj₁, hruns₁⟩ := ih
    obtain ⟨hc₂, j₂, hj₂, hruns₂⟩ := h.simulates hmove hc₁ hj₁
    exact ⟨hc₂, j₂, hj₂, hruns₁.trans hruns₂⟩

theorem Rendered.returns (h : P.Rendered o code pos) {c : Config Plot V} {x : Cell V}
    (hreturns : P.course.Returns c x) (hc : c.point <:+ P) {j : Nat}
    (hj : P.script.At code pos (script c.point) j) :
    (P.wordcourse code pos).Returns ⟨j, c.stack, c.trace⟩ x := by
  obtain ⟨⟨_, y, rest, i, hpoint, hy, hop, _⟩, hhead⟩ := hreturns
  rw [hpoint] at hc hj
  obtain ⟨e, he, _, hop', _⟩ := hj.instruction h.renders (script_suffix hc) hy
  exact ⟨⟨e.arg, y, rest, e, covers_at hc hy hj, he, hop'.trans hop, rfl⟩, hhead⟩

/-- The unit that a plot was written for is rendered by its wordcode, with the return that closes
it. -/
theorem exists_rendered {name qualname : String} {t : ScopeTable} {serial firstLine : UInt32}
    {nested addNone : Bool} {filename : String} {d : Draft} {c : CodeObject}
    (hw : (Draft.ofTable name qualname t serial firstLine nested).Writes P.script d)
    (hsound : P.script.Sound d.blocks.size) (htakes : P.Takes o K)
    (hc : d.finish addNone filename = .ok c) : ∃ tail code pos, decode c.code = .ok code ∧
      Rendered (P ++ tail.map .item) o code pos ∧
      (Draft.ofTable name qualname t serial firstLine nested).Writes (P.script ++ tail)
        (d.close addNone) ∧
      (tail = [] ∨ ∃ arg, tail = Script.closing d.blocks.size addNone arg) := by
  obtain ⟨tail, code, pos, hclose, hsound, _, htail, hdecode, hrenders, _⟩ :=
    hw.exists_renders hsound (Draft.of_finish_ok hc)
  have hscript : script (P ++ tail.map .item) = P.script ++ tail := by
    rw [script_append, script_map_item]
  refine ⟨tail, code, pos, hdecode, ⟨hscript ▸ hrenders, ⟨_, hscript ▸ hsound⟩, ?_⟩, hclose, htail⟩
  exact (htakes.append (takes_map_item tail)).mono fun _ _ => trivial

theorem wordcourse_op_unique {j : Nat} {op op' : Opcode} {arg arg' : UInt32}
    (h : (P.wordcourse code pos).op j op arg) (h' : (P.wordcourse code pos).op j op' arg') :
    op = op' ∧ arg = arg' := by
  obtain ⟨_, _, e, _, he, rfl, rfl⟩ := h
  obtain ⟨_, _, e', _, he', rfl, rfl⟩ := h'
  rw [he] at he'
  cases he'
  exact ⟨rfl, rfl⟩

/-- No instruction is that of a plot and of an expression that the plot takes as a whole. -/
theorem Covers.not_item {m : Nat} {e : Expr} {log : Script} {rest : Plot}
    (h : P.Covers (.whole e log) rest m) {j : Nat} {op : Opcode} {arg : UInt32}
    (hm : m = pos j) : ¬ (P.wordcourse code pos).op j op arg := by
  rintro ⟨x, rest', _, hcovers, _⟩
  rw [hm] at h
  cases (h.unique hcovers).1

theorem wordcourse_target_unique {j k k' : Nat} (h : (P.wordcourse code pos).target j k)
    (h' : (P.wordcourse code pos).target j k') : k = k' := by
  obtain ⟨e, off, he, hoff, hfind⟩ := h
  obtain ⟨e', off', he', hoff', hfind'⟩ := h'
  rw [he] at he'
  cases he'
  rw [hoff] at hoff'
  cases hoff'
  rw [hfind] at hfind'
  cases hfind'
  rfl

theorem not_op_of_value {j k : Nat} {e : Expr} (h : (P.wordcourse code pos).value j e k)
    {op : Opcode} {arg : UInt32} : ¬ (P.wordcourse code pos).op j op arg := by
  obtain ⟨_, _, hcovers, _⟩ := h
  exact hcovers.not_item rfl

theorem Rendered.value_unique (h : P.Rendered o code pos) {j k k' : Nat} {e e' : Expr}
    (hv : (P.wordcourse code pos).value j e k) (hv' : (P.wordcourse code pos).value j e' k') :
    e = e' ∧ k = k' := by
  obtain ⟨_, _, hcovers, _, hnext⟩ := hv
  obtain ⟨_, _, hcovers', _, hnext'⟩ := hv'
  obtain ⟨heq, rfl⟩ := hcovers.unique hcovers'
  cases heq
  exact ⟨rfl, h.renders.at_unique hnext hnext'⟩

/-- The machine does not have a choice. -/
theorem Rendered.moves_unique (h : P.Rendered o code pos) {c c₁ c₂ : Config Nat V}
    (h₁ : Moves M (P.wordcourse code pos) c c₁) (h₂ : Moves M (P.wordcourse code pos) c c₂) :
    c₁ = c₂ := by
  cases h₁ with
  | silent hsilent => exact hsilent.elim
  | next hop hfalls hnext =>
    cases h₂ with
    | silent hsilent => exact hsilent.elim
    | next hop' hfalls' hnext' =>
      obtain ⟨rfl, rfl⟩ := wordcourse_op_unique hop hop'
      obtain rfl := hnext.trans hnext'.symm
      rw [hfalls] at hfalls'
      cases hfalls'
      rfl
    | jump hop' hjumps' _ =>
      obtain ⟨rfl, -⟩ := wordcourse_op_unique hop hop'
      rw [Meaning.jumps_of_falls hfalls] at hjumps'
      cases hjumps'
    | value hvalue => exact (not_op_of_value hvalue hop).elim
  | jump hop hjumps htarget =>
    cases h₂ with
    | silent hsilent => exact hsilent.elim
    | next hop' hfalls' _ =>
      obtain ⟨rfl, -⟩ := wordcourse_op_unique hop hop'
      rw [Meaning.jumps_of_falls hfalls'] at hjumps
      cases hjumps
    | jump hop' hjumps' htarget' =>
      obtain ⟨rfl, -⟩ := wordcourse_op_unique hop hop'
      obtain rfl := wordcourse_target_unique htarget htarget'
      rw [hjumps] at hjumps'
      cases hjumps'
      rfl
    | value hvalue => exact (not_op_of_value hvalue hop).elim
  | value hvalue =>
    cases h₂ with
    | silent hsilent => exact hsilent.elim
    | next hop' => exact (not_op_of_value hvalue hop').elim
    | jump hop' => exact (not_op_of_value hvalue hop').elim
    | value hvalue' =>
      obtain ⟨rfl, rfl⟩ := h.value_unique hvalue hvalue'
      rfl

/-- Where the machine is to return, it has stopped. -/
theorem not_moves_of_returns {c c' : Config Nat V} {x : Cell V}
    (h : (P.wordcourse code pos).Returns c x) : ¬ Moves M (P.wordcourse code pos) c c' := by
  obtain ⟨⟨_, hop⟩, _⟩ := h
  intro hmove
  cases hmove with
  | silent hsilent => exact hsilent
  | next hop' hfalls =>
    obtain ⟨rfl, -⟩ := wordcourse_op_unique hop hop'
    cases Meaning.isTerminal_of_falls hfalls
  | jump hop' hjumps =>
    obtain ⟨rfl, -⟩ := wordcourse_op_unique hop hop'
    cases hjumps
  | value hvalue => exact not_op_of_value hvalue hop

end Plot
end Wordcode

import Mathlib.Algebra.GroupWithZero.Nat
import Wordcode.Proofs.Enacting

/-!
# Dict displays

However many entries a dict display has, its code leaves the map that inserting them from left to
right gives. The code builds maps of a limited size and merges each of them into the first one.
-/

set_option autoImplicit false

namespace Wordcode

open Build (maxMapEntries)

namespace World

variable {V : Type} (W : World V)

/-- Keys are not the same. -/
def Apart (m : List (V × V)) : Prop := m.Pairwise fun p q => W.same p.1 q.1 = false

variable {W}

theorem insertAll_cons (m : List (V × V)) (p : V × V) (ps : List (V × V)) :
    W.insertAll m (p :: ps) = W.insertAll (W.insert p.1 p.2 m) ps := rfl

theorem insertAll_append (m ps qs : List (V × V)) :
    W.insertAll m (ps ++ qs) = W.insertAll (W.insertAll m ps) qs := List.foldl_append

theorem same_of_same_left {u v w : V} (huv : W.same u v = true) (huw : W.same u w = true) :
    W.same v w = true := W.same_trans (W.same_symm huv) huw

/-- A key that is inserted twice is there once, with the second value. -/
theorem insert_insert {k k' : V} (hk : W.same k' k = true) (v v' : V) (m : List (V × V)) :
    W.insert k v (W.insert k' v' m) = W.insert k' v m := by
  induction m with
  | nil => simp [insert, hk]
  | cons p m ih =>
    by_cases hp : W.same p.1 k' = true
    · simp [insert, hp, W.same_trans hp hk]
    · have hpk : W.same p.1 k ≠ true := fun h => hp (W.same_trans h (W.same_symm hk))
      simp [insert, hp, hpk, ih]

/-- A key that is there may get its value before another key is inserted. -/
theorem insert_comm {k k' : V} (hk : W.same k' k ≠ true) (v v' : V) {m : List (V × V)}
    (hm : ∃ p ∈ m, W.same p.1 k = true) :
    W.insert k v (W.insert k' v' m) = W.insert k' v' (W.insert k v m) := by
  induction m with
  | nil => simp at hm
  | cons p m ih =>
    by_cases hp : W.same p.1 k = true
    · have hpk' : W.same p.1 k' ≠ true := fun h => hk (same_of_same_left h hp)
      simp [insert, hp, hpk']
    · obtain ⟨q, hq, hqk⟩ := hm
      rcases List.mem_cons.mp hq with rfl | hq
      · exact absurd hqk hp
      · by_cases hpk' : W.same p.1 k' = true
        · simp [insert, hp, hpk']
        · simp [insert, hp, hpk', ih ⟨q, hq, hqk⟩]

theorem exists_same_insert {k k' : V} (v' : V) {m : List (V × V)}
    (hm : ∃ p ∈ m, W.same p.1 k = true) : ∃ p ∈ W.insert k' v' m, W.same p.1 k = true := by
  induction m with
  | nil => simp at hm
  | cons p m ih =>
    obtain ⟨q, hq, hqk⟩ := hm
    rw [insert]
    split
    · rcases List.mem_cons.mp hq with rfl | hq
      · exact ⟨_, List.mem_cons_self, hqk⟩
      · exact ⟨q, List.mem_cons_of_mem _ hq, hqk⟩
    · rcases List.mem_cons.mp hq with rfl | hq
      · exact ⟨_, List.mem_cons_self, hqk⟩
      · obtain ⟨r, hr, hrk⟩ := ih ⟨q, hq, hqk⟩
        exact ⟨r, List.mem_cons_of_mem _ hr, hrk⟩

/-- A key that is there may get its value before keys are inserted that are not the same. -/
theorem insert_insertAll {k : V} (v : V) {m ps : List (V × V)} (hm : ∃ p ∈ m, W.same p.1 k = true)
    (hps : ∀ p ∈ ps, W.same p.1 k ≠ true) :
    W.insert k v (W.insertAll m ps) = W.insertAll (W.insert k v m) ps := by
  induction ps generalizing m with
  | nil => rfl
  | cons p ps ih =>
    rw [insertAll_cons, insertAll_cons, ih (exists_same_insert p.2 hm)
      (fun q hq => hps q (List.mem_cons_of_mem _ hq)),
      insert_comm (hps p List.mem_cons_self) v p.2 hm]

theorem exists_insert_self (k v : V) (m : List (V × V)) :
    ∃ p ∈ W.insert k v m, p.1 = k ∨ W.same p.1 k = true := by
  induction m with
  | nil => exact ⟨_, List.mem_cons_self, .inl rfl⟩
  | cons p m ih =>
    rw [insert]
    split
    · next h => exact ⟨_, List.mem_cons_self, .inr h⟩
    · obtain ⟨q, hq, hqk⟩ := ih
      exact ⟨q, List.mem_cons_of_mem _ hq, hqk⟩

/-- Merging a map into which an entry has been inserted. -/
theorem insertAll_insert (k v : V) {m ps : List (V × V)} (hps : W.Apart ps) :
    W.insertAll m (W.insert k v ps) = W.insert k v (W.insertAll m ps) := by
  induction ps generalizing m with
  | nil => rfl
  | cons p ps ih =>
    obtain ⟨hp, hps⟩ := List.pairwise_cons.mp hps
    by_cases hk : W.same p.1 k = true
    · obtain ⟨q, hq, hqp⟩ := exists_insert_self (W := W) p.1 p.2 m
      have hqk : W.same q.1 k = true := by
        rcases hqp with heq | hqp
        · rw [heq]
          exact hk
        · exact W.same_trans hqp hk
      have hrest (r : V × V) (hr : r ∈ ps) : W.same r.1 k ≠ true := fun h => by
        have := W.same_trans hk (W.same_symm h)
        rw [hp r hr] at this
        cases this
      rw [insert, if_pos hk, insertAll_cons, insertAll_cons, insert_insertAll v ⟨q, hq, hqk⟩ hrest,
        insert_insert hk]
    · rw [insert, if_neg hk, insertAll_cons, insertAll_cons, ih hps]

theorem key_of_mem_insert {k v : V} {m : List (V × V)} {q : V × V} (hq : q ∈ W.insert k v m) :
    q.1 = k ∨ ∃ p ∈ m, p.1 = q.1 := by
  induction m with
  | nil => exact .inl (by rw [List.mem_singleton.mp hq])
  | cons p m ih =>
    rw [insert] at hq
    split at hq
    · rcases List.mem_cons.mp hq with rfl | hq
      · exact .inr ⟨p, List.mem_cons_self, rfl⟩
      · exact .inr ⟨q, List.mem_cons_of_mem _ hq, rfl⟩
    · rcases List.mem_cons.mp hq with rfl | hq
      · exact .inr ⟨q, List.mem_cons_self, rfl⟩
      · rcases ih hq with hk | ⟨r, hr, hrq⟩
        · exact .inl hk
        · exact .inr ⟨r, List.mem_cons_of_mem _ hr, hrq⟩

theorem Apart.insert {m : List (V × V)} (hm : W.Apart m) (k v : V) : W.Apart (W.insert k v m) := by
  induction m with
  | nil => exact List.pairwise_singleton _ _
  | cons p m ih =>
    obtain ⟨hp, hm⟩ := List.pairwise_cons.mp hm
    rw [World.insert]
    split
    · exact List.pairwise_cons.mpr ⟨hp, hm⟩
    · next hk =>
      refine List.pairwise_cons.mpr ⟨fun q hq => ?_, ih hm⟩
      rcases key_of_mem_insert hq with heq | ⟨r, hr, heq⟩
      · rw [heq]
        exact Bool.eq_false_iff.mpr hk
      · rw [← heq]
        exact hp r hr

theorem apart_insertAll {m : List (V × V)} (hm : W.Apart m) (ps : List (V × V)) :
    W.Apart (W.insertAll m ps) := by
  induction ps generalizing m with
  | nil => exact hm
  | cons p ps ih => exact ih (hm.insert p.1 p.2)

/-- Entries may be put into a map of their own that is merged in the end. -/
theorem insertAll_insertAll (m ps : List (V × V)) :
    W.insertAll m (W.insertAll [] ps) = W.insertAll m ps := by
  induction ps using List.reverseRecOn with
  | nil => rfl
  | append_singleton ps p ih =>
    rw [insertAll_append, insertAll_append, insertAll_cons, insertAll_cons]
    exact (insertAll_insert p.1 p.2 (apart_insertAll .nil ps)).trans (congrArg _ ih)

variable (W)

/-- The values of expressions that are evaluated one after the other. -/
def values (h : History V) : List Expr → List V
  | [] => []
  | e :: es => W.value h e :: values (h ++ e.note) es

/-- Keys and values that are evaluated in turn. -/
def pairs (h : History V) : List (Expr × Expr) → List (V × V)
  | [] => []
  | p :: ps => (W.value h p.1, W.value (h ++ p.1.note) p.2) ::
    pairs (h ++ p.1.note ++ p.2.note) ps

end World

/-- The keys and values of entries, as they are evaluated. -/
def inTurn (entries : List (Expr × Expr)) : List Expr := entries.flatMap fun p => [p.1, p.2]

section

variable {V : Type} {W : World V}

theorem inTurn_cons (p : Expr × Expr) (entries : List (Expr × Expr)) :
    inTurn (p :: entries) = p.1 :: p.2 :: inTurn entries := rfl

theorem inTurn_append (ps qs : List (Expr × Expr)) : inTurn (ps ++ qs) = inTurn ps ++ inTurn qs :=
  List.flatMap_append

theorem length_inTurn (entries : List (Expr × Expr)) :
    (inTurn entries).length = 2 * entries.length := by
  induction entries with
  | nil => rfl
  | cons p entries ih =>
    rw [inTurn_cons, List.length_cons, List.length_cons, ih, List.length_cons]
    omega

theorem World.length_values (h : History V) (es : List Expr) :
    (W.values h es).length = es.length := by
  induction es generalizing h with
  | nil => rfl
  | cons e es ih => exact congrArg (· + 1) (ih _)

theorem World.pairUp_values (h : History V) (entries : List (Expr × Expr)) :
    pairUp (W.values h (inTurn entries)) = W.pairs h entries := by
  induction entries generalizing h with
  | nil => rfl
  | cons p entries ih => exact congrArg (_ :: ·) (ih _)

theorem World.pairs_append (h : History V) (ps qs : List (Expr × Expr)) :
    W.pairs h (ps ++ qs) = W.pairs h ps ++ W.pairs (h ++ Expr.notes (inTurn ps)) qs := by
  induction ps generalizing h with
  | nil => simp [pairs, inTurn, Expr.notes]
  | cons p ps ih =>
    rw [List.cons_append, pairs, ih, pairs, inTurn_cons, Expr.notes_cons, Expr.notes_cons,
      ← List.append_assoc, ← List.append_assoc, List.cons_append]

/-- What a key is if it is constant, and that nothing happens when it is evaluated. -/
theorem World.of_constant? {key : Expr} {c : Constant} (hkey : key.constant? = some c)
    (h : History V) : W.value h key = W.constant c ∧ (key.note : History V) = [] := by
  cases key with
  | constant line c' =>
    cases hkey
    exact ⟨W.value_constant h line _, rfl⟩
  | _ => cases hkey

/-- Where all keys are constant, only values are evaluated. -/
theorem World.pairs_of_constants {entries : List (Expr × Expr)} {keys : List Constant}
    (hkeys : (entries.mapM fun p => p.1.constant?) = some keys) (h : History V) :
    (keys.map W.constant).zip (W.values h (entries.map Prod.snd)) = W.pairs h entries ∧
      (Expr.notes (entries.map Prod.snd) : History V) = Expr.notes (inTurn entries) := by
  induction entries generalizing keys h with
  | nil =>
    cases hkeys
    exact ⟨rfl, rfl⟩
  | cons p entries ih =>
    rw [List.mapM_cons] at hkeys
    obtain ⟨key, hkey, hkeys⟩ := Option.bind_eq_some_iff.mp hkeys
    obtain ⟨keys, hrest, heq⟩ := Option.bind_eq_some_iff.mp hkeys
    cases heq
    obtain ⟨hvalue, hnote⟩ := W.of_constant? hkey h
    obtain ⟨hpairs, hnotes⟩ := ih hrest (h ++ p.2.note)
    refine ⟨?_, ?_⟩
    · simp only [pairs, List.map_cons, values, List.zip_cons_cons, hvalue, hnote,
        List.append_nil, hpairs]
    · rw [List.map_cons, inTurn_cons, Expr.notes_cons, Expr.notes_cons, Expr.notes_cons, hnote,
        hnotes, List.nil_append]

end

/-- The numbers of entries that the instructions build maps from. -/
def Plot.mapOperands (pl : Plot) : List Nat :=
  pl.filterMap fun
    | .item (.emit .buildMap arg) | .item (.emit .buildConstKeyMap arg) => some arg.toNat
    | _ => none

theorem Plot.mapOperands_append (pl pl' : Plot) :
    mapOperands (pl ++ pl') = mapOperands pl ++ mapOperands pl' := List.filterMap_append

theorem Plot.Bare.mapOperands {pl : Plot} (h : pl.Bare) : pl.mapOperands = [] := by
  refine List.filterMap_eq_nil_iff.mpr fun p hp => ?_
  split
  · cases h _ hp
  · cases h _ hp
  · rfl

section

variable {o : Options} {d : Draft} {n m : Nat} {log : Script}

theorem exists_plot_values {es : List Expr} (hes : ∀ e ∈ es, e.Fits (fun _ => True) .load)
    (hemits : Emits o d [.run (.all es)] n log m) :
    ∃ pl : Plot, pl.Shows o TakesAll log ∧ pl.Bare ∧ ∀ {V : Type} (W : World V) (env : Env V)
      (st : List (Cell V)) (h : History V),
        pl.Makes W env (st, h) (pushValues (W.values h es) st, h ++ Expr.notes es) := by
  induction es generalizing n log with
  | nil =>
    obtain ⟨_, rfl, hnil⟩ := hemits.of_task
    obtain ⟨rfl, -⟩ := hnil.of_nil
    refine ⟨[], Plot.shows_items o [], fun _ hx => absurd hx List.not_mem_nil,
      fun W env st h => ?_⟩
    rw [Expr.notes, List.flatMap_nil, List.append_nil]
    exact .nil _
  | cons e es ih =>
    obtain ⟨_, rfl, hsteps⟩ := hemits.of_task
    obtain ⟨_, _, _, rfl, hfirst, hrest⟩ := hsteps.of_run
    obtain ⟨pl, hshows, hbare, hpushes⟩ := e.exists_bare_plot (hes e List.mem_cons_self) hfirst
    obtain ⟨pl', hshows', hbare', hpushes'⟩ :=
      ih (fun e he => hes e (List.mem_cons_of_mem _ he)) hrest
    refine ⟨_, hshows.append hshows', hbare.append hbare', fun W env st h => ?_⟩
    rw [Expr.notes_cons, ← List.append_assoc]
    exact (hpushes W env st h).append (hpushes' W env _ _)

/-- The plot is one of code that pushes the map of the entries, which one instruction builds. -/
def Plot.Maps (o : Options) (pl : Plot) (log : Script) (entries : List (Expr × Expr)) : Prop :=
  pl.Shows o TakesAll log ∧ pl.mapOperands = [entries.length] ∧
    ∀ {V : Type} (W : World V) (env : Env V), env.Knows log →
      ∀ (st : List (Cell V)) (h : History V), pl.Makes W env (st, h)
        (.value (W.map (W.insertAll [] (W.pairs h entries))) :: st,
          h ++ Expr.notes (inTurn entries))

theorem exists_plot_plainMap {entries : List (Expr × Expr)}
    (hentries : ∀ e ∈ inTurn entries, e.Fits (fun _ => True) .load)
    (hmax : entries.length ≤ maxMapEntries)
    (hemits : Emits o d [.run (.all (inTurn entries)),
      .emit .buildMap (UInt32.ofNat entries.length)] n log m) :
    ∃ pl : Plot, pl.Maps o log entries := by
  have hcount : (UInt32.ofNat entries.length).toNat = entries.length :=
    UInt32.toNat_ofNat_of_lt' (Nat.lt_of_le_of_lt hmax (by decide))
  obtain ⟨_, _, _, rfl, hvalues, hbuild⟩ := hemits.of_run
  obtain ⟨_, rfl, hnil⟩ := hbuild.of_emit
  obtain ⟨rfl, -⟩ := hnil.of_nil
  obtain ⟨pl, hshows, hbare, hpushes⟩ := exists_plot_values hentries hvalues
  refine ⟨_, hshows.append (Plot.shows_items o [_]), ?_, fun W env _ st h => ?_⟩
  · rw [Plot.mapOperands_append, hbare.mapOperands, List.nil_append]
    exact congrArg (fun k => [k]) hcount
  · have hpop := popValues_pushValues (W.values h (inTurn entries)) st
    rw [World.length_values, length_inTurn] at hpop
    refine (hpushes W env st h).append (.emit ?_)
    rw [World.does, hcount, hpop, ← World.pairUp_values]
    rfl

/-- The constants that a loaded tuple stands for. -/
theorem World.constants_of_alike {V : Type} (W : World V) {c : Constant} {keys : List Constant}
    (h : c.Alike (.tuple keys)) :
    ∃ cs, c = .tuple cs ∧ cs.map W.constant = keys.map W.constant := by
  cases h with
  | refl => exact ⟨keys, rfl, rfl⟩
  | tuple hall =>
    refine ⟨_, rfl, ?_⟩
    induction hall with
    | nil => rfl
    | cons hhead _ ih => rw [List.map_cons, List.map_cons, W.constant_alike hhead, ih]

theorem exists_plot_constMap {entries : List (Expr × Expr)} {keys : List Constant}
    (hkeys : (entries.mapM fun p => p.1.constant?) = some keys)
    (hentries : ∀ e ∈ entries.map Prod.snd, e.Fits (fun _ => True) .load)
    (hmax : entries.length ≤ maxMapEntries)
    (hemits : Emits o d [.run (.all (entries.map Prod.snd)), .load (.tuple keys),
      .emit .buildConstKeyMap (UInt32.ofNat entries.length)] n log m) :
    ∃ pl : Plot, pl.Maps o log entries := by
  have hcount : (UInt32.ofNat entries.length).toNat = entries.length :=
    UInt32.toNat_ofNat_of_lt' (Nat.lt_of_le_of_lt hmax (by decide))
  obtain ⟨_, _, _, rfl, hvalues, hload⟩ := hemits.of_run
  obtain ⟨arg, _, rfl, hbuild⟩ := hload.of_load
  obtain ⟨_, rfl, hnil⟩ := hbuild.of_emit
  obtain ⟨rfl, -⟩ := hnil.of_nil
  obtain ⟨pl, hshows, hbare, hpushes⟩ := exists_plot_values hentries hvalues
  refine ⟨_, hshows.append (Plot.shows_items o [_, _, _]), ?_, fun W env hknows st h => ?_⟩
  · rw [Plot.mapOperands_append, hbare.mapOperands, List.nil_append]
    exact congrArg (fun k => [k]) hcount
  · obtain ⟨c, hc, halike⟩ := hknows.right.constant arg (.tuple keys) (by simp)
    obtain ⟨cs, rfl, hcs⟩ := W.constants_of_alike halike
    obtain ⟨hpairs, hnotes⟩ := W.pairs_of_constants hkeys h
    have hpop := popValues_pushValues (W.values h (entries.map Prod.snd)) st
    rw [World.length_values, List.length_map] at hpop
    rw [← hnotes, ← hpairs, ← hcs]
    refine (hpushes W env st h).append ((Plot.Makes.load arg _).append (.emit ?_))
    rw [World.does, hc, hcount]
    simp only [hpop]
    rfl

/-- A map that one instruction builds. -/
theorem exists_plot_map {entries : List (Expr × Expr)}
    (hentries : ∀ e ∈ inTurn entries, e.Fits (fun _ => True) .load)
    (hmax : entries.length ≤ maxMapEntries) (hemits : Emits o d [.run (.map entries)] n log m) :
    ∃ pl : Plot, pl.Maps o log entries := by
  obtain ⟨_, rfl, hsteps⟩ := hemits.of_task
  simp only [Task.steps, mapSteps] at hsteps
  split at hsteps
  · next keys hkeys =>
    split at hsteps
    · refine exists_plot_constMap hkeys (fun e he => hentries e ?_) hmax hsteps
      obtain ⟨p, hp, rfl⟩ := List.mem_map.mp he
      exact List.mem_flatMap.mpr ⟨p, hp, by simp⟩
    · exact exists_plot_plainMap hentries hmax hsteps
  · exact exists_plot_plainMap hentries hmax hsteps

/-- The entries of the first map, and those behind them. -/
theorem exists_first_entries {entries : List (Expr × Expr)} (hne : entries ≠ []) :
    ∃ first rest, entries = first ++ rest ∧ entries.take maxMapEntries = first ∧
      entries.drop maxMapEntries = rest ∧ 0 < first.length ∧ first.length ≤ maxMapEntries := by
  have := List.length_pos_iff.mpr hne
  refine ⟨_, _, (List.take_append_drop maxMapEntries entries).symm, rfl, rfl, ?_, ?_⟩
  · rw [List.length_take, maxMapEntries]
    omega
  · exact List.length_take_le _ _

theorem World.does_dictUpdate {V : Type} (W : World V) (env : Env V) (m m' : List (V × V))
    (st : List (Cell V)) (h : History V) :
    W.does env .dictUpdate 1 (.value (W.map m') :: .value (W.map m) :: st) h =
      some (.value (W.map (W.insertAll m m')) :: st, h) := by
  simp [does, W.entries_map]

/-- Further entries are merged into the map on the stack, as many at a time as one instruction can
take. -/
theorem exists_plot_extendMap {entries : List (Expr × Expr)}
    (hentries : ∀ e ∈ inTurn entries, e.Fits (fun _ => True) .load)
    (hemits : Emits o d [.run (.extendMap entries)] n log m) :
    ∃ pl : Plot, pl.Shows o TakesAll log ∧ (∀ k ∈ pl.mapOperands, k ≤ maxMapEntries) ∧
      pl.mapOperands.sum = entries.length ∧
      ∀ {V : Type} (W : World V) (env : Env V), env.Knows log →
        ∀ (ps : List (V × V)) (st : List (Cell V)) (h : History V),
          pl.Makes W env (.value (W.map (W.insertAll [] ps)) :: st, h)
            (.value (W.map (W.insertAll [] (ps ++ W.pairs h entries))) :: st,
              h ++ Expr.notes (inTurn entries)) := by
  induction hlength : entries.length using Nat.strongRecOn generalizing entries n log with
  | ind k ih =>
    obtain ⟨_, rfl, hsteps⟩ := hemits.of_task
    cases entries with
    | nil =>
      obtain ⟨rfl, -⟩ := hsteps.of_nil
      refine ⟨[], Plot.shows_items o [], nofun, hlength, fun W env _ ps st h => ?_⟩
      rw [World.pairs, List.append_nil, inTurn, List.flatMap_nil, Expr.notes, List.flatMap_nil,
        List.append_nil]
      exact .nil _
    | cons p entries =>
      obtain ⟨_, _, _, rfl, hmap, hupdate⟩ := hsteps.of_run
      obtain ⟨_, rfl, hrest⟩ := hupdate.of_emit
      obtain ⟨first, rest, hsplit, hfirst, hdrop, hmax⟩ :=
        exists_first_entries (List.cons_ne_nil p entries)
      rw [hfirst] at hmap
      rw [hdrop] at hrest
      rw [hsplit] at hlength hentries ⊢
      simp only [inTurn_append, List.mem_append] at hentries
      obtain ⟨pl, hshows, hsizes, hpushes⟩ :=
        exists_plot_map (fun e he => hentries e (.inl he)) hmax.2 hmap
      obtain ⟨pl', hshows', hsizes', hsum', hextends⟩ := ih rest.length
        (by rw [List.length_append] at hlength; omega) (fun e he => hentries e (.inr he)) hrest rfl
      refine ⟨_, hshows.append ((Plot.shows_items o [_]).append hshows'), ?_, ?_,
        fun W env hknows ps st h => ?_⟩
      · simp only [Plot.mapOperands_append, hsizes, List.mem_append, List.mem_singleton]
        rintro k (rfl | hk | hk)
        · exact hmax.2
        · cases hk
        · exact hsizes' k hk
      · rw [Plot.mapOperands_append, Plot.mapOperands_append, hsizes, List.sum_append,
          List.sum_append, hsum', ← hlength, List.length_append]
        simp [Plot.mapOperands]
      · have hupdate := W.does_dictUpdate env (W.insertAll [] ps)
          (W.insertAll [] (W.pairs h first)) st (h ++ Expr.notes (inTurn first))
        rw [World.insertAll_insertAll, ← World.insertAll_append] at hupdate
        have hnext := hextends W env hknows.right.tail (ps ++ W.pairs h first) st
          (h ++ Expr.notes (inTurn first))
        rw [List.append_assoc, ← World.pairs_append, List.append_assoc, ← Expr.notes_append,
          ← inTurn_append] at hnext
        exact (hpushes W env hknows.left _ h).append ((Plot.Makes.emit hupdate).append hnext)

end

/-- Dict displays build the map of their entries. The code of a dict display of any number of keys
and as many values, wherever it stands, evaluates keys and values once each and in turn, except that
constant keys need not be evaluated. It leaves one new value, the map that inserting the entries one
after the other gives. Its instructions build maps of no more than `maxMapEntries` entries, which
are all that there are. -/
theorem dict_builds_map {o : Options} {line : UInt32} {keys values : List Expr}
    (hlength : keys.length = values.length) (hkeys : ∀ e ∈ keys, e.Fits (fun _ => True) .load)
    (hvalues : ∀ e ∈ values, e.Fits (fun _ => True) .load) {σ σ' : Session}
    (hlower : (Expr.dict line keys values).lower o.filename .push σ = .ok () σ') :
    ∃ pl : Plot, (pl.Realizes o σ.draft σ'.draft (fun _ => True) fun W a =>
        (.value (W.map (W.insertAll [] (W.pairs a.2 (keys.zip values)))) :: a.1,
          a.2 ++ Expr.notes (inTurn (keys.zip values)))) ∧
      (∀ k ∈ pl.mapOperands, k ≤ maxMapEntries) ∧ pl.mapOperands.sum = keys.length := by
  obtain ⟨-, log, hemits, hruns⟩ := (Expr.lowers o _ σ.draft .push).ok (.refl _) hlower
  have hw := hruns.writes
  have hfaithful := hemits.faithful rfl
  obtain ⟨_, rfl, hsteps⟩ := hemits.of_task
  obtain ⟨_, _, _, rfl, hmap, hextend⟩ := hsteps.of_run
  have hentries : ∀ e ∈ inTurn (keys.zip values), e.Fits (fun _ => True) .load := by
    intro e he
    obtain ⟨p, hp, he⟩ := List.mem_flatMap.mp he
    obtain ⟨hkey, hvalue⟩ := List.of_mem_zip hp
    simp only [List.mem_cons, List.not_mem_nil, or_false] at he
    rcases he with rfl | rfl
    · exact hkeys _ hkey
    · exact hvalues _ hvalue
  have hcount : (keys.zip values).length = keys.length := by
    rw [List.length_zip, hlength, Nat.min_self]
  rw [← hcount]
  have hsplit := List.take_append_drop maxMapEntries (keys.zip values)
  have hmax : ((keys.zip values).take maxMapEntries).length ≤ maxMapEntries :=
    List.length_take_le _ _
  generalize (keys.zip values).take maxMapEntries = first at hmap hsplit hmax
  generalize (keys.zip values).drop maxMapEntries = rest at hextend hsplit
  rw [← hsplit] at hentries ⊢
  simp only [inTurn_append, List.mem_append] at hentries
  obtain ⟨pl, hshows, hsizes, hpushes⟩ :=
    exists_plot_map (fun e he => hentries e (.inl he)) hmax hmap
  obtain ⟨pl', hshows', hsizes', hsum, hextends⟩ :=
    exists_plot_extendMap (fun e he => hentries e (.inr he)) hextend
  obtain ⟨hscript, htakes⟩ := hshows.append hshows'
  refine ⟨pl ++ pl', Plot.realizes (hscript ▸ hw) htakes (hscript ▸ hfaithful) ?_, ?_, ?_⟩
  · intro V W env hknows _ a
    have hnext := hextends W env (hscript ▸ hknows).right (W.pairs a.2 first) a.1
      (a.2 ++ Expr.notes (inTurn first))
    rw [← World.pairs_append, List.append_assoc, ← Expr.notes_append, ← inTurn_append] at hnext
    exact (hpushes W env (hscript ▸ hknows).left a.1 a.2).append hnext
  · simp only [Plot.mapOperands_append, hsizes, List.mem_append, List.mem_singleton]
    rintro k (rfl | hk)
    · exact hmax
    · exact hsizes' k hk
  · rw [Plot.mapOperands_append, hsizes, List.sum_append, hsum, List.sum_singleton,
      List.length_append]

/-- The keys of `{1: a, 2: b, 1: c}`. -/
def repeatedKeys : List Expr := [.constant 1 (.int 1), .constant 1 (.int 2), .constant 1 (.int 1)]

/-- Its values. -/
def threeValues : List Expr := [.name 1 "a" .load, .name 1 "b" .load, .name 1 "c" .load]

theorem repeatedKeys_build : ∃ σ', repeatedKeys.length = threeValues.length ∧
    (∀ e ∈ repeatedKeys, e.Fits (fun _ => True) .load) ∧
    (∀ e ∈ threeValues, e.Fits (fun _ => True) .load) ∧
    (Expr.dict 1 repeatedKeys threeValues).lower "<string>" .push ⟨.ofModule .module, 1⟩ =
      .ok () σ' ∧
    ∃ pl : Plot, (pl.Realizes {} (.ofModule .module) σ'.draft (fun _ => True)
        fun W a => (.value (W.map (W.insertAll []
          (W.pairs a.2 (repeatedKeys.zip threeValues)))) :: a.1,
            a.2 ++ Expr.notes (inTurn (repeatedKeys.zip threeValues)))) ∧
      (∀ k ∈ pl.mapOperands, k ≤ maxMapEntries) ∧ pl.mapOperands.sum = repeatedKeys.length := by
  have hlength : repeatedKeys.length = threeValues.length := rfl
  have hkeys : ∀ e ∈ repeatedKeys, e.Fits (fun _ => True) .load := by
    simp only [repeatedKeys, List.forall_mem_cons]
    exact ⟨.constant fun _ _ => trivial, .constant fun _ _ => trivial,
      .constant fun _ _ => trivial, nofun⟩
  have hvalues : ∀ e ∈ threeValues, e.Fits (fun _ => True) .load := by
    simp only [threeValues, List.forall_mem_cons]
    exact ⟨.name, .name, .name, nofun⟩
  have hok : ((Expr.dict 1 repeatedKeys threeValues).lower "<string>" .push).succeeds
      ⟨.ofModule .module, 1⟩ = true := by
    decide +kernel
  obtain ⟨σ', hlower⟩ := Build.of_succeeds hok
  exact ⟨σ', hlength, hkeys, hvalues, hlower,
    dict_builds_map (o := {}) hlength hkeys hvalues hlower⟩

/-- The key that is there twice keeps its first place and has its last value. -/
example : World.small.insertAll [] [(.constant [1], .bool true), (.constant [2], .unit),
    (.constant [1], .bool false)] = [(.constant [1], .bool false), (.constant [2], .unit)] := rfl

end Wordcode

import Litmus.Proofs.Observation

/-!
# What must have run before

A schedule puts the instructions of all threads into one line, so each of them has its time
(`Schedule.time`). Two kinds of facts say which of two instructions has the earlier one.

* Inside a thread, whatever has to wait runs later (`Program.Legal.time_lt`). In every setting this
  concerns all that stands behind a load, and a store behind anything.
* Between threads, a value has to be stored before it is seen. If only one store writes a value, and
  a load of another thread sees it, the store ran before the load (`Program.Legal.time_lt_of_seen`).
  If no store writes zero, and a load sees zero, it ran before all stores to its variable
  (`Program.Legal.time_le_of_seen_zero`).

The second kind does not depend on the setting either: what a load takes from a pending store comes
from its own thread, and reading around a pending store is reading memory. An outcome is impossible
in every setting if it would give facts that run in a circle. Two such outcomes are known by name:
message passing (`Program.explore_messagePassing`), where the flag arrives before the data, and load
buffering (`Program.explore_loadBuffering`), where each of two loads sees a store behind the other.
-/

namespace Litmus

/-! ### Times -/

/-- When a position runs: the number of moves that are made before. Positions that do not run come
after all that do. -/
def Schedule.time (σ : Schedule) (q : Position) : ℕ := σ.order.idxOf q

/-- What runs before a move has an earlier time. -/
theorem Schedule.time_lt_iff {σ τ : Schedule} {m : Move} {r : Position}
    (h : m.position ∉ σ.order) :
    Schedule.time (σ ++ m :: τ) r < Schedule.time (σ ++ m :: τ) m.position ↔ r ∈ σ.order := by
  have hlast : Schedule.time (σ ++ m :: τ) m.position = σ.order.length := by
    rw [time, order_append, List.idxOf_append, if_neg h, order_cons, List.idxOf_cons_self,
      Nat.zero_add]
  rw [hlast, time, order_append, List.idxOf_append]
  split
  · rename_i hr
    exact iff_of_true (List.idxOf_lt_length_of_mem hr) hr
  · rename_i hr
    exact iff_of_false (by omega) hr

namespace Program

variable {p : Program} {s : Setting} {σ : Schedule} {q r : Position} {t i u j : ℕ} {x : String}
  {v : Int}

/-- **Whatever has to wait runs later.** -/
theorem Legal.time_lt (h : p.Legal s σ) (hr : r ∈ p.positions) (hq : q ∈ p.positions)
    (hpre : p.precedes s.model r q = true) : σ.time r < σ.time q := by
  obtain ⟨before, src, after, rfl, -, hm, -⟩ := h.exists_moment hq
  have hready := ready_iff.1 (mem_moves.1 hm).2.1
  exact (Schedule.time_lt_iff hready.1).2 (hready.2 r hr hpre)

/-- All that stands behind a load runs after it. -/
theorem Legal.time_lt_of_load (h : p.Legal s σ) (hload : p.get? ⟨t, i⟩ = some (.load x))
    (hq : (⟨t, j⟩ : Position) ∈ p.positions) (hij : i < j) : σ.time ⟨t, i⟩ < σ.time ⟨t, j⟩ :=
  h.time_lt (mem_positions_of_get?_natCast hload) hq
    (precedes_of_load s.model hload hq rfl (Int.ofNat_lt.2 hij))

/-- A store runs after all that stands before it. -/
theorem Legal.time_lt_of_store (h : p.Legal s σ) (hstore : p.get? ⟨t, j⟩ = some (.store x v))
    (hij : i < j) : σ.time ⟨t, i⟩ < σ.time ⟨t, j⟩ := by
  have hq : (⟨t, j⟩ : Position) ∈ p.positions := mem_positions_of_get?_natCast hstore
  have hr : (⟨t, i⟩ : Position) ∈ p.positions := mem_positions_of_lt hq hij
  exact h.time_lt hr hq (precedes_of_store s.model hstore hr rfl (Int.ofNat_lt.2 hij))

/-! ### Where a value comes from -/

/-- **What a load sees was stored by its own thread or before it ran**, or it is zero and nothing
was stored before. -/
theorem Legal.seen_cases (h : p.Legal s σ) (hget : p.get? ⟨t, i⟩ = some (.load x)) :
    (∃ q ∈ p.positions, p.get? q = some (.store x ((p.imageAfter σ).seen ⟨t, i⟩)) ∧
      (q.thread = t ∨ σ.time q < σ.time ⟨t, i⟩)) ∨
      (p.imageAfter σ).seen ⟨t, i⟩ = 0 ∧
        ∀ q, σ.time q < σ.time ⟨t, i⟩ → p.storedAt x q = none := by
  obtain ⟨before, src, after, rfl, hadm, hm, hafter⟩ :=
    h.exists_moment (mem_positions_of_get?_natCast hget)
  have hsrc := (mem_moves.1 hm).2.2
  have hnot := (ready_iff.1 (mem_moves.1 hm).2.1).1
  have htime (q : Position) := Schedule.time_lt_iff (τ := after) (r := q) hnot
  rw [seen_imageAfter_append hget src hafter]
  rcases source_of_load hget hsrc with rfl | rfl
  · -- what memory holds has run, and so before the load
    rw [valueOf_memory hget]
    rcases hadm.memory_cases x with ⟨hzero, hnone⟩ | ⟨u, j, ⟨hrun, hstore⟩, -⟩
    · exact Or.inr ⟨hzero, fun q hq ↦ hnone q ((htime q).1 hq)⟩
    · exact Or.inl ⟨⟨u, j⟩, mem_positions_of_storedAt hstore, storedAt_eq_some.1 hstore,
        Or.inr ((htime _).2 hrun)⟩
  · -- a pending store need not have run, but it is one of the same thread
    rw [valueOf_forwarded hget]
    obtain ⟨j, -, hstore⟩ := mem_ownValues.1 (forwarded_mem_ownValues hget hsrc).2
    exact Or.inl ⟨⟨t, j⟩, mem_positions_of_storedAt hstore, storedAt_eq_some.1 hstore, Or.inl rfl⟩

/-- The store at a position is the only one of the program that writes the value to the variable. -/
structure IsOnlyStore (p : Program) (x : String) (v : Int) (q : Position) : Prop where
  /-- The store. -/
  store : p.get? q = some (.store x v)
  /-- There is no other. -/
  only : ∀ r ∈ p.positions, p.get? r = some (.store x v) → r = q

/-- **A value that only one store writes is seen by other threads only after that store ran.** -/
theorem Legal.time_lt_of_seen (h : p.Legal s σ) (hget : p.get? ⟨t, i⟩ = some (.load x))
    (honly : p.IsOnlyStore x v ⟨u, j⟩) (hut : u ≠ t) (hv : v ≠ 0)
    (hseen : (p.imageAfter σ).seen ⟨t, i⟩ = v) : σ.time ⟨u, j⟩ < σ.time ⟨t, i⟩ := by
  rcases h.seen_cases hget with ⟨q, hq, hstore, horigin⟩ | ⟨hzero, -⟩
  · rw [hseen] at hstore
    obtain rfl := honly.only q hq hstore
    exact horigin.resolve_left fun ht ↦ hut (Int.natCast_inj.1 ht)
  · exact absurd (hseen.symm.trans hzero) hv

/-- **Where no store writes zero, a load that sees zero runs before all stores to its variable.** -/
theorem Legal.time_le_of_seen_zero (h : p.Legal s σ) (hget : p.get? ⟨t, i⟩ = some (.load x))
    (hnone : ∀ r ∈ p.positions, p.get? r ≠ some (.store x 0))
    (hseen : (p.imageAfter σ).seen ⟨t, i⟩ = 0) (hstore : p.get? q = some (.store x v)) :
    σ.time ⟨t, i⟩ ≤ σ.time q := by
  rcases h.seen_cases hget with ⟨r, hr, hzero, -⟩ | ⟨-, hbefore⟩
  · rw [hseen] at hzero
    exact absurd hzero (hnone r hr)
  · by_contra hlt
    exact storedAt_eq_none.1 (hbefore q (Nat.lt_of_not_le hlt)) v hstore

/-! ### Outcomes that would run in a circle -/

/-- **Message passing holds in every setting.** Thread `a` stores data in `x` and then a flag in
`y`, and thread `b` loads `y` and then `x`. If the flag is not zero and written nowhere else, and
zero is never written to `x`, no outcome has the flag seen and the data not. -/
theorem explore_messagePassing (p : Program) (s : Setting) (limits : Limits) {a i j b k l : ℕ}
    {x y : String} {v w : Int} (hab : a ≠ b) (hij : i < j) (hkl : k < l)
    (hdata : p.get? ⟨a, i⟩ = some (.store x v)) (hflag : p.IsOnlyStore y w ⟨a, j⟩)
    (hy : p.get? ⟨b, k⟩ = some (.load y)) (hx : p.get? ⟨b, l⟩ = some (.load x)) (hw : w ≠ 0)
    (hnone : ∀ q ∈ p.positions, p.get? q ≠ some (.store x 0)) :
    (p.check limits = .ok () → p.storesFit = true → ∃ f, p.explore s limits = .ok f) ∧
      ∀ f, p.explore s limits = .ok f → ∀ o ∈ f.outcomes,
        ¬(⟨⟨b, k⟩, y, w⟩ ∈ o.loads ∧ ⟨⟨b, l⟩, x, 0⟩ ∈ o.loads) := by
  refine ⟨fun hc hv ↦ ⟨_, explore_of_storesFit hc hv⟩, fun f hf o ho ⟨hseen, hzero⟩ ↦ ?_⟩
  obtain ⟨σ, hσ, rfl⟩ := exists_legal_of_explore hf ho
  have hstored : σ.time ⟨a, i⟩ < σ.time ⟨a, j⟩ := hσ.time_lt_of_store hflag.store hij
  have harrived : σ.time ⟨a, j⟩ < σ.time ⟨b, k⟩ :=
    hσ.time_lt_of_seen hy hflag hab hw ((mem_loads_outcomeOf hy).1 hseen)
  have hloaded : σ.time ⟨b, k⟩ < σ.time ⟨b, l⟩ :=
    hσ.time_lt_of_load hy (mem_positions_of_get?_natCast hx) hkl
  have hmissed : σ.time ⟨b, l⟩ ≤ σ.time ⟨a, i⟩ :=
    hσ.time_le_of_seen_zero hx hnone ((mem_loads_outcomeOf hx).1 hzero) hdata
  -- the data would be stored before it is missed
  omega

/-- The observer has a store of its own to `x`, which may still be pending when it loads `x`. -/
def messagePassing : Program where
  threads := [[.store "x" 1, .store "y" 1], [.store "x" 2, .load "y", .load "x"]]
  flatten_ne_nil := by decide

/-- The message has arrived, but not what was written before it. -/
theorem messagePassing_forbidden :
    messagePassing.IsOnlyStore "y" 1 ⟨0, 1⟩ ∧
      (∀ q ∈ messagePassing.positions, messagePassing.get? q ≠ some (.store "x" 0)) ∧
      ∃ f, messagePassing.explore { model := .tso, readAround := true } .standard = .ok f ∧
        ∀ o ∈ f.outcomes, ¬(⟨⟨1, 1⟩, "y", 1⟩ ∈ o.loads ∧ ⟨⟨1, 2⟩, "x", 0⟩ ∈ o.loads) := by
  have honly : messagePassing.IsOnlyStore "y" 1 ⟨0, 1⟩ := ⟨by decide, by decide⟩
  have hnone : ∀ q ∈ messagePassing.positions, messagePassing.get? q ≠ some (.store "x" 0) := by
    decide
  obtain ⟨hreturns, hforbidden⟩ := explore_messagePassing messagePassing
    { model := .tso, readAround := true } .standard (a := 0) (i := 0) (j := 1) (b := 1) (k := 1)
    (l := 2) (v := 1) (by decide) (by decide) (by decide) (by decide) honly (by decide) (by decide)
    (by decide) hnone
  obtain ⟨f, hf⟩ := hreturns rfl (by decide)
  exact ⟨honly, hnone, f, hf, hforbidden f hf⟩

/-- **Load buffering is forbidden in every setting.** Thread `a` loads `x` and then stores `w` in
`y`, and thread `b` loads `y` and then stores `v` in `x`. If neither value is zero or written
anywhere else, no outcome has both loads see the store of the other thread. -/
theorem explore_loadBuffering (p : Program) (s : Setting) (limits : Limits) {a i j b k l : ℕ}
    {x y : String} {v w : Int} (hab : a ≠ b) (hij : i < j) (hkl : k < l)
    (hx : p.get? ⟨a, i⟩ = some (.load x)) (hw : p.IsOnlyStore y w ⟨a, j⟩) (hw₀ : w ≠ 0)
    (hy : p.get? ⟨b, k⟩ = some (.load y)) (hv : p.IsOnlyStore x v ⟨b, l⟩) (hv₀ : v ≠ 0) :
    (p.check limits = .ok () → p.storesFit = true → ∃ f, p.explore s limits = .ok f) ∧
      ∀ f, p.explore s limits = .ok f → ∀ o ∈ f.outcomes,
        ¬(⟨⟨a, i⟩, x, v⟩ ∈ o.loads ∧ ⟨⟨b, k⟩, y, w⟩ ∈ o.loads) := by
  refine ⟨fun hc hv ↦ ⟨_, explore_of_storesFit hc hv⟩, fun f hf o ho ⟨hseen, hseen'⟩ ↦ ?_⟩
  obtain ⟨σ, hσ, rfl⟩ := exists_legal_of_explore hf ho
  have hfirst : σ.time ⟨b, l⟩ < σ.time ⟨a, i⟩ :=
    hσ.time_lt_of_seen hx hv hab.symm hv₀ ((mem_loads_outcomeOf hx).1 hseen)
  have hthread : σ.time ⟨a, i⟩ < σ.time ⟨a, j⟩ := hσ.time_lt_of_store hw.store hij
  have hsecond : σ.time ⟨a, j⟩ < σ.time ⟨b, k⟩ :=
    hσ.time_lt_of_seen hy hw hab hw₀ ((mem_loads_outcomeOf hy).1 hseen')
  have hthread' : σ.time ⟨b, k⟩ < σ.time ⟨b, l⟩ := hσ.time_lt_of_store hv.store hkl
  omega

/-- Each thread stores behind a load of what the other stores. -/
def loadBuffering : Program where
  threads := [[.load "x", .store "y" 2], [.load "y", .store "x" 1]]
  flatten_ne_nil := by decide

/-- Each thread sees what the other one writes only afterwards. -/
theorem loadBuffering_forbidden :
    loadBuffering.IsOnlyStore "y" 2 ⟨0, 1⟩ ∧ loadBuffering.IsOnlyStore "x" 1 ⟨1, 1⟩ ∧
      ∃ f, loadBuffering.explore { model := .tso, readAround := true } .standard = .ok f ∧
        ∀ o ∈ f.outcomes, ¬(⟨⟨0, 0⟩, "x", 1⟩ ∈ o.loads ∧ ⟨⟨1, 0⟩, "y", 2⟩ ∈ o.loads) := by
  have hy : loadBuffering.IsOnlyStore "y" 2 ⟨0, 1⟩ := ⟨by decide, by decide⟩
  have hx : loadBuffering.IsOnlyStore "x" 1 ⟨1, 1⟩ := ⟨by decide, by decide⟩
  obtain ⟨hreturns, hforbidden⟩ := explore_loadBuffering loadBuffering
    { model := .tso, readAround := true } .standard (a := 0) (i := 0) (j := 1) (b := 1) (k := 0)
    (l := 1) (by decide) (by decide) (by decide) (by decide) hy (by decide) (by decide) hx
    (by decide)
  obtain ⟨f, hf⟩ := hreturns rfl (by decide)
  exact ⟨hy, hx, f, hf, hforbidden f hf⟩

end Program

end Litmus

import Litmus.Proofs.Inclusion
import Litmus.Proofs.LastStore

/-!
# What a load can see

A load sees the value of an earlier store of its own thread to its variable, the value of a store of
another thread, or zero. It never sees a later store of its own thread, because in every setting the
instructions behind a load wait for it. Which of the others it can see depends on the setting
(`Program.observable`):

* under IBM370 all earlier stores of its own thread have run, so it sees the nearest of them, or
  something that another thread has written over it;
* under TSO a part of them may have run, so it sees any of them; but not zero, since a load that has
  overtaken all of them takes the value of the nearest;
* if loads may read around their own stores, it can also see zero.

Every one of these values is seen in some execution. By `Program.exists_legal_seen_iff` it is enough
to bring the program to a point at which the load may take the value, and these points are reached
by one or two bursts (`Program.Admits.exists_burst`).
-/

namespace Litmus.Program

variable {p : Program} {s : Setting} {σ τ : Schedule} {done : List Position} {q r : Position}
  {t i j k : ℕ} {x : String} {v : Int}

/-! ### The values -/

/-- The values that thread `t` stores in the variable `x` before place `i`, in program order. -/
def ownValues (p : Program) (t i : ℕ) (x : String) : List Int :=
  ((p.threads[t]?.getD []).take i).filterMap (·.storedIn x)

/-- The values that the other threads than `t` store in the variable `x`. -/
def otherValues (p : Program) (t : ℕ) (x : String) : List Int :=
  (p.threads.eraseIdx t).flatten.filterMap (·.storedIn x)

/-- The values that a load of the variable `x` at place `i` of thread `t` can see. -/
def observable (p : Program) (s : Setting) (t i : ℕ) (x : String) : List Int :=
  p.otherValues t x ++
    match s.model, s.readAround with
    | .ibm370, _ => [(p.ownValues t i x).getLast?.getD 0]
    | .tso, false => if p.ownValues t i x = [] then [0] else p.ownValues t i x
    | .tso, true => 0 :: p.ownValues t i x

/-- What a load can observe comes from another thread, from its own, or is the zero of the
beginning. The models differ in the last two. -/
theorem mem_observable : v ∈ p.observable s t i x ↔ v ∈ p.otherValues t x ∨
    (s.model = .ibm370 ∧ v = (p.ownValues t i x).getLast?.getD 0) ∨
    (s.model = .tso ∧
      (v ∈ p.ownValues t i x ∨ v = 0 ∧ (p.ownValues t i x = [] ∨ s.readAround = true))) := by
  rw [observable, List.mem_append]
  refine or_congr_right ?_
  obtain ⟨md, around⟩ := s
  cases md with
  | ibm370 => simp
  | tso =>
    cases around with
    | true => simp [or_comm]
    | false =>
      by_cases hown : p.ownValues t i x = []
      · simp [hown]
      · simp [hown]

/-- Whatever the setting, there is nothing else. -/
theorem mem_of_mem_observable (h : v ∈ p.observable s t i x) :
    v ∈ p.otherValues t x ∨ v ∈ p.ownValues t i x ∨
      v = 0 ∧ (p.ownValues t i x = [] ∨ s.model = .tso ∧ s.readAround = true) := by
  rcases mem_observable.1 h with hother | ⟨-, rfl⟩ | ⟨hs, hown | ⟨rfl, hown | haround⟩⟩
  · exact Or.inl hother
  · cases hlast : (p.ownValues t i x).getLast? with
    | none => exact Or.inr (Or.inr ⟨rfl, Or.inl (List.getLast?_eq_none_iff.1 hlast)⟩)
    | some w => exact Or.inr (Or.inl (List.mem_of_getLast? hlast))
  · exact Or.inr (Or.inl hown)
  · exact Or.inr (Or.inr ⟨rfl, Or.inl hown⟩)
  · exact Or.inr (Or.inr ⟨rfl, Or.inr ⟨hs, haround⟩⟩)

theorem getElem?_take_bind {th : List Instruction} :
    (th.take i)[j]?.bind (·.storedIn x) =
      if j < i then th[j]?.bind (·.storedIn x) else none := by
  rw [List.getElem?_take]
  split
  · rfl
  · rfl

/-- The values of the own thread are those that are stored before the load. -/
theorem mem_ownValues : v ∈ p.ownValues t i x ↔ ∃ j < i, p.storedAt x ⟨t, j⟩ = some v := by
  rw [ownValues, List.mem_filterMap]
  constructor
  · rintro ⟨a, ha, hv⟩
    obtain ⟨j, hj⟩ := List.mem_iff_getElem?.1 ha
    rw [List.getElem?_take, Option.ite_none_right_eq_some] at hj
    refine ⟨j, hj.1, ?_⟩
    rw [storedAt_natCast, hj.2, Option.bind_some, hv]
  · rintro ⟨j, hj, hv⟩
    rw [storedAt_natCast] at hv
    obtain ⟨a, ha, hv⟩ := Option.bind_eq_some_iff.1 hv
    refine ⟨a, List.mem_iff_getElem?.2 ⟨j, ?_⟩, hv⟩
    rw [List.getElem?_take, if_pos hj, ha]

theorem ownValues_eq_nil : p.ownValues t i x = [] ↔ ∀ j < i, p.storedAt x ⟨t, j⟩ = none := by
  rw [List.eq_nil_iff_forall_not_mem]
  simp only [mem_ownValues, not_exists, not_and, Option.eq_none_iff_forall_ne_some]
  exact ⟨fun h j hj v ↦ h v j hj, fun h v j hj ↦ h j hj v⟩

/-- The last of these values is that of the nearest store. -/
theorem getLast?_ownValues : (p.ownValues t i x).getLast? = some v ↔
    ∃ j < i, p.storedAt x ⟨t, j⟩ = some v ∧
      ∀ k, j < k → k < i → p.storedAt x ⟨t, k⟩ = none := by
  rw [ownValues, getLast?_filterMap_eq_some_iff_getElem?]
  simp only [getElem?_take_bind, ← storedAt_natCast]
  constructor
  · rintro ⟨j, hj, hnone⟩
    rw [Option.ite_none_right_eq_some] at hj
    refine ⟨j, hj.1, hj.2, fun k hjk hk ↦ ?_⟩
    have hk' := hnone k hjk
    rwa [if_pos hk] at hk'
  · rintro ⟨j, hj, hv, hnone⟩
    refine ⟨j, by rw [if_pos hj, hv], fun k hjk ↦ ?_⟩
    split
    · exact hnone k hjk ‹_›
    · rfl

/-- The values of the other threads are all those that are stored there, wherever. -/
theorem mem_otherValues :
    v ∈ p.otherValues t x ↔ ∃ u j : ℕ, u ≠ t ∧ p.storedAt x ⟨u, j⟩ = some v := by
  rw [otherValues, List.mem_filterMap]
  constructor
  · rintro ⟨a, ha, hv⟩
    obtain ⟨th, hth, hath⟩ := List.mem_flatten.1 ha
    obtain ⟨u, hu, hget⟩ := List.mem_eraseIdx_iff_getElem?.1 hth
    obtain ⟨j, hj⟩ := List.mem_iff_getElem?.1 hath
    refine ⟨u, j, hu, ?_⟩
    rw [storedAt_natCast, hget, Option.getD_some, hj, Option.bind_some, hv]
  · rintro ⟨u, j, hu, hv⟩
    obtain ⟨th, hget, hj⟩ := Option.bind_eq_some_iff.1
      ((p.get?_natCast u j).symm.trans (storedAt_eq_some.1 hv))
    refine ⟨_, List.mem_flatten.2 ⟨th, ?_, List.mem_of_getElem? hj⟩,
      Instruction.storedIn_eq_some.2 rfl⟩
    exact List.mem_eraseIdx_iff_getElem?.2 ⟨u, hu, hget⟩

/-! ### The moment of a load -/

/-- What a load has seen stays until it runs. -/
theorem seen_foldl_of_not_mem (g : Image) (h : q ∉ σ.order) :
    (σ.foldl p.apply g).seen q = g.seen q := by
  induction σ generalizing g with
  | nil => rfl
  | cons m σ ih =>
    rw [Schedule.order_cons, List.mem_cons, not_or] at h
    rw [List.foldl_cons, ih _ h.2, apply]
    split
    · rfl
    · rfl
    · exact Function.update_of_ne h.1 _ _

/-- What a load sees in the end is what it took when it ran. -/
theorem seen_imageAfter_append (hget : p.get? q = some (.load x)) (src : Option Source)
    (h : q ∉ τ.order) :
    (p.imageAfter (σ ++ ⟨q, src⟩ :: τ)).seen q = p.valueOf (p.imageAfter σ) ⟨q, src⟩ := by
  rw [imageAfter, List.foldl_append, List.foldl_cons, seen_foldl_of_not_mem _ h,
    apply_load (m := ⟨q, src⟩) hget]
  exact Function.update_self _ _ _

/-- Every position of the program has its moment in a complete schedule. -/
theorem Legal.exists_moment (h : p.Legal s σ) (hq : q ∈ p.positions) :
    ∃ before src after, σ = before ++ ⟨q, src⟩ :: after ∧ p.Admits s before ∧
      ⟨q, src⟩ ∈ p.moves s before.order ∧ q ∉ Schedule.order after := by
  have hrun : q ∈ σ.order := h.perm.symm.subset hq
  obtain ⟨⟨_, src⟩, hm, rfl⟩ := List.mem_map.1 hrun
  obtain ⟨before, after, rfl⟩ := List.append_of_mem hm
  have hnodup := h.admits.nodup
  rw [Schedule.order_append, Schedule.order_cons, List.nodup_append, List.nodup_cons] at hnodup
  have hadm : p.Admits s (before ++ [⟨_, src⟩]) :=
    Legal.admits_prefix (τ := after) (by rwa [List.append_assoc])
  obtain ⟨hbefore, hmove⟩ := admits_snoc.1 hadm
  exact ⟨before, src, after, rfl, hbefore, hmove, hnodup.2.1.1⟩

/-- **A load sees a value in some execution if and only if some point can be reached at which it may
take the value.** -/
theorem exists_legal_seen_iff (hget : p.get? ⟨t, i⟩ = some (.load x)) :
    (∃ σ, p.Legal s σ ∧ (p.imageAfter σ).seen ⟨t, i⟩ = v) ↔
      ∃ σ src, p.Admits s σ ∧ ⟨⟨t, i⟩, src⟩ ∈ p.moves s σ.order ∧
        p.valueOf (p.imageAfter σ) ⟨⟨t, i⟩, src⟩ = v := by
  constructor
  · rintro ⟨ρ, hρ, rfl⟩
    obtain ⟨σ, src, τ, rfl, hσ, hmove, hnot⟩ :=
      hρ.exists_moment (mem_positions_of_get?_natCast hget)
    exact ⟨σ, src, hσ, hmove, (seen_imageAfter_append hget src hnot).symm⟩
  · rintro ⟨σ, src, hσ, hm, rfl⟩
    obtain ⟨τ, hτ⟩ := (hσ.snoc hm).exists_legal
    have hnodup := hτ.admits.nodup
    rw [List.append_assoc, Schedule.order_append, List.singleton_append, Schedule.order_cons,
      List.nodup_append, List.nodup_cons] at hnodup
    refine ⟨_, hτ, ?_⟩
    rw [List.append_assoc, List.singleton_append]
    exact seen_imageAfter_append hget src hnodup.2.1.1

/-! ### Where a load may read -/

/-- The stores from which a load could forward are those of the values of its own thread. -/
theorem mem_ownStores_iff (hget : p.get? ⟨t, i⟩ = some (.load x)) :
    q ∈ p.ownStores ⟨t, i⟩ ↔ ∃ j < i, ∃ v, q = ⟨t, j⟩ ∧ p.storedAt x ⟨t, j⟩ = some v := by
  simp only [mem_ownStores_natCast hget, storedAt_eq_some]

theorem ownStores_eq_nil (hget : p.get? ⟨t, i⟩ = some (.load x)) :
    p.ownStores ⟨t, i⟩ = [] ↔ p.ownValues t i x = [] := by
  rw [ownValues_eq_nil, List.eq_nil_iff_forall_not_mem]
  simp only [mem_ownStores_iff hget, Option.eq_none_iff_forall_ne_some]
  constructor
  · intro h j hj v hv
    exact h ⟨t, j⟩ ⟨j, hj, v, rfl, hv⟩
  · rintro h _ ⟨j, hj, v, rfl, hv⟩
    exact h j hj v hv

/-- **A load may read memory unless it has overtaken stores of its own thread to its variable under
TSO.** If it has overtaken all of them, it needs the permission to read around them. -/
theorem memory_mem_sourcesAfter (hget : p.get? ⟨t, i⟩ = some (.load x)) :
    some .memory ∈ p.sourcesAfter s done ⟨t, i⟩ ↔
      s.model = .ibm370 ∨ s.readAround = true ∨ p.ownValues t i x = [] ∨
        ∃ j < i, ∃ v, p.storedAt x ⟨t, j⟩ = some v ∧ ⟨t, j⟩ ∈ done := by
  have hrun : (∃ r ∈ p.ownStores ⟨t, i⟩, r ∈ done) ↔
      ∃ j < i, ∃ v, p.storedAt x ⟨t, j⟩ = some v ∧ ⟨t, j⟩ ∈ done := by
    simp only [mem_ownStores_iff hget]
    constructor
    · rintro ⟨_, ⟨j, hj, v, rfl, hv⟩, hdone⟩
      exact ⟨j, hj, v, hv, hdone⟩
    · rintro ⟨j, hj, v, hv, hdone⟩
      exact ⟨_, ⟨j, hj, v, rfl, hv⟩, hdone⟩
  rw [← hrun, ← ownStores_eq_nil hget]
  obtain ⟨md, around⟩ := s
  simp only [sourcesAfter, hget]
  cases md with
  | ibm370 => simp
  | tso =>
    by_cases hopen : p.ownStores ⟨t, i⟩ = [] ∨ ∃ r ∈ p.ownStores ⟨t, i⟩, r ∈ done
    · simp only [if_pos hopen]
      simp [hopen]
    · simp only [if_neg hopen]
      cases around with
      | true => simp
      | false => simpa using hopen

/-- A value is forwarded only under TSO, and from an earlier store of the same thread. -/
theorem forwarded_mem_ownValues (hget : p.get? ⟨t, i⟩ = some (.load x))
    (hsrc : some .forwarded ∈ p.sourcesAfter s done ⟨t, i⟩) :
    s.model = .tso ∧ p.forwarded ⟨t, i⟩ ∈ p.ownValues t i x := by
  obtain ⟨md, around⟩ := s
  simp only [sourcesAfter, hget] at hsrc
  cases md with
  | ibm370 => simp at hsrc
  | tso =>
    refine ⟨rfl, ?_⟩
    by_cases hopen : p.ownStores ⟨t, i⟩ = [] ∨ ∃ r ∈ p.ownStores ⟨t, i⟩, r ∈ done
    · simp [if_pos hopen] at hsrc
    · have hne : p.ownStores ⟨t, i⟩ ≠ [] := fun hnil ↦ hopen (Or.inl hnil)
      obtain ⟨j, hj, w, hlast, hw⟩ := (mem_ownStores_iff hget).1 (List.getLast_mem hne)
      have hforwarded : p.forwarded ⟨t, i⟩ = w :=
        forwarded_of_getLast? (List.getLast?_eq_some_getLast hne)
          (hlast ▸ storedAt_eq_some.1 hw)
      exact mem_ownValues.2 ⟨j, hj, hforwarded ▸ hw⟩

/-! ### Nothing else is seen -/

/-- What memory holds for a load that has not run: zero, a value of another thread, or one of an
earlier store of its own thread behind which nothing has run that stores another. -/
theorem Admits.memory_before (h : p.Admits s σ) (hget : p.get? ⟨t, i⟩ = some (.load x))
    (hnot : ⟨t, i⟩ ∉ σ.order) :
    ((p.imageAfter σ).memory x = 0 ∧ ∀ q ∈ σ.order, p.storedAt x q = none) ∨
      (p.imageAfter σ).memory x ∈ p.otherValues t x ∨
      ∃ j < i, p.storedAt x ⟨t, j⟩ = some ((p.imageAfter σ).memory x) ∧
        ∀ k, j < k → ⟨t, k⟩ ∈ σ.order → p.storedAt x ⟨t, k⟩ = none := by
  rcases h.memory_cases x with hzero | ⟨u, j, ⟨hrun, hstore⟩, hlast⟩
  · exact Or.inl hzero
  · by_cases hu : u = t
    · subst hu
      refine Or.inr (Or.inr ⟨j, ?_, hstore, hlast⟩)
      by_contra hij
      rcases Nat.lt_or_eq_of_le (Nat.le_of_not_lt hij) with hlt | rfl
      · -- the store waits for the load
        have hpre := precedes_of_load s.model hget (h.subset _ hrun) rfl (Int.ofNat_lt.2 hlt)
        exact hnot (h.mem_of_precedes hrun (mem_positions_of_get?_natCast hget) hpre)
      · exact hnot hrun
    · exact Or.inr (Or.inl (mem_otherValues.2 ⟨u, j, hu, hstore⟩))

/-- Under IBM370 all earlier stores of its own thread to its variable have run when a load runs. -/
theorem mem_of_ready_ibm370 (hget : p.get? ⟨t, i⟩ = some (.load x))
    (hready : p.ready .ibm370 done ⟨t, i⟩ = true) (hj : j < i)
    (hstore : p.storedAt x ⟨t, j⟩ = some v) : ⟨t, j⟩ ∈ done :=
  (ready_iff.1 hready).2 _ (mem_positions_of_storedAt hstore)
    (precedes_of_mem_ownStores ((mem_ownStores_iff hget).2 ⟨j, hj, v, rfl, hstore⟩))

/-- Under IBM370 a load that may run finds in memory the value of the nearest store of its own
thread, zero if there is none, or a value of another thread. -/
theorem Admits.memory_ibm370 (h : p.Admits s σ) (hget : p.get? ⟨t, i⟩ = some (.load x))
    (hready : p.ready .ibm370 σ.order ⟨t, i⟩ = true) :
    (p.imageAfter σ).memory x ∈ p.otherValues t x ∨
      (p.imageAfter σ).memory x = (p.ownValues t i x).getLast?.getD 0 := by
  -- under IBM 370 a load waits for the stores of its thread to its variable
  have hrun : ∀ j < i, p.storedAt x ⟨t, j⟩ ≠ none → ⟨t, j⟩ ∈ σ.order := by
    intro j hj hne
    obtain ⟨w, hw⟩ := Option.ne_none_iff_exists'.1 hne
    exact mem_of_ready_ibm370 hget hready hj hw
  rcases h.memory_before hget (ready_iff.1 hready).1 with
    ⟨hzero, hnone⟩ | hother | ⟨j, hj, hstore, hlast⟩
  · have hown : p.ownValues t i x = [] := by
      refine ownValues_eq_nil.2 fun j hj ↦ ?_
      by_contra hne
      exact hne (hnone _ (hrun j hj hne))
    exact Or.inr (by rw [hzero, hown]; rfl)
  · exact Or.inl hother
  · have hnearest : (p.ownValues t i x).getLast? = some ((p.imageAfter σ).memory x) := by
      refine getLast?_ownValues.2 ⟨j, hj, hstore, fun k hjk hk ↦ ?_⟩
      by_contra hne
      exact hne (hlast k hjk (hrun k hk hne))
    exact Or.inr (by rw [hnearest, Option.getD_some])

/-- **A load sees nothing but its observable values.** -/
theorem Admits.valueOf_mem_observable (h : p.Admits s σ) (hget : p.get? ⟨t, i⟩ = some (.load x))
    {src : Option Source} (hm : ⟨⟨t, i⟩, src⟩ ∈ p.moves s σ.order) :
    p.valueOf (p.imageAfter σ) ⟨⟨t, i⟩, src⟩ ∈ p.observable s t i x := by
  obtain ⟨-, hready, hsrc⟩ := mem_moves.1 hm
  rw [mem_observable]
  rcases source_of_load hget hsrc with rfl | rfl
  · rw [valueOf_memory hget]
    cases hmodel : s.model with
    | ibm370 =>
      rw [hmodel] at hready
      exact (h.memory_ibm370 hget hready).imp_right fun hnear ↦ Or.inl ⟨rfl, hnear⟩
    | tso =>
      rcases h.memory_before hget (ready_iff.1 hready).1 with
        ⟨hzero, hnone⟩ | hother | ⟨j, hj, hstore, -⟩
      · -- memory is still zero, and one of the reasons applies for which it is open to the load
        refine Or.inr (Or.inr ⟨rfl, Or.inr ⟨hzero, ?_⟩⟩)
        rcases (memory_mem_sourcesAfter hget).1 hsrc with
          hibm | haround | hown | ⟨j, -, w, hw, hrun⟩
        · rw [hmodel] at hibm
          cases hibm
        · exact Or.inr haround
        · exact Or.inl hown
        · rw [hnone _ hrun] at hw
          cases hw
      · exact Or.inl hother
      · exact Or.inr (Or.inr ⟨rfl, Or.inl (mem_ownValues.2 ⟨j, hj, hstore⟩)⟩)
  · obtain ⟨hmodel, hown⟩ := forwarded_mem_ownValues hget hsrc
    exact Or.inr (Or.inr ⟨hmodel, Or.inl (by rwa [valueOf_forwarded hget])⟩)

/-! ### Every one is seen -/

/-- What runs of the thread `t` before place `i` if the loads among it overtake the stores from
place `k` on. -/
def overtaking (p : Program) (t i k : ℕ) (q : Position) : Bool :=
  q.thread == t && (q.index < k || q.index < i && !(p.get? q).any (·.isStore))

/-- Everything before place `k` is among it, and between there and place `i` what does not store. -/
theorem overtaking_natCast {u : ℕ} : p.overtaking t i k ⟨u, j⟩ = true ↔
    u = t ∧ (j < k ∨ j < i ∧ (p.get? ⟨u, j⟩).any (·.isStore) = false) := by
  simp [overtaking]

theorem exists_of_overtaking (hq : q ∈ p.positions) (h : p.overtaking t i k q = true) :
    ∃ j : ℕ, q = ⟨t, j⟩ := by
  obtain ⟨u, j, th, rfl, -, -⟩ := mem_positions_iff_exists.1 hq
  obtain ⟨rfl, -⟩ := overtaking_natCast.1 h
  exact ⟨j, rfl⟩

/-- From place `k` on nothing of it stores, so memory holds what was stored last before that place.
-/
theorem storedAt_of_overtaking (h : p.overtaking t i k ⟨t, j⟩ = true) (hj : ¬j < k) :
    p.storedAt x ⟨t, j⟩ = none := by
  rcases (overtaking_natCast.1 h).2 with hlt | ⟨-, hstore⟩
  · exact absurd hlt hj
  · refine storedAt_eq_none.2 fun v hget ↦ ?_
    rw [hget] at hstore
    cases hstore

/-- It has all that a load up to place `i` waits for, since under TSO a load waits for nothing but
loads. -/
theorem overtaking_of_precedes (hs : s.model = .tso ∨ k = i) (hr : r ∈ p.positions) (hj : j ≤ i)
    (hload : (p.get? ⟨t, j⟩).any (·.isStore) = false)
    (hpre : p.precedes s.model r ⟨t, j⟩ = true) : p.overtaking t i k r = true := by
  obtain ⟨ht, hlt, a, b, ha, hb, hord⟩ := precedes_iff.1 hpre
  obtain ⟨u, n, th, rfl, -, -⟩ := mem_positions_iff_exists.1 hr
  have hni : n < i := Nat.lt_of_lt_of_le (Int.ofNat_lt.1 hlt) hj
  refine overtaking_natCast.2 ⟨Int.ofNat_inj.1 ht, ?_⟩
  rcases hs with hs | rfl
  · refine Or.inr ⟨hni, ?_⟩
    rw [hb, Option.any_some] at hload
    rw [ha, Option.any_some]
    cases a with
    | load y => rfl
    | store y v => simp [hs, Model.ordered, Model.storeAtomic, Instruction.isLoad, hload] at hord
  · exact Or.inl hni

/-- This part of a thread can run next under TSO, and in any setting if nothing is overtaken. -/
theorem Admits.exists_overtaking (h : p.Admits s σ) (hs : s.model = .tso ∨ k = i)
    (hnew : ∀ q ∈ σ.order, q.thread ≠ t) :
    ∃ τ : Schedule, τ.order = p.positions.filter (p.overtaking t i k) ∧ p.Admits s (σ ++ τ) := by
  refine h.exists_burst _ (fun q hq ↦ ?_) fun q hq hD r hr hpre ↦ Or.inr ?_
  · simp [overtaking, hnew q hq]
  · obtain ⟨j, rfl⟩ := exists_of_overtaking hq hD
    rcases (overtaking_natCast.1 hD).2 with hlt | ⟨hlt, hload⟩
    · obtain ⟨ht, hlt', -⟩ := precedes_iff.1 hpre
      obtain ⟨u', n, th', rfl, -, -⟩ := mem_positions_iff_exists.1 hr
      exact overtaking_natCast.2
        ⟨Int.ofNat_inj.1 ht, Or.inl (Nat.lt_trans (Int.ofNat_lt.1 hlt') hlt)⟩
    · exact overtaking_of_precedes hs hr hlt.le hload hpre

/-- Memory then holds the value of the nearest store before place `k`. -/
theorem memory_overtaking (h : σ.order = p.positions.filter (p.overtaking t i k)) :
    (p.imageAfter σ).memory x = (p.ownValues t k x).getLast?.getD 0 := by
  cases hlast : (p.ownValues t k x).getLast? with
  | none =>
    have hnone := ownValues_eq_nil.1 (List.getLast?_eq_none_iff.1 hlast)
    refine memory_of_forall_none fun q hq ↦ ?_
    rw [h, List.mem_filter] at hq
    obtain ⟨j, rfl⟩ := exists_of_overtaking hq.1 hq.2
    by_cases hj : j < k
    · exact hnone j hj
    · exact storedAt_of_overtaking hq.2 hj
  | some v =>
    obtain ⟨j, hj, hstore, hnone⟩ := getLast?_ownValues.1 hlast
    have horder : σ.order = [] ++ p.positions.filter (p.overtaking t i k) := h
    refine memory_of_last horder (mem_positions_of_storedAt hstore)
      (overtaking_natCast.2 ⟨rfl, Or.inl hj⟩) (storedAt_eq_some.1 hstore) fun r hr hD hlt ↦ ?_
    obtain ⟨n, rfl⟩ := exists_of_overtaking hr hD
    have hjn : j < n := by simpa [Position.lt_iff] using hlt
    by_cases hn : n < k
    · exact hnone n hjn hn
    · exact storedAt_of_overtaking hD hn

/-- And the load may read it, if it is not to take the value of a store that it has overtaken. -/
theorem memory_mem_moves (hs : s.model = .tso ∨ k = i) (hk : k ≤ i)
    (hget : p.get? ⟨t, i⟩ = some (.load x)) (hnot : ⟨t, i⟩ ∉ done)
    (hdone : ∀ r ∈ p.positions, p.overtaking t i k r = true → r ∈ done)
    (hopen : s.readAround = true ∨ p.ownValues t i x = [] ∨ p.ownValues t k x ≠ []) :
    ⟨⟨t, i⟩, some .memory⟩ ∈ p.moves s done := by
  refine mem_moves.2 ⟨mem_positions_of_get?_natCast hget,
    ready_iff.2 ⟨hnot, fun r hr hpre ↦ hdone r hr ?_⟩, (memory_mem_sourcesAfter hget).2 ?_⟩
  · exact overtaking_of_precedes hs hr le_rfl (by rw [hget]; rfl) hpre
  · refine Or.inr (hopen.imp_right fun hown ↦ hown.imp_right fun hne ↦ ?_)
    obtain ⟨w, hw⟩ := List.exists_mem_of_ne_nil _ hne
    obtain ⟨j, hj, hstore⟩ := mem_ownValues.1 hw
    exact ⟨j, Nat.lt_of_lt_of_le hj hk, w, hstore,
      hdone _ (mem_positions_of_storedAt hstore) (overtaking_natCast.2 ⟨rfl, Or.inl hj⟩)⟩

/-- **A load can see the value of the nearest store of its own thread before place `k`**, if it may
overtake the stores behind that. -/
theorem exists_legal_seen_own (hs : s.model = .tso ∨ k = i) (hk : k ≤ i)
    (hget : p.get? ⟨t, i⟩ = some (.load x))
    (hopen : s.readAround = true ∨ p.ownValues t i x = [] ∨ p.ownValues t k x ≠ []) :
    ∃ σ, p.Legal s σ ∧
      (p.imageAfter σ).seen ⟨t, i⟩ = (p.ownValues t k x).getLast?.getD 0 := by
  obtain ⟨σ, horder, hσ⟩ := Admits.nil.exists_overtaking (p := p) (t := t) hs (by simp)
  have hnot : ⟨t, i⟩ ∉ σ.order := by
    rw [horder, List.mem_filter, overtaking_natCast]
    omega
  have hm := memory_mem_moves hs hk hget hnot
    (fun r hr hD ↦ horder ▸ List.mem_filter.2 ⟨hr, hD⟩) hopen
  refine (exists_legal_seen_iff hget).2 ⟨σ, _, hσ, hm, ?_⟩
  rw [valueOf_memory hget, memory_overtaking horder]

/-- **A load can see every value of another thread**: after the beginning of its own thread, let the
other thread run up to the store. -/
theorem exists_legal_seen_other (s : Setting) (hget : p.get? ⟨t, i⟩ = some (.load x))
    (hv : v ∈ p.otherValues t x) : ∃ σ, p.Legal s σ ∧ (p.imageAfter σ).seen ⟨t, i⟩ = v := by
  obtain ⟨u, j, hu, hstore⟩ := mem_otherValues.1 hv
  -- first what stands before the load, then the other thread up to the store, then the load
  obtain ⟨σ, hσorder, hσ⟩ := Admits.nil.exists_overtaking (p := p) (s := s) (t := t) (i := i)
    (k := i) (Or.inr rfl) (by simp)
  have hthread : ∀ q ∈ σ.order, q.thread ≠ u := by
    intro q hq
    rw [hσorder, List.mem_filter] at hq
    obtain ⟨n, rfl⟩ := exists_of_overtaking hq.1 hq.2
    simpa using Ne.symm hu
  obtain ⟨τ, hτorder, hτ⟩ := hσ.exists_overtaking (i := j + 1) (Or.inr rfl) hthread
  have horder : Schedule.order (σ ++ τ) = p.positions.filter (p.overtaking t i i) ++
      p.positions.filter (p.overtaking u (j + 1) (j + 1)) := by
    rw [Schedule.order_append, hσorder, hτorder]
  have hnot : ⟨t, i⟩ ∉ Schedule.order (σ ++ τ) := by
    rw [horder, List.mem_append, List.mem_filter, List.mem_filter, overtaking_natCast,
      overtaking_natCast]
    omega
  have hm := memory_mem_moves (s := s) (Or.inr rfl) le_rfl hget hnot
    (fun r hr hD ↦ by
      rw [horder]
      exact List.mem_append_left _ (List.mem_filter.2 ⟨hr, hD⟩))
    (Or.inr (em _))
  refine (exists_legal_seen_iff hget).2 ⟨σ ++ τ, _, hτ, hm, ?_⟩
  rw [valueOf_memory hget]
  refine memory_of_last horder (mem_positions_of_storedAt hstore)
    (overtaking_natCast.2 ⟨rfl, Or.inl (Nat.lt_succ_self j)⟩) (storedAt_eq_some.1 hstore)
    fun r hr hD hlt ↦ ?_
  obtain ⟨n, rfl⟩ := exists_of_overtaking hr hD
  have hjn : j < n := by simpa [Position.lt_iff] using hlt
  exact storedAt_of_overtaking hD (by omega)

/-- **A load sees every one of its observable values in some execution.** -/
theorem exists_legal_seen_of_mem_observable (hget : p.get? ⟨t, i⟩ = some (.load x))
    (hv : v ∈ p.observable s t i x) : ∃ σ, p.Legal s σ ∧ (p.imageAfter σ).seen ⟨t, i⟩ = v := by
  rcases mem_observable.1 hv with hother | ⟨-, rfl⟩ | ⟨hs, hown | ⟨rfl, hown | haround⟩⟩
  · exact exists_legal_seen_other s hget hother
  · exact exists_legal_seen_own (Or.inr rfl) le_rfl hget (Or.inr (em _))
  · -- the stores up to the one that is seen have run, and the load overtakes the others
    obtain ⟨j, hj, hstore⟩ := mem_ownValues.1 hown
    have hlast : (p.ownValues t (j + 1) x).getLast? = some v :=
      getLast?_ownValues.2 ⟨j, Nat.lt_succ_self j, hstore, fun k hjk hk ↦ by omega⟩
    obtain ⟨σ, hσ, hseen⟩ := exists_legal_seen_own (Or.inl hs) hj hget
      (Or.inr (Or.inr (List.ne_nil_of_mem (List.mem_of_getLast? hlast))))
    exact ⟨σ, hσ, by rw [hseen, hlast, Option.getD_some]⟩
  · obtain ⟨σ, hσ, hseen⟩ := exists_legal_seen_own (Or.inr rfl) le_rfl hget (Or.inr (Or.inl hown))
    exact ⟨σ, hσ, by rw [hseen, hown]; rfl⟩
  · -- no store of the thread has run
    exact exists_legal_seen_own (k := 0) (Or.inl hs) (Nat.zero_le i) hget (Or.inl haround)

/-- **A load sees in the executions of a program exactly its observable values.** -/
theorem exists_legal_seen_iff_mem_observable (hget : p.get? ⟨t, i⟩ = some (.load x)) :
    (∃ σ, p.Legal s σ ∧ (p.imageAfter σ).seen ⟨t, i⟩ = v) ↔ v ∈ p.observable s t i x := by
  constructor
  · intro hseen
    obtain ⟨σ, src, hσ, hm, rfl⟩ := (exists_legal_seen_iff hget).1 hseen
    exact hσ.valueOf_mem_observable hget hm
  · exact exists_legal_seen_of_mem_observable hget

/-! ### The outcomes -/

/-- The loads of an outcome list what each of them has seen. -/
theorem mem_loads_outcomeOf {g : Image} (hget : p.get? ⟨t, i⟩ = some (.load x)) :
    ⟨⟨t, i⟩, x, v⟩ ∈ (p.outcomeOf g).loads ↔ g.seen ⟨t, i⟩ = v := by
  rw [outcomeOf, List.mem_filterMap]
  constructor
  · rintro ⟨q, -, hq⟩
    obtain ⟨a, -, hrow⟩ := Option.map_eq_some_iff.1 hq
    obtain ⟨rfl, -, rfl⟩ := LoadValue.mk.inj hrow
    rfl
  · rintro rfl
    refine ⟨⟨t, i⟩, mem_loads.2 ⟨mem_positions_of_get?_natCast hget, x, hget⟩, ?_⟩
    rw [hget]
    rfl

/-- **The values that a load takes in the outcomes of a program are its observable values.** So it
takes the value of a later store of its own thread only if an earlier one or another thread stores
that value too. Zero is the exception: if a later store of its own thread writes zero, the load may
take this value though no other store writes it, since memory is zero in the beginning. It does so
if there is no earlier store of its own thread to its variable, or if it may read around it. -/
theorem explore_observable (p : Program) (s : Setting) (limits : Limits)
    (hc : p.check limits = .ok ()) (hv : p.storesFit = true) (t i : ℕ) (x : String)
    (hget : p.get? ⟨t, i⟩ = some (.load x)) :
    ∃ f, p.explore s limits = .ok f ∧
      (∀ v, (∃ o ∈ f.outcomes, ⟨⟨t, i⟩, x, v⟩ ∈ o.loads) ↔ v ∈ p.observable s t i x) ∧
      ∀ j > i, ∀ v, p.get? ⟨t, j⟩ = some (.store x v) →
        ∀ o ∈ f.outcomes, ⟨⟨t, i⟩, x, v⟩ ∈ o.loads →
          v ∈ p.otherValues t x ∨ v ∈ p.ownValues t i x ∨
            v = 0 ∧ (p.ownValues t i x = [] ∨ s.model = .tso ∧ s.readAround = true) := by
  have hseen : ∀ v, (∃ o ∈ (p.findings s).outcomes, ⟨⟨t, i⟩, x, v⟩ ∈ o.loads) ↔
      v ∈ p.observable s t i x := by
    intro v
    rw [← exists_legal_seen_iff_mem_observable hget]
    constructor
    · rintro ⟨o, ho, hmem⟩
      obtain ⟨σ, hσ, rfl⟩ := mem_outcomes_findings.1 ho
      exact ⟨σ, hσ, (mem_loads_outcomeOf hget).1 hmem⟩
    · rintro ⟨σ, hσ, hvalue⟩
      exact ⟨_, mem_outcomes_findings.2 ⟨σ, hσ, rfl⟩, (mem_loads_outcomeOf hget).2 hvalue⟩
  refine ⟨_, explore_of_storesFit hc hv, hseen, fun j _ v _ o ho hmem ↦ ?_⟩
  exact mem_of_mem_observable ((hseen v).1 ⟨o, ho, hmem⟩)

/-- The load has two stores of its own thread before it, which may have drained in part, and one
behind it. -/
def partiallyDrained : Program where
  threads := [[.store "x" 1, .store "x" 2, .load "x", .store "x" 4], [.store "x" 3]]
  flatten_ne_nil := by decide

theorem partiallyDrained_observable :
    partiallyDrained.check .standard = .ok () ∧ partiallyDrained.storesFit = true ∧
      partiallyDrained.get? ⟨0, 2⟩ = some (.load "x") ∧
      ∃ f, partiallyDrained.explore { model := .tso } .standard = .ok f ∧
        (∀ v, (∃ o ∈ f.outcomes, ⟨⟨0, 2⟩, "x", v⟩ ∈ o.loads) ↔ v ∈ [3, 1, 2]) ∧
        ∀ o ∈ f.outcomes, ⟨⟨0, 2⟩, "x", 4⟩ ∉ o.loads := by
  obtain ⟨f, hf, hseen, hlater⟩ := explore_observable partiallyDrained { model := .tso } .standard
    rfl (by decide) 0 2 "x" (by decide)
  refine ⟨rfl, by decide, by decide, f, hf, hseen, fun o ho hmem ↦ ?_⟩
  exact absurd (hlater 3 (by decide) 4 (by decide) o ho hmem) (by decide)

end Litmus.Program

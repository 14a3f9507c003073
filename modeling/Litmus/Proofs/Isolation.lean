import Litmus.Proofs.Observation

/-!
# Threads that share nothing

If no two threads of a program have a variable in common (`Program.Separate`), each of them behaves
as if it ran alone and in program order (`Program.alone`).

Loads still overtake stores, so the threads do not run in program order. It cannot be seen: what a
load can see at all is said by `Program.observable`, and the values of other threads are gone from
it. Under IBM370 the value of the nearest earlier store is left. So it is under TSO if there is at
most one earlier store; with two of them the load may run between them and see the first one.
A variable holds in the end what its only thread stored last.
-/

namespace Litmus

/-! ### One thread by itself -/

namespace Image

variable {g : Image} {th : List Instruction} {t i : ℕ} {x : String}

/-- Runs an instruction of thread `t`, given with its place: a store writes to memory, and a load
reads memory. -/
def perform (t : ℕ) (g : Image) (e : Instruction × ℕ) : Image :=
  match e.1 with
  | .store x v => { g with memory := Function.update g.memory x v }
  | .load x => { g with seen := Function.update g.seen ⟨t, e.2⟩ (g.memory x) }

/-- What a list of instructions leaves if it runs as thread `t`, in order and from zero. -/
def ofThread (t : ℕ) (th : List Instruction) : Image := th.zipIdx.foldl (perform t) zero

theorem ofThread_snoc (t : ℕ) (th : List Instruction) (e : Instruction) :
    ofThread t (th ++ [e]) = (ofThread t th).perform t (e, th.length) := by
  rw [ofThread, List.zipIdx_append, List.foldl_append, Nat.zero_add]
  rfl

/-- A variable has what was stored last, if anything was. -/
theorem memory_perform (t : ℕ) (g : Image) (e : Instruction) (n : ℕ) (x : String) :
    (g.perform t (e, n)).memory x = (e.storedIn x).getD (g.memory x) := by
  cases e with
  | load y => rfl
  | store y v =>
    show Function.update g.memory y v x = ((if y = x then some v else none).getD (g.memory x))
    by_cases hy : y = x
    · rw [if_pos hy, hy, Function.update_self, Option.getD_some]
    · rw [if_neg hy, Function.update_of_ne (Ne.symm hy), Option.getD_none]

/-- What another load of the thread has seen stays. -/
theorem seen_perform_of_ne {e : Instruction} {n : ℕ} (h : i ≠ n) :
    (g.perform t (e, n)).seen ⟨t, i⟩ = g.seen ⟨t, i⟩ := by
  cases e with
  | load y =>
    refine Function.update_of_ne (fun heq ↦ h ?_) _ _
    exact (Position.natCast_inj.1 heq).2
  | store y v => rfl

/-- A thread that runs by itself leaves in a variable what it stores there last. -/
theorem memory_ofThread (t : ℕ) (th : List Instruction) (x : String) :
    (ofThread t th).memory x = (Program.lastStored? x th).getD 0 := by
  induction th using List.reverseRecOn with
  | nil => rfl
  | append_singleton th e ih =>
    rw [ofThread_snoc, memory_perform, ih, Program.lastStored?, Program.lastStored?,
      List.filterMap_append]
    cases he : e.storedIn x with
    | none => simp [he]
    | some v => simp [he]

/-- A load of a thread that runs by itself sees what was stored last before it. -/
theorem seen_ofThread (h : th[i]? = some (.load x)) :
    (ofThread t th).seen ⟨t, i⟩ = (Program.lastStored? x (th.take i)).getD 0 := by
  -- by induction from the end: the last instruction is the load or comes after it
  induction th using List.reverseRecOn with
  | nil => cases h
  | append_singleton th e ih =>
    obtain ⟨hi, -⟩ := List.getElem?_eq_some_iff.1 h
    rw [List.length_append, List.length_singleton] at hi
    rw [ofThread_snoc, List.take_append_of_le_length (by omega)]
    rcases Nat.lt_or_eq_of_le (Nat.le_of_lt_succ hi) with hlt | rfl
    · rw [seen_perform_of_ne (Nat.ne_of_lt hlt)]
      rw [List.getElem?_append_left hlt] at h
      exact ih h
    · rw [List.getElem?_concat_length] at h
      obtain rfl := Option.some.inj h
      rw [List.take_length, ← memory_ofThread t]
      exact Function.update_self ..

end Image

namespace Program

variable {p : Program} {s : Setting} {σ : Schedule} {t u i j : ℕ} {x : String} {o : Outcome}

/-- What thread `t` leaves if it runs by itself. -/
def aloneAt (p : Program) (t : ℕ) : Image := Image.ofThread t (p.threads[t]?.getD [])

/-- The first thread that has the variable `x`. -/
def threadOf (p : Program) (x : String) : ℕ := p.threads.findIdx fun th ↦ th.any (·.name == x)

/-- What is left if every thread runs by itself, in program order and from zero: each variable holds
what its thread leaves there, and each load has seen what it sees in its thread. -/
def alone (p : Program) : Image where
  memory x := (p.aloneAt (p.threadOf x)).memory x
  seen q := (p.aloneAt q.thread.toNat).seen q

/-- The thread of a variable has an instruction with it. -/
theorem exists_get?_threadOf (hx : x ∈ p.names) :
    ∃ i : ℕ, ∃ a, p.get? ⟨p.threadOf x, i⟩ = some a ∧ a.name = x := by
  obtain ⟨b, hb, hbx⟩ := List.mem_map.1 (List.mem_eraseDups.1 hx)
  obtain ⟨th, hth, hbth⟩ := List.mem_flatten.1 hb
  have hlt : p.threadOf x < p.threads.length :=
    List.findIdx_lt_length_of_exists ⟨th, hth, List.any_eq_true.2 ⟨b, hbth, by simpa using hbx⟩⟩
  obtain ⟨a, ha, hax⟩ := List.any_eq_true.1 (List.findIdx_getElem (w := hlt))
  obtain ⟨i, hi⟩ := List.mem_iff_getElem?.1 ha
  refine ⟨i, a, ?_, by simpa using hax⟩
  rw [get?_natCast, List.getElem?_eq_getElem hlt, Option.bind_some]
  exact hi

/-! ### No common variables -/

/-- No two threads have a variable in common. -/
def Separate (p : Program) : Prop :=
  p.threads.Pairwise fun th th' ↦ ∀ i ∈ th, ∀ j ∈ th', i.name ≠ j.name

instance : Decidable p.Separate :=
  inferInstanceAs (Decidable (p.threads.Pairwise _))

/-- Instructions on the same variable are in the same thread. -/
theorem Separate.thread_eq (h : p.Separate) {a b : Instruction} (ha : p.get? ⟨t, i⟩ = some a)
    (hb : p.get? ⟨u, j⟩ = some b) (hab : a.name = b.name) : t = u := by
  rw [get?_natCast] at ha hb
  obtain ⟨th, hth, ha⟩ := Option.bind_eq_some_iff.1 ha
  obtain ⟨th', hth', hb⟩ := Option.bind_eq_some_iff.1 hb
  obtain ⟨ht, rfl⟩ := List.getElem?_eq_some_iff.1 hth
  obtain ⟨hu, rfl⟩ := List.getElem?_eq_some_iff.1 hth'
  rcases lt_trichotomy t u with hlt | heq | hlt
  · exact absurd hab (List.pairwise_iff_getElem.1 h t u ht hu hlt a (List.mem_of_getElem? ha) b
      (List.mem_of_getElem? hb))
  · exact heq
  · exact absurd hab.symm (List.pairwise_iff_getElem.1 h u t hu ht hlt b (List.mem_of_getElem? hb) a
      (List.mem_of_getElem? ha))

/-- A load has nothing to see of other threads. -/
theorem Separate.otherValues_eq_nil (h : p.Separate) (hget : p.get? ⟨t, i⟩ = some (.load x)) :
    p.otherValues t x = [] := by
  refine List.eq_nil_iff_forall_not_mem.2 fun v hv ↦ ?_
  obtain ⟨u, j, hu, hstore⟩ := mem_otherValues.1 hv
  exact hu (h.thread_eq (storedAt_eq_some.1 hstore) hget rfl)

/-! ### What the loads see -/

/-- In the setting, of the earlier stores of its own thread a load can see the nearest only: under
IBM370, or without reading around if no load has two of them. -/
def SeesNearest (p : Program) (s : Setting) : Prop :=
  s.model = .ibm370 ∨ s.readAround = false ∧ ∀ q ∈ p.loads, (p.ownStores q).length ≤ 1

/-- If there is only one earlier store, its value is the only one. -/
theorem eq_of_mem_ownValues {v w : Int} (hget : p.get? ⟨t, i⟩ = some (.load x))
    (hone : (p.ownStores ⟨t, i⟩).length ≤ 1) (hv : v ∈ p.ownValues t i x)
    (hw : w ∈ p.ownValues t i x) : v = w := by
  obtain ⟨j, hj, hvj⟩ := mem_ownValues.1 hv
  obtain ⟨k, hk, hwk⟩ := mem_ownValues.1 hw
  have hjown : (⟨t, j⟩ : Position) ∈ p.ownStores ⟨t, i⟩ :=
    (mem_ownStores_natCast hget).2 ⟨j, hj, v, rfl, storedAt_eq_some.1 hvj⟩
  have hkown : (⟨t, k⟩ : Position) ∈ p.ownStores ⟨t, i⟩ :=
    (mem_ownStores_natCast hget).2 ⟨k, hk, w, rfl, storedAt_eq_some.1 hwk⟩
  obtain ⟨r, hr⟩ := List.length_eq_one_iff.1 (le_antisymm hone (List.length_pos_of_mem hjown))
  rw [hr, List.mem_singleton] at hjown hkown
  rw [hjown] at hvj
  rw [hkown] at hwk
  exact Option.some.inj (hvj.symm.trans hwk)

/-- **A load sees the nearest earlier store of its own thread**, or zero if there is none. -/
theorem Separate.seen_eq (h : p.Separate) (hs : p.SeesNearest s) (hσ : p.Legal s σ)
    (hget : p.get? ⟨t, i⟩ = some (.load x)) :
    (p.imageAfter σ).seen ⟨t, i⟩ = (p.ownValues t i x).getLast?.getD 0 := by
  have hseen := mem_observable.1 ((exists_legal_seen_iff_mem_observable hget).1 ⟨σ, hσ, rfl⟩)
  -- no other thread stores to the variable, so it is the thread itself or zero
  rw [h.otherValues_eq_nil hget] at hseen
  rcases hseen with hother | ⟨-, hnear⟩ | ⟨htso, hown⟩
  · cases hother
  · exact hnear
  · have hloads : (⟨t, i⟩ : Position) ∈ p.loads :=
      mem_loads.2 ⟨mem_positions_of_get?_natCast hget, x, hget⟩
    obtain ⟨haround, hone⟩ := hs.resolve_left (by simp [htso])
    cases hlast : (p.ownValues t i x).getLast? with
    | none =>
      rw [List.getLast?_eq_none_iff] at hlast
      rcases hown with hown | ⟨hzero, -⟩
      · rw [hlast] at hown
        cases hown
      · exact hzero
    | some v =>
      have hv := List.mem_of_getLast? hlast
      rcases hown with hown | ⟨-, hnone | haround'⟩
      · exact eq_of_mem_ownValues hget (hone _ hloads) hown hv
      · rw [hnone] at hv
        cases hv
      · rw [haround] at haround'
        cases haround'

/-! ### What the variables hold -/

/-- The last value stored in a thread is that of its last store. -/
theorem lastStored?_eq_some {v : Int} :
    lastStored? x (p.threads[t]?.getD []) = some v ↔ ∃ i, p.IsLastStore x t i v := by
  rw [lastStored?, getLast?_filterMap_eq_some_iff_getElem?]
  simp only [← storedAt_natCast]
  exact exists_congr fun i ↦ ⟨fun h ↦ ⟨h.1, h.2⟩, fun h ↦ ⟨h.store, h.last⟩⟩

/-- **A variable holds what its thread stores last**, or zero if that is nothing. -/
theorem Separate.memory_eq (h : p.Separate) (hσ : p.Legal s σ) {a : Instruction}
    (hget : p.get? ⟨t, i⟩ = some a) :
    (p.imageAfter σ).memory a.name = (lastStored? a.name (p.threads[t]?.getD [])).getD 0 := by
  have hfinal := hσ.memory_mem_finalValues a.name
  rw [finalValues] at hfinal
  split at hfinal
  · obtain ⟨u, j, hlast⟩ := mem_lastStored.1 hfinal
    obtain rfl := h.thread_eq (storedAt_eq_some.1 hlast.store) hget rfl
    rw [lastStored?_eq_some.2 ⟨j, hlast⟩, Option.getD_some]
  · rename_i hnone
    have hvalue : lastStored? a.name (p.threads[t]?.getD []) = none := by
      refine Option.eq_none_iff_forall_ne_some.2 fun v hv ↦ hnone ?_
      obtain ⟨j, hlast⟩ := lastStored?_eq_some.1 hv
      exact any_storesTo_iff.2 ⟨_, mem_positions_of_storedAt hlast.store, v,
        storedAt_eq_some.1 hlast.store⟩
    rw [List.mem_singleton.1 hfinal, hvalue, Option.getD_none]

/-- **All executions have the outcome of the threads by themselves.** -/
theorem Separate.outcomeAfter_eq (h : p.Separate) (hs : p.SeesNearest s) (hσ : p.Legal s σ) :
    p.outcomeAfter σ = p.outcomeOf p.alone := by
  rw [outcomeAfter, outcomeOf, outcomeOf]
  congr 1
  · refine List.map_congr_left fun x hx ↦ congrArg (Prod.mk x) ?_
    obtain ⟨i, a, hget, rfl⟩ := exists_get?_threadOf hx
    rw [h.memory_eq hσ hget]
    exact (Image.memory_ofThread _ _ _).symm
  · refine List.filterMap_congr fun q hq ↦ ?_
    obtain ⟨hq, x, hget⟩ := mem_loads.1 hq
    obtain ⟨t, i, th, rfl, hth, -⟩ := mem_positions_iff_exists.1 hq
    have hload : (p.threads[t]?.getD [])[i]? = some (.load x) := by
      rw [← hget, get?_natCast, hth, Option.bind_some, Option.getD_some]
    have hseen : (p.imageAfter σ).seen ⟨t, i⟩ = p.alone.seen ⟨t, i⟩ := by
      rw [h.seen_eq hs hσ hget]
      exact (Image.seen_ofThread hload).symm
    rw [hseen]

/-- If all executions have one outcome, it is the only one that is found. -/
theorem toList_findings_of_forall (h : ∀ σ, p.Legal s σ → p.outcomeAfter σ = o) :
    (p.findings s).outcomes.toList = [o] := by
  refine List.perm_singleton.1 ((List.perm_ext_iff_of_nodup (p.nodup_toList_findings s)
    (List.nodup_singleton o)).2 fun o' ↦ ?_)
  rw [OutcomeSet.mem_toList, mem_outcomes_findings, List.mem_singleton]
  constructor
  · rintro ⟨σ, hσ, rfl⟩
    exact h σ hσ
  · rintro rfl
    obtain ⟨σ, hσ⟩ := Admits.nil.exists_legal (p := p) (s := s)
    exact ⟨_, hσ, h _ hσ⟩

/-- **Threads that share no variable behave sequentially.** Under IBM370 there is one outcome, that
of every thread running by itself, in program order and from zero. Under TSO without reading around
there is this one too, if no load has two earlier stores of its own thread to its variable. -/
theorem explore_separate (p : Program) (limits : Limits) (hc : p.check limits = .ok ())
    (hv : p.storesFit = true) (hsep : p.Separate) :
    (∀ around, ∃ f, p.explore ⟨.ibm370, around⟩ limits = .ok f ∧
      f.outcomes.toList = [p.outcomeOf p.alone]) ∧
    ((∀ q ∈ p.loads, (p.ownStores q).length ≤ 1) →
      ∃ f, p.explore { model := .tso } limits = .ok f ∧
        f.outcomes.toList = [p.outcomeOf p.alone]) := by
  have hone : ∀ s, p.SeesNearest s → ∃ f, p.explore s limits = .ok f ∧
      f.outcomes.toList = [p.outcomeOf p.alone] := fun s hs ↦
    ⟨_, explore_of_storesFit hc hv, toList_findings_of_forall fun _ ↦ hsep.outcomeAfter_eq hs⟩
  exact ⟨fun around ↦ hone _ (Or.inl rfl), fun hown ↦ hone _ (Or.inr ⟨rfl, hown⟩)⟩

/-- The first thread has `x` and `z`, the second one has `y`. -/
def disjointThreads : Program where
  threads := [[.store "x" 1, .load "z", .load "x"], [.load "y", .store "y" 2, .load "y"]]
  flatten_ne_nil := by decide

theorem disjointThreads_separate :
    disjointThreads.check .standard = .ok () ∧ disjointThreads.storesFit = true ∧
      disjointThreads.Separate ∧
      (∀ q ∈ disjointThreads.loads, (disjointThreads.ownStores q).length ≤ 1) ∧
      disjointThreads.outcomeOf disjointThreads.alone =
        ⟨[("x", 1), ("z", 0), ("y", 2)],
          [⟨⟨0, 1⟩, "z", 0⟩, ⟨⟨0, 2⟩, "x", 1⟩, ⟨⟨1, 0⟩, "y", 0⟩, ⟨⟨1, 2⟩, "y", 2⟩]⟩ ∧
      (∀ around, ∃ f, disjointThreads.explore ⟨.ibm370, around⟩ .standard = .ok f ∧
        f.outcomes.toList = [disjointThreads.outcomeOf disjointThreads.alone]) ∧
      ∃ f, disjointThreads.explore { model := .tso } .standard = .ok f ∧
        f.outcomes.toList = [disjointThreads.outcomeOf disjointThreads.alone] :=
  have hsep := explore_separate disjointThreads .standard rfl (by decide) (by decide)
  ⟨rfl, by decide, by decide, by decide, by decide, hsep.1, hsep.2 (by decide)⟩

/-- A single thread whose load has two earlier stores of its variable. -/
def twoStores : Program where
  threads := [[.store "x" 1, .store "x" 2, .load "x"]]
  flatten_ne_nil := by decide

-- under TSO one earlier store is not the same as any number of them
example : twoStores.Separate ∧ twoStores.observable { model := .tso } 0 2 "x" = [1, 2] := by decide

end Program

end Litmus

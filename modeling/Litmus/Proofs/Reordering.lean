import Litmus.Proofs.Keys
import Litmus.Proofs.Parts
import Mathlib.Data.List.FinRange

/-!
# The order of the threads

The number of a thread decides when its instructions are tried, where its loads are listed and in
which order the variables are declared. It decides nothing else: if the threads are put in another
order (`Program.reorder`), the outcomes are the same but for the new numbers of the loads and the
order of the lists (`Outcome.SameEntries`), and there are as many executions.

A program whose threads all occur in another one, whole and at other places, is a part of it with
nothing left out (`Program.Renumbers`), so nothing can disturb it. The schedules of the one are
those of the other under new names (`Program.Renumbers.legal_iff`), though a search comes to them in
a different order, and they lead to the same outcomes (`Program.Renumbers.outcomeAfter_map`).
-/

namespace Litmus

variable {g : ℤ → ℤ}

theorem Move.rethread_injective (hg : Function.Injective g) :
    Function.Injective (Move.rethread g) := by
  intro m k h
  obtain ⟨hposition, hsource⟩ := Move.mk.inj h
  have hq : m.position = k.position := Position.rethread_injective hg hposition
  cases m
  cases k
  exact congrArg₂ Move.mk hq hsource

/-- **Two outcomes say the same**: they have the same entries for variables and loads, though they
may list them in different orders. -/
structure Outcome.SameEntries (o o' : Outcome) : Prop where
  /-- The variables with their values. -/
  memory : o.memory.Perm o'.memory
  /-- The loads with what they saw. -/
  loads : o.loads.Perm o'.loads

namespace Program

variable {p r : Program} {s : Setting} {limits : Limits} {σ ρ : Schedule} {n : ℕ}

/-- The threads of `r` are those of `p` at other places: thread `t` of `p` is thread `g t` of `r`,
and `r` has nothing else. -/
structure Renumbers (p r : Program) (g : ℤ → ℤ) : Prop extends p.PartOf r g where
  /-- Nothing is left out. -/
  onto : ∀ a ∈ r.positions, ∃ b ∈ p.positions, b.rethread g = a

namespace Renumbers

/-! ### Lists in another order -/

/-- Renumbering threads permutes the positions, and with them the loads. -/
theorem positions_perm (h : p.Renumbers r g) :
    r.positions.Perm (p.positions.map (Position.rethread g)) := by
  have hnodup : (p.positions.map (Position.rethread g)).Nodup :=
    p.nodup_positions.map (Position.rethread_injective h.injective)
  refine (List.perm_ext_iff_of_nodup r.nodup_positions hnodup).2 fun a ↦ ?_
  rw [List.mem_map]
  constructor
  · exact h.onto a
  · rintro ⟨b, hb, rfl⟩
    exact h.rethread_mem_positions hb

theorem loads_perm (h : p.Renumbers r g) :
    r.loads.Perm (p.loads.map (Position.rethread g)) := by
  rw [← h.filter_loads_rethread]
  exact h.positions_perm.filter _

/-- The variables are the same. They are listed as they first occur, so their order may change. -/
theorem names_perm (h : p.Renumbers r g) : r.names.Perm p.names := by
  refine (List.perm_ext_iff_of_nodup r.nodup_names p.nodup_names).2 fun x ↦ ?_
  rw [mem_names_iff, mem_names_iff]
  constructor
  · rintro ⟨a, ha, j, hj, hx⟩
    obtain ⟨b, hb, rfl⟩ := h.onto a ha
    exact ⟨b, hb, j, (h.get?_rethread hb).symm.trans hj, hx⟩
  · rintro ⟨b, hb, j, hj, hx⟩
    exact ⟨_, h.rethread_mem_positions hb, j, (h.get?_rethread hb).trans hj, hx⟩

/-! ### Schedules under new names -/

/-- There is nothing to drop from a schedule. -/
theorem eq_map (h : p.Renumbers r g) (hσ : p.Restricts g σ ρ)
    (hρ : ∀ a ∈ ρ.order, a ∈ r.positions) : ρ = σ.map (Move.rethread g) := by
  induction hσ with
  | nil => rfl
  | inside _ _ ih =>
    rw [Schedule.order_snoc, List.forall_mem_append] at hρ
    rw [List.map_append, ih hρ.1]
    rfl
  | outside _ hm _ =>
    rw [Schedule.order_snoc, List.forall_mem_append, List.forall_mem_singleton] at hρ
    obtain ⟨b, hb, hbm⟩ := h.onto _ hρ.2
    exact absurd hbm (hm b hb)

/-- **The schedules are the same but for their names.** -/
theorem legal_iff (h : p.Renumbers r g) :
    r.Legal s ρ ↔ ∃ σ, p.Legal s σ ∧ σ.map (Move.rethread g) = ρ := by
  constructor
  · intro hρ
    obtain ⟨σ, hσ⟩ := p.exists_restricts g ρ
    exact ⟨σ, hσ.legal h.toPartOf hρ, (h.eq_map hσ hρ.admits.subset).symm⟩
  · rintro ⟨σ, hσ, rfl⟩
    have hadmits : r.Admits s (σ.map (Move.rethread g)) :=
      h.toPartOf.admits_append .nil .nil hσ.admits
    refine hadmits.legal_of_forall_mem fun a ha ↦ ?_
    obtain ⟨b, hb, rfl⟩ := h.onto a ha
    exact ((restricts_map hσ.admits.subset).mem_order h.injective hb).2 (hσ.perm.symm.subset hb)

/-- **The schedules are the renumbered schedules**, in another order. -/
theorem schedules_perm (h : p.Renumbers r g) :
    (r.schedules s).Perm ((p.schedules s).map (List.map (Move.rethread g))) := by
  have hnodup : ((p.schedules s).map (List.map (Move.rethread g))).Nodup :=
    (p.nodup_schedules s).map (List.map_injective_iff.2 (Move.rethread_injective h.injective))
  refine (List.perm_ext_iff_of_nodup (r.nodup_schedules s) hnodup).2 fun ρ ↦ ?_
  rw [mem_schedules, h.legal_iff, List.mem_map]
  simp only [mem_schedules]

/-! ### Outcomes -/

/-- **A schedule and the same one under new names lead to the same outcome.** -/
theorem outcomeAfter_map (h : p.Renumbers r g) (hσ : p.Admits s σ) :
    (r.outcomeAfter (σ.map (Move.rethread g))).SameEntries ((p.outcomeAfter σ).rethread g) := by
  have hundisturbed : p.Undisturbed r g := fun a ha hout ↦ by
    obtain ⟨b, hb, hba⟩ := h.onto a ha
    exact absurd hba (hout b hb)
  have hshows := (restricts_map hσ.subset).shows h.toPartOf hundisturbed <| by
    rw [Schedule.order_rethread, List.forall_mem_map]
    exact fun b hb ↦ h.rethread_mem_positions (hσ.subset b hb)
  rw [outcomeAfter, outcomeAfter, hshows.rethread_outcomeOf h.toPartOf]
  exact ⟨h.names_perm.map _, h.loads_perm.filterMap _⟩

end Renumbers

/-! ### Permutations of the threads -/

/-- The place to which a permutation of `n` threads moves a thread. Numbers without a thread stay as
they are. -/
def newPlace (π : Equiv.Perm (Fin n)) : ℤ → ℤ
  | .ofNat t => if h : t < n then (π ⟨t, h⟩ : ℕ) else t
  | .negSucc t => .negSucc t

theorem newPlace_natCast (π : Equiv.Perm (Fin n)) (t : Fin n) :
    newPlace π (t : ℕ) = (π t : ℕ) :=
  dif_pos t.isLt

/-- Reordering can be undone. -/
theorem newPlace_symm_newPlace (π : Equiv.Perm (Fin n)) (t : ℤ) :
    newPlace π.symm (newPlace π t) = t := by
  cases t with
  | ofNat t =>
    by_cases h : t < n
    · have hplace : newPlace π (.ofNat t) = (π ⟨t, h⟩ : ℕ) := newPlace_natCast π ⟨t, h⟩
      rw [hplace, newPlace_natCast, Equiv.symm_apply_apply]
      rfl
    · have hplace (π : Equiv.Perm (Fin n)) : newPlace π (.ofNat t) = .ofNat t := dif_neg h
      rw [hplace, hplace]
  | negSucc t => rfl

theorem newPlace_injective (π : Equiv.Perm (Fin n)) : Function.Injective (newPlace π) :=
  Function.LeftInverse.injective (newPlace_symm_newPlace π)

/-- The threads of a program under a permutation: thread `t` comes to the place `π t`. -/
def reorderedThreads (p : Program) (π : Equiv.Perm (Fin p.threads.length)) :
    List (List Instruction) :=
  List.ofFn (p.threads.get ∘ π.symm)

/-- Reordering neither loses a thread nor adds one. -/
theorem reorderedThreads_perm (p : Program) (π : Equiv.Perm (Fin p.threads.length)) :
    (p.reorderedThreads π).Perm p.threads := by
  have hperm := Equiv.Perm.ofFn_comp_perm π.symm p.threads.get
  rwa [List.ofFn_get] at hperm

/-- **The program with its threads in another order**: thread `t` comes to the place `π t`. -/
def reorder (p : Program) (π : Equiv.Perm (Fin p.threads.length)) : Program where
  threads := p.reorderedThreads π
  flatten_ne_nil h := by
    have hperm := (p.reorderedThreads_perm π).flatten
    rw [h] at hperm
    exact p.flatten_ne_nil hperm.nil_eq.symm

variable (π : Equiv.Perm (Fin p.threads.length))

/-- Each thread has moved to its new place. -/
theorem getElem?_threads_reorder (t : Fin p.threads.length) :
    (p.reorder π).threads[(π t : ℕ)]? = some (p.threads.get t) := by
  show (List.ofFn (p.threads.get ∘ π.symm))[(π t : ℕ)]? = _
  rw [List.getElem?_ofFn, dif_pos (π t).isLt, Function.comp_apply, Fin.eta,
    Equiv.symm_apply_apply]

/-- So reordering renumbers. -/
theorem renumbers_reorder : p.Renumbers (p.reorder π) (newPlace π) where
  injective := newPlace_injective π
  thread t th hth := by
    obtain ⟨ht, rfl⟩ := List.getElem?_eq_some_iff.1 hth
    exact ⟨π ⟨t, ht⟩, _, newPlace_natCast π ⟨t, ht⟩, getElem?_threads_reorder π ⟨t, ht⟩,
      List.prefix_rfl⟩
  onto a ha := by
    obtain ⟨u, i, th, rfl, hth, hi⟩ := mem_positions_iff_exists.1 ha
    have hu : u < p.threads.length := by
      rw [← (p.reorderedThreads_perm π).length_eq]
      exact (List.getElem?_eq_some_iff.1 hth).1
    -- what comes to the place `u` is the thread that `π` moves there
    obtain ⟨t, ht⟩ := π.surjective ⟨u, hu⟩
    have hπ : (π t : ℕ) = u := congrArg Fin.val ht
    have hget := getElem?_threads_reorder π t
    rw [hπ, hth] at hget
    refine ⟨⟨(t : ℕ), i⟩, mem_positions_iff_exists.2 ⟨t, i, th, rfl, ?_, hi⟩, ?_⟩
    · rw [Option.some.inj hget]
      exact List.getElem?_eq_getElem t.isLt
    · rw [Position.rethread, newPlace_natCast, hπ]

/-- A program that is small enough stays so. -/
theorem check_reorder (hc : p.check limits = .ok ()) : (p.reorder π).check limits = .ok () := by
  obtain ⟨hthreads, hinstructions⟩ := check_eq_ok_iff.1 hc
  have hperm : (p.reorder π).threads.Perm p.threads := p.reorderedThreads_perm π
  refine check_eq_ok_iff.2 ⟨?_, fun th hth ↦ hinstructions th (hperm.subset hth)⟩
  rwa [hperm.length_eq]

theorem storesFit_reorder (hv : p.storesFit = true) : (p.reorder π).storesFit = true := by
  have hperm : (p.reorder π).threads.Perm p.threads := p.reorderedThreads_perm π
  rw [storesFit, List.all_eq_true] at hv ⊢
  exact fun i hi ↦ hv i (hperm.flatten.subset hi)

/-- **The order of the threads does not matter.** In every setting, the outcomes of a program whose
threads are put in another order are the outcomes of the program with new numbers for the threads of
the loads, and it has as many executions. -/
theorem explore_reorder (p : Program) (s : Setting) (limits : Limits)
    (π : Equiv.Perm (Fin p.threads.length)) (hc : p.check limits = .ok ())
    (hv : p.storesFit = true) :
    ∃ f f', p.explore s limits = .ok f ∧ (p.reorder π).explore s limits = .ok f' ∧
      (∀ o' ∈ f'.outcomes, ∃ o ∈ f.outcomes, o'.SameEntries (o.rethread (newPlace π))) ∧
      (∀ o ∈ f.outcomes, ∃ o' ∈ f'.outcomes, o'.SameEntries (o.rethread (newPlace π))) ∧
      f'.executions = f.executions := by
  have h := renumbers_reorder π
  refine ⟨_, _, explore_of_storesFit hc hv,
    explore_of_storesFit (check_reorder π hc) (storesFit_reorder π hv), ?_, ?_, ?_⟩
  · intro o' ho'
    obtain ⟨ρ, hρ, rfl⟩ := mem_outcomes_findings.1 ho'
    obtain ⟨σ, hσ, rfl⟩ := h.legal_iff.1 hρ
    exact ⟨_, mem_outcomes_findings.2 ⟨σ, hσ, rfl⟩, h.outcomeAfter_map hσ.admits⟩
  · intro o ho
    obtain ⟨σ, hσ, rfl⟩ := mem_outcomes_findings.1 ho
    exact ⟨_, mem_outcomes_findings.2 ⟨_, h.legal_iff.2 ⟨σ, hσ, rfl⟩, rfl⟩,
      h.outcomeAfter_map hσ.admits⟩
  · show ((p.reorder π).schedules s).length = (p.schedules s).length
    rw [h.schedules_perm.length_eq, List.length_map]

/-- The two threads of `storeForwarding` change places. -/
def exchange : Equiv.Perm (Fin storeForwarding.threads.length) :=
  Equiv.swap ⟨0, by decide⟩ ⟨1, by decide⟩

theorem storeForwarding_reorder :
    storeForwarding.check .standard = .ok () ∧ storeForwarding.storesFit = true ∧
      (storeForwarding.reorder exchange).threads =
        [[.store "y" 2, .store "x" 2], [.store "x" 1, .load "x", .load "y"]] ∧
      ∃ f f', storeForwarding.explore { model := .tso } .standard = .ok f ∧
        (storeForwarding.reorder exchange).explore { model := .tso } .standard = .ok f' ∧
        (∀ o' ∈ f'.outcomes, ∃ o ∈ f.outcomes, o'.SameEntries (o.rethread (newPlace exchange))) ∧
        (∀ o ∈ f.outcomes, ∃ o' ∈ f'.outcomes, o'.SameEntries (o.rethread (newPlace exchange))) ∧
        f'.executions = f.executions :=
  ⟨rfl, by decide, by decide, explore_reorder _ _ _ exchange rfl (by decide)⟩

end Program

end Litmus

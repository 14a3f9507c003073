import Litmus.Proofs.Backtracking
import Litmus.Proofs.FirstWins
import Mathlib.Data.Set.Card

/-!
# What an exploration finds

An exploration records the walks that a visit brings, and these follow the legal schedules of the
program one after the other. So its findings can be computed without any walk: they are the
solutions of all schedules in order, the first one of each key, together with their number
(`Program.findings`).

An exploration succeeds if and only if the program is within the limits and every outcome can be
written, and then these are its findings (`Program.explore_eq_ok_iff`). All that is said about
explorations elsewhere rests on this equation and on the description of `Program.schedules`.
-/

namespace Litmus

/-! ### Recording -/

namespace Findings

variable {p : Program} {s : Setting}

/-- An outcome that can be written is recorded, with the trace that has led to it. -/
theorem record_of_fits (f : Findings) {w : Walk p s} (h : w.execution.outcome.fits = true) :
    f.record w = (⟨f.outcomes.insert ⟨w.execution.outcome.text, w.execution.outcome, w.trace⟩,
      f.executions + 1⟩, .ok ()) := by
  rw [record, OutcomeSet.add_of_fits _ h]

/-- An outcome that cannot be written ends the search. The execution has been counted by then. -/
theorem record_of_not_fits (f : Findings) {w : Walk p s}
    (h : ¬w.execution.outcome.fits = true) :
    f.record w = ({ f with executions := f.executions + 1 }, .error .unwritable) := by
  rw [record, OutcomeSet.add, Outcome.key, if_neg h]
  rfl

/-- Walks whose outcomes can be written are recorded one after the other. -/
theorem foldl_observe_of_fits (f : Findings) {ws : List (Walk p s)}
    (h : ∀ w ∈ ws, w.execution.outcome.fits = true) :
    (ws.map .ok).foldl observe (f, .ok ()) =
      (ws.foldl (fun f w ↦ (f.record w).1) f, .ok ()) := by
  induction ws generalizing f with
  | nil => rfl
  | cons w ws ih =>
    obtain ⟨hw, hws⟩ := List.forall_mem_cons.1 h
    rw [List.map_cons, List.foldl_cons, observe, List.foldl_cons, record_of_fits f hw]
    exact ih _ hws

/-- An outcome that cannot be written ends the exploration. -/
theorem foldl_observe_of_not_fits (f : Findings) {ws : List (Walk p s)} {w : Walk p s}
    (hw : w ∈ ws) (h : ¬w.execution.outcome.fits = true) :
    ((ws.map .ok).foldl observe (f, .ok ())).2 = .error .unwritable := by
  induction ws generalizing f with
  | nil => cases hw
  | cons v ws ih =>
    rw [List.map_cons, List.foldl_cons, observe]
    by_cases hv : v.execution.outcome.fits = true
    · have hne : w ≠ v := fun heq ↦ h (heq ▸ hv)
      rw [record_of_fits f hv]
      exact ih _ ((List.mem_cons.1 hw).resolve_left hne)
    · rw [record_of_not_fits f hv, foldl_observe_error]

end Findings

namespace Program

variable {p : Program} {s : Setting} {limits : Limits} {σ : Schedule} {key : String}

/-! ### The findings of all schedules -/

/-- The solution that a schedule leads to: its outcome under its text, with its steps as witness. -/
def solution (p : Program) (σ : Schedule) : Solution Run :=
  ⟨(p.outcomeAfter σ).text, p.outcomeAfter σ, p.trace σ⟩

/-- What all schedules lead to: the first solution of each key, and their number. -/
def findings (p : Program) (s : Setting) : Findings where
  outcomes := OutcomeSet.empty.insertAll ((p.schedules s).map p.solution)
  executions := (p.schedules s).length

/-- Recording a walk that follows a schedule inserts the solution of the schedule. -/
theorem record_eq (f : Findings) {w : Walk p s} (hw : w.Follows σ)
    (hfit : (p.outcomeAfter σ).fits = true) :
    (f.record w).1 = ⟨f.outcomes.insert (p.solution σ), f.executions + 1⟩ := by
  rw [← hw.outcome_eq] at hfit
  rw [Findings.record_of_fits f hfit, hw.outcome_eq, hw.trace]
  rfl

/-- Recording walks that follow schedules inserts the solutions of the schedules. -/
theorem foldl_record (f : Findings) {ws : List (Walk p s)} {l : List Schedule}
    (hws : List.Forall₂ Walk.Follows ws l) (hfit : ∀ σ ∈ l, (p.outcomeAfter σ).fits = true) :
    ws.foldl (fun f w ↦ (f.record w).1) f =
      ⟨f.outcomes.insertAll (l.map p.solution), f.executions + l.length⟩ := by
  induction hws generalizing f with
  | nil => rfl
  | @cons w σ ws l hw _ ih =>
    obtain ⟨hσ, hl⟩ := List.forall_mem_cons.1 hfit
    rw [List.foldl_cons, record_eq f hw hσ, ih _ hl, List.length_cons, Nat.add_right_comm,
      Nat.add_assoc]
    rfl

/-- Walks that follow schedules have the outcomes of the schedules. -/
theorem map_outcome_eq {ws : List (Walk p s)} {l : List Schedule}
    (hws : List.Forall₂ Walk.Follows ws l) :
    ws.map (·.execution.outcome) = l.map p.outcomeAfter := by
  induction hws with
  | nil => rfl
  | cons hw _ ih => rw [List.map_cons, List.map_cons, hw.outcome_eq, ih]

/-- The schedule that a walk follows can be read off its trace. -/
theorem map_schedule_eq {ws : List (Walk p s)} {l : List Schedule}
    (hws : List.Forall₂ Walk.Follows ws l) (hl : ∀ σ ∈ l, p.Admits s σ) :
    (ws.map fun w ↦ w.trace.schedule) = l := by
  induction hws with
  | nil => rfl
  | cons hw _ ih =>
    obtain ⟨hσ, hl⟩ := List.forall_mem_cons.1 hl
    rw [List.map_cons, hw.trace, hσ.schedule_trace, ih hl]

/-- **A run from an incomplete walk adds what the schedules below its own lead to**, if all of that
can be written. -/
theorem run_of_follows {w : Walk p s} (hw : w.Follows σ) (hσ : p.Admits s σ)
    (hlen : σ.length ≠ p.total) (f : Findings)
    (hfit : ∀ τ ∈ p.extensions s w.remaining σ, (p.outcomeAfter τ).fits = true) :
    Exploration.run ⟨w, f⟩ =
      (⟨w, f.outcomes.insertAll ((p.extensions s w.remaining σ).map p.solution),
        f.executions + (p.extensions s w.remaining σ).length⟩, .ok ()) := by
  have hremaining := hw.remaining hσ
  obtain ⟨n, hn⟩ : ∃ n, w.remaining = n + 1 := Nat.exists_eq_add_one.2 (by omega)
  rw [hn] at hremaining hfit ⊢
  obtain ⟨ws, hvisits, hws⟩ := hw.visits hσ hremaining
  have hall : ∀ v ∈ ws, v.execution.outcome.fits = true := by
    rw [← List.forall_mem_map (P := fun o ↦ Outcome.fits o = true), map_outcome_eq hws,
      List.forall_mem_map]
    exact hfit
  rw [Exploration.run_eq_observing, hn, hvisits, Exploration.observing,
    Findings.foldl_observe_of_fits _ hall, foldl_record f hws hfit]

/-- A run whose outcomes can all be written finds what all schedules lead to. -/
theorem run_of_fits (hfit : ∀ σ, p.Legal s σ → (p.outcomeAfter σ).fits = true) :
    (Exploration.start p s).run = (⟨Walk.start p s, p.findings s⟩, .ok ()) := by
  have hrun := run_of_follows (Walk.follows_start p s) .nil (Nat.ne_of_lt p.total_pos) {}
  rw [Walk.remaining_start, Nat.zero_add] at hrun
  exact hrun fun σ hσ ↦ hfit σ (mem_schedules.1 hσ)

/-- A run ends at an outcome that cannot be written. -/
theorem run_of_not_fits (hσ : p.Legal s σ) (hnot : ¬(p.outcomeAfter σ).fits = true) :
    (Exploration.start p s).run.2 = .error .unwritable := by
  obtain ⟨ws, hvisits, hws⟩ := Walk.visits_start p s
  obtain ⟨w, hw, hout⟩ : ∃ w ∈ ws, w.execution.outcome = p.outcomeAfter σ := by
    have hmem : p.outcomeAfter σ ∈ (p.schedules s).map p.outcomeAfter :=
      List.mem_map_of_mem (mem_schedules.2 hσ)
    rw [← map_outcome_eq hws] at hmem
    exact List.mem_map.1 hmem
  rw [← hout] at hnot
  rw [Exploration.run_eq_observing, Exploration.start, hvisits, Exploration.observing]
  exact Findings.foldl_observe_of_not_fits _ hw hnot

/-- An exploration within the limits is a run from the start. -/
theorem explore_of_check (hc : p.check limits = .ok ()) :
    p.explore s limits =
      (Exploration.start p s).run.2.map fun _ ↦ (Exploration.start p s).run.1.findings := by
  rw [explore, hc]
  rcases (Exploration.start p s).run with ⟨e, fault | u⟩ <;> rfl

/-- If all outcomes can be written, an exploration returns what the search finds. -/
theorem explore_of_fits (hc : p.check limits = .ok ())
    (hfit : ∀ σ, p.Legal s σ → (p.outcomeAfter σ).fits = true) :
    p.explore s limits = .ok (p.findings s) := by
  rw [explore_of_check hc, run_of_fits hfit]
  rfl

/-- One legal schedule with an outcome that cannot be written is enough for an exploration to fail.
-/
theorem explore_of_not_fits (hc : p.check limits = .ok ()) (hσ : p.Legal s σ)
    (hnot : ¬(p.outcomeAfter σ).fits = true) : p.explore s limits = .error .unwritable := by
  rw [explore_of_check hc, run_of_not_fits hσ hnot]
  rfl

/-- No value occurs in an outcome but zero and what the program stores. So its stores decide whether
an exploration can fail. -/
theorem explore_of_storesFit (hc : p.check limits = .ok ()) (hv : p.storesFit = true) :
    p.explore s limits = .ok (p.findings s) :=
  explore_of_fits hc fun σ _ ↦ outcomeAfter_fits hv σ

/-- **An exploration succeeds if and only if the program is within the limits and all its outcomes
can be written; its findings are then those of all schedules.** -/
theorem explore_eq_ok_iff {f : Findings} : p.explore s limits = .ok f ↔
    p.check limits = .ok () ∧ (∀ σ, p.Legal s σ → (p.outcomeAfter σ).fits = true) ∧
      f = p.findings s := by
  constructor
  · intro h
    have hc : p.check limits = .ok () := by
      cases hc : p.check limits with
      | ok => rfl
      | error fault =>
        rw [explore, hc] at h
        cases h
    have hfit : ∀ σ, p.Legal s σ → (p.outcomeAfter σ).fits = true := by
      intro σ hσ
      by_contra hnot
      rw [explore_of_not_fits hc hσ hnot] at h
      cases h
    rw [explore_of_fits hc hfit] at h
    exact ⟨hc, hfit, (Except.ok.inj h).symm⟩
  · rintro ⟨hc, hfit, rfl⟩
    exact explore_of_fits hc hfit

/-! ### Reading the findings -/

/-- The schedule is legal, and its outcome has the key. -/
structure Yields (p : Program) (s : Setting) (σ : Schedule) (key : String) : Prop where
  /-- The schedule is legal. -/
  legal : p.Legal s σ
  /-- The outcome has the key. -/
  key_eq : (p.outcomeAfter σ).text = key

/-- **The keys that are found are those of the legal schedules.** -/
theorem mem_keys_findings : key ∈ (p.findings s).outcomes.keys ↔ ∃ σ, p.Yields s σ key := by
  rw [findings, OutcomeSet.mem_keys_insertAll]
  constructor
  · rintro (h | ⟨x, hx, rfl⟩)
    · cases h
    · obtain ⟨σ, hσ, rfl⟩ := List.mem_map.1 hx
      exact ⟨σ, mem_schedules.1 hσ, rfl⟩
  · rintro ⟨σ, hσ, rfl⟩
    exact Or.inr ⟨p.solution σ, List.mem_map_of_mem (mem_schedules.2 hσ), rfl⟩

theorem nodup_keys_findings (p : Program) (s : Setting) : (p.findings s).outcomes.keys.Nodup :=
  OutcomeSet.nodup_keys_insertAll (s := .empty) List.nodup_nil _

/-- Every solution that is found is that of a legal schedule, and no smaller one has its key. -/
theorem exists_schedule_of_mem_findings {x : Solution Run}
    (hx : x ∈ (p.findings s).outcomes.solutions) :
    ∃ σ, p.Yields s σ x.key ∧ x = p.solution σ ∧
      ∀ τ, p.Yields s τ x.key → τ = σ ∨ σ < τ := by
  obtain hx | ⟨-, l₁, l₂, hsplit, hfirst⟩ := OutcomeSet.mem_insertAll.1 hx
  · cases hx
  obtain ⟨ρ₁, ρ, hρ, rfl, hρ'⟩ := List.map_eq_append_iff.1 hsplit
  obtain ⟨σ, ρ₂, rfl, rfl, rfl⟩ := List.map_eq_cons_iff.1 hρ'
  refine ⟨σ, ⟨mem_schedules.1 (by simp [hρ]), rfl⟩, rfl, fun τ hτ ↦ ?_⟩
  -- all schedules are there in order, and none before `σ` has the key
  have hmem : τ ∈ ρ₁ ++ σ :: ρ₂ := hρ ▸ mem_schedules.2 hτ.legal
  have hsorted : (ρ₁ ++ σ :: ρ₂).Pairwise (· < ·) := hρ ▸ p.schedules_sorted s
  rcases List.mem_append.1 hmem with h | h
  · exact absurd hτ.key_eq (hfirst _ (List.mem_map_of_mem h))
  · rcases List.mem_cons.1 h with rfl | h
    · exact Or.inl rfl
    · exact Or.inr (List.rel_of_pairwise_cons (List.pairwise_append.1 hsorted).2.1 h)

/-- **The solutions are found in the order of their schedules.** -/
theorem findings_sorted (p : Program) (s : Setting) :
    (p.findings s).outcomes.solutions.Pairwise fun x y ↦
      x.witness.schedule < y.witness.schedule := by
  refine List.Pairwise.sublist (OutcomeSet.insertAll_sublist _ _) ?_
  show ((p.schedules s).map p.solution).Pairwise _
  rw [List.pairwise_map]
  refine (p.schedules_sorted s).imp_of_mem fun hσ hτ hlt ↦ ?_
  have hs := (mem_schedules.1 hσ).admits.schedule_trace
  have ht := (mem_schedules.1 hτ).admits.schedule_trace
  show (p.trace _).schedule < (p.trace _).schedule
  rwa [hs, ht]

/-- A set is as large as a list that has its members, each of them once. -/
theorem ncard_of_forall_mem_iff {α : Type} [DecidableEq α] {l : List α} {S : Set α} (hl : l.Nodup)
    (h : ∀ a, a ∈ l ↔ a ∈ S) : S.ncard = l.length := by
  have hset : S = (l.toFinset : Set α) := by
    ext a
    simp [h]
  rw [hset, Set.ncard_coe_finset, List.toFinset_card_of_nodup hl]

/-- **As many executions are counted as there are legal schedules.** -/
theorem executions_findings (p : Program) (s : Setting) :
    (p.findings s).executions = {σ | p.Legal s σ}.ncard :=
  (ncard_of_forall_mem_iff (p.nodup_schedules s) fun _ ↦ mem_schedules).symm

/-! ### Every execution once, in order -/

/-- The walks are visited by a search of the program and make up its findings, and they go through
all legal schedules in strictly increasing lexicographic order. -/
structure SearchedInOrder (p : Program) (s : Setting) (walks : List (Walk p s)) (f : Findings) :
    Prop where
  /-- The search comes to these walks, in this order, and to no fault. -/
  visited : (Walk.start p s).visit (fun l v ↦ l ++ [v]) (Walk.start p s).remaining [] =
    walks.map .ok
  /-- The findings are these walks, recorded one after the other. -/
  recorded : f = walks.foldl (fun f w ↦ (f.record w).1) {}
  /-- A search with a single walk, stepping in and out, finds the same and ends where it began. -/
  restored : (Exploration.start p s).search p.total = (⟨Walk.start p s, f⟩, .ok ())
  /-- The schedules strictly increase. -/
  increasing : (walks.map fun w ↦ w.trace.schedule).Pairwise (· < ·)
  /-- The schedules are exactly the legal ones. -/
  exhaustive : ∀ σ, σ ∈ (walks.map fun w ↦ w.trace.schedule) ↔ p.Legal s σ
  /-- As many executions are counted as there are legal schedules. -/
  count : f.executions = {σ | p.Legal s σ}.ncard
  /-- The witness of a key follows the least schedule that yields the key. -/
  least : ∀ x ∈ f.outcomes.solutions, p.Yields s x.witness.schedule x.key ∧
    ∀ σ, p.Yields s σ x.key → σ = x.witness.schedule ∨ x.witness.schedule < σ
  /-- The keys are found in the order of these least schedules. -/
  keysIncreasing : f.outcomes.solutions.Pairwise fun x y ↦
    x.witness.schedule < y.witness.schedule

/-- **An exploration visits every legal execution exactly once, in increasing order.** -/
theorem explore_searchedInOrder (p : Program) (s : Setting) (limits : Limits)
    (hc : p.check limits = .ok ()) (hv : p.storesFit = true) :
    ∃ f walks, p.explore s limits = .ok f ∧ p.SearchedInOrder s walks f := by
  have hfit : ∀ σ, p.Legal s σ → (p.outcomeAfter σ).fits = true := fun σ _ ↦ outcomeAfter_fits hv σ
  obtain ⟨ws, hvisits, hws⟩ := Walk.visits_start p s
  have hschedules : (ws.map fun w ↦ w.trace.schedule) = p.schedules s :=
    map_schedule_eq hws fun σ hσ ↦ (mem_schedules.1 hσ).admits
  refine ⟨p.findings s, ws, explore_of_fits hc hfit, ?_, ?_, ?_, ?_, ?_, p.executions_findings s,
    ?_, p.findings_sorted s⟩
  · rw [Walk.visit_eq_foldl, hvisits, ← List.flatMap_eq_foldl, List.flatMap_singleton']
  · rw [foldl_record {} hws fun σ hσ ↦ hfit σ (mem_schedules.1 hσ), findings, Nat.zero_add]
  · have hremaining : (Walk.start p s).remaining = p.total := Walk.remaining_start p s
    rw [← run_of_fits hfit, Exploration.start, ← hremaining]
    exact Exploration.search_eq_run (Walk.follows_start p s) {}
  · rw [hschedules]
    exact p.schedules_sorted s
  · intro σ
    rw [hschedules, mem_schedules]
  · intro x hx
    obtain ⟨σ, hσ, rfl, hleast⟩ := exists_schedule_of_mem_findings hx
    have htrace : (p.solution σ).witness.schedule = σ := hσ.legal.admits.schedule_trace
    rw [htrace]
    exact ⟨hσ, hleast⟩

/-- The first thread may see its own store before the other thread does: the two models tell the
difference. -/
def storeForwarding : Program where
  threads := [[.store "x" 1, .load "x", .load "y"], [.store "y" 2, .store "x" 2]]
  flatten_ne_nil := by decide

theorem storeForwarding_searchedInOrder :
    storeForwarding.check .standard = .ok () ∧ storeForwarding.storesFit = true ∧
      ∃ f walks, storeForwarding.explore { model := .tso, readAround := true } .standard = .ok f ∧
        storeForwarding.SearchedInOrder { model := .tso, readAround := true } walks f :=
  ⟨rfl, by decide, explore_searchedInOrder _ _ _ rfl (by decide)⟩

end Program

end Litmus

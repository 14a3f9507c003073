import Litmus.Proofs.Inclusion
import Litmus.Proofs.Keys
import Litmus.Proofs.Ordering
import Litmus.Proofs.Replay

/-!
# What breaks store atomicity

A comparison of the two models lists the outcomes that TSO allows and IBM370 does not. All of them
have one cause: a load has run before an earlier store of its own thread to its variable
(`Run.Overtakes`). The cause is in every execution with such an outcome, and so in the witness that
was kept for it (`Program.compare_overtakes`).

It would not do to look for a forwarded value. A load that has overtaken only some of these stores
reads memory, and what it sees there can be an older value of its own thread, which IBM370 never
lets it see.

The proof takes an execution under TSO in which nothing is overtaken and shows that it is one under
IBM370, step by step: a move of TSO is one of IBM370 as soon as all stores in question have run
(`Program.mem_moves_ibm370_iff`).
-/

namespace Litmus

/-! ### Overtaking -/

/-- Whether one step overtakes another that comes later in a run: it is a load, and the other one is
a store to its variable that stands before it in its thread. -/
def Step.overtakes (t u : Step Instruction) : Bool :=
  t.instruction.isLoad && u.instruction.storesTo t.instruction.name &&
    u.position.thread == t.position.thread && u.position.index < t.position.index

/-- Some load runs before an earlier store of its own thread to its variable. -/
def Run.Overtakes (r : Run) : Prop := ∃ t u, [t, u].Sublist r ∧ t.overtakes u = true

/-- Whether a run has an overtaking can be checked pair by pair. -/
theorem Run.overtakes_iff {r : Run} :
    r.Overtakes ↔ ¬r.Pairwise fun t u ↦ ¬t.overtakes u = true := by
  rw [List.pairwise_iff_forall_sublist]
  simp only [Run.Overtakes, not_forall, not_not, exists_prop]

instance (r : Run) : Decidable r.Overtakes := decidable_of_iff _ Run.overtakes_iff.symm

/-- The violations are the keys that are found under TSO and not under IBM370. -/
theorem Comparison.mem_violations {c : Comparison} {key : String} : key ∈ c.violations ↔
    key ∈ c.writeAtomic.outcomes.keys ∧ key ∉ c.storeAtomic.outcomes.keys :=
  OutcomeSet.mem_beyond

namespace Program

variable {p : Program} {r : Run} {o : Outcome} {limits : Limits} {b b' : Bool}

/-- A load overtakes the stores of `Program.ownStores` that run after it. -/
theorem overtakes_of_mem_ownStores {t u : Step Instruction} {x : String}
    (ht : p.get? t.position = some t.instruction) (hu : p.get? u.position = some u.instruction)
    (hload : t.instruction = .load x) (hown : u.position ∈ p.ownStores t.position) :
    t.overtakes u = true := by
  obtain ⟨-, hthread, hlt, i, v, hi, hv⟩ := mem_ownStores.1 hown
  obtain rfl : t.instruction = i := Option.some.inj (ht.symm.trans hi)
  have hstore : u.instruction = .store x v := by
    rw [hload] at hv
    exact Option.some.inj (hu.symm.trans hv)
  simp [Step.overtakes, hload, hstore, hthread, hlt, Instruction.isLoad, Instruction.storesTo,
    Instruction.name]

/-- If nothing is overtaken, all earlier stores of its thread to its variable have run when a step
is made. -/
theorem Replays.mem_of_mem_ownStores {s : Setting} {before after : Run} {t : Step Instruction}
    {q : Position} (h : p.Replays s (before ++ t :: after) o)
    (hnot : ¬Run.Overtakes (before ++ t :: after)) (hm : t.move ∈ p.moves s before.schedule.order)
    (hq : q ∈ p.ownStores t.position) : q ∈ before.schedule.order := by
  obtain ⟨hpos, hthread, hlt, -⟩ := mem_ownStores.1 hq
  have ht : p.get? t.position = some t.instruction := h.instruction t (by simp)
  cases hinstr : t.instruction with
  | store x v =>
    rw [hinstr] at ht
    exact (ready_iff.1 (mem_moves.1 hm).2.1).2 q hpos
      (precedes_of_store s.model ht hpos hthread hlt)
  | load x =>
    -- a store that has not run comes later, since the run is complete, and is overtaken
    have hrun : q ∈ (before ++ t :: after).map (·.position) := h.perm.symm.subset hpos
    rw [List.map_append, List.mem_append, List.map_cons, List.mem_cons] at hrun
    rcases hrun with hrun | rfl | hrun
    · rwa [Run.order_schedule]
    · exact absurd hlt (Int.lt_irrefl _)
    · obtain ⟨u, hu, rfl⟩ := List.mem_map.1 hrun
      have hsub : [t, u].Sublist (before ++ t :: after) :=
        ((List.singleton_sublist.2 hu).cons_cons t).trans (List.sublist_append_right before _)
      have hu' : p.get? u.position = some u.instruction := h.instruction u (by simp [hu])
      exact absurd ⟨t, u, hsub, overtakes_of_mem_ownStores ht hu' hinstr hq⟩ hnot

/-- **An execution under TSO in which nothing is overtaken is one under IBM370.** -/
theorem Replays.legal_ibm370 (h : p.Replays ⟨.tso, b⟩ r o) (hnot : ¬r.Overtakes) :
    p.Legal ⟨.ibm370, b'⟩ r.schedule := by
  refine (replays_iff.1 h).1.of_moves fun σ m τ hsplit hm ↦ ?_
  obtain ⟨before, rest, rfl, rfl, hrest⟩ := List.map_eq_append_iff.1 hsplit
  obtain ⟨t, after, rfl, rfl, rfl⟩ := List.map_eq_cons_iff.1 hrest
  exact mem_moves_ibm370_iff.2 ⟨hm, fun q ↦ h.mem_of_mem_ownStores hnot hm⟩

/-- Its outcome is then one that IBM370 allows. -/
theorem Replays.mem_findings_ibm370 (h : p.Replays ⟨.tso, b⟩ r o) (hnot : ¬r.Overtakes) :
    o ∈ (p.findings ⟨.ibm370, b'⟩).outcomes :=
  mem_outcomes_findings.2 ⟨r.schedule, h.legal_ibm370 hnot, (replays_iff.1 h).2.2⟩

/-! ### Comparing the models -/

/-- A comparison consists of two searches, and neither fails if the stores can be written. -/
theorem compare_of_storesFit (hc : p.check limits = .ok ()) (hv : p.storesFit = true) (b : Bool) :
    p.compare limits b = .ok ⟨p, p.findings ⟨.ibm370, false⟩, p.findings ⟨.tso, b⟩⟩ := by
  rw [compare, explore_of_storesFit hc hv, explore_of_storesFit hc hv]
  rfl

/-- **Every violation comes from a load that overtakes.** Every execution under TSO with the key of
a violation has a load that runs before an earlier store of its own thread to its variable, and the
witness of the violation is such an execution. In other words, an execution under TSO without such a
load has an outcome that IBM370 allows. -/
theorem compare_overtakes (p : Program) (limits : Limits) (around : Bool)
    (hc : p.check limits = .ok ()) (hv : p.storesFit = true) :
    ∃ c, p.compare limits around = .ok c ∧
      (∀ key ∈ c.violations,
        (∀ r o, p.Replays { model := .tso, readAround := around } r o → o.key = .ok key →
          r.Overtakes) ∧
        ∃ x, c.writeAtomic.outcomes.find key = .ok x ∧
          p.Replays { model := .tso, readAround := around } x.witness x.outcome ∧
          x.outcome.key = .ok key ∧ x.witness.Overtakes) ∧
      ∀ r o, p.Replays { model := .tso, readAround := around } r o → ¬r.Overtakes →
        o ∈ c.storeAtomic.outcomes := by
  refine ⟨_, compare_of_storesFit hc hv around, fun key hkey ↦ ?_,
    fun r o hr hnot ↦ hr.mem_findings_ibm370 hnot⟩
  obtain ⟨htso, hibm370⟩ := Comparison.mem_violations.1 hkey
  -- a run without an overtaking is one of IBM 370, which has no outcome with this key
  have hall : ∀ r o, p.Replays ⟨.tso, around⟩ r o → o.key = .ok key → r.Overtakes := by
    intro r o hr ho
    by_contra hnot
    obtain ⟨hlegal, -, rfl⟩ := replays_iff.1 hr
    refine hibm370 (mem_keys_findings.2 ⟨r.schedule, hr.legal_ibm370 hnot, ?_⟩)
    exact Except.ok.inj ((key_outcomeAfter hv r.schedule).symm.trans ho)
  obtain ⟨x, hx, rfl⟩ := OutcomeSet.mem_keys.1 htso
  obtain ⟨σ, hσ, rfl, -⟩ := exists_schedule_of_mem_findings hx
  have hreplays := hσ.legal.replays
  have htext := key_outcomeAfter hv σ
  exact ⟨hall, p.solution σ, OutcomeSet.find_of_mem (p.nodup_keys_findings _) hx, hreplays, htext,
    hall _ _ hreplays htext⟩

/-- The only violation: the first thread sees its own store before the others do, and has overtaken
it. -/
theorem storeForwarding_overtakes :
    storeForwarding.check .standard = .ok () ∧ storeForwarding.storesFit = true ∧
      ∃ c x, storeForwarding.compare .standard false = .ok c ∧
        c.violations = ["[x]==1; [y]==2; x==1; y==0; "] ∧
        c.writeAtomic.outcomes.find "[x]==1; [y]==2; x==1; y==0; " = .ok x ∧
        x.witness.Overtakes := by
  obtain ⟨c, hc, hviolations, -⟩ :=
    compare_overtakes storeForwarding .standard false rfl (by decide)
  have hone : c.violations = ["[x]==1; [y]==2; x==1; y==0; "] := by
    obtain rfl := Except.ok.inj (hc.symm.trans (compare_of_storesFit rfl (by decide) false))
    decide +kernel
  obtain ⟨-, x, hx, -, -, hovertakes⟩ := hviolations _ (hone ▸ List.mem_singleton.2 rfl)
  exact ⟨rfl, by decide, c, x, hc, hone, hx, hovertakes⟩

end Program

end Litmus

import Litmus.Proofs.Continuation
import Litmus.Proofs.Exploration

/-!
# A search never gets stuck

Most functions of a walk can fail: positions can lead nowhere, instructions can run twice, variables
can be undeclared, and steps can be taken back in the wrong order. A search does none of this. At
every point that can be reached by steps that a walk offers (`Walk.ReachedIn`), it offers some step
unless the walk is complete, and no step that it offers comes to a fault, neither on the way in nor
on the way out (`Walk.Progresses`).

* A walk that is reached follows a schedule of as many moves (`Walk.ReachedIn.follows`), and what it
  offers are the moves that the schedule allows next (`Walk.Stands.exists_move`).
* A schedule can always be completed (`Program.Admits.exists_legal`), so there is a next move as
  long as something has not run (`Program.Admits.exists_move`). All schedules of a program have the
  same length when they are complete.
-/

namespace Litmus

namespace Program

variable {p : Program} {s : Setting} {σ : Schedule}

/-- An incomplete schedule has a next move. -/
theorem Admits.exists_move (h : p.Admits s σ) (hlen : σ.length ≠ p.total) :
    ∃ m, m ∈ p.moves s σ.order := by
  obtain ⟨τ, hτ⟩ := h.exists_legal
  cases τ with
  | nil =>
    rw [List.append_nil] at hτ
    exact absurd (legal_iff.1 hτ).2 hlen
  | cons m τ =>
    have hm : p.Admits s (σ ++ [m]) :=
      Legal.admits_prefix (τ := τ) (by rwa [List.append_assoc])
    exact ⟨m, (admits_snoc.1 hm).2⟩

/-- No schedule is longer than the program. -/
theorem Admits.length_le (h : p.Admits s σ) : σ.length ≤ p.total := by
  rw [← σ.length_order, ← p.length_positions]
  exact (List.subperm_of_subset h.nodup h.subset).length_le

end Program

namespace Walk

variable {p : Program} {s : Setting} {w : Walk p s} {σ : Schedule} {q : Position} {n : ℕ}

/-! ### Reaching a walk -/

/-- The walk is reached from the start in `n` steps, each of them into a position that is offered
and with a choice that is offered for it. -/
inductive ReachedIn {p : Program} {s : Setting} : ℕ → Walk p s → Prop
  /-- Nothing has run. -/
  | start : ReachedIn 0 (start p s)
  /-- One more step is taken. -/
  | step {n : ℕ} {w w' : Walk p s} {q : Position} {cs : List Choice} {c : Choice} {prior : Int}
    (h : ReachedIn n w) (hq : q ∈ w.eligible) (hcs : w.choices q = .ok cs) (hc : c ∈ cs)
    (henter : w.enter q c = (w', .ok prior)) : ReachedIn (n + 1) w'

/-- **What a walk offers is a move that is possible where it stands.** -/
theorem Stands.exists_move {done : List Position} {g : Image} (h : w.Stands done g)
    (hq : q ∈ w.eligible) {cs : List Choice} (hcs : w.choices q = .ok cs) {c : Choice}
    (hc : c ∈ cs) : ∃ m ∈ p.moves s done, m.position = q ∧ c = ⟨m.source, p.valueOf g m⟩ := by
  obtain ⟨hpos, hready⟩ := h.mem_eligible.1 hq
  rw [h.choices hpos] at hcs
  obtain rfl := Except.ok.inj hcs
  obtain ⟨src, hsrc, rfl⟩ := List.mem_map.1 hc
  exact ⟨⟨q, src⟩, Program.mem_moves.2 ⟨hpos, hready, hsrc⟩, rfl, rfl⟩

/-- **A walk that is reached follows a schedule with as many moves.** -/
theorem ReachedIn.follows (h : ReachedIn n w) :
    ∃ σ, p.Admits s σ ∧ w.Follows σ ∧ σ.length = n := by
  induction h with
  | start => exact ⟨[], .nil, follows_start p s, rfl⟩
  | @step n w w' q cs c prior _ hq hcs hc henter ih =>
    obtain ⟨σ, hσ, hw, rfl⟩ := ih
    obtain ⟨m, hm, rfl, rfl⟩ := hw.exists_move hq hcs hc
    obtain ⟨w₁, prior₁, henter₁, hw₁⟩ := hw.enter hm
    obtain rfl : w' = w₁ := congrArg Prod.fst (henter.symm.trans henter₁)
    exact ⟨σ ++ [m], hσ.snoc hm, hw₁, by rw [List.length_append, List.length_singleton]⟩

/-! ### What can be done from there -/

/-- **The walk, `n` steps after the start, can go on and comes to no fault**: it offers a step
unless it is complete, its steps can be taken and taken back, and a complete walk can be
recorded. -/
structure Progresses (w : Walk p s) (n : ℕ) : Prop where
  /-- The edges of every position of the program can be asked for. -/
  dependencies : ∀ q ∈ p.positions, ∃ l, w.graph.dependencies q = .ok l
  /-- Something may run next if and only if not everything has run. -/
  eligible : w.eligible ≠ [] ↔ w.execution.complete = false
  /-- What may run next has a choice. -/
  choices : ∀ q ∈ w.eligible, ∃ cs, w.choices q = .ok cs ∧ cs ≠ []
  /-- Every choice can be entered, and leaving it again restores the walk. -/
  steps : ∀ q ∈ w.eligible, ∀ cs, w.choices q = .ok cs → ∀ c ∈ cs, ∃ w' prior,
    w.enter q c = (w', .ok prior) ∧ w'.leave q prior = (w, .ok ())
  /-- A complete walk can be recorded. -/
  recorded : w.execution.complete = true → ∀ f : Findings, (f.record w).2 = .ok ()
  /-- No more steps can be taken than there are instructions. -/
  bounded : n ≤ p.total
  /-- The walk is complete when as many steps have been taken. -/
  complete : w.execution.complete = true ↔ n = p.total

/-- **A search gets stuck only where it is done.** -/
theorem Follows.eligible_eq_nil_iff (h : w.Follows σ) (hσ : p.Admits s σ) :
    w.eligible = [] ↔ w.execution.complete = true := by
  rw [h.complete_iff]
  constructor
  · intro hnil
    by_contra hlen
    obtain ⟨m, hm⟩ := hσ.exists_move hlen
    obtain ⟨hq, hready, -⟩ := Program.mem_moves.1 hm
    have hmem : m.position ∈ w.eligible := h.eligible ▸ List.mem_filter.2 ⟨hq, hready⟩
    rw [hnil] at hmem
    cases hmem
  · intro hlen
    have hlegal : p.Legal s σ := Program.legal_iff.2 ⟨hσ, hlen⟩
    refine List.eq_nil_iff_forall_not_mem.2 fun q hq ↦ ?_
    rw [h.eligible] at hq
    obtain ⟨hpos, hready⟩ := List.mem_filter.1 hq
    exact (Program.ready_iff.1 hready).1 (hlegal.perm.symm.subset hpos)

/-- **Every choice that a walk offers can be entered, and left again.** -/
theorem Follows.enter_leave (h : w.Follows σ) (hq : q ∈ w.eligible) {cs : List Choice}
    (hcs : w.choices q = .ok cs) {c : Choice} (hc : c ∈ cs) :
    ∃ w' prior, w.enter q c = (w', .ok prior) ∧ w'.leave q prior = (w, .ok ()) := by
  obtain ⟨m, hm, rfl, rfl⟩ := h.exists_move hq hcs hc
  obtain ⟨w', prior, henter, -⟩ := h.enter hm
  obtain ⟨hpos, hready, -⟩ := Program.mem_moves.1 hm
  have hforce := h.inForce hpos (Program.ready_iff.1 hready).1
  exact ⟨w', prior, henter, leave_of_enter hpos hforce henter⟩

/-- **A walk that is reached can go on until it is complete.** -/
theorem ReachedIn.progresses (h : ReachedIn n w) (hv : p.storesFit = true) : w.Progresses n := by
  obtain ⟨σ, hσ, hw, rfl⟩ := h.follows
  refine ⟨fun q hq ↦ ⟨_, w.graph.dependencies_eq hq⟩, ?_, fun q hq ↦ ?_,
    fun q hq cs hcs c hc ↦ hw.enter_leave hq hcs hc, fun _ f ↦ ?_, hσ.length_le, hw.complete_iff⟩
  · rw [ne_eq, hw.eligible_eq_nil_iff hσ, Bool.not_eq_true]
  · rw [hw.eligible] at hq
    obtain ⟨hpos, -⟩ := List.mem_filter.1 hq
    refine ⟨_, hw.choices hpos, fun hnil ↦ ?_⟩
    exact p.sourcesAfter_ne_nil s σ.order hpos (List.map_eq_nil_iff.1 hnil)
  · have hfit : w.execution.outcome.fits = true := by
      rw [hw.outcome_eq]
      exact Program.outcomeAfter_fits hv σ
    rw [Findings.record_of_fits f hfit]

end Walk

namespace Program

variable {p : Program} {s : Setting}

/-- Every program has an execution in every setting. -/
theorem executions_findings_pos (p : Program) (s : Setting) : 0 < (p.findings s).executions := by
  obtain ⟨σ, hσ⟩ := Admits.nil.exists_legal (p := p) (s := s)
  exact List.length_pos_of_mem (mem_schedules.2 hσ)

/-- So there is always a solution. -/
theorem solutions_findings_ne_nil (p : Program) (s : Setting) :
    (p.findings s).outcomes.solutions ≠ [] := by
  obtain ⟨σ, hσ⟩ := Admits.nil.exists_legal (p := p) (s := s)
  have hkey : (p.outcomeAfter ([] ++ σ)).text ∈ (p.findings s).outcomes.keys :=
    mem_keys_findings.2 ⟨_, hσ, rfl⟩
  intro hnil
  rw [OutcomeSet.keys_eq_map, hnil] at hkey
  cases hkey

/-- **A search never gets stuck and never comes to a fault.** Every walk that it can reach goes on
until it is complete, after as many steps as the program has instructions. So a run returns, as a
recursion and with steps that are taken back, and has found an outcome. -/
theorem explore_progresses (p : Program) (s : Setting) (limits : Limits)
    (hc : p.check limits = .ok ()) (hv : p.storesFit = true) :
    (∀ (n : ℕ) (w : Walk p s), w.ReachedIn n → w.Progresses n) ∧
      ∃ f, (Exploration.start p s).run = (⟨Walk.start p s, f⟩, .ok ()) ∧
        (Exploration.start p s).search p.total = (⟨Walk.start p s, f⟩, .ok ()) ∧
        p.explore s limits = .ok f ∧ 1 ≤ f.executions ∧ f.outcomes.solutions ≠ [] := by
  have hrun : (Exploration.start p s).run = (⟨Walk.start p s, p.findings s⟩, .ok ()) :=
    run_of_fits fun σ _ ↦ outcomeAfter_fits hv σ
  refine ⟨fun n w hw ↦ hw.progresses hv, p.findings s, hrun, ?_, explore_of_storesFit hc hv,
    p.executions_findings_pos s, p.solutions_findings_ne_nil s⟩
  have hsearch := Exploration.search_eq_run (Walk.follows_start p s) {}
  rwa [Walk.remaining_start, ← Exploration.start, hrun] at hsearch

/-- The first step lets the load of `x` overtake the store before it, and the search goes on. -/
theorem storeForwarding_progresses :
    storeForwarding.check .standard = .ok () ∧ storeForwarding.storesFit = true ∧
      (∃ w : Walk storeForwarding { model := .tso }, w.ReachedIn 1 ∧
        w.execution.complete = false ∧ w.eligible ≠ [] ∧ w.Progresses 1) ∧
      ∃ f, storeForwarding.explore { model := .tso } .standard = .ok f ∧ 1 ≤ f.executions ∧
        f.outcomes.solutions ≠ [] := by
  obtain ⟨hwalks, f, -, -, hf, hpos, hne⟩ :=
    explore_progresses storeForwarding { model := .tso } .standard rfl (by decide)
  have hq : ⟨0, 1⟩ ∈ (Walk.start storeForwarding { model := .tso }).eligible := by decide
  have hcs : (Walk.start storeForwarding { model := .tso }).choices ⟨0, 1⟩ =
      .ok [⟨some .forwarded, 1⟩] := rfl
  obtain ⟨w, prior, henter, -⟩ :=
    (hwalks 0 _ .start).steps ⟨0, 1⟩ hq _ hcs _ (List.mem_singleton.2 rfl)
  have hw : w.ReachedIn 1 := .step .start hq hcs (List.mem_singleton.2 rfl) henter
  have hincomplete : w.execution.complete = false := by
    rw [← Bool.not_eq_true, (hwalks 1 w hw).complete]
    decide
  exact ⟨rfl, by decide, ⟨w, hw, hincomplete, (hwalks 1 w hw).eligible.2 hincomplete,
    hwalks 1 w hw⟩, f, hf, hpos, hne⟩

end Program

end Litmus

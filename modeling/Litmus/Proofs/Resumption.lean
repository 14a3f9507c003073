import Litmus.Proofs.Keys
import Litmus.Proofs.Progress
import Litmus.Proofs.Replay

/-!
# Running from any point

A run need not begin at the start. It can be made inside any number of steps, and more than once;
the findings of all runs accumulate. `Exploration.Reached` says which explorations come about in
this way: steps are entered and left again, and at any point between them there may be a run.

What a run adds depends on its walk alone (`Walk.completions`): the legal executions whose traces
begin with the trace of the walk. Each of them counts, its outcome is found, and what had been found
before keeps its outcome and its witness (`Exploration.AddsCompletions`). Nothing else changes, and
so a second run from the same point can only count again.

* A walk that is reached follows a schedule, and a run adds the solutions of the schedules below it
  (`Program.run_of_follows`). These are the completions of the walk
  (`Walk.Follows.mem_completions_iff`).
* That an outcome is found whenever its key is there needs all findings to be solutions of the
  program, also those of earlier runs (`Exploration.Reached.sound`).
-/

namespace Litmus

/-! ### The executions that continue a walk -/

/-- The trace of a schedule begins with the traces of its beginnings, and with no others. -/
theorem Program.Admits.trace_prefix_iff {p : Program} {s : Setting} {σ τ : Schedule}
    (hσ : p.Admits s σ) (hτ : p.Admits s τ) : p.trace σ <+: p.trace τ ↔ σ <+: τ := by
  constructor
  · intro h
    have hmoves : (p.trace σ).schedule <+: (p.trace τ).schedule := h.map Step.move
    rwa [hσ.schedule_trace, hτ.schedule_trace] at hmoves
  · rintro ⟨ρ, rfl⟩
    rw [trace, trace, stepsFrom_append]
    exact List.prefix_append _ _

namespace Walk

variable {p : Program} {s : Setting} {w w' : Walk p s} {σ τ : Schedule} {q : Position} {c : Choice}
  {n : ℕ}

/-- **The complete executions that continue a walk**: their traces begin with its trace. -/
def completions (w : Walk p s) : Set Schedule := {σ | p.Legal s σ ∧ w.trace <+: p.trace σ}

/-- The completions of a walk are the schedules below the one that it follows. -/
theorem Follows.mem_completions_iff (h : w.Follows σ) (hσ : p.Admits s σ) :
    τ ∈ p.extensions s w.remaining σ ↔ τ ∈ w.completions := by
  show _ ↔ p.Legal s τ ∧ w.trace <+: p.trace τ
  rw [Program.mem_extensions hσ, h.remaining hσ, Program.legal_iff, h.trace]
  constructor
  · rintro ⟨hτ, hpre, hlen⟩
    exact ⟨⟨hτ, hlen⟩, (hσ.trace_prefix_iff hτ).2 hpre⟩
  · rintro ⟨⟨hτ, hlen⟩, hpre⟩
    exact ⟨hτ, (hσ.trace_prefix_iff hτ).1 hpre, hlen⟩

/-- The walk offers to run the instruction at the position with the choice. -/
def Offers (w : Walk p s) (q : Position) (c : Choice) : Prop :=
  q ∈ w.eligible ∧ ∃ cs, w.choices q = .ok cs ∧ c ∈ cs

/-- A step that was offered can be taken back, wherever the walk has come by such steps. -/
theorem ReachedIn.leave_eq (h : w.ReachedIn n) (ho : w.Offers q c) {prior : Int}
    (henter : w.enter q c = (w', .ok prior)) : w'.leave q prior = (w, .ok ()) := by
  obtain ⟨σ, -, hw, -⟩ := h.follows
  obtain ⟨hq, cs, hcs, hc⟩ := ho
  obtain ⟨v, u, henter', hleave⟩ := hw.enter_leave hq hcs hc
  obtain ⟨rfl, hprior⟩ := Prod.mk.inj (henter.symm.trans henter')
  obtain rfl := Except.ok.inj hprior
  exact hleave

end Walk

namespace Exploration

variable {p : Program} {s : Setting} {e e' : Exploration p s} {σ : Schedule}

/-! ### Explorations in progress -/

/-- **The exploration comes about from one that has not begun**, by steps that its walk offers, by
leaving the latest of them, and by runs. -/
inductive Reached {p : Program} {s : Setting} : Exploration p s → Prop
  /-- Nothing has happened. -/
  | start : Reached (start p s)
  /-- A step is entered. -/
  | enter {e : Exploration p s} {w : Walk p s} {q : Position} {c : Choice} {prior : Int}
    (h : Reached e) (ho : e.walk.Offers q c) (henter : e.walk.enter q c = (w, .ok prior)) :
    Reached { e with walk := w }
  /-- The step that led from `v` to the walk is left. -/
  | leave {e : Exploration p s} {v w : Walk p s} {n : ℕ} {q : Position} {c : Choice} {prior : Int}
    {r : Except Fault Unit} (h : Reached e) (hv : v.ReachedIn n) (ho : v.Offers q c)
    (henter : v.enter q c = (e.walk, .ok prior)) (hleave : e.walk.leave q prior = (w, r)) :
    Reached { e with walk := w }
  /-- The exploration runs from where it stands. -/
  | run {e e' : Exploration p s} {r : Except Fault Unit} (h : Reached e) (hrun : e.run = (e', r)) :
    Reached e'

/-- A search leaves its walk where it was, even if it fails. -/
theorem walk_of_run {r : Except Fault Unit} (h : e.run = (e', r)) : e'.walk = e.walk := by
  rw [run_eq_observing] at h
  exact congrArg (fun x ↦ x.1.walk) h.symm

/-- The walk of an exploration is reached by steps alone. -/
theorem Reached.walk (h : e.Reached) : ∃ n, e.walk.ReachedIn n := by
  induction h with
  | start => exact ⟨0, .start⟩
  | enter _ ho henter ih =>
    obtain ⟨n, hn⟩ := ih
    obtain ⟨hq, cs, hcs, hc⟩ := ho
    exact ⟨n + 1, hn.step hq hcs hc henter⟩
  | @leave e v w n q c prior r _ hv ho henter hleave _ =>
    obtain rfl : v = w := congrArg Prod.fst ((hv.leave_eq ho henter).symm.trans hleave)
    exact ⟨n, hv⟩
  | run _ hrun ih => rwa [walk_of_run hrun]

/-- However an exploration has come to where it is, its walk follows a schedule. -/
theorem Reached.follows (h : e.Reached) : ∃ σ, p.Admits s σ ∧ e.walk.Follows σ := by
  obtain ⟨n, hn⟩ := h.walk
  obtain ⟨σ, hσ, hw, -⟩ := hn.follows
  exact ⟨σ, hσ, hw⟩

/-! ### What a run adds -/

/-- **A run from an incomplete walk goes through its completions, each of them once.** -/
theorem Reached.exists_run (h : e.Reached) (hv : p.storesFit = true)
    (hc : e.walk.execution.complete = false) :
    ∃ l : List Schedule, l.Nodup ∧ (∀ τ, τ ∈ l ↔ τ ∈ e.walk.completions) ∧
      e.run = (⟨e.walk, e.findings.outcomes.insertAll (l.map p.solution),
        e.findings.executions + l.length⟩, .ok ()) := by
  obtain ⟨σ, hσ, hw⟩ := h.follows
  refine ⟨p.extensions s e.walk.remaining σ, p.nodup_extensions s _ σ,
    fun τ ↦ hw.mem_completions_iff hσ, ?_⟩
  have hlen : σ.length ≠ p.total := by
    rw [ne_eq, ← hw.complete_iff, hc]
    exact Bool.false_ne_true
  exact Program.run_of_follows hw hσ hlen e.findings fun τ _ ↦ Program.outcomeAfter_fits hv τ

/-- A run from a complete walk does nothing. -/
theorem Reached.run_of_complete (h : e.Reached) (hc : e.walk.execution.complete = true) :
    e.run = (e, .ok ()) := by
  obtain ⟨σ, hσ, hw⟩ := h.follows
  have hremaining : e.walk.remaining = 0 := by
    have hlen := hw.complete_iff.1 hc
    have hsum := hw.remaining hσ
    omega
  rw [run_eq_observing, hremaining]
  rfl

/-- All findings are solutions of the program, no two of them with the same key. -/
structure Sound (e : Exploration p s) : Prop where
  /-- Every solution is that of a legal schedule. -/
  exists_solution : ∀ x ∈ e.findings.outcomes.solutions, ∃ σ, p.Legal s σ ∧ x = p.solution σ
  /-- The keys are distinct. -/
  nodup : e.findings.outcomes.keys.Nodup

/-- Adding solutions of the program keeps the findings sound. -/
theorem Sound.insertAll (h : e.Sound) {l : List Schedule} (hl : ∀ τ ∈ l, p.Legal s τ)
    (w : Walk p s) (n : ℕ) : Sound ⟨w, e.findings.outcomes.insertAll (l.map p.solution), n⟩ := by
  refine ⟨fun x hx ↦ ?_, OutcomeSet.nodup_keys_insertAll h.nodup _⟩
  rcases OutcomeSet.mem_of_mem_insertAll hx with hx | hx
  · exact h.exists_solution x hx
  · obtain ⟨τ, hτ, rfl⟩ := List.mem_map.1 hx
    exact ⟨τ, hl τ hτ, rfl⟩

/-- **Whatever has been found is a solution of the program.** -/
theorem Reached.sound (h : e.Reached) (hv : p.storesFit = true) : e.Sound := by
  induction h with
  | start => exact ⟨fun x hx ↦ absurd hx List.not_mem_nil, List.nodup_nil⟩
  | enter _ _ _ ih => exact ⟨ih.exists_solution, ih.nodup⟩
  | leave _ _ _ _ _ ih => exact ⟨ih.exists_solution, ih.nodup⟩
  | @run e e' r h hrun ih =>
    cases hc : e.walk.execution.complete with
    | true =>
      obtain rfl : e = e' := congrArg Prod.fst ((h.run_of_complete hc).symm.trans hrun)
      exact ih
    | false =>
      obtain ⟨l, -, hl, hrun'⟩ := h.exists_run hv hc
      obtain rfl : _ = e' := congrArg Prod.fst (hrun'.symm.trans hrun)
      exact ih.insertAll (fun τ hτ ↦ ((hl τ).1 hτ).1) _ _

/-- **A run that leads from `e` to `e'` adds the completions of its walk, and no more.** -/
structure AddsCompletions (e e' : Exploration p s) : Prop where
  /-- The walk is where it was: its edges, its memory, its loads, its trail and its trace. -/
  walk : e'.walk = e.walk
  /-- Every completion is counted. -/
  executions : e'.findings.executions = e.findings.executions + e.walk.completions.ncard
  /-- What had been found keeps its place, its outcome and its witness. -/
  kept : e.findings.outcomes.solutions <+: e'.findings.outcomes.solutions
  /-- The outcomes of the completions are added. -/
  outcomes : ∀ o, o ∈ e'.findings.outcomes ↔
    o ∈ e.findings.outcomes ∨ ∃ σ ∈ e.walk.completions, p.outcomeAfter σ = o
  /-- So are their keys. -/
  keys : ∀ key, key ∈ e'.findings.outcomes.keys ↔
    key ∈ e.findings.outcomes.keys ∨ ∃ σ ∈ e.walk.completions, (p.outcomeAfter σ).text = key
  /-- No key is there twice. -/
  nodup : e'.findings.outcomes.keys.Nodup
  /-- A new witness is an execution that begins with the trace of the walk. -/
  witnesses : ∀ x ∈ e'.findings.outcomes.solutions, x ∈ e.findings.outcomes.solutions ∨
    e.walk.trace <+: x.witness ∧ p.Replays s x.witness x.outcome

/-- The findings with the solutions of all completions added. -/
theorem Sound.addsCompletions (h : e.Sound) {l : List Schedule} (hl : l.Nodup)
    (hmem : ∀ τ, τ ∈ l ↔ τ ∈ e.walk.completions) :
    e.AddsCompletions ⟨e.walk, e.findings.outcomes.insertAll (l.map p.solution),
      e.findings.executions + l.length⟩ := by
  have hsound := h.insertAll (fun τ hτ ↦ ((hmem τ).1 hτ).1) e.walk
    (e.findings.executions + l.length)
  have hkeys : ∀ key, key ∈ (e.findings.outcomes.insertAll (l.map p.solution)).keys ↔
      key ∈ e.findings.outcomes.keys ∨
        ∃ σ ∈ e.walk.completions, (p.outcomeAfter σ).text = key := by
    intro key
    rw [OutcomeSet.mem_keys_insertAll]
    simp only [List.mem_map, exists_exists_and_eq_and, hmem]
    exact Iff.rfl
  refine ⟨rfl, ?_, OutcomeSet.prefix_insertAll _ _, fun o ↦ ⟨?_, ?_⟩, hkeys, hsound.nodup, ?_⟩
  · rw [Program.ncard_of_forall_mem_iff hl hmem]
  · rintro ⟨x, hx, rfl⟩
    rcases OutcomeSet.mem_of_mem_insertAll hx with hx | hx
    · exact Or.inl ⟨x, hx, rfl⟩
    · obtain ⟨τ, hτ, rfl⟩ := List.mem_map.1 hx
      exact Or.inr ⟨τ, (hmem τ).1 hτ, rfl⟩
  · rintro (⟨x, hx, rfl⟩ | ⟨τ, hτ, rfl⟩)
    · exact ⟨x, (OutcomeSet.prefix_insertAll _ _).subset hx, rfl⟩
    · -- the key may have been there before, but then with the same outcome
      refine Program.outcomeAfter_mem_of_text (fun x hx ↦ ?_) ((hkeys _).2 (Or.inr ⟨τ, hτ, rfl⟩))
      obtain ⟨σ, -, rfl⟩ := hsound.exists_solution x hx
      exact ⟨σ, rfl⟩
  · intro x hx
    rcases OutcomeSet.mem_of_mem_insertAll hx with hx | hx
    · exact Or.inl hx
    · obtain ⟨τ, hτ, rfl⟩ := List.mem_map.1 hx
      obtain ⟨hlegal, hpre⟩ := (hmem τ).1 hτ
      exact Or.inr ⟨hpre, hlegal.replays⟩

/-- **A run from any point adds what can be completed from there, and leaves everything else as it
was**, as a recursion and with steps that are taken back. A second run from the same point finds
nothing new and counts the same executions once more. -/
theorem run_addsCompletions (e : Exploration p s) (hv : p.storesFit = true) (he : e.Reached)
    (hc : e.walk.execution.complete = false) :
    ∃ e', e.run = (e', .ok ()) ∧ e.search e.walk.remaining = (e', .ok ()) ∧
      e.AddsCompletions e' ∧
      e'.run = (⟨e'.walk, e'.findings.outcomes,
        e'.findings.executions + e.walk.completions.ncard⟩, .ok ()) := by
  obtain ⟨l, hl, hmem, hrun⟩ := he.exists_run hv hc
  have hadds := (he.sound hv).addsCompletions hl hmem
  refine ⟨_, hrun, ?_, hadds, ?_⟩
  · obtain ⟨σ, hσ, hw⟩ := he.follows
    exact (search_eq_run hw e.findings).trans hrun
  · -- the second run goes through the same completions, and their keys are there by now
    obtain ⟨l', hl', hmem', hrun'⟩ := (he.run hrun).exists_run hv hc
    have hagain : ∀ x ∈ l'.map p.solution,
        x.key ∈ (e.findings.outcomes.insertAll (l.map p.solution)).keys := by
      rw [List.forall_mem_map]
      exact fun τ hτ ↦ (hadds.keys _).2 (Or.inr ⟨τ, (hmem' τ).1 hτ, rfl⟩)
    rw [hrun', OutcomeSet.insertAll_of_forall_mem hagain,
      Program.ncard_of_forall_mem_iff hl' hmem']

/-- After a first run, the load of `x` overtakes the store before it, and a second run goes on from
there. -/
theorem storeForwarding_addsCompletions :
    Program.storeForwarding.storesFit = true ∧
      ∃ e : Exploration Program.storeForwarding { model := .tso },
        e.Reached ∧ e.walk.execution.complete = false ∧
        e.walk.trace = [⟨⟨0, 1⟩, .load "x", 1, some .forwarded⟩] ∧ 1 ≤ e.findings.executions ∧
        ∃ e', e.run = (e', .ok ()) ∧ e.search e.walk.remaining = (e', .ok ()) ∧
          e.AddsCompletions e' ∧
          e'.run = (⟨e'.walk, e'.findings.outcomes,
            e'.findings.executions + e.walk.completions.ncard⟩, .ok ()) := by
  have hv : Program.storeForwarding.storesFit = true := by decide
  have hfirst := Program.run_of_fits (s := { model := .tso }) fun σ _ ↦
    Program.outcomeAfter_fits hv σ
  obtain ⟨w, prior, henter, hfol⟩ := (Walk.follows_start Program.storeForwarding
    { model := .tso }).enter (m := ⟨⟨0, 1⟩, some .forwarded⟩) (by decide)
  have ho : (Walk.start Program.storeForwarding { model := .tso }).Offers ⟨0, 1⟩
      ⟨some .forwarded, 1⟩ := ⟨by decide, _, rfl, List.mem_singleton.2 rfl⟩
  have he : Reached ⟨w, Program.storeForwarding.findings { model := .tso }⟩ :=
    (Reached.start.run hfirst).enter ho henter
  have hc : w.execution.complete = false := by
    rw [← Bool.not_eq_true, hfol.complete_iff]
    decide
  exact ⟨hv, _, he, hc, hfol.trace, Program.executions_findings_pos _ _,
    run_addsCompletions _ hv he hc⟩

end Exploration

end Litmus

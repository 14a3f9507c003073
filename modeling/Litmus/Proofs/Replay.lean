import Litmus.Proofs.Exploration

/-!
# Witnesses can be replayed

The witness of an outcome is a copy of the trace at the moment when the outcome was first found.
`Walk.replay` takes its steps again, from a walk that has not begun.

`Program.explore_replays` says that this always succeeds: every step of a witness is one that the
walk offers at that point, with one of the choices that it offers, and the walk ends with the
outcome that was found. The steps of a legal schedule have this property one by one
(`Walk.replay_trace`, `Program.Admits.possible`), so nothing has to be known about what the search
did after it took the copy. Conversely, whatever can be replayed is the trace of a legal schedule
(`Program.replays_iff`): replaying is another way to say what an execution is.
-/

namespace Litmus

namespace Walk

variable {p : Program} {s : Setting} {w : Walk p s}

/-- Takes the steps of a run one after the other. -/
def replay (w : Walk p s) : Run → Except Fault (Walk p s)
  | [] => .ok w
  | t :: r =>
    match w.enter t.position ⟨t.source, t.value⟩ with
    | (_, .error fault) => .error fault
    | (w', .ok _) => w'.replay r

/-- A run is replayed from where its beginning leads. -/
theorem replay_append {w' : Walk p s} {r r' : Run} (h : w.replay r = .ok w') :
    w.replay (r ++ r') = w'.replay r' := by
  induction r generalizing w with
  | nil =>
    obtain rfl : w = w' := Except.ok.inj h
    rfl
  | cons t r ih =>
    rw [replay] at h
    rw [List.cons_append, replay]
    rcases henter : w.enter t.position ⟨t.source, t.value⟩ with ⟨w₁, fault | prior⟩
    · rw [henter] at h
      cases h
    · rw [henter] at h
      exact ih h

/-- **The steps of a schedule can be replayed from the start**, and lead to where it leads. -/
theorem replay_trace {σ : Schedule} (h : p.Admits s σ) :
    ∃ w, (start p s).replay (p.trace σ) = .ok w ∧ w.Follows σ := by
  induction h with
  | nil => exact ⟨start p s, rfl, follows_start p s⟩
  | @snoc σ m _ hm ih =>
    obtain ⟨w, hw, hfol⟩ := ih
    obtain ⟨i, hi⟩ := Program.exists_get? (Program.mem_moves.1 hm).1
    obtain ⟨w', prior, henter, hfol'⟩ := hfol.enter hm
    refine ⟨w', ?_, hfol'⟩
    rw [Program.trace_snoc hi, replay_append hw, replay, henter]
    rfl

/-- What is reached by replaying a trace follows its schedule. -/
theorem follows_of_replay {σ : Schedule} (h : p.Admits s σ)
    (hw : (start p s).replay (p.trace σ) = .ok w) : w.Follows σ := by
  obtain ⟨w', hw', hfol⟩ := replay_trace h
  obtain rfl : w = w' := Except.ok.inj (hw.symm.trans hw')
  exact hfol

end Walk

namespace Program

variable {p : Program} {s : Setting} {limits : Limits} {σ : Schedule}

/-- The step is one that a walk offers after the steps before it have been replayed. -/
def Possible (p : Program) (s : Setting) (before : Run) (t : Step Instruction) : Prop :=
  ∃ w choices, (Walk.start p s).replay before = .ok w ∧ t.position ∈ w.eligible ∧
    w.choices t.position = .ok choices ∧ ⟨t.source, t.value⟩ ∈ choices

/-- The run is a complete execution of the program that ends in the outcome. -/
structure Replays (p : Program) (s : Setting) (r : Run) (o : Outcome) : Prop where
  /-- Every position runs once. -/
  perm : (r.map (·.position)).Perm p.positions
  /-- The steps have the instructions of the program. -/
  instruction : ∀ t ∈ r, p.get? t.position = some t.instruction
  /-- Every step is offered when it is taken. -/
  possible : ∀ before t after, r = before ++ t :: after → p.Possible s before t
  /-- The run ends in the outcome. -/
  outcome : ∃ w, (Walk.start p s).replay r = .ok w ∧ w.execution.outcome = o

/-- A trace names the instructions that the program has. -/
theorem Admits.instruction (h : p.Admits s σ) :
    ∀ t ∈ p.trace σ, p.get? t.position = some t.instruction := by
  induction h with
  | nil => exact fun t ht ↦ absurd ht List.not_mem_nil
  | @snoc σ m _ hm ih =>
    obtain ⟨i, hi⟩ := exists_get? (mem_moves.1 hm).1
    intro t ht
    rw [trace_snoc hi, List.mem_append] at ht
    rcases ht with ht | ht
    · exact ih t ht
    · obtain rfl := List.mem_singleton.1 ht
      exact hi

/-- The move that comes next is offered by a walk that has replayed the moves before it. -/
theorem Admits.possible_last (h : p.Admits s σ) {m : Move} (hm : m ∈ p.moves s σ.order)
    {i : Instruction} :
    p.Possible s (p.trace σ) ⟨m.position, i, p.valueOf (p.imageAfter σ) m, m.source⟩ := by
  obtain ⟨hq, hready, hsrc⟩ := mem_moves.1 hm
  obtain ⟨w, hw, hfol⟩ := Walk.replay_trace h
  refine ⟨w, _, hw, ?_, hfol.choices hq, List.mem_map.2 ⟨m.source, hsrc, rfl⟩⟩
  rw [hfol.eligible]
  exact List.mem_filter.2 ⟨hq, hready⟩

/-- Every step of a schedule is offered when it is taken. -/
theorem Admits.possible (h : p.Admits s σ) : ∀ before t after,
    p.trace σ = before ++ t :: after → p.Possible s before t := by
  induction h with
  | nil =>
    intro before t after heq
    simp [trace, stepsFrom] at heq
  | @snoc σ m h hm ih =>
    obtain ⟨i, hi⟩ := exists_get? (mem_moves.1 hm).1
    intro before t after heq
    rw [trace_snoc hi] at heq
    -- the step is the last one, or it was there before the last move
    rcases List.eq_nil_or_concat' after with rfl | ⟨rest, last, rfl⟩
    · obtain ⟨rfl, hlast⟩ := List.append_inj' heq rfl
      obtain rfl := List.singleton_inj.1 hlast
      exact h.possible_last hm
    · rw [← List.cons_append, ← List.append_assoc] at heq
      exact ih before t rest (List.append_inj' heq rfl).1

/-- **The trace of a legal schedule can be replayed, to the outcome of the schedule.** -/
theorem Legal.replays (h : p.Legal s σ) : p.Replays s (p.trace σ) (p.outcomeAfter σ) := by
  have hadm := h.admits
  obtain ⟨w, hw, hfol⟩ := Walk.replay_trace hadm
  refine ⟨?_, hadm.instruction, hadm.possible, w, hw, hfol.outcome_eq⟩
  rw [← Run.order_schedule, hadm.schedule_trace]
  exact h.perm

/-- A run whose steps are offered one by one is the trace of the schedule that it follows. -/
theorem admits_of_possible {r : Run} (hinstr : ∀ t ∈ r, p.get? t.position = some t.instruction)
    (hpos : ∀ before t after, r = before ++ t :: after → p.Possible s before t) :
    p.Admits s r.schedule ∧ p.trace r.schedule = r := by
  induction r using List.reverseRecOn with
  | nil => exact ⟨.nil, rfl⟩
  | append_singleton r t ih =>
    obtain ⟨hadm, htrace⟩ := ih (fun u hu ↦ hinstr u (List.mem_append_left _ hu))
      fun before u after hr ↦ hpos before u (after ++ [t]) (by rw [hr]; simp)
    have ht : p.get? t.position = some t.instruction :=
      hinstr t (List.mem_append_right r List.mem_cons_self)
    obtain ⟨w, choices, hw, heligible, hchoices, hmem⟩ := hpos r t [] rfl
    -- the walk follows the schedule of the steps before, so it offers the moves of that schedule
    have hfol := Walk.follows_of_replay hadm (htrace.symm ▸ hw)
    rw [hfol.eligible] at heligible
    obtain ⟨hq, hready⟩ := List.mem_filter.1 heligible
    rw [hfol.choices hq] at hchoices
    obtain rfl := Except.ok.inj hchoices
    obtain ⟨src, hsrc, hchoice⟩ := List.mem_map.1 hmem
    obtain ⟨rfl, hseen⟩ := Choice.mk.inj hchoice
    have hmove : t.move ∈ p.moves s (Run.schedule r).order := mem_moves.2 ⟨hq, hready, hsrc⟩
    have hvalue : p.valueOf (p.imageAfter (Run.schedule r)) t.move = t.value := hseen
    have hlast := trace_snoc (σ := Run.schedule r) (m := t.move) ht
    rw [htrace, hvalue] at hlast
    rw [show Run.schedule (r ++ [t]) = Run.schedule r ++ [t.move] from Run.schedule_append r [t]]
    exact ⟨hadm.snoc hmove, hlast⟩

/-- **The runs that can be replayed are the traces of the legal schedules.** -/
theorem replays_iff {r : Run} {o : Outcome} : p.Replays s r o ↔
    p.Legal s r.schedule ∧ p.trace r.schedule = r ∧ p.outcomeAfter r.schedule = o := by
  constructor
  · intro h
    obtain ⟨hadm, htrace⟩ := admits_of_possible h.instruction h.possible
    obtain ⟨w, hw, hout⟩ := h.outcome
    have hfol := Walk.follows_of_replay hadm (htrace.symm ▸ hw)
    refine ⟨⟨?_, hadm.ordered, hadm.sourced⟩, htrace, hfol.outcome_eq.symm.trans hout⟩
    rw [Run.order_schedule]
    exact h.perm
  · rintro ⟨hlegal, htrace, rfl⟩
    have hreplays := hlegal.replays
    rwa [htrace] at hreplays

/-- **Every witness that an exploration returns can be replayed and ends in the outcome of its
key**, and an exploration returns whenever the program is within the limits and its stores can be
written. -/
theorem explore_replays (p : Program) (s : Setting) (limits : Limits) :
    (p.check limits = .ok () → p.storesFit = true → ∃ f, p.explore s limits = .ok f) ∧
      ∀ f, p.explore s limits = .ok f → ∀ key ∈ f.outcomes.keys,
        ∃ x, f.outcomes.find key = .ok x ∧ p.Replays s x.witness x.outcome ∧
          x.outcome.key = .ok key := by
  constructor
  · exact fun hc hv ↦ ⟨_, explore_of_storesFit hc hv⟩
  · intro f hf key hkey
    obtain ⟨-, hfit, rfl⟩ := explore_eq_ok_iff.1 hf
    obtain ⟨x, hx, rfl⟩ := OutcomeSet.mem_keys.1 hkey
    obtain ⟨σ, hσ, rfl, -⟩ := exists_schedule_of_mem_findings hx
    refine ⟨p.solution σ, OutcomeSet.find_of_mem (p.nodup_keys_findings s) hx, hσ.legal.replays, ?_⟩
    exact if_pos (hfit σ hσ.legal)

/-- The outcome that only TSO allows: the load of `x` sees the store that it has overtaken. -/
theorem storeForwarding_replays :
    storeForwarding.check .standard = .ok () ∧ storeForwarding.storesFit = true ∧
      ∃ f x, storeForwarding.explore { model := .tso } .standard = .ok f ∧
        f.outcomes.find "[x]==1; [y]==2; x==1; y==0; " = .ok x ∧
        storeForwarding.Replays { model := .tso } x.witness x.outcome ∧
        x.outcome.key = .ok "[x]==1; [y]==2; x==1; y==0; " := by
  obtain ⟨hreturns, hreplays⟩ := explore_replays storeForwarding { model := .tso } .standard
  obtain ⟨f, hf⟩ := hreturns rfl (by decide)
  have hkey : "[x]==1; [y]==2; x==1; y==0; " ∈ f.outcomes.keys := by
    obtain ⟨-, -, rfl⟩ := explore_eq_ok_iff.1 hf
    exact mem_keys_findings.2 ⟨[⟨⟨0, 1⟩, some .forwarded⟩, ⟨⟨0, 2⟩, some .memory⟩,
      ⟨⟨1, 0⟩, none⟩, ⟨⟨1, 1⟩, none⟩, ⟨⟨0, 0⟩, none⟩], by decide, by decide⟩
  obtain ⟨x, hx, hrep, ho⟩ := hreplays f hf _ hkey
  exact ⟨rfl, by decide, f, x, hf, hx, hrep, ho⟩

end Program

end Litmus

import Litmus.Proofs.Backtracking
import Litmus.Proofs.Exploration

/-!
# Steps that cannot be entered

A step is entered in two halves: the edges to its position are lifted, and then the instruction is
executed. If the second half is refused, the first one is taken back by imposing the edges again,
without asking whether they had been in force.

* A walk that is reached by steps, one inside the other (`Walk.Nested`), stands where these have run
  (`Walk.Nested.stands`), so the edges to a position are in force exactly as long as it has not.
* So entering a position of the program is refused in two cases only: its instruction has run, or it
  is a load without a source (`Execution.execute_eq_error_iff`).
* In the second case the edges had been in force, and nothing has changed. In the first they had
  been lifted by the step that ran the instruction, and the refusal imposes them in spite of it:
  what the model orders after the instruction has to wait for it again (`Walk.enter_refused`).

Memory, loads, trail and trace are as before in both cases.
-/

namespace Litmus

namespace Walk

variable {p : Program} {s : Setting} {w w' : Walk p s} {done : List Position} {g : Image}
  {q : Position} {c : Choice} {prior : Int} {f : Fault}

/-! ### Steps inside each other -/

/-- **The walk is reached from the start by steps into positions of the program**, each of them
inside the one before. They need not be steps that the walk offers, as long as they can be
entered. -/
inductive Nested {p : Program} {s : Setting} : Walk p s → Prop
  /-- Nothing has run. -/
  | start : Nested (start p s)
  /-- One more step is entered. -/
  | step {w w' : Walk p s} {q : Position} {c : Choice} {prior : Int} (h : Nested w)
    (hq : q ∈ p.positions) (henter : w.enter q c = (w', .ok prior)) : Nested w'

/-! ### Steps that are refused -/

/-- An execution refuses what has run, and a load that has observed nothing. -/
theorem Stands.execute_eq_error_iff (h : w.Stands done g) (hq : q ∈ p.positions)
    (observed : Option Int) :
    (∃ f, w.execution.execute q observed = (w.execution, .error f)) ↔
      w.execution.executed q = true ∨ (∃ x, p.get? q = some (.load x)) ∧ observed = none :=
  Execution.execute_eq_error_iff h.outcome hq observed

/-- A step that could be entered leads one position further. -/
theorem Stands.of_enter (h : w.Stands done g) (hq : q ∈ p.positions)
    (henter : w.enter q c = (w', .ok prior)) :
    w'.Stands (done ++ [q]) (p.effect g q c.value) := by
  obtain ⟨i, hi⟩ := Program.exists_get? hq
  obtain ⟨e, step, hexec, -⟩ := enter_cases hq henter
  have hrefused := h.execute_eq_error_iff hq (c.source.map fun _ ↦ c.value)
  rw [hexec, h.executed_iff, Option.map_eq_none_iff] at hrefused
  have hran : q ∉ done := fun hdone ↦ nomatch hrefused.2 (Or.inl hdone)
  have hsource : ∀ x, p.get? q = some (.load x) → c.source ≠ none :=
    fun x hx hnone ↦ nomatch hrefused.2 (Or.inr ⟨⟨x, hx⟩, hnone⟩)
  obtain ⟨v, u, henter', hstands, -⟩ := h.enter hq hran hsource hi
  obtain ⟨rfl, -⟩ := Prod.mk.inj (henter.symm.trans henter')
  exact hstands

/-- **A walk stands somewhere as long as every step is inside the one before.** -/
theorem Nested.stands (h : w.Nested) : ∃ done g, w.Stands done g := by
  induction h with
  | start => exact ⟨[], .zero, stands_start p s⟩
  | step _ hq henter ih =>
    obtain ⟨done, g, h⟩ := ih
    exact ⟨_, _, h.of_enter hq henter⟩

/-- **A step is refused if its instruction is.** The edges to it have then been lifted and imposed
again, and nothing else has happened. -/
theorem enter_eq_error_iff (hq : q ∈ p.positions) : w.enter q c = (w', .error f) ↔
    w.execution.execute q (c.source.map fun _ ↦ c.value) = (w.execution, .error f) ∧
      w' = { w with graph := ((w.graph.lift q).1.impose q).1 } := by
  obtain ⟨i, hi⟩ := Program.exists_get? hq
  rw [Walk.enter, WaitGraph.lift_eq w.graph hq]
  rcases hexec : w.execution.execute q (c.source.map fun _ ↦ c.value) with ⟨e, fault | prior⟩
  · obtain rfl := Execution.eq_of_execute_error hexec
    simp only
    rw [WaitGraph.impose_eq _ hq]
    simp only [Except.bind, Prod.mk.injEq, Except.error.injEq, true_and]
    exact ⟨fun h ↦ ⟨h.2, h.1.symm⟩, fun h ↦ ⟨h.2.symm, h.1⟩⟩
  · simp [Program.fetch_of_get? hi]

/-- **A refused step brings back all edges to its position**, whether they had been in force or
not, and touches no others. -/
theorem Stands.mem_edges_refused (h : w.Stands done g) (hq : q ∈ p.positions)
    {later earlier : Position} :
    (later, earlier) ∈ ((w.graph.lift q).1.impose q).1.edges ↔ (later, earlier) ∈ w.graph.edges ∨
      later ∈ p.positions ∧ earlier = q ∧ p.precedes s.model q later = true := by
  rw [WaitGraph.mem_edges, WaitGraph.mem_edges, WaitGraph.mem_waitsFor_impose hq,
    WaitGraph.mem_waitsFor_lift hq]
  constructor
  · exact Or.imp_left And.left
  · rintro (hmem | himposed)
    · by_cases heq : earlier = q
      · -- an edge that was lifted is one that the model asks for, and so it comes back
        subst heq
        obtain ⟨hlater, -, hpre, -⟩ := (h.graph _ _).1 hmem
        exact Or.inr ⟨hlater, rfl, hpre⟩
      · exact Or.inl ⟨hmem, fun hlifted ↦ heq hlifted.1⟩
    · exact Or.inr himposed

/-- If what has not run is refused, nothing has changed. -/
theorem Stands.eq_of_enter_error (h : w.Stands done g) (hq : q ∈ p.positions) (hnot : q ∉ done)
    (henter : w.enter q c = (w', .error f)) : w' = w := by
  obtain ⟨-, rfl⟩ := (enter_eq_error_iff hq).1 henter
  rw [WaitGraph.impose_lift_of_inForce (h.inForce hq hnot) hq]

/-- If what has run is refused, the edges are as before just if nothing has to wait for it. -/
theorem Stands.edges_refused_eq_iff (h : w.Stands done g) (hq : q ∈ p.positions) (hran : q ∈ done) :
    ((w.graph.lift q).1.impose q).1.edges = w.graph.edges ↔
      ∀ r ∈ p.positions, p.precedes s.model q r = false := by
  constructor
  · intro hedges r hr
    refine Bool.eq_false_iff.2 fun hpre ↦ ?_
    -- an edge to what has run would be a new one
    have hmem : (r, q) ∈ w.graph.edges := by
      rw [← hedges]
      exact (h.mem_edges_refused hq).2 (Or.inr ⟨hr, rfl, hpre⟩)
    obtain ⟨-, -, -, hnot⟩ := (h.graph r q).1 (WaitGraph.mem_edges.1 hmem)
    exact hnot hran
  · intro hnone
    refine congrArg WaitGraph.edges (WaitGraph.ext fun later earlier ↦ ?_)
    rw [← WaitGraph.mem_edges, ← WaitGraph.mem_edges, h.mem_edges_refused hq]
    refine or_iff_left ?_
    rintro ⟨hlater, -, hpre⟩
    rw [hnone later hlater] at hpre
    cases hpre

/-- **A step that cannot be entered changes nothing but the edges to its instruction, and these only
if the instruction has run.** A step is refused if its instruction has run, or if it is a load and
no source is given. A refused load leaves the walk as it was. An instruction that has run gets its
edges back, so the walk is as it was if and only if the model orders nothing after it. -/
theorem enter_refused (h : w.Nested) (hq : q ∈ p.positions) (c : Choice) :
    ((∃ w' f, w.enter q c = (w', .error f)) ↔
      w.execution.executed q = true ∨ (∃ x, p.get? q = some (.load x)) ∧ c.source = none) ∧
    ∀ w' f, w.enter q c = (w', .error f) →
      w'.execution = w.execution ∧ w'.trace = w.trace ∧
      (w.execution.executed q = false → w' = w) ∧
      (w.execution.executed q = true → ∀ e, e ∈ w'.graph.edges ↔
        e ∈ w.graph.edges ∨ e.1 ∈ p.positions ∧ e.2 = q ∧ p.precedes s.model q e.1 = true) ∧
      (w'.graph.edges = w.graph.edges ↔ w.execution.executed q = false ∨
        ∀ r ∈ p.positions, p.precedes s.model q r = false) := by
  obtain ⟨done, g, h⟩ := h.stands
  refine ⟨?_, fun w' f henter ↦ ?_⟩
  · have hrefused := h.execute_eq_error_iff hq (c.source.map fun _ ↦ c.value)
    rw [Option.map_eq_none_iff] at hrefused
    rw [← hrefused]
    simp only [enter_eq_error_iff hq, exists_and_left, exists_eq, and_true, exists_comm]
  · obtain ⟨-, hw'⟩ := (enter_eq_error_iff hq).1 henter
    have hsame : w.execution.executed q = false → w' = w := by
      intro hran
      rw [← Bool.not_eq_true, h.executed_iff] at hran
      exact h.eq_of_enter_error hq hran henter
    have hedges : ∀ e, e ∈ w'.graph.edges ↔
        e ∈ w.graph.edges ∨ e.1 ∈ p.positions ∧ e.2 = q ∧ p.precedes s.model q e.1 = true := by
      rw [hw']
      exact fun e ↦ h.mem_edges_refused hq
    refine ⟨by rw [hw'], by rw [hw'], hsame, fun _ ↦ hedges, ?_⟩
    by_cases hran : w.execution.executed q = true
    · rw [hw', h.edges_refused_eq_iff hq (h.executed_iff.1 hran), hran]
      exact (or_iff_right (Bool.false_ne_true ·.symm)).symm
    · have hnot : w.execution.executed q = false := Bool.eq_false_iff.2 hran
      rw [hsame hnot]
      exact iff_of_true rfl (Or.inl hnot)

/-- The walk after the first store of `Program.storeForwarding` under IBM370. -/
def firstStore : Walk Program.storeForwarding { model := .ibm370 } :=
  ((start Program.storeForwarding { model := .ibm370 }).enter ⟨0, 0⟩ ⟨none, 1⟩).1

theorem nested_firstStore : firstStore.Nested := by
  have hq : (⟨0, 0⟩ : Position) ∈ Program.storeForwarding.positions := by decide
  exact .step .start hq rfl

/-- A load without a source is refused, and nothing has changed. -/
theorem firstStore_refused :
    firstStore.Nested ∧ (⟨0, 1⟩ : Position) ∈ Program.storeForwarding.positions ∧
      firstStore.execution.executed ⟨0, 1⟩ = false ∧
      ∃ f, firstStore.enter ⟨0, 1⟩ ⟨none, 1⟩ = (firstStore, .error f) := by
  have hq : (⟨0, 1⟩ : Position) ∈ Program.storeForwarding.positions := by decide
  have hran : firstStore.execution.executed ⟨0, 1⟩ = false := by decide
  obtain ⟨hrefused, hframe⟩ := enter_refused nested_firstStore hq ⟨none, 1⟩
  obtain ⟨w', f, henter⟩ := hrefused.2 (Or.inr ⟨⟨"x", by decide⟩, rfl⟩)
  obtain ⟨-, -, hsame, -⟩ := hframe w' f henter
  obtain rfl := hsame hran
  exact ⟨nested_firstStore, hq, hran, f, henter⟩

/-- **A step into an instruction that has run brings edges back**, though it is refused: the load
that had been free to run waits again. -/
theorem firstStore_reimposes :
    firstStore.Nested ∧ (⟨0, 0⟩ : Position) ∈ Program.storeForwarding.positions ∧
      ∃ w' f, firstStore.enter ⟨0, 0⟩ ⟨none, 1⟩ = (w', .error f) ∧
        firstStore.graph.edges = [(⟨0, 2⟩, ⟨0, 1⟩), (⟨1, 1⟩, ⟨1, 0⟩)] ∧
        w'.graph.edges = [(⟨0, 1⟩, ⟨0, 0⟩), (⟨0, 2⟩, ⟨0, 1⟩), (⟨1, 1⟩, ⟨1, 0⟩)] :=
  ⟨nested_firstStore, by decide, _, _, rfl, by decide, by decide⟩

end Walk

end Litmus

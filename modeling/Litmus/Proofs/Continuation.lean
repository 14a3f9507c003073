import Litmus.Proofs.Image

/-!
# Schedules can be continued

A search never gets stuck, because program order is always a way to go on: of the positions that
have not run, the least one of a thread waits for nothing. More is true. If a set of positions waits
for nothing but its own members and what has run, the whole set can run next, in increasing order
(`Program.Admits.exists_burst`). The case of all that has not run gives that every schedule can be
completed (`Program.Admits.exists_legal`).

Executions with a given property are put together from such bursts. What a burst does to memory
depends on its order alone, and so the sources of its loads need not be looked at.
-/

namespace Litmus.Program

variable {p : Program} {s : Setting} {σ : Schedule} {q : Position}

/-- Every instruction has a source that is open to it. -/
theorem sourcesAfter_ne_nil (p : Program) (s : Setting) (done : List Position)
    (hq : q ∈ p.positions) : p.sourcesAfter s done q ≠ [] := by
  obtain ⟨i, hi⟩ := exists_get? hq
  unfold sourcesAfter
  rw [hi]
  cases i with
  | store x v => exact List.cons_ne_nil _ _
  | load x =>
    cases s.model with
    | ibm370 => exact List.cons_ne_nil _ _
    | tso =>
      show ite _ _ _ ≠ _
      split
      · exact List.cons_ne_nil _ _
      · split
        · exact List.cons_ne_nil _ _
        · exact List.cons_ne_nil _ _

/-- An instruction that has not run, and waits for nothing that has not, can run next. -/
theorem Admits.exists_snoc (h : p.Admits s σ) (hq : q ∈ p.positions) (hnot : q ∉ σ.order)
    (hwait : ∀ r ∈ p.positions, p.precedes s.model r q = true → r ∈ σ.order) :
    ∃ src, p.Admits s (σ ++ [⟨q, src⟩]) := by
  obtain ⟨src, hsrc⟩ := List.exists_mem_of_ne_nil _ (p.sourcesAfter_ne_nil s σ.order hq)
  exact ⟨src, h.snoc (mem_moves.2 ⟨hq, ready_iff.2 ⟨hnot, hwait⟩, hsrc⟩)⟩

/-- What has to run before an instruction stands before it. -/
theorem lt_of_precedes {r : Position} {md : Model} (h : p.precedes md r q = true) : r < q := by
  obtain ⟨ht, hi, -⟩ := precedes_iff.1 h
  exact Or.inr ⟨ht, hi⟩

/-- Positions can run one after the other, in increasing order, if all that they wait for has run or
is among them. -/
theorem Admits.exists_append (h : p.Admits s σ) {l : List Position} (hsorted : l.Pairwise (· < ·))
    (hnew : ∀ q ∈ l, q ∈ p.positions ∧ q ∉ σ.order)
    (hclosed : ∀ q ∈ l, ∀ r ∈ p.positions, p.precedes s.model r q = true → r ∈ σ.order ∨ r ∈ l) :
    ∃ τ : Schedule, τ.order = l ∧ p.Admits s (σ ++ τ) := by
  induction l using List.reverseRecOn with
  | nil => exact ⟨[], rfl, by rwa [List.append_nil]⟩
  | append_singleton l q ih =>
    obtain ⟨hl, -, hlast⟩ := List.pairwise_append.1 hsorted
    have hq : q ∈ l ++ [q] := List.mem_append_right l List.mem_cons_self
    have hlt : ∀ r ∈ l, r < q := fun r hr ↦ hlast r hr q List.mem_cons_self
    -- what one of the others waits for comes before it, so it is not the last one
    obtain ⟨τ, hτ, hadm⟩ := ih hl (fun r hr ↦ hnew r (List.mem_append_left _ hr)) <| by
      intro a ha r hr hpre
      rcases hclosed a (List.mem_append_left _ ha) r hr hpre with hrun | hmem
      · exact Or.inl hrun
      · rcases List.mem_append.1 hmem with hmem | hmem
        · exact Or.inr hmem
        · obtain rfl := List.mem_singleton.1 hmem
          exact absurd (lt_of_precedes hpre) (Position.lt_asymm (hlt a ha))
    have horder : Schedule.order (σ ++ τ) = σ.order ++ l := by rw [Schedule.order_append, hτ]
    have hnot : q ∉ Schedule.order (σ ++ τ) := by
      rw [horder, List.mem_append, not_or]
      exact ⟨(hnew q hq).2, fun hmem ↦ Position.lt_irrefl q (hlt q hmem)⟩
    have hwait : ∀ r ∈ p.positions, p.precedes s.model r q = true →
        r ∈ Schedule.order (σ ++ τ) := by
      intro r hr hpre
      rw [horder, List.mem_append]
      refine (hclosed q hq r hr hpre).imp_right fun hmem ↦ ?_
      rcases List.mem_append.1 hmem with hmem | hmem
      · exact hmem
      · obtain rfl := List.mem_singleton.1 hmem
        rw [not_precedes_self] at hpre
        cases hpre
    obtain ⟨src, hsnoc⟩ := hadm.exists_snoc (hnew q hq).1 hnot hwait
    refine ⟨τ ++ [⟨q, src⟩], ?_, ?_⟩
    · rw [Schedule.order_snoc, hτ]
    · rwa [← List.append_assoc]

/-- **A set of positions can run next, in increasing order, if all that it waits for has run or is
in the set.** -/
theorem Admits.exists_burst (h : p.Admits s σ) (D : Position → Bool)
    (hnew : ∀ q ∈ σ.order, D q = false)
    (hclosed : ∀ q ∈ p.positions, D q = true → ∀ r ∈ p.positions,
      p.precedes s.model r q = true → r ∈ σ.order ∨ D r = true) :
    ∃ τ : Schedule, τ.order = p.positions.filter D ∧ p.Admits s (σ ++ τ) := by
  refine h.exists_append (p.positions_sorted.filter D) (fun q hq ↦ ?_) fun q hq r hr hpre ↦ ?_
  · obtain ⟨hpos, hD⟩ := List.mem_filter.1 hq
    refine ⟨hpos, fun hmem ↦ ?_⟩
    rw [hnew q hmem] at hD
    cases hD
  · obtain ⟨hpos, hD⟩ := List.mem_filter.1 hq
    exact (hclosed q hpos hD r hr hpre).imp_right fun hDr ↦ List.mem_filter.2 ⟨hr, hDr⟩

/-- The beginnings of some threads can run next in any setting. -/
theorem Admits.exists_burst_of_lower (h : p.Admits s σ) (D : Position → Bool)
    (hnew : ∀ q ∈ σ.order, D q = false)
    (hlower : ∀ q r : Position, r.thread = q.thread → r.index < q.index → D q = true → D r = true) :
    ∃ τ : Schedule, τ.order = p.positions.filter D ∧ p.Admits s (σ ++ τ) := by
  refine h.exists_burst D hnew fun q _ hD r _ hpre ↦ ?_
  obtain ⟨ht, hlt, -⟩ := precedes_iff.1 hpre
  exact Or.inr (hlower q r ht hlt hD)

/-- **Every schedule can be completed.** -/
theorem Admits.exists_legal (h : p.Admits s σ) : ∃ τ, p.Legal s (σ ++ τ) := by
  obtain ⟨τ, hτ, hadm⟩ := h.exists_burst (fun q ↦ q ∉ σ.order) (fun q hq ↦ by simpa using hq)
    fun q _ _ r _ _ ↦ by
      by_cases hr : r ∈ σ.order
      · exact Or.inl hr
      · exact Or.inr (by simpa using hr)
  refine ⟨τ, hadm.legal_of_forall_mem fun q hq ↦ ?_⟩
  rw [Schedule.order_append, hτ, List.mem_append, List.mem_filter]
  by_cases hr : q ∈ σ.order
  · exact Or.inl hr
  · exact Or.inr ⟨hq, by simpa using hr⟩

end Litmus.Program

import Litmus.Proofs.Exploration
import Mathlib.Data.List.Permutation

/-!
# A reference that tries every order

`Program.bruteForce` finds the outcomes of a program without a search: it takes every permutation of
the positions, throws away those in which an instruction comes before one that it has to wait for,
and simulates the others from scratch. A load that may take its value from two sources splits the
simulation in two, independently of all other loads.

An exploration finds the same keys (`Program.explore_eq_bruteForce`). The reference knows nothing of
edges that are lifted, of steps that are taken back or of the order in which they are tried; the two
have in common only which instruction waits for which and where a load may read.
-/

namespace Litmus.Program

variable {p : Program} {s : Setting} {g g' : Image} {done order : List Position} {o : Outcome}

/-- Whether no instruction comes before one that it has to wait for. -/
def keepsOrder (p : Program) (m : Model) (order : List Position) : Bool :=
  order.Pairwise fun q r ↦ p.precedes m r q = false

/-- All images that running the instructions at the given positions one after the other can lead
to, when those at the positions in `done` have run before. -/
def simulate (p : Program) (s : Setting) (done : List Position) (g : Image) :
    (order : List Position) → List Image
  | [] => [g]
  | q :: order => (p.sourcesAfter s done q).flatMap fun src ↦
      p.simulate s (done ++ [q]) (p.apply g ⟨q, src⟩) order

/-- The outcomes of all permutations of the positions in which nothing has to wait, each simulated
from zero. -/
def bruteForce (p : Program) (s : Setting) : List Outcome :=
  (p.positions.permutations.filter (p.keepsOrder s.model)).flatMap fun order ↦
    (p.simulate s [] .zero order).map p.outcomeOf

/-- The simulation of an order runs all schedules with that order. -/
theorem mem_simulate : g' ∈ p.simulate s done g order ↔
    ∃ σ : Schedule, σ.order = order ∧ p.Sourced s done σ ∧ σ.foldl p.apply g = g' := by
  induction order generalizing done g with
  | nil =>
    rw [simulate, List.mem_singleton]
    constructor
    · rintro rfl
      exact ⟨[], rfl, trivial, rfl⟩
    · rintro ⟨σ, hσ, -, rfl⟩
      obtain rfl := List.map_eq_nil_iff.1 hσ
      rfl
  | cons q order ih =>
    rw [simulate, List.mem_flatMap]
    constructor
    · rintro ⟨src, hsrc, hg⟩
      obtain ⟨σ, rfl, hσ, rfl⟩ := ih.1 hg
      exact ⟨⟨q, src⟩ :: σ, rfl, ⟨hsrc, hσ⟩, rfl⟩
    · rintro ⟨σ, hσ, hopen, rfl⟩
      obtain ⟨m, τ, rfl, rfl, rfl⟩ := List.map_eq_cons_iff.1 hσ
      exact ⟨m.source, hopen.1, ih.2 ⟨τ, rfl, hopen.2, rfl⟩⟩

/-- **The reference finds the outcomes of the legal schedules.** -/
theorem mem_bruteForce : o ∈ p.bruteForce s ↔ ∃ σ, p.Legal s σ ∧ p.outcomeAfter σ = o := by
  simp only [bruteForce, List.mem_flatMap, List.mem_filter, List.mem_permutations, List.mem_map,
    keepsOrder, decide_eq_true_eq, mem_simulate]
  constructor
  · rintro ⟨order, ⟨hperm, hord⟩, g, ⟨σ, rfl, hσ, rfl⟩, rfl⟩
    exact ⟨σ, ⟨hperm, hord, hσ⟩, rfl⟩
  · rintro ⟨σ, h, rfl⟩
    exact ⟨σ.order, ⟨h.perm, h.ordered⟩, p.imageAfter σ, ⟨σ, rfl, h.sourced, rfl⟩, rfl⟩

/-- **An exploration finds exactly the keys of the reference.** -/
theorem explore_eq_bruteForce (p : Program) (s : Setting) (limits : Limits)
    (hc : p.check limits = .ok ()) (hv : p.storesFit = true) :
    ∃ f, p.explore s limits = .ok f ∧
      ∀ key, key ∈ f.outcomes.keys ↔ key ∈ (p.bruteForce s).map Outcome.text := by
  refine ⟨p.findings s, explore_of_storesFit hc hv, fun key ↦ ?_⟩
  rw [mem_keys_findings, List.mem_map]
  constructor
  · rintro ⟨σ, hσ, rfl⟩
    exact ⟨p.outcomeAfter σ, mem_bruteForce.2 ⟨σ, hσ, rfl⟩, rfl⟩
  · rintro ⟨o, ho, rfl⟩
    obtain ⟨σ, hσ, rfl⟩ := mem_bruteForce.1 ho
    exact ⟨σ, hσ, rfl⟩

theorem storeForwarding_eq_bruteForce :
    storeForwarding.check .standard = .ok () ∧ storeForwarding.storesFit = true ∧
      ∃ f, storeForwarding.explore { model := .tso } .standard = .ok f ∧
        ∀ key, key ∈ f.outcomes.keys ↔
          key ∈ (storeForwarding.bruteForce { model := .tso }).map Outcome.text :=
  ⟨rfl, by decide, explore_eq_bruteForce _ _ _ rfl (by decide)⟩

end Litmus.Program

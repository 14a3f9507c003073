import Litmus.Proofs.Refusal

/-!
# Steps that are taken back

A step lasts as long as the block that it is entered for. The block may take further steps, each
with a block of its own, it may search on from where it is, and it may come to a fault at any point,
which ends everything up to where it is caught (`Block`). Its steps need not be ones that a search
would take: all that is asked of them is that they are into positions which have not run
(`Block.Fresh`).

* A step that is refused leaves the walk as it was, and one that is entered is taken back when its
  block has ended, if the block has left the walk as it found it (`Exploration.walk_within`).
* By induction on the block, it always has (`Block.walk_perform`). So the step gives back the walk
  as a whole, with edges, memory, loads, trail and trace, and what it passes on is what its block
  has found and how it has ended (`Exploration.within_restores`).
-/

namespace Litmus

/-- **What may happen within a step.** -/
inductive Block where
  /-- Nothing. -/
  | done
  /-- A fault. -/
  | fault (f : Fault)
  /-- A search for everything that continues the walk. -/
  | run
  /-- A step, with what happens within it. -/
  | step (q : Position) (c : Choice) (b : Block)
  /-- One block, and if it ends without a fault, another one. -/
  | andThen (a b : Block)
  /-- One block, and if it ends with a fault, this is caught and another one follows. -/
  | rescue (a b : Block)

namespace Block

variable {p : Program} {s : Setting}

/-- Performs a block. A search is made in place. -/
def perform : Block → Exploration p s → Exploration p s × Except Fault Unit
  | done, e => (e, .ok ())
  | fault f, e => (e, .error f)
  | run, e => e.search e.walk.remaining
  | step q c b, e => e.within q c b.perform
  | andThen a b, e =>
    match a.perform e with
    | (e', .ok ()) => b.perform e'
    | (e', .error f) => (e', .error f)
  | rescue a b, e =>
    match a.perform e with
    | (e', .ok ()) => (e', .ok ())
    | (e', .error _) => b.perform e'

/-- **Every step is into a position of the program that has not run when the step is entered.**
Those that `ran` holds of have run before the block. -/
def Fresh (p : Program) : (Position → Bool) → Block → Prop
  | _, done => True
  | _, fault _ => True
  | _, run => True
  | ran, step q _ b => q ∈ p.positions ∧ ran q = false ∧ Fresh p (fun r ↦ r == q || ran r) b
  | ran, andThen a b => Fresh p ran a ∧ Fresh p ran b
  | ran, rescue a b => Fresh p ran a ∧ Fresh p ran b

end Block

/-! ### One step -/

namespace Walk

variable {p : Program} {s : Setting} {w w' : Walk p s} {done : List Position} {g g' : Image}
  {q : Position} {c : Choice} {f : Fault}

/-- A step marks its position and no other. -/
theorem Stands.executed_snoc (h : w.Stands done g) (h' : w'.Stands (done ++ [q]) g') :
    w'.execution.executed = fun r ↦ r == q || w.execution.executed r := by
  funext r
  rw [Bool.eq_iff_iff, h'.executed_iff, Bool.or_eq_true, beq_iff_eq, h.executed_iff,
    List.mem_append, List.mem_singleton, or_comm]

end Walk

namespace Exploration

variable {p : Program} {s : Setting} {e : Exploration p s} {done : List Position} {g : Image}
  {q : Position} {c : Choice} {body : Exploration p s → Exploration p s × Except Fault Unit}

/-- **A step gives back the walk** if its body leaves the walk as it found it. -/
theorem walk_within (h : e.walk.Stands done g) (hq : q ∈ p.positions) (hnot : q ∉ done)
    (hbody : ∀ w : Walk p s, w.Stands (done ++ [q]) (p.effect g q c.value) →
      (body ⟨w, e.findings⟩).1.walk = w) : (e.within q c body).1.walk = e.walk := by
  rcases henter : e.walk.enter q c with ⟨w, f | prior⟩
  · simp only [within, henter]
    exact h.eq_of_enter_error hq hnot henter
  · have hleave := Walk.leave_of_enter hq (h.inForce hq hnot) henter
    have hwalk := hbody w (h.of_enter hq henter)
    exact congrArg (·.1.walk) (within_eq_of_enter henter hleave hwalk)

end Exploration

/-! ### All steps of a block -/

/-- **A block leaves the walk as it found it**, however it ends. -/
theorem Block.walk_perform {p : Program} {s : Setting} {e : Exploration p s} {done : List Position}
    {g : Image} {b : Block} (h : e.walk.Stands done g)
    (hb : b.Fresh p e.walk.execution.executed) : (b.perform e).1.walk = e.walk := by
  induction b generalizing e done g with
  | done => rfl
  | fault f => rfl
  | run =>
    -- the search takes back its own steps, also when it comes to a fault
    rw [perform, Exploration.search_eq_observing h]
    rfl
  | step q c b ih =>
    obtain ⟨hq, hran, hfresh⟩ := hb
    have hnot : q ∉ done := by rwa [← h.executed_iff, Bool.not_eq_true]
    refine Exploration.walk_within h hq hnot fun w hw ↦ ?_
    -- one position further, the steps of the block are fresh still
    rw [← h.executed_snoc hw] at hfresh
    exact ih hw hfresh
  | andThen a b iha ihb =>
    have hwalk := iha h hb.1
    rw [perform]
    generalize a.perform e = result at hwalk ⊢
    obtain ⟨⟨w, findings⟩, ended⟩ := result
    obtain rfl : w = e.walk := hwalk
    cases ended with
    | error f => rfl
    | ok u => exact ihb h hb.2
  | rescue a b iha ihb =>
    have hwalk := iha h hb.1
    rw [perform]
    generalize a.perform e = result at hwalk ⊢
    obtain ⟨⟨w, findings⟩, ended⟩ := result
    obtain rfl : w = e.walk := hwalk
    cases ended with
    | error f => exact ihb h hb.2
    | ok u => rfl

namespace Exploration

variable {p : Program} {s : Setting} {q : Position}

/-- **A step gives back the walk exactly, however its block ends.** The walk may be any that is
reached by steps inside each other, and the step any that is into a position which has not run,
whether the walk offers it or not. Unless it is a load without a source, it is entered, the block
begins and ends one step further, and what the block has found and how it has ended is passed on.
The searches that are made in place are runs, wherever they are made. -/
theorem within_restores (e : Exploration p s) (h : e.walk.Nested) (c : Choice) (b : Block)
    (hb : (Block.step q c b).Fresh p e.walk.execution.executed) :
    (e.within q c b.perform).1.walk = e.walk ∧
    ((∀ x, p.get? q = some (.load x) → c.source ≠ none) →
      ∃ w prior, e.walk.enter q c = (w, .ok prior) ∧ (b.perform ⟨w, e.findings⟩).1.walk = w ∧
        e.within q c b.perform =
          (⟨e.walk, (b.perform ⟨w, e.findings⟩).1.findings⟩, (b.perform ⟨w, e.findings⟩).2)) ∧
    ∀ (e' : Exploration p s) (n : ℕ), e'.walk.Nested → e'.walk.remaining ≤ n →
      e'.search n = e'.run := by
  obtain ⟨done, g, h⟩ := h.stands
  refine ⟨Block.walk_perform h hb, fun hsource ↦ ?_, fun e' n h' hn ↦ ?_⟩
  · obtain ⟨hq, hran, hfresh⟩ := hb
    have hnot : q ∉ done := by rwa [← h.executed_iff, Bool.not_eq_true]
    obtain ⟨i, hi⟩ := Program.exists_get? hq
    obtain ⟨w, prior, henter, hw, -⟩ := h.enter hq hnot hsource hi
    rw [← h.executed_snoc hw] at hfresh
    -- the block leaves the walk where the step has led, and from there the step is taken back
    have hwalk := Block.walk_perform (e := ⟨w, e.findings⟩) hw hfresh
    have hleave := Walk.leave_of_enter hq (h.inForce hq hnot) henter
    exact ⟨w, prior, henter, hwalk, within_eq_of_enter henter hleave hwalk⟩
  · obtain ⟨done', g', h'⟩ := h'.stands
    exact search_eq_run_of_le h' hn e'.findings

/-- A load, and behind it a store of a value that cannot be written. -/
def wideStore : Program := ⟨[[.load "y", .store "x" (10 ^ 4300)]], List.cons_ne_nil _ _⟩

/-- A step into the store, though it has to wait for the load. The run from there comes to the
fault, and the walk is back at its start. -/
theorem wideStore_restored :
    (start wideStore { model := .ibm370 }).walk.Nested ∧
      (⟨0, 1⟩ : Position) ∉ (start wideStore { model := .ibm370 }).walk.eligible ∧
      ((start wideStore { model := .ibm370 }).within ⟨0, 1⟩ ⟨none, 10 ^ 4300⟩
        Block.run.perform).2 = .error .unwritable ∧
      ((start wideStore { model := .ibm370 }).within ⟨0, 1⟩ ⟨none, 10 ^ 4300⟩
        Block.run.perform).1.walk = Walk.start wideStore { model := .ibm370 } := by
  have hfresh : (Block.step ⟨0, 1⟩ ⟨none, 10 ^ 4300⟩ .run).Fresh wideStore
      (start wideStore { model := .ibm370 }).walk.execution.executed :=
    ⟨by decide, rfl, trivial⟩
  exact ⟨.start, by decide, by decide +kernel, (within_restores _ .start _ _ hfresh).1⟩

end Exploration

end Litmus

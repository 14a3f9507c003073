import Litmus.Proofs.Positions
import Litmus.Walk
import Mathlib.Data.List.Induction
import Mathlib.Data.List.Perm.Subperm
import Mathlib.Logic.Function.Basic

/-!
# Schedules

A schedule says in which order the instructions of a program run and, for every load, where it takes
its value from. It says nothing about values: what a run does to memory and what its loads see
follows from its schedule (`Program.imageAfter`).

Which schedules a program has under a setting is said in two ways.

* `Program.Legal` looks at a complete schedule as a whole: its positions are a permutation of those
  of the program, no instruction overtakes one that it has to wait for, and every load takes its
  value from a source that is open to it at that point.
* `Program.Admits` builds a schedule up move by move, each of them one of `Program.moves`. It also
  holds of schedules that are still under way.

They agree on complete schedules (`Program.legal_iff`). The first is what the theorems about a model
speak of; the second is what a search follows.
-/

namespace Litmus

/-- One move of a schedule: the position that runs, and for a load where it takes its value from. -/
structure Move where
  /-- The position. -/
  position : Position
  /-- The source of a load. -/
  source : Option Source
  deriving DecidableEq

/-- The moves of an execution, the first one first. -/
abbrev Schedule : Type := List Move

/-- The positions of a schedule in the order in which they run. -/
def Schedule.order (σ : Schedule) : List Position := σ.map (·.position)

@[simp] theorem Schedule.order_nil : Schedule.order [] = [] := rfl

@[simp] theorem Schedule.order_cons (m : Move) (σ : Schedule) :
    Schedule.order (m :: σ) = m.position :: σ.order := rfl

@[simp] theorem Schedule.order_append (σ τ : Schedule) :
    Schedule.order (σ ++ τ) = σ.order ++ τ.order := List.map_append

theorem Schedule.order_snoc (σ : Schedule) (m : Move) :
    Schedule.order (σ ++ [m]) = σ.order ++ [m.position] := Schedule.order_append σ [m]

@[simp] theorem Schedule.length_order (σ : Schedule) : σ.order.length = σ.length :=
  List.length_map _

namespace Program

variable {p : Program} {s : Setting} {σ τ : Schedule} {m : Move} {done : List Position}
  {q r : Position}

/-! ### What may run when -/

/-- Whether the instruction at `r` has to run before the one at `q`: it precedes it in the same
thread, and the model orders the two. -/
def precedes (p : Program) (m : Model) (r q : Position) : Bool :=
  r.thread == q.thread && r.index < q.index &&
    (p.get? r).any fun earlier ↦ (p.get? q).any fun later ↦ m.ordered earlier later

/-- Only an earlier instruction of the same thread precedes another, and the model decides if it
does. -/
theorem precedes_iff {m : Model} : p.precedes m r q = true ↔ r.thread = q.thread ∧
    r.index < q.index ∧ ∃ i j, p.get? r = some i ∧ p.get? q = some j ∧ m.ordered i j = true := by
  simp only [precedes, Bool.and_eq_true, beq_iff_eq, decide_eq_true_eq, Option.any_eq_true,
    and_assoc]
  refine and_congr_right fun _ ↦ and_congr_right fun _ ↦ ?_
  constructor
  · rintro ⟨i, hi, j, hj, h⟩
    exact ⟨i, j, hi, hj, h⟩
  · rintro ⟨i, j, hi, hj, h⟩
    exact ⟨i, hi, j, hj, h⟩

/-- Everything waits for the loads before it. -/
theorem precedes_of_load (m : Model) {x : String} (hr : p.get? r = some (.load x))
    (hq : q ∈ p.positions) (ht : r.thread = q.thread) (hlt : r.index < q.index) :
    p.precedes m r q = true := by
  obtain ⟨j, hj⟩ := exists_get? hq
  exact precedes_iff.2 ⟨ht, hlt, _, j, hr, hj, rfl⟩

/-- A store waits for everything before it. -/
theorem precedes_of_store (m : Model) {x : String} {v : Int} (hq : p.get? q = some (.store x v))
    (hr : r ∈ p.positions) (ht : r.thread = q.thread) (hlt : r.index < q.index) :
    p.precedes m r q = true := by
  obtain ⟨i, hi⟩ := exists_get? hr
  refine precedes_iff.2 ⟨ht, hlt, i, _, hi, hq, ?_⟩
  simp [Model.ordered, Instruction.isStore]

/-- Nothing precedes itself. -/
theorem not_precedes_self (m : Model) (q : Position) : p.precedes m q q = false := by
  simp [precedes]

/-- The sources that are open to the instruction at `q` when those at the positions in `done` have
run. A store has none; a load reads memory, except that under TSO it may have overtaken all stores
of its own thread to its variable. -/
def sourcesAfter (p : Program) (s : Setting) (done : List Position) (q : Position) :
    List (Option Source) :=
  match p.get? q with
  | none => []
  | some (.store _ _) => [none]
  | some (.load _) =>
    match s.model with
    | .ibm370 => [some .memory]
    | .tso =>
      if p.ownStores q = [] ∨ ∃ r ∈ p.ownStores q, r ∈ done then [some .memory]
      else if s.readAround then [some .forwarded, some .memory]
      else [some .forwarded]

/-- If all own stores have run, there are none or one has run. -/
theorem ownStores_eq_nil_or_exists (h : ∀ r ∈ p.ownStores q, r ∈ done) :
    p.ownStores q = [] ∨ ∃ r ∈ p.ownStores q, r ∈ done := by
  rcases List.eq_nil_or_concat' (p.ownStores q) with hnil | ⟨l, r, hl⟩
  · exact Or.inl hnil
  · have hr : r ∈ p.ownStores q := hl ▸ List.mem_append_right l List.mem_cons_self
    exact Or.inr ⟨r, hr, h r hr⟩

/-- A load takes its value from memory or from a store. -/
theorem source_of_load {x : String} (hget : p.get? q = some (.load x)) {src : Option Source}
    (hsrc : src ∈ p.sourcesAfter s done q) : src = some .memory ∨ src = some .forwarded := by
  simp only [sourcesAfter, hget] at hsrc
  split at hsrc
  · exact Or.inl (List.mem_singleton.1 hsrc)
  · split at hsrc
    · exact Or.inl (List.mem_singleton.1 hsrc)
    · split at hsrc
      · simpa [or_comm] using hsrc
      · exact Or.inr (List.mem_singleton.1 hsrc)

/-- A load always has a source. -/
theorem source_ne_none {src : Option Source} (hsrc : src ∈ p.sourcesAfter s done q) :
    ∀ x, p.get? q = some (.load x) → src ≠ none := by
  intro x hget
  rcases source_of_load hget hsrc with rfl | rfl
  · exact Option.some_ne_none _
  · exact Option.some_ne_none _

/-- Whether the instruction at `q` may run next when those at the positions in `done` have run: it
is not one of them, and all that have to run before it are. -/
def ready (p : Program) (m : Model) (done : List Position) (q : Position) : Bool :=
  q ∉ done ∧ ∀ r ∈ p.positions, p.precedes m r q → r ∈ done

/-- All moves that may be made next, in the order in which they are tried. -/
def moves (p : Program) (s : Setting) (done : List Position) : List Move :=
  (p.positions.filter (p.ready s.model done)).flatMap fun q ↦
    (p.sourcesAfter s done q).map (Move.mk q)

/-- What is ready has not run, and all that precedes it has. -/
theorem ready_iff {m : Model} : p.ready m done q = true ↔
    q ∉ done ∧ ∀ r ∈ p.positions, p.precedes m r q = true → r ∈ done := by
  simp [ready]

/-- A move is open if its position is ready and its source is open. -/
theorem mem_moves : m ∈ p.moves s done ↔ m.position ∈ p.positions ∧
    p.ready s.model done m.position = true ∧ m.source ∈ p.sourcesAfter s done m.position := by
  simp only [moves, List.mem_flatMap, List.mem_filter, List.mem_map, and_assoc]
  constructor
  · rintro ⟨q, hq, hr, src, hsrc, rfl⟩
    exact ⟨hq, hr, hsrc⟩
  · rintro ⟨hq, hr, hsrc⟩
    exact ⟨m.position, hq, hr, m.source, hsrc, rfl⟩

/-! ### Schedules as a whole -/

/-- Every move takes one of the sources that are open to it, when the positions in `done` have run
before the first one. -/
def Sourced (p : Program) (s : Setting) : (done : List Position) → Schedule → Prop
  | _, [] => True
  | done, m :: σ =>
    m.source ∈ p.sourcesAfter s done m.position ∧ p.Sourced s (done ++ [m.position]) σ

/-- **A complete execution of a program, as far as a schedule tells**: every instruction runs once,
none runs before one that it has to wait for, and every load takes its value from a source that is
open to it. -/
structure Legal (p : Program) (s : Setting) (σ : Schedule) : Prop where
  /-- Every position runs once. -/
  perm : σ.order.Perm p.positions
  /-- Nothing is overtaken by what has to wait for it. -/
  ordered : σ.order.Pairwise fun q r ↦ p.precedes s.model r q = false
  /-- The sources are open. -/
  sourced : p.Sourced s [] σ

instance decidableSourced : (done : List Position) → (σ : Schedule) →
    Decidable (p.Sourced s done σ)
  | _, [] => .isTrue trivial
  | done, m :: σ =>
    have := decidableSourced (done ++ [m.position]) σ
    inferInstanceAs (Decidable (m.source ∈ p.sourcesAfter s done m.position ∧ _))

instance : Decidable (p.Legal s σ) :=
  decidable_of_iff (σ.order.Perm p.positions ∧
      (σ.order.Pairwise fun q r ↦ p.precedes s.model r q = false) ∧ p.Sourced s [] σ)
    ⟨fun h ↦ ⟨h.1, h.2.1, h.2.2⟩, fun h ↦ ⟨h.perm, h.ordered, h.sourced⟩⟩

/-- The sources of a schedule are checked from left to right. -/
theorem sourced_append : p.Sourced s done (σ ++ τ) ↔
    p.Sourced s done σ ∧ p.Sourced s (done ++ σ.order) τ := by
  induction σ generalizing done with
  | nil => simp [Sourced]
  | cons m σ ih =>
    rw [List.cons_append, Sourced, Sourced, ih, and_assoc]
    simp

/-! ### Schedules move by move -/

/-- A schedule that can be built up from nothing, each move being possible when it is made. -/
inductive Admits (p : Program) (s : Setting) : Schedule → Prop
  /-- Nothing has run. -/
  | nil : Admits p s []
  /-- One more move is made. -/
  | snoc {σ : Schedule} {m : Move} (h : Admits p s σ) (hm : m ∈ p.moves s σ.order) :
    Admits p s (σ ++ [m])

/-- A schedule runs nothing that the program does not have. -/
theorem Admits.subset (h : p.Admits s σ) : ∀ q ∈ σ.order, q ∈ p.positions := by
  induction h with
  | nil => simp
  | snoc _ hm ih =>
    intro q hq
    rw [Schedule.order_append, List.mem_append] at hq
    rcases hq with hq | hq
    · exact ih q hq
    · obtain rfl := List.mem_singleton.1 hq
      exact (mem_moves.1 hm).1

/-- Nothing runs twice. -/
theorem Admits.nodup (h : p.Admits s σ) : σ.order.Nodup := by
  induction h with
  | nil => exact List.nodup_nil
  | snoc _ hm ih =>
    rw [Schedule.order_append]
    refine ih.append (List.nodup_singleton _) (List.disjoint_singleton.2 ?_)
    exact (ready_iff.1 (mem_moves.1 hm).2.1).1

/-- Whatever has run, all that had to run before it has run. -/
theorem Admits.mem_of_precedes (h : p.Admits s σ) (hq : q ∈ σ.order) (hr : r ∈ p.positions)
    (hpre : p.precedes s.model r q = true) : r ∈ σ.order := by
  induction h with
  | nil => cases hq
  | @snoc σ m _ hm ih =>
    rw [Schedule.order_append, List.mem_append] at hq ⊢
    rcases hq with hq | hq
    · exact Or.inl (ih hq)
    · obtain rfl := List.mem_singleton.1 hq
      exact Or.inl ((ready_iff.1 (mem_moves.1 hm).2.1).2 r hr hpre)

/-- Nothing runs before what precedes it. -/
theorem Admits.ordered (h : p.Admits s σ) :
    σ.order.Pairwise fun q r ↦ p.precedes s.model r q = false := by
  induction h with
  | nil => exact List.Pairwise.nil
  | @snoc σ m hσ hm ih =>
    obtain ⟨hpos, hready, -⟩ := mem_moves.1 hm
    rw [Schedule.order_append, List.pairwise_append]
    refine ⟨ih, List.pairwise_singleton _ _, fun q hq r hr ↦ ?_⟩
    obtain rfl := List.mem_singleton.1 hr
    by_contra hne
    exact (ready_iff.1 hready).1 (hσ.mem_of_precedes hq hpos (by simpa using hne))

/-- Every load has a source that was open when it ran. -/
theorem Admits.sourced (h : p.Admits s σ) : p.Sourced s [] σ := by
  induction h with
  | nil => trivial
  | snoc _ hm ih => exact sourced_append.2 ⟨ih, (mem_moves.1 hm).2.2, trivial⟩

/-- Every beginning of a legal schedule can be built up move by move. -/
theorem Legal.admits_prefix (h : p.Legal s (σ ++ τ)) : p.Admits s σ := by
  -- by induction from the end, since a schedule is admitted move by move
  induction σ using List.reverseRecOn generalizing τ with
  | nil => exact .nil
  | append_singleton σ m ih =>
    rw [List.append_assoc] at h
    refine (ih h).snoc (mem_moves.2 ⟨?_, ready_iff.2 ⟨?_, ?_⟩, ?_⟩)
    · exact h.perm.subset (by simp)
    · have hnodup := h.perm.nodup_iff.2 p.nodup_positions
      simp only [Schedule.order_append, List.nodup_append] at hnodup
      intro hmem
      exact hnodup.2.2 _ hmem _ (by simp) rfl
    · -- what has to run before the move is neither the move itself nor behind it
      intro r hr hpre
      have hord := h.ordered
      have hmem := h.perm.symm.subset hr
      simp only [Schedule.order_append, Schedule.order_cons, List.singleton_append,
        List.mem_append, List.mem_cons] at hmem
      simp only [Schedule.order_append, Schedule.order_cons, List.singleton_append,
        List.pairwise_append, List.pairwise_cons] at hord
      rcases hmem with hmem | rfl | hmem
      · exact hmem
      · rw [not_precedes_self] at hpre
        cases hpre
      · rw [hord.2.1.1 r hmem] at hpre
        cases hpre
    · have hsrc := (sourced_append.1 h.sourced).2
      simpa using hsrc.1

/-- **A schedule is legal if and only if it can be built up move by move and is complete.** -/
theorem legal_iff : p.Legal s σ ↔ p.Admits s σ ∧ σ.length = p.total := by
  constructor
  · intro h
    refine ⟨Legal.admits_prefix (τ := []) (by rwa [List.append_nil]), ?_⟩
    rw [← σ.length_order, h.perm.length_eq, length_positions]
  · rintro ⟨h, hlen⟩
    refine ⟨?_, h.ordered, h.sourced⟩
    refine (List.subperm_of_subset h.nodup h.subset).perm_of_length_le (Nat.le_of_eq ?_)
    rw [length_positions, σ.length_order, hlen]

/-- A schedule in which every position runs is complete. -/
theorem Admits.legal_of_forall_mem (h : p.Admits s σ) (hall : ∀ q ∈ p.positions, q ∈ σ.order) :
    p.Legal s σ := by
  refine ⟨?_, h.ordered, h.sourced⟩
  exact (List.perm_ext_iff_of_nodup h.nodup p.nodup_positions).2 fun q ↦ ⟨h.subset q, hall q⟩

theorem Legal.admits (h : p.Legal s σ) : p.Admits s σ := (legal_iff.1 h).1

end Program

end Litmus

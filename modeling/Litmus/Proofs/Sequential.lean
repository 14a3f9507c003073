import Litmus.Proofs.Inclusion
import Litmus.Proofs.StoreBuffer

/-!
# Sequential consistency

The simplest machine of all has no buffers. Its threads take turns, each one in program order; what
a thread stores is in memory at once, and a load sees what memory holds. An outcome is sequentially
consistent if this machine can end in it (`Program.sequentialOutcomes`).

* Both models allow every such outcome. A step of the machine is a move that IBM370 allows, because
  all that an instruction could wait for has run when its thread comes to it
  (`SequentialMachine.Matches.step`).
* A model allows no others if it lets no two instructions of a thread change places
  (`Program.InOrder`). What may run next is then the next instruction of some thread and nothing
  else (`SequentialMachine.Matches.eq_next_of_ready`), and a load has no pending store to take its
  value from (`Program.InOrder.sourcesAfter`).

For IBM370 the second condition says that a store stands before a load of its thread only if it is
to the variable of the load; for TSO, that no store does. So the outcomes that are new in a model
are due to the pairs that it does not order (`Program.explore_sequential`).
-/

namespace Litmus

/-! ### The machine -/

/-- A machine in which a store reaches memory at once. -/
structure SequentialMachine extends Image where
  /-- The place of the instruction that a thread comes to next. -/
  next : ℕ → ℕ

namespace SequentialMachine

/-- The machine before the first step. -/
def start : SequentialMachine := { Image.zero with next := fun _ ↦ 0 }

/-- Thread `t` stores a value in a variable. -/
def store (m : SequentialMachine) (t : ℕ) (x : String) (v : Int) : SequentialMachine :=
  { m with
    memory := Function.update m.memory x v
    next := Function.update m.next t (m.next t + 1) }

/-- A load of thread `t` sees the value of a variable in memory. -/
def load (m : SequentialMachine) (t : ℕ) (x : String) : SequentialMachine :=
  { m with
    seen := Function.update m.seen ⟨t, m.next t⟩ (m.memory x)
    next := Function.update m.next t (m.next t + 1) }

/-- The steps of the machine on a program: some thread runs the instruction that it comes to. -/
inductive Step (p : Program) : SequentialMachine → SequentialMachine → Prop
  /-- A thread comes to a store. -/
  | store {m : SequentialMachine} {t : ℕ} {x : String} {v : Int}
    (h : p.get? ⟨t, m.next t⟩ = some (.store x v)) : Step p m (m.store t x v)
  /-- A thread comes to a load. -/
  | load {m : SequentialMachine} {t : ℕ} {x : String}
    (h : p.get? ⟨t, m.next t⟩ = some (.load x)) : Step p m (m.load t x)

/-- All threads have come to their ends. -/
def Finished (p : Program) (m : SequentialMachine) : Prop :=
  ∀ t : ℕ, p.get? ⟨t, m.next t⟩ = none

end SequentialMachine

/-- The outcomes of the finished runs of the machine without buffers. -/
def Program.sequentialOutcomes (p : Program) : Set Outcome :=
  {o | ∃ m, Relation.ReflTransGen (SequentialMachine.Step p) .start m ∧ m.Finished p ∧
    p.outcomeOf m.toImage = o}

/-! ### Threads that keep their order -/

namespace Program

variable {p : Program} {s : Setting} {md : Model} {done : List Position} {t i j : ℕ} {x : String}

/-- The model lets no two instructions of a thread change places. -/
def InOrder (p : Program) (md : Model) : Prop :=
  ∀ th ∈ p.threads, th.Pairwise fun i j ↦ md.ordered i j = true

/-- Everything waits for all that stands before it. -/
theorem InOrder.precedes (h : p.InOrder md) (hq : (⟨t, j⟩ : Position) ∈ p.positions)
    (hij : i < j) : p.precedes md ⟨t, i⟩ ⟨t, j⟩ = true := by
  obtain ⟨u, k, th, heq, hth, hk⟩ := mem_positions_iff_exists.1 hq
  obtain ⟨rfl, rfl⟩ := Position.natCast_inj.1 heq
  have hi : p.get? ⟨t, i⟩ = some th[i] := by
    rw [get?_natCast, hth, Option.bind_some, List.getElem?_eq_getElem (hij.trans hk)]
  have hj : p.get? ⟨t, j⟩ = some th[j] := by
    rw [get?_natCast, hth, Option.bind_some, List.getElem?_eq_getElem hk]
  have hord : md.ordered th[i] th[j] = true :=
    List.pairwise_iff_getElem.1 (h th (List.mem_of_getElem? hth)) i j (hij.trans hk) hk hij
  exact precedes_iff.2 ⟨rfl, Int.ofNat_lt.2 hij, _, _, hi, hj, hord⟩

/-- Loads can only read memory. -/
theorem InOrder.sourcesAfter (h : p.InOrder s.model) (hget : p.get? ⟨t, i⟩ = some (.load x)) :
    p.sourcesAfter s done ⟨t, i⟩ = [some .memory] := by
  rw [Program.sourcesAfter, hget]
  cases hs : s.model with
  | ibm370 => rfl
  | tso =>
    -- TSO never makes a load wait for a store, so there is no earlier store
    have hnil : p.ownStores ⟨t, i⟩ = [] := by
      refine List.eq_nil_iff_forall_not_mem.2 fun r hr ↦ ?_
      obtain ⟨j, hj, v, rfl, hstore⟩ := (mem_ownStores_natCast hget).1 hr
      obtain ⟨-, -, e, e', he, he', hord⟩ :=
        precedes_iff.1 (h.precedes (mem_positions_of_get?_natCast hget) hj)
      obtain rfl : Instruction.store x v = e := Option.some.inj (hstore.symm.trans he)
      obtain rfl : Instruction.load x = e' := Option.some.inj (hget.symm.trans he')
      rw [hs] at hord
      cases hord
    exact if_pos (Or.inl hnil)

/-- IBM370 keeps all threads in order if every store before a load is to its variable. -/
theorem inOrder_ibm370
    (h : ∀ th ∈ p.threads, th.Pairwise fun i j ↦ i.isStore → j.isLoad → i.name = j.name) :
    p.InOrder .ibm370 := by
  refine fun th hth ↦ (h th hth).imp fun {i j} hij ↦ ?_
  cases i with
  | load y => rfl
  | store y v =>
    cases j with
    | store z w => rfl
    | load z =>
      have hname : y = z := hij rfl rfl
      show (y == z) = true
      exact beq_iff_eq.2 hname

/-- TSO keeps all threads in order if there is no store before a load. -/
theorem inOrder_tso (h : ∀ th ∈ p.threads, th.Pairwise fun i j ↦ i.isStore → ¬j.isLoad) :
    p.InOrder .tso := by
  refine fun th hth ↦ (h th hth).imp fun {i j} hij ↦ ?_
  cases i with
  | load y => rfl
  | store y v =>
    cases j with
    | store z w => rfl
    | load z => exact absurd rfl (hij rfl)

end Program

/-! ### The simulation -/

namespace SequentialMachine

variable {p : Program} {s : Setting} {md : Model} {m m' : SequentialMachine} {σ : Schedule}
  {mv : Move} {t i : ℕ} {x : String} {v : Int}

/-- **The machine stands where the schedule leads**: what its threads have passed is what has
run. -/
structure Matches (p : Program) (m : SequentialMachine) (σ : Schedule) : Prop where
  /-- The memory, and what the loads have seen. -/
  image : m.toImage = p.imageAfter σ
  /-- What has run. -/
  run : ∀ t i : ℕ, ⟨t, i⟩ ∈ σ.order ↔ i < m.next t

/-- Nothing has run in the beginning. -/
theorem matches_start (p : Program) : Matches p start [] where
  image := rfl
  run _ _ := iff_of_false List.not_mem_nil (Nat.not_lt_zero _)

namespace Matches

/-- A thread has passed what it came to when that has run. -/
theorem run_snoc (h : m.Matches p σ) (hpos : mv.position = ⟨t, m.next t⟩) (u i : ℕ) :
    ⟨u, i⟩ ∈ Schedule.order (σ ++ [mv]) ↔ i < Function.update m.next t (m.next t + 1) u := by
  rw [Schedule.order_snoc, List.mem_append, List.mem_singleton, hpos, Position.natCast_inj, h.run,
    BufferMachine.lt_advance]

/-- A store of the machine is a move of the schedule. -/
theorem store (h : m.Matches p σ) (hpos : mv.position = ⟨t, m.next t⟩)
    (hget : p.get? mv.position = some (.store x v)) : (m.store t x v).Matches p (σ ++ [mv]) where
  image := by
    rw [Program.imageAfter_snoc, Program.apply_store hget, ← h.image]
    rfl
  run := h.run_snoc hpos

/-- A load of the machine is a move that sees memory. -/
theorem load (h : m.Matches p σ) (hget : p.get? ⟨t, m.next t⟩ = some (.load x)) :
    (m.load t x).Matches p (σ ++ [⟨⟨t, m.next t⟩, some .memory⟩]) where
  image := by
    rw [Program.imageAfter_snoc, Program.apply_load (m := ⟨_, some .memory⟩) hget,
      Program.valueOf_memory hget, ← h.image]
    rfl
  run := h.run_snoc rfl

/-- The instruction that a thread comes to may run, whatever the model. -/
theorem ready_next (h : m.Matches p σ) (md : Model) (t : ℕ) :
    p.ready md σ.order ⟨t, m.next t⟩ = true := by
  refine Program.ready_iff.2 ⟨fun hmem ↦ Nat.lt_irrefl _ ((h.run t _).1 hmem), fun r hr hpre ↦ ?_⟩
  obtain ⟨u, j, th, rfl, -, -⟩ := Program.mem_positions_iff_exists.1 hr
  obtain ⟨ht, hlt, -⟩ := Program.precedes_iff.1 hpre
  obtain rfl : u = t := Int.natCast_inj.1 ht
  exact (h.run u j).2 (Int.ofNat_lt.1 hlt)

/-- **Every step of the machine is a move that IBM370 allows.** -/
theorem step (h : m.Matches p σ) (around : Bool) (hstep : Step p m m') :
    ∃ mv ∈ p.moves ⟨.ibm370, around⟩ σ.order, m'.Matches p (σ ++ [mv]) := by
  cases hstep with
  | @store t x v hget =>
    have hsrc : none ∈ p.sourcesAfter ⟨.ibm370, around⟩ σ.order ⟨t, m.next t⟩ := by
      rw [Program.sourcesAfter, hget]
      exact List.mem_singleton.2 rfl
    exact ⟨⟨⟨t, m.next t⟩, none⟩, Program.mem_moves.2
      ⟨Program.mem_positions_of_get?_natCast hget, h.ready_next _ t, hsrc⟩, h.store rfl hget⟩
  | @load t x hget =>
    have hsrc : some .memory ∈ p.sourcesAfter ⟨.ibm370, around⟩ σ.order ⟨t, m.next t⟩ := by
      rw [Program.sourcesAfter, hget]
      exact List.mem_singleton.2 rfl
    exact ⟨⟨⟨t, m.next t⟩, some .memory⟩, Program.mem_moves.2
      ⟨Program.mem_positions_of_get?_natCast hget, h.ready_next _ t, hsrc⟩, h.load hget⟩

/-- **If threads keep their order, only what a thread comes to next may run.** -/
theorem eq_next_of_ready (h : m.Matches p σ) (hord : p.InOrder md)
    (hq : (⟨t, i⟩ : Position) ∈ p.positions) (hready : p.ready md σ.order ⟨t, i⟩ = true) :
    i = m.next t := by
  obtain ⟨hnot, hwait⟩ := Program.ready_iff.1 hready
  have hle : m.next t ≤ i := Nat.le_of_not_lt fun hlt ↦ hnot ((h.run t i).2 hlt)
  by_contra hne
  -- the thread has not yet run the instruction that it has come to, and this one waits for it
  have hlt : m.next t < i := by omega
  have hrun := hwait _ (Program.mem_positions_of_lt hq hlt) (hord.precedes hq hlt)
  exact Nat.lt_irrefl _ ((h.run t _).1 hrun)

/-- **If threads keep their order, the machine can make every move of a schedule.** -/
theorem move (h : m.Matches p σ) (hord : p.InOrder s.model) (hm : mv ∈ p.moves s σ.order) :
    ∃ m', Step p m m' ∧ m'.Matches p (σ ++ [mv]) := by
  obtain ⟨hq, hready, hsrc⟩ := Program.mem_moves.1 hm
  obtain ⟨q, src⟩ := mv
  obtain ⟨t, i, th, rfl, -, -⟩ := Program.mem_positions_iff_exists.1 hq
  obtain rfl : i = m.next t := h.eq_next_of_ready hord hq hready
  obtain ⟨e, he⟩ := Program.exists_get? hq
  cases e with
  | store x v => exact ⟨m.store t x v, .store he, h.store rfl he⟩
  | load x =>
    rw [hord.sourcesAfter he] at hsrc
    obtain rfl : src = some .memory := List.mem_singleton.1 hsrc
    exact ⟨m.load t x, .load he, h.load he⟩

/-- The machine has finished if and only if the schedule is complete. -/
theorem finished_iff (h : m.Matches p σ) (hσ : p.Admits s σ) : m.Finished p ↔ p.Legal s σ := by
  constructor
  · intro hend
    refine hσ.legal_of_forall_mem fun q hq ↦ ?_
    obtain ⟨t, i, th, rfl, -, -⟩ := Program.mem_positions_iff_exists.1 hq
    exact (h.run t i).2 (Program.lt_of_get?_eq_none hq (hend t))
  · intro hlegal t
    by_contra hne
    obtain ⟨e, he⟩ := Option.ne_none_iff_exists'.1 hne
    have hrun := hlegal.perm.symm.subset (Program.mem_positions_of_get?_natCast he)
    exact Nat.lt_irrefl _ ((h.run t _).1 hrun)

end Matches

/-! ### Whole runs -/

/-- Every run of the machine follows a schedule of IBM370. -/
theorem exists_schedule (around : Bool) (hrun : Relation.ReflTransGen (Step p) start m) :
    ∃ σ, p.Admits ⟨.ibm370, around⟩ σ ∧ m.Matches p σ := by
  induction hrun with
  | refl => exact ⟨[], .nil, matches_start p⟩
  | tail _ hstep ih =>
    obtain ⟨σ, hσ, hmatch⟩ := ih
    obtain ⟨mv, hm, hmatch'⟩ := hmatch.step around hstep
    exact ⟨σ ++ [mv], hσ.snoc hm, hmatch'⟩

/-- If threads keep their order, every schedule is followed by a run of the machine. -/
theorem exists_run (hord : p.InOrder s.model) (hσ : p.Admits s σ) :
    ∃ m, Relation.ReflTransGen (Step p) start m ∧ m.Matches p σ := by
  induction hσ with
  | nil => exact ⟨start, .refl, matches_start p⟩
  | snoc _ hm ih =>
    obtain ⟨m, hrun, hmatch⟩ := ih
    obtain ⟨m', hstep, hmatch'⟩ := hmatch.move hord hm
    exact ⟨m', hrun.tail hstep, hmatch'⟩

end SequentialMachine

namespace Program

variable {p : Program} {s : Setting} {o : Outcome}

/-- **Every sequentially consistent outcome is one of IBM370.** -/
theorem exists_legal_of_mem_sequentialOutcomes (around : Bool) (ho : o ∈ p.sequentialOutcomes) :
    ∃ σ, p.Legal ⟨.ibm370, around⟩ σ ∧ p.outcomeAfter σ = o := by
  obtain ⟨m, hrun, hend, rfl⟩ := ho
  obtain ⟨σ, hσ, hmatch⟩ := SequentialMachine.exists_schedule around hrun
  exact ⟨σ, (hmatch.finished_iff hσ).1 hend, by rw [outcomeAfter, hmatch.image]⟩

/-- **If threads keep their order, every outcome is sequentially consistent.** -/
theorem mem_sequentialOutcomes_of_legal (hord : p.InOrder s.model) {σ : Schedule}
    (hσ : p.Legal s σ) : p.outcomeAfter σ ∈ p.sequentialOutcomes := by
  obtain ⟨m, hrun, hmatch⟩ := SequentialMachine.exists_run hord hσ.admits
  exact ⟨m, hrun, (hmatch.finished_iff hσ.admits).2 hσ, by rw [outcomeAfter, hmatch.image]⟩

/-- **Both models allow what is sequentially consistent**, whether or not loads may read around
pending stores. IBM370 allows nothing else if every store before a load of its thread is to the
variable of the load, and TSO allows nothing else if no thread has a store before a load. -/
theorem explore_sequential (p : Program) (around : Bool) (limits : Limits)
    (hc : p.check limits = .ok ()) (hv : p.storesFit = true) :
    ∃ ibm370 tso, p.explore { model := .ibm370, readAround := around } limits = .ok ibm370 ∧
      p.explore { model := .tso, readAround := around } limits = .ok tso ∧
      (∀ o ∈ p.sequentialOutcomes, o ∈ ibm370.outcomes ∧ o ∈ tso.outcomes) ∧
      ((∀ th ∈ p.threads, th.Pairwise fun i j ↦ i.isStore → j.isLoad → i.name = j.name) →
        ∀ o, o ∈ ibm370.outcomes ↔ o ∈ p.sequentialOutcomes) ∧
      ((∀ th ∈ p.threads, th.Pairwise fun i j ↦ i.isStore → ¬j.isLoad) →
        ∀ o, o ∈ tso.outcomes ↔ o ∈ p.sequentialOutcomes) := by
  have hibm370 : ∀ o ∈ p.sequentialOutcomes, o ∈ (p.findings ⟨.ibm370, around⟩).outcomes :=
    fun o ho ↦ mem_outcomes_findings.2 (exists_legal_of_mem_sequentialOutcomes around ho)
  -- what is allowed under IBM 370 is allowed under TSO
  have htso : ∀ o ∈ p.sequentialOutcomes, o ∈ (p.findings ⟨.tso, around⟩).outcomes := by
    intro o ho
    obtain ⟨σ, hσ, hout⟩ := exists_legal_of_mem_sequentialOutcomes around ho
    exact mem_outcomes_findings.2 ⟨σ, hσ.mono fun _ _ ↦ mem_moves_tso, hout⟩
  have hback (s : Setting) (hord : p.InOrder s.model) :
      ∀ o ∈ (p.findings s).outcomes, o ∈ p.sequentialOutcomes := by
    intro o ho
    obtain ⟨σ, hσ, rfl⟩ := mem_outcomes_findings.1 ho
    exact mem_sequentialOutcomes_of_legal hord hσ
  refine ⟨_, _, explore_of_storesFit hc hv, explore_of_storesFit hc hv,
    fun o ho ↦ ⟨hibm370 o ho, htso o ho⟩, fun hown o ↦ ⟨?_, hibm370 o⟩, fun hnone o ↦ ⟨?_, htso o⟩⟩
  · exact hback ⟨.ibm370, around⟩ (inOrder_ibm370 hown) o
  · exact hback ⟨.tso, around⟩ (inOrder_tso hnone) o

/-- Every load has a store before it, but only to its own variable. -/
def coherence : Program where
  threads := [[.store "x" 1, .load "x"], [.store "x" 2, .load "x", .load "x"]]
  flatten_ne_nil := by decide

/-- No load has a store before it. -/
def loadsFirst : Program where
  threads := [[.load "y", .store "x" 1, .store "y" 2], [.load "x", .load "y", .store "y" 1]]
  flatten_ne_nil := by decide

theorem coherence_sequential :
    (coherence.check .standard = .ok () ∧ coherence.storesFit = true ∧
      ∃ f, coherence.explore { model := .ibm370 } .standard = .ok f ∧
        ∀ o, o ∈ f.outcomes ↔ o ∈ coherence.sequentialOutcomes) ∧
      loadsFirst.check .standard = .ok () ∧ loadsFirst.storesFit = true ∧
      ∃ f, loadsFirst.explore { model := .tso, readAround := true } .standard = .ok f ∧
        ∀ o, o ∈ f.outcomes ↔ o ∈ loadsFirst.sequentialOutcomes := by
  obtain ⟨f, -, hf, -, -, hown, -⟩ := explore_sequential coherence false .standard rfl (by decide)
  obtain ⟨-, g, -, hg, -, -, hnone⟩ := explore_sequential loadsFirst true .standard rfl (by decide)
  exact ⟨⟨rfl, by decide, f, hf, hown (by decide)⟩, rfl, by decide, g, hg, hnone (by decide)⟩

end Program

end Litmus

import Litmus.Proofs.Refusal
import Litmus.Proofs.Resumption
import Mathlib.Logic.Relation

/-!
# Steps that do not depend on each other

Two instructions are independent if they access different variables or both of them only load
(`Program.Independent`). It does not matter in which order they run.

* If both are possible, running one of them leaves the other one possible, with the sources that
  were open to it and the values that it had there (`Program.Independent.mem_moves_snoc`,
  `Program.Independent.valueOf_apply`). None of them is a store that the other one could see.
* Both orders leave the same image (`Program.Independent.apply_comm`). So a walk that steps into one
  and then into the other ends up in the same state either way, and only the traces tell the orders
  apart (`Walk.Commutes`).
* Executions that come from each other by swapping neighbours that are independent
  (`Program.Swap`) therefore have the same outcome (`Program.imageAfter_eq_of_swaps`). Neighbours
  can be swapped unless the model orders them (`Program.Legal.swap_iff`).
-/

namespace Litmus

/-- Whether two instructions access different variables or both only load. -/
def Instruction.independent (i j : Instruction) : Bool :=
  i.name != j.name || (i.isLoad && j.isLoad)

theorem Instruction.independent_comm (i j : Instruction) : i.independent j = j.independent i := by
  rw [independent, independent, bne_comm, Bool.and_comm]

/-- A store is independent of what accesses other variables only. -/
theorem Instruction.ne_name_of_independent {x : String} {v : Int} {j : Instruction}
    (h : (Instruction.store x v).independent j = true) : x ≠ j.name := by
  simpa [independent, name, isLoad] using h

namespace Program

variable {p : Program} {s : Setting} {g : Image} {α β σ τ : Schedule} {a b : Move}
  {done : List Position} {q r : Position}

/-- **Two positions are independent** if they are different and their instructions access different
variables or both only load. -/
def Independent (p : Program) (q r : Position) : Prop :=
  q ≠ r ∧ ∃ i j, p.get? q = some i ∧ p.get? r = some j ∧ i.independent j = true

/-- Whether two positions are independent does not depend on their order. -/
theorem Independent.symm (h : p.Independent q r) : p.Independent r q := by
  obtain ⟨hne, i, j, hi, hj, hind⟩ := h
  exact ⟨hne.symm, j, i, hj, hi, by rwa [Instruction.independent_comm]⟩

/-! ### What one of them leaves to the other -/

/-- Nothing is forwarded between independent instructions. -/
theorem Independent.not_mem_ownStores (h : p.Independent q r) : q ∉ p.ownStores r := by
  obtain ⟨-, i, j, hi, hj, hind⟩ := h
  intro hmem
  obtain ⟨-, -, -, j', v, hj', hstore⟩ := mem_ownStores.1 hmem
  obtain rfl : j = j' := Option.some.inj (hj.symm.trans hj')
  obtain rfl : i = .store j.name v := Option.some.inj (hi.symm.trans hstore)
  exact Instruction.ne_name_of_independent hind rfl

/-- The sources of a load depend on what has run of its own stores. -/
theorem sourcesAfter_congr {done' : List Position}
    (h : ∀ r ∈ p.ownStores q, r ∈ done ↔ r ∈ done') :
    p.sourcesAfter s done q = p.sourcesAfter s done' q := by
  have hran : (∃ r ∈ p.ownStores q, r ∈ done) ↔ ∃ r ∈ p.ownStores q, r ∈ done' :=
    exists_congr fun r ↦ and_congr_right (h r)
  simp only [sourcesAfter, hran]

/-- What an independent instruction does leaves the sources alone that are open to a load. -/
theorem Independent.sourcesAfter_snoc (h : p.Independent q r) :
    p.sourcesAfter s (done ++ [q]) r = p.sourcesAfter s done r := by
  refine sourcesAfter_congr fun t ht ↦ ?_
  have hne : t ≠ q := fun heq ↦ h.not_mem_ownStores (heq ▸ ht)
  simp [hne]

/-- **A move that is possible is possible still when an independent one has been made.** -/
theorem Independent.mem_moves_snoc (h : p.Independent q b.position) (hb : b ∈ p.moves s done) :
    b ∈ p.moves s (done ++ [q]) := by
  obtain ⟨hpos, hready, hsrc⟩ := mem_moves.1 hb
  obtain ⟨hnot, hwait⟩ := ready_iff.1 hready
  refine mem_moves.2 ⟨hpos, ready_iff.2 ⟨?_, fun t ht hpre ↦ ?_⟩, ?_⟩
  · simp [hnot, h.1.symm]
  · exact List.mem_append_left _ (hwait t ht hpre)
  · rwa [h.sourcesAfter_snoc]

/-- **A move has the value that it would have had before an independent one.** -/
theorem Independent.valueOf_apply (h : p.Independent a.position b.position) :
    p.valueOf (p.apply g a) b = p.valueOf g b := by
  obtain ⟨-, i, j, hi, hj, hind⟩ := h
  cases j with
  | store y u => rw [valueOf_store hj, valueOf_store hj]
  | load y =>
    rw [valueOf_load hj, valueOf_load hj]
    cases i with
    | load x => rw [apply_load hi]
    | store x v =>
      have hxy : x ≠ y := Instruction.ne_name_of_independent hind
      simp only [apply_store hi, Function.update_of_ne hxy.symm]

/-- **Independent moves commute.** -/
theorem Independent.apply_comm (h : p.Independent a.position b.position) :
    p.apply (p.apply g a) b = p.apply (p.apply g b) a := by
  have hb : p.valueOf (p.apply g a) b = p.valueOf g b := h.valueOf_apply
  have ha : p.valueOf (p.apply g b) a = p.valueOf g a := h.symm.valueOf_apply
  obtain ⟨hne, i, j, hi, hj, hind⟩ := h
  cases i with
  | store x v =>
    cases j with
    | store y u =>
      have hxy : x ≠ y := Instruction.ne_name_of_independent hind
      simp only [apply_store hi, apply_store hj, Function.update_comm hxy]
    | load y => rw [apply_load hj, hb, apply_store hi, apply_store hi, apply_load hj]
  | load x =>
    rw [apply_load hi (g := p.apply g b), ha]
    cases j with
    | store y u => rw [apply_store hj, apply_store hj, apply_load hi]
    | load y => rw [apply_load hj, hb, apply_load hi, apply_load hj, Function.update_comm hne]

/-! ### Schedules -/

/-- **Two schedules differ by a swap of neighbours that are independent.** -/
inductive Swap (p : Program) : Schedule → Schedule → Prop
  /-- What runs before and after them is the same. -/
  | intro (α : Schedule) {a b : Move} (β : Schedule)
    (h : p.Independent a.position b.position) : Swap p (α ++ a :: b :: β) (α ++ b :: a :: β)

/-- **One swap changes nothing in what is left.** -/
theorem Swap.imageAfter_eq (h : p.Swap σ τ) : p.imageAfter σ = p.imageAfter τ := by
  obtain ⟨α, β, hind⟩ := h
  simp only [imageAfter, List.foldl_append, List.foldl_cons, hind.apply_comm]

/-- **Swaps of independent neighbours leave the same image.** -/
theorem imageAfter_eq_of_swaps (h : Relation.EqvGen p.Swap σ τ) :
    p.imageAfter σ = p.imageAfter τ := by
  induction h with
  | rel σ τ h => exact h.imageAfter_eq
  | refl σ => rfl
  | symm σ τ _ ih => exact ih.symm
  | trans σ τ ρ _ _ ih ih' => exact ih.trans ih'

/-- What the sources of a schedule depend on is what has run before, in whatever order. -/
theorem sourced_congr {done' : List Position} (h : ∀ q, q ∈ done ↔ q ∈ done') :
    p.Sourced s done σ ↔ p.Sourced s done' σ := by
  induction σ generalizing done done' with
  | nil => exact Iff.rfl
  | cons m σ ih =>
    have hnext : ∀ q, q ∈ done ++ [m.position] ↔ q ∈ done' ++ [m.position] := by
      simp [h]
    rw [Sourced, Sourced, sourcesAfter_congr fun r _ ↦ h r, ih hnext]

/-- **Independent neighbours can be swapped unless the model orders them.** -/
theorem Legal.swap_iff (h : p.Legal s (α ++ a :: b :: β))
    (hind : p.Independent a.position b.position) :
    p.Legal s (α ++ b :: a :: β) ↔ p.precedes s.model a.position b.position = false := by
  constructor
  · intro h'
    -- if the swapped schedule is legal, the later move did not have to wait
    have hord := h'.ordered
    simp only [Schedule.order_append, Schedule.order_cons, List.pairwise_append,
      List.pairwise_cons] at hord
    exact hord.2.1.1 _ List.mem_cons_self
  · intro hpre
    refine ⟨?_, ?_, ?_⟩
    · refine List.Perm.trans ?_ h.perm
      simp only [Schedule.order_append, Schedule.order_cons]
      exact (List.Perm.swap _ _ _).append_left _
    · have hord := h.ordered
      simp only [Schedule.order_append, Schedule.order_cons, List.pairwise_append,
        List.pairwise_cons, List.mem_cons, forall_eq_or_imp] at hord ⊢
      obtain ⟨hα, ⟨⟨-, haβ⟩, hbβ, hβ⟩, hcross⟩ := hord
      refine ⟨hα, ⟨⟨hpre, hbβ⟩, haβ, hβ⟩, fun q hq ↦ ?_⟩
      obtain ⟨hqa, hqb, hqβ⟩ := hcross q hq
      exact ⟨hqb, hqa, hqβ⟩
    · have hsrc := h.sourced
      rw [sourced_append] at hsrc ⊢
      obtain ⟨hα, ha, hb, hβ⟩ := hsrc
      refine ⟨hα, ?_, ?_, ?_⟩
      · rwa [hind.sourcesAfter_snoc] at hb
      · rwa [hind.symm.sourcesAfter_snoc]
      · -- behind the two moves the same positions have run, though in another order
        refine (sourced_congr fun q ↦ ?_).1 hβ
        simp [or_comm]

end Program

/-! ### Walks -/

namespace Walk

variable {p : Program} {s : Setting} {w w' : Walk p s} {g : Image} {σ : Schedule} {a b : Move}
  {done done' : List Position} {q r : Position} {c d : Choice}

/-- **The walk can step into `q` and from there into `r`**, which is then offered with the choices
that it had before. This leads to `v`. -/
def InTurn (w : Walk p s) (q : Position) (c : Choice) (r : Position) (d : Choice)
    (v : Walk p s) : Prop :=
  ∃ u prior prior', w.enter q c = (u, .ok prior) ∧ r ∈ u.eligible ∧ u.choices r = w.choices r ∧
    u.enter r d = (v, .ok prior')

/-- Two walks are in the same state, though they may have come there in different ways. -/
structure SameState (w w' : Walk p s) : Prop where
  /-- The edges. -/
  graph : w.graph = w'.graph
  /-- What has run. -/
  executed : w.execution.executed = w'.execution.executed
  /-- The memory. -/
  memory : w.execution.memory = w'.execution.memory
  /-- What the loads have seen. -/
  loads : w.execution.loads = w'.execution.loads

/-- **Two steps of the walk commute**: after either of them the other one is offered as before, and
both orders lead to the same state. Only the traces have the two steps in different orders. -/
def Commutes (w : Walk p s) (q : Position) (c : Choice) (r : Position) (d : Choice) : Prop :=
  ∃ v v' i j, p.get? q = some i ∧ p.get? r = some j ∧
    w.InTurn q c r d v ∧ w.InTurn r d q c v' ∧ v.SameState v' ∧
    v.trace = w.trace ++ [⟨q, i, c.value, c.source⟩, ⟨r, j, d.value, d.source⟩] ∧
    v'.trace = w.trace ++ [⟨r, j, d.value, d.source⟩, ⟨q, i, c.value, c.source⟩]

/-- What has run and the image that it has left are all there is to a state. -/
theorem Stands.sameState (h : w.Stands done g) (h' : w'.Stands done' g)
    (hdone : ∀ q, q ∈ done ↔ q ∈ done') : w.SameState w' where
  graph := WaitGraph.ext fun later earlier ↦ by rw [h.graph, h'.graph, hdone]
  executed := by
    funext r
    rw [Bool.eq_iff_iff, h.executed_iff, h'.executed_iff, hdone]
  memory := by
    have hcells := congrArg Outcome.memory (h.outcome.trans h'.outcome.symm)
    exact congrArg Memory.mk hcells
  loads := congrArg Outcome.loads (h.outcome.trans h'.outcome.symm)

/-- **A possible move is offered as before when an independent one has been made.** -/
theorem Stands.inTurn (h : w.Stands done g) (ha : a ∈ p.moves s done) (hb : b ∈ p.moves s done)
    (hind : p.Independent a.position b.position) {i j : Instruction}
    (hi : p.get? a.position = some i) (hj : p.get? b.position = some j) :
    ∃ v, w.InTurn a.position ⟨a.source, p.valueOf g a⟩ b.position ⟨b.source, p.valueOf g b⟩ v ∧
      v.Stands (done ++ [a.position] ++ [b.position]) (p.apply (p.apply g a) b) ∧
      v.trace = w.trace ++ [⟨a.position, i, p.valueOf g a, a.source⟩,
        ⟨b.position, j, p.valueOf g b, b.source⟩] := by
  have hb' : b ∈ p.moves s (done ++ [a.position]) := hind.mem_moves_snoc hb
  obtain ⟨hpos, hready, -⟩ := Program.mem_moves.1 hb'
  obtain ⟨u, prior, henter, hu, htrace⟩ := h.enter_move ha hi
  obtain ⟨v, prior', henter', hv, htrace'⟩ := hu.enter_move hb' hj
  rw [hind.valueOf_apply] at henter' htrace'
  -- the second step is offered the same choices after the first as before it
  have hchoices : u.choices b.position = w.choices b.position := by
    rw [hu.choices hpos, h.choices hpos, hind.sourcesAfter_snoc]
    refine congrArg Except.ok (List.map_congr_left fun src _ ↦ ?_)
    rw [Program.Independent.valueOf_apply (b := ⟨b.position, src⟩) hind]
  refine ⟨v, ⟨u, prior, prior', henter, hu.mem_eligible.2 ⟨hpos, hready⟩, hchoices, henter'⟩,
    hv, ?_⟩
  rw [htrace', htrace, List.append_assoc]
  rfl

/-- **Two independent steps that are offered commute**, wherever the walk stands. -/
theorem Stands.commutes (h : w.Stands done g) (hc : w.Offers q c) (hd : w.Offers r d)
    (hind : p.Independent q r) : w.Commutes q c r d := by
  obtain ⟨hq, cs, hcs, hc⟩ := hc
  obtain ⟨hr, ds, hds, hd⟩ := hd
  obtain ⟨a, ha, rfl, rfl⟩ := h.exists_move hq hcs hc
  obtain ⟨b, hb, rfl, rfl⟩ := h.exists_move hr hds hd
  obtain ⟨i, hi⟩ := Program.exists_get? (Program.mem_moves.1 ha).1
  obtain ⟨j, hj⟩ := Program.exists_get? (Program.mem_moves.1 hb).1
  obtain ⟨v, hturn, hv, htrace⟩ := h.inTurn ha hb hind hi hj
  obtain ⟨v', hturn', hv', htrace'⟩ := h.inTurn hb ha hind.symm hj hi
  -- both walks stand at the same image, and the same positions have run
  rw [hind.symm.apply_comm] at hv'
  have hsame : v.SameState v' := hv.sameState hv' fun q ↦ by simp [or_comm]
  exact ⟨v, v', i, j, hi, hj, hturn, hturn', hsame, htrace, htrace'⟩

/-! ### Complete walks -/

/-- Every schedule that can be built up is followed by a walk. -/
theorem exists_reachedIn (h : p.Admits s σ) :
    ∃ w : Walk p s, w.ReachedIn σ.length ∧ w.Follows σ := by
  induction h with
  | nil => exact ⟨start p s, .start, follows_start p s⟩
  | @snoc σ m _ hm ih =>
    obtain ⟨w, hreached, hw⟩ := ih
    obtain ⟨w', prior, henter, hw'⟩ := hw.enter hm
    obtain ⟨hpos, hready, hsrc⟩ := Program.mem_moves.1 hm
    have hq : m.position ∈ w.eligible := hw.mem_eligible.2 ⟨hpos, hready⟩
    refine ⟨w', ?_, hw'⟩
    rw [List.length_append, List.length_singleton]
    exact hreached.step hq (hw.choices hpos) (List.mem_map_of_mem hsrc) henter

/-- A walk that is reached follows the schedule in its trace. -/
theorem ReachedIn.follows_schedule {n : ℕ} (h : ReachedIn n w) :
    p.Admits s w.trace.schedule ∧ w.Follows w.trace.schedule ∧ w.trace.schedule.length = n := by
  obtain ⟨σ, hσ, hw, hlen⟩ := h.follows
  obtain rfl : w.trace.schedule = σ := by rw [hw.trace, hσ.schedule_trace]
  exact ⟨hσ, hw, hlen⟩

/-- The complete walks have the legal schedules. -/
theorem exists_complete_iff :
    (∃ w : Walk p s, w.ReachedIn p.total ∧ w.trace.schedule = σ) ↔ p.Legal s σ := by
  rw [Program.legal_iff]
  constructor
  · rintro ⟨w, h, rfl⟩
    obtain ⟨hσ, -, hlen⟩ := h.follows_schedule
    exact ⟨hσ, hlen⟩
  · rintro ⟨hσ, hlen⟩
    obtain ⟨w, hreached, hw⟩ := exists_reachedIn hσ
    rw [hlen] at hreached
    exact ⟨w, hreached, by rw [hw.trace, hσ.schedule_trace]⟩

/-- **Independent steps commute.** At a walk that is reached by steps inside each other, two of the
steps that it offers commute if their instructions access different variables or both only load. In
a complete walk, two such steps that follow each other can be swapped if and only if the model does
not order them. And complete walks that come from each other by any number of such swaps have the
same outcome. -/
theorem independent_steps_commute (p : Program) (s : Setting) :
    (∀ (w : Walk p s) (q r : Position) (c d : Choice), w.Nested → w.Offers q c → w.Offers r d →
      p.Independent q r → w.Commutes q c r d) ∧
    (∀ (w : Walk p s) (α β : Schedule) (a b : Move), w.ReachedIn p.total →
      w.trace.schedule = α ++ a :: b :: β → p.Independent a.position b.position →
      ((∃ w' : Walk p s, w'.ReachedIn p.total ∧ w'.trace.schedule = α ++ b :: a :: β) ↔
        p.precedes s.model a.position b.position = false)) ∧
    ∀ w w' : Walk p s, w.ReachedIn p.total → w'.ReachedIn p.total →
      Relation.EqvGen p.Swap w.trace.schedule w'.trace.schedule →
      w.execution.outcome = w'.execution.outcome := by
  refine ⟨fun w q r c d hw hc hd hind ↦ ?_, fun w α β a b hw hsplit hind ↦ ?_,
    fun w w' hw hw' hswaps ↦ ?_⟩
  · obtain ⟨done, g, hstands⟩ := hw.stands
    exact hstands.commutes hc hd hind
  · have hlegal : p.Legal s (α ++ a :: b :: β) := exists_complete_iff.1 ⟨w, hw, hsplit⟩
    rw [exists_complete_iff, hlegal.swap_iff hind]
  · obtain ⟨-, hfollows, -⟩ := hw.follows_schedule
    obtain ⟨-, hfollows', -⟩ := hw'.follows_schedule
    rw [hfollows.outcome_eq, hfollows'.outcome_eq, Program.outcomeAfter, Program.outcomeAfter,
      Program.imageAfter_eq_of_swaps hswaps]

/-- The schedule of `Program.storeForwarding` in which the load of `x` runs first, and takes its
value from the store before it. -/
def loadFirst : Schedule :=
  [⟨⟨0, 1⟩, some .forwarded⟩, ⟨⟨1, 0⟩, none⟩, ⟨⟨0, 0⟩, none⟩, ⟨⟨0, 2⟩, some .memory⟩,
    ⟨⟨1, 1⟩, none⟩]

/-- The load of `x` and the store of `y` by the other thread are both offered at the start. They
commute, and the executions that begin with the one or with the other have the same outcome. -/
theorem storeForwarding_commutes :
    (start Program.storeForwarding { model := .tso }).Offers ⟨0, 1⟩ ⟨some .forwarded, 1⟩ ∧
      (start Program.storeForwarding { model := .tso }).Offers ⟨1, 0⟩ ⟨none, 2⟩ ∧
      Program.storeForwarding.Independent ⟨0, 1⟩ ⟨1, 0⟩ ∧
      (start Program.storeForwarding { model := .tso }).Commutes ⟨0, 1⟩ ⟨some .forwarded, 1⟩
        ⟨1, 0⟩ ⟨none, 2⟩ ∧
      ∃ w w' : Walk Program.storeForwarding { model := .tso },
        w.ReachedIn Program.storeForwarding.total ∧ w'.ReachedIn Program.storeForwarding.total ∧
        w.trace.schedule = loadFirst ∧ w'.trace.schedule ≠ loadFirst ∧
        w.execution.outcome = w'.execution.outcome := by
  obtain ⟨hcommute, hswap, houtcome⟩ :=
    independent_steps_commute Program.storeForwarding { model := .tso }
  have hload : (start Program.storeForwarding { model := .tso }).Offers ⟨0, 1⟩
      ⟨some .forwarded, 1⟩ := ⟨by decide, _, rfl, List.mem_singleton.2 rfl⟩
  have hstore : (start Program.storeForwarding { model := .tso }).Offers ⟨1, 0⟩ ⟨none, 2⟩ :=
    ⟨by decide, _, rfl, List.mem_singleton.2 rfl⟩
  have hind : Program.storeForwarding.Independent ⟨0, 1⟩ ⟨1, 0⟩ :=
    ⟨by decide, .load "x", .store "y" 2, rfl, rfl, by decide⟩
  obtain ⟨w, hw, hσ⟩ := exists_complete_iff.2
    (show Program.storeForwarding.Legal { model := .tso } loadFirst by decide)
  obtain ⟨w', hw', hσ'⟩ := (hswap w [] _ _ _ hw hσ hind).2 (by decide)
  refine ⟨hload, hstore, hind, hcommute _ _ _ _ _ .start hload hstore hind, w, w', hw, hw', hσ,
    by rw [hσ']; decide, houtcome w w' hw hw' ?_⟩
  rw [hσ, hσ']
  exact .rel _ _ (.intro [] _ hind)

end Walk

end Litmus

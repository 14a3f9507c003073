import Litmus.Proofs.Refusal
import Litmus.Session.Graph
import Mathlib.Logic.Relation

/-!
# What an instruction waits for

The edges of a wait graph are lifted and imposed call by call, for one earlier instruction at a
time, in any order and as often as one likes. Every call goes through the sets of all instructions
behind its own, and these sets hold what other calls have put there. Still an edge is there just if
the model asks for it and the last call on its earlier end did not lift it (`WaitGraph.Settled`),
whatever has happened to the other edges from the same instruction in between.

* **The step.** One call removes the edges to its instruction, or adds those that the model asks
  for, and leaves all others alone (`WaitGraph.mem_edges_call`). So an edge is touched by the calls
  on its earlier end only, and this is the frame that the rest is built on.
* **The run.** Over a whole sequence of calls, the last one on the earlier end decides
  (`WaitGraph.mem_edges_after`). It is only by this that edges lead to earlier places of the same
  thread, and that there are no cycles: nothing in a set of positions keeps it from holding one of
  another thread.
* **The walk.** A walk lifts the edges to what it runs. What it offers are therefore the
  instructions that have not run, but all that they have to wait for has
  (`Walk.Roams.offersReady`). In each thread this can be one load and one store at most: of two
  instructions of the same kind, the later one waits for the earlier one under both models.
-/

namespace Litmus

open Session.Graph (Call machine)

namespace WaitGraph

variable {p : Program} {m : Model} {g : WaitGraph p m} {q r later earlier : Position} {c : Call}
  {cs : List Call}

/-! ### One call -/

/-- The position whose edges a call changes. -/
def changed? : Call → Option Position
  | .lift q | .impose q => some q
  | .isWaiting _ | .dependencies _ => none

/-- The position that a call is about is one of the program's own. -/
def Concerns (p : Program) : Call → Prop
  | .lift q | .impose q | .isWaiting q | .dependencies q => q ∈ p.positions

instance (p : Program) : (c : Call) → Decidable (Concerns p c)
  | .lift q | .impose q | .isWaiting q | .dependencies q =>
    inferInstanceAs (Decidable (q ∈ p.positions))

/-- **What a call does to the edges.** Lifting discards its position from the sets of all that stand
behind it, imposing adds it to those that the model orders after it, and a question changes nothing.
The edges to any other position are as before. -/
theorem mem_edges_call (hc : Concerns p c) : (later, earlier) ∈ (machine.call c g).1.edges ↔
    (match c with
      | .lift q => (later, earlier) ∈ g.edges ∧
          ¬(earlier = q ∧ later.thread = q.thread ∧ q.index < later.index)
      | .impose q => (later, earlier) ∈ g.edges ∨
          later ∈ p.positions ∧ earlier = q ∧ p.precedes m q later = true
      | .isWaiting _ | .dependencies _ => (later, earlier) ∈ g.edges) := by
  cases c with
  | lift q =>
    show (later, earlier) ∈ (g.lift q).1.edges ↔ _
    rw [mem_edges, mem_waitsFor_lift hc, ← mem_edges]
  | impose q =>
    show (later, earlier) ∈ (g.impose q).1.edges ↔ _
    rw [mem_edges, mem_waitsFor_impose hc, ← mem_edges]
  | isWaiting q => exact Iff.rfl
  | dependencies q => exact Iff.rfl

/-- A call on a position of the program is never refused. -/
theorem exists_reply (hc : Concerns p c) : ∃ reply, (machine.call c g).2 = .ok reply := by
  cases c with
  | lift q =>
    refine ⟨.done, ?_⟩
    show (g.lift q).2.map _ = _
    rw [lift_eq g hc]
    rfl
  | impose q =>
    refine ⟨.done, ?_⟩
    show (g.impose q).2.map _ = _
    rw [impose_eq g hc]
    rfl
  | isWaiting q =>
    refine ⟨.flag !(g.waitsFor q).toList.isEmpty, ?_⟩
    show (g.dependencies q).map _ = _
    rw [dependencies_eq g hc]
    rfl
  | dependencies q =>
    refine ⟨.positions (g.waitsFor q).toList, ?_⟩
    show (g.dependencies q).map _ = _
    rw [dependencies_eq g hc]
    rfl

/-! ### Sequences of calls -/

/-- The graph after calls on one that has all its edges. -/
def after (p : Program) (m : Model) (cs : List Call) : WaitGraph p m :=
  cs.foldl (fun g c ↦ (machine.call c g).1) full

/-- The last of the calls that changes the edges to a position. -/
def lastOn (q : Position) (cs : List Call) : Option Call :=
  (cs.filter (changed? · == some q)).getLast?

theorem after_snoc (p : Program) (m : Model) (cs : List Call) (c : Call) :
    after p m (cs ++ [c]) = (machine.call c (after p m cs)).1 := by
  rw [after, List.foldl_append]
  rfl

/-- A call is the last on the instruction that it changes, and the last calls on all others stay
what they were. -/
theorem lastOn_snoc (q : Position) (cs : List Call) (c : Call) :
    lastOn q (cs ++ [c]) = if changed? c = some q then some c else lastOn q cs := by
  rw [lastOn, List.filter_append]
  by_cases hc : changed? c = some q
  · simp [hc]
  · simp [hc, lastOn]

/-- **The last call on an instruction decides on the edges to it.** By induction on the calls, from
the last one backwards. -/
theorem mem_edges_after (hcs : ∀ c ∈ cs, Concerns p c) :
    (later, earlier) ∈ (after p m cs).edges ↔
      later ∈ p.positions ∧ earlier ∈ p.positions ∧ p.precedes m earlier later = true ∧
        (lastOn earlier cs = none ∨ lastOn earlier cs = some (.impose earlier)) := by
  induction cs using List.reverseRecOn with
  | nil =>
    rw [after, List.foldl_nil, mem_edges, mem_waitsFor_full]
    simp [lastOn]
  | append_singleton cs c ih =>
    have hc : Concerns p c := hcs c (List.mem_append_right cs List.mem_cons_self)
    have ih := ih fun d hd ↦ hcs d (List.mem_append_left [c] hd)
    rw [after_snoc, mem_edges_call hc, lastOn_snoc]
    -- a call on another position neither touches the edge nor is the last one on its earlier end
    cases c with
    | lift x =>
      simp only [changed?, Option.some.injEq, ih]
      by_cases hx : x = earlier
      · -- an edge to it that was left comes from something behind it, and so it has been discarded
        subst hx
        simp only [if_true, true_and, reduceCtorEq, Option.some.injEq, or_self, and_false,
          iff_false]
        rintro ⟨⟨-, -, hpre, -⟩, hnot⟩
        obtain ⟨ht, hlt, -⟩ := Program.precedes_iff.1 hpre
        exact hnot ⟨ht.symm, hlt⟩
      · simp [hx, Ne.symm hx]
    | impose x =>
      simp only [changed?, Option.some.injEq, ih]
      by_cases hx : x = earlier
      · subst hx
        simp only [if_true, or_true, and_true, true_and]
        constructor
        · rintro (⟨hlater, hx, hpre, -⟩ | ⟨hlater, hpre⟩)
          · exact ⟨hlater, hx, hpre⟩
          · exact ⟨hlater, hc, hpre⟩
        · rintro ⟨hlater, -, hpre⟩
          exact Or.inr ⟨hlater, hpre⟩
      · simp [hx, Ne.symm hx]
    | isWaiting x => exact ih
    | dependencies x => exact ih

/-- After any calls, edges lead to earlier places of the same thread. -/
theorem lt_of_mem_edges_after (hcs : ∀ c ∈ cs, Concerns p c)
    (h : (later, earlier) ∈ (after p m cs).edges) :
    later.thread = earlier.thread ∧ earlier.index < later.index := by
  obtain ⟨-, -, hpre, -⟩ := (mem_edges_after hcs).1 h
  obtain ⟨ht, hi, -⟩ := Program.precedes_iff.1 hpre
  exact ⟨ht.symm, hi⟩

/-- So does every chain of edges, which therefore never comes back. -/
theorem index_lt_of_transGen (hcs : ∀ c ∈ cs, Concerns p c)
    (h : Relation.TransGen (fun later earlier ↦ (later, earlier) ∈ (after p m cs).edges) q r) :
    r.index < q.index := by
  induction h with
  | single hedge => exact (lt_of_mem_edges_after hcs hedge).2
  | tail _ hedge ih => exact (lt_of_mem_edges_after hcs hedge).2.trans ih

/-- **The edges of a graph are settled by the calls that have been made.** -/
structure Settled (g : WaitGraph p m) (cs : List Call) : Prop where
  /-- An edge is there if the model asks for it and the last call on its earlier end, if there is
  any, imposed it. -/
  edges : ∀ later earlier, (later, earlier) ∈ g.edges ↔
    later ∈ p.positions ∧ earlier ∈ p.positions ∧ p.precedes m earlier later = true ∧
      (lastOn earlier cs = none ∨ lastOn earlier cs = some (.impose earlier))
  /-- No edge leads to another thread. -/
  thread : ∀ later earlier, (later, earlier) ∈ g.edges → later.thread = earlier.thread
  /-- Nothing waits for itself, not even through others. -/
  acyclic : ∀ q, ¬ Relation.TransGen (fun later earlier ↦ (later, earlier) ∈ g.edges) q q
  /-- The next call is answered, whatever it is. -/
  answered : ∀ c, Concerns p c → ∃ reply, (machine.call c g).2 = .ok reply

/-- **Whatever has been called, the last calls settle the edges.** -/
theorem settled_after (hcs : ∀ c ∈ cs, Concerns p c) : (after p m cs).Settled cs where
  edges _ _ := mem_edges_after hcs
  thread _ _ hedge := (lt_of_mem_edges_after hcs hedge).1
  acyclic _ hcycle := lt_irrefl _ (index_lt_of_transGen hcs hcycle)
  answered _ := exists_reply

end WaitGraph

/-! ### What a walk offers -/

namespace Program

variable {p : Program} {q r : Position}

/-- Of two instructions of a thread that are of one kind, the later waits for the earlier. -/
theorem precedes_of_same_kind (m : Model) (hq : q ∈ p.positions) (hr : r ∈ p.positions)
    (ht : r.thread = q.thread) (hlt : r.index < q.index)
    (hkind : (p.get? q).map Instruction.isLoad = (p.get? r).map Instruction.isLoad) :
    p.precedes m r q = true := by
  obtain ⟨i, hi⟩ := exists_get? hr
  obtain ⟨j, hj⟩ := exists_get? hq
  rw [hi, hj] at hkind
  cases i with
  | load x => exact precedes_of_load m hi hq ht hlt
  | store x v =>
    cases j with
    | load y => simp [Instruction.isLoad] at hkind
    | store y u => exact precedes_of_store m hj hr ht hlt

end Program

namespace Walk

variable {p : Program} {s : Setting} {w w' : Walk p s} {done : List Position} {g : Image}
  {q r : Position} {opened : List (Position × Int)}

/-- **The walk offers what is ready, in order.** -/
structure OffersReady (w : Walk p s) : Prop where
  /-- The edges that are left lead to what has not run. -/
  edges : ∀ later earlier, (later, earlier) ∈ w.graph.edges ↔
    later ∈ p.positions ∧ earlier ∈ p.positions ∧ p.precedes s.model earlier later = true ∧
      w.execution.executed earlier = false
  /-- What is offered comes in increasing order. -/
  sorted : w.eligible.Pairwise (· < ·)
  /-- It is what has not run while all that it waits for has. -/
  mem_iff : ∀ q, q ∈ w.eligible ↔ q ∈ p.positions ∧ w.execution.executed q = false ∧
    ∀ r ∈ p.positions, p.precedes s.model r q = true → w.execution.executed r = true
  /-- In each thread it is one load and one store at most. -/
  unique : ∀ q ∈ w.eligible, ∀ r ∈ w.eligible, q.thread = r.thread →
    (p.get? q).map Instruction.isLoad = (p.get? r).map Instruction.isLoad → q = r

/-- The edges that are left point to what has not run. -/
theorem Stands.mem_edges (h : w.Stands done g) {later earlier : Position} :
    (later, earlier) ∈ w.graph.edges ↔ later ∈ p.positions ∧ earlier ∈ p.positions ∧
      p.precedes s.model earlier later = true ∧ w.execution.executed earlier = false := by
  rw [WaitGraph.mem_edges, h.graph, ← Bool.not_eq_true, h.executed_iff]

/-- What is eligible has not run, and everything that precedes it has. -/
theorem Stands.mem_eligible_iff (h : w.Stands done g) : q ∈ w.eligible ↔
    q ∈ p.positions ∧ w.execution.executed q = false ∧
      ∀ r ∈ p.positions, p.precedes s.model r q = true → w.execution.executed r = true := by
  simp only [h.mem_eligible, Program.ready_iff, ← Bool.not_eq_true, h.executed_iff]

/-- Of two instructions of a thread that are of one kind, the later is not offered together with the
earlier. -/
theorem Stands.not_lt_of_mem_eligible (h : w.Stands done g) (hq : q ∈ w.eligible)
    (hr : r ∈ w.eligible) (ht : r.thread = q.thread)
    (hkind : (p.get? q).map Instruction.isLoad = (p.get? r).map Instruction.isLoad) :
    ¬ r.index < q.index := by
  intro hlt
  obtain ⟨hq, -, hready⟩ := h.mem_eligible_iff.1 hq
  obtain ⟨hr, hnot, -⟩ := h.mem_eligible_iff.1 hr
  rw [hready r hr (Program.precedes_of_same_kind _ hq hr ht hlt hkind)] at hnot
  cases hnot

theorem Stands.offersReady (h : w.Stands done g) : w.OffersReady where
  edges _ _ := h.mem_edges
  sorted := p.positions_sorted.filter _
  mem_iff _ := h.mem_eligible_iff
  unique q hq r hr ht hkind := by
    have hle : ¬ r.index < q.index := h.not_lt_of_mem_eligible hq hr ht.symm hkind
    have hge : ¬ q.index < r.index := h.not_lt_of_mem_eligible hr hq ht hkind.symm
    have hi : q.index = r.index := by omega
    cases q
    cases r
    exact congrArg₂ Position.mk ht hi

/-! ### Steps that are entered, refused and left -/

/-- The walk is reached by steps that it offered, with whatever choices. Those that are still open
are listed, the innermost one first, with what leaving them needs. -/
inductive Descends {p : Program} {s : Setting} : List (Position × Int) → Walk p s → Prop
  /-- Nothing has run. -/
  | start : Descends [] (start p s)
  /-- One more step is entered. -/
  | enter {opened : List (Position × Int)} {w w' : Walk p s} {q : Position} {c : Choice}
    {prior : Int} (h : Descends opened w) (hq : q ∈ w.eligible)
    (henter : w.enter q c = (w', .ok prior)) : Descends ((q, prior) :: opened) w'

/-- The walk is reached by entering and leaving steps that it offered, with whatever choices. A step
can also be refused. Only the innermost step can be left. -/
inductive Roams {p : Program} {s : Setting} : List (Position × Int) → Walk p s → Prop
  /-- Nothing has run. -/
  | start : Roams [] (start p s)
  /-- A step is entered. -/
  | enter {opened : List (Position × Int)} {w w' : Walk p s} {q : Position} {c : Choice}
    {prior : Int} (h : Roams opened w) (hq : q ∈ w.eligible)
    (henter : w.enter q c = (w', .ok prior)) : Roams ((q, prior) :: opened) w'
  /-- A step is refused. -/
  | refuse {opened : List (Position × Int)} {w w' : Walk p s} {q : Position} {c : Choice}
    {f : Fault} (h : Roams opened w) (hq : q ∈ w.eligible)
    (henter : w.enter q c = (w', .error f)) : Roams opened w'
  /-- The innermost step is left. -/
  | leave {opened : List (Position × Int)} {w w' : Walk p s} {q : Position} {prior : Int}
    {r : Except Fault Unit} (h : Roams ((q, prior) :: opened) w)
    (hleave : w.leave q prior = (w', r)) : Roams opened w'

/-- A walk that has entered nothing but what was offered is nested in its steps. -/
theorem Descends.nested (h : Descends opened w) : w.Nested := by
  induction h with
  | start => exact .start
  | enter _ hq henter ih => exact ih.step (List.mem_filter.1 hq).1 henter

/-- What is offered has not run, so the edges to it are in force. -/
theorem Stands.inForce_of_mem_eligible (h : w.Stands done g) (hq : q ∈ w.eligible) :
    w.graph.InForce q := by
  obtain ⟨hpos, hready⟩ := h.mem_eligible.1 hq
  exact h.inForce hpos (Program.ready_iff.1 hready).1

/-- **Steps that are refused or left have changed nothing**, as long as they were offered. -/
theorem Roams.descends (h : Roams opened w) : Descends opened w := by
  induction h with
  | start => exact .start
  | enter _ hq henter ih => exact ih.enter hq henter
  -- a step that was offered has not run, so refusing it restores all edges
  | refuse _ hq henter ih =>
    obtain ⟨done, g, hstands⟩ := ih.nested.stands
    obtain ⟨hpos, hready⟩ := hstands.mem_eligible.1 hq
    obtain rfl := hstands.eq_of_enter_error hpos (Program.ready_iff.1 hready).1 henter
    exact ih
  | leave _ hleave ih =>
    cases ih with
    | enter h hq henter =>
      obtain ⟨done, g, hstands⟩ := h.nested.stands
      have hforce := hstands.inForce_of_mem_eligible hq
      obtain ⟨rfl, -⟩ := Prod.mk.inj
        ((leave_of_enter (List.mem_filter.1 hq).1 hforce henter).symm.trans hleave)
      exact h

theorem Roams.offersReady (h : Roams opened w) : w.OffersReady := by
  obtain ⟨done, g, hstands⟩ := h.descends.nested.stands
  exact hstands.offersReady

end Walk

/-! ### Both together -/

namespace Program

/-- **The last call on an instruction settles what waits for it, and a walk offers what waits for
nothing.** After any calls on positions of the program, an edge is there if the model asks for it
and the last call on its earlier end did not lift it. After any steps that the walk offered, it
offers in order what has not run while all that it has to wait for has. -/
theorem waits_settled (p : Program) :
    (∀ (m : Model) (cs : List Call), (∀ c ∈ cs, WaitGraph.Concerns p c) →
      (WaitGraph.after p m cs).Settled cs) ∧
    ∀ (s : Setting) (opened : List (Position × Int)) (w : Walk p s), Walk.Roams opened w →
      w.OffersReady :=
  ⟨fun _ _ hcs ↦ WaitGraph.settled_after hcs, fun _ _ _ h ↦ h.offersReady⟩

/-- Calls that lift the edges to the first store twice before they are imposed again, and impose
those to the load behind it, which had not been lifted, before they are. -/
def toggled : List Call :=
  [.lift ⟨0, 0⟩, .impose ⟨0, 1⟩, .lift ⟨0, 0⟩, .lift ⟨0, 1⟩, .isWaiting ⟨0, 2⟩, .impose ⟨0, 0⟩]

/-- The walk after the first store of the second thread of `storeForwarding` under TSO. -/
def otherStore : Walk storeForwarding { model := .tso } :=
  ((Walk.start storeForwarding { model := .tso }).enter ⟨1, 0⟩ ⟨none, 2⟩).1

/-- One edge is back and one is gone. The first thread is offered a store and a load at once. -/
theorem toggled_waits_settled :
    (∀ c ∈ toggled, WaitGraph.Concerns storeForwarding c) ∧
    (WaitGraph.after storeForwarding .ibm370 toggled).Settled toggled ∧
    (WaitGraph.after storeForwarding .ibm370 toggled).edges =
      [(⟨0, 1⟩, ⟨0, 0⟩), (⟨1, 1⟩, ⟨1, 0⟩)] ∧
    Walk.Roams [(⟨1, 0⟩, 0)] otherStore ∧ otherStore.OffersReady ∧
    otherStore.eligible = [⟨0, 0⟩, ⟨0, 1⟩, ⟨1, 1⟩] := by
  have hcs : ∀ c ∈ toggled, WaitGraph.Concerns storeForwarding c := by decide
  have hroams : Walk.Roams [(⟨1, 0⟩, 0)] otherStore := by
    have hq : (⟨1, 0⟩ : Position) ∈ (Walk.start storeForwarding { model := .tso }).eligible := by
      decide
    exact .enter .start hq rfl
  obtain ⟨hsettled, hready⟩ := waits_settled storeForwarding
  exact ⟨hcs, hsettled .ibm370 toggled hcs, by decide, hroams, hready _ _ otherStore hroams,
    by decide⟩

end Program

end Litmus

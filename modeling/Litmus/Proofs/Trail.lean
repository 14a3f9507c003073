import Litmus.Proofs.LastStore
import Litmus.Session.Execution

/-!
# An execution is the replay of its trail

An execution can be driven in any order: instructions are executed and undone, calls that make no
sense are refused, and the next call follows. Undoing has no snapshot to go back to. It takes the
value that it restores from its caller, and all that is asked of callers is to hand back the value
that executing the same instruction gave them (`Execution.Account.Honest`).

This is enough. What has been executed and not undone stands, and at any time the execution is the
one that comes of executing just this in the same order (`Execution.Replayed`), since undoing
succeeds for the latest instruction only, and then leads back to where it was executed.

Everything else is read off such a replay (`Execution.Account.Faithful`): that the set of what has
run and the trail have the same members, that each variable holds the value of the latest store that
stands, and what the loads have seen.

A call that is refused gives back the execution in whatever state it has reached, and undoing takes
its instruction off the trail before it looks at anything else. That nothing has changed when a call
is refused (`Execution.Account.Guarded`) therefore holds of replays only: what is on their trail can
be undone, so a call is refused only for what is checked before anything changes
(`Execution.execute_eq_error_iff`, `Execution.undo_eq_error_iff`).
-/

namespace Litmus

open Session.Execution (Call machine)

namespace Execution

variable {p : Program} {e e' : Execution p} {g : Image} {q : Position} {observed : Option Int}
  {prior : Int} {f : Fault}

/-! ### Executing -/

/-- Executing an instruction has its effect on the image. -/
theorem outcome_of_execute (h : e.outcome = p.outcomeOf g)
    (hexec : e.execute q observed = (e', .ok prior)) :
    e'.outcome = p.outcomeOf (p.effect g q (observed.getD 0)) := by
  obtain ⟨-, ⟨x, v, hi, -, rfl⟩ | ⟨x, v, hi, rfl, -, rfl⟩⟩ := execute_eq_ok hexec
  · rw [Program.effect_store (Program.get?_of_fetch hi), Program.outcomeOf_write, ← h]
    rfl
  · rw [Program.effect_load (Program.get?_of_fetch hi), Program.outcomeOf_see, ← h]
    rfl

/-- What has been executed is in the set of what has run. -/
theorem ran_of_execute (h : e.execute q observed = (e', .ok prior)) : e'.ran = e.ran.add q := by
  obtain ⟨-, ⟨x, v, -, -, rfl⟩ | ⟨x, v, -, -, -, rfl⟩⟩ := execute_eq_ok h
  · rfl
  · rfl

/-- It is at the top of the trail, with what was there before it. -/
theorem trail_of_execute (h : e.execute q observed = (e', .ok prior)) :
    e'.trail = ⟨q, prior⟩ :: e.trail := by
  obtain ⟨-, ⟨x, v, -, -, rfl⟩ | ⟨x, v, -, -, -, rfl⟩⟩ := execute_eq_ok h
  · rfl
  · rfl

/-! ### Undoing -/

/-- What is not the latest instruction cannot be undone. This is checked first, so nothing has
changed. -/
theorem undo_of_not_latest (h : e.trail.head?.map (·.position) ≠ some q) (prior : Int) :
    ∃ f, e.undo q prior = (e, .error f) := by
  unfold undo
  split
  · exact ⟨_, rfl⟩
  · rename_i latest rest htrail
    have hne : latest.position ≠ q := fun heq ↦ h (by rw [htrail, List.head?_cons, ← heq]; rfl)
    rw [if_pos hne]
    exact ⟨_, rfl⟩

/-- **The latest instruction can be undone**, if it is one of the program's own: none of what
follows after it has left the trail can fail. -/
theorem undo_of_latest (h : e.outcome = p.outcomeOf g) (hq : q ∈ p.positions)
    (hlatest : e.trail.head?.map (·.position) = some q) (prior : Int) :
    ∃ e', e.undo q prior = (e', .ok ()) := by
  obtain ⟨i, hi⟩ := Program.exists_get? hq
  obtain ⟨latest, hhead, hpos⟩ := Option.map_eq_some_iff.1 hlatest
  obtain ⟨rest, htrail⟩ := List.head?_eq_some_iff.1 hhead
  rw [undo, htrail]
  cases i with
  | store x v =>
    have hx : x ∈ p.names := Program.mem_names_of_get? hi
    simp [hpos, Program.fetch_of_get? hi, Memory.write, read_of_outcome h hx]
  | load x => simp [hpos, Program.fetch_of_get? hi]

/-- **An instruction cannot be undone unless it is the latest one.** -/
theorem undo_eq_error_iff (h : e.outcome = p.outcomeOf g) (hq : q ∈ p.positions) (prior : Int) :
    (∃ f, e.undo q prior = (e, .error f)) ↔ e.trail.head?.map (·.position) ≠ some q := by
  refine ⟨?_, fun hne ↦ undo_of_not_latest hne prior⟩
  rintro ⟨f, hundo⟩ hlatest
  obtain ⟨e', hok⟩ := undo_of_latest h hq hlatest prior
  cases (Prod.mk.inj (hundo.symm.trans hok)).2

/-! ### What stands -/

/-- An instruction that was executed and has not been undone, with the value that was given for it
and the value that was given back. -/
structure Standing where
  /-- The position of the instruction. -/
  position : Position
  /-- The value that it was said to observe. -/
  observed : Option Int
  /-- The value that it replaced. -/
  prior : Int
  deriving DecidableEq

/-- **The execution that comes of executing what stands**, in order and from the start. -/
def replay (p : Program) (l : List Standing) : Except Fault (Execution p) :=
  l.foldlM (fun e t ↦ match e.execute t.position t.observed with
    | (e', .ok _) => .ok e'
    | (_, .error f) => .error f) (start p)

/-- The execution comes of executing what stands, and each instruction gives the value back that is
noted with it. -/
inductive Replayed {p : Program} : List Standing → Execution p → Prop
  /-- Nothing stands. -/
  | nil : Replayed [] (start p)
  /-- One more instruction is executed. -/
  | snoc {l : List Standing} {t : Standing} {e e' : Execution p} (h : Replayed l e)
    (hq : t.position ∈ p.positions)
    (hexec : e.execute t.position t.observed = (e', .ok t.prior)) : Replayed (l ++ [t]) e'

namespace Replayed

variable {l : List Standing}

theorem replay_eq (h : Replayed l e) : replay p l = .ok e := by
  induction h with
  | nil => rfl
  | snoc _ _ hexec ih =>
    rw [replay, List.foldlM_append, ← replay, ih]
    simp only [bind, Except.bind, List.foldlM_cons, List.foldlM_nil, hexec]
    rfl

/-- The trail is what stands, the latest first. -/
theorem trail_eq (h : Replayed l e) :
    e.trail = (l.map fun t ↦ ⟨t.position, t.prior⟩).reverse := by
  induction h with
  | nil => rfl
  | snoc _ _ hexec ih =>
    rw [trail_of_execute hexec, ih, List.map_append, List.reverse_append]
    rfl

/-- **The set of what has run has just what stands.** It is kept apart from the trail, and every
instruction that is executed is added to both. -/
theorem ran_perm (h : Replayed l e) : e.ran.toList.Perm (l.map (·.position)) := by
  induction h with
  | nil => exact List.Perm.nil
  | @snoc l t e e' _ _ hexec ih =>
    have hnew : t.position ∉ e.ran := of_decide_eq_false (execute_eq_ok hexec).1
    rw [ran_of_execute hexec, List.map_append]
    exact ((PositionSet.perm_add hnew).trans (ih.cons t.position)).trans
      (List.perm_append_singleton t.position _).symm

/-- What has run is what stands. -/
theorem executed_iff (h : Replayed l e) :
    e.executed q = true ↔ q ∈ l.map (·.position) := by
  rw [executed, decide_eq_true_iff, PositionSet.mem_def, h.ran_perm.mem_iff]

theorem mem_positions (h : Replayed l e) : ∀ q ∈ l.map (·.position), q ∈ p.positions := by
  induction h with
  | nil => simp
  | snoc _ hq _ ih =>
    rw [List.map_append, List.forall_mem_append]
    exact ⟨ih, by simpa using hq⟩

/-- Nothing stands twice. -/
theorem nodup (h : Replayed l e) : (l.map (·.position)).Nodup :=
  h.ran_perm.nodup (Position.nodup_of_sorted e.ran.increasing)

/-- What is left when everything has run that stands. -/
def image (p : Program) (l : List Standing) : Image :=
  l.foldl (fun g t ↦ p.effect g t.position (t.observed.getD 0)) .zero

theorem image_snoc (p : Program) (l : List Standing) (t : Standing) :
    image p (l ++ [t]) = p.effect (image p l) t.position (t.observed.getD 0) := by
  rw [image, List.foldl_append]
  rfl

/-- **Memory and loads are what the standing instructions have left**, whatever was undone in
between. -/
theorem outcome_eq (h : Replayed l e) : e.outcome = p.outcomeOf (image p l) := by
  induction h with
  | nil => exact (Walk.stands_start p ⟨.ibm370, false⟩).outcome
  | snoc _ _ hexec ih =>
    rw [image_snoc]
    exact outcome_of_execute ih hexec

/-- A variable holds the value of the latest store that stands. -/
theorem memory_image (p : Program) (l : List Standing) (x : String) :
    (image p l).memory x = (l.filterMap fun t ↦ p.storedAt x t.position).getLast?.getD 0 := by
  induction l using List.reverseRecOn with
  | nil => rfl
  | append_singleton l t ih =>
    rw [image_snoc, Program.memory_effect, ih, List.filterMap_append]
    cases ht : p.storedAt x t.position with
    | none => simp [ht]
    | some v => simp [ht]

/-- A load that does not stand has seen nothing. -/
theorem seen_image_of_not_mem (h : q ∉ l.map (·.position)) : (image p l).seen q = 0 := by
  induction l using List.reverseRecOn with
  | nil => rfl
  | append_singleton l t ih =>
    rw [List.map_append, List.mem_append, not_or] at h
    have hne : q ≠ t.position := fun heq ↦ h.2 (List.mem_singleton.2 heq)
    rw [image_snoc, Program.seen_effect_of_ne hne, ih h.1]

/-- A load that stands has seen the value that it was given. -/
theorem seen_image_of_mem (h : Replayed l e) {t : Standing} (ht : t ∈ l) {x : String}
    (hi : p.get? t.position = some (.load x)) :
    ∃ v, t.observed = some v ∧ (image p l).seen t.position = v := by
  induction h with
  | nil => cases ht
  | @snoc l u e e' h hq hexec ih =>
    obtain ⟨hnew, hcases⟩ := execute_eq_ok hexec
    rw [image_snoc]
    rcases List.mem_append.1 ht with ht | ht
    · -- the load stood before, so the latest instruction is another one
      have hne : t.position ≠ u.position := by
        intro heq
        have hran := h.executed_iff.2 (List.mem_map_of_mem ht)
        rw [heq, hnew] at hran
        cases hran
      obtain ⟨v, hv, hseen⟩ := ih ht
      exact ⟨v, hv, by rw [Program.seen_effect_of_ne hne, hseen]⟩
    · obtain rfl := List.mem_singleton.1 ht
      rcases hcases with ⟨y, v, hstore, -⟩ | ⟨y, v, -, hv, -⟩
      · rw [Program.fetch_of_get? hi] at hstore
        cases hstore
      · refine ⟨v, hv, ?_⟩
        rw [Program.effect_load hi, hv, Option.getD_some]
        exact Function.update_self ..

/-- An execution is complete if everything has run. -/
theorem complete_iff (h : Replayed l e) :
    e.complete = true ↔ ∀ q ∈ p.positions, e.executed q = true := by
  rw [complete, beq_iff_eq, PositionSet.size, h.ran_perm.length_eq, ← p.length_positions]
  simp only [h.executed_iff]
  constructor
  · intro hlen q hq
    have hsub := List.subperm_of_subset h.nodup h.mem_positions
    exact (hsub.perm_of_length_le hlen.ge).symm.subset hq
  · intro hall
    exact ((List.perm_ext_iff_of_nodup h.nodup p.nodup_positions).2 fun q ↦
      ⟨h.mem_positions q, hall q⟩).length_eq

/-- **Undoing leads back to where the latest instruction was executed**, if it is given the value
that was given back there. -/
theorem undo (h : Replayed l e) (hundo : e.undo q prior = (e', .ok ()))
    (hprior : ∀ t ∈ l, t.position = q → t.prior = prior) : Replayed l.dropLast e' := by
  -- only what is at the top of the trail can be undone
  have hlatest : e.trail.head?.map (·.position) = some q := by
    by_contra hne
    obtain ⟨f, hrefused⟩ := undo_of_not_latest hne prior
    cases (Prod.mk.inj (hundo.symm.trans hrefused)).2
  cases h with
  | nil => cases hlatest
  | @snoc l t e₀ _ h hq hexec =>
    have hpos : t.position = q := by
      rw [trail_of_execute hexec] at hlatest
      exact Option.some.inj hlatest
    have hback := undo_of_execute hexec
    rw [hpos, hprior t (List.mem_append_right l List.mem_cons_self) hpos, hundo] at hback
    obtain ⟨rfl, -⟩ := Prod.mk.inj hback
    rwa [List.dropLast_concat]

/-- **Undoing checks everything before it changes anything**, since what is on the trail is an
instruction of the program. -/
theorem eq_of_undo_error (h : Replayed l e) (hundo : e.undo q prior = (e', .error f)) : e' = e := by
  by_cases hlatest : e.trail.head?.map (·.position) = some q
  · have hq : q ∈ p.positions := by
      obtain ⟨latest, hhead, rfl⟩ := Option.map_eq_some_iff.1 hlatest
      have hmem := List.mem_of_head? hhead
      rw [h.trail_eq, List.mem_reverse] at hmem
      obtain ⟨t, ht, rfl⟩ := List.mem_map.1 hmem
      exact h.mem_positions _ (List.mem_map_of_mem ht)
    obtain ⟨e'', hok⟩ := undo_of_latest h.outcome_eq hq hlatest prior
    cases (Prod.mk.inj (hundo.symm.trans hok)).2
  · obtain ⟨f', hrefused⟩ := undo_of_not_latest hlatest prior
    exact (Prod.mk.inj (hundo.symm.trans hrefused)).1

end Replayed

/-! ### Sequences of calls -/

/-- The position that a call is about is one of the program's own. -/
def Concerns (p : Program) : Call → Prop
  | .execute q _ | .undo q _ | .executed q | .loadValue q => q ∈ p.positions
  | .complete | .outcome => True

/-- What a sequence of calls has come to: the execution, and what stands, the latest one last. -/
structure Account (p : Program) where
  /-- The execution. -/
  execution : Execution p
  /-- What stands. -/
  standing : List Standing

namespace Account

variable {a : Account p} {c : Call}

/-- Nothing has happened. -/
def start (p : Program) : Account p := ⟨Execution.start p, []⟩

/-- Makes a call. If it is not refused, executing lets an instruction stand, and undoing takes the
latest one back. -/
def perform (a : Account p) (c : Call) : Account p :=
  match c, machine.call c a.execution with
  | .execute q observed, (e, .ok (.value prior)) => ⟨e, a.standing ++ [⟨q, observed, prior⟩]⟩
  | .undo _ _, (e, .ok _) => ⟨e, a.standing.dropLast⟩
  | _, (e, _) => ⟨e, a.standing⟩

/-- **If the call undoes an instruction, it passes the value that executing it has given back.** A
call that is refused may pass anything. -/
def Honest (a : Account p) : Call → Prop
  | .undo q prior => (∃ e', a.execution.undo q prior = (e', .ok ())) →
      ∀ t ∈ a.standing, t.position = q → t.prior = prior
  | _ => True

/-- **The account comes about by calls in any order**, on positions of the program, as long as they
are honest. -/
inductive Reached {p : Program} : Account p → Prop
  /-- Nothing has happened. -/
  | start : Reached (start p)
  /-- One more call is made. -/
  | call {a : Account p} {c : Call} (h : Reached a) (hc : Concerns p c) (honest : a.Honest c) :
    Reached (a.perform c)

/-- **A call keeps the execution the replay of what stands.** -/
theorem replayed_perform (h : Replayed a.standing a.execution) (hc : Concerns p c)
    (honest : a.Honest c) : Replayed (a.perform c).standing (a.perform c).execution := by
  -- only two of the calls change anything, and they do so only if they succeed
  cases c with
  | execute q observed =>
    rcases hexec : a.execution.execute q observed with ⟨e', f | prior⟩
    · obtain rfl := eq_of_execute_error hexec
      simpa [perform, machine, hexec, Except.map] using h
    · have hperform : a.perform (.execute q observed) =
          ⟨e', a.standing ++ [⟨q, observed, prior⟩]⟩ := by
        simp only [perform, machine, hexec, Prod.map, Except.map, id]
      rw [hperform]
      exact h.snoc hc hexec
  | undo q prior =>
    rcases hundo : a.execution.undo q prior with ⟨e', f | _⟩
    · obtain rfl := h.eq_of_undo_error hundo
      simpa [perform, machine, hundo, Except.map] using h
    · have hperform : a.perform (.undo q prior) = ⟨e', a.standing.dropLast⟩ := by
        simp only [perform, machine, hundo, Prod.map, Except.map, id]
      rw [hperform]
      exact h.undo hundo (honest ⟨e', hundo⟩)
  | executed q => exact h
  | loadValue q => exact h
  | complete => exact h
  | outcome => exact h

/-- **Whatever has been called, what stands can be replayed**: calls that fail and calls that are
undone leave no trace. -/
theorem Reached.replayed (h : a.Reached) : Replayed a.standing a.execution := by
  induction h with
  | start => exact .nil
  | call _ hc honest ih => exact replayed_perform ih hc honest

/-- **The execution is what the instructions make of it that stand.** -/
structure Faithful (a : Account p) : Prop where
  /-- It comes of executing them once more. -/
  replay : replay p a.standing = .ok a.execution
  /-- The trail has them, the latest one first. -/
  trail : a.execution.trail = (a.standing.map fun t ↦ ⟨t.position, t.prior⟩).reverse
  /-- No instruction stands twice. -/
  nodup : (a.standing.map (·.position)).Nodup
  /-- The set of what has run has just them. -/
  ran : a.execution.ran.toList.Perm (a.standing.map (·.position))
  /-- They are those that count as executed. -/
  executed : ∀ q, a.execution.executed q = true ↔ q ∈ a.standing.map (·.position)
  /-- As many have run. -/
  depth : a.execution.depth = a.standing.length
  /-- A variable holds the value of the latest store to it, or zero. -/
  memory : ∀ x ∈ p.names, a.execution.memory.read x =
    .ok ((a.standing.filterMap fun t ↦ p.storedAt x t.position).getLast?.getD 0)
  /-- A load that stands has the value that it was given. -/
  seen : ∀ t ∈ a.standing, t.position ∈ p.loads →
    ∃ v, t.observed = some v ∧ a.execution.loadValue t.position = .ok v
  /-- Any other load has zero. -/
  unseen : ∀ q ∈ p.loads, q ∉ a.standing.map (·.position) → a.execution.loadValue q = .ok 0
  /-- The execution is complete if and only if every instruction has run. -/
  complete : a.execution.complete = true ↔ ∀ q ∈ p.positions, a.execution.executed q = true

/-- **A call that is refused changes nothing**, and it is refused only if it executes what has run
or a load without a value, or undoes what is not the latest. -/
structure Guarded (e : Execution p) : Prop where
  /-- A refused call leaves the execution as it is. -/
  unchanged : ∀ c f, (machine.call c e).2 = .error f → (machine.call c e).1 = e
  /-- When executing is refused. -/
  execute : ∀ q ∈ p.positions, ∀ observed, (∃ f, e.execute q observed = (e, .error f)) ↔
    e.executed q = true ∨ q ∈ p.loads ∧ observed = none
  /-- When undoing is refused. -/
  undo : ∀ q ∈ p.positions, ∀ prior, (∃ f, e.undo q prior = (e, .error f)) ↔
    e.trail.head?.map (·.position) ≠ some q

end Account

namespace Replayed

variable {l : List Standing}

theorem faithful (h : Replayed l e) : Account.Faithful ⟨e, l⟩ where
  replay := h.replay_eq
  trail := h.trail_eq
  nodup := h.nodup
  ran := h.ran_perm
  executed _ := h.executed_iff
  depth := by rw [depth, h.trail_eq, List.length_reverse, List.length_map]
  memory x hx := by rw [read_of_outcome h.outcome_eq hx, memory_image]
  seen t ht hload := by
    obtain ⟨hq, x, hx⟩ := Program.mem_loads.1 hload
    obtain ⟨v, hv, hseen⟩ := h.seen_image_of_mem ht hx
    exact ⟨v, hv, by rw [loadValue_of_outcome h.outcome_eq hq hx, hseen]⟩
  unseen q hload hnot := by
    obtain ⟨hq, x, hx⟩ := Program.mem_loads.1 hload
    rw [loadValue_of_outcome h.outcome_eq hq hx, seen_image_of_not_mem hnot]
  complete := h.complete_iff

theorem guarded (h : Replayed l e) : Account.Guarded e where
  unchanged c f hcall := by
    cases c with
    | execute q observed =>
      rcases hexec : e.execute q observed with ⟨e', f | prior⟩
      · obtain rfl := eq_of_execute_error hexec
        simp [machine, hexec]
      · simp [machine, hexec, Except.map] at hcall
    | undo q prior =>
      rcases hundo : e.undo q prior with ⟨e', f | _⟩
      · obtain rfl := h.eq_of_undo_error hundo
        simp [machine, hundo]
      · simp [machine, hundo, Except.map] at hcall
    | executed q => rfl
    | loadValue q => rfl
    | complete => rfl
    | outcome => rfl
  execute q hq observed := by
    rw [execute_eq_error_iff h.outcome_eq hq, Program.mem_loads, and_iff_right hq]
  undo q hq prior := undo_eq_error_iff h.outcome_eq hq prior

end Replayed

/-- **An execution is the replay of its trail**, whatever calls have been made of it, as long as
each instruction that was undone was given back what it had replaced. Calls that are refused change
nothing. -/
theorem Account.reached_faithful (a : Account p) (h : a.Reached) :
    a.Faithful ∧ Guarded a.execution :=
  ⟨h.replayed.faithful, h.replayed.guarded⟩

/-- Two stores to the same variable, of which the first one cannot be undone and the second one
is. -/
def Account.overwritten : Account Program.storeForwarding :=
  [.execute ⟨0, 0⟩ none, .execute ⟨1, 1⟩ none, .undo ⟨0, 0⟩ 0, .undo ⟨1, 1⟩ 1].foldl perform
    (start Program.storeForwarding)

/-- The value of the first store is back. -/
theorem Account.overwritten_faithful :
    overwritten.Reached ∧ overwritten.standing = [⟨⟨0, 0⟩, none, 0⟩] ∧
      overwritten.execution.memory.read "x" = .ok 1 := by
  have h : overwritten.Reached := by
    have hq : (⟨0, 0⟩ : Position) ∈ Program.storeForwarding.positions := by decide
    have hr : (⟨1, 1⟩ : Position) ∈ Program.storeForwarding.positions := by decide
    exact (((Reached.start.call (c := .execute ⟨0, 0⟩ none) hq trivial).call
      (c := .execute ⟨1, 1⟩ none) hr trivial).call
      (c := .undo ⟨0, 0⟩ 0) hq fun _ ↦ by decide).call (c := .undo ⟨1, 1⟩ 1) hr fun _ ↦ by decide
  have hmemory := (reached_faithful _ h).1.memory "x" (by decide)
  exact ⟨h, by decide, hmemory⟩

end Execution

end Litmus

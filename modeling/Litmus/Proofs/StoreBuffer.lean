import Litmus.Proofs.Keys
import Mathlib.Logic.Relation

/-!
# Machines with store buffers

The models say which instructions of a thread may change places. The machines that they stand for do
not change any places: every thread runs in order, but its stores wait in a buffer of the thread and
drain to memory later, one after the other. What remains to be said is what a load does about the
stores in the buffer, and that is the `ReadRule` of the machine.

* Under `ReadRule.stalling` a load is blocked as long as the buffer has a store to its variable.
  This machine has the outcomes of IBM370 (`Program.explore_eq_stalling`).
* Under `ReadRule.forwarding` it takes the newest of these stores. This machine has the outcomes of
  TSO if no load has two earlier stores of its own thread to its variable
  (`Program.explore_eq_forwarding`). Otherwise TSO is different: it reads memory as soon as one of
  the two has drained.

Both follow from one simulation. A store runs, in the sense of a schedule, when it drains, and a
load when it is reached; that a store is issued is no move of the schedule. `BufferMachine.Matches`
is the relation between the two. It is kept by every step of the machine, and for every move of a
schedule the machine can make steps that keep it, so it takes runs to schedules and schedules to
runs.
-/

namespace Litmus

/-! ### The machine -/

/-- What a load of a variable sees, given the buffer of its own thread and the memory. It sees
nothing as long as it is blocked. -/
abbrev ReadRule : Type := List (String × Int) → (String → Int) → String → Option Int

namespace ReadRule

/-- A load waits until no store to its variable is in the buffer, and then reads memory. -/
def stalling : ReadRule := fun buffer memory x ↦
  if buffer.any (·.1 == x) then none else some (memory x)

/-- The value of the newest store to a variable in a buffer. -/
def newest? (buffer : List (String × Int)) (x : String) : Option Int :=
  (buffer.filter (·.1 == x)).getLast?.map (·.2)

/-- A load takes the newest store to its variable in the buffer; if there is none, it reads
memory. -/
def forwarding : ReadRule := fun buffer memory x ↦ some ((newest? buffer x).getD (memory x))

/-- The newest entry of a variable is an entry. -/
theorem mem_of_newest? {buffer : List (String × Int)} {x : String} {v : Int}
    (h : newest? buffer x = some v) : (x, v) ∈ buffer := by
  obtain ⟨⟨y, w⟩, hlast, rfl⟩ := Option.map_eq_some_iff.1 h
  obtain ⟨hmem, hname⟩ := List.mem_filter.1 (List.mem_of_getLast? hlast)
  obtain rfl : y = x := by simpa using hname
  exact hmem

/-- If a variable has no newest entry, it has none. -/
theorem not_mem_of_newest? {buffer : List (String × Int)} {x : String} {v : Int}
    (h : newest? buffer x = none) : (x, v) ∉ buffer := by
  intro hmem
  have hnil : buffer.filter (·.1 == x) = [] := by simpa [newest?] using h
  exact List.filter_eq_nil_iff.1 hnil _ hmem (beq_self_eq_true x)

/-- A stalling load sees memory, once nothing for its variable is buffered. -/
theorem stalling_eq_some {buffer : List (String × Int)} {memory : String → Int} {x : String}
    {v : Int} : stalling buffer memory x = some v ↔ (∀ w, (x, w) ∉ buffer) ∧ memory x = v := by
  have hany : buffer.any (·.1 == x) = true ↔ ∃ w, (x, w) ∈ buffer := by simp
  rw [stalling, Option.ite_none_left_eq_some, hany, not_exists, Option.some.injEq]

end ReadRule

/-- A machine in which every thread has a buffer for its stores. -/
structure BufferMachine extends Image where
  /-- The place of the instruction that a thread comes to next. -/
  next : ℕ → ℕ
  /-- The stores that a thread has issued and that have not drained, the oldest first. -/
  buffer : ℕ → List (String × Int)

namespace BufferMachine

/-- The machine before the first step. -/
def start : BufferMachine := { Image.zero with next := fun _ ↦ 0, buffer := fun _ ↦ [] }

/-- Thread `t` issues a store, which goes to the end of its buffer. -/
def issue (m : BufferMachine) (t : ℕ) (x : String) (v : Int) : BufferMachine :=
  { m with
    next := Function.update m.next t (m.next t + 1)
    buffer := Function.update m.buffer t (m.buffer t ++ [(x, v)]) }

/-- A store of thread `t` reaches memory, and `rest` remains in the buffer. -/
def drain (m : BufferMachine) (t : ℕ) (x : String) (v : Int) (rest : List (String × Int)) :
    BufferMachine :=
  { m with
    memory := Function.update m.memory x v
    buffer := Function.update m.buffer t rest }

/-- A load of thread `t` sees a value. -/
def load (m : BufferMachine) (t : ℕ) (v : Int) : BufferMachine :=
  { m with
    seen := Function.update m.seen ⟨t, m.next t⟩ v
    next := Function.update m.next t (m.next t + 1) }

/-- The steps of a machine on a program: a thread issues a store, the oldest store of a buffer
drains, or a load sees what the rule lets it see. -/
inductive Step (p : Program) (rule : ReadRule) : BufferMachine → BufferMachine → Prop
  /-- A thread comes to a store and issues it. -/
  | issue {m : BufferMachine} {t : ℕ} {x : String} {v : Int}
    (h : p.get? ⟨t, m.next t⟩ = some (.store x v)) : Step p rule m (m.issue t x v)
  /-- The oldest store of a buffer drains. -/
  | drain {m : BufferMachine} {t : ℕ} {x : String} {v : Int} {rest : List (String × Int)}
    (h : m.buffer t = (x, v) :: rest) : Step p rule m (m.drain t x v rest)
  /-- A thread comes to a load that is not blocked. -/
  | load {m : BufferMachine} {t : ℕ} {x : String} {v : Int}
    (h : p.get? ⟨t, m.next t⟩ = some (.load x)) (hv : rule (m.buffer t) m.memory x = some v) :
    Step p rule m (m.load t v)

/-- All threads have come to their ends, and all buffers are empty. -/
def Finished (p : Program) (m : BufferMachine) : Prop :=
  (∀ t : ℕ, p.get? ⟨t, m.next t⟩ = none) ∧ ∀ t, m.buffer t = []

end BufferMachine

/-- The outcomes of the finished runs of a machine with store buffers. -/
def Program.bufferOutcomes (p : Program) (rule : ReadRule) : Set Outcome :=
  {o | ∃ m, Relation.ReflTransGen (BufferMachine.Step p rule) .start m ∧ m.Finished p ∧
    p.outcomeOf m.toImage = o}

/-! ### The stores that are pending -/

namespace Program

variable {p : Program} {done : List Position} {t i n : ℕ} {x : String} {v : Int} {q r : Position}

/-- What a position has in the buffer of its thread after it was issued: its store, unless it has
run. -/
def pendingAt (p : Program) (done : List Position) (q : Position) : Option (String × Int) :=
  match p.get? q with
  | some (.store x v) => if q ∈ done then none else some (x, v)
  | _ => none

/-- The buffer of thread `t` after the instructions at its first `n` places were issued, and those
at the positions in `done` have run. -/
def pending (p : Program) (done : List Position) (t n : ℕ) : List (String × Int) :=
  (List.range n).filterMap fun i : ℕ ↦ p.pendingAt done ⟨t, i⟩

/-- A store that has been issued is in the buffer until it runs. -/
theorem pendingAt_eq_some : p.pendingAt done q = some (x, v) ↔
    p.get? q = some (.store x v) ∧ q ∉ done := by
  unfold pendingAt
  split
  · rename_i y w hq
    rw [hq, Option.ite_none_left_eq_some]
    simp only [Option.some.injEq, Prod.mk.injEq, Instruction.store.injEq]
    tauto
  · rename_i hne
    constructor
    · intro h
      cases h
    · rintro ⟨hq, -⟩
      exact absurd hq (hne x v)

/-- The pending stores of a thread are those that it has passed and that have not run. -/
theorem mem_pending : (x, v) ∈ p.pending done t n ↔
    ∃ i < n, p.get? ⟨t, i⟩ = some (.store x v) ∧ (⟨t, i⟩ : Position) ∉ done := by
  simp only [pending, List.mem_filterMap, List.mem_range, pendingAt_eq_some]

/-- The buffer grows at the end. -/
theorem pending_succ (p : Program) (done : List Position) (t n : ℕ) :
    p.pending done t (n + 1) = p.pending done t n ++ (p.pendingAt done ⟨t, n⟩).toList := by
  rw [pending, List.range_succ, List.filterMap_append]
  cases h : p.pendingAt done ⟨t, n⟩ with
  | none => simp [pending, h]
  | some e => simp [pending, h]

/-- Another position that runs makes no difference. -/
theorem pendingAt_append (h : q ≠ r) :
    p.pendingAt (done ++ [r]) q = p.pendingAt done q := by
  have hmem : q ∈ done ++ [r] ↔ q ∈ done := by simp [h]
  unfold pendingAt
  simp only [hmem]

theorem pendingAt_eq_none_of_mem (h : q ∈ done) : p.pendingAt done q = none := by
  unfold pendingAt
  split
  · exact if_pos h
  · rfl

/-- Loads are never pending. -/
theorem pendingAt_load (h : p.get? q = some (.load x)) : p.pendingAt done q = none := by
  rw [pendingAt, h]

/-- A buffer changes only when a position of its thread runs that has a store in it. -/
theorem pending_append_of_ne (h : ∀ i < n, (⟨t, i⟩ : Position) = q → p.pendingAt done q = none) :
    p.pending (done ++ [q]) t n = p.pending done t n := by
  refine List.filterMap_congr fun i hi ↦ ?_
  by_cases heq : (⟨t, i⟩ : Position) = q
  · rw [heq, h i (List.mem_range.1 hi) heq, pendingAt_eq_none_of_mem (by simp)]
  · exact pendingAt_append heq

theorem pending_eq_nil (h : ∀ i < n, p.pendingAt done ⟨t, i⟩ = none) : p.pending done t n = [] := by
  rw [pending, List.filterMap_eq_nil_iff]
  exact fun i hi ↦ h i (List.mem_range.1 hi)

/-- **The oldest store of a buffer is that of the first place that has one**, and it is gone when
that place runs. -/
theorem pending_eq_cons (hi : i < n) (hstore : p.pendingAt done ⟨t, i⟩ = some (x, v))
    (hfirst : ∀ j < i, p.pendingAt done ⟨t, j⟩ = none) :
    p.pending done t n = (x, v) :: p.pending (done ++ [⟨t, i⟩]) t n := by
  have hother : ∀ j : ℕ, j ≠ i → (⟨t, j⟩ : Position) ≠ ⟨t, i⟩ :=
    fun j hj heq ↦ hj (Position.natCast_inj.1 heq).2
  induction n with
  | zero => omega
  | succ n ih =>
    rw [pending_succ, pending_succ]
    rcases Nat.lt_succ_iff_lt_or_eq.1 hi with hlt | rfl
    · rw [ih hlt, pendingAt_append (hother n (by omega)), List.cons_append]
    · -- the store is the last one issued, and nothing before it is in the buffer
      have hnil : p.pending (done ++ [⟨t, i⟩]) t i = [] := by
        rw [pending_append_of_ne fun j hj heq ↦ absurd heq (hother j (by omega)),
          pending_eq_nil hfirst]
      have hgone : p.pendingAt (done ++ [⟨t, i⟩]) ⟨t, i⟩ = none :=
        pendingAt_eq_none_of_mem (by simp)
      rw [pending_eq_nil hfirst, hnil, hstore, hgone]
      rfl

/-- A buffer that is not empty has a first place with a store. -/
theorem exists_oldest (h : (x, v) ∈ p.pending done t n) :
    ∃ i < n, ∃ e, p.pendingAt done ⟨t, i⟩ = some e ∧ ∀ j < i, p.pendingAt done ⟨t, j⟩ = none := by
  have hex : ∃ i, i < n ∧ (p.pendingAt done ⟨t, i⟩).isSome := by
    obtain ⟨i, hi, hstore⟩ := List.mem_filterMap.1 h
    exact ⟨i, List.mem_range.1 hi, Option.isSome_iff_exists.2 ⟨_, hstore⟩⟩
  classical
  obtain ⟨hlt, hsome⟩ := Nat.find_spec hex
  obtain ⟨e, he⟩ := Option.isSome_iff_exists.1 hsome
  refine ⟨Nat.find hex, hlt, e, he, fun j hj ↦ ?_⟩
  have hnone := Nat.find_min hex hj
  rw [not_and, Option.not_isSome_iff_eq_none] at hnone
  exact hnone (hj.trans hlt)

end Program

/-! ### The simulation -/

namespace BufferMachine

variable {p : Program} {s : Setting} {m : BufferMachine} {σ : Schedule} {t i n : ℕ} {x : String}
  {v : Int} {rule : ReadRule} {mv : Move}

/-- **The machine stands where the schedule leads**: what has drained and what was loaded is what
has run, and what was issued and has not run is in the buffers. -/
structure Matches (p : Program) (m : BufferMachine) (σ : Schedule) : Prop where
  /-- The memory, and what the loads have seen. -/
  image : m.toImage = p.imageAfter σ
  /-- The buffers. -/
  buffer : ∀ t, m.buffer t = p.pending σ.order t (m.next t)
  /-- Whatever has run, its thread has passed it. -/
  passed : ∀ t i : ℕ, ⟨t, i⟩ ∈ σ.order → i < m.next t
  /-- Every load that its thread has passed has run. -/
  loaded : ∀ (t i : ℕ) (x : String), i < m.next t → p.get? ⟨t, i⟩ = some (.load x) →
    ⟨t, i⟩ ∈ σ.order

theorem lt_advance {f : ℕ → ℕ} {t u i : ℕ} :
    i < Function.update f t (f t + 1) u ↔ i < f u ∨ u = t ∧ i = f t := by
  by_cases hu : u = t
  · subst hu
    rw [Function.update_self]
    omega
  · rw [Function.update_of_ne hu]
    omega

/-- The machine starts with empty buffers, since no thread has passed anything. -/
theorem matches_start (p : Program) : Matches p start [] where
  image := rfl
  buffer _ := rfl
  passed _ _ h := by cases h
  loaded _ _ _ h := by cases h

namespace Matches

/-- What a thread comes to next has not run. -/
theorem not_mem_next (h : m.Matches p σ) (t : ℕ) : (⟨t, m.next t⟩ : Position) ∉ σ.order :=
  fun hmem ↦ Nat.lt_irrefl _ (h.passed t _ hmem)

/-- Issuing a store is no move of the schedule. -/
theorem issue (h : m.Matches p σ) (hget : p.get? ⟨t, m.next t⟩ = some (.store x v)) :
    (m.issue t x v).Matches p σ where
  image := h.image
  buffer u := by
    by_cases hu : u = t
    · subst hu
      have hlast : p.pendingAt σ.order ⟨u, m.next u⟩ = some (x, v) :=
        Program.pendingAt_eq_some.2 ⟨hget, h.not_mem_next u⟩
      simp only [BufferMachine.issue, Function.update_self]
      rw [h.buffer u, Program.pending_succ, hlast]
      rfl
    · simp only [BufferMachine.issue, Function.update_of_ne hu]
      exact h.buffer u
  passed u i hmem := lt_advance.2 (Or.inl (h.passed u i hmem))
  loaded u i y hlt hload := by
    rcases lt_advance.1 hlt with hlt | ⟨rfl, rfl⟩
    · exact h.loaded u i y hlt hload
    · rw [hget] at hload
      cases hload

/-- A load runs when its thread comes to it. -/
theorem load (h : m.Matches p σ) (hpos : mv.position = ⟨t, m.next t⟩)
    (hget : p.get? mv.position = some (.load x)) :
    (m.load t (p.valueOf (p.imageAfter σ) mv)).Matches p (σ ++ [mv]) where
  image := by
    rw [Program.imageAfter_snoc, Program.apply_load hget, ← h.image, hpos]
    rfl
  buffer u := by
    have hnone : p.pendingAt σ.order mv.position = none := Program.pendingAt_load hget
    show m.buffer u = _
    rw [Schedule.order_snoc, Program.pending_append_of_ne fun _ _ _ ↦ hnone, h.buffer u]
    by_cases hu : u = t
    · subst hu
      simp only [BufferMachine.load, Function.update_self]
      rw [Program.pending_succ, ← hpos, hnone]
      exact (List.append_nil _).symm
    · simp only [BufferMachine.load, Function.update_of_ne hu]
  passed u i hmem := by
    rw [Schedule.order_snoc, List.mem_append, List.mem_singleton, hpos, Position.natCast_inj]
      at hmem
    rcases hmem with hmem | ⟨rfl, rfl⟩
    · exact lt_advance.2 (Or.inl (h.passed u i hmem))
    · exact lt_advance.2 (Or.inr ⟨rfl, rfl⟩)
  loaded u i y hlt hload := by
    rw [Schedule.order_snoc, List.mem_append]
    rcases lt_advance.1 hlt with hlt | ⟨rfl, rfl⟩
    · exact Or.inl (h.loaded u i y hlt hload)
    · exact Or.inr (List.mem_singleton.2 hpos.symm)

/-- A store runs when it drains, and what drains is the store of the first place that has one. -/
theorem drain (h : m.Matches p σ) (hi : i < m.next t)
    (hstore : p.pendingAt σ.order ⟨t, i⟩ = some (x, v))
    (hfirst : ∀ j < i, p.pendingAt σ.order ⟨t, j⟩ = none) :
    ∃ rest, m.buffer t = (x, v) :: rest ∧
      (m.drain t x v rest).Matches p (σ ++ [⟨⟨t, i⟩, none⟩]) := by
  obtain ⟨hget, hnot⟩ := Program.pendingAt_eq_some.1 hstore
  refine ⟨_, (h.buffer t).trans (Program.pending_eq_cons hi hstore hfirst), ?_, ?_, ?_, ?_⟩
  · rw [Program.imageAfter_snoc, Program.apply_store hget, ← h.image]
    rfl
  · intro u
    rw [Schedule.order_snoc]
    by_cases hu : u = t
    · subst hu
      simp only [BufferMachine.drain, Function.update_self]
    · simp only [BufferMachine.drain, Function.update_of_ne hu]
      rw [h.buffer u, Program.pending_append_of_ne fun j _ heq ↦
        absurd (Position.natCast_inj.1 heq).1 hu]
  · intro u j hmem
    rw [Schedule.order_snoc, List.mem_append, List.mem_singleton, Position.natCast_inj] at hmem
    rcases hmem with hmem | ⟨rfl, rfl⟩
    · exact h.passed u j hmem
    · exact hi
  · intro u j y hlt hload
    rw [Schedule.order_snoc]
    exact List.mem_append_left _ (h.loaded u j y hlt hload)

/-- A store that its thread has passed may run if it is the oldest in the buffer. -/
theorem mem_moves_store (h : m.Matches p σ) (hi : i < m.next t)
    (hstore : p.pendingAt σ.order ⟨t, i⟩ = some (x, v))
    (hfirst : ∀ j < i, p.pendingAt σ.order ⟨t, j⟩ = none) :
    (⟨⟨t, i⟩, none⟩ : Move) ∈ p.moves s σ.order := by
  obtain ⟨hget, hnot⟩ := Program.pendingAt_eq_some.1 hstore
  have hq : (⟨t, i⟩ : Position) ∈ p.positions :=
    Program.mem_positions_of_get?_natCast hget
  refine Program.mem_moves.2 ⟨hq, Program.ready_iff.2 ⟨hnot, fun r hr hpre ↦ ?_⟩, ?_⟩
  · obtain ⟨u, j, th, rfl, -, -⟩ := Program.mem_positions_iff_exists.1 hr
    obtain ⟨ht, hlt, e, -, he, -, -⟩ := Program.precedes_iff.1 hpre
    obtain rfl : u = t := Int.natCast_inj.1 ht
    have hji : j < i := Int.ofNat_lt.1 hlt
    cases e with
    -- loads take effect when they are passed, and stores leave the buffer in order
    | load y => exact h.loaded u j y (hji.trans hi) he
    | store y w =>
      by_contra hmem
      have hsome := Program.pendingAt_eq_some.2 ⟨he, hmem⟩
      rw [hfirst j hji] at hsome
      cases hsome
  · simp only [Program.sourcesAfter, hget]
    exact List.mem_singleton.2 rfl

end Matches

/-- **The rule lets a load see what the setting lets it see**: a load that its thread comes to gets
a value from the rule if and only if it may run, and take that value, after the schedule. -/
def Realizes (p : Program) (rule : ReadRule) (s : Setting) : Prop :=
  ∀ (m : BufferMachine) (σ : Schedule), m.Matches p σ → ∀ (t : ℕ) (x : String),
    p.get? ⟨t, m.next t⟩ = some (.load x) → ∀ v, rule (m.buffer t) m.memory x = some v ↔
      ∃ src, ⟨⟨t, m.next t⟩, src⟩ ∈ p.moves s σ.order ∧
        p.valueOf (p.imageAfter σ) ⟨⟨t, m.next t⟩, src⟩ = v

/-- **Every step of the machine keeps up with a schedule.** -/
theorem Matches.step (hrule : Realizes p rule s) (h : m.Matches p σ) (hσ : p.Admits s σ)
    {m' : BufferMachine} (hstep : Step p rule m m') : ∃ σ', p.Admits s σ' ∧ m'.Matches p σ' := by
  cases hstep with
  | issue hget => exact ⟨σ, hσ, h.issue hget⟩
  | @drain t x v rest hbuffer =>
    -- the oldest entry of the buffer is the first store that has not run
    have hmem : (x, v) ∈ p.pending σ.order t (m.next t) := by
      rw [← h.buffer t, hbuffer]
      exact List.mem_cons_self
    obtain ⟨i, hi, ⟨y, w⟩, hstore, hfirst⟩ := Program.exists_oldest hmem
    obtain ⟨rest', hrest, hmatch⟩ := h.drain hi hstore hfirst
    rw [hbuffer] at hrest
    obtain ⟨⟨rfl, rfl⟩, rfl⟩ : ((x, v) : String × Int) = (y, w) ∧ rest = rest' := by
      simpa using hrest
    exact ⟨_, hσ.snoc (h.mem_moves_store hi hstore hfirst), hmatch⟩
  | @load t x v hget hv =>
    obtain ⟨src, hm, rfl⟩ := (hrule m σ h t x hget v).1 hv
    exact ⟨_, hσ.snoc hm, h.load rfl hget⟩

/-- A thread can issue its stores up to the next load. -/
theorem Matches.exists_issued (rule : ReadRule) (h : m.Matches p σ) (hle : m.next t ≤ n)
    (hstores : ∀ i, m.next t ≤ i → i < n → ∃ x v, p.get? ⟨t, i⟩ = some (.store x v)) :
    ∃ m', Relation.ReflTransGen (Step p rule) m m' ∧ m'.Matches p σ ∧ m'.next t = n := by
  induction n, hle using Nat.le_induction with
  | base => exact ⟨m, .refl, h, rfl⟩
  | succ n hle ih =>
    obtain ⟨m', hsteps, hmatch, hnext⟩ := ih fun i hi hlt ↦ hstores i hi (by omega)
    obtain ⟨x, v, hget⟩ := hstores n hle (by omega)
    rw [← hnext] at hget
    refine ⟨m'.issue t x v, hsteps.tail (.issue hget), hmatch.issue hget, ?_⟩
    simp only [BufferMachine.issue, Function.update_self, hnext]

/-- Between the place that a thread has come to and an instruction that may run there are only
stores. -/
theorem Matches.stores_of_ready (h : m.Matches p σ) (hq : (⟨t, n⟩ : Position) ∈ p.positions)
    (hready : p.ready s.model σ.order ⟨t, n⟩ = true) :
    ∀ i, m.next t ≤ i → i < n → ∃ x v, p.get? ⟨t, i⟩ = some (.store x v) := by
  intro i hle hlt
  have hi : (⟨t, i⟩ : Position) ∈ p.positions := Program.mem_positions_of_lt hq hlt
  obtain ⟨e, he⟩ := Program.exists_get? hi
  cases e with
  | store x v => exact ⟨x, v, he⟩
  | load x =>
    -- the load would have run, and the thread would have passed it
    have hpre := Program.precedes_of_load s.model he hq rfl (Int.ofNat_lt.2 hlt)
    have hpassed := h.passed t i ((Program.ready_iff.1 hready).2 _ hi hpre)
    omega

/-- **The machine can make every move of a schedule**, after the thread has issued the stores that
stand before it. -/
theorem Matches.move (hrule : Realizes p rule s) (h : m.Matches p σ) (hm : mv ∈ p.moves s σ.order) :
    ∃ m', Relation.ReflTransGen (Step p rule) m m' ∧ m'.Matches p (σ ++ [mv]) := by
  obtain ⟨hq, hready, hsrc⟩ := Program.mem_moves.1 hm
  obtain ⟨⟨t', i'⟩, src⟩ := mv
  obtain ⟨t, i, th, hpos, -, -⟩ := Program.mem_positions_iff_exists.1 hq
  obtain ⟨rfl, rfl⟩ := Position.mk.inj hpos
  obtain ⟨hnot, hwait⟩ := Program.ready_iff.1 hready
  have hbetween := h.stores_of_ready hq hready
  obtain ⟨e, he⟩ := Program.exists_get? hq
  cases e with
  | store x v =>
    obtain rfl : src = none := by
      simp only [Program.sourcesAfter, he] at hsrc
      exact List.mem_singleton.1 hsrc
    -- the machine may not have come to the store yet, and then it has to issue up to it
    obtain ⟨m₁, hsteps, hmatch, hpassed⟩ : ∃ m₁, Relation.ReflTransGen (Step p rule) m m₁ ∧
        m₁.Matches p σ ∧ i < m₁.next t := by
      by_cases hi : i < m.next t
      · exact ⟨m, .refl, h, hi⟩
      · obtain ⟨m₁, hsteps, hmatch, hnext⟩ := h.exists_issued (t := t) (n := i + 1) rule
          (by omega) fun j hle hlt ↦ by
            rcases Nat.lt_succ_iff_lt_or_eq.1 hlt with hlt | rfl
            · exact hbetween j hle hlt
            · exact ⟨x, v, he⟩
        exact ⟨m₁, hsteps, hmatch, by omega⟩
    have hfirst : ∀ j < i, p.pendingAt σ.order ⟨t, j⟩ = none := by
      intro j hj
      have hr := Program.mem_positions_of_lt hq hj
      have hpre := Program.precedes_of_store s.model he hr rfl (Int.ofNat_lt.2 hj)
      exact Program.pendingAt_eq_none_of_mem (hwait _ hr hpre)
    obtain ⟨rest, hbuffer, hdrained⟩ :=
      hmatch.drain hpassed (Program.pendingAt_eq_some.2 ⟨he, hnot⟩) hfirst
    exact ⟨_, hsteps.tail (.drain hbuffer), hdrained⟩
  | load x =>
    -- a load takes effect as it is passed, so the machine is still before it
    have hle : m.next t ≤ i := by
      by_contra hlt
      exact hnot (h.loaded t i x (by omega) he)
    obtain ⟨m₁, hsteps, hmatch, rfl⟩ := h.exists_issued rule hle hbetween
    have hv := (hrule m₁ σ hmatch t x he _).2 ⟨src, hm, rfl⟩
    exact ⟨_, hsteps.tail (.load he hv), hmatch.load rfl he⟩

/-! ### Whole runs -/

/-- A machine that has finished has run a complete schedule. -/
theorem Matches.legal (h : m.Matches p σ) (hσ : p.Admits s σ) (hm : m.Finished p) :
    p.Legal s σ := by
  obtain ⟨hend, hempty⟩ := hm
  refine hσ.legal_of_forall_mem fun q hq ↦ ?_
  obtain ⟨t, i, th, rfl, -, -⟩ := Program.mem_positions_iff_exists.1 hq
  have hpassed : i < m.next t := Program.lt_of_get?_eq_none hq (hend t)
  obtain ⟨e, he⟩ := Program.exists_get? hq
  cases e with
  | load x => exact h.loaded t i x hpassed he
  | store x v =>
    by_contra hnot
    have hmem : (x, v) ∈ m.buffer t := by
      rw [h.buffer t]
      exact Program.mem_pending.2 ⟨i, hpassed, he, hnot⟩
    rw [hempty t] at hmem
    cases hmem

/-- A machine that has run a complete schedule has finished. -/
theorem Matches.finished (h : m.Matches p σ) (hσ : p.Legal s σ) : m.Finished p := by
  have hall : ∀ t i : ℕ, ∀ e, p.get? ⟨t, i⟩ = some e → (⟨t, i⟩ : Position) ∈ σ.order :=
    fun t i e he ↦ hσ.perm.symm.subset (Program.mem_positions_of_get?_natCast he)
  constructor
  · intro t
    by_contra hne
    obtain ⟨e, he⟩ := Option.ne_none_iff_exists'.1 hne
    exact h.not_mem_next t (hall t _ e he)
  · intro t
    rw [h.buffer t, List.eq_nil_iff_forall_not_mem]
    rintro ⟨x, v⟩ hmem
    obtain ⟨i, -, he, hnot⟩ := Program.mem_pending.1 hmem
    exact hnot (hall t i _ he)

/-- Every run of the machine follows a schedule. -/
theorem exists_schedule (hrule : Realizes p rule s)
    (hrun : Relation.ReflTransGen (Step p rule) start m) :
    ∃ σ, p.Admits s σ ∧ m.Matches p σ := by
  induction hrun with
  | refl => exact ⟨[], .nil, matches_start p⟩
  | tail _ hstep ih =>
    obtain ⟨σ, hσ, hmatch⟩ := ih
    exact hmatch.step hrule hσ hstep

/-- Every schedule is followed by a run of the machine. -/
theorem exists_run (hrule : Realizes p rule s) (hσ : p.Admits s σ) :
    ∃ m, Relation.ReflTransGen (Step p rule) start m ∧ m.Matches p σ := by
  induction hσ with
  | nil => exact ⟨start, .refl, matches_start p⟩
  | snoc _ hm ih =>
    obtain ⟨m, hrun, hmatch⟩ := ih
    obtain ⟨m', hsteps, hmatch'⟩ := hmatch.move hrule hm
    exact ⟨m', hrun.trans hsteps, hmatch'⟩

/-- **A machine that realizes a setting has the outcomes of its legal schedules.** -/
theorem Realizes.mem_bufferOutcomes (hrule : Realizes p rule s) {o : Outcome} :
    o ∈ p.bufferOutcomes rule ↔ ∃ σ, p.Legal s σ ∧ p.outcomeAfter σ = o := by
  constructor
  · rintro ⟨m, hrun, hm, rfl⟩
    obtain ⟨σ, hσ, hmatch⟩ := exists_schedule hrule hrun
    exact ⟨σ, hmatch.legal hσ hm, by rw [Program.outcomeAfter, hmatch.image]⟩
  · rintro ⟨σ, hσ, rfl⟩
    obtain ⟨m, hrun, hmatch⟩ := exists_run hrule hσ.admits
    exact ⟨m, hrun, hmatch.finished hσ, by rw [Program.outcomeAfter, hmatch.image]⟩

/-! ### The two rules -/

/-- A load from memory sees the memory of the machine. -/
theorem Matches.valueOf_memory {q : Position} (h : m.Matches p σ)
    (hget : p.get? q = some (.load x)) :
    p.valueOf (p.imageAfter σ) ⟨q, some .memory⟩ = m.memory x := by
  rw [Program.valueOf_memory hget, ← h.image]

/-- What a load has to wait for has run if and only if none of it is in the buffer. -/
theorem Matches.ready_iff {md : Model} (h : m.Matches p σ)
    (hget : p.get? ⟨t, m.next t⟩ = some (.load x)) :
    p.ready md σ.order ⟨t, m.next t⟩ = true ↔
      ∀ y w, md.ordered (.store y w) (.load x) = true → (y, w) ∉ m.buffer t := by
  rw [Program.ready_iff, h.buffer t]
  constructor
  · rintro ⟨-, hwait⟩ y w hord hmem
    obtain ⟨i, hi, he, hnot⟩ := Program.mem_pending.1 hmem
    refine hnot (hwait _ (Program.mem_positions_of_get?_natCast he) ?_)
    exact Program.precedes_iff.2 ⟨rfl, Int.ofNat_lt.2 hi, _, _, he, hget, hord⟩
  · intro hbuffer
    refine ⟨h.not_mem_next t, fun r hr hpre ↦ ?_⟩
    obtain ⟨u, j, th, rfl, -, -⟩ := Program.mem_positions_iff_exists.1 hr
    obtain ⟨ht, hlt, e, e', he, he', hord⟩ := Program.precedes_iff.1 hpre
    obtain rfl : u = t := Int.natCast_inj.1 ht
    obtain rfl : Instruction.load x = e' := Option.some.inj (hget.symm.trans he')
    have hj : j < m.next u := Int.ofNat_lt.1 hlt
    cases e with
    | load y => exact h.loaded u j y hj he
    | store y w =>
      by_contra hnot
      exact hbuffer y w hord (Program.mem_pending.2 ⟨j, hj, he, hnot⟩)

/-- **Stalling is what IBM370 asks of a load.** -/
theorem realizes_stalling (p : Program) (around : Bool) :
    Realizes p .stalling ⟨.ibm370, around⟩ := by
  intro m σ h t x hget v
  have hq : (⟨t, m.next t⟩ : Position) ∈ p.positions :=
    Program.mem_positions_of_get?_natCast hget
  -- nothing but a buffered store to its own variable holds up the load
  have hready : p.ready .ibm370 σ.order ⟨t, m.next t⟩ = true ↔ ∀ w, (x, w) ∉ m.buffer t := by
    rw [h.ready_iff hget]
    simp only [Model.ordered, Model.storeAtomic, Instruction.isLoad, Instruction.isStore,
      Instruction.name, Bool.false_or, Bool.true_and, beq_iff_eq]
    exact ⟨fun hb w ↦ hb x w rfl, fun hb y w hy ↦ hy ▸ hb w⟩
  have hsources : p.sourcesAfter ⟨.ibm370, around⟩ σ.order ⟨t, m.next t⟩ = [some .memory] := by
    simp only [Program.sourcesAfter, hget]
  rw [ReadRule.stalling_eq_some, ← hready]
  constructor
  · rintro ⟨hr, rfl⟩
    refine ⟨some .memory, Program.mem_moves.2 ⟨hq, hr, ?_⟩, h.valueOf_memory hget⟩
    exact hsources ▸ List.mem_singleton.2 rfl
  · rintro ⟨src, hm, rfl⟩
    obtain ⟨-, hr, hsrc⟩ := Program.mem_moves.1 hm
    rw [hsources] at hsrc
    obtain rfl : src = some .memory := List.mem_singleton.1 hsrc
    exact ⟨hr, (h.valueOf_memory hget).symm⟩

/-- Where a load under TSO takes its value from, if its thread has at most one earlier store to its
variable: from that store as long as it is in the buffer, and else from memory. -/
theorem Matches.sources_tso (h : m.Matches p σ) (hget : p.get? ⟨t, m.next t⟩ = some (.load x))
    (hone : (p.ownStores ⟨t, m.next t⟩).length ≤ 1) :
    ∃ src, p.sourcesAfter ⟨.tso, false⟩ σ.order ⟨t, m.next t⟩ = [src] ∧
      p.valueOf (p.imageAfter σ) ⟨⟨t, m.next t⟩, src⟩ =
        (ReadRule.newest? (m.buffer t) x).getD (m.memory x) := by
  simp only [Program.sourcesAfter, hget]
  cases hnew : ReadRule.newest? (m.buffer t) x with
  | none =>
    have hdone : ∀ r ∈ p.ownStores ⟨t, m.next t⟩, r ∈ σ.order := by
      intro r hr
      obtain ⟨i, hi, w, rfl, he⟩ := (Program.mem_ownStores_natCast hget).1 hr
      by_contra hnot
      refine ReadRule.not_mem_of_newest? hnew (v := w) ?_
      rw [h.buffer t]
      exact Program.mem_pending.2 ⟨i, hi, he, hnot⟩
    exact ⟨some .memory, if_pos (Program.ownStores_eq_nil_or_exists hdone),
      h.valueOf_memory hget⟩
  | some w =>
    have hmem := ReadRule.mem_of_newest? hnew
    rw [h.buffer t] at hmem
    obtain ⟨i, hi, he, hnot⟩ := Program.mem_pending.1 hmem
    have hown : (⟨t, i⟩ : Position) ∈ p.ownStores ⟨t, m.next t⟩ :=
      (Program.mem_ownStores_natCast hget).2 ⟨i, hi, w, rfl, he⟩
    -- the store in the buffer is the only one that could have run
    obtain ⟨r, hr⟩ : ∃ r, p.ownStores ⟨t, m.next t⟩ = [r] :=
      List.length_eq_one_iff.1 (le_antisymm hone (List.length_pos_of_mem hown))
    rw [hr] at hown ⊢
    obtain rfl : ⟨t, i⟩ = r := List.mem_singleton.1 hown
    refine ⟨some .forwarded, ?_, ?_⟩
    · simp [hnot]
    · rw [Program.valueOf_forwarded hget]
      exact Program.forwarded_of_getLast? (r := ⟨t, i⟩) (by rw [hr]; rfl) he

/-- **Forwarding is what TSO asks of a load**, if no load has two earlier stores of its own thread
to its variable. -/
theorem realizes_forwarding (hone : ∀ q ∈ p.loads, (p.ownStores q).length ≤ 1) :
    Realizes p .forwarding ⟨.tso, false⟩ := by
  intro m σ h t x hget v
  have hq : (⟨t, m.next t⟩ : Position) ∈ p.positions :=
    Program.mem_positions_of_get?_natCast hget
  have hready : p.ready .tso σ.order ⟨t, m.next t⟩ = true := by
    rw [h.ready_iff hget]
    intro y w hord
    cases hord
  obtain ⟨src, hsrc, hvalue⟩ := h.sources_tso hget (hone _ (Program.mem_loads.2 ⟨hq, x, hget⟩))
  rw [ReadRule.forwarding, ← hvalue, Option.some.injEq]
  constructor
  · intro hv
    exact ⟨src, Program.mem_moves.2 ⟨hq, hready, hsrc ▸ List.mem_singleton.2 rfl⟩, hv⟩
  · rintro ⟨src', hm, hv⟩
    have hmem := (Program.mem_moves.1 hm).2.2
    rw [hsrc] at hmem
    rwa [← List.mem_singleton.1 hmem]

end BufferMachine

/-! ### The models and their machines -/

namespace Program

/-- **IBM370 is the machine whose loads stall**: an exploration finds exactly the outcomes of the
machine in which a load waits for the stores of its own thread to its variable to drain. -/
theorem explore_eq_stalling (p : Program) (around : Bool) (limits : Limits)
    (hc : p.check limits = .ok ()) (hv : p.storesFit = true) :
    ∃ f, p.explore { model := .ibm370, readAround := around } limits = .ok f ∧
      ∀ o, o ∈ f.outcomes ↔ o ∈ p.bufferOutcomes .stalling := by
  refine ⟨_, explore_of_storesFit hc hv, fun o ↦ ?_⟩
  rw [mem_outcomes_findings, (BufferMachine.realizes_stalling p around).mem_bufferOutcomes]

theorem storeForwarding_eq_stalling :
    storeForwarding.check .standard = .ok () ∧ storeForwarding.storesFit = true ∧
      ∃ f, storeForwarding.explore { model := .ibm370 } .standard = .ok f ∧
        ∀ o, o ∈ f.outcomes ↔ o ∈ storeForwarding.bufferOutcomes .stalling :=
  ⟨rfl, by decide, explore_eq_stalling storeForwarding false .standard rfl (by decide)⟩

/-- **TSO is the machine whose loads forward**, where it can be: if every load has at most one
earlier store of its own thread to its variable, an exploration finds exactly the outcomes of the
machine in which a load takes the newest such store from the buffer. -/
theorem explore_eq_forwarding (p : Program) (limits : Limits) (hc : p.check limits = .ok ())
    (hv : p.storesFit = true) (hone : ∀ q ∈ p.loads, (p.ownStores q).length ≤ 1) :
    ∃ f, p.explore { model := .tso } limits = .ok f ∧
      ∀ o, o ∈ f.outcomes ↔ o ∈ p.bufferOutcomes .forwarding := by
  refine ⟨_, explore_of_storesFit hc hv, fun o ↦ ?_⟩
  rw [mem_outcomes_findings, (BufferMachine.realizes_forwarding hone).mem_bufferOutcomes]

theorem storeForwarding_eq_forwarding :
    storeForwarding.check .standard = .ok () ∧ storeForwarding.storesFit = true ∧
      (∀ q ∈ storeForwarding.loads, (storeForwarding.ownStores q).length ≤ 1) ∧
      ∃ f, storeForwarding.explore { model := .tso } .standard = .ok f ∧
        ∀ o, o ∈ f.outcomes ↔ o ∈ storeForwarding.bufferOutcomes .forwarding :=
  ⟨rfl, by decide, by decide,
    explore_eq_forwarding storeForwarding .standard rfl (by decide) (by decide)⟩

end Program

end Litmus

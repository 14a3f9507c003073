import Litmus.Memory
import Litmus.Outcome
import Litmus.PositionSet
import Litmus.Program

/-!
# Executing and undoing instructions

An execution of a program holds the memory, the value that each load saw, the set of the
instructions that ran, and the trail of them. An instruction runs at most once, and only the latest
one can be undone.

What was overwritten is kept on the trail for reference, but undoing takes the value to restore from
its caller. A call that fails gives the execution as it has left it. Executing checks everything
before it changes anything (`Execution.eq_of_execute_error`).
-/

namespace Litmus

/-- An executed instruction, with the value that it overwrote. -/
structure TrailEntry where
  /-- The position of the instruction. -/
  position : Position
  /-- The value that a store replaced in memory, or a load in the record of loads. -/
  prior : Int
  deriving DecidableEq

/-- How far a program has run. -/
structure Execution (p : Program) where
  /-- The memory. -/
  memory : Memory
  /-- The loads of the program with the values that they saw, zero at first. -/
  loads : List LoadValue
  /-- The instructions that count as executed. -/
  ran : PositionSet
  /-- The instructions that ran, the latest first. -/
  trail : List TrailEntry
  deriving DecidableEq

namespace Execution

variable {p : Program}

/-- The execution in which nothing has run. -/
def start (p : Program) : Execution p where
  memory := Memory.ofNames p.names
  loads := p.loads.filterMap fun q ↦ (p.get? q).map fun i ↦ ⟨q, i.name, 0⟩
  ran := .empty
  trail := []

/-! ### What has happened -/

/-- The number of instructions on the trail. -/
def depth (e : Execution p) : Nat := e.trail.length

/-- Whether the instruction at a position counts as executed. -/
def executed (e : Execution p) (q : Position) : Bool := decide (q ∈ e.ran)

/-- Whether as many instructions count as executed as the program has. -/
def complete (e : Execution p) : Bool := e.ran.size == p.total

/-- The recorded value of a load. -/
def loadValue (e : Execution p) (q : Position) : Except Fault Int :=
  match e.loads.find? fun l ↦ l.position == q with
  | some l => .ok l.value
  | none => .error (.unknownPosition q)

/-- Loads with the value of the first one at `q` replaced. -/
def setLoad (q : Position) (v : Int) : List LoadValue → List LoadValue
  | [] => []
  | l :: ls => if l.position = q then { l with value := v } :: ls else l :: setLoad q v ls

/-- What is left if the run ends here. -/
def outcome (e : Execution p) : Outcome := ⟨e.memory.cells, e.loads⟩

/-! ### Going forth and back -/

/-- The execution with the instruction at `q` executed, which replaced the value `prior`. -/
def mark (e : Execution p) (q : Position) (prior : Int) : Execution p :=
  { e with ran := e.ran.add q, trail := ⟨q, prior⟩ :: e.trail }

/-- Executes one instruction, and gives the value that it replaced. A store writes its own value; a
load records the value that it is said to observe. -/
def execute (e : Execution p) (q : Position) (observed : Option Int) :
    Execution p × Except Fault Int :=
  if e.executed q then (e, .error (.contract (.executedTwice q)))
  else match p.fetch q with
    | .error f => (e, .error f)
    | .ok (.store x v) =>
      match e.memory.write x v with
      | (memory, .error f) => ({ e with memory }, .error f)
      | (memory, .ok prior) => (mark { e with memory } q prior, .ok prior)
    | .ok (.load _) =>
      match observed with
      | none => (e, .error (.contract (.unresolved q)))
      | some v =>
        match e.loadValue q with
        | .error f => (e, .error f)
        | .ok prior => (mark { e with loads := setLoad q v e.loads } q prior, .ok prior)

/-- Undoes the latest instruction, which has to be the one at `q`, and restores the value `prior`.
The instruction leaves the trail first, and the set of those that ran last. -/
def undo (e : Execution p) (q : Position) (prior : Int) : Execution p × Except Fault Unit :=
  match e.trail with
  | [] => (e, .error (.contract (.nothingExecuted q)))
  | latest :: rest =>
    if latest.position ≠ q then (e, .error (.contract (.notLatest q latest.position)))
    else
      let e : Execution p := { e with trail := rest }
      match p.fetch q with
      | .error f => (e, .error f)
      | .ok (.store x _) =>
        match e.memory.write x prior with
        | (memory, .error f) => ({ e with memory }, .error f)
        | (memory, .ok _) => ({ e with memory, ran := e.ran.discard q }, .ok ())
      | .ok (.load _) =>
        ({ e with loads := setLoad q prior e.loads, ran := e.ran.discard q }, .ok ())

/-! ### What executing does -/

variable {e e' : Execution p} {q : Position} {observed : Option Int} {prior : Int} {f : Fault}

/-- **What executing an instruction can do.** It is refused and nothing has changed; or a store
writes its own value, or a load records the value that it was given, and the instruction is marked
as executed. -/
theorem execute_cases (e : Execution p) (q : Position) (observed : Option Int) :
    (∃ f, e.execute q observed = (e, .error f)) ∨ e.executed q = false ∧ ∃ prior,
      ((∃ x v, p.fetch q = .ok (.store x v) ∧ e.memory.read x = .ok prior ∧
          e.execute q observed = (mark { e with memory := e.memory.set x v } q prior, .ok prior)) ∨
        ∃ x v, p.fetch q = .ok (.load x) ∧ observed = some v ∧ e.loadValue q = .ok prior ∧
          e.execute q observed =
            (mark { e with loads := setLoad q v e.loads } q prior, .ok prior)) := by
  unfold execute
  split
  · exact Or.inl ⟨_, rfl⟩
  · rename_i hq
    have hnot : e.executed q = false := Bool.eq_false_iff.2 hq
    -- whatever is checked comes before the first change, so an error leaves everything as it was
    cases hi : p.fetch q with
    | error f => exact Or.inl ⟨f, rfl⟩
    | ok i =>
      cases i with
      | store x v =>
        cases hx : e.memory.read x with
        | error f => exact Or.inl ⟨f, by simp only [Memory.write, hx]⟩
        | ok prior =>
          exact Or.inr ⟨hnot, prior, Or.inl ⟨x, v, rfl, hx, by simp only [Memory.write, hx]⟩⟩
      | load x =>
        cases observed with
        | none => exact Or.inl ⟨_, rfl⟩
        | some v =>
          cases hl : e.loadValue q with
          | error f => exact Or.inl ⟨f, rfl⟩
          | ok prior => exact Or.inr ⟨hnot, prior, Or.inr ⟨x, v, rfl, rfl, rfl, rfl⟩⟩

/-- **Executing checks everything before it changes anything**: an instruction that is refused
leaves the execution as it was. -/
theorem eq_of_execute_error (h : e.execute q observed = (e', .error f)) : e' = e := by
  rcases e.execute_cases q observed with ⟨f', hexec⟩ | ⟨-, prior, ⟨x, v, -, -, hexec⟩ |
    ⟨x, v, -, -, -, hexec⟩⟩
  · exact (Prod.mk.inj (h.symm.trans hexec)).1
  · cases (Prod.mk.inj (h.symm.trans hexec)).2
  · cases (Prod.mk.inj (h.symm.trans hexec)).2

/-- What executing an instruction has done if it was not refused. -/
theorem execute_eq_ok (h : e.execute q observed = (e', .ok prior)) :
    e.executed q = false ∧
      ((∃ x v, p.fetch q = .ok (.store x v) ∧ e.memory.read x = .ok prior ∧
          e' = mark { e with memory := e.memory.set x v } q prior) ∨
        ∃ x v, p.fetch q = .ok (.load x) ∧ observed = some v ∧ e.loadValue q = .ok prior ∧
          e' = mark { e with loads := setLoad q v e.loads } q prior) := by
  rcases e.execute_cases q observed with ⟨f', hexec⟩ | ⟨hnot, u, ⟨x, v, hi, hx, hexec⟩ |
    ⟨x, v, hi, hv, hl, hexec⟩⟩
  · cases (Prod.mk.inj (h.symm.trans hexec)).2
  · obtain ⟨rfl, hu⟩ := Prod.mk.inj (h.symm.trans hexec)
    obtain rfl := Except.ok.inj hu
    exact ⟨hnot, Or.inl ⟨x, v, hi, hx, rfl⟩⟩
  · obtain ⟨rfl, hu⟩ := Prod.mk.inj (h.symm.trans hexec)
    obtain rfl := Except.ok.inj hu
    exact ⟨hnot, Or.inr ⟨x, v, hi, hv, hl, rfl⟩⟩

/-! ### Undoing what was executed -/

/-- Of two values for one load the last stays. -/
theorem setLoad_setLoad (q : Position) (v w : Int) (ls : List LoadValue) :
    setLoad q w (setLoad q v ls) = setLoad q w ls := by
  induction ls with
  | nil => rfl
  | cons l ls ih => by_cases h : l.position = q <;> simp [setLoad, h, ih]

/-- Writing what is there changes nothing. -/
theorem setLoad_of_find? {q : Position} {l : LoadValue} {ls : List LoadValue}
    (h : ls.find? (fun l ↦ l.position == q) = some l) : setLoad q l.value ls = ls := by
  induction ls with
  | nil => rfl
  | cons k ls ih =>
    by_cases hk : k.position = q
    · obtain rfl : k = l := by simpa [hk] using h
      rw [setLoad, if_pos hk]
    · rw [List.find?_cons_of_neg (by simpa using hk)] at h
      rw [setLoad, if_neg hk, ih h]

/-- **Undoing an instruction right after it was executed restores the execution.** -/
theorem undo_of_execute (h : e.execute q observed = (e', .ok prior)) :
    e'.undo q prior = (e, .ok ()) := by
  obtain ⟨hq, ⟨x, v, hi, hx, rfl⟩ | ⟨x, v, hi, -, hl, rfl⟩⟩ := execute_eq_ok h
  · have hran : (e.ran.add q).discard q = e.ran := PositionSet.discard_add (of_decide_eq_false hq)
    cases hm : e.memory.get? x with
    | none => simp [Memory.read, hm] at hx
    | some u =>
      obtain rfl : u = prior := by simpa [Memory.read, hm] using hx
      have hset : (e.memory.set x v).get? x = some v := by simp [Memory.get?_set, hm]
      simp [undo, mark, hi, Memory.write, Memory.read, hset, Memory.set_set_of_get? hm, hran]
  · have hran : (e.ran.add q).discard q = e.ran := PositionSet.discard_add (of_decide_eq_false hq)
    cases hfind : e.loads.find? fun l ↦ l.position == q with
    | none => simp [loadValue, hfind] at hl
    | some l =>
      obtain rfl : l.value = prior := by simpa [loadValue, hfind] using hl
      simp [undo, mark, hi, setLoad_setLoad, setLoad_of_find? hfind, hran]

end Execution

end Litmus

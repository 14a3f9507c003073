import Litmus.Proofs.Schedule

/-!
# What a schedule does

Running a schedule from zero leaves an image: the value of every variable, and the value that every
load has seen. Both are plain functions, so that nothing has to be said about undeclared variables
or about positions without a load; `Program.outcomeOf` reads the outcome of a program off an image.

* `Program.apply` is one move, `Program.imageAfter` a whole schedule.
* `Program.trace` lists the steps of a schedule, each with its instruction and its value.

If all stores of a program have values that can be written, so have its outcomes
(`Program.outcomeAfter_fits`).
-/

namespace Litmus

/-- The values of all variables, and the values that the loads have seen. -/
structure Image where
  /-- The memory. -/
  memory : String → Int
  /-- What the load at a position has seen. -/
  seen : Position → Int

/-- All values are zero. -/
def Image.zero : Image := ⟨fun _ ↦ 0, fun _ ↦ 0⟩

/-- Whether all values of an image are within the limit on numerals. -/
def Image.Fits (g : Image) : Prop :=
  (∀ x, Numeral.fits (g.memory x) = true) ∧ ∀ q, Numeral.fits (g.seen q) = true

/-- The move that a step makes. -/
def Step.move {ι : Type} (t : Step ι) : Move := ⟨t.position, t.source⟩

/-- The schedule that a run follows. -/
def Run.schedule (r : Run) : Schedule := r.map Step.move

/-- The order of a schedule is the order of the steps. -/
theorem Run.order_schedule (r : Run) : r.schedule.order = r.map (·.position) := by
  rw [Run.schedule, Schedule.order, List.map_map]
  rfl

theorem Run.schedule_append (r r' : Run) :
    Run.schedule (r ++ r') = r.schedule ++ r'.schedule := List.map_append

theorem Numeral.fits_zero : Numeral.fits 0 = true := by decide

namespace Program

variable {p : Program} {s : Setting} {g : Image} {σ τ : Schedule} {m : Move} {q : Position}

/-! ### One move -/

/-- The value of the nearest earlier store of the same thread to the same variable. -/
def forwarded (p : Program) (q : Position) : Int :=
  (((p.ownStores q).getLast?.bind p.get?).bind (·.value?)).getD 0

/-- What a load forwards is the value of the last store to its variable before it in its thread. -/
theorem forwarded_of_getLast? {r : Position} {x : String} {v : Int}
    (h : (p.ownStores q).getLast? = some r)
    (hr : p.get? r = some (.store x v)) : p.forwarded q = v := by
  rw [forwarded, h, Option.bind_some, hr]
  rfl

/-- The value that a move stores or sees. -/
def valueOf (p : Program) (g : Image) (m : Move) : Int :=
  match p.get? m.position with
  | none => 0
  | some (.store _ v) => v
  | some (.load x) =>
    if m.source = some .forwarded then p.forwarded m.position else g.memory x

/-- Makes a move: a store writes its value, a load sees one. -/
def apply (p : Program) (g : Image) (m : Move) : Image :=
  match p.get? m.position with
  | none => g
  | some (.store x v) => { g with memory := Function.update g.memory x v }
  | some (.load _) => { g with seen := Function.update g.seen m.position (p.valueOf g m) }

/-- What is left when the instruction at a position runs with a value: a store writes its own value,
and a load sees the one that it is given. -/
def effect (p : Program) (g : Image) (q : Position) (v : Int) : Image :=
  match p.get? q with
  | none => g
  | some (.store x u) => { g with memory := Function.update g.memory x u }
  | some (.load _) => { g with seen := Function.update g.seen q v }

/-- The step that a move makes, if its position leads to an instruction. -/
def stepOf? (p : Program) (g : Image) (m : Move) : Option (Step Instruction) :=
  (p.get? m.position).map fun i ↦ ⟨m.position, i, p.valueOf g m, m.source⟩

theorem valueOf_store {x : String} {v : Int} (h : p.get? m.position = some (.store x v)) :
    p.valueOf g m = v := by
  rw [valueOf, h]

/-- A load sees memory unless it forwards. -/
theorem valueOf_load {x : String} (h : p.get? m.position = some (.load x)) :
    p.valueOf g m =
      if m.source = some .forwarded then p.forwarded m.position else g.memory x := by
  rw [valueOf, h]

theorem valueOf_memory {q : Position} {x : String} (h : p.get? q = some (.load x)) :
    p.valueOf g ⟨q, some .memory⟩ = g.memory x := by
  rw [valueOf_load (m := ⟨q, some .memory⟩) h, if_neg (by simp)]

theorem valueOf_forwarded {q : Position} {x : String} (h : p.get? q = some (.load x)) :
    p.valueOf g ⟨q, some .forwarded⟩ = p.forwarded q := by
  rw [valueOf_load (m := ⟨q, some .forwarded⟩) h, if_pos rfl]

/-- A store changes one variable and nothing that was seen. -/
theorem apply_store {x : String} {v : Int} (h : p.get? m.position = some (.store x v)) :
    p.apply g m = { g with memory := Function.update g.memory x v } := by
  rw [apply, h]

/-- A load changes what it has seen itself, and nothing else. -/
theorem apply_load {x : String} (h : p.get? m.position = some (.load x)) :
    p.apply g m = { g with seen := Function.update g.seen m.position (p.valueOf g m) } := by
  rw [apply, h]

theorem effect_store {x : String} {u : Int} (h : p.get? q = some (.store x u)) (v : Int) :
    p.effect g q v = { g with memory := Function.update g.memory x u } := by
  rw [effect, h]

theorem effect_load {x : String} (h : p.get? q = some (.load x)) (v : Int) :
    p.effect g q v = { g with seen := Function.update g.seen q v } := by
  rw [effect, h]

theorem seen_effect_of_ne {r : Position} (h : r ≠ q) (v : Int) :
    (p.effect g q v).seen r = g.seen r := by
  rw [effect]
  split
  · rfl
  · rfl
  · exact Function.update_of_ne h ..

/-- A move runs its instruction with the value of the move. -/
theorem effect_valueOf (p : Program) (g : Image) (m : Move) :
    p.effect g m.position (p.valueOf g m) = p.apply g m := by
  rw [effect, apply]

/-! ### Whole schedules -/

/-- What a schedule leaves if it starts from zero. -/
def imageAfter (p : Program) (σ : Schedule) : Image := σ.foldl p.apply .zero

/-- The steps of a schedule that starts from an image. -/
def stepsFrom (p : Program) : Image → Schedule → Run
  | _, [] => []
  | g, m :: σ => (p.stepOf? g m).toList ++ p.stepsFrom (p.apply g m) σ

/-- The steps of a schedule that starts from zero. -/
def trace (p : Program) (σ : Schedule) : Run := p.stepsFrom .zero σ

/-- The outcome of a program that an image shows. -/
def outcomeOf (p : Program) (g : Image) : Outcome where
  memory := p.names.map fun x ↦ (x, g.memory x)
  loads := p.loads.filterMap fun q ↦ (p.get? q).map fun i ↦ ⟨q, i.name, g.seen q⟩

/-- The outcome of a schedule. -/
def outcomeAfter (p : Program) (σ : Schedule) : Outcome := p.outcomeOf (p.imageAfter σ)

theorem imageAfter_snoc (p : Program) (σ : Schedule) (m : Move) :
    p.imageAfter (σ ++ [m]) = p.apply (p.imageAfter σ) m := by
  rw [imageAfter, List.foldl_append]
  rfl

/-- A schedule goes on from the image that its beginning leaves. -/
theorem stepsFrom_append (p : Program) (g : Image) (σ τ : Schedule) :
    p.stepsFrom g (σ ++ τ) = p.stepsFrom g σ ++ p.stepsFrom (σ.foldl p.apply g) τ := by
  induction σ generalizing g with
  | nil => rfl
  | cons m σ ih => rw [List.cons_append, stepsFrom, ih, stepsFrom, List.append_assoc,
      List.foldl_cons]

/-- The value of a step is looked up in the image before it. -/
theorem trace_snoc {i : Instruction} (h : p.get? m.position = some i) :
    p.trace (σ ++ [m]) =
      p.trace σ ++ [⟨m.position, i, p.valueOf (p.imageAfter σ) m, m.source⟩] := by
  rw [trace, stepsFrom_append]
  simp [stepsFrom, stepOf?, h, trace, imageAfter]

/-- The trace of a schedule follows the schedule. -/
theorem Admits.schedule_trace (h : p.Admits s σ) : (p.trace σ).schedule = σ := by
  induction h with
  | nil => rfl
  | @snoc σ m _ hm ih =>
    obtain ⟨i, hi⟩ := exists_get? (mem_moves.1 hm).1
    rw [trace_snoc hi, Run.schedule, List.map_append, ← Run.schedule, ih]
    rfl

/-! ### Values that can be written -/

/-- Whether all values that a program stores are within the limit on numerals. -/
def storesFit (p : Program) : Bool := p.threads.flatten.all fun i ↦ i.value?.all Numeral.fits

theorem fits_of_get? {x : String} {v : Int} (hp : p.storesFit = true)
    (h : p.get? q = some (.store x v)) : Numeral.fits v = true := by
  have hi := List.all_eq_true.1 hp _ (mem_flatten_of_get? h)
  simpa [Instruction.value?] using hi

/-- What is forwarded was stored, so it can be written. -/
theorem fits_forwarded (hp : p.storesFit = true) (q : Position) :
    Numeral.fits (p.forwarded q) = true := by
  rw [forwarded]
  cases h : ((p.ownStores q).getLast?.bind p.get?).bind (·.value?) with
  | none => exact Numeral.fits_zero
  | some v =>
    obtain ⟨i, hi, hv⟩ := Option.bind_eq_some_iff.1 h
    obtain ⟨r, -, hr⟩ := Option.bind_eq_some_iff.1 hi
    cases i with
    | load x => cases hv
    | store x w =>
      obtain rfl : w = v := Option.some.inj hv
      exact fits_of_get? hp hr

theorem fits_valueOf (hp : p.storesFit = true) (hg : g.Fits) (m : Move) :
    Numeral.fits (p.valueOf g m) = true := by
  rw [valueOf]
  split
  · exact Numeral.fits_zero
  · exact fits_of_get? hp ‹_›
  · split
    · exact fits_forwarded hp _
    · exact hg.1 _

/-- A move keeps all values within the limit. -/
theorem fits_apply (hp : p.storesFit = true) (hg : g.Fits) (m : Move) : (p.apply g m).Fits := by
  cases hm : p.get? m.position with
  | none =>
    rw [apply, hm]
    exact hg
  | some i =>
    cases i with
    | store x v =>
      rw [apply_store hm]
      refine ⟨fun y ↦ ?_, hg.2⟩
      by_cases hy : y = x
      · subst hy
        simpa using fits_of_get? hp hm
      · simpa [Function.update_of_ne hy] using hg.1 y
    | load x =>
      rw [apply_load hm]
      refine ⟨hg.1, fun q ↦ ?_⟩
      by_cases hq : q = m.position
      · subst hq
        simpa using fits_valueOf hp hg m
      · simpa [Function.update_of_ne hq] using hg.2 q

/-- **Whatever is run, memory and loads hold values that can be written**, if the stores do. -/
theorem fits_imageAfter (hp : p.storesFit = true) (σ : Schedule) : (p.imageAfter σ).Fits := by
  induction σ using List.reverseRecOn with
  | nil => exact ⟨fun _ ↦ Numeral.fits_zero, fun _ ↦ Numeral.fits_zero⟩
  | append_singleton σ m ih =>
    rw [imageAfter_snoc]
    exact fits_apply hp ih m

/-- **If all stores of a program can be written, so can all its outcomes.** -/
theorem outcomeAfter_fits (hp : p.storesFit = true) (σ : Schedule) :
    (p.outcomeAfter σ).fits = true := by
  obtain ⟨hmem, hseen⟩ := fits_imageAfter hp σ
  rw [Outcome.fits, Bool.and_eq_true, List.all_eq_true, List.all_eq_true]
  constructor
  · intro c hc
    obtain ⟨x, -, rfl⟩ := List.mem_map.1 hc
    exact hmem x
  · intro l hl
    obtain ⟨q, -, hq⟩ := List.mem_filterMap.1 hl
    obtain ⟨i, -, rfl⟩ := Option.map_eq_some_iff.1 hq
    exact hseen q

/-- So every outcome has a key. -/
theorem key_outcomeAfter (hp : p.storesFit = true) (σ : Schedule) :
    (p.outcomeAfter σ).key = .ok (p.outcomeAfter σ).text :=
  if_pos (outcomeAfter_fits hp σ)

end Program

end Litmus

import Litmus.Proofs.Keys

/-!
# Values and names do not matter

A search never looks at the values that are stored, and it looks at the names of variables only to
see whether two of them are equal. So let a program be recoded (`Program.recode`): every stored
value `v` becomes `f v`, and every variable `x` becomes `r x`, where `f` keeps zero and `r` keeps
different variables apart. The recoded program waits for the same, reads from the same sources and
makes the same moves (`Program.moves_recode`), so that the two searches go through the same
schedules in the same order (`Program.schedules_recode`).

Along each schedule the images correspond (`Program.Recodes`), move by move
(`Program.Recodes.apply`). The outcomes of the recoded program are thus the recoded outcomes. If `f`
merges values, it may merge outcomes, too; if it does not, they are also found in the same order and
with the same witnesses.
-/

namespace Litmus

variable {f : ℤ → ℤ} {r : String → String}

/-! ### Recoding -/

/-- The instruction with `f v` in place of a value `v`, and `r x` in place of a variable `x`. -/
def Instruction.recode (f : ℤ → ℤ) (r : String → String) : Instruction → Instruction
  | load x => load (r x)
  | store x v => store (r x) (f v)

@[simp] theorem Instruction.name_recode (i : Instruction) : (i.recode f r).name = r i.name := by
  cases i <;> rfl

@[simp] theorem Instruction.isLoad_recode (i : Instruction) : (i.recode f r).isLoad = i.isLoad := by
  cases i <;> rfl

@[simp] theorem Instruction.isStore_recode (i : Instruction) :
    (i.recode f r).isStore = i.isStore := by
  cases i <;> rfl

/-- The recoded step. -/
def Step.recode (f : ℤ → ℤ) (r : String → String) (t : Step Instruction) : Step Instruction :=
  ⟨t.position, t.instruction.recode f r, f t.value, t.source⟩

/-- The recoded outcome. -/
def Outcome.recode (f : ℤ → ℤ) (r : String → String) (o : Outcome) : Outcome where
  memory := o.memory.map fun c ↦ (r c.1, f c.2)
  loads := o.loads.map fun l ↦ ⟨l.position, r l.name, f l.value⟩

/-- The recoded solution, under the key of the recoded outcome. -/
def Solution.recode (f : ℤ → ℤ) (r : String → String) (x : Solution Run) : Solution Run where
  key := (x.outcome.recode f r).text
  outcome := x.outcome.recode f r
  witness := x.witness.map (Step.recode f r)

namespace Outcome.SameShape

variable {o o' : Outcome}

/-- Recoding two outcomes of one shape leaves them in one shape. -/
theorem recode (h : o.SameShape o') : (o.recode f r).SameShape (o'.recode f r) where
  memory := by simpa [Outcome.recode, Function.comp_def] using congrArg (List.map r) h.memory
  loads := by
    simpa [Outcome.recode, Function.comp_def] using
      congrArg (List.map fun l : Position × String ↦ (l.1, r l.2)) h.loads

/-- If no values are merged, no outcomes of one shape are. -/
theorem eq_of_recode_eq (h : o.SameShape o') (hf : Function.Injective f)
    (heq : o.recode f r = o'.recode f r) : o = o' := by
  obtain ⟨hcells, hrows⟩ := Outcome.mk.inj heq
  have hvalues := congrArg (List.map Prod.snd) hcells
  have hseen := congrArg (List.map LoadValue.value) hrows
  simp only [List.map_map] at hvalues hseen
  refine h.eq_of_values (List.map_injective_iff.2 hf ?_) (List.map_injective_iff.2 hf ?_)
  · rwa [List.map_map, List.map_map]
  · rwa [List.map_map, List.map_map]

/-- If no values are merged, texts are equal after a recoding only if they were before. -/
theorem text_recode_iff (h : o.SameShape o') (hf : Function.Injective f) :
    (o.recode f r).text = (o'.recode f r).text ↔ o.text = o'.text := by
  rw [text_inj h.recode, text_inj h]
  exact ⟨h.eq_of_recode_eq hf, congrArg (Outcome.recode f r)⟩

end Outcome.SameShape

theorem nth?_map {α β : Type} (g : α → β) (l : List α) (i : Int) :
    nth? (l.map g) i = (nth? l i).map g := by
  unfold nth?
  split
  · exact List.getElem?_map
  · rw [List.length_map]
    split
    · exact List.getElem?_map
    · rfl

/-- Duplicates can be removed before a renaming that keeps all members apart. -/
theorem eraseDups_map_of_injOn {α β : Type} [BEq α] [LawfulBEq α] [BEq β] [LawfulBEq β] {g : α → β}
    {l : List α} (hg : Set.InjOn g {a | a ∈ l}) : (l.map g).eraseDups = l.eraseDups.map g := by
  induction l using eraseDups_induction with
  | nil => rfl
  | cons a l ih =>
    have hfilter : (l.map g).filter (fun c ↦ !c == g a) = (l.filter fun b ↦ !b == a).map g := by
      rw [List.filter_map]
      refine congrArg (List.map g) (List.filter_congr fun b hb ↦ ?_)
      rw [Function.comp_apply, Bool.not_inj_iff, Bool.eq_iff_iff, beq_iff_eq, beq_iff_eq]
      exact hg.eq_iff (List.mem_cons_of_mem a hb) List.mem_cons_self
    have hrest := ih (hg.mono fun b hb ↦ List.mem_cons_of_mem a (List.mem_of_mem_filter hb))
    rw [List.map_cons, List.eraseDups_cons, List.eraseDups_cons, List.map_cons, hfilter, hrest]

namespace Program

variable {p : Program} {s : Setting} {limits : Limits} {a b : Position} {σ : Schedule} {G H : Image}

/-- **The program with `f v` in place of every stored value `v`, and `r x` in place of every
variable `x`.** -/
def recode (f : ℤ → ℤ) (r : String → String) (p : Program) : Program where
  threads := p.threads.map (List.map (Instruction.recode f r))
  flatten_ne_nil h := by
    rw [← List.map_flatten, List.map_eq_nil_iff] at h
    exact p.flatten_ne_nil h

/-- The instructions of the recoded program are the recoded instructions. -/
theorem get?_recode (p : Program) (q : Position) :
    (p.recode f r).get? q = (p.get? q).map (Instruction.recode f r) := by
  rw [get?, get?, recode, nth?_map, Option.bind_map, Option.map_bind]
  exact congrArg _ (funext fun th ↦ nth?_map _ th q.index)

/-- Recoding moves no instruction. -/
theorem positions_recode (p : Program) : (p.recode f r).positions = p.positions := by
  refine eq_of_increasing (positions_sorted _) p.positions_sorted fun q ↦ ?_
  rw [mem_positions, mem_positions, get?_recode, Option.isSome_map]

theorem total_recode (p : Program) : (p.recode f r).total = p.total := by
  rw [← length_positions, ← length_positions, positions_recode]

theorem loads_recode (p : Program) : (p.recode f r).loads = p.loads := by
  rw [loads, loads, positions_recode]
  refine List.filter_congr fun q _ ↦ ?_
  simp only [get?_recode, Option.any_map, Instruction.isLoad_recode]

/-- Recoding makes no program larger. -/
theorem check_recode (p : Program) (f : ℤ → ℤ) (r : String → String)
    (hc : p.check limits = .ok ()) : (p.recode f r).check limits = .ok () := by
  obtain ⟨hlen, hth⟩ := check_eq_ok_iff.1 hc
  refine check_eq_ok_iff.2 ⟨?_, fun th hmem ↦ ?_⟩
  · rwa [recode, List.length_map]
  · obtain ⟨th', hmem', rfl⟩ := List.mem_map.1 hmem
    rw [List.length_map]
    exact hth th' hmem'

/-! ### The same moves

From here on, different variables of the program keep different names. -/

section

variable (hr : Set.InjOn r {x | x ∈ p.names})

include hr

/-- The variables are recoded in order, since different ones are kept apart. -/
theorem names_recode : (p.recode f r).names = p.names.map r := by
  have hinj : Set.InjOn r {x | x ∈ p.threads.flatten.map (·.name)} :=
    hr.mono fun x hx ↦ List.mem_eraseDups.2 hx
  rw [names, names, ← eraseDups_map_of_injOn hinj, recode, ← List.map_flatten, List.map_map,
    List.map_map]
  exact congrArg _ (List.map_congr_left fun i _ ↦ i.name_recode)

/-- Two instructions access one variable after a recoding if they did before. -/
theorem name_beq_recode {i j : Instruction} (hi : p.get? a = some i) (hj : p.get? b = some j) :
    (r i.name == r j.name) = (i.name == j.name) := by
  rw [Bool.eq_iff_iff, beq_iff_eq, beq_iff_eq]
  exact hr.eq_iff (mem_names_of_get? hi) (mem_names_of_get? hj)

/-- **The recoded program waits for the same.** Models look at kinds of instructions and at whether
two variables are equal. -/
theorem precedes_recode (md : Model) (a b : Position) :
    (p.recode f r).precedes md a b = p.precedes md a b := by
  rw [precedes, precedes, get?_recode, get?_recode]
  cases ha : p.get? a with
  | none => rfl
  | some i =>
    cases hb : p.get? b with
    | none => rfl
    | some j => simp [Model.ordered, name_beq_recode hr ha hb]

/-- A load has the same stores of its own thread to forward from. -/
theorem ownStores_recode (q : Position) : (p.recode f r).ownStores q = p.ownStores q := by
  rw [ownStores, ownStores, positions_recode]
  refine List.filter_congr fun a _ ↦ congrArg (and _) ?_
  rw [get?_recode, get?_recode]
  cases hq : p.get? q with
  | none => rfl
  | some i =>
    cases ha : p.get? a with
    | none => rfl
    | some j =>
      cases j with
      | load x => rfl
      | store x v =>
        -- whether two variables are the same does not depend on their names
        show (r x == (i.recode f r).name) = (x == i.name)
        rw [Instruction.name_recode]
        exact name_beq_recode hr ha hq

/-- **The same instructions may run next.** -/
theorem ready_recode (md : Model) (done : List Position) (q : Position) :
    (p.recode f r).ready md done q = p.ready md done q := by
  simp only [ready, positions_recode, precedes_recode hr]

/-- **The same sources are open.** -/
theorem sourcesAfter_recode (s : Setting) (done : List Position) (q : Position) :
    (p.recode f r).sourcesAfter s done q = p.sourcesAfter s done q := by
  rw [sourcesAfter, sourcesAfter, get?_recode, ownStores_recode hr]
  cases p.get? q with
  | none => rfl
  | some i =>
    cases i with
    | load x => rfl
    | store x v => rfl

/-- **At every point the same moves are tried, in the same order.** -/
theorem moves_recode (s : Setting) (done : List Position) :
    (p.recode f r).moves s done = p.moves s done := by
  have hready : (p.recode f r).ready s.model done = p.ready s.model done :=
    funext (ready_recode hr s.model done)
  rw [moves, moves, positions_recode, hready]
  refine List.flatMap_congr fun q _ ↦ ?_
  rw [sourcesAfter_recode hr]

/-- **The searches go through the same schedules, in the same order.** -/
theorem schedules_recode (s : Setting) : (p.recode f r).schedules s = p.schedules s := by
  rw [schedules, schedules, total_recode]
  exact extensions_congr (moves_recode hr s) _ _

/-- The recoded program has the same legal schedules. -/
theorem legal_recode_iff : (p.recode f r).Legal s σ ↔ p.Legal s σ := by
  rw [← mem_schedules, schedules_recode hr, mem_schedules]

end

/-! ### Corresponding images -/

/-- In `H` the variables and the loads have the recoded values that they have in `G`. -/
structure Recodes (p : Program) (f : ℤ → ℤ) (r : String → String) (G H : Image) : Prop where
  /-- The variables. -/
  memory : ∀ x ∈ p.names, H.memory (r x) = f (G.memory x)
  /-- The loads. -/
  seen : ∀ q, H.seen q = f (G.seen q)

/-- In the beginning everything is zero on both sides, and zero is kept. -/
theorem recodes_zero (hf : f 0 = 0) : p.Recodes f r .zero .zero :=
  ⟨fun _ _ ↦ hf.symm, fun _ ↦ hf.symm⟩

section

variable (hf : f 0 = 0) (hr : Set.InjOn r {x | x ∈ p.names})

include hf hr

/-- A load that has overtaken the stores of its thread takes the recoded value. -/
theorem forwarded_recode (q : Position) : (p.recode f r).forwarded q = f (p.forwarded q) := by
  rw [forwarded, forwarded, ownStores_recode hr]
  cases (p.ownStores q).getLast? with
  | none => exact hf.symm
  | some a =>
    rw [Option.bind_some, Option.bind_some, get?_recode]
    cases p.get? a with
    | none => exact hf.symm
    | some i =>
      cases i with
      | load x => exact hf.symm
      | store x v => rfl

/-- A move has the recoded value, whichever source it has it from. -/
theorem Recodes.valueOf (h : p.Recodes f r G H) (m : Move) :
    (p.recode f r).valueOf H m = f (p.valueOf G m) := by
  rw [Program.valueOf, Program.valueOf, get?_recode, forwarded_recode hf hr]
  cases hm : p.get? m.position with
  | none => exact hf.symm
  | some i =>
    cases i with
    | store x v => rfl
    | load x =>
      show (if _ then _ else H.memory (r x)) = f (if _ then _ else _)
      rw [h.memory x (mem_names_of_get? hm), apply_ite f]

/-- **A move keeps images in correspondence.** -/
theorem Recodes.apply (h : p.Recodes f r G H) (m : Move) :
    p.Recodes f r (p.apply G m) ((p.recode f r).apply H m) := by
  have hget := p.get?_recode (f := f) (r := r) m.position
  cases hm : p.get? m.position with
  | none =>
    rw [hm] at hget
    rw [Program.apply, Program.apply, hm, hget]
    exact h
  | some i =>
    rw [hm] at hget
    cases i with
    | store x v =>
      rw [apply_store hm, apply_store hget]
      refine ⟨fun y hy ↦ ?_, h.seen⟩
      by_cases hyx : y = x
      · subst hyx
        simp
      · -- the renaming keeps `y` and `x` apart
        have hne : r y ≠ r x := fun heq ↦ hyx (hr hy (mem_names_of_get? hm) heq)
        simpa [Function.update_of_ne hyx, Function.update_of_ne hne] using h.memory y hy
    | load x =>
      rw [apply_load hm, apply_load hget]
      refine ⟨h.memory, fun q ↦ ?_⟩
      by_cases hq : q = m.position
      · subst hq
        simpa using h.valueOf hf hr m
      · simpa [Function.update_of_ne hq] using h.seen q

/-- **The images along a schedule correspond.** -/
theorem recodes_imageAfter (σ : Schedule) :
    p.Recodes f r (p.imageAfter σ) ((p.recode f r).imageAfter σ) := by
  induction σ using List.reverseRecOn with
  | nil => exact recodes_zero hf
  | append_singleton σ m ih =>
    rw [imageAfter_snoc, imageAfter_snoc]
    exact ih.apply hf hr m

theorem Recodes.stepOf? (h : p.Recodes f r G H) (m : Move) :
    (p.recode f r).stepOf? H m = (p.stepOf? G m).map (Step.recode f r) := by
  rw [Program.stepOf?, Program.stepOf?, get?_recode, h.valueOf hf hr, Option.map_map,
    Option.map_map]
  rfl

/-- **The steps of a schedule are the recoded steps.** -/
theorem Recodes.stepsFrom (h : p.Recodes f r G H) (σ : Schedule) :
    (p.recode f r).stepsFrom H σ = (p.stepsFrom G σ).map (Step.recode f r) := by
  induction σ generalizing G H with
  | nil => rfl
  | cons m σ ih =>
    rw [Program.stepsFrom, Program.stepsFrom, List.map_append, ih (h.apply hf hr m),
      h.stepOf? hf hr m, Option.toList_map]

/-- The steps of a schedule are the recoded steps. -/
theorem trace_recode (σ : Schedule) :
    (p.recode f r).trace σ = (p.trace σ).map (Step.recode f r) :=
  (recodes_zero hf).stepsFrom hf hr σ

/-- **The outcome of a schedule is the recoded outcome.** -/
theorem outcomeAfter_recode (σ : Schedule) :
    (p.recode f r).outcomeAfter σ = (p.outcomeAfter σ).recode f r := by
  have h := recodes_imageAfter hf hr σ
  have hmemory : ((p.recode f r).outcomeAfter σ).memory =
      ((p.outcomeAfter σ).recode f r).memory := by
    simp only [outcomeAfter, outcomeOf, Outcome.recode, names_recode hr, List.map_map]
    exact List.map_congr_left fun x hx ↦ congrArg (Prod.mk (r x)) (h.memory x hx)
  have hloads : ((p.recode f r).outcomeAfter σ).loads = ((p.outcomeAfter σ).recode f r).loads := by
    simp only [outcomeAfter, outcomeOf, Outcome.recode, loads_recode, List.map_filterMap,
      get?_recode, Option.map_map]
    refine List.filterMap_congr fun q _ ↦ congrArg (fun g ↦ (p.get? q).map g) (funext fun i ↦ ?_)
    simp [h.seen q]
  exact congrArg₂ Outcome.mk hmemory hloads

/-- So a schedule leads to the recoded solution. -/
theorem solution_recode (σ : Schedule) :
    (p.recode f r).solution σ = (p.solution σ).recode f r := by
  rw [solution, outcomeAfter_recode hf hr, trace_recode hf hr]
  rfl

/-- If no values are merged, the solutions are recoded one by one. -/
theorem outcomes_findings_recode (hinj : Function.Injective f) (s : Setting) :
    ((p.recode f r).findings s).outcomes.solutions =
      (p.findings s).outcomes.solutions.map (Solution.recode f r) := by
  have hlist : (p.schedules s).map (p.recode f r).solution =
      ((p.schedules s).map p.solution).map (Solution.recode f r) := by
    rw [List.map_map]
    exact List.map_congr_left fun σ _ ↦ solution_recode hf hr σ
  have hkeys : ∀ x ∈ (p.schedules s).map p.solution, ∀ y ∈ (p.schedules s).map p.solution,
      (x.recode f r).key = (y.recode f r).key ↔ x.key = y.key := by
    intro x hx y hy
    obtain ⟨σ, -, rfl⟩ := List.mem_map.1 hx
    obtain ⟨τ, -, rfl⟩ := List.mem_map.1 hy
    exact (p.sameShape_outcomeOf (p.imageAfter σ) (p.imageAfter τ)).text_recode_iff hinj
  rw [findings, findings, schedules_recode hr, hlist]
  exact OutcomeSet.solutions_insertAll_map (s := .empty) hkeys

end

/-- **Values and names do not matter.** Let every stored value `v` become `f v` and every variable
`x` become `r x`, where `f` keeps zero and `r` keeps different variables of the program apart. Then
the outcomes that are found become the recoded ones, and as many executions are explored. If `f`
keeps different values apart, too, the outcomes are found in the same order, each with the recoded
witness. -/
theorem explore_recode (p : Program) (s : Setting) (limits : Limits) (f : ℤ → ℤ)
    (r : String → String) (hc : p.check limits = .ok ()) (hv : p.storesFit = true)
    (hv' : (p.recode f r).storesFit = true) (hf : f 0 = 0)
    (hr : Set.InjOn r {x | x ∈ p.names}) :
    ∃ a b, p.explore s limits = .ok a ∧ (p.recode f r).explore s limits = .ok b ∧
      (∀ o, o ∈ b.outcomes ↔ ∃ o' ∈ a.outcomes, o'.recode f r = o) ∧
      b.executions = a.executions ∧
      (Function.Injective f →
        b.outcomes.solutions = a.outcomes.solutions.map (Solution.recode f r)) := by
  refine ⟨_, _, explore_of_storesFit hc hv, explore_of_storesFit (p.check_recode f r hc) hv',
    fun o ↦ ?_, ?_, fun hinj ↦ outcomes_findings_recode hf hr hinj s⟩
  · simp only [mem_outcomes_findings, legal_recode_iff hr, outcomeAfter_recode hf hr]
    constructor
    · rintro ⟨σ, hσ, rfl⟩
      exact ⟨_, ⟨σ, hσ, rfl⟩, rfl⟩
    · rintro ⟨_, ⟨σ, hσ, rfl⟩, rfl⟩
      exact ⟨σ, hσ, rfl⟩
  · show ((p.recode f r).schedules s).length = (p.schedules s).length
    rw [schedules_recode hr]

/-- All values change their sign, and all variables get longer names. -/
theorem storeForwarding_recode :
    storeForwarding.check .standard = .ok () ∧ storeForwarding.storesFit = true ∧
      (storeForwarding.recode (- ·) (· ++ "_")).threads =
        [[.store "x_" (-1), .load "x_", .load "y_"], [.store "y_" (-2), .store "x_" (-2)]] ∧
      ∃ a b, storeForwarding.explore { model := .tso } .standard = .ok a ∧
        (storeForwarding.recode (- ·) (· ++ "_")).explore { model := .tso } .standard = .ok b ∧
        (∀ o, o ∈ b.outcomes ↔ ∃ o' ∈ a.outcomes, o'.recode (- ·) (· ++ "_") = o) ∧
        b.executions = a.executions ∧
        b.outcomes.solutions = a.outcomes.solutions.map (Solution.recode (- ·) (· ++ "_")) := by
  have hr : Set.InjOn (· ++ "_") {x | x ∈ storeForwarding.names} := by
    intro x _ y _ h
    simpa using h
  obtain ⟨a, b, ha, hb, houtcomes, hexecutions, hsolutions⟩ := explore_recode storeForwarding
    { model := .tso } .standard (- ·) (· ++ "_") rfl (by decide) (by decide) rfl hr
  exact ⟨rfl, by decide, by decide, a, b, ha, hb, houtcomes, hexecutions,
    hsolutions neg_injective⟩

end Program

end Litmus

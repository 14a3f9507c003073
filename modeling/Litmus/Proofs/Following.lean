import Litmus.Proofs.Edges
import Litmus.Proofs.Image

/-!
# Walks that follow a schedule

A walk keeps its state in place: edges that are lifted, cells and load values that are overwritten,
a set, a trail and a trace that grow. `Walk.Stands w done g` says what all of it amounts to: the
instructions at the positions in `done` have run, in whatever order and with whatever values, and
have left the image `g`. Everything that a walk does next follows from this.

* What it offers next are the positions that are ready when `done` has run (`Walk.Stands.eligible`),
  each with the choices that are open to it (`Walk.Stands.choices`).
* Every position that has not run can be entered, offered or not. A load needs a source. The walk
  then stands one position further (`Walk.Stands.enter`).

If the steps are those that were offered, the walk follows a schedule: `Walk.Follows w σ` says that
its state is what `σ` leaves. A walk that has not begun follows the empty schedule
(`Walk.follows_start`), and entering what it offers leads to the schedule with that move added
(`Walk.Follows.enter`). Every invariant of such a walk is thereby one of schedules, where it has to
be proved only once.
-/

namespace Litmus

/-- A map that could fail and does not is a map. -/
theorem mapM_eq_ok {α β : Type} {f : α → Except Fault β} {g : α → β} {l : List α}
    (h : ∀ a ∈ l, f a = .ok (g a)) : l.mapM f = .ok (l.map g) := by
  induction l with
  | nil => rfl
  | cons a l ih =>
    rw [List.mapM_cons, h a List.mem_cons_self, ih fun b hb ↦ h b (List.mem_cons_of_mem a hb)]
    rfl

/-! ### Outcomes as tables

The cells of a memory and the record of the loads are the graphs of the functions of an image. -/

namespace Program

variable {p : Program} {g : Image} {q : Position}

/-- Writing a cell of a memory that holds the values of a function updates the function. -/
private theorem setCell_map {l : List String} (h : l.Nodup) (f : String → Int) (x : String)
    (v : Int) : Memory.setCell x v (l.map fun y ↦ (y, f y)) =
      l.map fun y ↦ (y, Function.update f x v y) := by
  induction l with
  | nil => rfl
  | cons y l ih =>
    obtain ⟨hy, hl⟩ := List.nodup_cons.1 h
    rw [List.map_cons, Memory.setCell, List.map_cons]
    by_cases hxy : x = y
    · subst hxy
      have hrest : (l.map fun z ↦ (z, f z)) = l.map fun z ↦ (z, Function.update f x v z) := by
        refine List.map_congr_left fun z hz ↦ ?_
        have hne : z ≠ x := fun heq ↦ hy (heq ▸ hz)
        rw [Function.update_of_ne hne]
      rw [if_pos rfl, Function.update_self, hrest]
    · rw [if_neg hxy, Function.update_of_ne (Ne.symm hxy), ih hl]

private theorem lookup_map {l : List String} (f : String → Int) {x : String} (h : x ∈ l) :
    (l.map fun y ↦ (y, f y)).lookup x = some (f x) := by
  induction l with
  | nil => cases h
  | cons y l ih =>
    rw [List.map_cons]
    by_cases hxy : x = y
    · subst hxy
      simp
    · rw [Memory.lookup_cons_of_ne hxy]
      exact ih ((List.mem_cons.1 h).resolve_left hxy)

/-- The row of a load in the record of the loads. -/
private def row (p : Program) (f : Position → Int) (q : Position) : Option LoadValue :=
  (p.get? q).map fun i ↦ ⟨q, i.name, f q⟩

private theorem row_of_none (h : p.get? q = none) (f : Position → Int) : p.row f q = none := by
  rw [row, h]
  rfl

private theorem row_of_some {i : Instruction} (h : p.get? q = some i) (f : Position → Int) :
    p.row f q = some ⟨q, i.name, f q⟩ := by
  rw [row, h]
  rfl

/-- Writing a row of a table of loads that holds the values of a function updates the function. -/
private theorem setLoad_filterMap {l : List Position} (h : l.Nodup) (f : Position → Int)
    (q : Position) (v : Int) : Execution.setLoad q v (l.filterMap (p.row f)) =
      l.filterMap (p.row (Function.update f q v)) := by
  induction l with
  | nil => rfl
  | cons r l ih =>
    obtain ⟨hr, hl⟩ := List.nodup_cons.1 h
    cases hi : p.get? r with
    | none =>
      rw [List.filterMap_cons_none (row_of_none hi _), List.filterMap_cons_none (row_of_none hi _),
        ih hl]
    | some i =>
      rw [List.filterMap_cons_some (row_of_some hi _), List.filterMap_cons_some (row_of_some hi _),
        Execution.setLoad]
      by_cases hrq : r = q
      · subst hrq
        have hrest : l.filterMap (p.row f) = l.filterMap (p.row (Function.update f r v)) := by
          refine List.filterMap_congr fun z hz ↦ ?_
          have hne : z ≠ r := fun heq ↦ hr (heq ▸ hz)
          rw [row, row, Function.update_of_ne hne]
        rw [if_pos rfl, Function.update_self, hrest]
      · rw [if_neg hrq, Function.update_of_ne hrq, ih hl]

/-- The row of a load holds the value of the function. -/
private theorem find?_filterMap {l : List Position} (f : Position → Int) {i : Instruction}
    (h : q ∈ l) (hi : p.get? q = some i) :
    (l.filterMap (p.row f)).find? (fun x ↦ x.position == q) = some ⟨q, i.name, f q⟩ := by
  induction l with
  | nil => cases h
  | cons r l ih =>
    by_cases hrq : r = q
    · subst hrq
      rw [List.filterMap_cons_some (row_of_some hi f)]
      simp
    · have hq := ih ((List.mem_cons.1 h).resolve_left (Ne.symm hrq))
      cases hj : p.get? r with
      | none => rw [List.filterMap_cons_none (row_of_none hj f), hq]
      | some j =>
        rw [List.filterMap_cons_some (row_of_some hj f),
          List.find?_cons_of_neg (by simpa using hrq), hq]

/-- Writing a variable sets its cell. -/
theorem outcomeOf_write (p : Program) (g : Image) (x : String) (v : Int) :
    p.outcomeOf { g with memory := Function.update g.memory x v } =
      ⟨Memory.setCell x v (p.outcomeOf g).memory, (p.outcomeOf g).loads⟩ := by
  rw [outcomeOf, outcomeOf, setCell_map p.nodup_names]

/-- Seeing a value sets the row of the load. -/
theorem outcomeOf_see (p : Program) (g : Image) (q : Position) (v : Int) :
    p.outcomeOf { g with seen := Function.update g.seen q v } =
      ⟨(p.outcomeOf g).memory, Execution.setLoad q v (p.outcomeOf g).loads⟩ := by
  have hnodup : p.loads.Nodup := p.nodup_positions.filter _
  exact congrArg _ (setLoad_filterMap hnodup g.seen q v).symm

theorem lookup_outcomeOf {x : String} (h : x ∈ p.names) :
    (p.outcomeOf g).memory.lookup x = some (g.memory x) :=
  lookup_map g.memory h

theorem find?_outcomeOf {x : String} (hq : q ∈ p.positions) (h : p.get? q = some (.load x)) :
    (p.outcomeOf g).loads.find? (fun l ↦ l.position == q) = some ⟨q, x, g.seen q⟩ := by
  have hmem : q ∈ p.loads := List.mem_filter.2 ⟨hq, by simp [h, Instruction.isLoad]⟩
  exact find?_filterMap g.seen hmem h

/-- The value that is forwarded is found in the thread. -/
theorem forwardedValue_eq (hq : q ∈ p.positions) (h : p.ownStores q ≠ []) :
    Walk.forwardedValue p q = .ok (p.forwarded q) := by
  set r := (p.ownStores q).getLast h with hr
  have hmem : r ∈ p.ownStores q := List.getLast_mem h
  obtain ⟨-, -, -, i, v, -, hv⟩ := mem_ownStores.1 hmem
  have hlast : (p.ownStores q).getLast? = some r := List.getLast?_eq_some_getLast h
  -- the nearest store is the last one here and the first one there
  obtain ⟨rest, hrest⟩ : ∃ rest, (p.ownStores q).reverse = r :: rest := by
    refine ⟨(p.ownStores q).dropLast.reverse, ?_⟩
    conv_lhs => rw [← List.dropLast_append_getLast h, List.reverse_append]
    rfl
  rw [Walk.forwardedValue, storesBefore_eq hq, hrest]
  simp only [bind, Except.bind, hv, pure, Except.pure]
  rw [forwarded, hlast, Option.bind_some, hv]
  rfl

end Program

namespace Execution

variable {p : Program} {e : Execution p} {g : Image} {q : Position} {x : String} {u : Int}

/-- A variable has the value that the image shows. -/
theorem read_of_outcome (h : e.outcome = p.outcomeOf g) (hx : x ∈ p.names) :
    e.memory.read x = .ok (g.memory x) := by
  have hcells : e.memory.cells = (p.outcomeOf g).memory := congrArg Outcome.memory h
  rw [Memory.read, Memory.get?, hcells, Program.lookup_outcomeOf hx]

/-- A load has the value that the image shows. -/
theorem loadValue_of_outcome (h : e.outcome = p.outcomeOf g) (hq : q ∈ p.positions)
    (hi : p.get? q = some (.load x)) : e.loadValue q = .ok (g.seen q) := by
  have hloads : e.loads = (p.outcomeOf g).loads := congrArg Outcome.loads h
  rw [loadValue, hloads, Program.find?_outcomeOf hq hi]

/-- Executing a store writes its value and brings what was there. -/
theorem execute_store {v : Int} (hq : e.executed q = false) (hi : p.get? q = some (.store x v))
    (hx : e.memory.read x = .ok u) (observed : Option Int) :
    e.execute q observed = (mark { e with memory := e.memory.set x v } q u, .ok u) := by
  simp [execute, hq, Program.fetch_of_get? hi, Memory.write, hx]

/-- Executing a load writes what it has observed and brings what was noted for it. -/
theorem execute_load (hq : e.executed q = false) (hi : p.get? q = some (.load x))
    (hl : e.loadValue q = .ok u) (v : Int) :
    e.execute q (some v) = (mark { e with loads := setLoad q v e.loads } q u, .ok u) := by
  simp [execute, hq, Program.fetch_of_get? hi, hl]

/-- **An instruction is refused if it has run, or if it is a load and no value is given.** -/
theorem execute_eq_error_iff (h : e.outcome = p.outcomeOf g) (hq : q ∈ p.positions)
    (observed : Option Int) : (∃ f, e.execute q observed = (e, .error f)) ↔
      e.executed q = true ∨ (∃ x, p.get? q = some (.load x)) ∧ observed = none := by
  obtain ⟨i, hi⟩ := Program.exists_get? hq
  by_cases hran : e.executed q = true
  · simp [execute, hran]
  have hnot : e.executed q = false := Bool.eq_false_iff.2 hran
  cases i with
  | store x v =>
    have hx : x ∈ p.names := Program.mem_names_of_get? hi
    simp [execute_store hnot hi (read_of_outcome h hx), hran, hi]
  | load x =>
    cases observed with
    | none => simp [execute, hnot, Program.fetch_of_get? hi, hi]
    | some v => simp [execute_load hnot hi (loadValue_of_outcome h hq hi), hran]

end Execution

namespace Walk

variable {p : Program} {s : Setting} {w w' : Walk p s} {done : List Position} {g : Image}
  {σ : Schedule} {q : Position} {c : Choice}

/-! ### Where a walk stands -/

/-- **The walk stands where the instructions at the positions in `done` have run and have left the
image `g`**: the edges to these positions are lifted and all others are in force, these positions
count as executed and are on the trail, and memory and loads are those of the image. -/
structure Stands (w : Walk p s) (done : List Position) (g : Image) : Prop where
  /-- The edges that are left. -/
  graph : ∀ later earlier, earlier ∈ w.graph.waitsFor later ↔ later ∈ p.positions ∧
    earlier ∈ p.positions ∧ p.precedes s.model earlier later = true ∧ earlier ∉ done
  /-- The positions that count as executed. -/
  ran : w.execution.ran.toList.Perm done
  /-- The positions on the trail. -/
  trail : w.execution.trail.map (·.position) = done.reverse
  /-- The memory and the loads. -/
  outcome : w.execution.outcome = p.outcomeOf g

theorem stands_start (p : Program) (s : Setting) : (start p s).Stands [] .zero where
  graph later earlier := by
    rw [and_iff_left List.not_mem_nil]
    exact WaitGraph.mem_waitsFor_full
  ran := List.Perm.nil
  trail := rfl
  outcome := by
    have hnames : p.names.eraseDups = p.names := eraseDups_of_nodup p.nodup_names
    simp only [start, Execution.start, Execution.outcome, Memory.ofNames, hnames]
    rfl

namespace Stands

/-! ### What may happen next -/

/-- The flags are set for what has run. -/
theorem executed_iff (h : w.Stands done g) : w.execution.executed q = true ↔ q ∈ done := by
  rw [Execution.executed, decide_eq_true_iff, PositionSet.mem_def, h.ran.mem_iff]

/-- The edges to whatever has not run are in force. -/
theorem inForce (h : w.Stands done g) (hq : q ∈ p.positions) (hnot : q ∉ done) :
    w.graph.InForce q := by
  intro later
  rw [h.graph, and_iff_right hq, and_iff_left hnot]

/-- A position waits if something that has to run before it has not run. -/
theorem isWaiting_iff (h : w.Stands done g) (hq : q ∈ p.positions) : w.graph.isWaiting q = true ↔
    ∃ r ∈ p.positions, p.precedes s.model r q = true ∧ r ∉ done := by
  simp only [WaitGraph.isWaiting_iff, h.graph, hq, true_and]

/-- **A walk offers the positions that are ready.** -/
theorem eligible (h : w.Stands done g) :
    w.eligible = p.positions.filter (p.ready s.model done) := by
  refine List.filter_congr fun q hq ↦ ?_
  rw [Bool.eq_iff_iff, Program.ready_iff, Bool.and_eq_true, Bool.not_eq_true', Bool.not_eq_true',
    ← Bool.not_eq_true, ← Bool.not_eq_true, h.executed_iff, h.isWaiting_iff hq]
  push Not
  exact Iff.rfl

/-- **What is eligible is what is ready**: it has not run, and all that it has to wait for has. -/
theorem mem_eligible (h : w.Stands done g) :
    q ∈ w.eligible ↔ q ∈ p.positions ∧ p.ready s.model done q = true := by
  rw [h.eligible, List.mem_filter]

/-- The variables of the program can be read. -/
theorem read (h : w.Stands done g) {i : Instruction} (hi : p.get? q = some i) :
    w.execution.memory.read i.name = .ok (g.memory i.name) :=
  Execution.read_of_outcome h.outcome (Program.mem_names_of_get? hi)

/-- What is noted for a load is what it has seen. -/
theorem loadValue (h : w.Stands done g) {x : String} (hq : q ∈ p.positions)
    (hi : p.get? q = some (.load x)) : w.execution.loadValue q = .ok (g.seen q) :=
  Execution.loadValue_of_outcome h.outcome hq hi

/-- The sources that a walk offers to a load are those that are open to it, and nothing is forwarded
unless there is a store to forward from. -/
theorem sources (h : w.Stands done g) {x : String} (hq : q ∈ p.positions)
    (hi : p.get? q = some (.load x)) :
    ∃ l, w.sources q = .ok l ∧ p.sourcesAfter s done q = l.map some ∧
      (.forwarded ∈ l → p.ownStores q ≠ []) := by
  rw [Walk.sources, Program.sourcesAfter, hi]
  cases s.model with
  | ibm370 => exact ⟨[.memory], rfl, rfl, by simp⟩
  | tso =>
    -- the walk goes through the stores from the latest to the earliest
    have hany : ((p.ownStores q).reverse.isEmpty ||
        (p.ownStores q).reverse.any w.execution.executed) = true ↔
        (p.ownStores q = [] ∨ ∃ r ∈ p.ownStores q, r ∈ done) := by
      rw [Bool.or_eq_true, List.isEmpty_reverse, List.isEmpty_iff, List.any_reverse,
        List.any_eq_true]
      simp only [h.executed_iff]
    rw [Program.storesBefore_eq hq]
    simp only [Except.map]
    by_cases hdone : p.ownStores q = [] ∨ ∃ r ∈ p.ownStores q, r ∈ done
    · rw [if_pos (hany.2 hdone), if_pos hdone]
      exact ⟨[.memory], rfl, rfl, by simp⟩
    · rw [if_neg (fun hc ↦ hdone (hany.1 hc)), if_neg hdone]
      have hne : p.ownStores q ≠ [] := fun heq ↦ hdone (Or.inl heq)
      cases s.readAround with
      | true => exact ⟨[.forwarded, .memory], rfl, rfl, fun _ ↦ hne⟩
      | false => exact ⟨[.forwarded], rfl, rfl, fun _ ↦ hne⟩

/-- **The choices that a walk offers are the open sources with their values.** -/
theorem choices (h : w.Stands done g) (hq : q ∈ p.positions) :
    w.choices q = .ok ((p.sourcesAfter s done q).map fun src ↦ ⟨src, p.valueOf g ⟨q, src⟩⟩) := by
  obtain ⟨i, hi⟩ := Program.exists_get? hq
  rw [Walk.choices, Program.fetch_of_get? hi]
  cases i with
  | store x v =>
    rw [Program.sourcesAfter, hi, List.map_singleton, Program.valueOf_store (m := ⟨q, none⟩) hi]
    rfl
  | load x =>
    obtain ⟨l, hl, hopen, hstore⟩ := h.sources hq hi
    rw [hopen, List.map_map]
    show (w.sources q >>= _) = _
    rw [hl]
    -- each source can be resolved, so no choice fails
    refine mapM_eq_ok fun src hsrc ↦ ?_
    rw [Walk.resolve, Program.fetch_of_get? hi, Function.comp_apply,
      Program.valueOf_load (m := ⟨q, some src⟩) hi]
    cases src with
    | forwarded =>
      simp only [bind, Except.bind, Program.forwardedValue_eq hq (hstore hsrc), pure, Except.pure,
        if_true]
    | memory =>
      have hread := h.read hi
      simp only [Instruction.name] at hread
      simp only [bind, Except.bind, Instruction.name, hread, pure, Except.pure]
      rfl

/-! ### Stepping in -/

/-- An instruction that has not run can be executed, a load if a value is given. -/
theorem execute (h : w.Stands done g) (hq : q ∈ p.positions) (hnot : q ∉ done)
    (hsrc : ∀ x, p.get? q = some (.load x) → c.source ≠ none) :
    ∃ e prior, w.execution.execute q (c.source.map fun _ ↦ c.value) = (e, .ok prior) ∧
      e.ran = w.execution.ran.add q ∧ e.trail = ⟨q, prior⟩ :: w.execution.trail ∧
      e.outcome = p.outcomeOf (p.effect g q c.value) := by
  have hran : w.execution.executed q = false := by
    rwa [← Bool.not_eq_true, h.executed_iff]
  obtain ⟨i, hi⟩ := Program.exists_get? hq
  cases i with
  | store x v =>
    refine ⟨_, _, Execution.execute_store hran hi (h.read hi) _, rfl, rfl, ?_⟩
    rw [Program.effect_store hi, Program.outcomeOf_write, ← h.outcome]
    rfl
  | load x =>
    obtain ⟨src, hsome⟩ := Option.ne_none_iff_exists'.1 (hsrc x hi)
    rw [hsome]
    refine ⟨_, _, Execution.execute_load hran hi (h.loadValue hq hi) _, rfl, rfl, ?_⟩
    rw [Program.effect_load hi, Program.outcomeOf_see, ← h.outcome]
    rfl

/-- **Whatever has not run can be entered, a load if it has a source**, and the walk then stands one
position further. -/
theorem enter (h : w.Stands done g) (hq : q ∈ p.positions) (hnot : q ∉ done)
    (hsrc : ∀ x, p.get? q = some (.load x) → c.source ≠ none) {i : Instruction}
    (hi : p.get? q = some i) :
    ∃ w' prior, w.enter q c = (w', .ok prior) ∧ w'.Stands (done ++ [q]) (p.effect g q c.value) ∧
      w'.trace = w.trace ++ [⟨q, i, c.value, c.source⟩] := by
  obtain ⟨e, prior, hexec, hran, htrail, hout⟩ := h.execute hq hnot hsrc
  refine ⟨⟨(w.graph.lift q).1, e, w.trace ++ [⟨q, i, c.value, c.source⟩]⟩, prior, ?_,
    ⟨fun later earlier ↦ ?_, ?_, ?_, hout⟩, rfl⟩
  · rw [Walk.enter, WaitGraph.lift_eq w.graph hq]
    simp only [hexec, Program.fetch_of_get? hi]
  · -- an edge that is left leads back in its thread, so all those to the position are gone
    rw [WaitGraph.mem_waitsFor_lift hq, h.graph, List.mem_append, List.mem_singleton, not_or]
    constructor
    · rintro ⟨⟨hlater, hearlier, hpre, hdone⟩, hlifted⟩
      refine ⟨hlater, hearlier, hpre, hdone, ?_⟩
      rintro rfl
      obtain ⟨ht, hlt, -⟩ := Program.precedes_iff.1 hpre
      exact hlifted ⟨rfl, ht.symm, hlt⟩
    · rintro ⟨hlater, hearlier, hpre, hdone, hne⟩
      exact ⟨⟨hlater, hearlier, hpre, hdone⟩, fun hlifted ↦ hne hlifted.1⟩
  · have hmem : q ∉ w.execution.ran := by
      rwa [PositionSet.mem_def, h.ran.mem_iff]
    show e.ran.toList.Perm (done ++ [q])
    rw [hran]
    exact ((PositionSet.perm_add hmem).trans (h.ran.cons q)).trans
      (List.perm_append_singleton q done).symm
  · rw [htrail, List.map_cons, h.trail, List.reverse_append]
    rfl

/-- A possible move can be entered, and has its effect. -/
theorem enter_move (h : w.Stands done g) {m : Move} (hm : m ∈ p.moves s done) {i : Instruction}
    (hi : p.get? m.position = some i) :
    ∃ w' prior, w.enter m.position ⟨m.source, p.valueOf g m⟩ = (w', .ok prior) ∧
      w'.Stands (done ++ [m.position]) (p.apply g m) ∧
      w'.trace = w.trace ++ [⟨m.position, i, p.valueOf g m, m.source⟩] := by
  obtain ⟨hq, hready, hsrc⟩ := Program.mem_moves.1 hm
  rw [← Program.effect_valueOf]
  exact h.enter hq (Program.ready_iff.1 hready).1 (Program.source_ne_none hsrc) hi

end Stands

/-! ### Walks and schedules -/

/-- **The walk stands where the schedule leads**: it stands where the positions of the schedule have
run and have left the image that the schedule leaves, and its trace is that of the schedule. -/
structure Follows (w : Walk p s) (σ : Schedule) : Prop
    extends Stands w σ.order (p.imageAfter σ) where
  /-- The trace. -/
  trace : w.trace = p.trace σ

theorem follows_start (p : Program) (s : Setting) : (start p s).Follows [] :=
  ⟨stands_start p s, rfl⟩

namespace Follows

/-- Its outcome is that of the schedule. -/
theorem outcome_eq (h : w.Follows σ) : w.execution.outcome = p.outcomeAfter σ := h.outcome

/-- **Stepping into a possible move succeeds**, and the walk follows the longer schedule. -/
theorem enter (h : w.Follows σ) {m : Move} (hm : m ∈ p.moves s σ.order) :
    ∃ w' prior, w.enter m.position ⟨m.source, p.valueOf (p.imageAfter σ) m⟩ = (w', .ok prior) ∧
      w'.Follows (σ ++ [m]) := by
  obtain ⟨i, hi⟩ := Program.exists_get? (Program.mem_moves.1 hm).1
  obtain ⟨w', prior, henter, hstands, htrace⟩ := h.enter_move hm hi
  rw [← Program.imageAfter_snoc, ← Schedule.order_snoc] at hstands
  refine ⟨w', prior, henter, hstands, ?_⟩
  rw [htrace, Program.trace_snoc hi, h.trace]

end Follows

end Walk

end Litmus

import Litmus.Proofs.Enumeration
import Litmus.Proofs.Observation

/-!
# Parts of a program

Some threads of a program, or the beginnings of some threads, make up a program of their own. Inside
the larger one these threads stand at other places, so a position of the part has another name
there: `Position.rethread g` is the position in thread `g t` in place of thread `t`. The part `p` of
`r` is given by that function (`Program.PartOf`).

Nothing that a setting decides looks beyond a thread, or ahead in it. So at every point the moves of
the part are the moves of the program that are made inside the part, under their names there
(`Program.PartOf.mem_moves`). This holds whatever the other instructions do.

What the loads see is another matter, since all threads share the memory. If no instruction outside
of the part stores to its variables (`Program.Undisturbed`), the image of the program shows that of
the part (`Program.Shows`): a move inside the part has the same effect on both
(`Program.Shows.apply_part`), and a move outside has none (`Program.Shows.apply_other`).

Dropping the moves outside of the part from a schedule of the program leaves a schedule of the part
(`Program.Restricts`). By induction on it, a complete run of the program is one of the part
(`Program.Restricts.legal`), and it shows what the part does alone (`Program.Restricts.shows`).
-/

namespace Litmus

variable {g : ℤ → ℤ}

/-! ### Other threads -/

/-- The same place in another thread. -/
def Position.rethread (g : ℤ → ℤ) (q : Position) : Position := ⟨g q.thread, q.index⟩

@[simp] theorem Position.rethread_id : Position.rethread id = id := rfl

/-- Instructions of different threads are kept apart. -/
theorem Position.rethread_injective (hg : Function.Injective g) :
    Function.Injective (Position.rethread g) := by
  rintro ⟨t, i⟩ ⟨u, j⟩ h
  obtain ⟨ht, hi⟩ := Position.mk.inj h
  exact congrArg₂ Position.mk (hg ht) hi

/-- The same move in another thread. -/
def Move.rethread (g : ℤ → ℤ) (m : Move) : Move := ⟨m.position.rethread g, m.source⟩

@[simp] theorem Move.position_rethread (m : Move) :
    (m.rethread g).position = m.position.rethread g := rfl

@[simp] theorem Move.source_rethread (m : Move) : (m.rethread g).source = m.source := rfl

@[simp] theorem Move.rethread_id : Move.rethread id = id := rfl

theorem Schedule.order_rethread (σ : Schedule) :
    Schedule.order (σ.map (Move.rethread g)) = σ.order.map (Position.rethread g) := by
  rw [Schedule.order, Schedule.order, List.map_map, List.map_map]
  rfl

/-- The same outcome of other threads. -/
def Outcome.rethread (g : ℤ → ℤ) (o : Outcome) : Outcome where
  memory := o.memory
  loads := o.loads.map fun l ↦ { l with position := l.position.rethread g }

theorem Outcome.rethread_id (o : Outcome) : o.rethread id = o := by
  rw [rethread]
  exact congrArg (Outcome.mk o.memory) (List.map_id o.loads)

namespace Program

variable {p r : Program} {s : Setting} {md : Model} {m : Move} {a b q : Position}
  {done done' : List Position} {σ ρ : Schedule} {G H : Image} {x : String}

/-- **The program `p` is a part of `r`**: its thread `t` is the thread `g t` of `r`, or the
beginning of it. -/
structure PartOf (p r : Program) (g : ℤ → ℤ) : Prop where
  /-- Different threads are at different places. -/
  injective : Function.Injective g
  /-- The threads. -/
  thread : ∀ (t : ℕ) (th : List Instruction), p.threads[t]? = some th →
    ∃ (u : ℕ) (th' : List Instruction), g t = u ∧ r.threads[u]? = some th' ∧ th <+: th'

namespace PartOf

/-! ### Positions of a part -/

/-- A position of the part belongs to a thread that the whole has under another number, perhaps with
more behind. -/
theorem exists_thread (h : p.PartOf r g) (hq : q ∈ p.positions) :
    ∃ (t i u : ℕ) (th rest : List Instruction), q = ⟨t, i⟩ ∧ q.rethread g = ⟨u, i⟩ ∧
      p.threads[t]? = some th ∧ r.threads[u]? = some (th ++ rest) ∧ i < th.length := by
  obtain ⟨t, i, th, rfl, hth, hi⟩ := mem_positions_iff_exists.1 hq
  obtain ⟨u, -, hu, hth', rest, rfl⟩ := h.thread t th hth
  refine ⟨t, i, u, th, rest, rfl, ?_, hth, hth', hi⟩
  rw [Position.rethread, hu]

/-- The program has the instructions of its parts. -/
theorem get?_rethread (h : p.PartOf r g) (hq : q ∈ p.positions) :
    r.get? (q.rethread g) = p.get? q := by
  obtain ⟨t, i, u, th, rest, rfl, hu, hth, hth', hi⟩ := h.exists_thread hq
  rw [hu, get?_natCast, get?_natCast, hth, hth', Option.bind_some, Option.bind_some,
    List.getElem?_append_left hi]

theorem rethread_mem_positions (h : p.PartOf r g) (hq : q ∈ p.positions) :
    q.rethread g ∈ r.positions := by
  obtain ⟨t, i, u, th, rest, -, hu, -, hth, hi⟩ := h.exists_thread hq
  refine mem_positions_iff_exists.2 ⟨u, i, th ++ rest, hu, hth, ?_⟩
  rw [List.length_append]
  omega

/-- A part stores nothing that the whole does not. -/
theorem storesFit (h : p.PartOf r g) (hv : r.storesFit = true) : p.storesFit = true := by
  rw [Program.storesFit, List.all_eq_true] at hv ⊢
  intro i hi
  obtain ⟨q, hq, hget⟩ := mem_flatten_iff.1 hi
  exact hv i (mem_flatten_of_get? ((h.get?_rethread hq).trans hget))

/-- A part has all that comes before its instructions in their threads. -/
theorem exists_of_index_lt (h : p.PartOf r g) (hq : q ∈ p.positions) (ha : a ∈ r.positions)
    (ht : a.thread = g q.thread) (hlt : a.index < q.index) :
    ∃ b ∈ p.positions, b.rethread g = a ∧ b.thread = q.thread := by
  obtain ⟨t, i, u, th, rest, rfl, hu, hth, hth', hi⟩ := h.exists_thread hq
  obtain ⟨u', j, th₁, rfl, -, -⟩ := mem_positions_iff_exists.1 ha
  have hg : g t = u := congrArg Position.thread hu
  obtain rfl : u' = u := Int.natCast_inj.1 (ht.trans hg)
  have hj : j < th.length := (Int.ofNat_lt.1 hlt).trans hi
  refine ⟨⟨t, j⟩, mem_positions_iff_exists.2 ⟨t, j, th, rfl, hth, hj⟩, ?_, rfl⟩
  rw [Position.rethread, hg]

theorem filter_loads_rethread (h : p.PartOf r g) :
    ((p.positions.map (Position.rethread g)).filter fun a ↦ (r.get? a).any (·.isLoad)) =
      p.loads.map (Position.rethread g) := by
  rw [List.filter_map, loads]
  refine congrArg _ (List.filter_congr fun b hb ↦ ?_)
  rw [Function.comp_apply, h.get?_rethread hb]

/-- The part stores to its own variables only. -/
theorem storedAt_rethread (h : p.PartOf r g) (hb : b ∈ p.positions) (hx : x ∉ p.names) :
    r.storedAt x (b.rethread g) = none := by
  refine storedAt_eq_none.2 fun v hv ↦ hx ?_
  rw [h.get?_rethread hb] at hv
  exact mem_names_of_get? hv

/-! ### What may run next -/

/-- **The part waits for the same.** Who has to wait is decided by two instructions of one thread.
-/
theorem precedes_rethread (h : p.PartOf r g) (ha : a ∈ p.positions) (hb : b ∈ p.positions) :
    r.precedes md (a.rethread g) (b.rethread g) = p.precedes md a b := by
  rw [Bool.eq_iff_iff, precedes_iff, precedes_iff, h.get?_rethread ha, h.get?_rethread hb]
  show g a.thread = g b.thread ∧ _ ↔ _
  rw [h.injective.eq_iff]
  exact Iff.rfl

/-- **A part waits for nothing outside of it.** -/
theorem ready_rethread (h : p.PartOf r g) (hq : q ∈ p.positions)
    (hdone : ∀ b ∈ p.positions, b.rethread g ∈ done ↔ b ∈ done') :
    r.ready md done (q.rethread g) = p.ready md done' q := by
  rw [Bool.eq_iff_iff, ready_iff, ready_iff, hdone q hq]
  refine and_congr_right fun _ ↦ ⟨fun hwait b hb hpre ↦ ?_, fun hwait a ha hpre ↦ ?_⟩
  · rw [← h.precedes_rethread hb hq] at hpre
    exact (hdone b hb).1 (hwait _ (h.rethread_mem_positions hb) hpre)
  · obtain ⟨ht, hlt, -⟩ := precedes_iff.1 hpre
    obtain ⟨b, hb, rfl, -⟩ := h.exists_of_index_lt hq ha ht hlt
    rw [h.precedes_rethread hb hq] at hpre
    exact (hdone b hb).2 (hwait b hb hpre)

/-- The earlier stores of its thread to its variable are those in the part. -/
theorem ownStores_rethread (h : p.PartOf r g) (hq : q ∈ p.positions) :
    r.ownStores (q.rethread g) = (p.ownStores q).map (Position.rethread g) := by
  refine eq_of_increasing (r.ownStores_sorted _) ?_ fun a ↦ ?_
  · rw [List.pairwise_map]
    refine (p.ownStores_sorted q).imp_of_mem fun {a b} ha hb hlt ↦ ?_
    -- both are in the thread of `q`, so the order is that of their places
    have hthread : a.thread = b.thread :=
      (mem_ownStores.1 ha).2.1.trans (mem_ownStores.1 hb).2.1.symm
    have hindex : a.index < b.index := by
      rw [Position.lt_iff] at hlt
      omega
    exact Or.inr ⟨congrArg g hthread, hindex⟩
  · rw [mem_ownStores, List.mem_map, h.get?_rethread hq]
    constructor
    · rintro ⟨ha, ht, hlt, i, v, hi, hv⟩
      obtain ⟨b, hb, rfl, hbt⟩ := h.exists_of_index_lt hq ha ht hlt
      rw [h.get?_rethread hb] at hv
      exact ⟨b, mem_ownStores.2 ⟨hb, hbt, hlt, i, v, hi, hv⟩, rfl⟩
    · rintro ⟨b, hb, rfl⟩
      obtain ⟨hb, ht, hlt, i, v, hi, hv⟩ := mem_ownStores.1 hb
      refine ⟨h.rethread_mem_positions hb, congrArg g ht, hlt, i, v, hi, ?_⟩
      rw [h.get?_rethread hb, hv]

/-- A load of the part forwards the same, since what it forwards stands before it. -/
theorem forwarded_rethread (h : p.PartOf r g) (hq : q ∈ p.positions) :
    r.forwarded (q.rethread g) = p.forwarded q := by
  rw [forwarded, forwarded, h.ownStores_rethread hq, List.getLast?_map]
  cases hlast : (p.ownStores q).getLast? with
  | none => rfl
  | some b =>
    have hb : b ∈ p.positions := (mem_ownStores.1 (List.mem_of_getLast? hlast)).1
    rw [Option.map_some, Option.bind_some, Option.bind_some, h.get?_rethread hb]

/-- So the same sources are open to it, if of the part the same has run. -/
theorem sourcesAfter_rethread (h : p.PartOf r g) (hq : q ∈ p.positions)
    (hdone : ∀ b ∈ p.positions, b.rethread g ∈ done ↔ b ∈ done') :
    r.sourcesAfter s done (q.rethread g) = p.sourcesAfter s done' q := by
  have hrun : (r.ownStores (q.rethread g) = [] ∨ ∃ a ∈ r.ownStores (q.rethread g), a ∈ done) ↔
      (p.ownStores q = [] ∨ ∃ b ∈ p.ownStores q, b ∈ done') := by
    rw [h.ownStores_rethread hq, List.map_eq_nil_iff]
    simp only [List.mem_map, exists_exists_and_eq_and]
    refine or_congr_right (exists_congr fun b ↦ and_congr_right fun hb ↦ ?_)
    exact hdone b (mem_ownStores.1 hb).1
  simp only [sourcesAfter, h.get?_rethread hq, hrun]

/-- **The moves of a part are the moves of the program in its threads.** -/
theorem mem_moves (h : p.PartOf r g) (hm : m.position ∈ p.positions)
    (hdone : ∀ b ∈ p.positions, b.rethread g ∈ done ↔ b ∈ done') :
    m.rethread g ∈ r.moves s done ↔ m ∈ p.moves s done' := by
  rw [Program.mem_moves, Program.mem_moves, Move.position_rethread, Move.source_rethread,
    h.ready_rethread hm hdone, h.sourcesAfter_rethread hm hdone]
  exact and_congr_left fun _ ↦ iff_of_true (h.rethread_mem_positions hm) hm

end PartOf

/-! ### What a part does -/

/-- **An image of a program shows that of a part of it**: the variables of the part have the same
values, and its loads have seen the same. -/
structure Shows (p : Program) (g : ℤ → ℤ) (G H : Image) : Prop where
  /-- The variables of the part. -/
  memory : ∀ x ∈ p.names, G.memory x = H.memory x
  /-- What its loads have seen. -/
  seen : ∀ q ∈ p.positions, G.seen (q.rethread g) = H.seen q

/-- In the beginning both images are zero. -/
theorem shows_zero (p : Program) (g : ℤ → ℤ) : p.Shows g .zero .zero :=
  ⟨fun _ _ ↦ rfl, fun _ _ ↦ rfl⟩

namespace Shows

/-- A move has the same value in the whole as in the part. -/
theorem valueOf_rethread (h : p.Shows g G H) (hp : p.PartOf r g) (hm : m.position ∈ p.positions) :
    r.valueOf G (m.rethread g) = p.valueOf H m := by
  obtain ⟨i, hi⟩ := exists_get? hm
  have hi' : r.get? (m.rethread g).position = some i := (hp.get?_rethread hm).trans hi
  cases i with
  | store x v => rw [valueOf_store hi, valueOf_store hi']
  | load x =>
    rw [valueOf_load hi, valueOf_load hi', Move.source_rethread, Move.position_rethread,
      hp.forwarded_rethread hm, h.memory x (mem_names_of_get? hi)]

/-- **A move inside a part has the same effect on the part and on the program.** -/
theorem apply_part (h : p.Shows g G H) (hp : p.PartOf r g) (hm : m.position ∈ p.positions) :
    p.Shows g (r.apply G (m.rethread g)) (p.apply H m) := by
  obtain ⟨i, hi⟩ := exists_get? hm
  have hi' : r.get? (m.rethread g).position = some i := (hp.get?_rethread hm).trans hi
  cases i with
  | store x v =>
    rw [apply_store hi, apply_store hi']
    refine ⟨fun y hy ↦ ?_, h.seen⟩
    show Function.update G.memory x v y = Function.update H.memory x v y
    by_cases hyx : y = x
    · rw [hyx, Function.update_self, Function.update_self]
    · rw [Function.update_of_ne hyx, Function.update_of_ne hyx, h.memory y hy]
  | load x =>
    rw [apply_load hi, apply_load hi', h.valueOf_rethread hp hm]
    refine ⟨h.memory, fun q hq ↦ ?_⟩
    show Function.update G.seen _ _ _ = Function.update H.seen _ _ _
    by_cases hqm : q = m.position
    · rw [hqm, Function.update_self, Move.position_rethread, Function.update_self]
    · -- different positions of the part stay different in the whole
      have hne : q.rethread g ≠ (m.rethread g).position :=
        fun heq ↦ hqm (Position.rethread_injective hp.injective heq)
      rw [Function.update_of_ne hqm, Function.update_of_ne hne, h.seen q hq]

/-- **A move outside a part has no effect on it**, if it does not store to one of its variables. -/
theorem apply_other (h : p.Shows g G H) (hm : ∀ b ∈ p.positions, b.rethread g ≠ m.position)
    (hstore : ∀ x ∈ p.names, r.storedAt x m.position = none) : p.Shows g (r.apply G m) H where
  memory x hx := by rw [memory_apply, hstore x hx, Option.getD_none, h.memory x hx]
  seen b hb := by
    have hnot : b.rethread g ∉ Schedule.order [m] := by simpa using hm b hb
    exact (seen_foldl_of_not_mem (σ := [m]) G hnot).trans (h.seen b hb)

/-- The outcome of a part can be read off the image of the program. -/
theorem rethread_outcomeOf (h : p.Shows g G H) (hp : p.PartOf r g) :
    (p.outcomeOf H).rethread g = ⟨p.names.map fun x ↦ (x, G.memory x),
      (p.loads.map (Position.rethread g)).filterMap fun a ↦
        (r.get? a).map fun i ↦ ⟨a, i.name, G.seen a⟩⟩ := by
  rw [Outcome.rethread, outcomeOf, List.filterMap_map, List.map_filterMap]
  congr 1
  · exact List.map_congr_left fun x hx ↦ by rw [h.memory x hx]
  · refine List.filterMap_congr fun b hb ↦ ?_
    have hb : b ∈ p.positions := (mem_loads.1 hb).1
    rw [Function.comp_apply, hp.get?_rethread hb, h.seen b hb, Option.map_map]
    rfl

end Shows

/-! ### Whole schedules -/

/-- No instruction outside of the part stores to a variable of the part. -/
def Undisturbed (p r : Program) (g : ℤ → ℤ) : Prop :=
  ∀ a ∈ r.positions, (∀ b ∈ p.positions, b.rethread g ≠ a) →
    ∀ x ∈ p.names, r.storedAt x a = none

/-- **The schedule `σ` of a part is what is left of the schedule `ρ`** when the moves outside of the
part are dropped. -/
inductive Restricts (p : Program) (g : ℤ → ℤ) : Schedule → Schedule → Prop
  /-- Nothing has run. -/
  | nil : Restricts p g [] []
  /-- The part makes a move. -/
  | inside {σ ρ : Schedule} {m : Move} (h : Restricts p g σ ρ) (hm : m.position ∈ p.positions) :
    Restricts p g (σ ++ [m]) (ρ ++ [m.rethread g])
  /-- Another thread makes a move. -/
  | outside {σ ρ : Schedule} {m : Move} (h : Restricts p g σ ρ)
    (hm : ∀ b ∈ p.positions, b.rethread g ≠ m.position) : Restricts p g σ (ρ ++ [m])

/-- Every schedule leaves one for a part. -/
theorem exists_restricts (p : Program) (g : ℤ → ℤ) (ρ : Schedule) : ∃ σ, p.Restricts g σ ρ := by
  induction ρ using List.reverseRecOn with
  | nil => exact ⟨[], .nil⟩
  | append_singleton ρ m ih =>
    obtain ⟨σ, hσ⟩ := ih
    by_cases hm : ∃ b ∈ p.positions, b.rethread g = m.position
    · obtain ⟨b, hb, hbm⟩ := hm
      have hinside := hσ.inside (m := ⟨b, m.source⟩) hb
      rw [Move.rethread, hbm] at hinside
      exact ⟨_, hinside⟩
    · exact ⟨σ, hσ.outside fun b hb hbm ↦ hm ⟨b, hb, hbm⟩⟩

namespace Restricts

/-- Of the part, the same has run in the whole. -/
theorem mem_order (h : p.Restricts g σ ρ) (hg : Function.Injective g) (hb : b ∈ p.positions) :
    b.rethread g ∈ ρ.order ↔ b ∈ σ.order := by
  induction h with
  | nil => exact iff_of_false List.not_mem_nil List.not_mem_nil
  | inside _ _ ih =>
    rw [Schedule.order_snoc, Schedule.order_snoc, List.mem_append, List.mem_append, ih,
      List.mem_singleton, List.mem_singleton, Move.position_rethread,
      (Position.rethread_injective hg).eq_iff]
  | outside _ hm ih =>
    rw [Schedule.order_snoc, List.mem_append, ih, List.mem_singleton]
    exact or_iff_left (hm b hb)

/-- Each move of the part was possible when it was made. -/
theorem admits (h : p.Restricts g σ ρ) (hp : p.PartOf r g) (hρ : r.Admits s ρ) :
    p.Admits s σ := by
  induction h with
  | nil => exact .nil
  | inside h hm ih =>
    obtain ⟨hρ, hmove⟩ := admits_snoc.1 hρ
    exact (ih hρ).snoc ((hp.mem_moves hm fun b hb ↦ h.mem_order hp.injective hb).1 hmove)
  | outside _ _ ih => exact ih (admits_snoc.1 hρ).1

/-- **A complete run of a program is a complete run of its parts.** -/
theorem legal (h : p.Restricts g σ ρ) (hp : p.PartOf r g) (hρ : r.Legal s ρ) : p.Legal s σ := by
  refine (h.admits hp hρ.admits).legal_of_forall_mem fun b hb ↦ ?_
  exact (h.mem_order hp.injective hb).1 (hρ.perm.symm.subset (hp.rethread_mem_positions hb))

/-- **An undisturbed part does what it does alone.** -/
theorem shows (h : p.Restricts g σ ρ) (hp : p.PartOf r g) (hu : p.Undisturbed r g)
    (hρ : ∀ a ∈ ρ.order, a ∈ r.positions) :
    p.Shows g (r.imageAfter ρ) (p.imageAfter σ) := by
  induction h with
  | nil => exact p.shows_zero g
  | inside _ hm ih =>
    rw [Schedule.order_snoc, List.forall_mem_append] at hρ
    rw [imageAfter_snoc, imageAfter_snoc]
    exact (ih hρ.1).apply_part hp hm
  | outside _ hm ih =>
    rw [Schedule.order_snoc, List.forall_mem_append, List.forall_mem_singleton] at hρ
    rw [imageAfter_snoc]
    exact (ih hρ.1).apply_other hm (hu _ hρ.2 hm)

/-- The part makes several moves one after the other. -/
theorem append_inside {τ : Schedule} (h : p.Restricts g σ ρ)
    (hτ : ∀ b ∈ τ.order, b ∈ p.positions) :
    p.Restricts g (σ ++ τ) (ρ ++ τ.map (Move.rethread g)) := by
  induction τ using List.reverseRecOn with
  | nil => simpa using h
  | append_singleton τ m ih =>
    rw [Schedule.order_snoc, List.forall_mem_append, List.forall_mem_singleton] at hτ
    rw [List.map_append, ← List.append_assoc, ← List.append_assoc]
    exact (ih hτ.1).inside hτ.2

/-- Other threads make several moves one after the other. -/
theorem append_outside {τ : Schedule} (h : p.Restricts g σ ρ)
    (hτ : ∀ a ∈ τ.order, ∀ b ∈ p.positions, b.rethread g ≠ a) : p.Restricts g σ (ρ ++ τ) := by
  induction τ using List.reverseRecOn with
  | nil => simpa using h
  | append_singleton τ m ih =>
    rw [Schedule.order_snoc, List.forall_mem_append, List.forall_mem_singleton] at hτ
    rw [← List.append_assoc]
    exact (ih hτ.1).outside hτ.2

end Restricts

/-- A schedule of the part is a schedule of the whole in which nothing else runs. -/
theorem restricts_map (hσ : ∀ b ∈ σ.order, b ∈ p.positions) :
    p.Restricts g σ (σ.map (Move.rethread g)) :=
  Restricts.nil.append_inside hσ

/-- **What a part can do alone, it can do at any time** before which it has not run. -/
theorem PartOf.admits_append (hp : p.PartOf r g) (hρ : r.Admits s ρ) (hnone : p.Restricts g [] ρ)
    (hσ : p.Admits s σ) : r.Admits s (ρ ++ σ.map (Move.rethread g)) := by
  induction hσ with
  | nil => simpa using hρ
  | snoc hσ hm ih =>
    rw [List.map_append, ← List.append_assoc]
    refine ih.snoc ((hp.mem_moves (Program.mem_moves.1 hm).1 fun b hb ↦ ?_).2 hm)
    exact (hnone.append_inside hσ.subset).mem_order hp.injective hb

end Program

end Litmus

import Litmus.Proofs.Continuation
import Litmus.Proofs.Keys

/-!
# Memory holds the last store

What a variable holds after a schedule depends on the order of the schedule alone: it is the value
of the last store to it, and zero if there is none (`Program.memory_imageAfter`).

In all settings the stores of a thread keep their order. So the last store of all to a variable is
the last one of its thread. Conversely every thread can be the last one: let all other threads run
before it. This gives the values that a variable can have in the end
(`Program.explore_finalValues`).
-/

namespace Litmus

/-! ### The last one in a list -/

/-- The last value that a partial function has on a list is that of a member behind which it has
none. -/
theorem getLast?_filterMap_eq_some {α β : Type} {f : α → Option β} {l : List α} {b : β} :
    (l.filterMap f).getLast? = some b ↔
      ∃ l₁ a l₂, l = l₁ ++ a :: l₂ ∧ f a = some b ∧ ∀ c ∈ l₂, f c = none := by
  rw [List.getLast?_filterMap, List.findSome?_eq_some_iff]
  constructor
  · rintro ⟨l₂, a, l₁, hl, ha, hnone⟩
    refine ⟨l₁.reverse, a, l₂.reverse, ?_, ha, fun c hc ↦ hnone c (List.mem_reverse.1 hc)⟩
    rw [← List.reverse_reverse l, hl]
    simp
  · rintro ⟨l₁, a, l₂, rfl, ha, hnone⟩
    exact ⟨l₂.reverse, a, l₁.reverse, by simp, ha, fun c hc ↦ hnone c (List.mem_reverse.1 hc)⟩

/-- The same by places. -/
theorem getLast?_filterMap_eq_some_iff_getElem? {α β : Type} {f : α → Option β} {l : List α}
    {b : β} : (l.filterMap f).getLast? = some b ↔
      ∃ i : ℕ, l[i]?.bind f = some b ∧ ∀ j, i < j → l[j]?.bind f = none := by
  rw [getLast?_filterMap_eq_some]
  constructor
  · rintro ⟨l₁, a, l₂, rfl, ha, hnone⟩
    refine ⟨l₁.length, by simpa using ha, fun j hj ↦ ?_⟩
    obtain ⟨k, rfl⟩ : ∃ k, j = l₁.length + (k + 1) := ⟨j - l₁.length - 1, by omega⟩
    rw [List.getElem?_append_right (by omega), Nat.add_sub_cancel_left, List.getElem?_cons_succ,
      Option.bind_eq_none_iff]
    exact fun c hc ↦ hnone c (List.mem_of_getElem? hc)
  · rintro ⟨i, hi, hnone⟩
    obtain ⟨a, ha, hb⟩ := Option.bind_eq_some_iff.1 hi
    obtain ⟨hlt, rfl⟩ := List.getElem?_eq_some_iff.1 ha
    refine ⟨l.take i, l[i], l.drop (i + 1), ?_, hb, fun c hc ↦ ?_⟩
    · rw [← List.drop_eq_getElem_cons hlt, List.take_append_drop]
    · obtain ⟨k, hk⟩ := List.mem_iff_getElem?.1 hc
      rw [List.getElem?_drop] at hk
      exact Option.bind_eq_none_iff.1 (hnone (i + 1 + k) (by omega)) c hk

/-! ### What a position stores in a variable -/

/-- The value that an instruction stores in the variable `x`, if it stores one. -/
def Instruction.storedIn (x : String) : Instruction → Option Int
  | load _ => none
  | store y v => if y = x then some v else none

theorem Instruction.storedIn_eq_some {i : Instruction} {x : String} {v : Int} :
    i.storedIn x = some v ↔ i = .store x v := by
  cases i with
  | load y => simp [storedIn]
  | store y w =>
    rw [storedIn, Option.ite_none_right_eq_some]
    simp

namespace Program

variable {p : Program} {s : Setting} {σ : Schedule} {q : Position} {t i : ℕ} {x : String} {v : Int}

/-- The value that the instruction at a position stores in the variable `x`, if it stores one. -/
def storedAt (p : Program) (x : String) (q : Position) : Option Int :=
  (p.get? q).bind (·.storedIn x)

theorem storedAt_eq_some : p.storedAt x q = some v ↔ p.get? q = some (.store x v) := by
  rw [storedAt, Option.bind_eq_some_iff]
  constructor
  · rintro ⟨i, hi, hv⟩
    rw [hi, Instruction.storedIn_eq_some.1 hv]
  · intro h
    exact ⟨_, h, Instruction.storedIn_eq_some.2 rfl⟩

theorem storedAt_eq_none : p.storedAt x q = none ↔ ∀ v, p.get? q ≠ some (.store x v) := by
  rw [Option.eq_none_iff_forall_ne_some]
  exact forall_congr' fun v ↦ not_congr storedAt_eq_some

/-- A load stores nothing. -/
theorem storedAt_load {y : String} (h : p.get? q = some (.load y)) : p.storedAt x q = none := by
  rw [storedAt, h]
  rfl

/-- A thread that there is not stores nothing. -/
theorem storedAt_natCast (p : Program) (x : String) (t i : ℕ) :
    p.storedAt x ⟨t, i⟩ = (p.threads[t]?.getD [])[i]?.bind (·.storedIn x) := by
  rw [storedAt, get?_natCast]
  cases p.threads[t]? with
  | none => rfl
  | some th => rfl

theorem mem_positions_of_storedAt (h : p.storedAt x ⟨t, i⟩ = some v) :
    (⟨t, i⟩ : Position) ∈ p.positions :=
  mem_positions_of_get?_natCast (storedAt_eq_some.1 h)

/-- One instruction changes what a variable holds if it is a store to it. -/
theorem memory_effect (p : Program) (g : Image) (q : Position) (v : Int) (x : String) :
    (p.effect g q v).memory x = (p.storedAt x q).getD (g.memory x) := by
  cases hq : p.get? q with
  | none => simp [effect, storedAt, hq]
  | some i =>
    cases i with
    | load y => simp [effect_load hq, storedAt_load hq]
    | store y u =>
      rw [effect_store hq, storedAt, hq, Option.bind_some, Instruction.storedIn]
      by_cases hy : y = x
      · subst hy
        simp
      · simp [hy, Function.update_of_ne (Ne.symm hy)]

/-- A move changes a variable only if it stores there. -/
theorem memory_apply (p : Program) (g : Image) (m : Move) (x : String) :
    (p.apply g m).memory x = (p.storedAt x m.position).getD (g.memory x) := by
  rw [← effect_valueOf, memory_effect]

/-- **A variable holds the value of the last store to it, and zero if there is none.** -/
theorem memory_imageAfter (p : Program) (σ : Schedule) (x : String) :
    (p.imageAfter σ).memory x = (σ.order.filterMap (p.storedAt x)).getLast?.getD 0 := by
  induction σ using List.reverseRecOn with
  | nil => rfl
  | append_singleton σ m ih =>
    rw [imageAfter_snoc, memory_apply, ih, Schedule.order_snoc, List.filterMap_append]
    cases hm : p.storedAt x m.position with
    | none => simp [hm]
    | some v => simp [hm]

/-- A variable to which nothing has been stored is zero. -/
theorem memory_of_forall_none (h : ∀ q ∈ σ.order, p.storedAt x q = none) :
    (p.imageAfter σ).memory x = 0 := by
  rw [memory_imageAfter, List.filterMap_eq_nil_iff.2 h]
  rfl

/-- If the last part of a schedule is a burst, a store in it with no other behind it is the one that
memory holds. -/
theorem memory_of_last {D : Position → Bool} {done : List Position}
    (horder : σ.order = done ++ p.positions.filter D) (hq : q ∈ p.positions) (hD : D q = true)
    (hv : p.get? q = some (.store x v))
    (hlast : ∀ r ∈ p.positions, D r = true → q < r → p.storedAt x r = none) :
    (p.imageAfter σ).memory x = v := by
  -- what runs behind the store in the burst also stands behind it
  obtain ⟨l₁, l₂, hsplit⟩ := List.append_of_mem (List.mem_filter.2 ⟨hq, hD⟩)
  have hsorted : (l₁ ++ q :: l₂).Pairwise (· < ·) := hsplit ▸ p.positions_sorted.filter D
  have hbehind : ∀ r ∈ l₂, p.storedAt x r = none := by
    intro r hr
    have hmem : r ∈ p.positions.filter D :=
      hsplit ▸ List.mem_append_right l₁ (List.mem_cons_of_mem q hr)
    obtain ⟨hpos, hDr⟩ := List.mem_filter.1 hmem
    exact hlast r hpos hDr (List.rel_of_pairwise_cons (List.pairwise_append.1 hsorted).2.1 hr)
  have hlast? : (σ.order.filterMap (p.storedAt x)).getLast? = some v := by
    refine getLast?_filterMap_eq_some.2
      ⟨done ++ l₁, q, l₂, ?_, storedAt_eq_some.2 hv, hbehind⟩
    rw [horder, hsplit, List.append_assoc]
  rw [memory_imageAfter, hlast?]
  rfl

/-- **What a variable holds was stored by a position behind which its thread has stored nothing
else**, or it is zero and nothing was stored. -/
theorem Admits.memory_cases (h : p.Admits s σ) (x : String) :
    ((p.imageAfter σ).memory x = 0 ∧ ∀ q ∈ σ.order, p.storedAt x q = none) ∨
      ∃ t i : ℕ, (⟨t, i⟩ ∈ σ.order ∧ p.storedAt x ⟨t, i⟩ = some ((p.imageAfter σ).memory x)) ∧
        ∀ j, i < j → ⟨t, j⟩ ∈ σ.order → p.storedAt x ⟨t, j⟩ = none := by
  rw [memory_imageAfter]
  cases hlast : (σ.order.filterMap (p.storedAt x)).getLast? with
  | none => exact Or.inl ⟨rfl, List.filterMap_eq_nil_iff.1 (List.getLast?_eq_none_iff.1 hlast)⟩
  | some v =>
    obtain ⟨l₁, q, l₂, hsplit, hstore, hnone⟩ := getLast?_filterMap_eq_some.1 hlast
    have hmem : q ∈ σ.order := hsplit ▸ List.mem_append_right l₁ List.mem_cons_self
    obtain ⟨t, i, th, rfl, -, -⟩ := mem_positions_iff_exists.1 (h.subset q hmem)
    refine Or.inr ⟨t, i, ⟨hmem, hstore⟩, fun j hj hrun ↦ ?_⟩
    by_contra hne
    obtain ⟨w, hw⟩ := Option.ne_none_iff_exists'.1 hne
    -- a later store of the thread runs later, so it is not the one that memory holds
    have hpre := precedes_of_store s.model (storedAt_eq_some.1 hw)
      (mem_positions_of_storedAt hstore) rfl (Int.ofNat_lt.2 hj)
    have hordered := h.ordered
    rw [hsplit, List.pairwise_append] at hordered
    rw [hsplit, List.mem_append, List.mem_cons] at hrun
    rcases hrun with hrun | heq | hrun
    · rw [hordered.2.2 _ hrun _ List.mem_cons_self] at hpre
      cases hpre
    · have hji := (Position.natCast_inj.1 heq).2
      omega
    · exact hne (hnone _ hrun)

/-! ### Final values -/

/-- The last value that a thread stores in the variable `x`. -/
def lastStored? (x : String) (th : List Instruction) : Option Int :=
  (th.filterMap (·.storedIn x)).getLast?

/-- The values that a variable can have in the end: the last value that each thread stores in it, or
zero if no thread stores one. -/
def finalValues (p : Program) (x : String) : List Int :=
  if p.threads.flatten.any (·.storesTo x) then p.threads.filterMap (lastStored? x) else [0]

/-- The thread stores `v` in `x` at the place, and nothing behind it. -/
structure IsLastStore (p : Program) (x : String) (t i : ℕ) (v : Int) : Prop where
  /-- The store. -/
  store : p.storedAt x ⟨t, i⟩ = some v
  /-- Nothing is stored later. -/
  last : ∀ j, i < j → p.storedAt x ⟨t, j⟩ = none

/-- The last values stored in a variable are those of the last stores of the threads. -/
theorem mem_lastStored :
    v ∈ p.threads.filterMap (lastStored? x) ↔ ∃ t i, p.IsLastStore x t i v := by
  rw [List.mem_filterMap]
  constructor
  · rintro ⟨th, hth, hlast⟩
    obtain ⟨t, ht⟩ := List.mem_iff_getElem?.1 hth
    have hth' : p.threads[t]?.getD [] = th := by rw [ht, Option.getD_some]
    obtain ⟨i, hi, hnone⟩ := getLast?_filterMap_eq_some_iff_getElem?.1 hlast
    refine ⟨t, i, ?_, fun j hj ↦ ?_⟩
    · rw [storedAt_natCast, hth', hi]
    · rw [storedAt_natCast, hth', hnone j hj]
  · rintro ⟨t, i, hstore, hnone⟩
    obtain ⟨th, ht, -⟩ := Option.bind_eq_some_iff.1
      ((p.get?_natCast t i).symm.trans (storedAt_eq_some.1 hstore))
    have hth : p.threads[t]?.getD [] = th := by rw [ht, Option.getD_some]
    refine ⟨th, List.mem_of_getElem? ht, getLast?_filterMap_eq_some_iff_getElem?.2 ⟨i, ?_, ?_⟩⟩
    · rw [← hth, ← storedAt_natCast, hstore]
    · intro j hj
      rw [← hth, ← storedAt_natCast, hnone j hj]

/-- Whether anything is stored in a variable can be seen from its instructions alone. -/
theorem any_storesTo_iff : p.threads.flatten.any (·.storesTo x) = true ↔
    ∃ q ∈ p.positions, ∃ v, p.get? q = some (.store x v) := by
  rw [List.any_eq_true]
  constructor
  · rintro ⟨j, hj, hst⟩
    obtain ⟨v, rfl⟩ := Instruction.storesTo_iff.1 hst
    obtain ⟨q, hq, hget⟩ := mem_flatten_iff.1 hj
    exact ⟨q, hq, v, hget⟩
  · rintro ⟨q, -, v, hget⟩
    exact ⟨_, mem_flatten_of_get? hget, Instruction.storesTo_iff.2 ⟨v, rfl⟩⟩

/-- **In the end a variable holds a value that some thread stored last.** -/
theorem Legal.memory_mem_finalValues (h : p.Legal s σ) (x : String) :
    (p.imageAfter σ).memory x ∈ p.finalValues x := by
  rw [finalValues]
  rcases h.admits.memory_cases x with ⟨hzero, hnone⟩ | ⟨t, i, hstore, hlast⟩
  · rw [hzero, if_neg]
    · exact List.mem_singleton.2 rfl
    · rw [any_storesTo_iff]
      rintro ⟨q, hq, v, hget⟩
      exact storedAt_eq_none.1 (hnone q (h.perm.symm.subset hq)) v hget
  · have hget := storedAt_eq_some.1 hstore.2
    rw [if_pos (any_storesTo_iff.2 ⟨_, mem_positions_of_storedAt hstore.2, _, hget⟩)]
    refine mem_lastStored.2 ⟨t, i, hstore.2, fun j hj ↦ ?_⟩
    by_contra hne
    obtain ⟨w, hw⟩ := Option.ne_none_iff_exists'.1 hne
    exact hne (hlast j hj (h.perm.symm.subset (mem_positions_of_storedAt hw)))

/-- Any thread can run after all others, in program order. -/
theorem exists_legal_thread_last (p : Program) (s : Setting) (t : Int) :
    ∃ σ, p.Legal s σ ∧ σ.order = p.positions.filter (fun q ↦ q.thread != t) ++
      p.positions.filter fun q ↦ q.thread == t := by
  -- first all other threads, then thread `t`, each in program order
  obtain ⟨σ, hσ, hadm⟩ := Admits.nil.exists_burst_of_lower (p := p) (s := s)
    (fun q ↦ q.thread != t) (fun q hq ↦ by cases hq) fun q r ht _ hD ↦ by simpa [ht] using hD
  rw [List.nil_append] at hadm
  have hnew : ∀ q ∈ σ.order, (q.thread == t) = false := by
    intro q hq
    rw [hσ, List.mem_filter] at hq
    simpa using hq.2
  obtain ⟨τ, hτ, hadm'⟩ := hadm.exists_burst_of_lower (fun q ↦ q.thread == t) hnew
    fun q r ht _ hD ↦ by simpa [ht] using hD
  have horder : Schedule.order (σ ++ τ) = p.positions.filter (fun q ↦ q.thread != t) ++
      p.positions.filter fun q ↦ q.thread == t := by rw [Schedule.order_append, hσ, hτ]
  refine ⟨σ ++ τ, hadm'.legal_of_forall_mem fun q hq ↦ ?_, horder⟩
  rw [horder, List.mem_append, List.mem_filter, List.mem_filter]
  by_cases ht : q.thread = t
  · exact Or.inr ⟨hq, by simpa using ht⟩
  · exact Or.inl ⟨hq, by simpa using ht⟩

/-- **Every thread can be the last one to store.** -/
theorem exists_legal_of_mem_finalValues (s : Setting) (hv : v ∈ p.finalValues x) :
    ∃ σ, p.Legal s σ ∧ (p.imageAfter σ).memory x = v := by
  rw [finalValues] at hv
  split at hv
  · obtain ⟨t, i, hstore, hlast⟩ := mem_lastStored.1 hv
    have hget := storedAt_eq_some.1 hstore
    obtain ⟨σ, hσ, horder⟩ := p.exists_legal_thread_last s t
    refine ⟨σ, hσ, memory_of_last horder (mem_positions_of_storedAt hstore) (by simp) hget
      fun r hr ht hlt ↦ ?_⟩
    obtain ⟨u, j, th, rfl, -, -⟩ := mem_positions_iff_exists.1 hr
    obtain rfl : u = t := by simpa using ht
    have hij : i < j := by
      rw [Position.lt_iff] at hlt
      simpa using hlt
    exact hlast j hij
  · rename_i hnone
    obtain rfl := List.mem_singleton.1 hv
    obtain ⟨σ, hσ⟩ := Admits.nil.exists_legal (p := p) (s := s)
    refine ⟨_, hσ, memory_of_forall_none fun q hq ↦ storedAt_eq_none.2 fun v hget ↦ hnone ?_⟩
    exact any_storesTo_iff.2 ⟨q, hσ.perm.subset hq, v, hget⟩

/-- The memory of an outcome lists the value of each variable. -/
theorem mem_memory_outcomeOf {g : Image} (hx : x ∈ p.names) :
    (x, v) ∈ (p.outcomeOf g).memory ↔ g.memory x = v := by
  rw [outcomeOf, List.mem_map]
  constructor
  · rintro ⟨y, -, heq⟩
    obtain ⟨rfl, rfl⟩ := Prod.mk.inj heq
    rfl
  · rintro rfl
    exact ⟨x, hx, rfl⟩

/-- **The values that a variable has in the outcomes of a program are, in all settings, the last
ones that its threads store in it**, or zero alone if nothing is stored in it. -/
theorem explore_finalValues (p : Program) (s : Setting) (limits : Limits)
    (hc : p.check limits = .ok ()) (hv : p.storesFit = true) (x : String) (hx : x ∈ p.names) :
    ∃ f, p.explore s limits = .ok f ∧
      ∀ v, (∃ o ∈ f.outcomes, (x, v) ∈ o.memory) ↔ v ∈ p.finalValues x := by
  refine ⟨_, explore_of_storesFit hc hv, fun v ↦ ?_⟩
  constructor
  · rintro ⟨o, ho, hmem⟩
    obtain ⟨σ, hσ, rfl⟩ := mem_outcomes_findings.1 ho
    rw [outcomeAfter, mem_memory_outcomeOf hx] at hmem
    exact hmem ▸ hσ.memory_mem_finalValues x
  · intro hmem
    obtain ⟨σ, hσ, hvalue⟩ := exists_legal_of_mem_finalValues s hmem
    exact ⟨_, mem_outcomes_findings.2 ⟨σ, hσ, rfl⟩, (mem_memory_outcomeOf hx).2 hvalue⟩

/-- Both threads store to `x`, the first one twice; nothing is stored in `z`. -/
def overwriting : Program where
  threads := [[.store "x" 1, .store "x" 2, .load "z"], [.store "x" 3]]
  flatten_ne_nil := by decide

theorem overwriting_finalValues :
    overwriting.check .standard = .ok () ∧ overwriting.storesFit = true ∧ "x" ∈ overwriting.names ∧
      ∃ f, overwriting.explore { model := .tso } .standard = .ok f ∧
        ∀ v, (∃ o ∈ f.outcomes, ("x", v) ∈ o.memory) ↔ v ∈ [2, 3] :=
  ⟨rfl, by decide, by decide,
    explore_finalValues overwriting _ .standard rfl (by decide) "x" (by decide)⟩

end Program

end Litmus

import Litmus.PositionSet
import Litmus.Program
import Mathlib.Data.List.Nodup

/-!
# The positions of a program

A position of a program is a pair of natural numbers that leads to an instruction. Everything that
is said about runs is said in terms of `Program.positions`, so this module collects what has to be
known about that list: which positions it has (`Program.mem_positions`), that it lists them in
strictly increasing order (`Program.positions_sorted`), and that every look-up at one of them
succeeds.

The earlier stores of a thread to the variable of an instruction are listed twice: by
`Program.storesBefore`, which looks them up in the thread from the end, and here by
`Program.ownStores`, which picks them out of all positions. The two lists are each other's reverse
(`Program.storesBefore_eq`), and what runs on the first can be reasoned about on the second.
-/

namespace Litmus

/-- What is in increasing order has no duplicates. -/
theorem Position.nodup_of_sorted {l : List Position} (h : l.Pairwise (· < ·)) : l.Nodup := by
  refine h.imp ?_
  rintro q r hlt rfl
  exact Position.lt_irrefl q hlt

/-- A set with one more member lists it beside those that it had. -/
theorem PositionSet.perm_add {s : PositionSet} {q : Position} (h : q ∉ s) :
    (s.add q).toList.Perm (q :: s.toList) := by
  have hnodup : (q :: s.toList).Nodup :=
    List.nodup_cons.2 ⟨h, Position.nodup_of_sorted s.increasing⟩
  rw [List.perm_ext_iff_of_nodup (Position.nodup_of_sorted (s.add q).increasing) hnodup]
  intro r
  rw [List.mem_cons]
  exact mem_add

theorem Position.natCast_inj {t i u j : ℕ} :
    (⟨t, i⟩ : Position) = ⟨u, j⟩ ↔ t = u ∧ i = j := by
  rw [Position.mk.injEq, Int.natCast_inj, Int.natCast_inj]

theorem fetchNth_of_nth? {α : Type} {l : List α} {i : Int} {a : α} (h : nth? l i = some a) :
    fetchNth l i = .ok a := by
  rw [fetchNth, h]

/-- Duplicates are removed by keeping the first member and going on with the others that differ from
it. What follows this recursion holds of all lists. -/
theorem eraseDups_induction {α : Type} [BEq α] {motive : List α → Prop} (nil : motive [])
    (cons : ∀ (a : α) (l : List α), motive (l.filter fun b ↦ !b == a) → motive (a :: l))
    (l : List α) : motive l := by
  induction hn : l.length using Nat.strongRecOn generalizing l with
  | ind n ih =>
    cases l with
    | nil => exact nil
    | cons a l =>
      have hlen : (l.filter fun b ↦ !b == a).length < n := by
        rw [← hn, List.length_cons]
        exact Nat.lt_succ_of_le (List.length_filter_le _ l)
      exact cons a l (ih _ hlen _ rfl)

theorem nodup_eraseDups {α : Type} [BEq α] [LawfulBEq α] (l : List α) : l.eraseDups.Nodup := by
  induction l using eraseDups_induction with
  | nil => exact List.nodup_nil
  | cons a l ih =>
    rw [List.eraseDups_cons, List.nodup_cons]
    refine ⟨fun hmem ↦ ?_, ih⟩
    have hne := (List.mem_filter.1 (List.mem_eraseDups.1 hmem)).2
    simp at hne

theorem eraseDups_of_nodup {α : Type} [BEq α] [LawfulBEq α] {l : List α} (h : l.Nodup) :
    l.eraseDups = l := by
  induction l with
  | nil => rfl
  | cons a l ih =>
    obtain ⟨ha, hl⟩ := List.nodup_cons.1 h
    have hfilter : (l.filter fun b ↦ !b == a) = l := by
      refine List.filter_eq_self.2 fun b hb ↦ ?_
      have hne : b ≠ a := fun heq ↦ ha (heq ▸ hb)
      simpa using hne
    rw [List.eraseDups_cons, hfilter, ih hl]

theorem mem_of_nth? {α : Type} {l : List α} {i : Int} {a : α} (h : nth? l i = some a) :
    a ∈ l := by
  rw [nth?] at h
  split at h
  · exact List.mem_of_getElem? h
  · split at h
    · exact List.mem_of_getElem? h
    · cases h

theorem Instruction.storesTo_iff {i : Instruction} {x : String} :
    i.storesTo x = true ↔ ∃ v, i = .store x v := by
  cases i with
  | load y => simp [storesTo]
  | store y v => simp [storesTo]

namespace Program

variable {p : Program} {limits : Limits} {q r : Position} {t i n : ℕ} {x : String}

/-! ### Which positions there are -/

/-- For positions that are not negative, looking up an instruction is looking up twice. -/
theorem get?_natCast (p : Program) (t i : ℕ) :
    p.get? ⟨t, i⟩ = (p.threads[t]?).bind fun th ↦ th[i]? := by
  rw [get?, nth?_natCast]
  exact congrArg _ (funext fun th ↦ nth?_natCast th i)

/-- A position of a program names a thread and a place in it. -/
theorem mem_positions_iff_exists : q ∈ p.positions ↔
    ∃ (t i : ℕ) (th : List Instruction), q = ⟨t, i⟩ ∧ p.threads[t]? = some th ∧ i < th.length := by
  simp only [positions, List.mem_flatMap, List.mem_map, List.mem_range]
  constructor
  · rintro ⟨⟨th, t⟩, hth, i, hi, rfl⟩
    exact ⟨t, i, th, rfl, List.mem_zipIdx_iff_getElem?.1 hth, hi⟩
  · rintro ⟨t, i, th, rfl, hth, hi⟩
    exact ⟨(th, t), List.mem_zipIdx_iff_getElem?.2 hth, i, hi, rfl⟩

/-- **The positions of a program are those that lead to an instruction without counting from the
end.** -/
theorem mem_positions : q ∈ p.positions ↔ 0 ≤ q.thread ∧ 0 ≤ q.index ∧ (p.get? q).isSome := by
  rw [mem_positions_iff_exists]
  constructor
  · rintro ⟨t, i, th, rfl, hth, hi⟩
    refine ⟨Int.natCast_nonneg t, Int.natCast_nonneg i, ?_⟩
    rw [get?_natCast, hth, Option.bind_some, List.getElem?_eq_getElem hi, Option.isSome_some]
  · obtain ⟨t, i⟩ := q
    rintro ⟨ht, hi, hsome⟩
    lift t to ℕ using ht
    lift i to ℕ using hi
    rw [get?_natCast] at hsome
    obtain ⟨j, hj⟩ := Option.isSome_iff_exists.1 hsome
    obtain ⟨th, hth, hthi⟩ := Option.bind_eq_some_iff.1 hj
    exact ⟨t, i, th, rfl, hth, (List.getElem?_eq_some_iff.1 hthi).1⟩

theorem exists_get? (h : q ∈ p.positions) : ∃ i, p.get? q = some i :=
  Option.isSome_iff_exists.1 (mem_positions.1 h).2.2

theorem mem_positions_of_get? {i : Instruction} (ht : 0 ≤ q.thread) (hi : 0 ≤ q.index)
    (h : p.get? q = some i) : q ∈ p.positions :=
  mem_positions.2 ⟨ht, hi, Option.isSome_iff_exists.2 ⟨i, h⟩⟩

theorem mem_positions_of_get?_natCast {e : Instruction} (h : p.get? ⟨t, i⟩ = some e) :
    (⟨t, i⟩ : Position) ∈ p.positions :=
  mem_positions_of_get? (Int.natCast_nonneg t) (Int.natCast_nonneg i) h

/-- The places before a place of a thread are places of the thread. -/
theorem mem_positions_of_lt (h : (⟨t, n⟩ : Position) ∈ p.positions) (hi : i < n) :
    (⟨t, i⟩ : Position) ∈ p.positions := by
  obtain ⟨u, j, th, heq, hth, hj⟩ := mem_positions_iff_exists.1 h
  obtain ⟨rfl, rfl⟩ := Position.natCast_inj.1 heq
  exact mem_positions_iff_exists.2 ⟨t, i, th, rfl, hth, Nat.lt_trans hi hj⟩

/-- A place of a thread comes before every place at which there is nothing. -/
theorem lt_of_get?_eq_none (h : (⟨t, i⟩ : Position) ∈ p.positions) (hn : p.get? ⟨t, n⟩ = none) :
    i < n := by
  by_contra hni
  have hmem : (⟨t, n⟩ : Position) ∈ p.positions := by
    rcases Nat.lt_or_eq_of_le (Nat.le_of_not_lt hni) with hlt | rfl
    · exact mem_positions_of_lt h hlt
    · exact h
  obtain ⟨e, he⟩ := Option.isSome_iff_exists.1 (mem_positions.1 hmem).2.2
  rw [hn] at he
  cases he

/-! ### Look-ups -/

/-- Fetching an instruction fails only where there is none. -/
theorem fetch_of_get? {i : Instruction} (h : p.get? q = some i) : p.fetch q = .ok i := by
  obtain ⟨th, hth, hi⟩ := Option.bind_eq_some_iff.1 h
  rw [fetch, threadAt, fetchNth_of_nth? hth]
  exact fetchNth_of_nth? hi

theorem get?_of_fetch {i : Instruction} (h : p.fetch q = .ok i) : p.get? q = some i := by
  cases hth : nth? p.threads q.thread with
  | none => simp [fetch, threadAt, fetchNth, hth, bind, Except.bind] at h
  | some th =>
    cases hi : nth? th q.index with
    | none => simp [fetch, threadAt, fetchNth, hth, hi, bind, Except.bind] at h
    | some j =>
      simp only [fetch, threadAt, fetchNth, hth, hi, bind, Except.bind] at h
      rw [get?, hth, Option.bind_some, hi, Except.ok.inj h]

theorem mem_flatten_of_get? {i : Instruction} (h : p.get? q = some i) :
    i ∈ p.threads.flatten := by
  obtain ⟨th, hth, hi⟩ := Option.bind_eq_some_iff.1 h
  exact List.mem_flatten.2 ⟨th, mem_of_nth? hth, mem_of_nth? hi⟩

/-- The instructions of a program are those at its positions. -/
theorem mem_flatten_iff {j : Instruction} :
    j ∈ p.threads.flatten ↔ ∃ q ∈ p.positions, p.get? q = some j := by
  constructor
  · intro hj
    obtain ⟨th, hth, hjth⟩ := List.mem_flatten.1 hj
    obtain ⟨t, ht⟩ := List.mem_iff_getElem?.1 hth
    obtain ⟨i, hi⟩ := List.mem_iff_getElem?.1 hjth
    have hget : p.get? ⟨t, i⟩ = some j := by rw [get?_natCast, ht, Option.bind_some, hi]
    exact ⟨⟨t, i⟩, mem_positions_of_get? (Int.natCast_nonneg t) (Int.natCast_nonneg i) hget, hget⟩
  · rintro ⟨q, -, hq⟩
    exact mem_flatten_of_get? hq

/-- The thread of a position of the program. -/
theorem exists_threadAt (h : q ∈ p.positions) :
    ∃ th, p.threadAt q = .ok th ∧ nth? p.threads q.thread = some th ∧ q.index < th.length := by
  obtain ⟨t, i, th, rfl, hth, hi⟩ := mem_positions_iff_exists.1 h
  have hnth : nth? p.threads (t : Int) = some th := by rw [nth?_natCast, hth]
  exact ⟨th, fetchNth_of_nth? hnth, hnth, by simpa using hi⟩

/-- The instruction at a nonnegative place of a thread. -/
theorem get?_eq_getElem? {th : List Instruction} (hth : nth? p.threads q.thread = some th)
    (hi : 0 ≤ q.index) : p.get? q = th[q.index.toNat]? := by
  rw [get?, hth, Option.bind_some, nth?, if_pos hi]

/-- What lies between a position of the program and the end of its thread is a position of the
program, too. -/
theorem mem_positions_of_lt_length {th : List Instruction} (hr : r ∈ p.positions)
    (hth : nth? p.threads r.thread = some th) (ht : q.thread = r.thread) (hi : 0 ≤ q.index)
    (hlt : q.index < th.length) : q ∈ p.positions := by
  rw [← ht] at hth
  have hlen : q.index.toNat < th.length := by omega
  refine mem_positions_of_get? (ht ▸ (mem_positions.1 hr).1) hi (i := th[q.index.toNat]) ?_
  rw [get?_eq_getElem? hth hi, List.getElem?_eq_getElem hlen]

/-! ### Their order and their number -/

/-- **The positions are listed in strictly increasing order.** -/
theorem positions_sorted (p : Program) : p.positions.Pairwise (· < ·) := by
  rw [positions, List.pairwise_flatMap]
  constructor
  · intro th _
    rw [List.pairwise_map]
    refine List.pairwise_lt_range.imp fun hij ↦ ?_
    exact Or.inr ⟨rfl, Int.ofNat_lt.2 hij⟩
  · have hsnd : (p.threads.zipIdx.map Prod.snd).Pairwise (· < ·) := by
      rw [List.zipIdx_map_snd]
      exact List.pairwise_lt_range'
    refine (List.pairwise_map.1 hsnd).imp fun hlt x hx y hy ↦ ?_
    obtain ⟨i, -, rfl⟩ := List.mem_map.1 hx
    obtain ⟨j, -, rfl⟩ := List.mem_map.1 hy
    exact Or.inl (Int.ofNat_lt.2 hlt)

/-- No position is listed twice. -/
theorem nodup_positions (p : Program) : p.positions.Nodup :=
  Position.nodup_of_sorted p.positions_sorted

/-- There are as many positions as there are instructions. -/
theorem length_positions (p : Program) : p.positions.length = p.total := by
  have hfst : p.threads.zipIdx.map Prod.fst = p.threads := List.zipIdx_map_fst 0 p.threads
  rw [positions, total, List.length_flatMap, List.length_flatten]
  conv_rhs => rw [← hfst, List.map_map]
  refine congrArg List.sum (List.map_congr_left fun th _ ↦ ?_)
  simp

/-- No program is empty. -/
theorem total_pos (p : Program) : 0 < p.total :=
  List.length_pos_of_ne_nil p.flatten_ne_nil

/-- **A program is within the limits if it has neither too many threads nor one that is too
long.** -/
theorem check_eq_ok_iff : p.check limits = .ok () ↔
    p.threads.length ≤ limits.threads ∧ ∀ th ∈ p.threads, th.length ≤ limits.instructions := by
  have hfst : p.threads.zipIdx.map Prod.fst = p.threads := List.zipIdx_map_fst 0 p.threads
  have hlong : (p.threads.zipIdx.find? fun th ↦ limits.instructions < th.1.length) = none ↔
      ∀ th ∈ p.threads, th.length ≤ limits.instructions := by
    rw [List.find?_eq_none, ← hfst, List.forall_mem_map, hfst]
    simp only [decide_eq_true_eq, Nat.not_lt]
  rw [check, ← hlong, ← Nat.not_lt]
  by_cases hmany : limits.threads < p.threads.length
  · simp [hmany]
  · rw [if_neg hmany]
    cases p.threads.zipIdx.find? fun th ↦ limits.instructions < th.1.length with
    | none => simp [hmany]
    | some th => simp

/-! ### The variables -/

theorem nodup_names (p : Program) : p.names.Nodup := nodup_eraseDups _

/-- The variable of an instruction is one of the variables of the program. -/
theorem mem_names_of_get? {i : Instruction} (h : p.get? q = some i) : i.name ∈ p.names :=
  List.mem_eraseDups.2 (List.mem_map_of_mem (mem_flatten_of_get? h))

/-- The variables of a program are those of the instructions at its positions. -/
theorem mem_names_iff : x ∈ p.names ↔ ∃ q ∈ p.positions, ∃ j, p.get? q = some j ∧ j.name = x := by
  rw [names, List.mem_eraseDups, List.mem_map]
  constructor
  · rintro ⟨j, hj, hx⟩
    obtain ⟨q, hq, hget⟩ := mem_flatten_iff.1 hj
    exact ⟨q, hq, j, hget, hx⟩
  · rintro ⟨q, hq, j, hget, hx⟩
    exact ⟨j, mem_flatten_iff.2 ⟨q, hq, hget⟩, hx⟩

/-! ### The loads -/

theorem mem_loads : q ∈ p.loads ↔ q ∈ p.positions ∧ ∃ x, p.get? q = some (.load x) := by
  rw [loads, List.mem_filter, Option.any_eq_true]
  refine and_congr_right fun _ ↦ ⟨?_, ?_⟩
  · rintro ⟨i, hi, hload⟩
    cases i with
    | load x => exact ⟨x, hi⟩
    | store x v => cases hload
  · rintro ⟨x, hx⟩
    exact ⟨_, hx, rfl⟩

/-! ### The earlier stores of a thread -/

/-- The positions of the earlier stores in the thread of `q` to the variable of the instruction
there, in increasing order. -/
def ownStores (p : Program) (q : Position) : List Position :=
  p.positions.filter fun r ↦
    r.thread == q.thread && r.index < q.index &&
      (p.get? q).any fun i ↦ (p.get? r).any (·.storesTo i.name)

/-- A load can forward from the stores to its variable before it in its thread. -/
theorem mem_ownStores : r ∈ p.ownStores q ↔ r ∈ p.positions ∧ r.thread = q.thread ∧
    r.index < q.index ∧ ∃ i v, p.get? q = some i ∧ p.get? r = some (.store i.name v) := by
  rw [ownStores, List.mem_filter]
  simp only [Bool.and_eq_true, beq_iff_eq, decide_eq_true_eq, Option.any_eq_true, and_assoc]
  refine and_congr_right fun _ ↦ and_congr_right fun _ ↦ and_congr_right fun _ ↦ ?_
  constructor
  · rintro ⟨i, hi, j, hj, hst⟩
    obtain ⟨v, rfl⟩ := Instruction.storesTo_iff.1 hst
    exact ⟨i, v, hi, hj⟩
  · rintro ⟨i, v, hi, hr⟩
    exact ⟨i, hi, _, hr, Instruction.storesTo_iff.2 ⟨v, rfl⟩⟩

/-- The earlier stores to the variable of a load. -/
theorem mem_ownStores_natCast (h : p.get? ⟨t, n⟩ = some (.load x)) :
    q ∈ p.ownStores ⟨t, n⟩ ↔ ∃ i < n, ∃ v, q = ⟨t, i⟩ ∧ p.get? ⟨t, i⟩ = some (.store x v) := by
  rw [mem_ownStores]
  constructor
  · rintro ⟨hq, ht, hlt, j, v, hj, hv⟩
    obtain ⟨u, i, th, rfl, -, -⟩ := mem_positions_iff_exists.1 hq
    obtain rfl : u = t := Int.natCast_inj.1 ht
    obtain rfl : Instruction.load x = j := Option.some.inj (h.symm.trans hj)
    exact ⟨i, Int.ofNat_lt.1 hlt, v, rfl, hv⟩
  · rintro ⟨i, hi, v, rfl, hv⟩
    exact ⟨mem_positions_of_get? (Int.natCast_nonneg t) (Int.natCast_nonneg i) hv, rfl,
      Int.ofNat_lt.2 hi, _, v, h, hv⟩

/-- They are listed in program order, so the last of them is the latest. -/
theorem ownStores_sorted (p : Program) (q : Position) : (p.ownStores q).Pairwise (· < ·) :=
  p.positions_sorted.filter _

/-- The places below `n` at which a thread stores to `x`, in increasing order. -/
def storePlaces (th : List Instruction) (n : ℕ) (x : String) : List ℕ :=
  ((th.take n).zipIdx.filter fun e ↦ e.1.storesTo x).map Prod.snd

theorem mem_storePlaces {th : List Instruction} {n k : ℕ} {x : String} :
    k ∈ storePlaces th n x ↔ k < n ∧ ∃ v, th[k]? = some (.store x v) := by
  rw [storePlaces, List.mem_map]
  constructor
  · rintro ⟨⟨i, k⟩, hik, rfl⟩
    obtain ⟨hmem, hst⟩ := List.mem_filter.1 hik
    obtain ⟨v, rfl⟩ := Instruction.storesTo_iff.1 hst
    rw [List.mem_zipIdx_iff_getElem?, List.getElem?_take, Option.ite_none_right_eq_some] at hmem
    exact ⟨hmem.1, v, hmem.2⟩
  · rintro ⟨hk, v, hget⟩
    refine ⟨(.store x v, k), List.mem_filter.2 ⟨?_, Instruction.storesTo_iff.2 ⟨v, rfl⟩⟩, rfl⟩
    rw [List.mem_zipIdx_iff_getElem?, List.getElem?_take, Option.ite_none_right_eq_some]
    exact ⟨hk, hget⟩

theorem storePlaces_sorted (th : List Instruction) (n : ℕ) (x : String) :
    (storePlaces th n x).Pairwise (· < ·) := by
  have hsnd : ((th.take n).zipIdx.map Prod.snd).Pairwise (· < ·) := by
    rw [List.zipIdx_map_snd]
    exact List.pairwise_lt_range'
  rw [storePlaces, List.pairwise_map]
  exact (List.pairwise_map.1 hsnd).filter _

/-- **Looking the earlier stores up from the end finds the same ones, the nearest first.** -/
theorem storesBefore_eq (h : q ∈ p.positions) : p.storesBefore q = .ok (p.ownStores q).reverse := by
  obtain ⟨th, hat, hth, hlt⟩ := exists_threadAt h
  obtain ⟨i, hi⟩ := exists_get? h
  obtain ⟨ht0, hi0, -⟩ := mem_positions.1 h
  have hfetch : fetchNth th q.index = .ok i := by
    refine fetchNth_of_nth? ?_
    rw [nth?, if_pos hi0, ← get?_eq_getElem? hth hi0, hi]
  -- the search runs backwards from the load, the list forwards to it
  have hback : p.storesBefore q = .ok ((storePlaces th q.index.toNat i.name).map
      fun (k : ℕ) ↦ (⟨q.thread, k⟩ : Position)).reverse := by
    rw [storesBefore, hat]
    show (fetchNth th q.index >>= _) = _
    rw [hfetch, storePlaces, List.map_map, ← List.map_reverse]
    rfl
  rw [hback]
  -- both lists are in increasing order, so it is enough that they have the same members
  refine congrArg (fun l ↦ Except.ok l.reverse) (eq_of_increasing ?_ (p.ownStores_sorted q) ?_)
  · rw [List.pairwise_map]
    exact (storePlaces_sorted th _ _).imp fun hlt ↦ Or.inr ⟨rfl, Int.ofNat_lt.2 hlt⟩
  · intro r
    rw [mem_ownStores, List.mem_map]
    constructor
    · rintro ⟨k, hk, rfl⟩
      obtain ⟨hlt, v, hget⟩ := mem_storePlaces.1 hk
      have hr : p.get? ⟨q.thread, k⟩ = some (.store i.name v) := by
        rw [get?_eq_getElem? (q := ⟨q.thread, k⟩) hth (Int.natCast_nonneg k)]
        exact hget
      have hindex : (k : Int) < q.index := by omega
      exact ⟨mem_positions_of_get? ht0 (Int.natCast_nonneg k) hr, rfl, hindex, i, v, hi, hr⟩
    · rintro ⟨hr, ht, hindex, i', v, hi', hst⟩
      obtain rfl : i = i' := Option.some.inj (hi.symm.trans hi')
      have hr0 := (mem_positions.1 hr).2.1
      rw [get?_eq_getElem? (ht ▸ hth) hr0] at hst
      refine ⟨r.index.toNat, mem_storePlaces.2 ⟨by omega, v, hst⟩, ?_⟩
      rw [Int.toNat_of_nonneg hr0, ← ht]

end Program

end Litmus

import Litmus.Proofs.Ordering
import Mathlib.Algebra.Group.Int.Defs

/-!
# Sets and the additions that made them

A set of outcomes starts out empty and is changed by additions only, so the sequence of additions
tells all about it.

* An addition inserts a solution, unless some value is too long to be written. Then there is no key,
  and the addition is refused and changes nothing (`OutcomeSet.attempt_eq`).
* After any additions, the set has what was added first under each key, in the order in which the
  keys came up. The replies have told which additions these were (`OutcomeSet.firstWins_addAll`).
* Two sets are compared by their keys alone. To be a subset, to have the same keys, to have nothing
  beyond the other and to be listed alike are all said of the keys (`OutcomeSet.compares`). In
  another order the same additions can leave other outcomes and witnesses under the keys, but the
  keys are the same (`OutcomeSet.mem_keys_addAll`).
-/

namespace Litmus

/-- What is added to a set: an outcome with the witness that it was found with. -/
structure Addition (ω : Type) where
  /-- The outcome. -/
  outcome : Outcome
  /-- The witness. -/
  witness : ω

namespace Addition

variable {ω : Type} {a : Addition ω} {l : List (Addition ω)} {k : String}

/-- The key of what is added, if all its values can be written. -/
def key? (a : Addition ω) : Option String := a.outcome.key.toOption

/-- What is added, under its key. -/
def solution? (a : Addition ω) : Option (Solution ω) :=
  a.key?.map fun k ↦ ⟨k, a.outcome, a.witness⟩

/-- The keys of all that is added, in order and with repetitions. -/
def keys (l : List (Addition ω)) : List String := l.filterMap key?

theorem key?_eq_some_iff : a.key? = some k ↔ a.outcome.key = .ok k := by
  rw [key?]
  cases a.outcome.key <;> simp [Except.toOption]

theorem key?_of_find? (h : l.find? (·.key? == some k) = some a) : a.key? = some k := by
  simpa using List.find?_some h

/-- The keys of the solutions that additions stand for are the keys of the additions. Those whose
outcome cannot be written stand for none. -/
theorem map_key_solutions (l : List (Addition ω)) :
    (l.filterMap solution?).map (·.key) = keys l := by
  rw [List.map_filterMap, keys]
  congr 1
  funext a
  rw [solution?, Option.map_map]
  exact Option.map_id'

end Addition

namespace OutcomeSet

variable {ω ω' : Type} {s : OutcomeSet ω} {t : OutcomeSet ω'} {l : List (Addition ω)} {k : String}
  {x : Solution ω}

/-! ### Making additions -/

/-- Tries to add an outcome, and says whether it was added or why it was refused. If it is refused,
the set stays as it is. -/
def attempt (s : OutcomeSet ω) (a : Addition ω) : OutcomeSet ω × Except Fault Bool :=
  match s.add a.outcome a.witness with
  | .ok (s', added) => (s', .ok added)
  | .error f => (s, .error f)

/-- Tries one addition after the other, and lists what was said to each. -/
def addAll (s : OutcomeSet ω) : List (Addition ω) → OutcomeSet ω × List (Except Fault Bool)
  | [] => (s, [])
  | a :: l =>
    let (s', reply) := s.attempt a
    let (s'', replies) := s'.addAll l
    (s'', reply :: replies)

/-- **What one addition does**: it inserts what has a key, and says whether the key is new. -/
theorem attempt_eq (s : OutcomeSet ω) (a : Addition ω) :
    s.attempt a =
      (s.insertAll a.solution?.toList, a.outcome.key.map fun k ↦ !s.contains k) := by
  rw [attempt, add_eq, Addition.solution?, Addition.key?]
  cases a.outcome.key <;> rfl

/-- **The set after additions** is what inserting those with a key makes of it. -/
theorem fst_addAll (s : OutcomeSet ω) (l : List (Addition ω)) :
    (s.addAll l).1 = s.insertAll (l.filterMap Addition.solution?) := by
  induction l generalizing s with
  | nil => rfl
  | cons a l ih =>
    show ((s.attempt a).1.addAll l).1 = _
    rw [ih, attempt_eq, List.filterMap_cons]
    cases a.solution? <;> rfl

/-- **The reply to an addition** tells whether the set that the earlier ones made has its key. -/
theorem getElem?_addAll (s : OutcomeSet ω) (l : List (Addition ω)) (i : Nat) :
    (s.addAll l).2[i]? =
      l[i]?.map fun a ↦ a.outcome.key.map fun k ↦ !(s.addAll (l.take i)).1.contains k := by
  induction l generalizing s i with
  | nil => rfl
  | cons a l ih =>
    cases i with
    | zero =>
      show some (s.attempt a).2 = _
      rw [attempt_eq]
      rfl
    | succ i => exact ih (s.attempt a).1 i

/-! ### What is in the set -/

/-- The keys of the set are the different keys of what was added, in the order in which they came
up. -/
theorem keys_addAll (l : List (Addition ω)) :
    (empty.addAll l).1.keys = (Addition.keys l).eraseDups := by
  rw [fst_addAll, keys_insertAll_empty, Addition.map_key_solutions]

/-- A key is in the set if and only if something was added under it. -/
theorem mem_keys_addAll : k ∈ (empty.addAll l).1.keys ↔ k ∈ Addition.keys l := by
  rw [keys_addAll, List.mem_eraseDups]

theorem nodup_keys_addAll (l : List (Addition ω)) : (empty.addAll l).1.keys.Nodup := by
  rw [fst_addAll]
  exact nodup_keys_insertAll (s := .empty) List.nodup_nil _

/-- A key leads to what was added first under it. -/
theorem find_addAll : (empty.addAll l).1.find k = .ok x ↔
    ∃ a, l.find? (·.key? == some k) = some a ∧ x = ⟨k, a.outcome, a.witness⟩ := by
  -- solutions are told by their keys alone, so the search can be made among the additions
  have hkey : ∀ a : Addition ω, a.solution?.any (·.key == k) = (a.key? == some k) := by
    intro a
    rw [Addition.solution?]
    cases a.key? <;> rfl
  rw [find_eq_ok_iff, fst_addAll, find?_insertAll]
  show (l.filterMap Addition.solution?).find? _ = some x ↔ _
  rw [List.find?_filterMap, Option.bind_eq_some_iff]
  simp only [hkey]
  refine exists_congr fun a ↦ and_congr_right fun ha ↦ ?_
  rw [Addition.solution?, Addition.key?_of_find? ha, Option.map_some, Option.some_inj, eq_comm]

/-- **The first addition under each key wins.** The set and the replies are those that a sequence of
additions leads to. -/
structure FirstWins (l : List (Addition ω)) (s : OutcomeSet ω)
    (replies : List (Except Fault Bool)) : Prop where
  /-- The keys are the different keys of what was added, in the order in which they came up. -/
  keys : s.keys = (Addition.keys l).eraseDups
  /-- Every key leads to a solution, and nothing else does. -/
  found : ∀ k, (∃ x, s.find k = .ok x) ↔ k ∈ s.keys
  /-- It leads to the outcome and the witness that were added first under it. -/
  first : ∀ k x, s.find k = .ok x ↔
    ∃ a, l.find? (·.key? == some k) = some a ∧ x = ⟨k, a.outcome, a.witness⟩
  /-- The outcome under a key has this key. -/
  key : ∀ k x, s.find k = .ok x → x.outcome.key = .ok k
  /-- There is one reply to each addition. It is that the outcome was added if no earlier addition
  had its key, and the fault if it has none. -/
  replies : ∀ i : Nat, replies[i]? =
    l[i]?.map fun a ↦ a.outcome.key.map fun k ↦ decide (k ∉ Addition.keys (l.take i))

/-- **Whatever is added, the first addition under each key wins.** -/
theorem firstWins_addAll (l : List (Addition ω)) :
    FirstWins l (empty.addAll l).1 (empty.addAll l).2 where
  keys := keys_addAll l
  found _ := exists_find_iff
  first _ _ := find_addAll
  key k x hx := by
    obtain ⟨a, ha, rfl⟩ := find_addAll.1 hx
    exact Addition.key?_eq_some_iff.1 (Addition.key?_of_find? ha)
  replies i := by
    have hnew : ∀ k, (!(empty.addAll (l.take i)).1.contains k) =
        decide (k ∉ Addition.keys (l.take i)) := by
      intro k
      rw [Bool.eq_iff_iff, Bool.not_eq_true', ← Bool.not_eq_true, contains_iff, mem_keys_addAll,
        decide_eq_true_iff]
    rw [getElem?_addAll]
    simp only [hnew]

/-! ### Comparing two sets -/

/-- One set is a part of another if the other has all its keys. Outcomes and witnesses are not
looked at. -/
theorem subset_iff : s.subset t = true ↔ ∀ k ∈ s.keys, k ∈ t.keys := by
  simp only [subset, List.all_eq_true, contains_iff]

theorem sameKeys_iff_subset :
    s.sameKeys t.keys = true ↔ s.subset t = true ∧ t.subset s = true := by
  simp only [sameKeys, subset, Bool.and_eq_true, List.all_eq_true, contains_iff,
    List.contains_iff_mem]

/-- Two sets have the same keys, whatever the order in which these were found. -/
theorem sameKeys_iff : s.sameKeys t.keys = true ↔ ∀ k, k ∈ s.keys ↔ k ∈ t.keys := by
  rw [sameKeys_iff_subset, subset_iff, subset_iff]
  exact ⟨fun h k ↦ ⟨h.1 k, h.2 k⟩, fun h ↦ ⟨fun k ↦ (h k).1, fun k ↦ (h k).2⟩⟩

/-- Sets with the same keys are listed alike. -/
theorem sorted_eq_iff (hs : s.keys.Nodup) (ht : t.keys.Nodup) :
    s.sorted = t.sorted ↔ ∀ k, k ∈ s.keys ↔ k ∈ t.keys := by
  constructor
  · intro h k
    rw [← (lists_sorted hs).mem_iff, h, (lists_sorted ht).mem_iff]
  · intro h
    refine Lists.eq_sorted ht ⟨(lists_sorted hs).increasing, fun k ↦ ?_⟩
    rw [(lists_sorted hs).mem_iff, h]

/-- **All ways to compare two sets agree.** -/
structure Compares (s : OutcomeSet ω) (t : OutcomeSet ω') : Prop where
  /-- The keys of one set that the other lacks strictly increase. -/
  increasing : (s.beyond t).Pairwise (· < ·)
  /-- They are exactly these keys. -/
  beyond : ∀ k, k ∈ s.beyond t ↔ k ∈ s.keys ∧ k ∉ t.keys
  /-- A subset has its keys in the other set. -/
  subset : s.subset t = true ↔ ∀ k ∈ s.keys, k ∈ t.keys
  /-- There is no such key if and only if the one set is a subset of the other. -/
  none_beyond : s.beyond t = [] ↔ s.subset t = true
  /-- The sets are equal if and only if each is a subset of the other. -/
  equal : s.sameKeys t.keys = true ↔ s.subset t = true ∧ t.subset s = true
  /-- Equal sets are those that are listed alike. -/
  sorted : s.sameKeys t.keys = true ↔ s.sorted = t.sorted

/-- **Sets with distinct keys are compared by their keys alone.** -/
theorem compares (hs : s.keys.Nodup) (ht : t.keys.Nodup) : Compares s t where
  increasing := beyond_increasing hs t
  beyond _ := mem_beyond
  subset := subset_iff
  none_beyond := by
    simp only [List.eq_nil_iff_forall_not_mem, mem_beyond, subset_iff, not_and, not_not]
  equal := sameKeys_iff_subset
  sorted := by rw [sameKeys_iff, sorted_eq_iff hs ht]

/-- **The first addition under each key wins, and only the keys matter when sets are compared.** The
order of the additions decides which outcomes and witnesses are kept, but neither which keys there
are nor how they are listed. -/
theorem addAll_firstWins_compares (l : List (Addition ω)) (l' : List (Addition ω')) :
    FirstWins l (empty.addAll l).1 (empty.addAll l).2 ∧
    Compares (empty.addAll l).1 (empty.addAll l').1 ∧
    ∀ m, m.Perm l → (empty.addAll m).1.sameKeys (empty.addAll l).1.keys = true ∧
      (empty.addAll m).1.sorted = (empty.addAll l).1.sorted := by
  refine ⟨firstWins_addAll l, compares (nodup_keys_addAll l) (nodup_keys_addAll l'),
    fun m hm ↦ ?_⟩
  have hkeys : ∀ k, k ∈ (empty.addAll m).1.keys ↔ k ∈ (empty.addAll l).1.keys := by
    intro k
    rw [mem_keys_addAll, mem_keys_addAll]
    exact (hm.filterMap Addition.key?).mem_iff
  exact ⟨sameKeys_iff.2 hkeys,
    (sorted_eq_iff (nodup_keys_addAll m) (nodup_keys_addAll l)).2 hkeys⟩

/-- The first addition and the last one have loads at different places but the same key. The third
one has none. -/
def readings : List (Addition String) :=
  [⟨⟨[("x", 2)], [⟨⟨0, 0⟩, "x", 0⟩]⟩, "first"⟩, ⟨⟨[("x", 1)], [⟨⟨0, 0⟩, "x", 0⟩]⟩, "second"⟩,
    ⟨⟨[("x", 10 ^ 4300)], []⟩, "third"⟩, ⟨⟨[("x", 2)], [⟨⟨1, 0⟩, "x", 0⟩]⟩, "fourth"⟩]

/-- Backwards, the last addition wins over the first one, but the keys are the same. -/
theorem readings_firstWins_compares :
    FirstWins readings (empty.addAll readings).1
      [.ok true, .ok true, .error .unwritable, .ok false] ∧
    ((empty.addAll readings).1.solutions.map fun x ↦ (x.key, x.witness)) =
      [("[x]==2; x==0; ", "first"), ("[x]==1; x==0; ", "second")] ∧
    Compares (empty.addAll readings).1 (empty.addAll (readings.take 1)).1 ∧
    (empty.addAll readings).1.beyond (empty.addAll (readings.take 1)).1 = ["[x]==1; x==0; "] ∧
    readings.reverse.Perm readings ∧
    ((empty.addAll readings.reverse).1.solutions.map fun x ↦ (x.key, x.witness)) =
      [("[x]==2; x==0; ", "fourth"), ("[x]==1; x==0; ", "second")] ∧
    (empty.addAll readings.reverse).1.sameKeys (empty.addAll readings).1.keys = true ∧
    (empty.addAll readings.reverse).1.sorted = (empty.addAll readings).1.sorted := by
  obtain ⟨hfirst, hcompares, hperm⟩ := addAll_firstWins_compares readings (readings.take 1)
  have hreplies : (empty.addAll readings).2 =
      [.ok true, .ok true, .error .unwritable, .ok false] := by decide +kernel
  have hreverse : readings.reverse.Perm readings := List.reverse_perm _
  rw [hreplies] at hfirst
  exact ⟨hfirst, by decide +kernel, hcompares, by decide +kernel, hreverse, by decide +kernel,
    hperm _ hreverse⟩

end OutcomeSet

end Litmus

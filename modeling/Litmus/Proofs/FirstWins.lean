import Litmus.OutcomeSet
import Mathlib.Data.List.Induction
import Mathlib.Data.List.Nodup

/-!
# The first one of each key stays

A set of outcomes grows by adding solutions one after the other, and a solution whose key is there
already is passed over. So the set is a part of the sequence of all solutions that were added, in
the same order (`OutcomeSet.insertAll_sublist`): of the solutions with one key it has exactly the
first (`OutcomeSet.mem_insertAll`). To look a key up in the set is to look it up in the sequence
(`OutcomeSet.find?_insertAll`).

Whatever holds of all pairs in the sequence holds of all pairs in the set, and whatever is minimal
for a key at its first occurrence is minimal in the set. Nothing else is used of the order in which
a search comes to its outcomes.
-/

namespace Litmus.OutcomeSet

variable {ω α : Type} {s : OutcomeSet ω} {x y : Solution ω} {l : List (Solution ω)} {k : String}
  {w : ω}

/-! ### Two dictionaries as one list -/

/-- The set that has the given solutions. -/
def ofSolutions (l : List (Solution ω)) : OutcomeSet ω where
  outcomes := l.map fun x ↦ (x.key, x.outcome)
  witnesses := l.map fun x ↦ (x.key, x.witness)
  keys_eq := by
    rw [List.map_map, List.map_map]
    rfl

/-- The two dictionaries lose nothing: solutions can be split into them and put together again. -/
@[simp] theorem solutions_ofSolutions (l : List (Solution ω)) : (ofSolutions l).solutions = l := by
  rw [solutions, ofSolutions, List.zipWith_map, List.zipWith_self]
  exact List.map_id l

/-- The dictionaries have the same keys in the same order, so together they are a list of
solutions. -/
theorem exists_eq_ofSolutions (s : OutcomeSet ω) : ∃ l, s = ofSolutions l := by
  obtain ⟨os, ws, h⟩ := s
  induction os generalizing ws with
  | nil =>
    obtain rfl : ws = [] := List.map_eq_nil_iff.1 h
    exact ⟨[], rfl⟩
  | cons e os ih =>
    obtain ⟨⟨k, w⟩, ws, rfl, rfl, hrest⟩ := List.map_eq_cons_iff.1 h
    obtain ⟨l, hl⟩ := ih ws hrest
    refine ⟨⟨e.1, e.2, w⟩ :: l, ?_⟩
    rw [mk.injEq]
    exact ⟨congrArg (e :: ·) (congrArg outcomes hl), congrArg (_ :: ·) (congrArg witnesses hl)⟩

/-- And nothing else is in them, since they have the same keys. -/
@[simp] theorem ofSolutions_solutions (s : OutcomeSet ω) : ofSolutions s.solutions = s := by
  obtain ⟨l, rfl⟩ := s.exists_eq_ofSolutions
  rw [solutions_ofSolutions]

/-- The keys are those of the solutions, in the same order. -/
theorem keys_eq_map (s : OutcomeSet ω) : s.keys = s.solutions.map (·.key) := by
  obtain ⟨l, rfl⟩ := s.exists_eq_ofSolutions
  rw [solutions_ofSolutions, keys, ofSolutions, List.map_map]
  rfl

theorem mem_keys : k ∈ s.keys ↔ ∃ x ∈ s.solutions, x.key = k := by
  rw [keys_eq_map, List.mem_map]

theorem size_eq_length (s : OutcomeSet ω) : s.size = s.keys.length :=
  (List.length_map Prod.fst).symm

/-- A key is looked up in either dictionary as in the list. -/
theorem lookup_map_key (f : Solution ω → α) (l : List (Solution ω)) (k : String) :
    (l.map fun x ↦ (x.key, f x)).lookup k = (l.find? (·.key == k)).map f := by
  induction l with
  | nil => rfl
  | cons x l ih =>
    rw [List.map_cons, List.lookup_cons, List.find?_cons, BEq.comm]
    cases x.key == k with
    | true => rfl
    | false => exact ih

/-- The witness of a key is that of the first solution under this key. -/
theorem witness_eq_ok_iff :
    s.witness k = .ok w ↔ ∃ x, s.solutions.find? (·.key == k) = some x ∧ x.witness = w := by
  obtain ⟨l, rfl⟩ := s.exists_eq_ofSolutions
  rw [solutions_ofSolutions, witness, Dictionary.fetch, ofSolutions, lookup_map_key]
  cases l.find? (·.key == k) <;> simp

theorem find_eq_ok_iff : s.find k = .ok x ↔ s.solutions.find? (·.key == k) = some x := by
  obtain ⟨l, rfl⟩ := s.exists_eq_ofSolutions
  rw [solutions_ofSolutions, find, outcome, witness, Dictionary.fetch, Dictionary.fetch,
    ofSolutions, lookup_map_key, lookup_map_key]
  cases hy : l.find? (·.key == k) with
  | none => simp [bind, Except.bind]
  | some y =>
    have hkey : y.key = k := by simpa using List.find?_some hy
    simp [bind, Except.bind, pure, Except.pure, ← hkey]

/-! ### One more solution -/

/-- Adds a solution unless its key is there already. -/
def insert (s : OutcomeSet ω) (x : Solution ω) : OutcomeSet ω :=
  if s.contains x.key then s else s.set x.key x.outcome x.witness

/-- Adds solutions one after the other. -/
def insertAll (s : OutcomeSet ω) (l : List (Solution ω)) : OutcomeSet ω := l.foldl insert s

/-- Adding an outcome that has a key inserts it under its key. -/
theorem add_eq (s : OutcomeSet ω) (o : Outcome) (witness : ω) :
    s.add o witness = o.key.map fun k ↦ (s.insert ⟨k, o, witness⟩, !s.contains k) := by
  rw [add]
  congr 1
  funext k
  rw [insert]
  cases s.contains k <;> rfl

/-- Adding an outcome that can be written inserts it under its text. -/
theorem add_of_fits (s : OutcomeSet ω) {o : Outcome} (h : o.fits = true) (witness : ω) :
    s.add o witness = .ok (s.insert ⟨o.text, o, witness⟩, !s.contains o.text) := by
  rw [add_eq, Outcome.key, if_pos h]
  rfl

theorem contains_iff : s.contains k = true ↔ k ∈ s.keys := by
  rw [contains, List.any_eq_true, keys, List.mem_map]
  simp only [beq_iff_eq]

/-- **Nothing is inserted under a key that is there.** Outcome and witness stay. -/
theorem insert_of_mem (h : x.key ∈ s.keys) : s.insert x = s := if_pos (contains_iff.2 h)

/-- A new key goes to the end of both dictionaries. -/
theorem insert_of_not_mem (h : x.key ∉ s.keys) : s.insert x = ofSolutions (s.solutions ++ [x]) := by
  rw [insert, if_neg (mt contains_iff.1 h)]
  obtain ⟨l, rfl⟩ := s.exists_eq_ofSolutions
  have hnew : x.key ∉ (ofSolutions l).witnesses.map Prod.fst := by
    rw [(ofSolutions l).keys_eq]
    exact h
  rw [solutions_ofSolutions, set, mk.injEq, Dictionary.assign_of_not_mem h,
    Dictionary.assign_of_not_mem hnew]
  constructor
  · simp [ofSolutions]
  · simp [ofSolutions]

/-- What is new goes to the end. -/
theorem solutions_insert_of_not_mem (h : x.key ∉ s.keys) :
    (s.insert x).solutions = s.solutions ++ [x] := by
  rw [insert_of_not_mem h, solutions_ofSolutions]

theorem keys_insert_of_not_mem (h : x.key ∉ s.keys) : (s.insert x).keys = s.keys ++ [x.key] := by
  rw [keys_eq_map, solutions_insert_of_not_mem h, List.map_append, ← keys_eq_map]
  rfl

/-! ### What is in the set -/

theorem mem_keys_insert : k ∈ (s.insert x).keys ↔ k ∈ s.keys ∨ x.key = k := by
  by_cases hx : x.key ∈ s.keys
  · rw [insert_of_mem hx]
    constructor
    · exact Or.inl
    · rintro (hk | rfl)
      · exact hk
      · exact hx
  · rw [keys_insert_of_not_mem hx, List.mem_append, List.mem_singleton, eq_comm]

/-- Every key that was added is in the set. -/
theorem mem_keys_insertAll : k ∈ (s.insertAll l).keys ↔ k ∈ s.keys ∨ ∃ x ∈ l, x.key = k := by
  induction l generalizing s with
  | nil => simp [insertAll]
  | cons y l ih =>
    show k ∈ ((s.insert y).insertAll l).keys ↔ _
    rw [ih, mem_keys_insert, or_assoc, List.exists_mem_cons_iff]

/-- So no key is inserted twice. -/
theorem nodup_keys_insert (h : s.keys.Nodup) (x : Solution ω) : (s.insert x).keys.Nodup := by
  by_cases hx : x.key ∈ s.keys
  · rwa [insert_of_mem hx]
  · rw [keys_insert_of_not_mem hx]
    exact h.append (List.nodup_singleton _) (List.disjoint_singleton.2 hx)

theorem nodup_keys_insertAll (h : s.keys.Nodup) (l : List (Solution ω)) :
    (s.insertAll l).keys.Nodup := by
  induction l generalizing s with
  | nil => exact h
  | cons y l ih => exact ih (nodup_keys_insert h y)

/-! ### The first one of each key -/

/-- **The set is a part of the sequence that was added**, in the same order. -/
theorem insertAll_sublist (s : OutcomeSet ω) (l : List (Solution ω)) :
    (s.insertAll l).solutions.Sublist (s.solutions ++ l) := by
  induction l generalizing s with
  | nil => rw [List.append_nil]; exact List.Sublist.refl _
  | cons y l ih =>
    have hrest := ih (s.insert y)
    by_cases hy : y.key ∈ s.keys
    · rw [insert_of_mem hy] at hrest
      refine List.Sublist.trans ?_ ((List.sublist_cons_self y l).append_left s.solutions)
      rwa [insertAll, List.foldl_cons, insert_of_mem hy]
    · rw [insertAll, List.foldl_cons]
      refine hrest.trans ?_
      rw [solutions_insert_of_not_mem hy, List.append_assoc]
      exact List.Sublist.refl _

/-- What is in the set has been there before or has been inserted. -/
theorem mem_of_mem_insertAll (h : x ∈ (s.insertAll l).solutions) : x ∈ s.solutions ∨ x ∈ l :=
  List.mem_append.1 ((insertAll_sublist s l).subset h)

/-- **What was there stays in front.** -/
theorem prefix_insertAll (s : OutcomeSet ω) (l : List (Solution ω)) :
    s.solutions <+: (s.insertAll l).solutions := by
  induction l generalizing s with
  | nil => exact List.prefix_rfl
  | cons y l ih =>
    refine List.IsPrefix.trans ?_ (ih (s.insert y))
    by_cases hy : y.key ∈ s.keys
    · exact (insert_of_mem hy).symm ▸ List.prefix_rfl
    · exact solutions_insert_of_not_mem hy ▸ List.prefix_append _ _

/-- Solutions whose keys are there already change nothing. -/
theorem insertAll_of_forall_mem (h : ∀ x ∈ l, x.key ∈ s.keys) : s.insertAll l = s := by
  induction l with
  | nil => rfl
  | cons y l ih =>
    obtain ⟨hy, hl⟩ := List.forall_mem_cons.1 h
    rw [insertAll, List.foldl_cons, insert_of_mem hy]
    exact ih hl

/-- **A solution is new in the set if and only if its key was not there and it is the first in the
sequence with its key.** -/
theorem mem_insertAll : x ∈ (s.insertAll l).solutions ↔ x ∈ s.solutions ∨
    x.key ∉ s.keys ∧ ∃ l₁ l₂, l = l₁ ++ x :: l₂ ∧ ∀ y ∈ l₁, y.key ≠ x.key := by
  induction l generalizing s with
  | nil => simp [insertAll]
  | cons y l ih =>
    show x ∈ ((s.insert y).insertAll l).solutions ↔ _
    rw [ih, mem_keys_insert, not_or]
    -- either `y` is passed over, or it is new and the first with its key
    by_cases hy : y.key ∈ s.keys
    · rw [insert_of_mem hy]
      refine or_congr_right ⟨?_, ?_⟩
      · rintro ⟨⟨hx, hne⟩, l₁, l₂, rfl, hfirst⟩
        exact ⟨hx, y :: l₁, l₂, rfl, List.forall_mem_cons.2 ⟨hne, hfirst⟩⟩
      · rintro ⟨hx, l₁, l₂, heq, hfirst⟩
        cases l₁ with
        | nil =>
          obtain ⟨rfl, -⟩ := List.cons.inj heq
          exact absurd hy hx
        | cons z l₁ =>
          obtain ⟨rfl, rfl⟩ := List.cons.inj heq
          obtain ⟨hne, hfirst⟩ := List.forall_mem_cons.1 hfirst
          exact ⟨⟨hx, hne⟩, l₁, l₂, rfl, hfirst⟩
    · rw [solutions_insert_of_not_mem hy, List.mem_append, List.mem_singleton, or_assoc]
      refine or_congr_right ⟨?_, ?_⟩
      · rintro (rfl | ⟨⟨hx, hne⟩, l₁, l₂, rfl, hfirst⟩)
        · exact ⟨hy, [], l, rfl, fun z hz ↦ absurd hz List.not_mem_nil⟩
        · exact ⟨hx, y :: l₁, l₂, rfl, List.forall_mem_cons.2 ⟨hne, hfirst⟩⟩
      · rintro ⟨hx, l₁, l₂, heq, hfirst⟩
        cases l₁ with
        | nil =>
          obtain ⟨rfl, -⟩ := List.cons.inj heq
          exact Or.inl rfl
        | cons z l₁ =>
          obtain ⟨rfl, rfl⟩ := List.cons.inj heq
          obtain ⟨hne, hfirst⟩ := List.forall_mem_cons.1 hfirst
          exact Or.inr ⟨⟨hx, hne⟩, l₁, l₂, rfl, hfirst⟩

/-- A change of the solutions that neither merges nor splits keys can be made before they are added
or after. -/
theorem solutions_insertAll_map {g : Solution ω → Solution ω}
    (hg : ∀ x ∈ s.solutions ++ l, ∀ y ∈ l, (g x).key = (g y).key ↔ x.key = y.key) :
    ((ofSolutions (s.solutions.map g)).insertAll (l.map g)).solutions =
      (s.insertAll l).solutions.map g := by
  induction l generalizing s with
  | nil => exact solutions_ofSolutions _
  | cons y l ih =>
    have hkey : (g y).key ∈ (ofSolutions (s.solutions.map g)).keys ↔ y.key ∈ s.keys := by
      rw [keys_eq_map, solutions_ofSolutions, List.map_map, List.mem_map, mem_keys]
      refine exists_congr fun x ↦ and_congr_right fun hx ↦ ?_
      exact hg x (List.mem_append_left _ hx) y List.mem_cons_self
    -- one round on both sides; the sets still correspond after it
    have hround : (ofSolutions (s.solutions.map g)).insert (g y) =
        ofSolutions ((s.insert y).solutions.map g) := by
      by_cases hy : y.key ∈ s.keys
      · rw [insert_of_mem hy, insert_of_mem (hkey.2 hy)]
      · rw [insert_of_not_mem (mt hkey.1 hy), solutions_insert_of_not_mem hy,
          solutions_ofSolutions, List.map_append, List.map_singleton]
    have hsub : ∀ x ∈ (s.insert y).solutions ++ l, x ∈ s.solutions ++ y :: l := by
      intro x hx
      by_cases hy : y.key ∈ s.keys
      · rw [insert_of_mem hy] at hx
        exact ((List.sublist_cons_self y l).append_left s.solutions).subset hx
      · rwa [solutions_insert_of_not_mem hy, List.append_assoc] at hx
    rw [List.map_cons, insertAll, insertAll, List.foldl_cons, List.foldl_cons, hround]
    exact ih fun x hx z hz ↦ hg x (hsub x hx) z (List.mem_cons_of_mem y hz)

/-- A list with one more member at its end has one more different member, unless it was there
already. -/
theorem eraseDups_snoc (l : List String) (k : String) :
    (l ++ [k]).eraseDups = if k ∈ l then l.eraseDups else l.eraseDups ++ [k] := by
  rw [List.eraseDups_append, List.removeAll, List.filter_singleton]
  by_cases hk : k ∈ l
  · simp [hk]
  · simp [hk, List.eraseDups_cons]

/-- **The keys are those of the sequence**, each one where it occurs first. -/
theorem keys_insertAll_empty (l : List (Solution ω)) :
    (empty.insertAll l).keys = (l.map (·.key)).eraseDups := by
  induction l using List.reverseRecOn with
  | nil => rfl
  | append_singleton l x ih =>
    have hsnoc : empty.insertAll (l ++ [x]) = (empty.insertAll l).insert x := List.foldl_append
    have hmem : x.key ∈ (empty.insertAll l).keys ↔ x.key ∈ l.map (·.key) := by
      rw [ih, List.mem_eraseDups]
    rw [hsnoc, List.map_append, List.map_singleton, eraseDups_snoc, ← ih]
    by_cases hx : x.key ∈ (empty.insertAll l).keys
    · rw [insert_of_mem hx, if_pos (hmem.1 hx)]
    · rw [keys_insert_of_not_mem hx, if_neg (mt hmem.2 hx)]

/-! ### Looking solutions up -/

/-- Exactly the keys of the set are found. -/
theorem exists_find_iff : (∃ x, s.find k = .ok x) ↔ k ∈ s.keys := by
  simp only [find_eq_ok_iff, ← Option.isSome_iff_exists, List.find?_isSome, beq_iff_eq, mem_keys]

/-- **What is found under a key is the first in the sequence with this key.** -/
theorem find?_insertAll (s : OutcomeSet ω) (l : List (Solution ω)) (k : String) :
    (s.insertAll l).solutions.find? (·.key == k) = (s.solutions ++ l).find? (·.key == k) := by
  induction l generalizing s with
  | nil => rw [List.append_nil]; rfl
  | cons y l ih =>
    show ((s.insert y).insertAll l).solutions.find? _ = _
    rw [ih]
    by_cases hy : y.key ∈ s.keys
    · -- what is passed over is not found in the sequence either, being behind another with its key
      rw [insert_of_mem hy, List.find?_append, List.find?_append, List.find?_cons]
      cases hk : y.key == k with
      | false => rfl
      | true =>
        obtain ⟨x, hx, hxy⟩ := mem_keys.1 hy
        have hsome : (s.solutions.find? (·.key == k)).isSome :=
          List.find?_isSome.2 ⟨x, hx, by rw [hxy, hk]⟩
        rw [Option.or_of_isSome hsome, Option.or_of_isSome hsome]
    · rw [solutions_insert_of_not_mem hy, List.append_assoc]
      rfl

/-- If no two solutions have the same key, looking a key up finds its solution. -/
theorem find_of_mem (hnodup : s.keys.Nodup) (h : x ∈ s.solutions) : s.find x.key = .ok x := by
  obtain ⟨y, hy⟩ : ∃ y, s.solutions.find? (·.key == x.key) = some y := by
    refine Option.isSome_iff_exists.1 (List.find?_isSome.2 ⟨x, h, ?_⟩)
    exact beq_self_eq_true x.key
  have hkey : y.key = x.key := by simpa using List.find?_some hy
  rw [keys_eq_map] at hnodup
  obtain rfl : y = x := List.inj_on_of_nodup_map hnodup (List.mem_of_find?_eq_some hy) h hkey
  exact find_eq_ok_iff.2 hy

end Litmus.OutcomeSet

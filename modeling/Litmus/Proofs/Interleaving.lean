import Litmus.Proofs.Composition
import Litmus.Proofs.Progress
import Litmus.Proofs.Reordering
import Mathlib.Algebra.BigOperators.Ring.List
import Mathlib.Algebra.Order.BigOperators.GroupWithZero.List
import Mathlib.Data.Nat.Choose.Basic
import Mathlib.Tactic.Ring

/-!
# How many executions there are

The instructions of different threads never wait for each other, and where a load may read is
decided by its own thread. So an execution of a program is an execution of each thread together with
a way to interleave them, and all combinations occur, whatever variables the threads share. The
number of executions is thus a product (`Program.executions_findings_eq`): the executions of the
threads, each taken alone, times the number of interleavings, which is a multinomial coefficient
(`interleavings_eq_div`).

For two programs side by side this is an induction along the tree of schedules. Below a schedule
that is under way stand the moves of the one program and those of the other
(`Program.moves_beside`), and the two sums that they contribute add up by Pascal's rule
(`Program.length_extensions_beside`). A program of several threads is its first thread beside the
others. A thread without instructions has no execution of its own to count; it only takes up a
number (`Program.executions_cons_nil`).
-/

namespace Litmus

/-! ### Interleavings -/

/-- The number of ways to interleave sequences of the given lengths. -/
def interleavings : List ℕ → ℕ
  | [] => 1
  | n :: ns => (n + ns.sum).choose n * interleavings ns

/-- The interleavings are counted by a multinomial coefficient. -/
theorem interleavings_mul_prod (ns : List ℕ) :
    interleavings ns * (ns.map Nat.factorial).prod = ns.sum.factorial := by
  induction ns with
  | nil => rfl
  | cons n ns ih =>
    rw [interleavings, List.map_cons, List.prod_cons, List.sum_cons, Nat.choose_symm_add,
      ← Nat.add_choose_mul_factorial_mul_factorial n ns.sum, ← ih]
    ring

/-- **The number of interleavings is a multinomial coefficient.** -/
theorem interleavings_eq_div (ns : List ℕ) :
    interleavings ns = ns.sum.factorial / (ns.map Nat.factorial).prod := by
  have hpos : 0 < (ns.map Nat.factorial).prod := by
    refine List.prod_pos fun k hk ↦ ?_
    obtain ⟨n, -, rfl⟩ := List.mem_map.1 hk
    exact Nat.factorial_pos n
  rw [← interleavings_mul_prod, Nat.mul_div_cancel _ hpos]

/-- If no thread has anything left, there is one way to go on. -/
theorem interleavings_of_forall_zero {ns : List ℕ} (h : ∀ n ∈ ns, n = 0) :
    interleavings ns = 1 := by
  induction ns with
  | nil => rfl
  | cons n ns ih =>
    obtain ⟨rfl, hns⟩ := List.forall_mem_cons.1 h
    rw [interleavings, ih hns, Nat.choose_zero_right]

namespace Program

variable {p q r : Program} {s : Setting} {limits : Limits} {g : ℤ → ℤ} {m n : ℕ} {σ τ ρ : Schedule}
  {done done' : List Position}

/-! ### Counting along the tree -/

/-- There are as many ways to go on as there are ways to go on after each of the moves. -/
theorem length_extensions_succ (p : Program) (s : Setting) (n : ℕ) (σ : Schedule) :
    (p.extensions s (n + 1) σ).length =
      ((p.moves s σ.order).map fun k ↦ (p.extensions s n (σ ++ [k])).length).sum :=
  List.length_flatMap

/-- A complete schedule has no next move. -/
theorem Admits.moves_eq_nil (h : p.Admits s σ) (hlen : σ.length = p.total) :
    p.moves s σ.order = [] := by
  refine List.eq_nil_iff_forall_not_mem.2 fun k hk ↦ ?_
  have hle := (h.snoc hk).length_le
  rw [List.length_append, List.length_singleton] at hle
  omega

/-- The moves inside a part, in the order in which the program tries them. -/
theorem PartOf.moves_rethread (h : p.PartOf r g)
    (hdone : ∀ b ∈ p.positions, b.rethread g ∈ done ↔ b ∈ done') :
    (((p.positions.map (Position.rethread g)).filter (r.ready s.model done)).flatMap fun a ↦
      (r.sourcesAfter s done a).map (Move.mk a)) = (p.moves s done').map (Move.rethread g) := by
  have hready : (p.positions.filter fun b ↦ r.ready s.model done (b.rethread g)) =
      p.positions.filter (p.ready s.model done') :=
    List.filter_congr fun b hb ↦ h.ready_rethread hb hdone
  rw [List.filter_map, List.flatMap_map, moves, List.map_flatMap]
  show ((p.positions.filter fun b ↦ r.ready s.model done (b.rethread g)).flatMap _) = _
  rw [hready]
  refine List.flatMap_congr fun b hb ↦ ?_
  rw [h.sourcesAfter_rethread (List.mem_filter.1 hb).1 hdone, List.map_map]
  rfl

/-- **What may run next is what may run next in the one program or in the other.** -/
theorem moves_beside (hσ : p.Restricts id σ ρ) (hτ : q.Restricts p.behind τ ρ) :
    (p.beside q).moves s ρ.order =
      (p.moves s σ.order).map (Move.rethread id) ++
        (q.moves s τ.order).map (Move.rethread p.behind) := by
  rw [moves, positions_beside, List.filter_append, List.flatMap_append,
    (p.partOf_left q).moves_rethread fun b hb ↦ hσ.mem_order (p.partOf_left q).injective hb,
    (p.partOf_right q).moves_rethread fun b hb ↦ hτ.mem_order (p.partOf_right q).injective hb]

/-- A move of the first program leaves the second where it is. -/
theorem Restricts.snoc_left {k : Move} (hσ : p.Restricts id σ ρ) (hτ : q.Restricts p.behind τ ρ)
    (hk : k.position ∈ p.positions) :
    p.Restricts id (σ ++ [k]) (ρ ++ [k.rethread id]) ∧
      q.Restricts p.behind τ (ρ ++ [k.rethread id]) :=
  ⟨hσ.inside hk, hτ.outside fun _ hb ↦ (rethread_ne hk hb).symm⟩

/-- A move of the second program leaves the first where it is. -/
theorem Restricts.snoc_right {k : Move} (hσ : p.Restricts id σ ρ) (hτ : q.Restricts p.behind τ ρ)
    (hk : k.position ∈ q.positions) :
    p.Restricts id σ (ρ ++ [k.rethread p.behind]) ∧
      q.Restricts p.behind (τ ++ [k]) (ρ ++ [k.rethread p.behind]) :=
  ⟨hσ.outside fun _ hb ↦ rethread_ne hb hk, hτ.inside hk⟩

/-- **The ways to complete two programs side by side**: each of them is completed in one of its own
ways, and the moves that remain are interleaved. -/
theorem length_extensions_beside (hσ : p.Restricts id σ ρ) (hτ : q.Restricts p.behind τ ρ)
    (hpσ : p.Admits s σ) (hqτ : q.Admits s τ) (hm : σ.length + m = p.total)
    (hn : τ.length + n = q.total) :
    ((p.beside q).extensions s (m + n) ρ).length =
      (m + n).choose m * ((p.extensions s m σ).length * (q.extensions s n τ).length) := by
  induction hN : m + n generalizing m n σ τ ρ with
  | zero =>
    obtain ⟨rfl, rfl⟩ : m = 0 ∧ n = 0 := by omega
    rfl
  | succ N ih =>
    -- what each of the two programs contributes if it makes the next move
    have hleft : ∀ m', m = m' + 1 → (((p.moves s σ.order).map (Move.rethread id)).map fun k ↦
        ((p.beside q).extensions s N (ρ ++ [k])).length).sum =
          N.choose m' * ((p.extensions s m σ).length * (q.extensions s n τ).length) := by
      rintro m' rfl
      rw [length_extensions_succ, ← List.sum_map_mul_right, ← List.sum_map_mul_left, List.map_map]
      refine congrArg List.sum (List.map_congr_left fun k hk ↦ ?_)
      obtain ⟨hσ', hτ'⟩ := hσ.snoc_left hτ (mem_moves.1 hk).1
      refine ih hσ' hτ' (hpσ.snoc hk) hqτ ?_ hn (by omega)
      rw [List.length_append, List.length_singleton]
      omega
    have hright : ∀ n', n = n' + 1 → (((q.moves s τ.order).map (Move.rethread p.behind)).map fun k ↦
        ((p.beside q).extensions s N (ρ ++ [k])).length).sum =
          N.choose m * ((p.extensions s m σ).length * (q.extensions s n τ).length) := by
      rintro n' rfl
      rw [length_extensions_succ, ← List.sum_map_mul_left, ← List.sum_map_mul_left, List.map_map]
      refine congrArg List.sum (List.map_congr_left fun k hk ↦ ?_)
      obtain ⟨hσ', hτ'⟩ := hσ.snoc_right hτ (mem_moves.1 hk).1
      refine ih hσ' hτ' hpσ (hqτ.snoc hk) hm ?_ (by omega)
      rw [List.length_append, List.length_singleton]
      omega
    rw [length_extensions_succ, moves_beside hσ hτ, List.map_append, List.sum_append]
    cases m with
    | zero =>
      rw [hpσ.moves_eq_nil hm, hright N (by omega), Nat.choose_zero_right, Nat.choose_zero_right]
      exact Nat.zero_add _
    | succ m =>
      rw [hleft m rfl, Nat.choose_succ_succ', Nat.add_mul]
      cases n with
      | zero =>
        have hfew : N.choose (m + 1) = 0 := Nat.choose_eq_zero_of_lt (by omega)
        rw [hqτ.moves_eq_nil hn, hfew, Nat.zero_mul]
        rfl
      | succ n => rw [hright n rfl]

/-- **Executions of two programs side by side**, whatever variables they have in common. -/
theorem executions_beside (p q : Program) (s : Setting) :
    ((p.beside q).findings s).executions =
      (p.total + q.total).choose p.total *
        ((p.findings s).executions * (q.findings s).executions) := by
  have htotal : (p.beside q).total = p.total + q.total := by
    rw [total, beside, List.flatten_append, List.length_append]
    rfl
  show ((p.beside q).extensions s (p.beside q).total []).length = _
  rw [htotal]
  exact length_extensions_beside .nil .nil .nil .nil (Nat.zero_add _) (Nat.zero_add _)

/-! ### Threads without instructions -/

/-- Renumbering the threads does not change the number of executions. -/
theorem Renumbers.executions_eq (h : p.Renumbers r g) :
    (r.findings s).executions = (p.findings s).executions := by
  show (r.schedules s).length = (p.schedules s).length
  rw [h.schedules_perm.length_eq, List.length_map]

/-- An empty thread in front changes nothing but the numbers of the others. -/
theorem executions_cons_nil {ths : List (List Instruction)} (h : ths.flatten ≠ [])
    (h' : ([] :: ths).flatten ≠ []) :
    (findings ⟨[] :: ths, h'⟩ s).executions = (findings ⟨ths, h⟩ s).executions := by
  refine Renumbers.executions_eq (g := (1 + ·)) ⟨⟨add_right_injective 1, fun t th hth ↦ ?_⟩, ?_⟩
  · refine ⟨t + 1, th, ?_, hth, List.prefix_rfl⟩
    rw [Int.natCast_add, Int.add_comm]
    rfl
  · intro a ha
    obtain ⟨u, i, th, rfl, hth, hi⟩ := mem_positions_iff_exists.1 ha
    cases u with
    | zero =>
      obtain rfl : [] = th := Option.some.inj hth
      exact absurd hi (Nat.not_lt_zero i)
    | succ u =>
      refine ⟨⟨u, i⟩, mem_positions_iff_exists.2 ⟨u, i, th, rfl, hth, hi⟩, ?_⟩
      rw [Position.rethread, Int.natCast_add, Int.add_comm]
      rfl

/-- Empty threads behind the first one change nothing. -/
theorem executions_cons_of_flatten {th : List Instruction} {ths : List (List Instruction)}
    (h : [th].flatten ≠ []) (h' : (th :: ths).flatten ≠ []) (hths : ths.flatten = []) :
    (findings ⟨th :: ths, h'⟩ s).executions = (findings ⟨[th], h⟩ s).executions := by
  refine Renumbers.executions_eq (g := id) ⟨⟨Function.injective_id, fun t th' hth ↦ ?_⟩, ?_⟩
  · refine ⟨t, th', rfl, ?_, List.prefix_rfl⟩
    obtain ⟨ht, rfl⟩ := List.getElem?_eq_some_iff.1 hth
    obtain rfl : t = 0 := Nat.lt_one_iff.1 ht
    rfl
  · intro a ha
    obtain ⟨u, i, th', rfl, hth, hi⟩ := mem_positions_iff_exists.1 ha
    cases u with
    | zero => exact ⟨⟨(0 : ℕ), i⟩, mem_positions_iff_exists.2 ⟨0, i, th', rfl, hth, hi⟩, rfl⟩
    | succ u =>
      have hnil : th' = [] := List.flatten_eq_nil_iff.1 hths th' (List.mem_of_getElem? hth)
      rw [hnil] at hi
      exact absurd hi (Nat.not_lt_zero i)

/-! ### Thread by thread -/

/-- The number of executions of a thread as a program of its own. A thread without instructions has
one, in which nothing happens. -/
def threadExecutions (s : Setting) (th : List Instruction) : ℕ :=
  if h : [th].flatten = [] then 1 else (findings ⟨[th], h⟩ s).executions

theorem threadExecutions_nil (s : Setting) : threadExecutions s [] = 1 := rfl

/-- **The executions of a program are the executions of its threads, interleaved in all ways.** -/
theorem executions_findings_eq (p : Program) (s : Setting) :
    (p.findings s).executions =
      interleavings (p.threads.map List.length) * (p.threads.map (threadExecutions s)).prod := by
  -- by induction on the threads, as the first one beside all the others
  obtain ⟨ths, hp⟩ := p
  induction ths with
  | nil => exact absurd rfl hp
  | cons th ths ih =>
    rw [List.map_cons, List.map_cons, interleavings, List.prod_cons]
    by_cases hth : [th].flatten = []
    · obtain rfl : th = [] := by simpa using hth
      have hths : ths.flatten ≠ [] := hp
      rw [executions_cons_nil hths hp, ih hths, threadExecutions_nil, List.length_nil,
        Nat.choose_zero_right, Nat.one_mul, Nat.one_mul]
    · have hone : threadExecutions s th = (findings ⟨[th], hth⟩ s).executions := dif_neg hth
      by_cases hths : ths.flatten = []
      · -- the first thread is all there is
        have hempty := List.flatten_eq_nil_iff.1 hths
        have hlengths : ∀ n ∈ ths.map List.length, n = 0 := by
          rw [List.forall_mem_map]
          exact fun th' hth' ↦ List.length_eq_zero_iff.2 (hempty th' hth')
        have hprod : (ths.map (threadExecutions s)).prod = 1 := by
          refine List.prod_eq_one ?_
          rw [List.forall_mem_map]
          intro th' hth'
          rw [hempty th' hth', threadExecutions_nil]
        rw [executions_cons_of_flatten hth hp hths, hone, hprod,
          interleavings_of_forall_zero hlengths, List.sum_eq_zero hlengths, Nat.add_zero,
          Nat.choose_self, Nat.one_mul, Nat.mul_one]
      · have hsum : total ⟨ths, hths⟩ = (ths.map List.length).sum := List.length_flatten
        have hlength : total ⟨[th], hth⟩ = th.length := by simp [total]
        have hbeside := executions_beside ⟨[th], hth⟩ ⟨ths, hths⟩ s
        rw [hsum, hlength, ih hths, ← hone] at hbeside
        refine hbeside.trans ?_
        ring

/-! ### What an exploration counts -/

/-- The number of executions that an exploration of a single thread counts. A thread without
instructions is no program and counts once. -/
def exploreThread (s : Setting) (limits : Limits) (th : List Instruction) : Except Fault ℕ :=
  if th = [] then .ok 1
  else do
    let p ← ofThreads [th]
    let f ← p.explore s limits
    return f.executions

/-- **The executions of a thread alone are counted by exploring it as a program.** An empty thread
has one, without an exploration. -/
theorem exploreThread_eq {th : List Instruction} (hlen : th.length ≤ limits.instructions)
    (hv : ∀ i ∈ th, i.value?.all Numeral.fits = true) :
    exploreThread s limits th = .ok (threadExecutions s th) := by
  by_cases hth : th = []
  · rw [hth]
    rfl
  · have hflat : ¬[th].flatten = [] := by simpa using hth
    have hmake : ofThreads [th] = .ok ⟨[th], hflat⟩ := by
      rw [ofThreads, if_neg (List.cons_ne_nil _ _), dif_neg hflat]
    have hcheck : check ⟨[th], hflat⟩ limits = .ok () := by
      refine check_eq_ok_iff.2 ⟨limits.threads_pos, ?_⟩
      rwa [List.forall_mem_singleton]
    have hfit : storesFit ⟨[th], hflat⟩ = true := by
      rw [storesFit, List.all_eq_true]
      simpa using hv
    rw [exploreThread, if_neg hth, hmake, threadExecutions, dif_neg hflat]
    show (explore ⟨[th], hflat⟩ s limits >>= _) = _
    rw [explore_of_storesFit hcheck hfit]
    rfl

/-- **The number of executions factorizes.** In every setting, a program with `N` instructions in
threads of lengths `n₁, …, nₖ` has `N! / (n₁! ⋯ nₖ!)` times as many executions as the product of
those of its threads, each explored alone, whatever variables the threads share. -/
theorem explore_factorizes (p : Program) (s : Setting) (limits : Limits)
    (hc : p.check limits = .ok ()) (hv : p.storesFit = true) :
    ∃ f counts, p.explore s limits = .ok f ∧
      p.threads.mapM (exploreThread s limits) = .ok counts ∧
      (p.threads.map fun th ↦ th.length.factorial).prod ∣ p.total.factorial ∧
      f.executions =
        p.total.factorial / (p.threads.map fun th ↦ th.length.factorial).prod * counts.prod := by
  have hlengths : (p.threads.map fun th ↦ th.length.factorial) =
      (p.threads.map List.length).map Nat.factorial := by
    rw [List.map_map]
    rfl
  have htotal : p.total = (p.threads.map List.length).sum := List.length_flatten
  refine ⟨_, p.threads.map (threadExecutions s), explore_of_storesFit hc hv, ?_, ?_, ?_⟩
  · refine mapM_eq_ok fun th hth ↦ exploreThread_eq ((check_eq_ok_iff.1 hc).2 th hth) fun i hi ↦ ?_
    exact List.all_eq_true.1 hv i (List.mem_flatten.2 ⟨th, hth, hi⟩)
  · rw [hlengths, htotal, ← interleavings_mul_prod]
    exact Nat.dvd_mul_left _ _
  · rw [hlengths, htotal, ← interleavings_eq_div, executions_findings_eq]

theorem storeForwarding_factorizes :
    storeForwarding.check .standard = .ok () ∧ storeForwarding.storesFit = true ∧
      ∃ f counts, storeForwarding.explore { model := .tso, readAround := true } .standard = .ok f ∧
        storeForwarding.threads.mapM
          (exploreThread { model := .tso, readAround := true } .standard) = .ok counts ∧
        (storeForwarding.threads.map fun th ↦ th.length.factorial).prod ∣
          storeForwarding.total.factorial ∧
        f.executions = storeForwarding.total.factorial /
          (storeForwarding.threads.map fun th ↦ th.length.factorial).prod * counts.prod :=
  ⟨rfl, by decide, explore_factorizes _ _ _ rfl (by decide)⟩

end Program

end Litmus

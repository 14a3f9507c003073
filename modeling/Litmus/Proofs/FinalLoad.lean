import Litmus.Proofs.Keys
import Litmus.Proofs.Parts

/-!
# A final load is passive

A load at the end of a thread changes nothing for the others. Nothing waits for it, and it does not
store, so the program without it (`Program.withoutLast`) is an undisturbed part of the program.

Its runs are thus the runs of the program in which the load is left out. Conversely the load can
always be made after all else has run, whatever source is open to it then
(`Program.Observed.exists_legal`). So the outcomes of the program without the load are the outcomes
of the program without the entry of the load. If nothing else accesses the variable of the load, the
variable goes as well; if something does, it may be declared later than before, and the memory is
listed in the new order (`Outcome.restrict`).
-/

namespace Litmus

/-- What an outcome says about the given variables, in the order in which they are given, and about
all loads but the one at `q`. -/
def Outcome.restrict (o : Outcome) (names : List String) (q : Position) : Outcome where
  memory := names.filterMap fun x ↦ (o.memory.lookup x).map (Prod.mk x)
  loads := o.loads.filter fun l ↦ l.position ≠ q

namespace Program

variable {p r : Program} {s : Setting} {limits : Limits} {σ : Schedule} {a q : Position}
  {G H : Image} {t : ℕ} {th : List Instruction} {x : String}

/-! ### One more load -/

/-- The program `r` is `p` with one more instruction, a load at `q` behind which its thread has
nothing. -/
structure Observed (p r : Program) (q : Position) : Prop extends p.PartOf r id where
  /-- The load. -/
  mem_loads : q ∈ r.loads
  /-- Nothing else is left out. -/
  mem_positions_iff : ∀ a, a ∈ p.positions ↔ a ∈ r.positions ∧ a ≠ q

namespace Observed

/-- The load does not store. -/
theorem undisturbed (h : p.Observed r q) : p.Undisturbed r id := by
  intro a ha hout x _
  obtain rfl : a = q := by
    by_contra hne
    exact hout a ((h.mem_positions_iff a).2 ⟨ha, hne⟩) rfl
  obtain ⟨-, y, hy⟩ := Program.mem_loads.1 h.mem_loads
  exact storedAt_load hy

/-- The load is all that the longer program has more. -/
theorem positions_eq (h : p.Observed r q) : p.positions = r.positions.filter (· ≠ q) := by
  refine eq_of_increasing p.positions_sorted (r.positions_sorted.filter _) fun a ↦ ?_
  rw [h.mem_positions_iff, List.mem_filter, decide_eq_true_iff]

theorem loads_eq (h : p.Observed r q) : p.loads = r.loads.filter (· ≠ q) := by
  have hloads : p.positions.filter (fun a ↦ (r.get? a).any (·.isLoad)) = p.loads := by
    simpa using h.filter_loads_rethread
  rw [← hloads, h.positions_eq, List.filter_comm, loads]

/-- The load may bring a variable, but it takes none away. -/
theorem mem_names (h : p.Observed r q) (hx : x ∈ p.names) : x ∈ r.names := by
  obtain ⟨a, ha, j, hj, rfl⟩ := mem_names_iff.1 hx
  exact mem_names_of_get? ((h.get?_rethread ha).trans hj)

/-- **The outcome of the part is the rest of the outcome.** -/
theorem restrict_outcomeOf (h : p.Observed r q) (hs : p.Shows id G H) :
    (r.outcomeOf G).restrict p.names q = p.outcomeOf H := by
  -- the shorter program has fewer variables, perhaps in another order: each one is looked up
  have hmemory : (p.names.filterMap fun x ↦ ((r.outcomeOf G).memory.lookup x).map (Prod.mk x)) =
      p.names.map fun x ↦ (x, G.memory x) := by
    rw [← List.filterMap_eq_map]
    refine List.filterMap_congr fun x hx ↦ ?_
    rw [lookup_outcomeOf (h.mem_names hx)]
    rfl
  have hloads : ((r.outcomeOf G).loads.filter fun l ↦ l.position ≠ q) =
      p.loads.filterMap fun a ↦ (r.get? a).map fun i ↦ ⟨a, i.name, G.seen a⟩ := by
    rw [h.loads_eq, List.filterMap_filter, outcomeOf, List.filter_filterMap]
    refine List.filterMap_congr fun a _ ↦ ?_
    cases r.get? a with
    | none => simp
    | some i => simp [Option.filter]
  rw [← Outcome.rethread_id (p.outcomeOf H), hs.rethread_outcomeOf h.toPartOf, Outcome.restrict,
    hmemory, hloads, Position.rethread_id, List.map_id]

/-- **Every run of the part can be completed by the load.** -/
theorem exists_legal (h : p.Observed r q) (hσ : p.Legal s σ) :
    ∃ ρ, r.Legal s ρ ∧ p.Restricts id σ ρ := by
  have hadmits : r.Admits s σ := by simpa using h.toPartOf.admits_append .nil .nil hσ.admits
  have hσσ : p.Restricts id σ σ := by simpa using restricts_map (g := id) hσ.admits.subset
  have hout : ∀ b ∈ p.positions, b.rethread id ≠ q :=
    fun b hb ↦ ((h.mem_positions_iff b).1 hb).2
  have hnot : q ∉ σ.order := fun hmem ↦ hout q (hσ.admits.subset q hmem) rfl
  have hall : ∀ a ∈ r.positions, a ≠ q → a ∈ σ.order := fun a ha hne ↦
    hσ.perm.symm.subset ((h.mem_positions_iff a).2 ⟨ha, hne⟩)
  -- the load runs last, when it has nothing to wait for
  obtain ⟨src, hsnoc⟩ := hadmits.exists_snoc (Program.mem_loads.1 h.mem_loads).1 hnot <| by
    intro a ha hpre
    refine hall a ha ?_
    rintro rfl
    rw [not_precedes_self] at hpre
    cases hpre
  refine ⟨_, hsnoc.legal_of_forall_mem fun a ha ↦ ?_, hσσ.outside hout⟩
  rw [Schedule.order_snoc, List.mem_append, List.mem_singleton, or_iff_not_imp_right]
  exact hall a ha

/-- **The outcomes of the part are the outcomes without the load.** -/
theorem mem_outcomes_iff (h : p.Observed r q) {o' : Outcome} :
    o' ∈ (p.findings s).outcomes ↔
      ∃ o ∈ (r.findings s).outcomes, o.restrict p.names q = o' := by
  have houtcome {σ ρ : Schedule} (hσ : p.Restricts id σ ρ) (hρ : r.Legal s ρ) :
      (r.outcomeAfter ρ).restrict p.names q = p.outcomeAfter σ :=
    h.restrict_outcomeOf (hσ.shows h.toPartOf h.undisturbed hρ.admits.subset)
  simp only [mem_outcomes_findings]
  constructor
  · rintro ⟨σ, hσ, rfl⟩
    obtain ⟨ρ, hρ, hσρ⟩ := h.exists_legal hσ
    exact ⟨_, ⟨ρ, hρ, rfl⟩, houtcome hσρ hρ⟩
  · rintro ⟨_, ⟨ρ, hρ, rfl⟩, rfl⟩
    obtain ⟨σ, hσρ⟩ := p.exists_restricts id ρ
    exact ⟨σ, hσρ.legal h.toPartOf hρ, (houtcome hσρ hρ).symm⟩

end Observed

/-! ### Leaving out the last instruction of a thread -/

theorem length_flatten_le_modify_dropLast (threads : List (List Instruction)) (t : ℕ) :
    threads.flatten.length ≤ (threads.modify t List.dropLast).flatten.length + 1 := by
  induction threads generalizing t with
  | nil => simp
  | cons th threads ih =>
    cases t with
    | zero =>
      rw [List.modify_zero_cons, List.flatten_cons, List.flatten_cons, List.length_append,
        List.length_append, List.length_dropLast]
      omega
    | succ t =>
      have hrest := ih t
      rw [List.modify_succ_cons, List.flatten_cons, List.flatten_cons, List.length_append,
        List.length_append]
      omega

theorem flatten_modify_dropLast_ne_nil (h : 2 ≤ p.total) (t : ℕ) :
    (p.threads.modify t List.dropLast).flatten ≠ [] := by
  intro hnil
  have hlen := length_flatten_le_modify_dropLast p.threads t
  rw [hnil, List.length_nil] at hlen
  rw [total] at h
  omega

/-- **The program without the last instruction of thread `t`.** The thread stays, even if it is
empty then. -/
def withoutLast (p : Program) (t : ℕ) (h : 2 ≤ p.total) : Program where
  threads := p.threads.modify t List.dropLast
  flatten_ne_nil := flatten_modify_dropLast_ne_nil h t

variable (h2 : 2 ≤ p.total)

theorem getElem?_threads_withoutLast (t u : ℕ) : (p.withoutLast t h2).threads[u]? =
    p.threads[u]?.map fun th ↦ if t = u then th.dropLast else th :=
  List.getElem?_modify ..

/-- Leaving out the last instruction of a thread moves no other one. -/
theorem partOf_withoutLast (t : ℕ) : (p.withoutLast t h2).PartOf p id where
  injective := Function.injective_id
  thread u th' hth' := by
    rw [getElem?_threads_withoutLast, Option.map_eq_some_iff] at hth'
    obtain ⟨th, hth, rfl⟩ := hth'
    refine ⟨u, th, rfl, hth, ?_⟩
    split
    · exact th.dropLast_prefix
    · exact List.prefix_rfl

/-- Only the last position of the thread is left out. -/
theorem mem_positions_withoutLast {j : Instruction} (hth : p.threads[t]? = some (th ++ [j])) :
    a ∈ (p.withoutLast t h2).positions ↔ a ∈ p.positions ∧ a ≠ ⟨t, th.length⟩ := by
  constructor
  · intro ha
    refine ⟨(partOf_withoutLast h2 t).rethread_mem_positions ha, ?_⟩
    rintro rfl
    obtain ⟨u, i, th', heq, hth', hi⟩ := mem_positions_iff_exists.1 ha
    obtain ⟨rfl, rfl⟩ := Position.natCast_inj.1 heq
    rw [getElem?_threads_withoutLast, hth, Option.map_some, if_pos rfl, List.dropLast_concat]
      at hth'
    obtain rfl := Option.some.inj hth'
    exact Nat.lt_irrefl _ hi
  · rintro ⟨ha, hne⟩
    obtain ⟨u, i, th', rfl, hth', hi⟩ := mem_positions_iff_exists.1 ha
    refine mem_positions_iff_exists.2 ⟨u, i, if t = u then th'.dropLast else th', rfl, ?_, ?_⟩
    · rw [getElem?_threads_withoutLast, hth', Option.map_some]
    · split
      · subst u
        obtain rfl := Option.some.inj (hth.symm.trans hth')
        have hi' : i ≠ th.length := fun h ↦ hne (by rw [h])
        rw [List.length_append, List.length_singleton] at hi
        rw [List.dropLast_concat]
        omega
      · exact hi

/-- If the last instruction of a thread is a load, the program without it is observed by it. -/
theorem observed_withoutLast (hth : p.threads[t]? = some (th ++ [.load x])) :
    (p.withoutLast t h2).Observed p ⟨t, th.length⟩ where
  toPartOf := partOf_withoutLast h2 t
  mem_loads := by
    have hget : p.get? ⟨t, th.length⟩ = some (.load x) := by
      rw [get?_natCast, hth, Option.bind_some, List.getElem?_concat_length]
    exact mem_loads.2 ⟨mem_positions_of_get?_natCast hget, x, hget⟩
  mem_positions_iff _ := mem_positions_withoutLast h2 hth

/-- A program that is small enough stays so. -/
theorem check_withoutLast (t : ℕ) (hc : p.check limits = .ok ()) :
    (p.withoutLast t h2).check limits = .ok () := by
  obtain ⟨hthreads, hinstructions⟩ := check_eq_ok_iff.1 hc
  refine check_eq_ok_iff.2 ⟨by rwa [withoutLast, List.length_modify], fun th' hmem ↦ ?_⟩
  obtain ⟨u, hu⟩ := List.mem_iff_getElem?.1 hmem
  obtain ⟨_, th, -, hth, hpre⟩ := (partOf_withoutLast h2 t).thread u th' hu
  exact hpre.length_le.trans (hinstructions th (List.mem_of_getElem? hth))

/-- **A final load is passive.** Let the last instruction of a thread be a load, and not the only
instruction of the program. In every setting, the outcomes of the program without it are exactly the
outcomes of the program without the entry of that load, and with the memory of the variables that
are left. -/
theorem explore_withoutLast (p : Program) (s : Setting) (limits : Limits) (t : ℕ)
    (th : List Instruction) (x : String) (h2 : 2 ≤ p.total)
    (hth : p.threads[t]? = some (th ++ [.load x])) (hc : p.check limits = .ok ())
    (hv : p.storesFit = true) :
    ∃ f f', p.explore s limits = .ok f ∧ (p.withoutLast t h2).explore s limits = .ok f' ∧
      ∀ o', o' ∈ f'.outcomes ↔
        ∃ o ∈ f.outcomes, o.restrict (p.withoutLast t h2).names ⟨t, th.length⟩ = o' :=
  ⟨_, _, explore_of_storesFit hc hv,
    explore_of_storesFit (check_withoutLast h2 t hc) ((partOf_withoutLast h2 t).storesFit hv),
    fun _ ↦ (observed_withoutLast h2 hth).mem_outcomes_iff⟩

/-- A load declares `y` before the other thread comes to `x`. Without it, `x` is the first. -/
def earlyLoad : Program where
  threads := [[.load "y"], [.store "x" 1, .store "y" 1, .load "x"]]
  flatten_ne_nil := by decide

theorem earlyLoad_withoutLast :
    earlyLoad.names = ["y", "x"] ∧ (earlyLoad.withoutLast 0 (by decide)).names = ["x", "y"] ∧
      earlyLoad.check .standard = .ok () ∧ earlyLoad.storesFit = true ∧
      ∃ f f', earlyLoad.explore { model := .tso } .standard = .ok f ∧
        (earlyLoad.withoutLast 0 (by decide)).explore { model := .tso } .standard = .ok f' ∧
        ∀ o', o' ∈ f'.outcomes ↔ ∃ o ∈ f.outcomes, o.restrict ["x", "y"] ⟨0, 0⟩ = o' := by
  refine ⟨by decide, by decide, rfl, by decide, ?_⟩
  exact explore_withoutLast earlyLoad { model := .tso } .standard 0 [] "y" (by decide) rfl rfl
    (by decide)

end Program

end Litmus

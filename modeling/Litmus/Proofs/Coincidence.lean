import Litmus.Proofs.Violations

/-!
# Where the models coincide

The models differ in two things only: whether a load waits for the earlier stores of its own thread
to its variable, and where it reads if it has overtaken them. If no load has such a store before it,
nothing is left of the difference. The waiting edges are the same
(`Program.NoOwnReads.precedes_eq`), so are the sources that are open to a load
(`Program.NoOwnReads.sourcesAfter_eq`), and hence the moves at every point of a search, in the order
in which they are tried (`Program.NoOwnReads.moves_eq`).

The searches then run in lockstep, through the same schedules in the same order
(`Program.NoOwnReads.schedules_eq`), and whatever they report is the same: keys, outcomes,
witnesses, numbers, and the fault of an outcome that cannot be written
(`Program.explore_coincides`).
-/

namespace Litmus.Program

variable {p : Program} {s s' : Setting} {md md' : Model} {limits : Limits} {done : List Position}
  {q r : Position} {x : String}

/-- No load stands behind a store of its own thread to its variable. -/
def NoOwnReads (p : Program) : Prop :=
  ∀ th ∈ p.threads, th.Pairwise fun i j ↦ i.isStore → j.isLoad → i.name ≠ j.name

instance : Decidable p.NoOwnReads :=
  inferInstanceAs (Decidable (∀ th ∈ p.threads, _))

/-! ### Nothing to tell them apart -/

/-- There are no stores that a load could take its value from. -/
theorem NoOwnReads.ownStores_eq_nil (h : p.NoOwnReads) (hq : q ∈ p.positions)
    (hget : p.get? q = some (.load x)) : p.ownStores q = [] := by
  refine List.eq_nil_iff_forall_not_mem.2 fun r hr ↦ ?_
  obtain ⟨t, n, th, rfl, hth, -⟩ := mem_positions_iff_exists.1 hq
  obtain ⟨i, hi, v, -, hstore⟩ := (mem_ownStores_natCast hget).1 hr
  rw [get?_natCast, hth, Option.bind_some] at hget hstore
  obtain ⟨hn, hload⟩ := List.getElem?_eq_some_iff.1 hget
  obtain ⟨hi', hst⟩ := List.getElem?_eq_some_iff.1 hstore
  have hne := List.pairwise_iff_getElem.1 (h th (List.mem_of_getElem? hth)) i n hi' hn hi
  rw [hst, hload] at hne
  exact hne rfl rfl rfl

/-- What has to wait under IBM370 has to wait under TSO. -/
theorem NoOwnReads.precedes_tso (h : p.NoOwnReads) (hr : r ∈ p.positions) (hq : q ∈ p.positions)
    (hpre : p.precedes .ibm370 r q = true) : p.precedes .tso r q = true := by
  by_contra hnot
  have hown : r ∈ p.ownStores q := mem_ownStores_of_precedes hr hpre hnot
  obtain ⟨i, hi⟩ := exists_get? hq
  cases i with
  | load x =>
    rw [h.ownStores_eq_nil hq hi] at hown
    cases hown
  | store x v =>
    obtain ⟨-, ht, hlt, -⟩ := mem_ownStores.1 hown
    exact hnot (precedes_of_store .tso hi hr ht hlt)

/-- **All models have the same waiting edges.** -/
theorem NoOwnReads.precedes_eq (h : p.NoOwnReads) (hr : r ∈ p.positions) (hq : q ∈ p.positions)
    (md md' : Model) : p.precedes md r q = p.precedes md' r q := by
  have htso : ∀ md : Model, p.precedes md r q = p.precedes .tso r q := by
    intro md
    cases md with
    | tso => rfl
    | ibm370 => exact Bool.eq_iff_iff.2 ⟨h.precedes_tso hr hq, precedes_ibm370⟩
  rw [htso md, htso md']

/-- **The same instructions may run next.** -/
theorem NoOwnReads.ready_eq (h : p.NoOwnReads) (hq : q ∈ p.positions) (md md' : Model) :
    p.ready md done q = p.ready md' done q := by
  rw [Bool.eq_iff_iff, ready_iff, ready_iff]
  refine and_congr_right fun _ ↦ forall₂_congr fun r hr ↦ ?_
  rw [h.precedes_eq hr hq md md']

/-- **All loads read memory, whatever has run.** -/
theorem NoOwnReads.sourcesAfter_load (h : p.NoOwnReads) (hq : q ∈ p.positions)
    (hget : p.get? q = some (.load x)) : p.sourcesAfter s done q = [some .memory] := by
  rw [sourcesAfter, hget]
  cases s.model with
  | ibm370 => rfl
  | tso => exact if_pos (Or.inl (h.ownStores_eq_nil hq hget))

/-- So the sources that are open to a load do not depend on the setting. -/
theorem NoOwnReads.sourcesAfter_eq (h : p.NoOwnReads) (hq : q ∈ p.positions) (s s' : Setting) :
    p.sourcesAfter s done q = p.sourcesAfter s' done q := by
  obtain ⟨i, hi⟩ := exists_get? hq
  cases i with
  | load x => rw [h.sourcesAfter_load hq hi, h.sourcesAfter_load hq hi]
  | store x v => rw [sourcesAfter, sourcesAfter, hi]

/-! ### In lockstep -/

/-- **At every point the same moves are tried, in the same order.** -/
theorem NoOwnReads.moves_eq (h : p.NoOwnReads) (s s' : Setting) (done : List Position) :
    p.moves s done = p.moves s' done := by
  have hready : p.positions.filter (p.ready s.model done) =
      p.positions.filter (p.ready s'.model done) :=
    List.filter_congr fun q hq ↦ h.ready_eq hq s.model s'.model
  rw [moves, moves, hready]
  refine List.flatMap_congr fun q hq ↦ ?_
  rw [h.sourcesAfter_eq (List.mem_filter.1 hq).1 s s']

/-- **The searches go through the same schedules, in the same order.** -/
theorem NoOwnReads.schedules_eq (h : p.NoOwnReads) (s s' : Setting) :
    p.schedules s = p.schedules s' :=
  extensions_congr (h.moves_eq s s') _ _

/-- What an exploration returns depends on the schedules alone. -/
theorem explore_congr (h : p.schedules s = p.schedules s') (limits : Limits) :
    p.explore s limits = p.explore s' limits := by
  have hlegal : ∀ σ, p.Legal s σ ↔ p.Legal s' σ := by
    intro σ
    rw [← mem_schedules, h, mem_schedules]
  cases hc : p.check limits with
  | error fault =>
    rw [explore, explore, hc]
    rfl
  | ok u =>
    by_cases hfit : ∀ σ, p.Legal s σ → (p.outcomeAfter σ).fits = true
    · have hfindings : p.findings s = p.findings s' := by rw [findings, findings, h]
      rw [explore_of_fits hc hfit, hfindings,
        explore_of_fits hc fun σ hσ ↦ hfit σ ((hlegal σ).2 hσ)]
    · push Not at hfit
      obtain ⟨σ, hσ, hnot⟩ := hfit
      rw [explore_of_not_fits hc hσ hnot, explore_of_not_fits hc ((hlegal σ).1 hσ) hnot]

/-- If both models find the same, a comparison has nothing to report. -/
theorem compare_of_explore_eq {around : Bool} (h : p.explore { model := .ibm370 } limits =
    p.explore { model := .tso, readAround := around } limits) :
    p.compare limits around =
      (p.explore { model := .ibm370 } limits).map fun f ↦ ⟨p, f, f⟩ := by
  rw [compare, ← h]
  cases p.explore { model := .ibm370 } limits with
  | error fault => rfl
  | ok f => rfl

/-- Findings that are compared with themselves have no violations. -/
theorem violations_self (p : Program) (f : Findings) : (Comparison.mk p f f).violations = [] := by
  refine List.eq_nil_iff_forall_not_mem.2 fun key hkey ↦ ?_
  obtain ⟨hmem, hnot⟩ := Comparison.mem_violations.1 hkey
  exact hnot hmem

/-- **If no load has an earlier store of its own thread to its variable, all settings give the same
result**: the same keys in the same order with the same outcomes and witnesses, the same number of
executions, or the same fault. A comparison of the models then reports no violation. -/
theorem explore_coincides (p : Program) (limits : Limits) (h : p.NoOwnReads) :
    (∀ s s', p.explore s limits = p.explore s' limits) ∧
      (∀ around c, p.compare limits around = .ok c → c.violations = []) ∧
      (p.check limits = .ok () → p.storesFit = true → ∃ f, (∀ s, p.explore s limits = .ok f) ∧
        ∀ around, p.compare limits around = .ok ⟨p, f, f⟩) := by
  have hexplore : ∀ s s', p.explore s limits = p.explore s' limits :=
    fun s s' ↦ explore_congr (h.schedules_eq s s') limits
  -- both searches of a comparison are the same one
  have hcompare : ∀ around, p.compare limits around =
      (p.explore { model := .ibm370 } limits).map fun f ↦ ⟨p, f, f⟩ :=
    fun around ↦ compare_of_explore_eq (hexplore _ _)
  refine ⟨hexplore, fun around c hc ↦ ?_, fun hc hv ↦ ?_⟩
  · rw [hcompare around] at hc
    cases hf : p.explore { model := .ibm370 } limits with
    | error fault =>
      rw [hf] at hc
      cases hc
    | ok f =>
      rw [hf] at hc
      obtain rfl := Except.ok.inj hc
      exact violations_self p f
  · have hf : ∀ s, p.explore s limits = .ok (p.findings { model := .ibm370 }) :=
      fun s ↦ (hexplore s _).trans (explore_of_storesFit hc hv)
    refine ⟨_, hf, fun around ↦ ?_⟩
    rw [hcompare around, hf]
    rfl

/-- Store buffering: both loads can see zero, but no load is of a variable that its own thread
stores in. -/
def storeBuffering : Program where
  threads := [[.store "x" 1, .load "y"], [.store "y" 1, .load "x"]]
  flatten_ne_nil := by decide

/-- Both threads load before their stores have reached memory. No thread loads what it stores, so
this breaks no rule of store atomicity. -/
theorem storeBuffering_coincides :
    storeBuffering.NoOwnReads ∧ storeBuffering.check .standard = .ok () ∧
      storeBuffering.storesFit = true ∧
      ∃ f, (∀ s, storeBuffering.explore s .standard = .ok f) ∧
        "[x]==1; [y]==1; y==0; x==0; " ∈ f.outcomes.keys ∧
        ∀ around, ∃ c, storeBuffering.compare .standard around = .ok c ∧ c.violations = [] := by
  obtain ⟨-, hviolations, hreturns⟩ := explore_coincides storeBuffering .standard (by decide)
  obtain ⟨f, hf, hc⟩ := hreturns rfl (by decide)
  refine ⟨by decide, rfl, by decide, f, hf, ?_,
    fun around ↦ ⟨_, hc around, hviolations _ _ (hc around)⟩⟩
  obtain ⟨-, -, rfl⟩ := explore_eq_ok_iff.1 (hf { model := .tso })
  exact mem_keys_findings.2 ⟨[⟨⟨0, 1⟩, some .memory⟩, ⟨⟨1, 1⟩, some .memory⟩, ⟨⟨0, 0⟩, none⟩,
    ⟨⟨1, 0⟩, none⟩], by decide, by decide⟩

end Litmus.Program

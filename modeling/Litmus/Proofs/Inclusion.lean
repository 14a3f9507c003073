import Litmus.Proofs.Exploration

/-!
# Each model allows what the stricter one allows

From IBM370 to TSO, and from TSO to TSO with loads that read around their own stores, a setting only
becomes more permissive. This is not a matter of the order alone: TSO lets a load overtake the
stores of its own thread, but it also decides differently where the load then reads. What makes the
inclusion true is that, along an order that IBM370 allows, every load comes after all stores of its
own thread to its variable, and there TSO leaves it no other source than memory.

So every move that the stricter setting allows at some point is allowed by the more permissive one
at the same point (`Program.mem_moves_tso`, `Program.mem_moves_readAround`), and IBM370 leaves out
only the moves that overtake a store in this way (`Program.mem_moves_ibm370_iff`). Schedules, keys
and the number of executions follow.
-/

namespace Litmus.Program

variable {p : Program} {s s' : Setting} {σ : Schedule} {m : Move} {done : List Position}
  {key : String} {b b' : Bool}

/-! ### Move by move -/

/-- IBM 370 keeps every order that TSO keeps. -/
theorem precedes_ibm370 {r q : Position} (h : p.precedes .tso r q = true) :
    p.precedes .ibm370 r q = true := by
  obtain ⟨ht, hi, i, j, hr, hq, hord⟩ := precedes_iff.1 h
  refine precedes_iff.2 ⟨ht, hi, i, j, hr, hq, ?_⟩
  simp only [Model.ordered, Model.storeAtomic, Bool.false_and, Bool.or_false, Bool.or_eq_true]
    at hord ⊢
  exact Or.inl hord

/-- Under IBM370 a load waits for all stores of its own thread to its variable. -/
theorem precedes_of_mem_ownStores {r q : Position} (h : r ∈ p.ownStores q) :
    p.precedes .ibm370 r q = true := by
  obtain ⟨-, ht, hi, j, v, hq, hr⟩ := mem_ownStores.1 h
  refine precedes_iff.2 ⟨ht, hi, _, j, hr, hq, ?_⟩
  simp [Model.ordered, Model.storeAtomic, Instruction.name]

/-- Under IBM370 nothing else has to wait that need not wait under TSO. -/
theorem mem_ownStores_of_precedes {r q : Position} (hr : r ∈ p.positions)
    (h : p.precedes .ibm370 r q = true) (hnot : ¬p.precedes .tso r q = true) :
    r ∈ p.ownStores q := by
  obtain ⟨ht, hi, i, j, hri, hqj, hord⟩ := precedes_iff.1 h
  have hfree : ¬Model.ordered .tso i j = true :=
    fun hord' ↦ hnot (precedes_iff.2 ⟨ht, hi, i, j, hri, hqj, hord'⟩)
  cases i with
  | load x => exact absurd rfl hfree
  | store x v =>
    have hstore : j.isStore = false := by
      simpa [Model.ordered, Model.storeAtomic, Instruction.isLoad] using hfree
    have hname : x = j.name := by
      simpa [Model.ordered, Model.storeAtomic, Instruction.isLoad, Instruction.name, hstore]
        using hord
    exact mem_ownStores.2 ⟨hr, ht, hi, j, v, hqj, hname ▸ hri⟩

/-- If all stores of its own thread to its variable have run, a load reads memory under TSO as it
does under IBM370. -/
theorem sourcesAfter_tso {q : Position} (h : ∀ r ∈ p.ownStores q, r ∈ done) :
    p.sourcesAfter ⟨.tso, b'⟩ done q = p.sourcesAfter ⟨.ibm370, b⟩ done q := by
  simp only [sourcesAfter, if_pos (ownStores_eq_nil_or_exists h)]

/-- **IBM370 allows exactly those moves of TSO that overtake no store of their own thread to their
variable**, and with the same source. -/
theorem mem_moves_ibm370_iff : m ∈ p.moves ⟨.ibm370, b⟩ done ↔
    m ∈ p.moves ⟨.tso, b'⟩ done ∧ ∀ r ∈ p.ownStores m.position, r ∈ done := by
  rw [mem_moves, mem_moves, ready_iff, ready_iff]
  constructor
  · rintro ⟨hq, ⟨hnot, hwait⟩, hsrc⟩
    have hown : ∀ r ∈ p.ownStores m.position, r ∈ done :=
      fun r hr ↦ hwait r (mem_ownStores.1 hr).1 (precedes_of_mem_ownStores hr)
    rw [sourcesAfter_tso (b := b) hown]
    exact ⟨⟨hq, ⟨hnot, fun r hr hpre ↦ hwait r hr (precedes_ibm370 hpre)⟩, hsrc⟩, hown⟩
  · rintro ⟨⟨hq, ⟨hnot, hwait⟩, hsrc⟩, hown⟩
    rw [sourcesAfter_tso (b := b) hown] at hsrc
    refine ⟨hq, ⟨hnot, fun r hr hpre ↦ ?_⟩, hsrc⟩
    by_cases htso : p.precedes .tso r m.position = true
    · exact hwait r hr htso
    · exact hown r (mem_ownStores_of_precedes hr hpre htso)

/-- What may run next under IBM370 may run next under TSO, and with the same source. -/
theorem mem_moves_tso (h : m ∈ p.moves ⟨.ibm370, b⟩ done) : m ∈ p.moves ⟨.tso, b'⟩ done :=
  (mem_moves_ibm370_iff.1 h).1

/-- Loads that may read around their own stores may still take a forwarded value. -/
theorem mem_moves_readAround (h : m ∈ p.moves ⟨.tso, false⟩ done) :
    m ∈ p.moves ⟨.tso, true⟩ done := by
  obtain ⟨hq, hready, hsrc⟩ := mem_moves.1 h
  refine mem_moves.2 ⟨hq, hready, ?_⟩
  revert hsrc
  simp only [sourcesAfter]
  split
  · exact id
  · exact id
  · split
    · exact id
    · intro hsrc
      have hforwarded := List.mem_singleton.1 hsrc
      exact hforwarded ▸ List.mem_cons_self

/-! ### Schedules, keys and numbers -/

/-- A schedule is legal in another setting if each of its moves, when it is made, is one of the
other setting. -/
theorem Legal.of_moves (hσ : p.Legal s σ) (h : ∀ before m after, σ = before ++ m :: after →
    m ∈ p.moves s (Schedule.order before) → m ∈ p.moves s' (Schedule.order before)) :
    p.Legal s' σ := by
  have hadm : ∀ before after, σ = before ++ after → p.Admits s' before := by
    intro before
    induction before using List.reverseRecOn with
    | nil => exact fun _ _ ↦ .nil
    | append_singleton before m ih =>
      intro after heq
      have hsplit : σ = before ++ m :: after := by rw [heq, List.append_assoc]; rfl
      have hm := (admits_snoc.1 (Legal.admits_prefix (τ := after) (heq ▸ hσ))).2
      exact (ih _ hsplit).snoc (h before m after hsplit hm)
  exact legal_iff.2 ⟨hadm σ [] (List.append_nil σ).symm, (legal_iff.1 hσ).2⟩

/-- If every move that one setting offers is offered by another, its schedules are legal there. -/
theorem Legal.mono (h : ∀ done m, m ∈ p.moves s done → m ∈ p.moves s' done)
    (hσ : p.Legal s σ) : p.Legal s' σ :=
  hσ.of_moves fun before m _ _ ↦ h (Schedule.order before) m

/-- If every move of one setting is a move of another, so are the keys that are found. -/
theorem keys_findings_mono (h : ∀ done m, m ∈ p.moves s done → m ∈ p.moves s' done)
    (hkey : key ∈ (p.findings s).outcomes.keys) : key ∈ (p.findings s').outcomes.keys := by
  obtain ⟨σ, hσ, rfl⟩ := mem_keys_findings.1 hkey
  exact mem_keys_findings.2 ⟨σ, hσ.mono h, rfl⟩

/-- If every move of one setting is a move of another, no more executions are counted. -/
theorem executions_findings_mono (h : ∀ done m, m ∈ p.moves s done → m ∈ p.moves s' done) :
    (p.findings s).executions ≤ (p.findings s').executions := by
  refine (List.subperm_of_subset (p.nodup_schedules s) fun σ hσ ↦ ?_).length_le
  exact mem_schedules.2 ((mem_schedules.1 hσ).mono h)

/-- **IBM370 allows no more than TSO, and TSO no more than TSO with loads that read around their own
stores**, in outcomes as well as in the number of executions. -/
theorem explore_inclusion (p : Program) (limits : Limits) (hc : p.check limits = .ok ())
    (hv : p.storesFit = true) :
    ∃ ibm370 tso around, p.explore { model := .ibm370 } limits = .ok ibm370 ∧
      p.explore { model := .tso } limits = .ok tso ∧
      p.explore { model := .tso, readAround := true } limits = .ok around ∧
      (∀ key ∈ ibm370.outcomes.keys, key ∈ tso.outcomes.keys) ∧
      (∀ key ∈ tso.outcomes.keys, key ∈ around.outcomes.keys) ∧
      (∀ key ∈ ibm370.outcomes.keys, key ∈ around.outcomes.keys) ∧
      ibm370.executions ≤ tso.executions ∧ tso.executions ≤ around.executions := by
  have hexplore (s : Setting) : p.explore s limits = .ok (p.findings s) :=
    explore_of_storesFit hc hv
  refine ⟨_, _, _, hexplore _, hexplore _, hexplore _, ?_, ?_, ?_, ?_, ?_⟩
  · exact fun key ↦ keys_findings_mono fun _ _ ↦ mem_moves_tso
  · exact fun key ↦ keys_findings_mono fun _ _ ↦ mem_moves_readAround
  · exact fun key ↦ keys_findings_mono fun _ _ ↦ mem_moves_tso
  · exact executions_findings_mono fun _ _ ↦ mem_moves_tso
  · exact executions_findings_mono fun _ _ ↦ mem_moves_readAround

theorem storeForwarding_inclusion :
    storeForwarding.check .standard = .ok () ∧ storeForwarding.storesFit = true ∧
      ∃ ibm370 tso around,
        storeForwarding.explore { model := .ibm370 } .standard = .ok ibm370 ∧
        storeForwarding.explore { model := .tso } .standard = .ok tso ∧
        storeForwarding.explore { model := .tso, readAround := true } .standard = .ok around ∧
        (∀ key ∈ ibm370.outcomes.keys, key ∈ tso.outcomes.keys) ∧
        (∀ key ∈ tso.outcomes.keys, key ∈ around.outcomes.keys) ∧
        (∀ key ∈ ibm370.outcomes.keys, key ∈ around.outcomes.keys) ∧
        ibm370.executions ≤ tso.executions ∧ tso.executions ≤ around.executions :=
  ⟨rfl, by decide, explore_inclusion storeForwarding .standard rfl (by decide)⟩

end Litmus.Program

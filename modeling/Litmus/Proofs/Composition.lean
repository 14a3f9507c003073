import Litmus.Proofs.Parts
import Mathlib.Data.List.ProdSigma

/-!
# Programs side by side

`Program.beside p q` has the threads of `p`, and behind them those of `q`. Each of the two is a part
of it, and if they have no variable in common, both are undisturbed.

So a run of the two together is a run of each, and its outcome is the one merged with the other
(`Program.outcomeAfter_beside`). Conversely a run of the one followed by a run of the other is a run
of the two together. The merges of an outcome of `p` with an outcome of `q` are thus all outcomes
(`Program.mem_outcomes_beside`). Different pairs have different merges, so the number of outcomes is
the product (`Program.size_beside`).
-/

namespace Litmus

variable {g : ℤ → ℤ}

/-! ### Merging outcomes -/

namespace Outcome

variable {a a' b b' : Outcome}

/-- The values of an outcome followed by those of another one. -/
def merge (a b : Outcome) : Outcome := ⟨a.memory ++ b.memory, a.loads ++ b.loads⟩

/-- The part of the text of an outcome that shows the memory. -/
def memoryText (o : Outcome) : String :=
  String.join (o.memory.map fun c ↦ "[" ++ c.1 ++ "]==" ++ Numeral.write c.2 ++ "; ")

/-- The part of the text of an outcome that shows the loads. -/
def loadsText (o : Outcome) : String :=
  String.join (o.loads.map fun l ↦ l.name ++ "==" ++ Numeral.write l.value ++ "; ")

theorem text_eq (o : Outcome) : o.text = o.memoryText ++ o.loadsText := rfl

/-- **Texts are merged part by part.** Threads are not shown. -/
theorem text_merge_rethread (a b : Outcome) : (a.merge (b.rethread g)).text =
    a.memoryText ++ b.memoryText ++ (a.loadsText ++ b.loadsText) := by
  rw [text_eq, memoryText, loadsText, merge, rethread, List.map_append, List.map_append,
    List.map_map, String.join_append, String.join_append]
  rfl

theorem rethread_injective (hg : Function.Injective g) :
    Function.Injective (Outcome.rethread g) := by
  rintro ⟨memory, loads⟩ ⟨memory', loads'⟩ h
  obtain ⟨hmemory, hloads⟩ := Outcome.mk.inj h
  have hload : Function.Injective fun l : LoadValue ↦
      { l with position := l.position.rethread g } := by
    rintro ⟨b, x, v⟩ ⟨b', x', v'⟩ hl
    obtain ⟨hb, rfl, rfl⟩ := LoadValue.mk.inj hl
    obtain rfl : b = b' := Position.rethread_injective hg hb
    rfl
  exact congrArg₂ Outcome.mk hmemory (List.map_injective_iff.2 hload hloads)

/-- A merge tells what it was made of, if it is known how far the first outcome goes. -/
theorem SameShape.merge_inj (h : a.SameShape a') (heq : a.merge b = a'.merge b') :
    a = a' ∧ b = b' := by
  obtain ⟨hmemory, hloads⟩ := Outcome.mk.inj heq
  have hcells : a.memory.length = a'.memory.length := by
    simpa using congrArg List.length h.memory
  have hrows : a.loads.length = a'.loads.length := by
    simpa using congrArg List.length h.loads
  obtain ⟨hm, hm'⟩ := List.append_inj hmemory hcells
  obtain ⟨hl, hl'⟩ := List.append_inj hloads hrows
  exact ⟨congrArg₂ Outcome.mk hm hl, congrArg₂ Outcome.mk hm' hl'⟩

end Outcome

namespace Program

variable {p q : Program} {s : Setting} {limits : Limits} {a b : Position} {σ τ ρ : Schedule}

/-! ### The program and its two parts -/

/-- The program with the threads of `p`, and behind them those of `q`. -/
def beside (p q : Program) : Program where
  threads := p.threads ++ q.threads
  flatten_ne_nil := by
    rw [List.flatten_append]
    exact List.append_ne_nil_of_left_ne_nil p.flatten_ne_nil _

/-- The place of a thread that stands behind those of `p`. -/
def behind (p : Program) (t : ℤ) : ℤ := p.threads.length + t

/-- The first program is a part of the two together, with its threads where they were. -/
theorem partOf_left (p q : Program) : p.PartOf (p.beside q) id where
  injective := Function.injective_id
  thread t th hth := by
    refine ⟨t, th, rfl, ?_, List.prefix_rfl⟩
    rw [beside, List.getElem?_append_left (List.getElem?_eq_some_iff.1 hth).1, hth]

/-- The second one is a part of them, too, with its threads behind those of the first. -/
theorem partOf_right (p q : Program) : q.PartOf (p.beside q) p.behind where
  injective _ _ h := Int.add_left_cancel h
  thread t th hth := by
    refine ⟨p.threads.length + t, th, (Int.natCast_add _ _).symm, ?_, List.prefix_rfl⟩
    rw [beside, List.getElem?_append_right (Nat.le_add_right _ _), Nat.add_sub_cancel_left, hth]

/-- **The positions of `p` come first, then those of `q`.** -/
theorem positions_beside (p q : Program) : (p.beside q).positions =
    p.positions.map (Position.rethread id) ++ q.positions.map (Position.rethread p.behind) := by
  rw [positions, beside, List.zipIdx_append, List.flatMap_append, Nat.zero_add,
    List.zipIdx_eq_map_add (l := q.threads) (i := p.threads.length), List.flatMap_map]
  congr 1
  · exact (List.map_id p.positions).symm
  · rw [positions, List.map_flatMap]
    refine List.flatMap_congr fun th _ ↦ ?_
    rw [List.map_map]
    refine List.map_congr_left fun i _ ↦ ?_
    show Position.mk _ _ = Position.mk _ _
    rw [behind, Int.natCast_add]

/-- The positions of the two together are those of either, under new names. -/
theorem mem_positions_beside : a ∈ (p.beside q).positions ↔
    (∃ b ∈ p.positions, b.rethread id = a) ∨ ∃ b ∈ q.positions, b.rethread p.behind = a := by
  rw [positions_beside, List.mem_append, List.mem_map, List.mem_map]

/-- The two parts have no position in common. -/
theorem rethread_ne (ha : a ∈ p.positions) (hb : b ∈ q.positions) :
    a.rethread id ≠ b.rethread p.behind := by
  have hnodup := (p.beside q).nodup_positions
  rw [positions_beside] at hnodup
  exact (List.nodup_append.1 hnodup).2.2 _ (List.mem_map_of_mem ha) _ (List.mem_map_of_mem hb)

theorem loads_beside (p q : Program) : (p.beside q).loads =
    p.loads.map (Position.rethread id) ++ q.loads.map (Position.rethread p.behind) := by
  rw [loads, positions_beside, List.filter_append, (p.partOf_left q).filter_loads_rethread,
    (p.partOf_right q).filter_loads_rethread]

/-- If no variable is shared, the variables are listed one program after the other. -/
theorem names_beside (hn : p.names.Disjoint q.names) :
    (p.beside q).names = p.names ++ q.names := by
  have hnew : (q.threads.flatten.map (·.name)).removeAll (p.threads.flatten.map (·.name)) =
      q.threads.flatten.map (·.name) := by
    rw [List.removeAll, List.filter_eq_self]
    intro x hx
    have hnot : x ∉ p.threads.flatten.map (·.name) := fun hx' ↦
      hn (List.mem_eraseDups.2 hx') (List.mem_eraseDups.2 hx)
    simpa using hnot
  rw [names, beside, List.flatten_append, List.map_append, List.eraseDups_append, hnew]
  rfl

/-- **If no variable is shared, nothing of the second program disturbs the first.** -/
theorem undisturbed_left (hn : p.names.Disjoint q.names) : p.Undisturbed (p.beside q) id := by
  intro a ha hout x hx
  rcases mem_positions_beside.1 ha with ⟨b, hb, rfl⟩ | ⟨b, hb, rfl⟩
  · exact absurd rfl (hout b hb)
  · exact (p.partOf_right q).storedAt_rethread hb fun hx' ↦ hn hx hx'

/-- Nor does anything of the first disturb the second. -/
theorem undisturbed_right (hn : p.names.Disjoint q.names) :
    q.Undisturbed (p.beside q) p.behind := by
  intro a ha hout x hx
  rcases mem_positions_beside.1 ha with ⟨b, hb, rfl⟩ | ⟨b, hb, rfl⟩
  · exact (p.partOf_left q).storedAt_rethread hb fun hx' ↦ hn hx' hx
  · exact absurd rfl (hout b hb)

/-! ### Limits -/

/-- If there is room for both programs, there is room for each. -/
theorem check_of_beside (h : (p.beside q).check limits = .ok ()) :
    p.check limits = .ok () ∧ q.check limits = .ok () := by
  obtain ⟨hthreads, hinstructions⟩ := check_eq_ok_iff.1 h
  rw [beside, List.length_append] at hthreads
  rw [beside, List.forall_mem_append] at hinstructions
  exact ⟨check_eq_ok_iff.2 ⟨by omega, hinstructions.1⟩,
    check_eq_ok_iff.2 ⟨by omega, hinstructions.2⟩⟩

theorem storesFit_beside (hp : p.storesFit = true) (hq : q.storesFit = true) :
    (p.beside q).storesFit = true := by
  rw [storesFit, beside, List.flatten_append, List.all_append, Bool.and_eq_true]
  exact ⟨hp, hq⟩

/-! ### Runs -/

/-- **What both do together is what each does alone.** -/
theorem outcomeAfter_beside (hn : p.names.Disjoint q.names) (hσ : p.Restricts id σ ρ)
    (hτ : q.Restricts p.behind τ ρ) (hρ : ∀ a ∈ ρ.order, a ∈ (p.beside q).positions) :
    (p.beside q).outcomeAfter ρ =
      (p.outcomeAfter σ).merge ((q.outcomeAfter τ).rethread p.behind) := by
  have hleft := hσ.shows (p.partOf_left q) (undisturbed_left hn) hρ
  have hright := hτ.shows (p.partOf_right q) (undisturbed_right hn) hρ
  rw [← Outcome.rethread_id (p.outcomeAfter σ), outcomeAfter, outcomeAfter, outcomeAfter,
    hleft.rethread_outcomeOf (p.partOf_left q), hright.rethread_outcomeOf (p.partOf_right q),
    Outcome.merge, outcomeOf, names_beside hn, loads_beside, List.map_append, List.filterMap_append]

/-- **First the one, then the other.** -/
theorem exists_legal_beside (hσ : p.Legal s σ) (hτ : q.Legal s τ) :
    ∃ ρ, (p.beside q).Legal s ρ ∧ p.Restricts id σ ρ ∧ q.Restricts p.behind τ ρ := by
  -- one program runs as a whole before the other begins
  have hleft : p.Restricts id σ (σ.map (Move.rethread id)) := restricts_map hσ.admits.subset
  have hnone : q.Restricts p.behind [] (σ.map (Move.rethread id)) := by
    refine Restricts.nil.append_outside fun a ha b hb ↦ ?_
    rw [Schedule.order_rethread] at ha
    obtain ⟨c, hc, rfl⟩ := List.mem_map.1 ha
    exact (rethread_ne (hσ.admits.subset c hc) hb).symm
  have hright := hnone.append_inside hτ.admits.subset
  have hleft' : p.Restricts id σ (σ.map (Move.rethread id) ++ τ.map (Move.rethread p.behind)) := by
    refine hleft.append_outside fun a ha b hb ↦ ?_
    rw [Schedule.order_rethread] at ha
    obtain ⟨c, hc, rfl⟩ := List.mem_map.1 ha
    exact rethread_ne hb (hτ.admits.subset c hc)
  have hadmits : (p.beside q).Admits s
      (σ.map (Move.rethread id) ++ τ.map (Move.rethread p.behind)) :=
    (p.partOf_right q).admits_append
      ((p.partOf_left q).admits_append .nil .nil hσ.admits) hnone hτ.admits
  refine ⟨_, hadmits.legal_of_forall_mem fun a ha ↦ ?_, hleft', hright⟩
  rcases mem_positions_beside.1 ha with ⟨b, hb, rfl⟩ | ⟨b, hb, rfl⟩
  · exact (hleft'.mem_order (p.partOf_left q).injective hb).2 (hσ.perm.symm.subset hb)
  · exact (hright.mem_order (p.partOf_right q).injective hb).2 (hτ.perm.symm.subset hb)

/-! ### Outcomes -/

/-- **The outcomes are the merges of an outcome of the one program with one of the other.** -/
theorem mem_outcomes_beside (hn : p.names.Disjoint q.names) {o : Outcome} :
    o ∈ ((p.beside q).findings s).outcomes ↔ ∃ a ∈ (p.findings s).outcomes,
      ∃ b ∈ (q.findings s).outcomes, o = a.merge (b.rethread p.behind) := by
  simp only [mem_outcomes_findings]
  constructor
  · rintro ⟨ρ, hρ, rfl⟩
    obtain ⟨σ, hσ⟩ := p.exists_restricts id ρ
    obtain ⟨τ, hτ⟩ := q.exists_restricts p.behind ρ
    exact ⟨_, ⟨σ, hσ.legal (p.partOf_left q) hρ, rfl⟩, _,
      ⟨τ, hτ.legal (p.partOf_right q) hρ, rfl⟩, outcomeAfter_beside hn hσ hτ hρ.admits.subset⟩
  · rintro ⟨_, ⟨σ, hσ, rfl⟩, _, ⟨τ, hτ, rfl⟩, rfl⟩
    obtain ⟨ρ, hρ, hleft, hright⟩ := exists_legal_beside hσ hτ
    exact ⟨ρ, hρ, outcomeAfter_beside hn hleft hright hρ.admits.subset⟩

/-- All outcomes of a program have the same variables and loads. -/
theorem sameShape_of_mem_outcomes {o o' : Outcome} (ho : o ∈ (p.findings s).outcomes)
    (ho' : o' ∈ (p.findings s).outcomes) : o.SameShape o' := by
  obtain ⟨σ, -, rfl⟩ := mem_outcomes_findings.1 ho
  obtain ⟨τ, -, rfl⟩ := mem_outcomes_findings.1 ho'
  exact p.sameShape_outcomeOf _ _

/-- Each merge is found once. -/
theorem toList_beside_perm (hn : p.names.Disjoint q.names) :
    ((p.beside q).findings s).outcomes.toList.Perm
      (((p.findings s).outcomes.toList ×ˢ (q.findings s).outcomes.toList).map
        fun o ↦ o.1.merge (o.2.rethread p.behind)) := by
  -- neither list has duplicates, so it is enough that they have the same members
  refine (List.perm_ext_iff_of_nodup (nodup_toList_findings _ s) ?_).2 fun o ↦ ?_
  · refine List.Nodup.map_on ?_ ((p.nodup_toList_findings s).product (q.nodup_toList_findings s))
    rintro ⟨a, b⟩ hab ⟨a', b'⟩ hab' heq
    have ha := OutcomeSet.mem_toList.1 (List.mem_product.1 hab).1
    have ha' := OutcomeSet.mem_toList.1 (List.mem_product.1 hab').1
    obtain ⟨rfl, hb⟩ := (sameShape_of_mem_outcomes ha ha').merge_inj heq
    exact congrArg (Prod.mk a) (Outcome.rethread_injective (p.partOf_right q).injective hb)
  · rw [OutcomeSet.mem_toList, mem_outcomes_beside hn, List.mem_map]
    constructor
    · rintro ⟨a, ha, b, hb, rfl⟩
      exact ⟨(a, b), List.mem_product.2 ⟨OutcomeSet.mem_toList.2 ha, OutcomeSet.mem_toList.2 hb⟩,
        rfl⟩
    · rintro ⟨⟨a, b⟩, hab, rfl⟩
      obtain ⟨ha, hb⟩ := List.mem_product.1 hab
      exact ⟨a, OutcomeSet.mem_toList.1 ha, b, OutcomeSet.mem_toList.1 hb, rfl⟩

/-- **There are as many outcomes as there are pairs of outcomes.** -/
theorem size_beside (hn : p.names.Disjoint q.names) :
    ((p.beside q).findings s).outcomes.size =
      (p.findings s).outcomes.size * (q.findings s).outcomes.size := by
  rw [← OutcomeSet.length_toList, (toList_beside_perm hn).length_eq, List.length_map,
    List.length_product, OutcomeSet.length_toList, OutcomeSet.length_toList]

/-- The keys are put together from those of the two programs: first what is in memory, then what the
loads have seen. -/
theorem mem_keys_beside (hn : p.names.Disjoint q.names) {key : String} :
    key ∈ ((p.beside q).findings s).outcomes.keys ↔ ∃ a ∈ (p.findings s).outcomes,
      ∃ b ∈ (q.findings s).outcomes,
        key = a.memoryText ++ b.memoryText ++ (a.loadsText ++ b.loadsText) := by
  rw [keys_findings, List.mem_map]
  constructor
  · rintro ⟨o, ho, rfl⟩
    obtain ⟨a, ha, b, hb, rfl⟩ := (mem_outcomes_beside hn).1 (OutcomeSet.mem_toList.1 ho)
    exact ⟨a, ha, b, hb, a.text_merge_rethread b⟩
  · rintro ⟨a, ha, b, hb, rfl⟩
    have hmerge := (mem_outcomes_beside hn).2 ⟨a, ha, b, hb, rfl⟩
    exact ⟨_, OutcomeSet.mem_toList.2 hmerge, a.text_merge_rethread b⟩

/-- **Programs without a common variable do not interact.** In every setting, the outcomes of two
such programs side by side are the merges of an outcome of the one with an outcome of the other, and
different pairs give different outcomes. The keys are merged likewise: first what shows the two
memories, then what shows the loads. -/
theorem explore_beside (p q : Program) (s : Setting) (limits : Limits)
    (hc : (p.beside q).check limits = .ok ()) (hp : p.storesFit = true) (hq : q.storesFit = true)
    (hn : p.names.Disjoint q.names) :
    ∃ f g h, p.explore s limits = .ok f ∧ q.explore s limits = .ok g ∧
      (p.beside q).explore s limits = .ok h ∧
      (∀ o, o ∈ h.outcomes ↔
        ∃ a ∈ f.outcomes, ∃ b ∈ g.outcomes, o = a.merge (b.rethread p.behind)) ∧
      (∀ key, key ∈ h.outcomes.keys ↔ ∃ a ∈ f.outcomes, ∃ b ∈ g.outcomes,
        key = a.memoryText ++ b.memoryText ++ (a.loadsText ++ b.loadsText)) ∧
      h.outcomes.size = f.outcomes.size * g.outcomes.size := by
  obtain ⟨hcp, hcq⟩ := check_of_beside hc
  exact ⟨_, _, _, explore_of_storesFit hcp hp, explore_of_storesFit hcq hq,
    explore_of_storesFit hc (storesFit_beside hp hq), fun _ ↦ mem_outcomes_beside hn,
    fun _ ↦ mem_keys_beside hn, size_beside hn⟩

/-- One thread overtakes its own stores, and another one watches. -/
def watching : Program where
  threads := [[.store "u" 1, .store "u" 2, .load "u"], [.load "u"]]
  flatten_ne_nil := by decide

/-- A program that breaks store atomicity, beside one that has nothing to do with it. -/
theorem storeForwarding_beside_watching :
    (storeForwarding.beside watching).check .standard = .ok () ∧
      storeForwarding.storesFit = true ∧ watching.storesFit = true ∧
      storeForwarding.names.Disjoint watching.names ∧
      ∃ f g h, storeForwarding.explore { model := .tso, readAround := true } .standard = .ok f ∧
        watching.explore { model := .tso, readAround := true } .standard = .ok g ∧
        (storeForwarding.beside watching).explore { model := .tso, readAround := true } .standard =
          .ok h ∧
        (∀ o, o ∈ h.outcomes ↔ ∃ a ∈ f.outcomes, ∃ b ∈ g.outcomes,
          o = a.merge (b.rethread storeForwarding.behind)) ∧
        (∀ key, key ∈ h.outcomes.keys ↔ ∃ a ∈ f.outcomes, ∃ b ∈ g.outcomes,
          key = a.memoryText ++ b.memoryText ++ (a.loadsText ++ b.loadsText)) ∧
        h.outcomes.size = f.outcomes.size * g.outcomes.size :=
  have hn : storeForwarding.names.Disjoint watching.names := List.disjoint_left.2 (by decide)
  ⟨rfl, by decide, by decide, hn, explore_beside _ _ _ _ rfl (by decide) (by decide) hn⟩

end Program

end Litmus

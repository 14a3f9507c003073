import Litmus.Proofs.Exploration
import Litmus.Proofs.Numerals

/-!
# Texts tell outcomes apart

An exploration keeps one outcome for each text. This loses nothing: the outcomes of one program have
the same variables and the same loads, and between outcomes of one shape the text decides
(`Outcome.text_inj`). The names may be anything, since both texts have them at the same places; what
lies between two names is a numeral with a semicolon behind it, and a numeral has no semicolon.

So the outcomes that an exploration finds are those of the legal schedules
(`Program.mem_outcomes_findings`), and not only their texts. It keeps as many as there are different
final states (`Program.size_findings`).
-/

namespace Litmus

namespace Numeral

/-- No numeral contains a semicolon, so a semicolon ends the numeral before it. -/
theorem semicolon_not_mem_write (v : Int) : ';' ∉ (write v).toList :=
  not_mem_write (by decide) (by decide) v

end Numeral

/-! ### Labelled numerals -/

/-- Lists that go on with a separator are equal only if they are equal up to the separator and
behind it, unless the separator comes before. -/
theorem append_cons_inj_of_not_mem {α : Type} {c : α} {a b u v : List α} (ha : c ∉ a) (hb : c ∉ b)
    (h : a ++ c :: u = b ++ c :: v) : a = b ∧ u = v := by
  induction a generalizing b with
  | nil =>
    cases b with
    | nil => exact ⟨rfl, (List.cons.inj h).2⟩
    | cons d b =>
      obtain ⟨rfl, -⟩ := List.cons.inj h
      exact absurd List.mem_cons_self hb
  | cons d a ih =>
    cases b with
    | nil =>
      obtain ⟨rfl, -⟩ := List.cons.inj h
      exact absurd List.mem_cons_self ha
    | cons e b =>
      obtain ⟨rfl, hrest⟩ := List.cons.inj h
      obtain ⟨rfl, rfl⟩ := ih (fun hm ↦ ha (List.mem_cons_of_mem _ hm))
        (fun hm ↦ hb (List.mem_cons_of_mem _ hm)) hrest
      exact ⟨rfl, rfl⟩

/-- The same, unless the separator comes again. -/
theorem append_cons_inj_of_not_mem_right {α : Type} {c : α} {a b u v : List α} (hu : c ∉ u)
    (hv : c ∉ v) (h : a ++ c :: u = b ++ c :: v) : a = b ∧ u = v := by
  have hreverse : u.reverse ++ c :: a.reverse = v.reverse ++ c :: b.reverse := by
    simpa using congrArg List.reverse h
  obtain ⟨huv, hab⟩ := append_cons_inj_of_not_mem (by rwa [List.mem_reverse])
    (by rwa [List.mem_reverse]) hreverse
  exact ⟨List.reverse_injective hab, List.reverse_injective huv⟩

/-- Lists are equal if two functions that tell their members apart have the same values on them. -/
theorem eq_of_map_eq_map {α β γ : Type} {f : α → β} {g : α → γ} {l l' : List α}
    (hinj : ∀ a b, f a = f b → g a = g b → a = b) (hf : l.map f = l'.map f)
    (hg : l.map g = l'.map g) : l = l' := by
  have hpair : Function.Injective fun a ↦ (f a, g a) := by
    intro a b h
    exact hinj a b (Prod.mk.inj h).1 (Prod.mk.inj h).2
  refine List.map_injective_iff.2 hpair ?_
  rw [← List.zip_map', hf, hg, List.zip_map']

/-- A label with a number, as it stands in the text of an outcome. -/
def labelled (e : String × Int) : String := e.1 ++ Numeral.write e.2 ++ "; "

theorem toList_labelled_append (e : String × Int) (rest : List Char) :
    (labelled e).toList ++ rest =
      e.1.toList ++ ((Numeral.write e.2).toList ++ ';' :: ' ' :: rest) := by
  simp [labelled]

/-- **Numbers are told by their labelled text**, whatever the labels are. -/
theorem eq_of_labelled_eq {l l' : List (String × Int)}
    (hlabels : l.map Prod.fst = l'.map Prod.fst)
    (htext : l.flatMap (fun e ↦ (labelled e).toList) = l'.flatMap fun e ↦ (labelled e).toList) :
    l = l' := by
  induction l generalizing l' with
  | nil => exact (List.map_eq_nil_iff.1 hlabels.symm).symm
  | cons e l ih =>
    obtain ⟨e', l₁, rfl, hlabel, hrest⟩ := List.map_eq_cons_iff.1 hlabels.symm
    rw [List.flatMap_cons, List.flatMap_cons, toList_labelled_append, toList_labelled_append,
      hlabel] at htext
    obtain ⟨hvalue, hafter⟩ := append_cons_inj_of_not_mem (Numeral.semicolon_not_mem_write _)
      (Numeral.semicolon_not_mem_write _) (List.append_cancel_left htext)
    have hv : e.2 = e'.2 := Numeral.write_injective (String.toList_injective hvalue)
    rw [Prod.ext hlabel.symm hv, ih hrest.symm (List.cons.inj hafter).2]

/-! ### Outcomes of one shape -/

namespace Outcome

variable {o o' : Outcome}

/-- The values of an outcome with the labels that they have in its text. -/
def entries (o : Outcome) : List (String × Int) :=
  (o.memory.map fun c ↦ ("[" ++ c.1 ++ "]==", c.2)) ++ o.loads.map fun l ↦ (l.name ++ "==", l.value)

/-- The text of an outcome is that of its entries, one after the other. -/
theorem toList_text (o : Outcome) :
    o.text.toList = o.entries.flatMap fun e ↦ (labelled e).toList := by
  simp only [text, entries, labelled, String.toList_append, String.toList_join, List.flatMap_append,
    List.flatMap_map]

/-- Two outcomes have the same variables and the same loads, in the same order. -/
structure SameShape (o o' : Outcome) : Prop where
  /-- The variables. -/
  memory : o.memory.map Prod.fst = o'.memory.map Prod.fst
  /-- The loads and their variables. -/
  loads : (o.loads.map fun l ↦ (l.position, l.name)) = o'.loads.map fun l ↦ (l.position, l.name)

/-- Outcomes of the same shape have the same labels, in the same order. -/
theorem SameShape.labels (h : o.SameShape o') :
    o.entries.map Prod.fst = o'.entries.map Prod.fst := by
  have hmemory := congrArg (List.map fun x ↦ "[" ++ x ++ "]==") h.memory
  have hloads := congrArg (List.map fun l : Position × String ↦ l.2 ++ "==") h.loads
  simp only [List.map_map] at hmemory hloads
  simp only [entries, List.map_append, List.map_map]
  exact congrArg₂ (· ++ ·) hmemory hloads

/-- Of two outcomes of one shape, only the values can differ. -/
theorem SameShape.eq_of_values (h : o.SameShape o')
    (hmemory : o.memory.map Prod.snd = o'.memory.map Prod.snd)
    (hloads : o.loads.map (·.value) = o'.loads.map (·.value)) : o = o' := by
  have hcells : o.memory = o'.memory :=
    eq_of_map_eq_map (fun c d ↦ Prod.ext) h.memory hmemory
  have hrows : o.loads = o'.loads := by
    refine eq_of_map_eq_map (fun l k hshape hvalue ↦ ?_) h.loads hloads
    obtain ⟨hposition, hname⟩ := Prod.mk.inj hshape
    cases l
    cases k
    simp_all
  cases o
  cases o'
  exact congrArg₂ Outcome.mk hcells hrows

/-- So they differ only in their values. -/
theorem SameShape.eq_of_entries (h : o.SameShape o') (he : o.entries = o'.entries) : o = o' := by
  have hlength : o.memory.length = o'.memory.length := by
    simpa using congrArg List.length h.memory
  have hvalues := congrArg (List.map Prod.snd) he
  simp only [entries, List.map_append, List.map_map] at hvalues
  obtain ⟨hmemory, hloads⟩ := List.append_inj hvalues (by simpa using hlength)
  exact h.eq_of_values hmemory hloads

/-- **Outcomes of one shape are equal if and only if their texts are.** -/
theorem text_inj (h : o.SameShape o') : o.text = o'.text ↔ o = o' := by
  constructor
  · intro htext
    refine h.eq_of_entries (eq_of_labelled_eq h.labels ?_)
    rw [← toList_text, ← toList_text, htext]
  · rintro rfl
    rfl

end Outcome

/-! ### The outcomes that are found -/

/-- An outcome is in a set if the set has it under some key. -/
instance {ω : Type} : Membership Outcome (OutcomeSet ω) :=
  ⟨fun s o ↦ ∃ x ∈ s.solutions, x.outcome = o⟩

/-- An outcome is in a set if it is that of a solution, whatever its key. -/
theorem OutcomeSet.mem_iff {ω : Type} {s : OutcomeSet ω} {o : Outcome} :
    o ∈ s ↔ ∃ x ∈ s.solutions, x.outcome = o :=
  Iff.rfl

/-- The outcomes of a set, in the order in which they were found. -/
def OutcomeSet.toList {ω : Type} (s : OutcomeSet ω) : List Outcome := s.solutions.map (·.outcome)

theorem OutcomeSet.mem_toList {ω : Type} {s : OutcomeSet ω} {o : Outcome} :
    o ∈ s.toList ↔ o ∈ s :=
  List.mem_map

/-- There are as many outcomes as there are keys. -/
theorem OutcomeSet.length_toList {ω : Type} (s : OutcomeSet ω) : s.toList.length = s.size := by
  rw [size_eq_length, keys_eq_map, toList, List.length_map, List.length_map]

namespace Program

variable {p : Program} {s : Setting}

/-- **An outcome has the shape of a program**: it has the variables and the loads of the program, in
their order, with any values. -/
structure Shapes (p : Program) (o : Outcome) : Prop where
  /-- The variables. -/
  memory : o.memory.map Prod.fst = p.names
  /-- The loads and their variables. -/
  loads : (o.loads.map fun l ↦ (l.position, l.name)) =
    p.loads.filterMap fun q ↦ (p.get? q).map fun i ↦ (q, i.name)

theorem shapes_outcomeOf (p : Program) (g : Image) : p.Shapes (p.outcomeOf g) where
  memory := by simp only [outcomeOf, List.map_map, Function.comp_def, List.map_id']
  loads := by simp only [outcomeOf, List.map_filterMap, Option.map_map, Function.comp_def]

theorem Shapes.sameShape {o o' : Outcome} (h : p.Shapes o) (h' : p.Shapes o') : o.SameShape o' :=
  ⟨h.memory.trans h'.memory.symm, h.loads.trans h'.loads.symm⟩

/-- **All outcomes of a program have the same shape.** -/
theorem sameShape_outcomeOf (p : Program) (g g' : Image) :
    (p.outcomeOf g).SameShape (p.outcomeOf g') :=
  (p.shapes_outcomeOf g).sameShape (p.shapes_outcomeOf g')

/-- A set that has only solutions of the program has an outcome of it if it has the text. -/
theorem outcomeAfter_mem_of_text {S : OutcomeSet Run}
    (hS : ∀ x ∈ S.solutions, ∃ σ, x = p.solution σ) {τ : Schedule}
    (h : (p.outcomeAfter τ).text ∈ S.keys) : p.outcomeAfter τ ∈ S := by
  obtain ⟨x, hx, htext⟩ := OutcomeSet.mem_keys.1 h
  obtain ⟨σ, rfl⟩ := hS x hx
  exact ⟨_, hx, (Outcome.text_inj (p.sameShape_outcomeOf _ _)).1 htext⟩

/-- **The outcomes that are found are those of the legal schedules.** -/
theorem mem_outcomes_findings {o : Outcome} :
    o ∈ (p.findings s).outcomes ↔ ∃ σ, p.Legal s σ ∧ p.outcomeAfter σ = o := by
  constructor
  · rintro ⟨x, hx, rfl⟩
    obtain ⟨σ, hσ, rfl, -⟩ := exists_schedule_of_mem_findings hx
    exact ⟨σ, hσ.legal, rfl⟩
  · rintro ⟨σ, hσ, rfl⟩
    refine outcomeAfter_mem_of_text (fun x hx ↦ ?_) (mem_keys_findings.2 ⟨σ, hσ, rfl⟩)
    obtain ⟨τ, -, rfl, -⟩ := exists_schedule_of_mem_findings hx
    exact ⟨τ, rfl⟩

/-- The key of an outcome that is found is its text. -/
theorem keys_findings (p : Program) (s : Setting) :
    (p.findings s).outcomes.keys = (p.findings s).outcomes.toList.map Outcome.text := by
  rw [OutcomeSet.keys_eq_map, OutcomeSet.toList, List.map_map]
  refine List.map_congr_left fun x hx ↦ ?_
  obtain ⟨σ, -, rfl, -⟩ := exists_schedule_of_mem_findings hx
  rfl

/-- No outcome is found twice. -/
theorem nodup_toList_findings (p : Program) (s : Setting) :
    (p.findings s).outcomes.toList.Nodup := by
  refine List.Nodup.of_map Outcome.text ?_
  rw [← keys_findings]
  exact p.nodup_keys_findings s

/-- Every outcome that an exploration returns is that of a legal schedule. -/
theorem exists_legal_of_explore {limits : Limits} {f : Findings} {o : Outcome}
    (hf : p.explore s limits = .ok f) (ho : o ∈ f.outcomes) :
    ∃ σ, p.Legal s σ ∧ p.outcomeAfter σ = o := by
  obtain ⟨-, -, rfl⟩ := explore_eq_ok_iff.1 hf
  exact mem_outcomes_findings.1 ho

/-! ### Nothing is lost -/

/-- Outcomes of one program whose values can all be written have keys, and the keys are equal only
if the outcomes are. -/
theorem Shapes.key_inj {o o' : Outcome} (h : p.Shapes o) (h' : p.Shapes o') (hfit : o.fits = true)
    (hfit' : o'.fits = true) :
    ∃ k k', o.key = .ok k ∧ o'.key = .ok k' ∧ (k = k' ↔ o = o') :=
  ⟨o.text, o'.text, if_pos hfit, if_pos hfit', Outcome.text_inj (h.sameShape h')⟩

/-- **As many outcomes are kept as there are different final states.** -/
theorem size_findings (p : Program) (s : Setting) :
    (p.findings s).outcomes.size = {o | ∃ σ, p.Legal s σ ∧ p.outcomeAfter σ = o}.ncard := by
  rw [← OutcomeSet.length_toList]
  refine (ncard_of_forall_mem_iff (p.nodup_toList_findings s) fun o ↦ ?_).symm
  rw [OutcomeSet.mem_toList]
  exact mem_outcomes_findings

/-- **Keeping one outcome for each text loses nothing.** Two outcomes of the shape of a program have
equal keys if and only if they are equal, whatever the names and the values are. Every final state
of a legal schedule has that shape, so an exploration keeps as many outcomes as there are different
final states. -/
theorem explore_lossless (p : Program) (s : Setting) (limits : Limits) :
    (∀ o o' : Outcome, p.Shapes o → p.Shapes o' → o.fits = true → o'.fits = true →
      ∃ k k', o.key = .ok k ∧ o'.key = .ok k' ∧ (k = k' ↔ o = o')) ∧
    (∀ σ, p.Shapes (p.outcomeAfter σ)) ∧
    (∀ f, p.explore s limits = .ok f →
      f.outcomes.size = {o | ∃ σ, p.Legal s σ ∧ p.outcomeAfter σ = o}.ncard) ∧
    (p.check limits = .ok () → p.storesFit = true → ∃ f, p.explore s limits = .ok f) := by
  refine ⟨fun o o' h h' ↦ h.key_inj h', fun σ ↦ p.shapes_outcomeOf _, fun f hf ↦ ?_,
    fun hc hv ↦ ⟨_, explore_of_storesFit hc hv⟩⟩
  obtain ⟨-, -, rfl⟩ := explore_eq_ok_iff.1 hf
  exact p.size_findings s

/-- The names look like parts of an outcome's text. -/
def lookalikes : Program where
  threads := [[.store "x==1; y" (-2), .load "y]==1; [x"], [.store "y]==1; [x" 1, .load "x==1; y"]]
  flatten_ne_nil := by decide

theorem lookalikes_lossless :
    let o : Outcome := ⟨[("x==1; y", -2), ("y]==1; [x", 1)],
      [⟨⟨0, 1⟩, "y]==1; [x", 0⟩, ⟨⟨1, 1⟩, "x==1; y", -2⟩]⟩
    let o' : Outcome := ⟨[("x==1; y", -2), ("y]==1; [x", 1)],
      [⟨⟨0, 1⟩, "y]==1; [x", 1⟩, ⟨⟨1, 1⟩, "x==1; y", 0⟩]⟩
    (∃ k k', o.key = .ok k ∧ o'.key = .ok k' ∧ (k = k' ↔ o = o')) ∧
      lookalikes.check .standard = .ok () ∧ lookalikes.storesFit = true ∧
      ∃ f, lookalikes.explore { model := .tso } .standard = .ok f ∧
        f.outcomes.size = {o | ∃ σ, lookalikes.Legal { model := .tso } σ ∧
          lookalikes.outcomeAfter σ = o}.ncard := by
  have h := explore_lossless lookalikes { model := .tso } .standard
  have hv : lookalikes.storesFit = true := by decide
  obtain ⟨f, hf⟩ := h.2.2.2 rfl hv
  exact ⟨h.1 _ _ ⟨by decide, by decide⟩ ⟨by decide, by decide⟩ (by decide) (by decide), rfl, hv, f,
    hf, h.2.2.1 f hf⟩

end Program

end Litmus

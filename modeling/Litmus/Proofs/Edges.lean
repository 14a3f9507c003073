import Litmus.Proofs.Schedule

/-!
# What lifting and imposing do to the edges

Edges are lifted and imposed by going through the positions behind an instruction
(`WaitGraph.forLater_eq_forEach`) and changing their sets one by one. For a position of the program
the loop always comes to its end (`WaitGraph.lift_eq`, `WaitGraph.impose_eq`), since everything
behind such a position is one, too. So what it does can be said for each edge by itself:

* Lifting removes the edges to the position from whatever is behind it, and leaves all others alone
  (`WaitGraph.mem_waitsFor_lift`).
* Imposing adds the edges to the position that the model asks for, and leaves all others alone
  (`WaitGraph.mem_waitsFor_impose`).
* The graph in which all edges have been imposed, one position after the other, has exactly those
  that the model asks for (`WaitGraph.mem_waitsFor_full`).

A graph is determined by its edges (`WaitGraph.ext`). If the edges to a position are those that the
model asks for (`WaitGraph.InForce`), lifting and imposing them again restores the graph.
-/

namespace Litmus.WaitGraph

variable {p : Program} {m : Model} {g g' : WaitGraph p m} {q r later earlier : Position}

/-! ### The sets -/

theorem waits?_eq_none (g : WaitGraph p m) (hq : q ∉ p.positions) : g.waits? q = none := by
  rw [waits?]
  refine List.lookup_eq_none_iff.2 fun e he ↦ bne_iff_ne.2 fun heq ↦ hq ?_
  rw [← g.keys, heq]
  exact List.mem_map_of_mem he

/-- Only positions of the program wait. -/
theorem mem_positions_of_mem_waitsFor (h : earlier ∈ g.waitsFor later) : later ∈ p.positions := by
  by_contra hlater
  rw [waitsFor, waits?_eq_none g hlater] at h
  exact PositionSet.not_mem_empty h

/-- An instruction is waiting if there is something it waits for. -/
theorem isWaiting_iff : g.isWaiting q = true ↔ ∃ r, r ∈ g.waitsFor q := by
  rw [isWaiting, Bool.not_eq_true', ← Bool.not_eq_true, PositionSet.isEmpty_iff]
  push Not
  exact Iff.rfl

/-- What a position of the program waits for can be asked. -/
theorem dependencies_eq (g : WaitGraph p m) (hq : q ∈ p.positions) :
    g.dependencies q = .ok (g.waitsFor q).toList := by
  obtain ⟨s, hs⟩ := g.exists_waits? hq
  rw [dependencies, waitsFor, hs, Option.getD_some]

theorem lookup_of_mem {l : List (Position × PositionSet)} {e : Position × PositionSet}
    (h : (l.map Prod.fst).Nodup) (he : e ∈ l) : l.lookup e.1 = some e.2 := by
  induction l with
  | nil => cases he
  | cons d l ih =>
    obtain ⟨hd, hl⟩ := List.nodup_cons.1 h
    rcases List.mem_cons.1 he with rfl | he
    · rw [List.lookup_cons, beq_self_eq_true]
    · have hne : e.1 ≠ d.1 := fun heq ↦ hd (heq ▸ List.mem_map_of_mem he)
      rw [lookup_cons_of_ne hne]
      exact ih hl he

/-- The entries are the positions of the program, each with what it waits for. -/
theorem entries_eq (g : WaitGraph p m) : g.entries = p.positions.map fun q ↦ (q, g.waitsFor q) := by
  have hnodup : (g.entries.map Prod.fst).Nodup := g.keys ▸ p.nodup_positions
  rw [← g.keys, List.map_map]
  conv_lhs => rw [← List.map_id g.entries]
  refine List.map_congr_left fun e he ↦ ?_
  rw [id_eq, Function.comp_apply, waitsFor, waits?, lookup_of_mem hnodup he, Option.getD_some]

/-- **A graph is determined by its edges.** -/
theorem ext (h : ∀ later earlier, earlier ∈ g.waitsFor later ↔ earlier ∈ g'.waitsFor later) :
    g = g' := by
  have hsets : g.waitsFor = g'.waitsFor := funext fun later ↦ PositionSet.ext (h later)
  have hentries : g.entries = g'.entries := by rw [entries_eq, entries_eq, hsets]
  cases g
  cases g'
  rw [mk.injEq]
  exact hentries

/-- The edges are the sets of the dictionary, spread out. -/
theorem mem_edges : (later, earlier) ∈ g.edges ↔ earlier ∈ g.waitsFor later := by
  rw [edges, entries_eq]
  simp only [List.flatMap_map, List.mem_flatMap, List.mem_map, Prod.mk.injEq]
  constructor
  · rintro ⟨_, -, _, hr, rfl, rfl⟩
    exact hr
  · intro hr
    exact ⟨later, mem_positions_of_mem_waitsFor hr, earlier, hr, rfl, rfl⟩

/-! ### The loop -/

variable {body : Position → WaitGraph p m → WaitGraph p m × Except Fault Unit}
  {f : Position → PositionSet → PositionSet}

/-- Counting through the later instructions of a thread is a loop over their positions. -/
theorem sweep_eq_forEach (thread i : Int) (n : ℕ) (g : WaitGraph p m) :
    sweep body thread i n g = forEach body ((intRange i (i + n)).map (⟨thread, ·⟩)) g := by
  induction n generalizing i g with
  | zero =>
    have hnil : intRange i (i + (0 : ℕ)) = [] := by simp [intRange]
    rw [hnil]
    rfl
  | succ n ih =>
    rw [intRange_succ, List.map_cons, sweep, forEach]
    rcases body ⟨thread, i⟩ g with ⟨g', fault | _⟩
    · rfl
    · exact ih (i + 1) g'

/-- **The loop goes through the positions behind a position**, in order. -/
theorem forLater_eq_forEach (g : WaitGraph p m) {l : List Position} (h : p.after q = .ok l) :
    g.forLater q body = forEach body l g := by
  rw [Program.after] at h
  cases hat : p.threadAt q with
  | error fault =>
    rw [hat] at h
    cases h
  | ok th =>
    rw [hat] at h
    obtain rfl := Except.ok.inj h
    -- the loop counts how many are left, the range says where to stop
    have hcount : intRange (q.index + 1) th.length =
        intRange (q.index + 1) (q.index + 1 + (th.length - (q.index + 1)).toNat) := by
      have htoNat : (q.index + 1 + (th.length - (q.index + 1)).toNat - (q.index + 1)).toNat =
          (th.length - (q.index + 1)).toNat := by omega
      rw [intRange, intRange, htoNat]
    rw [forLater, hat]
    simp only [hcount]
    exact sweep_eq_forEach q.thread (q.index + 1) _ g

/-- **A loop changes the sets of the positions that it goes through and no others**, if every round
changes the set of its own position. -/
theorem forEach_alter {l : List Position} (hl : l.Nodup)
    (hbody : ∀ r ∈ l, ∀ g, body r g = (g.alter r (f r), .ok ())) (g : WaitGraph p m) :
    ∃ g', forEach body l g = (g', .ok ()) ∧
      ∀ r, g'.waits? r = (g.waits? r).map fun s ↦ if r ∈ l then f r s else s := by
  induction l generalizing g with
  | nil => exact ⟨g, rfl, fun r ↦ by simp⟩
  | cons q l ih =>
    obtain ⟨hq, hl⟩ := List.nodup_cons.1 hl
    obtain ⟨hround, hrest⟩ := List.forall_mem_cons.1 hbody
    obtain ⟨g', hloop, hg'⟩ := ih hl hrest (g.alter q (f q))
    refine ⟨g', by rw [forEach, hround]; exact hloop, fun r ↦ ?_⟩
    rw [hg', waits?_alter]
    by_cases hr : r = q
    · -- no later round comes to this round's position again
      subst hr
      simp only [if_true, Option.map_map, hq, if_false, List.mem_cons_self]
      rfl
    · simp [hr]

/-- **What is behind a position of the program** are the positions of the program in its thread with
higher indices. -/
theorem exists_after (hq : q ∈ p.positions) : ∃ l, p.after q = .ok l ∧ l.Nodup ∧
    ∀ r, r ∈ l ↔ r ∈ p.positions ∧ r.thread = q.thread ∧ q.index < r.index := by
  obtain ⟨th, hat, hth, -⟩ := Program.exists_threadAt hq
  obtain ⟨-, hi, -⟩ := Program.mem_positions.1 hq
  refine ⟨_, by rw [Program.after, hat]; rfl, ?_, fun r ↦ ?_⟩
  · refine List.Nodup.map (fun i j heq ↦ (Position.mk.inj heq).2) ?_
    exact List.Nodup.map (fun i j heq ↦ by omega) List.nodup_range
  · simp only [List.mem_map, mem_intRange]
    constructor
    · rintro ⟨j, hj, rfl⟩
      have hr : (⟨q.thread, j⟩ : Position) ∈ p.positions :=
        Program.mem_positions_of_lt_length hq hth rfl (by show 0 ≤ j; omega) hj.2
      exact ⟨hr, rfl, by show q.index < j; omega⟩
    · rintro ⟨hr, ht, hlt⟩
      obtain ⟨th', -, hth', hlen⟩ := Program.exists_threadAt hr
      rw [ht, hth] at hth'
      obtain rfl := Option.some.inj hth'
      exact ⟨r.index, ⟨by omega, hlen⟩, by rw [← ht]⟩

/-- **A loop over what is behind a position of the program changes all sets there and no others**,
if every round changes the set of its own position. -/
theorem forLater_eq (hq : q ∈ p.positions)
    (hbody : ∀ r ∈ p.positions, r.thread = q.thread → q.index < r.index → ∀ g,
      body r g = (g.alter r (f r), .ok ())) (g : WaitGraph p m) :
    ∃ g', g.forLater q body = (g', .ok ()) ∧ ∀ r ∈ p.positions, g'.waitsFor r =
      if r.thread = q.thread ∧ q.index < r.index then f r (g.waitsFor r) else g.waitsFor r := by
  obtain ⟨l, hafter, hl, hmem⟩ := exists_after hq
  have hrounds : ∀ r ∈ l, ∀ g, body r g = (g.alter r (f r), .ok ()) := by
    intro r hr
    obtain ⟨hr, ht, hlt⟩ := (hmem r).1 hr
    exact hbody r hr ht hlt
  obtain ⟨g', hloop, hg'⟩ := forEach_alter hl hrounds g
  refine ⟨g', (forLater_eq_forEach g hafter).trans hloop, fun r hr ↦ ?_⟩
  obtain ⟨s, hs⟩ := g.exists_waits? hr
  rw [waitsFor, waitsFor, hg', hs, Option.map_some, Option.getD_some, Option.getD_some]
  simp only [hmem, hr, true_and]

/-! ### Lifting -/

/-- **Lifting an instruction discards it from the sets of the later ones of its thread**, and
touches no other set. It does not fail. -/
theorem exists_lift_eq (g : WaitGraph p m) (hq : q ∈ p.positions) :
    ∃ g', g.lift q = (g', .ok ()) ∧ ∀ r ∈ p.positions, g'.waitsFor r =
      if r.thread = q.thread ∧ q.index < r.index then (g.waitsFor r).discard q
      else g.waitsFor r :=
  forLater_eq (f := fun _ s ↦ s.discard q) hq (fun _ hr _ _ g ↦ change_eq g hr _) g

/-- The edges to a position of the program can always be lifted. -/
theorem lift_eq (g : WaitGraph p m) (hq : q ∈ p.positions) : g.lift q = ((g.lift q).1, .ok ()) := by
  obtain ⟨g', hlift, -⟩ := g.exists_lift_eq hq
  rw [hlift]

/-- **Lifting the edges to a position removes those from what is behind it, and no others.** -/
theorem mem_waitsFor_lift (hq : q ∈ p.positions) : earlier ∈ (g.lift q).1.waitsFor later ↔
    earlier ∈ g.waitsFor later ∧
      ¬(earlier = q ∧ later.thread = q.thread ∧ q.index < later.index) := by
  obtain ⟨g', hlift, hg'⟩ := g.exists_lift_eq hq
  rw [hlift]
  by_cases hlater : later ∈ p.positions
  · rw [hg' later hlater]
    by_cases hbehind : later.thread = q.thread ∧ q.index < later.index
    · rw [if_pos hbehind, PositionSet.mem_discard, and_iff_left hbehind]
    · rw [if_neg hbehind]
      exact (and_iff_left fun h ↦ hbehind h.2).symm
  · exact ⟨fun h ↦ absurd (mem_positions_of_mem_waitsFor h) hlater,
      fun h ↦ absurd (mem_positions_of_mem_waitsFor h.1) hlater⟩

/-! ### Imposing -/

theorem alter_id (g : WaitGraph p m) (q : Position) : g.alter q id = g := by
  obtain ⟨entries, hkeys⟩ := g
  rw [alter, mk.injEq]
  conv_rhs => rw [← List.map_id entries]
  refine List.map_congr_left fun e _ ↦ ?_
  split <;> rfl

/-- **Imposing an instruction adds it to the sets of those that have to wait for it**, and touches
no other set. It does not fail. -/
theorem exists_impose_eq (g : WaitGraph p m) (hq : q ∈ p.positions) :
    ∃ g', g.impose q = (g', .ok ()) ∧ ∀ r ∈ p.positions, g'.waitsFor r =
      if p.precedes m q r = true then (g.waitsFor r).add q else g.waitsFor r := by
  obtain ⟨i, hi⟩ := Program.exists_get? hq
  rw [impose, Program.fetch_of_get? hi]
  -- a round adds the position or leaves the set alone, as the model says
  refine (forLater_eq hq (f := fun r ↦ if p.precedes m q r = true then fun s ↦ s.add q else id)
    (fun r hr ht hlt g ↦ ?_) g).imp fun g' h ↦ ⟨h.1, fun r hr ↦ ?_⟩
  · obtain ⟨j, hj⟩ := Program.exists_get? hr
    have hpre : p.precedes m q r = m.ordered i j := by
      simp [Program.precedes, ht, hlt, hi, hj]
    simp only [Program.fetch_of_get? hj, hpre]
    split
    · exact change_eq g hr _
    · rw [alter_id]
  · rw [h.2 r hr]
    by_cases hpre : p.precedes m q r = true
    · obtain ⟨ht, hlt, -⟩ := Program.precedes_iff.1 hpre
      rw [if_pos ⟨ht.symm, hlt⟩, if_pos hpre, if_pos hpre]
    · rw [if_neg hpre, if_neg hpre, id_eq, ite_self]

/-- The edges to a position of the program can always be imposed. -/
theorem impose_eq (g : WaitGraph p m) (hq : q ∈ p.positions) :
    g.impose q = ((g.impose q).1, .ok ()) := by
  obtain ⟨g', himpose, -⟩ := g.exists_impose_eq hq
  rw [himpose]

/-- **Imposing the edges to a position adds those that the model asks for, and no others.** -/
theorem mem_waitsFor_impose (hq : q ∈ p.positions) : earlier ∈ (g.impose q).1.waitsFor later ↔
    earlier ∈ g.waitsFor later ∨
      later ∈ p.positions ∧ earlier = q ∧ p.precedes m q later = true := by
  obtain ⟨g', himpose, hg'⟩ := g.exists_impose_eq hq
  rw [himpose]
  by_cases hlater : later ∈ p.positions
  · rw [hg' later hlater]
    by_cases hpre : p.precedes m q later = true
    · simp only [hpre, if_true, PositionSet.mem_add, hlater, true_and, and_true]
      exact or_comm
    · rw [if_neg hpre, or_iff_left fun h ↦ hpre h.2.2]
  · simp only [hlater, false_and, or_false]
    exact ⟨fun h ↦ absurd (mem_positions_of_mem_waitsFor h) hlater,
      fun h ↦ absurd (mem_positions_of_mem_waitsFor h) hlater⟩

/-! ### All edges -/

theorem not_mem_waitsFor_bare : earlier ∉ (bare : WaitGraph p m).waitsFor later := by
  intro h
  let g : WaitGraph p m := bare
  have hentry : (later, g.waitsFor later) ∈ g.entries := by
    rw [entries_eq]
    exact List.mem_map_of_mem (mem_positions_of_mem_waitsFor h)
  obtain ⟨q, -, heq⟩ := List.mem_map.1 hentry
  obtain ⟨-, hempty⟩ := Prod.mk.inj heq
  exact PositionSet.not_mem_empty (hempty ▸ h)

/-- Imposing the edges to some positions after each other leaves those to all of them. -/
theorem mem_waitsFor_foldl {l : List Position} (hl : ∀ q ∈ l, q ∈ p.positions) :
    earlier ∈ (l.foldl (fun g q ↦ (g.impose q).1) g).waitsFor later ↔ earlier ∈ g.waitsFor later ∨
      later ∈ p.positions ∧ earlier ∈ l ∧ p.precedes m earlier later = true := by
  induction l generalizing g with
  | nil => simp
  | cons q l ih =>
    obtain ⟨hq, hl⟩ := List.forall_mem_cons.1 hl
    rw [List.foldl_cons, ih hl, mem_waitsFor_impose hq, or_assoc, List.mem_cons]
    refine or_congr_right ?_
    constructor
    · rintro (⟨hlater, rfl, hpre⟩ | ⟨hlater, hmem, hpre⟩)
      · exact ⟨hlater, Or.inl rfl, hpre⟩
      · exact ⟨hlater, Or.inr hmem, hpre⟩
    · rintro ⟨hlater, rfl | hmem, hpre⟩
      · exact Or.inl ⟨hlater, rfl, hpre⟩
      · exact Or.inr ⟨hlater, hmem, hpre⟩

/-- **At first the edges are those that the model asks for.** -/
theorem mem_waitsFor_full : earlier ∈ (full : WaitGraph p m).waitsFor later ↔
    later ∈ p.positions ∧ earlier ∈ p.positions ∧ p.precedes m earlier later = true := by
  rw [full, mem_waitsFor_foldl fun q hq ↦ hq]
  exact or_iff_right not_mem_waitsFor_bare

/-! ### Edges that are in force -/

/-- **The edges to a position are in force**: just what the model orders after it waits for it. -/
def InForce (g : WaitGraph p m) (q : Position) : Prop :=
  ∀ later, q ∈ g.waitsFor later ↔ later ∈ p.positions ∧ p.precedes m q later = true

/-- **Imposing edges again that were in force when they were lifted restores the graph.** -/
theorem impose_lift_of_inForce (h : g.InForce q) (hq : q ∈ p.positions) :
    ((g.lift q).1.impose q).1 = g := by
  refine ext fun later earlier ↦ ?_
  rw [mem_waitsFor_impose hq, mem_waitsFor_lift hq]
  by_cases heq : earlier = q
  · -- all edges to the position are gone in between, and just those that were there come back
    subst heq
    have hlifted : ¬(earlier ∈ g.waitsFor later ∧
        ¬(earlier = earlier ∧ later.thread = earlier.thread ∧ earlier.index < later.index)) := by
      rintro ⟨hmem, hnot⟩
      obtain ⟨ht, hlt, -⟩ := Program.precedes_iff.1 ((h later).1 hmem).2
      exact hnot ⟨rfl, ht.symm, hlt⟩
    rw [or_iff_right hlifted, h later]
    simp only [true_and]
  · simp only [heq, false_and, and_false, not_false_eq_true, and_true, or_false]

end Litmus.WaitGraph

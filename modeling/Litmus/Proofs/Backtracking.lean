import Litmus.Exploration
import Litmus.Proofs.Enumeration

/-!
# Searching in place

`Exploration.run` is a recursion over the tree of executions: every branch gets a walk of its own.
The same search can be made with one walk that steps into a position, searches on from there, and
steps out again before the next choice is tried (`Exploration.search`).

* Stepping out right after stepping in restores the walk: its edges, memory, loads, trail and trace
  (`Walk.leave_of_enter`). This needs the edges to the position to be in force before, and they are
  unless the position has run.
* Hence the search in place finds what the recursion finds, and ends where it began, wherever that
  is (`Exploration.search_eq_run_of_le`). The fault of an outcome that cannot be written is no
  exception: it is passed on from step to step, and each of them is taken back.
-/

namespace Litmus

/-! ### Stepping out -/

namespace Walk

variable {p : Program} {s : Setting} {w w' : Walk p s} {done : List Position} {g g' : Image}
  {q : Position} {c : Choice} {prior : Int} {m n : ℕ}

/-- What stepping into a position does, if it succeeds. -/
theorem enter_cases (hq : q ∈ p.positions) (h : w.enter q c = (w', .ok prior)) :
    ∃ e step, w.execution.execute q (c.source.map fun _ ↦ c.value) = (e, .ok prior) ∧
      w' = ⟨(w.graph.lift q).1, e, w.trace ++ [step]⟩ := by
  obtain ⟨i, hi⟩ := Program.exists_get? hq
  rw [Walk.enter, WaitGraph.lift_eq w.graph hq] at h
  rcases hexec : w.execution.execute q (c.source.map fun _ ↦ c.value) with ⟨e, fault | u⟩
  · simp only [hexec] at h
    rw [WaitGraph.impose_eq _ hq] at h
    cases (Prod.mk.inj h).2
  · simp only [hexec, Program.fetch_of_get? hi] at h
    obtain ⟨rfl, hprior⟩ := Prod.mk.inj h
    obtain rfl := Except.ok.inj hprior
    exact ⟨e, _, rfl, rfl⟩

/-- **Stepping out right after stepping in restores the walk.** -/
theorem leave_of_enter (hq : q ∈ p.positions) (hforce : w.graph.InForce q)
    (h : w.enter q c = (w', .ok prior)) : w'.leave q prior = (w, .ok ()) := by
  obtain ⟨e, step, hexec, rfl⟩ := enter_cases hq h
  rw [leave, retreat, List.dropLast_concat]
  simp only [Execution.undo_of_execute hexec]
  rw [WaitGraph.impose_eq _ hq, WaitGraph.impose_lift_of_inForce hforce hq]
  rfl

/-! ### How deep a visit goes -/

/-- One step leaves one position less to run. -/
theorem Stands.remaining_snoc (h : w.Stands done g) (h' : w'.Stands (done ++ [q]) g')
    (hq : q ∈ p.positions) (hnot : q ∉ done) : w'.remaining + 1 = w.remaining := by
  set rest := p.positions.filter fun r ↦ !w.execution.executed r with hrest
  have hmem : q ∈ rest := by
    rw [hrest, List.mem_filter, Bool.not_eq_true', ← Bool.not_eq_true, h.executed_iff]
    exact ⟨hq, hnot⟩
  -- what is left after the step is what was left before, less its position
  have herase : (p.positions.filter fun r ↦ !w'.execution.executed r) = rest.erase q := by
    rw [(p.nodup_positions.filter _).erase_eq_filter, List.filter_filter]
    refine List.filter_congr fun r _ ↦ ?_
    rw [Bool.eq_iff_iff, Bool.and_eq_true, Bool.not_eq_true', Bool.not_eq_true',
      ← Bool.not_eq_true, ← Bool.not_eq_true, h.executed_iff, h'.executed_iff, bne_iff_ne,
      List.mem_append, List.mem_singleton, not_or, and_comm]
  rw [remaining, remaining, herase, ← hrest, List.length_erase_of_mem hmem,
    Nat.sub_add_cancel (List.length_pos_of_mem hmem)]

/-- **A visit goes no deeper than there are instructions that have not run.** -/
theorem Stands.visits_of_le (h : w.Stands done g) (hn : w.remaining ≤ n) :
    w.visits n = w.visits w.remaining := by
  induction hm : w.remaining generalizing w done g n with
  | zero =>
    -- everything has run, so nothing is offered at any depth
    have hnone : w.eligible = [] := by
      rw [remaining, List.length_eq_zero_iff, List.filter_eq_nil_iff] at hm
      refine List.filter_eq_nil_iff.2 fun q hq hoffered ↦ ?_
      exact hm q hq (Bool.and_eq_true_iff.1 hoffered).1
    cases n with
    | zero => rfl
    | succ n => simp only [visits, hnone, List.flatMap_nil]
  | succ m ih =>
    obtain ⟨n, rfl⟩ := Nat.exists_eq_add_one.2 (show 0 < n by omega)
    rw [h.visits_succ, h.visits_succ]
    refine List.flatMap_congr fun move hmove ↦ ?_
    obtain ⟨hq, hready, -⟩ := Program.mem_moves.1 hmove
    obtain ⟨i, hi⟩ := Program.exists_get? hq
    obtain ⟨w', prior, henter, hw', -⟩ := h.enter_move hmove hi
    have hleft := h.remaining_snoc hw' hq (Program.ready_iff.1 hready).1
    simp only [henter, ih hw' (n := n) (by omega) (by omega)]

end Walk

/-- Nothing is recorded after a fault. -/
theorem Findings.foldl_observe_error {p : Program} {s : Setting} (f : Findings) (fault : Fault)
    (l : List (Except Fault (Walk p s))) :
    l.foldl observe (f, .error fault) = (f, .error fault) := by
  induction l with
  | nil => rfl
  | cons v l ih => rw [List.foldl_cons, observe, ih]

namespace Exploration

variable {p : Program} {s : Setting} {w w' : Walk p s} {done : List Position} {g : Image}
  {σ : Schedule} {q : Position} {c : Choice} {prior : Int} {n : ℕ}

/-! ### What the search finds -/

/-- The exploration after its findings have seen what a visit brings. The walk is where it was. -/
def observing (e : Exploration p s) (l : List (Except Fault (Walk p s))) :
    Exploration p s × Except Fault Unit :=
  ({ e with findings := (l.foldl Findings.observe (e.findings, .ok ())).1 },
    (l.foldl Findings.observe (e.findings, .ok ())).2)

/-- The recursion over the tree leaves the walk where it is, and its findings see what a visit
brings. -/
theorem run_eq_observing (e : Exploration p s) :
    e.run = e.observing (e.walk.visits e.walk.remaining) := by
  simp only [run, observing, Walk.visit_eq_foldl]

/-- If every round leaves the walk as it was, the rounds bring what they bring one by one. -/
theorem forEach_eq_observing {α : Type}
    {body : α → Exploration p s → Exploration p s × Except Fault Unit} {l : List α}
    {brings : α → List (Except Fault (Walk p s))}
    (h : ∀ a ∈ l, ∀ f, body a ⟨w, f⟩ = observing ⟨w, f⟩ (brings a)) (f : Findings) :
    forEach body l ⟨w, f⟩ = observing ⟨w, f⟩ (l.flatMap brings) := by
  induction l generalizing f with
  | nil => rfl
  | cons a l ih =>
    rw [forEach, h a List.mem_cons_self, List.flatMap_cons]
    simp only [observing, List.foldl_append]
    -- a fault in this round ends the loop here and silences the rest of the visit there
    rcases (brings a).foldl Findings.observe (f, .ok ()) with ⟨f', fault | u⟩
    · simp only [Findings.foldl_observe_error]
    · exact ih (fun b hb ↦ h b (List.mem_cons_of_mem a hb)) f'

/-- What happens within a step that is taken back. -/
theorem within_eq_of_enter {α : Type}
    {body : Exploration p s → Exploration p s × Except Fault α} {f : Findings}
    (henter : w.enter q c = (w', .ok prior)) (hleave : w'.leave q prior = (w, .ok ()))
    (hbody : (body ⟨w', f⟩).1.walk = w') :
    within ⟨w, f⟩ q c body = (⟨w, (body ⟨w', f⟩).1.findings⟩, (body ⟨w', f⟩).2) := by
  simp only [within, henter, hbody, hleave, Except.bind]

/-- If the body of a step observes something and leaves the walk alone, so does the step. -/
theorem within_eq_observing {body : Exploration p s → Exploration p s × Except Fault Unit}
    {l : List (Except Fault (Walk p s))} {f : Findings} (henter : w.enter q c = (w', .ok prior))
    (hleave : w'.leave q prior = (w, .ok ())) (hbody : body ⟨w', f⟩ = observing ⟨w', f⟩ l) :
    within ⟨w, f⟩ q c body = observing ⟨w, f⟩ l := by
  have hwalk : (body ⟨w', f⟩).1.walk = w' := by rw [hbody, observing]
  rw [within_eq_of_enter henter hleave hwalk, hbody]
  rfl

/-- **The search in place brings what a visit brings, and leaves the walk as it was**, wherever the
walk stands. -/
theorem search_eq_observing (h : w.Stands done g) (n : ℕ) (f : Findings) :
    search n ⟨w, f⟩ = observing ⟨w, f⟩ (w.visits n) := by
  induction n generalizing w done g f with
  | zero => rfl
  | succ n ih =>
    rw [search, Walk.visits]
    refine forEach_eq_observing (fun q hq f ↦ ?_) f
    obtain ⟨hpos, hready⟩ := h.mem_eligible.1 hq
    have hforce : w.graph.InForce q := h.inForce hpos (Program.ready_iff.1 hready).1
    obtain ⟨i, hi⟩ := Program.exists_get? hpos
    simp only [h.choices hpos]
    refine forEach_eq_observing (fun c hc f ↦ ?_) f
    obtain ⟨src, hsrc, rfl⟩ := List.mem_map.1 hc
    have hm : (⟨q, src⟩ : Move) ∈ p.moves s done := Program.mem_moves.2 ⟨hpos, hready, hsrc⟩
    obtain ⟨w', prior, henter, hw', -⟩ := h.enter_move hm hi
    simp only [henter]
    -- the walk is back before the next choice, so all choices are tried from the same one
    refine within_eq_observing henter (Walk.leave_of_enter hpos hforce henter) ?_
    by_cases hcomplete : w'.execution.complete = true
    · simp only [hcomplete, if_true]
      rfl
    · simp only [hcomplete, Bool.false_eq_true, if_false]
      exact ih hw' f

/-- **The search in place is the recursion over the tree**, if it may go as deep as there are
instructions that have not run. -/
theorem search_eq_run_of_le (h : w.Stands done g) (hn : w.remaining ≤ n) (f : Findings) :
    search n ⟨w, f⟩ = run ⟨w, f⟩ := by
  rw [run_eq_observing, search_eq_observing h, h.visits_of_le hn]

/-- In particular from where a search comes by itself. -/
theorem search_eq_run (h : w.Follows σ) (f : Findings) :
    search w.remaining ⟨w, f⟩ = run ⟨w, f⟩ :=
  search_eq_run_of_le h.toStands (Nat.le_refl _) f

end Exploration

end Litmus

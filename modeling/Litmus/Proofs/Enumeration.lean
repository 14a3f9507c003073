import Litmus.Proofs.Following
import Mathlib.Data.List.Forall2

/-!
# The schedules of a program, in order

The legal schedules of a program form a tree: below a schedule that is under way stand the moves
that may be made next, in increasing order. `Program.schedules` lists the leaves from left to right.

* It has every legal schedule (`Program.mem_schedules`), and in strictly increasing lexicographic
  order (`Program.schedules_sorted`), hence each one once.
* A visit of all completions of a walk passes through the same tree. What the visitor sees are
  walks that follow these schedules, one after the other, and no fault (`Walk.visits_start`).

A visit is a recursion over the tree, and the visitor is folded over the list of its leaves
(`Walk.visit_eq_foldl`).
-/

namespace Litmus

/-! ### The order of moves -/

/-- A forwarded value is tried before memory. -/
instance : LT Source := ⟨fun a b ↦ a = .forwarded ∧ b = .memory⟩

theorem Source.lt_iff {a b : Source} : a < b ↔ a = .forwarded ∧ b = .memory := Iff.rfl

/-- Moves are ordered by their positions, and at one position by their sources. -/
instance : LT Move :=
  ⟨fun a b ↦ a.position < b.position ∨ a.position = b.position ∧ a.source < b.source⟩

theorem Move.lt_iff {a b : Move} :
    a < b ↔ a.position < b.position ∨ a.position = b.position ∧ a.source < b.source :=
  Iff.rfl

theorem Move.lt_irrefl (a : Move) : ¬a < a := by
  rw [Move.lt_iff]
  rintro (h | ⟨-, h⟩)
  · exact Position.lt_irrefl _ h
  · revert h
    cases a.source with
    | none => simp
    | some src =>
      rw [Option.some_lt_some, Source.lt_iff]
      rintro ⟨rfl, h⟩
      cases h

theorem Schedule.lt_irrefl (σ : Schedule) : ¬σ < σ := by
  induction σ with
  | nil => exact List.not_lt_nil []
  | cons a σ ih =>
    rw [List.cons_lt_cons_iff]
    rintro (h | ⟨-, h⟩)
    · exact Move.lt_irrefl a h
    · exact ih h

/-- Schedules that part at a move are ordered as these moves are. -/
theorem Schedule.lt_of_move_lt {σ τ τ' : Schedule} {a b : Move} (h : a < b) :
    σ ++ a :: τ < σ ++ b :: τ' :=
  List.append_left_lt (List.cons_lt_cons_iff.2 (Or.inl h))

namespace Program

variable {p : Program} {s : Setting} {σ τ ρ : Schedule} {m : Move} {done : List Position}
  {q : Position} {n : ℕ}

/-- A load that can forward tries that first. -/
theorem sourcesAfter_sorted (p : Program) (s : Setting) (done : List Position) (q : Position) :
    (p.sourcesAfter s done q).Pairwise (· < ·) := by
  unfold sourcesAfter
  split
  · exact List.Pairwise.nil
  · exact List.pairwise_singleton _ _
  · split
    · exact List.pairwise_singleton _ _
    · split
      · exact List.pairwise_singleton _ _
      · split
        · refine List.pairwise_pair.2 ?_
          exact Option.some_lt_some.2 ⟨rfl, rfl⟩
        · exact List.pairwise_singleton _ _

/-- **The moves that may be made next are listed in strictly increasing order.** -/
theorem moves_sorted (p : Program) (s : Setting) (done : List Position) :
    (p.moves s done).Pairwise (· < ·) := by
  rw [moves, List.pairwise_flatMap]
  constructor
  · intro q _
    rw [List.pairwise_map]
    exact (p.sourcesAfter_sorted s done q).imp fun h ↦ Or.inr ⟨rfl, h⟩
  · refine (p.positions_sorted.filter _).imp fun hlt a ha b hb ↦ ?_
    obtain ⟨_, -, rfl⟩ := List.mem_map.1 ha
    obtain ⟨_, -, rfl⟩ := List.mem_map.1 hb
    exact Or.inl hlt

/-! ### The tree of schedules -/

/-- The schedules that have `n` moves more than `σ`, in the order in which a search comes to
them. -/
def extensions (p : Program) (s : Setting) : ℕ → Schedule → List Schedule
  | 0, σ => [σ]
  | n + 1, σ => (p.moves s σ.order).flatMap fun m ↦ p.extensions s n (σ ++ [m])

/-- The complete schedules of a program, in the order in which a search comes to them. -/
def schedules (p : Program) (s : Setting) : List Schedule := p.extensions s p.total []

/-- A schedule is admitted if each of its moves was open when it was made. -/
theorem admits_snoc : p.Admits s (σ ++ [m]) ↔ p.Admits s σ ∧ m ∈ p.moves s σ.order := by
  constructor
  · intro h
    generalize hτ : σ ++ [m] = τ at h
    cases h with
    | nil => simp at hτ
    | snoc h hm =>
      obtain ⟨rfl, hlast⟩ := List.append_inj' hτ rfl
      obtain rfl := List.singleton_inj.1 hlast
      exact ⟨h, hm⟩
  · rintro ⟨h, hm⟩
    exact h.snoc hm

/-- Every beginning of a schedule that can be built up can be built up. -/
theorem Admits.of_append (h : p.Admits s (σ ++ τ)) : p.Admits s σ := by
  induction τ using List.reverseRecOn with
  | nil => rwa [List.append_nil] at h
  | append_singleton τ m ih =>
    rw [← List.append_assoc] at h
    exact ih (admits_snoc.1 h).1

/-- Every schedule of the tree below `σ` begins with `σ`. -/
theorem prefix_of_mem_extensions (h : τ ∈ p.extensions s n σ) : σ <+: τ := by
  induction n generalizing σ with
  | zero =>
    obtain rfl := List.mem_singleton.1 h
    exact List.prefix_rfl
  | succ n ih =>
    obtain ⟨m, -, hm⟩ := List.mem_flatMap.1 h
    exact (List.prefix_append σ [m]).trans (ih hm)

/-- **The tree below a schedule has exactly the schedules that continue it.** -/
theorem mem_extensions (hσ : p.Admits s σ) : τ ∈ p.extensions s n σ ↔
    p.Admits s τ ∧ σ <+: τ ∧ τ.length = σ.length + n := by
  induction n generalizing σ with
  | zero =>
    rw [extensions, List.mem_singleton]
    constructor
    · rintro rfl
      exact ⟨hσ, List.prefix_rfl, rfl⟩
    · rintro ⟨-, hpre, hlen⟩
      exact (hpre.eq_of_length hlen.symm).symm
  | succ n ih =>
    rw [extensions, List.mem_flatMap]
    constructor
    · rintro ⟨m, hm, hτ⟩
      obtain ⟨hadm, hpre, hlen⟩ := (ih (hσ.snoc hm)).1 hτ
      refine ⟨hadm, (List.prefix_append σ [m]).trans hpre, ?_⟩
      rw [hlen, List.length_append, List.length_singleton]
      omega
    · rintro ⟨hadm, ⟨ρ, rfl⟩, hlen⟩
      -- what comes next is a move that is open, and the rest extends the schedule by it
      cases ρ with
      | nil =>
        rw [List.append_nil] at hlen
        omega
      | cons m ρ =>
        have hsplit : σ ++ m :: ρ = (σ ++ [m]) ++ ρ := by simp
        have hm : p.Admits s (σ ++ [m]) := (hsplit ▸ hadm).of_append
        refine ⟨m, (admits_snoc.1 hm).2, (ih hm).2 ⟨hadm, ⟨ρ, hsplit.symm⟩, ?_⟩⟩
        rw [hlen, List.length_append, List.length_singleton]
        omega

/-- **The tree is walked through in strictly increasing lexicographic order.** -/
theorem extensions_sorted (p : Program) (s : Setting) (n : ℕ) (σ : Schedule) :
    (p.extensions s n σ).Pairwise (· < ·) := by
  induction n generalizing σ with
  | zero => exact List.pairwise_singleton _ _
  | succ n ih =>
    rw [extensions, List.pairwise_flatMap]
    refine ⟨fun m _ ↦ ih _, (p.moves_sorted s σ.order).imp fun hlt τ hτ τ' hτ' ↦ ?_⟩
    -- two branches part at their moves after `σ`
    obtain ⟨ρ, rfl⟩ := prefix_of_mem_extensions hτ
    obtain ⟨ρ', rfl⟩ := prefix_of_mem_extensions hτ'
    rw [List.append_assoc, List.append_assoc]
    exact Schedule.lt_of_move_lt hlt

/-- No way to go on is listed twice. -/
theorem nodup_extensions (p : Program) (s : Setting) (n : ℕ) (σ : Schedule) :
    (p.extensions s n σ).Nodup := by
  refine (p.extensions_sorted s n σ).imp ?_
  rintro τ τ' hlt rfl
  exact Schedule.lt_irrefl τ hlt

/-- If the same moves may be made next at every point, the trees are the same. -/
theorem extensions_congr {p' : Program} {s' : Setting}
    (h : ∀ done, p.moves s done = p'.moves s' done) (n : ℕ) (σ : Schedule) :
    p.extensions s n σ = p'.extensions s' n σ := by
  induction n generalizing σ with
  | zero => rfl
  | succ n ih =>
    rw [extensions, extensions, h]
    exact List.flatMap_congr fun m _ ↦ ih (σ ++ [m])

/-- **A search comes to exactly the legal schedules.** -/
theorem mem_schedules : σ ∈ p.schedules s ↔ p.Legal s σ := by
  rw [schedules, mem_extensions .nil, legal_iff]
  simp

/-- **Schedules are listed in lexicographic order.** -/
theorem schedules_sorted (p : Program) (s : Setting) : (p.schedules s).Pairwise (· < ·) :=
  p.extensions_sorted s _ _

theorem nodup_schedules (p : Program) (s : Setting) : (p.schedules s).Nodup :=
  p.nodup_extensions s _ _

end Program

/-! ### Visiting -/

namespace Walk

variable {p : Program} {s : Setting} {w : Walk p s} {σ : Schedule} {n : ℕ}

/-- What a visit of the completions of a walk brings, in order. -/
def visits : ℕ → Walk p s → List (Except Fault (Walk p s))
  | 0, _ => []
  | n + 1, w =>
    w.eligible.flatMap fun q ↦
      match w.choices q with
      | .error fault => [.error fault]
      | .ok cs => cs.flatMap fun c ↦
          match w.enter q c with
          | (_, .error fault) => [.error fault]
          | (w', .ok _) => if w'.execution.complete then [.ok w'] else visits n w'

/-- **A visitor is folded over what the visit brings.** -/
theorem visit_eq_foldl {β : Type} (f : β → Except Fault (Walk p s) → β) (n : ℕ) (w : Walk p s)
    (b : β) : w.visit f n b = (w.visits n).foldl f b := by
  -- the three nested loops of a visit are one loop over what they come to
  induction n generalizing w b with
  | zero => rfl
  | succ n ih =>
    rw [visit, visits, List.foldl_flatMap]
    congr 1
    funext b q
    cases w.choices q with
    | error fault => rfl
    | ok cs =>
      simp only [List.foldl_flatMap]
      congr 1
      funext b c
      rcases w.enter q c with ⟨w', fault | prior⟩
      · rfl
      · by_cases hc : w'.execution.complete = true
        · simp [hc]
        · simp [hc, ih]

/-- An execution is complete after as many moves as there are instructions. -/
theorem Follows.complete_iff (h : w.Follows σ) :
    w.execution.complete = true ↔ σ.length = p.total := by
  have hlen : w.execution.ran.size = σ.length := by
    rw [PositionSet.size, h.ran.length_eq, Schedule.order, List.length_map]
  rw [Execution.complete, hlen, beq_iff_eq]

/-- What has run and what remains make up the program. -/
theorem Follows.remaining (h : w.Follows σ) (hσ : p.Admits s σ) :
    σ.length + w.remaining = p.total := by
  set rest := p.positions.filter fun q ↦ !w.execution.executed q with hrest
  have hmem : ∀ q, q ∈ rest ↔ q ∈ p.positions ∧ q ∉ σ.order := by
    intro q
    rw [hrest, List.mem_filter, Bool.not_eq_true', ← Bool.not_eq_true, h.executed_iff]
  have hnodup : (σ.order ++ rest).Nodup := by
    refine hσ.nodup.append (p.nodup_positions.filter _) fun q hq hq' ↦ ?_
    exact ((hmem q).1 hq').2 hq
  -- together they are a permutation of the positions, and so as many
  have hperm : (σ.order ++ rest).Perm p.positions := by
    refine (List.perm_ext_iff_of_nodup hnodup p.nodup_positions).2 fun q ↦ ?_
    rw [List.mem_append, hmem]
    constructor
    · rintro (hq | hq)
      · exact hσ.subset q hq
      · exact hq.1
    · intro hq
      by_cases hdone : q ∈ σ.order
      · exact Or.inl hdone
      · exact Or.inr ⟨hq, hdone⟩
  rw [← p.length_positions, ← hperm.length_eq, List.length_append, σ.length_order]
  rfl

/-- A visit tries the moves that are possible where the walk stands. -/
theorem Stands.visits_succ {done : List Position} {g : Image} (h : w.Stands done g) (n : ℕ) :
    w.visits (n + 1) = (p.moves s done).flatMap fun m ↦
      match w.enter m.position ⟨m.source, p.valueOf g m⟩ with
      | (_, .error fault) => [.error fault]
      | (w', .ok _) => if w'.execution.complete then [.ok w'] else w'.visits n := by
  rw [Walk.visits, h.eligible, Program.moves, List.flatMap_assoc]
  refine List.flatMap_congr fun q hq ↦ ?_
  rw [h.choices (List.mem_filter.1 hq).1]
  simp only [List.flatMap_map]

/-- Lists of good walks, each following its schedules, make up one such list. -/
private theorem exists_walks_flatMap {l : List Move} {f : Move → List (Except Fault (Walk p s))}
    {g : Move → List Schedule}
    (h : ∀ m ∈ l, ∃ ws : List (Walk p s), f m = ws.map .ok ∧ List.Forall₂ Follows ws (g m)) :
    ∃ ws : List (Walk p s), l.flatMap f = ws.map .ok ∧
      List.Forall₂ Follows ws (l.flatMap g) := by
  induction l with
  | nil => exact ⟨[], rfl, .nil⟩
  | cons m l ih =>
    obtain ⟨ws, hws, hfol⟩ := h m List.mem_cons_self
    obtain ⟨vs, hvs, hfol'⟩ := ih fun k hk ↦ h k (List.mem_cons_of_mem m hk)
    refine ⟨ws ++ vs, ?_, List.rel_append hfol hfol'⟩
    rw [List.flatMap_cons, hws, hvs, List.map_append]

/-- **A visit of an incomplete walk brings no fault, but walks that follow the schedules below its
own, one after the other.** -/
theorem Follows.visits (h : w.Follows σ) (hσ : p.Admits s σ) (hlen : σ.length + (n + 1) = p.total) :
    ∃ ws : List (Walk p s), w.visits (n + 1) = ws.map .ok ∧
      List.Forall₂ Follows ws (p.extensions s (n + 1) σ) := by
  -- `n` counts what is left after the next move, so that zero is where executions end
  induction n generalizing w σ with
  | zero =>
    rw [h.visits_succ, Program.extensions]
    refine exists_walks_flatMap fun m hm ↦ ?_
    obtain ⟨w', prior, henter, hw'⟩ := h.enter hm
    refine ⟨[w'], ?_, .cons hw' .nil⟩
    have hc : w'.execution.complete = true := hw'.complete_iff.2 (by simpa using hlen)
    simp [henter, hc]
  | succ n ih =>
    rw [h.visits_succ, Program.extensions]
    refine exists_walks_flatMap fun m hm ↦ ?_
    obtain ⟨w', prior, henter, hw'⟩ := h.enter hm
    have hlen' : (σ ++ [m]).length + (n + 1) = p.total := by
      rw [List.length_append, List.length_singleton]
      omega
    obtain ⟨ws, hws, hfol⟩ := ih hw' (hσ.snoc hm) hlen'
    refine ⟨ws, ?_, hfol⟩
    have hc : ¬w'.execution.complete = true := by
      rw [hw'.complete_iff]
      omega
    simp [henter, hc, hws]

theorem remaining_start (p : Program) (s : Setting) : (start p s).remaining = p.total := by
  simpa using (follows_start p s).remaining .nil

/-- A visit of all executions of a program brings walks that follow its schedules, in order. -/
theorem visits_start (p : Program) (s : Setting) :
    ∃ ws : List (Walk p s), (start p s).visits (start p s).remaining = ws.map .ok ∧
      List.Forall₂ Follows ws (p.schedules s) := by
  obtain ⟨n, hn⟩ := Nat.exists_eq_add_one.2 p.total_pos
  rw [remaining_start, Program.schedules, hn]
  exact (follows_start p s).visits .nil (by rw [hn, List.length_nil, Nat.zero_add])

end Walk

end Litmus

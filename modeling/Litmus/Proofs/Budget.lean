import Litmus.Generator
import Litmus.Proofs.Reading

/-!
# Generated programs stay within their budget

A generator draws the number of threads, the length of every thread, and what its instructions are.
It asks for a number within a range each time, and the range for the length of a thread depends on
all the lengths that were drawn before. `Generator.Recipe.Draws` says which programs come about when
every number is drawn from its range, without saying who draws them.

* These are the only programs that a chooser can lead to, and with none does the generator fail.
  With a chooser that is free in its choices (`Generator.Chooser.Free`) they all come about
  (`Generator.yields_program`). Both halves are proved together, from the single draw upwards: a
  step of a generation yields all results of a kind and no others (`Generator.Yields`).
* The threads behind the first one have no more instructions than is left of the budget, and none if
  it is used up or overdrawn (`Generator.Recipe.Lengths.total_le`). Only the first thread can
  overdraw it, by the one instruction that it has in any case.

So all limits are kept (`Generator.generate_keeps`), and no range is ever empty.
-/

namespace Litmus.Generator

variable {σ α β : Type} {c : Chooser σ} {r : Recipe} {isFirst : Bool} {budget : ℤ}

/-! ### What a recipe allows -/

namespace Recipe

/-- **Something can be made of the recipe**: it allows a thread and an instruction, and it offers
variables, all of which have names, and values, all of which are integers. -/
structure Usable (r : Recipe) : Prop where
  /-- There may be a thread. -/
  maxThreads : 1 ≤ r.maxThreads
  /-- A thread may have an instruction. -/
  maxInstructions : 1 ≤ r.maxInstructions
  /-- There is a variable to choose. -/
  names_ne_nil : r.names ≠ []
  /-- Every variable has a name. -/
  names : ∀ x ∈ r.names, x.isTrue = true
  /-- There is a value to choose. -/
  values_ne_nil : r.values ≠ []
  /-- Every value is an integer. -/
  values : ∀ d ∈ r.values, ∃ v, d = .int v

/-- The instruction loads one of the variables, or stores one of the values in one of them. -/
def Offers (r : Recipe) (i : Instruction) : Prop :=
  ∃ x ∈ r.names, i = .load x.plain ∨ ∃ v, .int v ∈ r.values ∧ i = .store x.plain v

/-- **The threads have lengths within the ranges that are asked for**, one after the other, when
`budget` is left for them. The draws are these ranges. -/
inductive Lengths (r : Recipe) : Bool → ℤ → List (List Instruction) → List Draw → Prop
  /-- There are no more threads. -/
  | nil {isFirst : Bool} {budget : ℤ} : Lengths r isFirst budget [] []
  /-- One more thread. Its length is drawn, and taken off the budget. -/
  | cons {isFirst : Bool} {budget low high : ℤ} {th : List Instruction}
    {ths : List (List Instruction)} {ds : List Draw} (hlow : low = if isFirst then 1 else 0)
    (hhigh : high = max low (min r.maxInstructions budget)) (hle : low ≤ th.length)
    (hge : th.length ≤ high) (hth : ∀ i ∈ th, r.Offers i)
    (h : Lengths r false (budget - th.length) ths ds) :
    Lengths r isFirst budget (th :: ths) (.length low high :: ds)

/-- **The program comes about if every number is drawn from its range**, and the draws are these
ranges. -/
def Draws (r : Recipe) (p : Program) (draws : List Draw) : Prop :=
  (1 ≤ p.threads.length ∧ p.threads.length ≤ r.maxThreads) ∧
    ∃ ds, draws = .count 1 r.maxThreads :: ds ∧
      r.Lengths true (r.maxTotal.getD (p.threads.length * r.maxInstructions)) p.threads ds

/-- **The program keeps the limits of the recipe.** -/
structure Keeps (r : Recipe) (p : Program) : Prop where
  /-- There is a thread, and there are not too many. -/
  threads : 1 ≤ p.threads.length ∧ p.threads.length ≤ r.maxThreads
  /-- The first thread has an instruction. -/
  first : ∃ i th ths, p.threads = (i :: th) :: ths
  /-- No thread is too long. -/
  instructions : ∀ th ∈ p.threads, th.length ≤ r.maxInstructions
  /-- There are not too many instructions in all, except that there may be one in any case. -/
  total : ∀ n ∈ r.maxTotal, p.total ≤ max 1 n

end Recipe

/-- The range of a draw. -/
def Draw.range : Draw → ℤ × ℤ
  | count low high => (low, high)
  | length low high => (low, high)

/-! ### Steps of a generation -/

/-- **The chooser is free in its choices**: in some state it draws a given number of a range, and
goes on from there as one likes. -/
structure Chooser.Free (c : Chooser σ) : Prop where
  /-- There is a state. -/
  nonempty : Nonempty σ
  /-- Every number of a range is drawn in some state, with any state to follow. -/
  draw : ∀ low high k s', low ≤ k → k ≤ high → ∃ s, c.draw low high s = .ok (k, s')

/-- Picks can be any, so whoever picks is free. -/
theorem Chooser.free_picks : Chooser.picks.Free where
  nonempty := ⟨[]⟩
  draw low high k l hlow hhigh := by
    have hmod : Int.fmod (k - low) (high - low + 1) = k - low :=
      Int.fmod_eq_of_lt (by omega) (by omega)
    refine ⟨(k - low) :: l, (if_neg (by omega)).trans ?_⟩
    rw [List.headD_cons, List.tail_cons, hmod, add_sub_cancel]

/-- **The step yields what satisfies `P`, together with its draws, and nothing else.** It never
fails, whoever chooses; and if the chooser is free, every such result comes about, with any state to
follow. -/
structure Yields (c : Chooser σ) (g : Gen σ α) (P : α → List Draw → Prop) : Prop where
  /-- Whatever the supply is, there is a result. -/
  sound : ∀ s, ∃ a ds state, g s = .ok (a, ⟨state, s.draws ++ ds⟩) ∧ P a ds
  /-- Every result comes about in some state. -/
  complete : c.Free → ∀ a ds, P a ds →
    ∀ state log, ∃ state₀, g ⟨state₀, log⟩ = .ok (a, ⟨state, log ++ ds⟩)

variable {g : Gen σ α} {f : α → Gen σ β} {P : α → List Draw → Prop}
  {Q : α → β → List Draw → Prop}

theorem Yields.congr {P' : α → List Draw → Prop} (h : Yields c g P)
    (hiff : ∀ a ds, P a ds ↔ P' a ds) : Yields c g P' := by
  obtain rfl : P = P' := by
    funext a ds
    exact propext (hiff a ds)
  exact h

/-- A step that draws nothing yields its one result. -/
theorem yields_pure (a : α) : Yields c (pure a) fun b ds ↦ b = a ∧ ds = [] where
  sound s := ⟨a, [], s.state, by rw [List.append_nil]; rfl, rfl, rfl⟩
  complete _ b ds := by
    rintro ⟨rfl, rfl⟩ state log
    exact ⟨state, by rw [List.append_nil]; rfl⟩

/-- So does a step that could fail and does not. -/
theorem yields_liftM {x : Except Fault α} {a : α} (h : x = .ok a) :
    Yields c (liftM x) fun b ds ↦ b = a ∧ ds = [] := by
  subst h
  exact yields_pure a

/-- One step after the other yields what they yield together. The states are found backwards: the
second step says where the first one has to end. -/
theorem Yields.bind (hg : Yields c g P) (hf : ∀ a ds, P a ds → Yields c (f a) (Q a)) :
    Yields c (g >>= f) fun b ds ↦ ∃ a ds₁ ds₂, P a ds₁ ∧ Q a b ds₂ ∧ ds = ds₁ ++ ds₂ where
  sound s := by
    obtain ⟨a, ds₁, state₁, hga, ha⟩ := hg.sound s
    obtain ⟨b, ds₂, state₂, hfb, hb⟩ := (hf a ds₁ ha).sound ⟨state₁, s.draws ++ ds₁⟩
    refine ⟨b, ds₁ ++ ds₂, state₂, ?_, a, ds₁, ds₂, ha, hb, rfl⟩
    show (g s >>= fun x ↦ f x.1 x.2) = _
    rw [hga, ← List.append_assoc]
    exact hfb
  complete hc := by
    rintro b _ ⟨a, ds₁, ds₂, ha, hb, rfl⟩ state log
    obtain ⟨state₁, hfb⟩ := (hf a ds₁ ha).complete hc b ds₂ hb state (log ++ ds₁)
    obtain ⟨state₀, hga⟩ := hg.complete hc a ds₁ ha state₁ log
    refine ⟨state₀, ?_⟩
    show (g ⟨state₀, log⟩ >>= fun x ↦ f x.1 x.2) = _
    rw [hga, ← List.append_assoc]
    exact hfb

/-- Logging a draw yields this draw. -/
theorem yields_note (d : Draw) : Yields c (note d) fun _ ds ↦ ds = [d] where
  sound s := ⟨(), [d], s.state, rfl, rfl⟩
  complete _ a ds := by
    rintro rfl state log
    exact ⟨state, rfl⟩

/-- **A number from a range that is not empty is any number of the range.** This is all that is used
of the chooser. -/
theorem yields_between {low high : ℤ} (h : low ≤ high) :
    Yields c (between c low high) fun k ds ↦ (low ≤ k ∧ k ≤ high) ∧ ds = [] where
  sound s := by
    obtain ⟨k, state, hdraw, hk⟩ := c.draw_mem low high s.state h
    refine ⟨k, [], state, ?_, hk, rfl⟩
    rw [between, hdraw, List.append_nil]
    rfl
  complete hc k ds := by
    rintro ⟨⟨hlow, hhigh⟩, rfl⟩ state log
    obtain ⟨state₀, hdraw⟩ := hc.draw low high k state hlow hhigh
    refine ⟨state₀, ?_⟩
    rw [between, hdraw, List.append_nil]
    rfl

/-- **One of some elements is any of them**, as long as there is one. -/
theorem yields_oneOf {l : List α} (h : l ≠ []) :
    Yields c (oneOf c l) fun a ds ↦ a ∈ l ∧ ds = [] := by
  have hlen : 0 ≤ (l.length : ℤ) - 1 := by
    have := List.length_pos_of_ne_nil h
    omega
  refine ((yields_between hlen).bind (Q := fun k a ds ↦ l[k.toNat]? = some a ∧ ds = [])
    fun k _ hk ↦ ?_).congr fun a ds ↦ ?_
  · obtain ⟨⟨hk, hlt⟩, -⟩ := hk
    have hget : l[k.toNat]? = some l[k.toNat] := List.getElem?_eq_getElem (by omega)
    simp only [hget]
    refine (yields_pure l[k.toNat]).congr fun a ds ↦ ?_
    rw [Option.some.injEq, eq_comm]
  · constructor
    · rintro ⟨k, _, _, ⟨-, rfl⟩, ⟨hget, rfl⟩, rfl⟩
      exact ⟨List.mem_of_getElem? hget, rfl⟩
    · rintro ⟨ha, rfl⟩
      obtain ⟨n, hn⟩ := List.mem_iff_getElem?.1 ha
      have hlt := (List.getElem?_eq_some_iff.1 hn).1
      exact ⟨n, [], [], ⟨by omega, rfl⟩, ⟨hn, rfl⟩, rfl⟩

/-! ### Instructions -/

/-- A load is one of any of the variables. None of them is refused, since they have names. -/
theorem yields_load (h : r.Usable) :
    Yields c (do liftM (Instruction.makeLoad (← oneOf c r.names) .null)) fun i ds ↦
      (∃ x ∈ r.names, i = .load x.plain) ∧ ds = [] := by
  have hmake : ∀ x ∈ r.names, Instruction.makeLoad x .null = .ok (.load x.plain) :=
    fun x hx ↦ if_pos (h.names x hx)
  refine ((yields_oneOf h.names_ne_nil).bind fun x _ hx ↦
    yields_liftM (hmake x hx.1)).congr fun i ds ↦ ?_
  constructor
  · rintro ⟨x, _, _, ⟨hx, rfl⟩, ⟨rfl, rfl⟩, rfl⟩
    exact ⟨⟨x, hx, rfl⟩, rfl⟩
  · rintro ⟨⟨x, hx, rfl⟩, rfl⟩
    exact ⟨x, [], [], ⟨hx, rfl⟩, ⟨rfl, rfl⟩, rfl⟩

/-- A store is one of any of the values in any of the variables. None of them is refused, since the
values are integers. -/
theorem yields_store (h : r.Usable) :
    Yields c (do let x ← oneOf c r.names
                 liftM (Instruction.makeStore x (← oneOf c r.values))) fun i ds ↦
      (∃ x ∈ r.names, ∃ v, .int v ∈ r.values ∧ i = .store x.plain v) ∧ ds = [] := by
  have hmake : ∀ x ∈ r.names, ∀ v, Instruction.makeStore x (.int v) = .ok (.store x.plain v) :=
    fun x hx v ↦ if_pos (h.names x hx)
  refine ((yields_oneOf h.names_ne_nil).bind fun x _ hx ↦ (yields_oneOf h.values_ne_nil).bind
    (Q := fun d i ds ↦ (∃ v, d = .int v ∧ i = Instruction.store x.plain v) ∧ ds = [])
    fun d _ hd ↦ ?_).congr fun i ds ↦ ?_
  · obtain ⟨v, rfl⟩ := h.values d hd.1
    refine (yields_liftM (hmake x hx.1 v)).congr fun i ds ↦ ?_
    simp
  · constructor
    · rintro ⟨x, _, _, ⟨hx, rfl⟩, ⟨_, _, _, ⟨hd, rfl⟩, ⟨⟨v, rfl, rfl⟩, rfl⟩, rfl⟩, rfl⟩
      exact ⟨⟨x, hx, v, hd, rfl⟩, rfl⟩
    · rintro ⟨⟨x, hx, v, hv, rfl⟩, rfl⟩
      exact ⟨x, [], [], ⟨hx, rfl⟩, ⟨.int v, [], [], ⟨hv, rfl⟩, ⟨⟨v, rfl, rfl⟩, rfl⟩, rfl⟩, rfl⟩

/-- **An instruction is any that the recipe offers.** -/
theorem yields_instruction (h : r.Usable) :
    Yields c (instruction c r) fun i ds ↦ r.Offers i ∧ ds = [] := by
  -- the first draw decides between a load and a store
  refine ((yields_between (show (0 : ℤ) ≤ 1 by decide)).bind (Q := fun k i ds ↦
    (if k = 0 then ∃ x ∈ r.names, i = .load x.plain
      else ∃ x ∈ r.names, ∃ v, .int v ∈ r.values ∧ i = .store x.plain v) ∧ ds = [])
    fun k _ _ ↦ ?_).congr fun i ds ↦ ?_
  · by_cases hk : k = 0
    · simp only [if_pos hk]
      exact yields_load h
    · simp only [if_neg hk]
      exact yields_store h
  · constructor
    · rintro ⟨k, _, _, ⟨-, rfl⟩, ⟨hi, rfl⟩, rfl⟩
      refine ⟨?_, rfl⟩
      split at hi
      · obtain ⟨x, hx, hload⟩ := hi
        exact ⟨x, hx, Or.inl hload⟩
      · obtain ⟨x, hx, hstore⟩ := hi
        exact ⟨x, hx, Or.inr hstore⟩
    · rintro ⟨⟨x, hx, hload | hstore⟩, rfl⟩
      · exact ⟨0, [], [], ⟨by decide, rfl⟩, ⟨⟨x, hx, hload⟩, rfl⟩, rfl⟩
      · exact ⟨1, [], [], ⟨by decide, rfl⟩, ⟨⟨x, hx, hstore⟩, rfl⟩, rfl⟩

/-- A number of instructions are any that the recipe offers, so many of them. -/
theorem yields_instructions (h : r.Usable) (n : ℕ) :
    Yields c (instructions c r n) fun th ds ↦
      (th.length = n ∧ ∀ i ∈ th, r.Offers i) ∧ ds = [] := by
  induction n with
  | zero =>
    refine (yields_pure []).congr fun th ds ↦ ?_
    constructor
    · rintro ⟨rfl, rfl⟩
      exact ⟨⟨rfl, fun i hi ↦ absurd hi List.not_mem_nil⟩, rfl⟩
    · rintro ⟨⟨hlen, -⟩, rfl⟩
      exact ⟨List.length_eq_zero_iff.1 hlen, rfl⟩
  | succ n ih =>
    refine ((yields_instruction h).bind fun i _ _ ↦ ih.bind fun th _ _ ↦
      yields_pure (i :: th)).congr fun th ds ↦ ?_
    constructor
    · rintro ⟨i, _, _, ⟨hi, rfl⟩, ⟨th, _, _, ⟨⟨rfl, hth⟩, rfl⟩, ⟨rfl, rfl⟩, rfl⟩, rfl⟩
      exact ⟨⟨rfl, List.forall_mem_cons.2 ⟨hi, hth⟩⟩, rfl⟩
    · rintro ⟨⟨hlen, hall⟩, rfl⟩
      obtain ⟨i, th, rfl⟩ := List.exists_cons_of_length_eq_add_one hlen
      obtain ⟨hi, hth⟩ := List.forall_mem_cons.1 hall
      exact ⟨i, [], [], ⟨hi, rfl⟩, ⟨th, [], [], ⟨⟨Nat.succ.inj hlen, hth⟩, rfl⟩, ⟨rfl, rfl⟩, rfl⟩,
        rfl⟩

/-! ### Threads -/

/-- The first thread has at least one instruction, and no thread has to have more. -/
theorem least_bounds (isFirst : Bool) :
    (0 : ℤ) ≤ (if isFirst then 1 else 0) ∧ (if isFirst then 1 else 0) ≤ (1 : ℤ) := by
  cases isFirst with
  | false => decide
  | true => decide

/-- **A thread has any length of the range that is asked for**, and its instructions are any that
the recipe offers. -/
theorem yields_thread (h : r.Usable) {low high : ℤ} (hlow : low = if isFirst then 1 else 0)
    (hhigh : high = max low (min r.maxInstructions budget)) :
    Yields c (thread c r isFirst budget) fun th ds ↦
      ((low ≤ th.length ∧ th.length ≤ high) ∧ ∀ i ∈ th, r.Offers i) ∧ ds = [.length low high] := by
  have hle : low ≤ high := by omega
  have hnonneg : 0 ≤ low := hlow ▸ (least_bounds isFirst).1
  have hthread : thread c r isFirst budget = (do
      note (.length low high)
      instructions c r (← between c low high).toNat) := by rw [hhigh, hlow]; rfl
  rw [hthread]
  refine ((yields_note _).bind fun _ _ _ ↦ (yields_between hle).bind fun n _ _ ↦
    yields_instructions h n.toNat).congr fun th ds ↦ ?_
  constructor
  · rintro ⟨_, _, _, rfl, ⟨n, _, _, ⟨hn, rfl⟩, ⟨⟨hlen, hth⟩, rfl⟩, rfl⟩, rfl⟩
    exact ⟨⟨by omega, hth⟩, rfl⟩
  · rintro ⟨⟨hlen, hth⟩, rfl⟩
    exact ⟨(), _, _, rfl, ⟨th.length, [], [], ⟨hlen, rfl⟩, ⟨⟨by omega, hth⟩, rfl⟩, rfl⟩, rfl⟩

/-- **The lengths of the threads are any within the ranges that are asked for.** -/
theorem yields_threads (h : r.Usable) (isFirst : Bool) (budget : ℤ) (n : ℕ) :
    Yields c (threads c r isFirst budget n) fun ths ds ↦
      ths.length = n ∧ r.Lengths isFirst budget ths ds := by
  -- the budget of the other threads is what the first one leaves
  induction n generalizing isFirst budget with
  | zero =>
    refine (yields_pure []).congr fun ths ds ↦ ?_
    constructor
    · rintro ⟨rfl, rfl⟩
      exact ⟨rfl, .nil⟩
    · rintro ⟨hlen, hths⟩
      obtain rfl := List.length_eq_zero_iff.1 hlen
      cases hths
      exact ⟨rfl, rfl⟩
  | succ n ih =>
    refine ((yields_thread h rfl rfl).bind fun th _ _ ↦ (ih false (budget - th.length)).bind
      fun ths _ _ ↦ yields_pure (th :: ths)).congr fun ths ds ↦ ?_
    constructor
    · rintro ⟨th, _, _, ⟨⟨⟨hle, hge⟩, hth⟩, rfl⟩, ⟨ths, _, _, ⟨rfl, hths⟩, ⟨rfl, rfl⟩, rfl⟩, rfl⟩
      rw [List.append_nil]
      exact ⟨rfl, .cons rfl rfl hle hge hth hths⟩
    · rintro ⟨hlen, hths⟩
      cases hths with
      | nil => cases hlen
      | @cons _ _ low high th ths ds hlow hhigh hle hge hth hrest =>
        subst hlow
        subst hhigh
        exact ⟨th, _, ds, ⟨⟨⟨hle, hge⟩, hth⟩, rfl⟩,
          ⟨ths, ds, [], ⟨Nat.succ.inj hlen, hrest⟩, ⟨rfl, rfl⟩, (List.append_nil ds).symm⟩, rfl⟩

namespace Recipe.Lengths

variable {ths : List (List Instruction)} {ds : List Draw}

/-- No thread is longer than allowed. -/
theorem length_le (h : r.Lengths isFirst budget ths ds) (hmax : 1 ≤ r.maxInstructions) :
    ∀ th ∈ ths, th.length ≤ r.maxInstructions := by
  induction h with
  | nil => simp
  | @cons isFirst _ _ _ _ _ _ hlow hhigh _ hge _ _ ih =>
    have hone := (least_bounds isFirst).2
    exact List.forall_mem_cons.2 ⟨by omega, ih⟩

/-- **The threads do not exceed the budget**, except that the first one has an instruction in any
case. -/
theorem total_le (h : r.Lengths isFirst budget ths ds) :
    (ths.flatten.length : ℤ) ≤ max (if isFirst then 1 else 0) budget := by
  induction h with
  | @nil isFirst budget =>
    have hzero := (least_bounds isFirst).1
    simp only [List.flatten_nil, List.length_nil, Nat.cast_zero]
    omega
  | cons hlow hhigh _ hge _ _ ih =>
    -- the threads behind this one get what it leaves, and nothing if it leaves less than that
    rw [if_neg Bool.false_ne_true] at ih
    rw [List.flatten_cons, List.length_append, Nat.cast_add, ← hlow]
    omega

/-- **No range is empty**, and no length is negative. -/
theorem range_le (h : r.Lengths isFirst budget ths ds) :
    ∀ d ∈ ds, 0 ≤ d.range.1 ∧ d.range.1 ≤ d.range.2 := by
  induction h with
  | nil => simp
  | @cons isFirst _ low _ _ _ _ hlow hhigh _ _ _ _ ih =>
    have hzero : 0 ≤ low := hlow ▸ (least_bounds isFirst).1
    refine List.forall_mem_cons.2 ⟨⟨hzero, ?_⟩, ih⟩
    rw [Draw.range, hhigh]
    exact le_max_left _ _

/-- The first thread has an instruction. -/
theorem exists_first (h : r.Lengths true budget ths ds) (hne : ths ≠ []) :
    ∃ i th rest, ths = (i :: th) :: rest := by
  cases h with
  | nil => exact absurd rfl hne
  | @cons _ _ _ _ th rest _ hlow _ hle _ _ _ =>
    cases th with
    | nil =>
      rw [hlow, if_pos rfl] at hle
      exact absurd hle (by decide)
    | cons i th => exact ⟨i, th, rest, rfl⟩

end Recipe.Lengths

/-! ### Programs -/

/-- **A program is any that comes about if every number is drawn from its range.** -/
theorem yields_program (h : r.Usable) : Yields c (program c r) r.Draws := by
  -- there is a first thread, and it has an instruction, so that the program is not empty
  have hne : ∀ {n : ℤ} {ths : List (List Instruction)}, 1 ≤ n → ths.length = n.toNat →
      ths ≠ [] := by
    rintro n _ hn hlen rfl
    rw [List.length_nil] at hlen
    omega
  refine ((yields_note _).bind fun _ _ _ ↦ (yields_between h.maxThreads).bind fun n _ hn ↦
    (yields_threads h true _ n.toNat).bind (Q := fun ths (p : Program) ds ↦
      p.threads = ths ∧ ds = [])
      fun ths _ hths ↦ ?_).congr fun p ds ↦ ?_
  · obtain ⟨i, th, rest, rfl⟩ := hths.2.exists_first (hne hn.1.1 hths.1)
    have hflat : ((i :: th) :: rest).flatten ≠ [] := List.cons_ne_nil _ _
    have hprogram : Program.ofThreads ((i :: th) :: rest) = .ok ⟨(i :: th) :: rest, hflat⟩ :=
      Program.ofThreads_eq_ok_iff.2 rfl
    refine (yields_liftM hprogram).congr fun p ds ↦ and_congr_left fun _ ↦ ?_
    rw [← Program.ofThreads_eq_ok_iff, hprogram, Except.ok.injEq, eq_comm]
  · constructor
    · rintro ⟨_, _, _, rfl, ⟨n, _, _, ⟨hn, rfl⟩, ⟨_, ds, _, ⟨hlen, hths⟩, ⟨rfl, rfl⟩, rfl⟩, rfl⟩,
        rfl⟩
      have hcount : (p.threads.length : ℤ) = n := by omega
      rw [List.nil_append, List.append_nil]
      refine ⟨⟨by omega, by omega⟩, ds, rfl, ?_⟩
      rwa [hcount]
    · rintro ⟨⟨hone, hmax⟩, ds, rfl, hths⟩
      exact ⟨(), _, ds, rfl, ⟨p.threads.length, [], ds, ⟨⟨by omega, hmax⟩, rfl⟩, ⟨p.threads, ds, [],
        ⟨by omega, hths⟩, ⟨rfl, rfl⟩, (List.append_nil ds).symm⟩, rfl⟩, rfl⟩

namespace Recipe.Draws

variable {p : Program} {draws : List Draw}

/-- **What is drawn from the ranges keeps the limits.** -/
theorem keeps (h : r.Draws p draws) (hr : r.Usable) : r.Keeps p := by
  obtain ⟨hcount, ds, -, hths⟩ := h
  refine ⟨hcount, ?_, hths.length_le hr.maxInstructions, fun n hn ↦ ?_⟩
  · exact hths.exists_first (List.ne_nil_of_length_pos (by omega))
  · obtain hn : r.maxTotal = some n := hn
    have htotal := hths.total_le
    rwa [hn, Option.getD_some, if_pos rfl] at htotal

/-- **No range is empty**, that of the number of threads included. -/
theorem range_le (h : r.Draws p draws) (hr : r.Usable) :
    ∀ d ∈ draws, 0 ≤ d.range.1 ∧ d.range.1 ≤ d.range.2 := by
  obtain ⟨-, ds, rfl, hths⟩ := h
  exact List.forall_mem_cons.2 ⟨⟨by simp [Draw.range], hr.maxThreads⟩, hths.range_le⟩

end Recipe.Draws

theorem generate_eq {state state' : σ} {p : Program} {ds : List Draw}
    (h : program c r ⟨state, []⟩ = .ok (p, ⟨state', ds⟩)) : generate c r state = .ok (p, ds) := by
  rw [generate, StateT.run, h]
  rfl

/-- **Generated programs keep the limits of their recipe.** Whoever chooses the numbers, as long as
they are from the ranges that are asked for, a program is made, and it is one that comes about if
every number is drawn from its range. If the choice is free, all these come about. They keep all
limits, also if the budget is used up or was never there, and no range is empty. -/
theorem generate_keeps (c : Chooser σ) (r : Recipe) (h : r.Usable) :
    (∀ state, ∃ p draws, generate c r state = .ok (p, draws) ∧ r.Draws p draws) ∧
    (c.Free → ∀ p draws, (∃ state, generate c r state = .ok (p, draws)) ↔ r.Draws p draws) ∧
    ∀ p draws, r.Draws p draws →
      r.Keeps p ∧ ∀ d ∈ draws, 0 ≤ d.range.1 ∧ d.range.1 ≤ d.range.2 := by
  have hsound : ∀ state, ∃ p draws, generate c r state = .ok (p, draws) ∧ r.Draws p draws := by
    intro state
    obtain ⟨p, draws, rest, hprogram, hdraws⟩ := (yields_program h).sound ⟨state, []⟩
    exact ⟨p, draws, generate_eq hprogram, hdraws⟩
  refine ⟨hsound, fun hfree p draws ↦ ⟨?_, fun hdraws ↦ ?_⟩, fun p draws hdraws ↦
    ⟨hdraws.keeps h, hdraws.range_le h⟩⟩
  · rintro ⟨state, hgenerate⟩
    obtain ⟨p', draws', hgenerate', hdraws⟩ := hsound state
    rw [hgenerate, Except.ok.injEq, Prod.mk.injEq] at hgenerate'
    obtain ⟨rfl, rfl⟩ := hgenerate'
    exact hdraws
  · obtain ⟨last⟩ := hfree.nonempty
    obtain ⟨state, hprogram⟩ := (yields_program h).complete hfree p draws hdraws last []
    exact ⟨state, generate_eq hprogram⟩

/-- A recipe whose budget is overdrawn from the start. -/
def overdrawn : Recipe := { maxTotal := some (-3) }

/-- Three threads are asked for, and there is one instruction in all. -/
theorem overdrawn_keeps :
    overdrawn.Usable ∧ Chooser.picks.Free ∧
      ∃ p draws, generate .picks overdrawn [2, 7, 5] = .ok (p, draws) ∧
        overdrawn.Draws p draws ∧ p.threads.length ≤ 3 ∧ p.total = 1 ∧
        ∀ d ∈ draws, d.range.1 ≤ d.range.2 := by
  have h : overdrawn.Usable :=
    ⟨by decide, by decide, by simp [overdrawn], by simp [overdrawn, Datum.isTrue],
      by simp [overdrawn], by simp [overdrawn]⟩
  obtain ⟨hmade, hdraws, hkeeps⟩ := generate_keeps .picks overdrawn h
  obtain ⟨p, draws, hgenerate, -⟩ := hmade [2, 7, 5]
  have hdrawn := (hdraws Chooser.free_picks p draws).1 ⟨_, hgenerate⟩
  obtain ⟨hp, hranges⟩ := hkeeps p draws hdrawn
  have hthreads : (p.threads.length : ℤ) ≤ 3 := hp.threads.2
  have htotal : (p.total : ℤ) ≤ max 1 (-3) := hp.total (-3) rfl
  have hpos := p.total_pos
  exact ⟨h, Chooser.free_picks, p, draws, hgenerate, hdrawn, by omega, by omega,
    fun d hd ↦ (hranges d hd).2⟩

end Litmus.Generator

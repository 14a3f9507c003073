import Litmus.Numeral
import Mathlib.Data.List.Induction
import Mathlib.Data.Nat.Basic
import Mathlib.Tactic.IntervalCases

/-!
# Which integer a numeral stands for

The grammar of numerals, apart from how they are read: one or more decimal digits of any script, the
most significant first (`Numeral.Digits`), behind an optional sign (`Numeral.Spells`). Reading
accepts exactly these texts, as long as they do not have too many digits (`Numeral.read_of_spells`,
`Numeral.read_of_not_spells`).

Writing produces such a text (`Numeral.spells_write`), and no numeral of an integer has fewer digits
(`Numeral.Spells.digitCount_le`). Different integers are written differently
(`Numeral.write_injective`).
-/

namespace Litmus.Numeral

variable {cs : List Char} {c : Char} {d n k : ℕ} {v : ℤ}

/-! ### The grammar -/

/-- **The digits `cs` make up the number `n`.** They may be of different scripts. -/
inductive Digits : (cs : List Char) → (n : ℕ) → Prop
  /-- No digits make up zero. -/
  | nil : Digits [] 0
  /-- One more digit at the end. -/
  | snoc {cs : List Char} {c : Char} {n d : ℕ} (h : Digits cs n)
    (hc : Text.digitValue? c = some d) : Digits (cs ++ [c]) (10 * n + d)

/-- **The text is a numeral of the integer `v`, with `k` digits**: at least one digit, behind an
optional sign. -/
inductive Spells : (cs : List Char) → (k : ℕ) → (v : ℤ) → Prop
  /-- Digits alone. -/
  | unsigned {cs : List Char} {n : ℕ} (h : Digits cs n) (hne : cs ≠ []) : Spells cs cs.length n
  /-- Digits behind a plus sign. -/
  | plus {cs : List Char} {n : ℕ} (h : Digits cs n) (hne : cs ≠ []) :
    Spells ('+' :: cs) cs.length n
  /-- Digits behind a minus sign. -/
  | minus {cs : List Char} {n : ℕ} (h : Digits cs n) (hne : cs ≠ []) :
    Spells ('-' :: cs) cs.length (-n)

theorem lt_ten_of_digitValue? (h : Text.digitValue? c = some d) : d < 10 := by
  obtain ⟨z, hz, rfl⟩ := Option.map_eq_some_iff.1 h
  have hrange := List.find?_some hz
  simp only [Bool.and_eq_true, decide_eq_true_eq] at hrange
  omega

/-- So many digits denote less than that power of ten. -/
theorem Digits.lt_pow (h : Digits cs n) : n < 10 ^ cs.length := by
  induction h with
  | nil => exact Nat.one_pos
  | snoc _ hc ih =>
    have hd := lt_ten_of_digitValue? hc
    rw [List.length_append, List.length_singleton, Nat.pow_succ]
    omega

/-! ### Reading -/

/-- A digit at the end is worth itself, and everything before it ten times as much. -/
theorem ofDigits_snoc (ds : List ℕ) (d : ℕ) : ofDigits (ds ++ [d]) = 10 * ofDigits ds + d := by
  rw [ofDigits, List.foldl_append]
  rfl

theorem mapM_digitValue?_snoc {ds : List ℕ} :
    (cs ++ [c]).mapM Text.digitValue? = some ds ↔ ∃ ds' d, cs.mapM Text.digitValue? = some ds' ∧
      Text.digitValue? c = some d ∧ ds = ds' ++ [d] := by
  rw [List.mapM_append]
  cases cs.mapM Text.digitValue? with
  | none => simp
  | some ds' =>
    cases hc : Text.digitValue? c with
    | none => simp [hc]
    | some d => simp [hc, eq_comm]

/-- **Digits are read one after the other.** -/
theorem digits_iff : Digits cs n ↔ ∃ ds, cs.mapM Text.digitValue? = some ds ∧ ofDigits ds = n := by
  constructor
  · intro h
    induction h with
    | nil => exact ⟨[], rfl, rfl⟩
    | @snoc cs c n d _ hc ih =>
      obtain ⟨ds, hds, rfl⟩ := ih
      exact ⟨ds ++ [d], mapM_digitValue?_snoc.2 ⟨ds, d, hds, hc, rfl⟩, ofDigits_snoc ds d⟩
  · induction cs using List.reverseRecOn generalizing n with
    | nil =>
      rintro ⟨ds, hds, rfl⟩
      obtain rfl := Option.some.inj hds
      exact .nil
    | append_singleton cs c ih =>
      rintro ⟨ds, hds, rfl⟩
      obtain ⟨ds', d, hds', hc, rfl⟩ := mapM_digitValue?_snoc.1 hds
      rw [ofDigits_snoc]
      exact (ih ⟨ds', hds', rfl⟩).snoc hc

theorem length_eq_of_mapM {α β : Type} {f : α → Option β} {l : List α} {l' : List β}
    (h : l.mapM f = some l') : l'.length = l.length := by
  induction l generalizing l' with
  | nil =>
    obtain rfl := Option.some.inj h
    rfl
  | cons a l ih =>
    rw [List.mapM_cons] at h
    obtain ⟨b, -, h⟩ := Option.bind_eq_some_iff.1 h
    obtain ⟨k, hk, h⟩ := Option.bind_eq_some_iff.1 h
    obtain rfl := Option.some.inj h
    rw [List.length_cons, List.length_cons, ih hk]

/-- A sign is no digit. -/
theorem Digits.splitSign_eq (h : Digits cs n) : splitSign cs = (false, cs) := by
  cases cs with
  | nil => rfl
  | cons c cs =>
    obtain ⟨ds, hds, -⟩ := digits_iff.1 h
    rw [List.mapM_cons] at hds
    obtain ⟨d, hd, -⟩ := Option.bind_eq_some_iff.1 hds
    have hsome : (Text.digitValue? c).isSome = true := by rw [hd, Option.isSome_some]
    have hminus : c ≠ '-' := by
      rintro rfl
      exact absurd hsome (by decide)
    have hplus : c ≠ '+' := by
      rintro rfl
      exact absurd hsome (by decide)
    rw [splitSign, if_neg hminus, if_neg hplus]

/-- The integer with the given sign and digits. -/
def signed (negative : Bool) (n : ℕ) : ℤ := if negative then -n else n

/-- A numeral is a sign, if any, and at least one digit. The reader splits it in the same way. -/
theorem spells_iff : Spells cs k v ↔ ∃ ds, (splitSign cs).2.mapM Text.digitValue? = some ds ∧
    ds ≠ [] ∧ ds.length = k ∧ signed (splitSign cs).1 (ofDigits ds) = v := by
  have hread {cs : List Char} {n : ℕ} (h : Digits cs n) (hne : cs ≠ []) : ∃ ds,
      cs.mapM Text.digitValue? = some ds ∧ ds ≠ [] ∧ ds.length = cs.length ∧ ofDigits ds = n := by
    obtain ⟨ds, hds, hn⟩ := digits_iff.1 h
    have hlen := length_eq_of_mapM hds
    refine ⟨ds, hds, ?_, hlen, hn⟩
    rwa [ne_eq, ← List.length_eq_zero_iff, hlen, List.length_eq_zero_iff]
  constructor
  · intro h
    cases h with
    | unsigned h hne =>
      obtain ⟨ds, hds, hne', hlen, rfl⟩ := hread h hne
      rw [h.splitSign_eq]
      exact ⟨ds, hds, hne', hlen, rfl⟩
    | plus h hne =>
      obtain ⟨ds, hds, hne', hlen, rfl⟩ := hread h hne
      exact ⟨ds, hds, hne', hlen, rfl⟩
    | minus h hne =>
      obtain ⟨ds, hds, hne', hlen, rfl⟩ := hread h hne
      exact ⟨ds, hds, hne', hlen, rfl⟩
  · rintro ⟨ds, hds, hne, rfl, rfl⟩
    have hdigits : Digits (splitSign cs).2 (ofDigits ds) := digits_iff.2 ⟨ds, hds, rfl⟩
    have hlen := length_eq_of_mapM hds
    have hne' : (splitSign cs).2 ≠ [] := by
      rwa [ne_eq, ← List.length_eq_zero_iff, ← hlen, List.length_eq_zero_iff]
    rw [hlen]
    cases cs with
    | nil => exact absurd rfl hne'
    | cons c cs =>
      by_cases hminus : c = '-'
      · subst hminus
        exact .minus hdigits hne'
      · by_cases hplus : c = '+'
        · subst hplus
          exact .plus hdigits hne'
        · rw [splitSign, if_neg hminus, if_neg hplus] at hdigits hne' ⊢
          exact .unsigned hdigits hne'

/-- **A numeral is read as its integer, unless it has too many digits.** -/
theorem read_of_spells (h : Spells cs k v) :
    read cs = if k ≤ limit then .value v else .tooLong k := by
  obtain ⟨ds, hds, hne, rfl, rfl⟩ := spells_iff.1 h
  cases ds with
  | nil => exact absurd rfl hne
  | cons d ds =>
    rw [read, hds]
    rfl

/-- Nothing else is read as an integer. -/
theorem read_of_not_spells (h : ∀ k v, ¬Spells cs k v) : read cs = .malformed := by
  rw [read]
  cases hds : (splitSign cs).2.mapM Text.digitValue? with
  | none => rfl
  | some ds =>
    cases ds with
    | nil => rfl
    | cons d ds => exact absurd (spells_iff.2 ⟨d :: ds, hds, by simp, rfl, rfl⟩) (h _ _)

/-- A text is a numeral in one way only. -/
theorem Spells.unique {k' : ℕ} {v' : ℤ} (h : Spells cs k v) (h' : Spells cs k' v') :
    k = k' ∧ v = v' := by
  obtain ⟨ds, hds, -, rfl, rfl⟩ := spells_iff.1 h
  obtain ⟨ds', hds', -, rfl, rfl⟩ := spells_iff.1 h'
  obtain rfl : ds = ds' := Option.some.inj (hds.symm.trans hds')
  exact ⟨rfl, rfl⟩

/-- No numeral is empty. -/
theorem Spells.ne_nil (h : Spells cs k v) : cs ≠ [] := by
  cases h with
  | unsigned _ hne => exact hne
  | plus _ _ => exact List.cons_ne_nil _ _
  | minus _ _ => exact List.cons_ne_nil _ _

/-! ### Writing -/

/-- A number that is not negative is written without a sign. -/
theorem toList_write_natCast (n : ℕ) : (write n).toList = Nat.toDigits 10 n := Nat.toList_repr

theorem toList_write_negSucc (n : ℕ) :
    (write (.negSucc n)).toList = '-' :: Nat.toDigits 10 (n + 1) := by
  rw [write, String.toList_append, Nat.toList_repr]
  rfl

/-- Only signs and ASCII digits are written. -/
theorem eq_minus_or_isDigit_of_mem_write (h : c ∈ (write v).toList) :
    c = '-' ∨ c.isDigit = true := by
  cases v with
  | ofNat n =>
    rw [Int.ofNat_eq_natCast, toList_write_natCast] at h
    exact Or.inr (Nat.isDigit_of_mem_toDigits (by decide) (by decide) h)
  | negSucc n =>
    rw [toList_write_negSucc] at h
    refine (List.mem_cons.1 h).imp_right fun h ↦ ?_
    exact Nat.isDigit_of_mem_toDigits (by decide) (by decide) h

/-- Nothing but a minus and the ASCII digits occurs in what is written. -/
theorem not_mem_write (hminus : c ≠ '-') (hdigit : c.isDigit = false) (v : ℤ) :
    c ∉ (write v).toList := by
  intro h
  rcases eq_minus_or_isDigit_of_mem_write h with rfl | h
  · exact hminus rfl
  · rw [hdigit] at h
    cases h

theorem digitValue?_digitChar (h : d < 10) : Text.digitValue? d.digitChar = some d := by
  interval_cases d <;> rfl

/-- **The decimal digits of a number make up the number.** -/
theorem digits_toDigits (n : ℕ) : Digits (Nat.toDigits 10 n) n := by
  induction n using Nat.strongRecOn with
  | ind n ih =>
    by_cases hn : n < 10
    · have hdigit := Digits.nil.snoc (digitValue?_digitChar hn)
      rw [Nat.mul_zero, Nat.zero_add] at hdigit
      rwa [Nat.toDigits_of_lt_base hn]
    · have hlast := (ih (n / 10) (by omega)).snoc (digitValue?_digitChar (d := n % 10) (by omega))
      rw [Nat.div_add_mod] at hlast
      rwa [Nat.toDigits_of_base_le (by decide) (by omega)]

/-- **An integer is written as a numeral of it.** -/
theorem spells_write (v : ℤ) : Spells (write v).toList (digitCount v) v := by
  cases v with
  | ofNat n =>
    rw [Int.ofNat_eq_natCast, toList_write_natCast]
    exact .unsigned (digits_toDigits n) Nat.toDigits_ne_nil
  | negSucc n =>
    rw [toList_write_negSucc]
    exact .minus (digits_toDigits (n + 1)) Nat.toDigits_ne_nil

/-- **An integer is told by its numeral.** -/
theorem write_injective : Function.Injective write := by
  intro v w h
  have hw := spells_write w
  rw [← h] at hw
  exact ((spells_write v).unique hw).2

/-- The canonical digits of a number are the shortest: leading zeros only add to them. -/
theorem Digits.length_toDigits_le (h : Digits cs n) (hne : cs ≠ []) :
    (Nat.toDigits 10 n).length ≤ cs.length :=
  (Nat.length_toDigits_le_iff (by decide) (List.length_pos_iff.2 hne)).2 h.lt_pow

/-- **No numeral of an integer has fewer digits than the one that is written.** -/
theorem Spells.digitCount_le (h : Spells cs k v) : digitCount v ≤ k := by
  cases h with
  | unsigned h hne => exact h.length_toDigits_le hne
  | plus h hne => exact h.length_toDigits_le hne
  | minus h hne =>
    rw [digitCount, Int.natAbs_neg]
    exact h.length_toDigits_le hne

end Litmus.Numeral

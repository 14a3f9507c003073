import Litmus.CommandLine.Arguments
import Mathlib.Data.Int.Notation
import Mathlib.Tactic.Common

/-!
# What the arguments mean

Arguments are accepted if one can take them one after the other and nothing is left over
(`CommandLine.take_eq_run_iff`), where `CommandLine.Takes` says what one argument does.

What comes of it can be read off the sorted arguments (`CommandLine.Takes.means`): the one operand
that is no option's value names the program, an option without a value holds if it is given
anywhere, and of the values of a limit the last one counts.

Arguments that ask for statistics and for nothing else can be left out of what is accepted, and
nothing else changes (`CommandLine.Takes.quiet`). So two lists that differ only in them set the same
options, if both are accepted (`CommandLine.parse_congr_quiet`). One of them may be refused: such an
argument can separate an option from its value.
-/

namespace Litmus.CommandLine

variable {o o' o₁ o₁' : Options} {awaiting : Option Flag} {f g : Flag} {fs : List Flag}
  {l : List (String × Kind)} {left : List String} {value : String}

/-! ### Setting options -/

/-- Whether an option that takes no value holds. -/
def Options.has (o : Options) : Flag → Bool
  | .witnesses => o.witnesses
  | .readAround => o.readAround
  | .verbose => o.verbose
  | _ => false

/-- The limit that an option sets. -/
def Options.limit (o : Options) (f : Flag) : Option ℤ :=
  if f = .maxThreads then o.maxThreads else o.maxInstructions

/-- The same options without the request for statistics. -/
def Options.quiet (o : Options) : Options := { o with verbose := false }

/-- Setting a limit changes that limit and no other. -/
theorem Options.limit_setLimit (hf : f.takesValue = true) (hg : g.takesValue = true)
    (o : Options) (v : Option ℤ) : (o.setLimit f v).limit g = if f = g then v else o.limit g := by
  cases f <;> cases hf <;> cases g <;> cases hg <;> rfl

/-- Setting a limit changes no flag. -/
theorem Options.has_setLimit (o : Options) (f g : Flag) (v : Option ℤ) :
    (o.setLimit f v).has g = o.has g := by
  rw [setLimit]
  split <;> rfl

theorem Options.program_setLimit (o : Options) (f : Flag) (v : Option ℤ) :
    (o.setLimit f v).program = o.program := by
  rw [setLimit]
  split <;> rfl

theorem Options.quiet_setLimit (o : Options) (f : Flag) (v : Option ℤ) :
    (o.setLimit f v).quiet = o.quiet.setLimit f v := by
  rw [setLimit, setLimit]
  split <;> rfl

/-- A value that stands by itself has to be an integer. -/
theorem setValue_eq_ok_iff : setValue o f value = .ok o' ↔
    (Numeral.readPadded value.toList).isSome = true ∧
      o' = o.setLimit f (Numeral.readPadded value.toList) := by
  rw [setValue]
  cases Numeral.readPadded value.toList with
  | none => simp
  | some v => simp [eq_comm]

/-- An attached value has to be an integer, or it is the mark for the end of all options, which
leaves the limit without a value. -/
theorem setAttached_eq_ok_iff : setAttached o f value = .ok o' ↔
    (value = "--" ∨ (Numeral.readPadded value.toList).isSome = true) ∧
      o' = o.setLimit f (Numeral.readPadded value.toList) := by
  rw [setAttached]
  by_cases hdashes : value = "--"
  · have hread : Numeral.readPadded "--".toList = none := by decide
    rw [if_pos hdashes, hdashes, hread]
    simp [eq_comm]
  · rw [if_neg hdashes, setValue_eq_ok_iff]
    simp [hdashes]

/-- What setting options without a value does, unless they ask for help. -/
theorem setAll_eq_run (h : setAll o fs = .run o') :
    (∀ g, g.takesValue = false → o'.has g = (o.has g || fs.contains g)) ∧
      o'.program = o.program ∧ ∀ g, o'.limit g = o.limit g := by
  induction fs generalizing o with
  | nil =>
    obtain rfl := Request.run.inj h
    simp
  | cons f fs ih =>
    cases f <;> simp only [setAll] at h
    case help => cases h
    all_goals
      obtain ⟨hhas, hprogram, hlimit⟩ := ih h
      refine ⟨fun g hg ↦ ?_, hprogram, hlimit⟩
      rw [hhas g hg]
      cases g <;> cases hg <;> simp [Options.has]

/-- Setting options does the same whether or not statistics were asked for. -/
theorem quiet_setAll (h : setAll o fs = .run o') (hq : o₁.quiet = o.quiet) :
    ∃ o₁', setAll o₁ fs = .run o₁' ∧ o₁'.quiet = o'.quiet := by
  induction fs generalizing o o₁ with
  | nil =>
    obtain rfl := Request.run.inj h
    exact ⟨o₁, rfl, hq⟩
  | cons f fs ih =>
    obtain ⟨program, witnesses, readAround, maxThreads, maxInstructions, verbose⟩ := o
    obtain ⟨program', witnesses', readAround', maxThreads', maxInstructions', verbose'⟩ := o₁
    obtain ⟨rfl, rfl, rfl, rfl, rfl, -⟩ := Options.mk.inj hq
    cases f with
    | help => cases h
    | witnesses => exact ih h rfl
    | readAround => exact ih h rfl
    | maxThreads => exact ih h rfl
    | maxInstructions => exact ih h rfl
    | verbose => exact ih h rfl

/-- Flags that only ask for statistics change nothing else. -/
theorem quiet_of_setAll (h : setAll o fs = .run o') (hfs : ∀ f ∈ fs, f = .verbose) :
    o'.quiet = o.quiet := by
  induction fs generalizing o with
  | nil =>
    obtain rfl := Request.run.inj h
    rfl
  | cons f fs ih =>
    obtain ⟨rfl, hverbose⟩ := List.forall_mem_cons.1 hfs
    have hrest : o'.quiet = { o with verbose := true }.quiet := ih h hverbose
    exact hrest

/-! ### Taking the arguments -/

/-- **The sorted arguments `l` turn the options `o` into `o'`.** While `awaiting` an option's value,
the next argument is that value. -/
inductive Takes : (awaiting : Option Flag) → (o : Options) → List (String × Kind) →
    (o' : Options) → Prop
  /-- There are no arguments. -/
  | done {o : Options} : Takes none o [] o
  /-- The value of the option before it. -/
  | value {f : Flag} {value : String} {o o₁ o' : Options} {rest : List (String × Kind)}
    (hset : setValue o f value = .ok o₁) (h : Takes none o₁ rest o') :
    Takes (some f) o ((value, .operand) :: rest) o'
  /-- An option that takes the next argument for its value. -/
  | awaits {f : Flag} {a : String} {long : Bool} {o o' : Options} {rest : List (String × Kind)}
    (hf : f.takesValue = true) (h : Takes (some f) o rest o') :
    Takes none o ((a, .option f long none) :: rest) o'
  /-- An option with its value attached. -/
  | attached {f : Flag} {a : String} {long : Bool} {text : List Char} {o o₁ o' : Options}
    {rest : List (String × Kind)} (hf : f.takesValue = true)
    (hset : setAttached o f (String.ofList text) = .ok o₁) (h : Takes none o₁ rest o') :
    Takes none o ((a, .option f long (some text)) :: rest) o'
  /-- Options without values. -/
  | flags {f : Flag} {a : String} {long : Bool} {text : Option (List Char)} {fs : List Flag}
    {o o₁ o' : Options} {rest : List (String × Kind)} (hf : f.takesValue = false)
    (hflags : flagsOf f long text = .ok fs) (hset : setAll o fs = .run o₁)
    (h : Takes none o₁ rest o') : Takes none o ((a, .option f long text) :: rest) o'
  /-- The operand that names the program, with the end of all options behind it. -/
  | lastOperand {a dashes : String} {o o' : Options} {rest : List (String × Kind)}
    (hp : o.program = none) (h : Takes none { o with program := some a } rest o') :
    Takes none o ((a, .operand) :: (dashes, .endOfOptions) :: rest) o'
  /-- The operand that names the program. -/
  | operand {a : String} {o o' : Options} {rest : List (String × Kind)} (hp : o.program = none)
    (hrest : ∀ dashes rest', rest ≠ (dashes, .endOfOptions) :: rest')
    (h : Takes none { o with program := some a } rest o') : Takes none o ((a, .operand) :: rest) o'
  /-- The end of all options before the program is named. -/
  | endOfOptions {dashes : String} {o o' : Options} {rest : List (String × Kind)}
    (hp : o.program = none) (h : Takes none o rest o') :
    Takes none o ((dashes, .endOfOptions) :: rest) o'

/-- An argument that is left over stays left over. -/
theorem takes_of_take (h : take o left awaiting l = .ok (.run o')) :
    left = [] ∧ Takes awaiting o l o' := by
  fun_induction take o left awaiting l with
  | case1 => cases h
  | case2 o left f value rest o₁ hset ih =>
    obtain ⟨hleft, htakes⟩ := ih h
    exact ⟨hleft, .value hset htakes⟩
  | case3 => cases h
  | case4 o left hleft =>
    obtain rfl := Request.run.inj (Except.ok.inj h)
    exact ⟨List.isEmpty_iff.1 hleft, .done⟩
  | case5 => cases h
  -- an argument that is left over stays left over, so it is not accepted in the end
  | case6 o left a rest ih => exact absurd (ih h).1 (by simp)
  | case7 o left a dashes rest hp ih =>
    obtain ⟨hleft, htakes⟩ := ih h
    exact ⟨hleft, .lastOperand hp htakes⟩
  | case8 o left a dashes rest b hp ih => exact absurd (ih h).1 (by simp)
  | case9 o left a rest hrest hp ih =>
    obtain ⟨hleft, htakes⟩ := ih h
    exact ⟨hleft, .operand hp hrest htakes⟩
  | case10 o left a rest hrest b hp ih => exact absurd (ih h).1 (by simp)
  | case11 o left dashes rest hp ih =>
    obtain ⟨hleft, htakes⟩ := ih h
    exact ⟨hleft, .endOfOptions hp htakes⟩
  | case12 o left dashes rest b hp ih => exact absurd (ih h).1 (by simp)
  | case13 o left a f long rest hf ih =>
    obtain ⟨hleft, htakes⟩ := ih h
    exact ⟨hleft, .awaits hf htakes⟩
  | case14 => cases h
  | case15 o left a f long rest hf text o₁ hset ih =>
    obtain ⟨hleft, htakes⟩ := ih h
    exact ⟨hleft, .attached hf hset htakes⟩
  | case16 => cases h
  | case17 => cases h
  | case18 o left a f long text rest hf fs hflags o₁ hset ih =>
    obtain ⟨hleft, htakes⟩ := ih h
    exact ⟨hleft, .flags (Bool.not_eq_true _ ▸ hf) hflags hset htakes⟩

/-- Arguments that can be taken one by one are taken. -/
theorem take_of_takes (h : Takes awaiting o l o') : take o [] awaiting l = .ok (.run o') := by
  induction h with
  | done => rfl
  | value hset h ih =>
    rw [take, hset]
    exact ih
  | awaits hf h ih =>
    rw [take, if_pos hf]
    exact ih
  | attached hf hset h ih =>
    rw [take, if_pos hf]
    simp only [hset]
    exact ih
  | @flags f _ _ text _ _ _ _ _ hf hflags hset h ih =>
    have hnot : ¬f.takesValue = true := Bool.not_eq_true _ ▸ hf
    cases text with
    | none =>
      rw [take, if_neg hnot, hflags]
      simp only [hset]
      exact ih
    | some text =>
      rw [take, if_neg hnot, hflags]
      simp only [hset]
      exact ih
  | lastOperand hp h ih =>
    rw [take, hp]
    exact ih
  | operand hp hrest h ih =>
    rw [take, hp]
    · exact ih
    · exact hrest
  | endOfOptions hp h ih =>
    rw [take, hp]
    exact ih

/-- **Arguments are accepted if they can be taken one after the other.** -/
theorem take_eq_run_iff : take o [] awaiting l = .ok (.run o') ↔ Takes awaiting o l o' :=
  ⟨fun h ↦ (takes_of_take h).2, take_of_takes⟩

/-! ### What the arguments say -/

/-- Whether an argument of this kind stands for the option `f`, which takes no value. -/
def Kind.sets (f : Flag) : Kind → Bool
  | .option g long text => !g.takesValue && match flagsOf g long text with
    | .ok fs => fs.contains f
    | .error _ => false
  | _ => false

/-- **Whether an option is given** that takes no value. -/
def given (f : Flag) (l : List (String × Kind)) : Bool := l.any (·.2.sets f)

/-- **The operands that are no option's value.** While `awaiting` a value, the next argument is
that value. -/
def operands : (awaiting : Bool) → List (String × Kind) → List String
  | _, [] => []
  | true, _ :: rest => operands false rest
  | false, (a, .operand) :: rest => a :: operands false rest
  | false, (_, .option f _ none) :: rest => operands f.takesValue rest
  | false, _ :: rest => operands false rest

/-- **The values that are given to an option.** While `awaiting` its value, the next argument is
that value. -/
def values (f : Flag) : (awaiting : Bool) → List (String × Kind) → List String
  | _, [] => []
  | true, (value, _) :: rest => value :: values f false rest
  | false, (_, .option g _ none) :: rest => values f (g = f) rest
  | false, (_, .option g _ (some text)) :: rest =>
    if g = f then String.ofList text :: values f false rest else values f false rest
  | false, _ :: rest => values f false rest

/-- The limit that the last of the values sets, or the one that holds without any. -/
def lastLimit (standard : Option ℤ) (values : List String) : Option ℤ :=
  values.getLast?.elim standard fun value ↦ Numeral.readPadded value.toList

/-- Only the last value counts. -/
theorem lastLimit_cons (standard : Option ℤ) (value : String) (values : List String) :
    lastLimit standard (value :: values) =
      lastLimit (Numeral.readPadded value.toList) values := by
  rw [lastLimit, lastLimit, List.getLast?_cons]
  cases values.getLast? <;> rfl

/-- **What the arguments make of the options is what they say.** -/
structure Means (awaiting : Option Flag) (o : Options) (l : List (String × Kind))
    (o' : Options) : Prop where
  /-- The one operand names the program. -/
  program : o.program.toList ++ operands awaiting.isSome l = o'.program.toList
  /-- An option without a value holds if it is given. -/
  has : ∀ f, f.takesValue = false → o'.has f = (o.has f || given f l)
  /-- The last value of a limit counts. -/
  limit : ∀ f, f.takesValue = true →
    o'.limit f = lastLimit (o.limit f) (values f (awaiting = some f) l)

theorem given_cons (f : Flag) (e : String × Kind) (l : List (String × Kind)) :
    given f (e :: l) = (e.2.sets f || given f l) := rfl

theorem Kind.sets_of_takesValue (hf : f.takesValue = true) (g : Flag) (long : Bool)
    (text : Option (List Char)) : (Kind.option f long text).sets g = false := by
  rw [Kind.sets, hf]
  rfl

/-- An argument of short flags sets just the flags that it is made of. -/
theorem Kind.sets_of_flagsOf {long : Bool} {text : Option (List Char)} (hf : f.takesValue = false)
    (hflags : flagsOf f long text = .ok fs) (g : Flag) :
    (Kind.option f long text).sets g = fs.contains g := by
  rw [Kind.sets, hf, hflags]
  rfl

/-- **What the arguments make of the options is what they say.** The induction is on the arguments,
each of which adds what it says to what the rest says. -/
theorem Takes.means (h : Takes awaiting o l o')
    (hawaiting : ∀ f, awaiting = some f → f.takesValue = true) : Means awaiting o l o' := by
  -- per argument: what it does to the program, to the flags and to the limits
  induction h with
  | done => exact ⟨by simp [operands], by simp [given], fun f hf ↦ by simp [values, lastLimit]⟩
  | @value f value o o₁ o' rest hset h ih =>
    obtain ⟨-, rfl⟩ := setValue_eq_ok_iff.1 hset
    obtain ⟨hprogram, hhas, hlimit⟩ := ih (by simp)
    refine ⟨?_, fun g hg ↦ ?_, fun g hg ↦ ?_⟩
    · rw [← hprogram, Options.program_setLimit]
      rfl
    · rw [hhas g hg, Options.has_setLimit]
      rfl
    · rw [hlimit g hg, Options.limit_setLimit (hawaiting f rfl) hg]
      by_cases hfg : f = g
      · simp [values, lastLimit_cons, hfg]
      · simp [values, hfg]
  | @awaits f a long o o' rest hf h ih =>
    obtain ⟨hprogram, hhas, hlimit⟩ := ih fun g hg ↦ Option.some.inj hg ▸ hf
    refine ⟨?_, fun g hg ↦ ?_, fun g hg ↦ ?_⟩
    · rw [← hprogram]
      simp [operands, hf]
    · rw [hhas g hg, given_cons, Kind.sets_of_takesValue hf, Bool.false_or]
    · rw [hlimit g hg]
      simp [values]
  | @attached f a long text o o₁ o' rest hf hset h ih =>
    obtain ⟨-, rfl⟩ := setAttached_eq_ok_iff.1 hset
    obtain ⟨hprogram, hhas, hlimit⟩ := ih (by simp)
    refine ⟨?_, fun g hg ↦ ?_, fun g hg ↦ ?_⟩
    · rw [← hprogram, Options.program_setLimit]
      rfl
    · rw [hhas g hg, Options.has_setLimit, given_cons, Kind.sets_of_takesValue hf, Bool.false_or]
    · rw [hlimit g hg, Options.limit_setLimit hf hg]
      by_cases hfg : f = g
      · simp [values, lastLimit_cons, hfg]
      · simp [values, hfg]
  | @flags f a long text fs o o₁ o' rest hf hflags hset h ih =>
    obtain ⟨hprogram, hhas, hlimit⟩ := ih (by simp)
    obtain ⟨hsetHas, hsetProgram, hsetLimit⟩ := setAll_eq_run hset
    refine ⟨?_, fun g hg ↦ ?_, fun g hg ↦ ?_⟩
    · rw [← hprogram, hsetProgram]
      cases text <;> simp [operands, hf]
    · rw [hhas g hg, hsetHas g hg, given_cons, Kind.sets_of_flagsOf hf hflags, Bool.or_assoc]
    · have hfg : f ≠ g := by
        rintro rfl
        rw [hf] at hg
        cases hg
      rw [hlimit g hg, hsetLimit g]
      cases text <;> simp [values, hfg]
  | @lastOperand a dashes o o' rest hp h ih =>
    obtain ⟨hprogram, hhas, hlimit⟩ := ih (by simp)
    refine ⟨?_, hhas, hlimit⟩
    rw [← hprogram, hp]
    rfl
  | @operand a o o' rest hp hrest h ih =>
    obtain ⟨hprogram, hhas, hlimit⟩ := ih (by simp)
    refine ⟨?_, hhas, hlimit⟩
    rw [← hprogram, hp]
    rfl
  | endOfOptions hp h ih =>
    obtain ⟨hprogram, hhas, hlimit⟩ := ih (by simp)
    exact ⟨hprogram, hhas, hlimit⟩

/-! ### Arguments that ask for statistics only -/

/-- Whether an argument of this kind asks for statistics and for nothing else. -/
def Kind.verboseOnly : Kind → Bool
  | .option f long text => !f.takesValue && match flagsOf f long text with
    | .ok fs => fs.all (· = .verbose)
    | .error _ => false
  | _ => false

/-- **The arguments without those that ask for statistics and for nothing else.** What follows the
end of all options is kept. -/
def quiet : List String → List String
  | [] => []
  | a :: rest =>
    match kind a with
    | .ok .endOfOptions => a :: rest
    | .ok k => if k.verboseOnly then quiet rest else a :: quiet rest
    | .error _ => a :: quiet rest

example : quiet ["-v", "--max-threads", "3", "-vv", "p", "--verb", "--", "-v"] =
    ["--max-threads", "3", "p", "--", "-v"] := by decide

theorem sort_cons_of_error {a : String} {e : UsageFault} (h : kind a = .error e)
    (rest : List String) : sort (a :: rest) = .error e := by
  rw [sort, h]
  rfl

/-- Behind the mark for the end of all options everything is an operand. -/
theorem sort_cons_of_endOfOptions {a : String} (h : kind a = .ok .endOfOptions)
    (rest : List String) :
    sort (a :: rest) = .ok ((a, .endOfOptions) :: rest.map fun b ↦ (b, .operand)) := by
  rw [sort, h]
  rfl

/-- Any other argument is sorted by itself. -/
theorem sort_cons_of_ne {a : String} {k : Kind} (h : kind a = .ok k) (hk : k ≠ .endOfOptions)
    (rest : List String) : sort (a :: rest) = (sort rest).map ((a, k) :: ·) := by
  rw [sort, h]
  cases k with
  | endOfOptions => exact absurd rfl hk
  | option f long text => cases sort rest <;> rfl
  | unknown => cases sort rest <;> rfl
  | operand => cases sort rest <;> rfl

theorem quiet_cons_of_endOfOptions {a : String} (h : kind a = .ok .endOfOptions)
    (rest : List String) : quiet (a :: rest) = a :: rest := by
  rw [quiet, h]

/-- An argument that only asks for statistics is left out, and any other one stays. -/
theorem quiet_cons_of_ne {a : String} {k : Kind} (h : kind a = .ok k) (hk : k ≠ .endOfOptions)
    (rest : List String) :
    quiet (a :: rest) = if k.verboseOnly then quiet rest else a :: quiet rest := by
  rw [quiet, h]
  cases k with
  | endOfOptions => exact absurd rfl hk
  | option f long text => rfl
  | unknown => rfl
  | operand => rfl

/-- Leaving arguments out before sorting and after it are the same. -/
theorem sort_quiet {arguments : List String} (h : sort arguments = .ok l) :
    sort (quiet arguments) = .ok (l.filter fun e ↦ !e.2.verboseOnly) := by
  induction arguments generalizing l with
  | nil =>
    obtain rfl := Except.ok.inj h
    rfl
  | cons a rest ih =>
    cases hkind : kind a with
    | error e =>
      rw [sort_cons_of_error hkind] at h
      cases h
    | ok k =>
      by_cases hk : k = .endOfOptions
      · subst hk
        rw [quiet_cons_of_endOfOptions hkind, h]
        rw [sort_cons_of_endOfOptions hkind] at h
        obtain rfl := Except.ok.inj h
        -- behind the mark everything is an operand, so nothing is left out there
        have hkept : ∀ e ∈ (a, Kind.endOfOptions) :: rest.map fun b ↦ (b, Kind.operand),
            (!e.2.verboseOnly) = true := by
          intro e he
          rcases List.mem_cons.1 he with rfl | he
          · rfl
          · obtain ⟨b, -, rfl⟩ := List.mem_map.1 he
            rfl
        rw [List.filter_eq_self.2 hkept]
      · rw [sort_cons_of_ne hkind hk] at h
        cases hsort : sort rest with
        | error e =>
          rw [hsort] at h
          cases h
        | ok l' =>
          rw [hsort] at h
          obtain rfl := Except.ok.inj h
          rw [quiet_cons_of_ne hkind hk]
          by_cases hverbose : k.verboseOnly = true
          · rw [if_pos hverbose, ih hsort, List.filter_cons_of_neg (by simp [hverbose])]
          · rw [if_neg hverbose, sort_cons_of_ne hkind hk, ih hsort,
              List.filter_cons_of_pos (by simp [hverbose])]
            rfl

/-- Once the program is named, no mark for the end of all options is accepted. -/
theorem Takes.ne_endOfOptions (h : Takes awaiting o l o') (hp : o.program ≠ none) :
    ∀ e ∈ l, e.2 ≠ .endOfOptions := by
  induction h with
  | done => exact fun e he ↦ absurd he List.not_mem_nil
  | value hset h ih =>
    obtain ⟨-, rfl⟩ := setValue_eq_ok_iff.1 hset
    rw [Options.program_setLimit] at ih
    exact List.forall_mem_cons.2 ⟨nofun, ih hp⟩
  | awaits hf h ih => exact List.forall_mem_cons.2 ⟨nofun, ih hp⟩
  | attached hf hset h ih =>
    obtain ⟨-, rfl⟩ := setAttached_eq_ok_iff.1 hset
    rw [Options.program_setLimit] at ih
    exact List.forall_mem_cons.2 ⟨nofun, ih hp⟩
  | flags hf hflags hset h ih =>
    obtain ⟨-, hprogram, -⟩ := setAll_eq_run hset
    exact List.forall_mem_cons.2 ⟨nofun, ih (hprogram ▸ hp)⟩
  | lastOperand hnone h ih => exact absurd hnone hp
  | operand hnone hrest h ih => exact absurd hnone hp
  | endOfOptions hnone h ih => exact absurd hnone hp

theorem Kind.verboseOnly_of_takesValue (hf : f.takesValue = true) (long : Bool)
    (text : Option (List Char)) : (Kind.option f long text).verboseOnly = false := by
  rw [Kind.verboseOnly, hf]
  rfl

/-- An argument of short flags only asks for statistics if each of its flags does. -/
theorem Kind.verboseOnly_of_flagsOf {long : Bool} {text : Option (List Char)}
    (hf : f.takesValue = false) (hflags : flagsOf f long text = .ok fs) :
    (Kind.option f long text).verboseOnly = fs.all (· = .verbose) := by
  rw [Kind.verboseOnly, hf, hflags]
  rfl

/-- Options that differ only in the request for statistics name the same program. -/
theorem Options.eq_of_quiet (h : o₁.quiet = o.quiet) : o₁.program = o.program ∧
    ∀ a, { o₁ with program := some a }.quiet = { o with program := some a }.quiet := by
  obtain ⟨program, witnesses, readAround, maxThreads, maxInstructions, verbose⟩ := o
  obtain ⟨program', witnesses', readAround', maxThreads', maxInstructions', verbose'⟩ := o₁
  obtain ⟨rfl, rfl, rfl, rfl, rfl, -⟩ := Options.mk.inj h
  exact ⟨rfl, fun a ↦ rfl⟩

/-- **Arguments that are accepted are accepted without those that ask for statistics only**, and
nothing else changes. -/
theorem Takes.quiet (h : Takes awaiting o l o') (hq : o₁.quiet = o.quiet) :
    ∃ o₁', Takes awaiting o₁ (l.filter fun e ↦ !e.2.verboseOnly) o₁' ∧ o₁'.quiet = o'.quiet := by
  induction h generalizing o₁ with
  | done => exact ⟨o₁, .done, hq⟩
  | @value f value o o₂ o' rest hset h ih =>
    obtain ⟨hread, rfl⟩ := setValue_eq_ok_iff.1 hset
    have hq' : (o₁.setLimit f (Numeral.readPadded value.toList)).quiet =
        (o.setLimit f (Numeral.readPadded value.toList)).quiet := by
      rw [Options.quiet_setLimit, Options.quiet_setLimit, hq]
    obtain ⟨o₁', htakes, heq⟩ := ih hq'
    exact ⟨o₁', .value (setValue_eq_ok_iff.2 ⟨hread, rfl⟩) htakes, heq⟩
  | @awaits f a long o o' rest hf h ih =>
    obtain ⟨o₁', htakes, heq⟩ := ih hq
    rw [List.filter_cons_of_pos (by simp [Kind.verboseOnly_of_takesValue hf])]
    exact ⟨o₁', .awaits hf htakes, heq⟩
  | @attached f a long text o o₂ o' rest hf hset h ih =>
    obtain ⟨hread, rfl⟩ := setAttached_eq_ok_iff.1 hset
    have hq' : (o₁.setLimit f (Numeral.readPadded (String.ofList text).toList)).quiet =
        (o.setLimit f (Numeral.readPadded (String.ofList text).toList)).quiet := by
      rw [Options.quiet_setLimit, Options.quiet_setLimit, hq]
    obtain ⟨o₁', htakes, heq⟩ := ih hq'
    rw [List.filter_cons_of_pos (by simp [Kind.verboseOnly_of_takesValue hf])]
    exact ⟨o₁', .attached hf (setAttached_eq_ok_iff.2 ⟨hread, rfl⟩) htakes, heq⟩
  | @flags f a long text fs o o₂ o' rest hf hflags hset h ih =>
    have honly := Kind.verboseOnly_of_flagsOf hf hflags
    by_cases hverbose : fs.all (· = .verbose) = true
    · rw [List.filter_cons_of_neg (by simp [honly, hverbose])]
      have hall : ∀ f ∈ fs, f = .verbose := fun f hmem ↦
        of_decide_eq_true (List.all_eq_true.1 hverbose f hmem)
      exact ih (hq.trans (quiet_of_setAll hset hall).symm)
    · rw [List.filter_cons_of_pos (by simp [honly, hverbose])]
      obtain ⟨o₂', hset', hq'⟩ := quiet_setAll hset hq
      obtain ⟨o₁', htakes, heq⟩ := ih hq'
      exact ⟨o₁', .flags hf hflags hset' htakes, heq⟩
  | @lastOperand a dashes o o' rest hp h ih =>
    obtain ⟨hprogram, hset⟩ := Options.eq_of_quiet hq
    obtain ⟨o₁', htakes, heq⟩ := ih (hset a)
    exact ⟨o₁', .lastOperand (hprogram.trans hp) htakes, heq⟩
  | @operand a o o' rest hp hrest h ih =>
    obtain ⟨hprogram, hset⟩ := Options.eq_of_quiet hq
    obtain ⟨o₁', htakes, heq⟩ := ih (hset a)
    refine ⟨o₁', .operand (hprogram.trans hp) (fun dashes rest' hsplit ↦ ?_) htakes, heq⟩
    -- leaving arguments out could bring the end of all options up to the operand, but none follows
    have hmem : (dashes, Kind.endOfOptions) ∈ rest.filter fun e ↦ !e.2.verboseOnly :=
      hsplit ▸ List.mem_cons_self
    exact h.ne_endOfOptions (Option.some_ne_none a) _ (List.mem_filter.1 hmem).1 rfl
  | @endOfOptions dashes o o' rest hp h ih =>
    obtain ⟨hprogram, -⟩ := Options.eq_of_quiet hq
    obtain ⟨o₁', htakes, heq⟩ := ih hq
    exact ⟨o₁', .endOfOptions (hprogram.trans hp) htakes, heq⟩

/-! ### Whole lists of arguments -/

section Parse

variable {threads instructions : ℤ} {arguments arguments' : List String}

/-- The options before any argument. -/
def Options.initial (threads instructions : ℤ) : Options :=
  { maxThreads := some threads, maxInstructions := some instructions }

/-- **Arguments are accepted if they can be sorted and taken one by one.** -/
theorem parse_eq_run_iff : parse threads instructions arguments = .ok (.run o) ↔
    ∃ l, sort arguments = .ok l ∧ Takes none (.initial threads instructions) l o := by
  rw [parse]
  cases hsort : sort arguments with
  | error e =>
    refine ⟨fun h ↦ ?_, fun ⟨l, hl, _⟩ ↦ ?_⟩
    · cases h
    · cases hl
  | ok l =>
    refine ⟨fun h ↦ ⟨l, rfl, take_eq_run_iff.1 h⟩, fun ⟨l', hl, h⟩ ↦ ?_⟩
    obtain rfl := Except.ok.inj hl
    exact take_eq_run_iff.2 h

/-- **Lists of arguments that differ only in the request for statistics set the same options but
that one**, if both are accepted. -/
theorem parse_congr_quiet (hquiet : quiet arguments = quiet arguments')
    (h : parse threads instructions arguments = .ok (.run o))
    (h' : parse threads instructions arguments' = .ok (.run o')) : o.quiet = o'.quiet := by
  obtain ⟨l, hsort, htakes⟩ := parse_eq_run_iff.1 h
  obtain ⟨l', hsort', htakes'⟩ := parse_eq_run_iff.1 h'
  have hkept := sort_quiet hsort
  rw [hquiet, sort_quiet hsort'] at hkept
  obtain ⟨o₁, htakes₁, hq₁⟩ := htakes.quiet rfl
  obtain ⟨o₁', htakes₁', hq₁'⟩ := htakes'.quiet rfl
  rw [Except.ok.inj hkept] at htakes₁'
  have heq := (take_eq_run_iff.2 htakes₁).symm.trans (take_eq_run_iff.2 htakes₁')
  rw [← hq₁, ← hq₁', Request.run.inj (Except.ok.inj heq)]

end Parse

end Litmus.CommandLine

import YoloServer.Json.Lexer
import Mathlib.Data.List.TakeWhile

/-!
# Numbers

`Number bytes type final` is the grammar of a number, `[ minus ] int [ frac ] [ exp ]`, with the
type that `scan_number` gives it and the label at which it ends.  `scanNumber_iff` says
that `scan_number` reads exactly these texts.  The scanner never goes back: it fails
where a point or an exponent has no digits, and it stops after a leading zero.

The last section is about the integers that `dump` writes.
-/

namespace YoloServer
namespace Json

/-! ## The automaton -/

/-- The state and the type after some bytes, if the automaton does not stop before. -/
def NumberState.run (state : NumberState) (type : NumberType) :
    List UInt8 → Option (NumberState × NumberType)
  | [] => some (state, type)
  | b :: bytes =>
      match state.next b with
      | some state' => state'.run (state'.numberType type) bytes
      | none => none

/-- The number ends before this text. -/
def NumberState.Stops (state : NumberState) (rest : List UInt8) : Prop :=
  ∀ b ∈ rest.head?, state.next b = none

theorem NumberState.run_cons_iff {state final : NumberState} {type type' : NumberType} {b : UInt8}
    {bytes : List UInt8} :
    state.run type (b :: bytes) = some (final, type') ↔
      ∃ state', state.next b = some state' ∧
        state'.run (state'.numberType type) bytes = some (final, type') := by
  rw [NumberState.run]
  cases hnext : state.next b with
  | none => simp
  | some state' => simp

/-- `scan_number` takes a path of the automaton to a state in which a number may end, and it
takes the path as far as it goes. -/
theorem numberLoop_iff {state : NumberState} {type type' : NumberType}
    {text bytes rest : List UInt8} :
    numberLoop state type text = some (type', bytes, rest) ↔
      ∃ final, state.run type bytes = some (final, type') ∧ final.isDone = true ∧
        final.Stops rest ∧ text = bytes ++ rest := by
  induction text generalizing state type bytes with
  | nil =>
      rw [numberLoop]
      constructor
      · intro h
        split_ifs at h with hdone
        cases h
        exact ⟨state, rfl, hdone, by simp [NumberState.Stops], rfl⟩
      · rintro ⟨final, hrun, hdone, -, htext⟩
        obtain ⟨rfl, rfl⟩ := List.append_eq_nil_iff.mp htext.symm
        cases hrun
        rw [if_pos hdone]
  | cons b text ih =>
      rw [numberLoop]
      cases hnext : state.next b with
      | none =>
          constructor
          · intro h
            simp only at h
            split_ifs at h with hdone
            cases h
            exact ⟨state, rfl, hdone, by simpa [NumberState.Stops] using hnext, rfl⟩
          · rintro ⟨final, hrun, hdone, -, htext⟩
            cases bytes with
            | nil =>
                cases hrun
                cases htext
                simp only [if_pos hdone]
            | cons b' bytes =>
                cases htext
                obtain ⟨state', hnext', -⟩ := NumberState.run_cons_iff.mp hrun
                rw [hnext] at hnext'
                cases hnext'
      | some state' =>
          constructor
          · intro h
            cases hrec : numberLoop state' (state'.numberType type) text with
            | none => simp [hrec] at h
            | some result =>
                obtain ⟨type'', bytes', rest'⟩ := result
                simp only [hrec, Option.some.injEq, Prod.mk.injEq] at h
                obtain ⟨rfl, rfl, rfl⟩ := h
                obtain ⟨final, hrun, hdone, hstops, rfl⟩ := ih.mp hrec
                exact ⟨final, NumberState.run_cons_iff.mpr ⟨state', hnext, hrun⟩, hdone, hstops,
                  rfl⟩
          · rintro ⟨final, hrun, hdone, hstops, htext⟩
            cases bytes with
            | nil =>
                cases hrun
                subst htext
                rw [hstops b rfl] at hnext
                cases hnext
            | cons b' bytes =>
                cases htext
                obtain ⟨state'', hnext', hrun'⟩ := NumberState.run_cons_iff.mp hrun
                rw [hnext] at hnext'
                cases hnext'
                simp only [ih.mpr ⟨final, hrun', hdone, hstops, rfl⟩]

/-! ## The grammar -/

/-- One or more digits. -/
def Digits (bytes : List UInt8) : Prop :=
  bytes ≠ [] ∧ ∀ b ∈ bytes, isDigit b = true

/-- `int`: a zero, or digits that do not start with one; and the label that is reached. -/
inductive IntPart : List UInt8 → NumberState → Prop where
  | zero : IntPart [48] .zero
  | digits {d : UInt8} {ds : List UInt8} (hd : isDigit d = true) (hzero : d ≠ 48)
      (hds : ∀ b ∈ ds, isDigit b = true) : IntPart (d :: ds) .any1

/-- `frac`: a point and digits. -/
inductive FracPart : List UInt8 → Prop where
  | mk {ds : List UInt8} (hds : Digits ds) : FracPart (46 :: ds)

/-- `exp`: the letter, a sign or none, and digits. -/
inductive ExpPart : List UInt8 → Prop where
  | mk {e : UInt8} {sign ds : List UInt8} (he : e = 101 ∨ e = 69)
      (hsign : sign = [] ∨ sign = [43] ∨ sign = [45]) (hds : Digits ds) :
      ExpPart (e :: (sign ++ ds))

/-- `[ frac ] [ exp ]`, after an integer of the given type. -/
inductive Suffix (state : NumberState) (type : NumberType) :
    List UInt8 → NumberType → NumberState → Prop where
  | none : Suffix state type [] type state
  | frac {f : List UInt8} (hf : FracPart f) : Suffix state type f .float .decimal2
  | exp {e : List UInt8} (he : ExpPart e) : Suffix state type e .float .any2
  | both {f e : List UInt8} (hf : FracPart f) (he : ExpPart e) :
      Suffix state type (f ++ e) .float .any2

/-- `number = [ minus ] int [ frac ] [ exp ]`, with the type that the number gets and the label at
which it ends. -/
inductive Number : List UInt8 → NumberType → NumberState → Prop where
  | plain {int suffix : List UInt8} {state final : NumberState} {type : NumberType}
      (hint : IntPart int state) (hsuffix : Suffix state .unsigned suffix type final) :
      Number (int ++ suffix) type final
  | minus {int suffix : List UInt8} {state final : NumberState} {type : NumberType}
      (hint : IntPart int state) (hsuffix : Suffix state .integer suffix type final) :
      Number (45 :: (int ++ suffix)) type final

/-! ## The grammar against the automaton -/

namespace NumberState

/-- The states with a loop over digits. -/
def Loops (state : NumberState) : Prop :=
  state = .any1 ∨ state = .decimal2 ∨ state = .any2

theorem next_of_isDigit {state : NumberState} (h : state.Loops) {b : UInt8}
    (hb : isDigit b = true) : state.next b = some state := by
  obtain rfl | rfl | rfl := h
  all_goals simp [next, hb]

theorem run_digits {state : NumberState} (h : state.Loops) (type : NumberType) {ds : List UInt8}
    (hds : ∀ b ∈ ds, isDigit b = true) (bytes : List UInt8) :
    state.run type (ds ++ bytes) = state.run type bytes := by
  have htype : state.numberType type = type := by
    obtain rfl | rfl | rfl := h
    all_goals rfl
  induction ds with
  | nil => rfl
  | cons d ds ih =>
      rw [List.cons_append, run, next_of_isDigit h (hds d (by simp))]
      simp only [htype]
      exact ih fun b hb => hds b (by simp [hb])

end NumberState

/-- The digits at the front of a text. -/
theorem exists_digits (bytes : List UInt8) :
    ∃ ds rest, bytes = ds ++ rest ∧ (∀ b ∈ ds, isDigit b = true) ∧
      ∀ b ∈ rest.head?, isDigit b = false := by
  refine ⟨bytes.takeWhile isDigit, bytes.dropWhile isDigit, ?_, ?_, ?_⟩
  · rw [List.takeWhile_append_dropWhile]
  · exact fun b hb => List.mem_takeWhile_imp hb
  · intro b hb
    have hhead := List.head?_dropWhile_not isDigit bytes
    rw [Option.mem_def] at hb
    simpa [hb] using hhead

section Automaton

variable {type type' : NumberType} {final : NumberState} {bytes : List UInt8}

/-- The digits of an exponent. -/
theorem digits_of_run_any2 (h : NumberState.any2.run type bytes = some (final, type')) :
    (final = .any2 ∧ type' = type) ∧ ∀ b ∈ bytes, isDigit b = true := by
  obtain ⟨ds, rest, rfl, hds, hrest⟩ := exists_digits bytes
  rw [NumberState.run_digits (.inr (.inr rfl)) type hds] at h
  cases rest with
  | nil =>
      cases h
      exact ⟨⟨rfl, rfl⟩, by simpa using hds⟩
  | cons b rest =>
      obtain ⟨state', hnext, -⟩ := NumberState.run_cons_iff.mp h
      simp [NumberState.next, hrest b rfl] at hnext

theorem run_any2 (type : NumberType) (h : ∀ b ∈ bytes, isDigit b = true) :
    NumberState.any2.run type bytes = some (.any2, type) := by
  have hrun := NumberState.run_digits (.inr (.inr rfl)) type h []
  rwa [List.append_nil] at hrun

/-- After the sign of an exponent. -/
theorem digits_of_run_sign (h : NumberState.sign.run type bytes = some (final, type'))
    (hdone : final.isDone = true) : (final = .any2 ∧ type' = type) ∧ Digits bytes := by
  cases bytes with
  | nil =>
      cases h
      cases hdone
  | cons b bytes =>
      obtain ⟨state', hnext, hrun⟩ := NumberState.run_cons_iff.mp h
      rw [NumberState.next] at hnext
      split_ifs at hnext with hb
      cases hnext
      obtain ⟨hend, hdigits⟩ := digits_of_run_any2 hrun
      exact ⟨hend, by simp, by simpa [hb] using hdigits⟩

/-- After the letter of an exponent. -/
theorem exp_of_run_exponent (h : NumberState.exponent.run type bytes = some (final, type'))
    (hdone : final.isDone = true) :
    (final = .any2 ∧ type' = type) ∧
      ∃ sign ds, bytes = sign ++ ds ∧ (sign = [] ∨ sign = [43] ∨ sign = [45]) ∧ Digits ds := by
  cases bytes with
  | nil =>
      cases h
      cases hdone
  | cons b bytes =>
      obtain ⟨state', hnext, hrun⟩ := NumberState.run_cons_iff.mp h
      rw [NumberState.next] at hnext
      split_ifs at hnext with hsign hb
      · cases hnext
        obtain ⟨hend, hdigits⟩ := digits_of_run_sign hrun hdone
        refine ⟨hend, [b], bytes, rfl, ?_, hdigits⟩
        obtain rfl | rfl := hsign
        · exact .inr (.inl rfl)
        · exact .inr (.inr rfl)
      · cases hnext
        obtain ⟨hend, hdigits⟩ := digits_of_run_any2 hrun
        exact ⟨hend, [], b :: bytes, rfl, .inl rfl, by simp, by simpa [hb] using hdigits⟩

/-- After the first digits, an exponent may come or the number may end. -/
theorem exp_of_run_decimal2 (h : NumberState.decimal2.run .float bytes = some (final, type'))
    (hdone : final.isDone = true) :
    type' = .float ∧ ∃ ds rest, bytes = ds ++ rest ∧ (∀ b ∈ ds, isDigit b = true) ∧
      (rest = [] ∧ final = .decimal2 ∨ ExpPart rest ∧ final = .any2) := by
  obtain ⟨ds, rest, rfl, hds, hrest⟩ := exists_digits bytes
  rw [NumberState.run_digits (.inr (.inl rfl)) .float hds] at h
  cases rest with
  | nil =>
      cases h
      exact ⟨rfl, ds, [], rfl, hds, .inl ⟨rfl, rfl⟩⟩
  | cons b rest =>
      obtain ⟨state', hnext, hrun⟩ := NumberState.run_cons_iff.mp h
      simp only [NumberState.next, hrest b rfl, Bool.false_eq_true, if_false] at hnext
      split_ifs at hnext with hletter
      cases hnext
      obtain ⟨⟨rfl, rfl⟩, sign, ds', rfl, hsign, hds'⟩ := exp_of_run_exponent hrun hdone
      exact ⟨rfl, ds, _, rfl, hds, .inr ⟨⟨hletter, hsign, hds'⟩, rfl⟩⟩

/-- A state after the integer part: a point or an exponent may come. -/
def AfterInt (state : NumberState) : Prop :=
  state = .zero ∨ state = .any1

theorem AfterInt.next {state : NumberState} (h : AfterInt state) {b : UInt8}
    (hb : isDigit b = false) :
    state.next b =
      if b = 46 then some .decimal1 else if b = 101 ∨ b = 69 then some .exponent else none := by
  obtain rfl | rfl := h
  · rfl
  · simp [NumberState.next, hb]

theorem suffix_of_run {state : NumberState} (hstate : AfterInt state)
    (hhead : ∀ b ∈ bytes.head?, isDigit b = false)
    (h : state.run type bytes = some (final, type')) (hdone : final.isDone = true) :
    Suffix state type bytes type' final := by
  cases bytes with
  | nil =>
      cases h
      exact .none
  | cons b bytes =>
      obtain ⟨state', hnext, hrun⟩ := NumberState.run_cons_iff.mp h
      rw [hstate.next (hhead b rfl)] at hnext
      split_ifs at hnext with hpoint hletter
      · cases hnext
        subst hpoint
        cases bytes with
        | nil =>
            cases hrun
            cases hdone
        | cons d bytes =>
            obtain ⟨state'', hdigit, hrun⟩ := NumberState.run_cons_iff.mp hrun
            rw [NumberState.next] at hdigit
            split_ifs at hdigit with hd
            cases hdigit
            obtain ⟨rfl, ds, rest, rfl, hds, hrest⟩ := exp_of_run_decimal2 hrun hdone
            have hfrac : FracPart (46 :: d :: ds) := ⟨by simp, by simpa [hd] using hds⟩
            obtain ⟨rfl, rfl⟩ | ⟨he, rfl⟩ := hrest
            · rw [List.append_nil]
              exact .frac hfrac
            · exact .both hfrac he
      · cases hnext
        obtain ⟨⟨rfl, rfl⟩, sign, ds, rfl, hsign, hds⟩ := exp_of_run_exponent hrun hdone
        exact .exp ⟨hletter, hsign, hds⟩

theorem run_append {state state' : NumberState}
    (h : state.run type bytes = some (state', type')) (bytes' : List UInt8) :
    state.run type (bytes ++ bytes') = state'.run type' bytes' := by
  induction bytes generalizing state type with
  | nil =>
      cases h
      rfl
  | cons b bytes ih =>
      obtain ⟨next, hnext, hrun⟩ := NumberState.run_cons_iff.mp h
      rw [List.cons_append, NumberState.run, hnext]
      exact ih hrun

theorem run_expDigits (type : NumberType) (h : Digits bytes) :
    NumberState.exponent.run type bytes = some (.any2, type) ∧
      NumberState.sign.run type bytes = some (.any2, type) := by
  obtain ⟨hne, hdigits⟩ := h
  obtain ⟨d, ds, rfl⟩ := List.exists_cons_of_ne_nil hne
  have hd := hdigits d (by simp)
  have hds := run_any2 type fun b (hb : b ∈ ds) => hdigits b (List.mem_cons_of_mem d hb)
  have hsign : ¬ (d = 43 ∨ d = 45) := by
    rintro (rfl | rfl)
    · exact absurd hd (by decide)
    · exact absurd hd (by decide)
  constructor
  · exact NumberState.run_cons_iff.mpr ⟨.any2, by simp [NumberState.next, hd, hsign], hds⟩
  · exact NumberState.run_cons_iff.mpr ⟨.any2, by simp [NumberState.next, hd], hds⟩

theorem run_exp (type : NumberType) {state : NumberState} (he : ExpPart bytes)
    (hstate : ∀ b, b = 101 ∨ b = 69 → state.next b = some .exponent) :
    state.run type bytes = some (.any2, .float) := by
  obtain @⟨e, sign, ds, hletter, hsign, hds⟩ := he
  have hrun := run_expDigits .float hds
  refine NumberState.run_cons_iff.mpr ⟨.exponent, hstate e hletter, ?_⟩
  show NumberState.exponent.run .float (sign ++ ds) = _
  obtain rfl | rfl | rfl := hsign
  · exact hrun.1
  · exact hrun.2
  · exact hrun.2

theorem run_frac (type : NumberType) {state : NumberState} (hstate : AfterInt state)
    (hf : FracPart bytes) : state.run type bytes = some (.decimal2, .float) := by
  obtain @⟨ds, hne, hdigits⟩ := hf
  obtain ⟨d, ds, rfl⟩ := List.exists_cons_of_ne_nil hne
  have hd := hdigits d (by simp)
  have hds := NumberState.run_digits (.inr (.inl rfl)) .float
    (fun b (hb : b ∈ ds) => hdigits b (List.mem_cons_of_mem d hb)) []
  rw [List.append_nil] at hds
  refine NumberState.run_cons_iff.mpr ⟨.decimal1, by rw [hstate.next (by decide)]; rfl, ?_⟩
  exact NumberState.run_cons_iff.mpr ⟨.decimal2, by simp [NumberState.next, hd], hds⟩

theorem run_suffix {state : NumberState} (hstate : AfterInt state)
    (h : Suffix state type bytes type' final) :
    state.run type bytes = some (final, type') ∧ final.isDone = true := by
  have hexp : ∀ b, b = 101 ∨ b = 69 → state.next b = some .exponent := by
    rintro b (rfl | rfl)
    all_goals
      rw [hstate.next (by decide)]
      rfl
  cases h with
  | none =>
      refine ⟨rfl, ?_⟩
      obtain rfl | rfl := hstate
      all_goals rfl
  | frac hf => exact ⟨run_frac type hstate hf, rfl⟩
  | exp he => exact ⟨run_exp type he hexp, rfl⟩
  | both hf he =>
      rw [run_append (run_frac type hstate hf)]
      refine ⟨run_exp .float he ?_, rfl⟩
      rintro b (rfl | rfl)
      all_goals rfl

theorem IntPart.afterInt {int : List UInt8} {state : NumberState} (h : IntPart int state) :
    AfterInt state := by
  cases h with
  | zero => exact .inl rfl
  | digits _ _ _ => exact .inr rfl

/-- The integer part, from its first byte. -/
theorem run_int {int : List UInt8} {state : NumberState} (h : IntPart int state)
    (type : NumberType) :
    NumberState.minus.run type int = some (state, type) ∧
      ∃ b bytes, int = b :: bytes ∧ isDigit b = true ∧ b ≠ 45 ∧
        (firstState b).run type bytes = some (state, type) := by
  cases h with
  | zero => exact ⟨rfl, 48, [], rfl, rfl, by decide, rfl⟩
  | @digits d ds hd hzero hds =>
      have hrun := NumberState.run_digits (.inl (show NumberState.any1 = .any1 from rfl)) type hds []
      have hminus : d ≠ 45 := by
        rintro rfl
        exact absurd hd (by decide)
      rw [List.append_nil] at hrun
      refine ⟨NumberState.run_cons_iff.mpr ⟨.any1, by simp [NumberState.next, hzero, hd], hrun⟩,
        d, ds, rfl, hd, hminus, ?_⟩
      rw [firstState, if_neg hminus, if_neg hzero]
      exact hrun

theorem not_isDigit_of_next_zero {b : UInt8} {state : NumberState}
    (h : NumberState.zero.next b = some state) : isDigit b = false := by
  rw [NumberState.next] at h
  split_ifs at h with hpoint hletter
  · subst hpoint
    rfl
  · obtain rfl | rfl := hletter
    all_goals rfl

/-- The integer part is read from its first digit. -/
theorem number_of_digit {d : UInt8} {state : NumberState} (hd : isDigit d = true)
    (hstate : state = if d = 48 then .zero else .any1)
    (h : state.run type bytes = some (final, type')) (hdone : final.isDone = true) :
    ∃ int suffix state, d :: bytes = int ++ suffix ∧ IntPart int state ∧
      Suffix state type suffix type' final := by
  by_cases hzero : d = 48
  · rw [if_pos hzero] at hstate
    subst hzero hstate
    refine ⟨[48], bytes, .zero, rfl, .zero, suffix_of_run (.inl rfl) ?_ h hdone⟩
    intro c hc
    cases bytes with
    | nil => cases hc
    | cons c' bytes =>
        cases hc
        obtain ⟨state', hnext, -⟩ := NumberState.run_cons_iff.mp h
        exact not_isDigit_of_next_zero hnext
  · rw [if_neg hzero] at hstate
    subst hstate
    obtain ⟨ds, rest, rfl, hds, hrest⟩ := exists_digits bytes
    rw [NumberState.run_digits (.inl rfl) type hds] at h
    exact ⟨d :: ds, rest, .any1, rfl, .digits hd hzero hds,
      suffix_of_run (.inr rfl) hrest h hdone⟩

theorem firstState_digit {b : UInt8} (h : b ≠ 45) :
    firstState b = if b = 48 then .zero else .any1 := by
  rw [firstState, if_neg h]

theorem numberType_firstState_digit {b : UInt8} (h : b ≠ 45) :
    (firstState b).numberType .unsigned = .unsigned := by
  rw [firstState_digit h]
  split_ifs
  · rfl
  · rfl

/-- A path of the automaton to a state in which a number may end spells a number. -/
theorem number_of_run {b : UInt8} (hb : b = 45 ∨ isDigit b = true)
    (h : (firstState b).run ((firstState b).numberType .unsigned) bytes = some (final, type))
    (hdone : final.isDone = true) : Number (b :: bytes) type final := by
  by_cases hminus : b = 45
  · subst hminus
    cases bytes with
    | nil =>
        cases h
        cases hdone
    | cons d ds =>
        obtain ⟨state', hnext, hrun⟩ := NumberState.run_cons_iff.mp h
        have hfirst : firstState 45 = .minus := rfl
        have hdigit : isDigit d = true ∧ state' = if d = 48 then .zero else .any1 := by
          rw [hfirst, NumberState.next] at hnext
          split_ifs at hnext with hzero hd
          · cases hnext
            subst hzero
            exact ⟨rfl, rfl⟩
          · cases hnext
            exact ⟨hd, by rw [if_neg hzero]⟩
        have htype : state'.numberType ((firstState 45).numberType .unsigned) = .integer := by
          rw [hdigit.2]
          split_ifs
          · rfl
          · rfl
        rw [htype] at hrun
        obtain ⟨int, suffix, state, htext, hint, hsuffix⟩ :=
          number_of_digit hdigit.1 hdigit.2 hrun hdone
        rw [htext]
        exact .minus hint hsuffix
  · rw [numberType_firstState_digit hminus] at h
    obtain ⟨int, suffix, state, htext, hint, hsuffix⟩ :=
      number_of_digit (hb.resolve_left hminus) (firstState_digit hminus) h hdone
    rw [htext]
    exact .plain hint hsuffix

theorem run_of_number (h : Number bytes type final) :
    ∃ b rest, bytes = b :: rest ∧ (b = 45 ∨ isDigit b = true) ∧
      (firstState b).run ((firstState b).numberType .unsigned) rest = some (final, type) ∧
      final.isDone = true := by
  cases h with
  | @plain int suffix state _ _ hint hsuffix =>
      obtain ⟨-, b, rest, rfl, hb, hminus, hrun⟩ := run_int hint .unsigned
      obtain ⟨hend, hdone⟩ := run_suffix hint.afterInt hsuffix
      refine ⟨b, rest ++ suffix, rfl, .inr hb, ?_, hdone⟩
      rw [numberType_firstState_digit hminus, run_append hrun, hend]
  | @minus int suffix state _ _ hint hsuffix =>
      obtain ⟨hrun, -⟩ := run_int hint .integer
      obtain ⟨hend, hdone⟩ := run_suffix hint.afterInt hsuffix
      refine ⟨45, int ++ suffix, rfl, .inl rfl, ?_, hdone⟩
      show NumberState.minus.run .integer (int ++ suffix) = _
      rw [run_append hrun, hend]

end Automaton

/-! ## The scanner -/

/-- What a number is converted to. -/
theorem convert_cases {D : Type} [Strtod D] (type : NumberType) (buffer : List UInt8) :
    (∃ n, n < 2 ^ 64 ∧ (convert type buffer : Token D) = .valueUnsigned n) ∨
      (∃ n : Int, (-2 ^ 63 ≤ n ∧ n ≤ 0) ∧ (convert type buffer : Token D) = .valueInteger n) ∨
      ∃ d : D, convert type buffer = .valueFloat d := by
  cases type with
  | unsigned =>
      rw [convert]
      split_ifs with h
      · exact .inl ⟨_, h, rfl⟩
      · exact .inr (.inr ⟨_, rfl⟩)
  | integer =>
      rw [convert]
      split_ifs with h
      · exact .inr (.inl ⟨_, by omega, rfl⟩)
      · exact .inr (.inr ⟨_, rfl⟩)
  | float => exact .inr (.inr ⟨_, rfl⟩)

/-- `scan_number` reads exactly the numbers of the grammar, each as far as its automaton goes. -/
theorem scanNumber_iff {D : Type} [Strtod D] {b : UInt8} (hb : b = 45 ∨ isDigit b = true)
    {text rest : List UInt8} {token : Token D} (htoken : token ≠ .parseError) :
    scanNumber b text = (token, rest) ↔
      ∃ bytes type final, Number (b :: bytes) type final ∧ final.Stops rest ∧
        text = bytes ++ rest ∧ token = convert type (b :: bytes) := by
  rw [scanNumber]
  constructor
  · intro h
    cases hloop : numberLoop (firstState b) ((firstState b).numberType .unsigned) text with
    | none =>
        rw [hloop] at h
        cases h
        exact absurd rfl htoken
    | some result =>
        obtain ⟨type, bytes, rest'⟩ := result
        rw [hloop] at h
        cases h
        obtain ⟨final, hrun, hdone, hstops, htext⟩ := numberLoop_iff.mp hloop
        exact ⟨bytes, type, final, number_of_run hb hrun hdone, hstops, htext, rfl⟩
  · rintro ⟨bytes, type, final, hnumber, hstops, htext, rfl⟩
    obtain ⟨b', rest', hbytes, -, hrun, hdone⟩ := run_of_number hnumber
    cases hbytes
    rw [numberLoop_iff.mpr ⟨final, hrun, hdone, hstops, htext⟩]

/-! ## Numbers as they are written -/

theorem digitsValue_append (bytes : List UInt8) (b : UInt8) :
    digitsValue (bytes ++ [b]) = 10 * digitsValue bytes + (b.toNat - 48) := by
  rw [digitsValue, List.foldl_append]
  rfl

/-- The decimal digits of a number, from the last one. -/
theorem utf8_repr_step {n : Nat} (h : 10 ≤ n) :
    utf8 (Nat.repr n) = utf8 (Nat.repr (n / 10)) ++ utf8 (Nat.repr (n % 10)) := by
  rw [utf8_repr, utf8_repr, utf8_repr, Nat.toDigits_of_base_le (by decide) h,
    Nat.toDigits_of_lt_base (Nat.mod_lt n (by decide)), List.map_append]

theorem utf8_repr_digit {n : Nat} (h : n < 10) : utf8 (Nat.repr n) = [UInt8.ofNat (48 + n)] := by
  have hall : ∀ n : Fin 10, utf8 (Nat.repr n.val) = [UInt8.ofNat (48 + n.val)] := by decide
  exact hall ⟨n, h⟩

theorem isDigit_ofNat {n : Nat} (h : n < 10) : isDigit (UInt8.ofNat (48 + n)) = true := by
  have hall : ∀ n : Fin 10, isDigit (UInt8.ofNat (48 + n.val)) = true := by decide
  exact hall ⟨n, h⟩

theorem toNat_digit {n : Nat} (h : n < 10) : (UInt8.ofNat (48 + n)).toNat = 48 + n := by
  rw [UInt8.toNat_ofNat', Nat.mod_eq_of_lt (by omega)]

/-- The digits of a positive number do not start with a zero. -/
theorem intPart_repr_pos {n : Nat} (h : 0 < n) : IntPart (utf8 (Nat.repr n)) .any1 := by
  induction n using Nat.strong_induction_on with
  | _ n ih =>
      by_cases hn : n < 10
      · rw [utf8_repr_digit hn]
        refine .digits (isDigit_ofNat hn) ?_ (by simp)
        rw [Ne, ← UInt8.toNat_inj, toNat_digit hn]
        show ¬ 48 + n = 48
        omega
      · have hmod := Nat.mod_lt n (show 0 < 10 by decide)
        rw [utf8_repr_step (by omega), utf8_repr_digit hmod]
        generalize hbytes : utf8 (Nat.repr (n / 10)) = bytes
        have hpart := ih (n / 10) (by omega) (by omega)
        rw [hbytes] at hpart
        cases hpart with
        | digits hd hzero hds =>
            refine .digits hd hzero ?_
            intro b hb
            obtain hb | hb := List.mem_append.mp hb
            · exact hds b hb
            · rw [List.mem_singleton.mp hb]
              exact isDigit_ofNat hmod

theorem exists_intPart_repr (n : Nat) : ∃ state, IntPart (utf8 (Nat.repr n)) state := by
  obtain rfl | hn := Nat.eq_zero_or_pos n
  · exact ⟨.zero, .zero⟩
  · exact ⟨.any1, intPart_repr_pos hn⟩

theorem digitsValue_repr (n : Nat) : digitsValue (utf8 (Nat.repr n)) = n := by
  induction n using Nat.strong_induction_on with
  | _ n ih =>
      by_cases hn : n < 10
      · rw [utf8_repr_digit hn]
        show 10 * 0 + ((UInt8.ofNat (48 + n)).toNat - 48) = n
        rw [toNat_digit hn]
        omega
      · have hmod := Nat.mod_lt n (show 0 < 10 by decide)
        rw [utf8_repr_step (by omega), utf8_repr_digit hmod, digitsValue_append,
          ih (n / 10) (by omega), toNat_digit hmod]
        omega

end Json
end YoloServer

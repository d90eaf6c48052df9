import YoloServer.Json.Lexer
import Mathlib.Data.List.Forall2

/-!
# String literals

`Spells c unit` lists the ways to write the character `c` inside a string literal: as its
bytes, as an escape of two characters, as `\u` with four digits, or as a pair of surrogates.
`scanString_iff` says that `scan_string` reads exactly these spellings and yields the
string they stand for.

The first section compares the table of the bytes that may follow each other in
`scan_string`, and the bytes that it writes for a code point, with the encoding of a
character.
-/

namespace YoloServer
namespace Json

/-! ## The bytes of a character -/

/-- A byte of a range of `next_byte_in_range`. -/
def InRange (b : UInt8) (range : UInt8 × UInt8) : Prop :=
  range.1 ≤ b ∧ b ≤ range.2

theorem nextByteInRange_iff (ranges : List (UInt8 × UInt8)) (text bytes rest : List UInt8) :
    nextByteInRange ranges text = some (bytes, rest) ↔
      text = bytes ++ rest ∧ List.Forall₂ InRange bytes ranges := by
  induction ranges generalizing text bytes with
  | nil => 
      simp only [nextByteInRange, Option.some.injEq, Prod.mk.injEq, List.forall₂_nil_right_iff]
      constructor
      · rintro ⟨rfl, rfl⟩
        exact ⟨rfl, rfl⟩
      · rintro ⟨rfl, rfl⟩
        exact ⟨rfl, rfl⟩
  | cons range ranges ih =>
      obtain ⟨low, high⟩ := range
      rw [List.forall₂_cons_right_iff]
      cases text with
      | nil =>
          simp only [nextByteInRange, reduceCtorEq, false_iff]
          rintro ⟨htext, b, bytes', -, -, rfl⟩
          simp at htext
      | cons b text =>
          rw [nextByteInRange]
          constructor
          · intro h
            split_ifs at h with hb
            cases hrec : nextByteInRange ranges text with
            | none => simp [hrec] at h
            | some result =>
                obtain ⟨bytes', rest'⟩ := result
                rw [hrec] at h
                cases h
                obtain ⟨rfl, hall⟩ := (ih _ _).mp hrec
                exact ⟨rfl, b, bytes', hb, hall, rfl⟩
          · rintro ⟨htext, b', bytes', hb, hall, rfl⟩
            rw [List.cons_append, List.cons.injEq] at htext
            obtain ⟨rfl, htext⟩ := htext
            rw [if_pos ⟨hb.1, hb.2⟩, (ih _ _).mpr ⟨htext, hall⟩]

/-- The bytes of a code point, as numbers. -/
def encodeNat (v : Nat) : List Nat :=
  if v ≤ 0x7F then [v]
  else if v ≤ 0x7FF then [v / 64 + 0xC0, v % 64 + 0x80]
  else if v ≤ 0xFFFF then [v / 4096 + 0xE0, v / 64 % 64 + 0x80, v % 64 + 0x80]
  else [v / 262144 + 0xF0, v / 4096 % 64 + 0x80, v / 64 % 64 + 0x80, v % 64 + 0x80]

theorem toNat_lt (c : Char) : c.toNat < 0xD800 ∨ 0xDFFF < c.toNat ∧ c.toNat < 0x110000 := 
  c.valid

theorem encodeChar_eq (c : Char) :
    String.utf8EncodeChar c = (encodeNat c.toNat).map UInt8.ofNat := by
  have hlt := toNat_lt c
  simp only [String.utf8EncodeChar, encodeNat, Char.toNat] at hlt ⊢
  generalize c.val.toNat = v at hlt
  by_cases h₁ : v ≤ 0x7F
  · simp only [h₁, if_true, List.map]
  by_cases h₂ : v ≤ 0x7FF
  · simp only [h₁, h₂, if_true, if_false, List.map]
    rw [Nat.mod_eq_of_lt (a := v / 64) (by omega)]
  by_cases h₃ : v ≤ 0xFFFF
  · simp only [h₁, h₂, h₃, if_true, if_false, List.map]
    rw [Nat.mod_eq_of_lt (a := v / 4096) (by omega)]
  · simp only [h₁, h₂, h₃, if_false, List.map]
    rw [Nat.mod_eq_of_lt (a := v / 262144) (by omega)]

theorem exists_char {v : Nat} (h : v < 0xD800 ∨ 0xDFFF < v ∧ v < 0x110000) :
    ∃ c : Char, c.toNat = v :=
  ⟨Char.ofNatAux v h, rfl⟩

theorem map_ofNat_eq {ns : List Nat} {bytes : List UInt8} (h : ns = bytes.map UInt8.toNat) :
    ns.map UInt8.ofNat = bytes := by
  rw [h, List.map_map, List.map_congr_left (g := id), List.map_id]
  intro b _
  exact UInt8.ofNat_toNat

theorem encodeNat_two {a b : Nat} (ha : 0xC2 ≤ a ∧ a ≤ 0xDF) (hb : 0x80 ≤ b ∧ b ≤ 0xBF) :
    encodeNat ((a - 0xC0) * 64 + (b - 0x80)) = [a, b] := by
  rw [encodeNat, if_neg (by omega), if_pos (by omega)]
  simp only [List.cons.injEq, and_true]
  omega

theorem encodeNat_three {a b c : Nat} (ha : 0xE0 ≤ a ∧ a ≤ 0xEF) (hb : 0x80 ≤ b ∧ b ≤ 0xBF)
    (hc : 0x80 ≤ c ∧ c ≤ 0xBF) (hlow : a = 0xE0 → 0xA0 ≤ b) :
    encodeNat ((a - 0xE0) * 4096 + (b - 0x80) * 64 + (c - 0x80)) = [a, b, c] := by
  rw [encodeNat, if_neg (by omega), if_neg (by omega), if_pos (by omega)]
  simp only [List.cons.injEq, and_true]
  omega

theorem encodeNat_four {a b c d : Nat} (ha : 0xF0 ≤ a ∧ a ≤ 0xF4) (hb : 0x80 ≤ b ∧ b ≤ 0xBF)
    (hc : 0x80 ≤ c ∧ c ≤ 0xBF) (hd : 0x80 ≤ d ∧ d ≤ 0xBF) (hlow : a = 0xF0 → 0x90 ≤ b) :
    encodeNat ((a - 0xF0) * 262144 + (b - 0x80) * 4096 + (c - 0x80) * 64 + (d - 0x80)) =
      [a, b, c, d] := by
  rw [encodeNat, if_neg (by omega), if_neg (by omega), if_neg (by omega)]
  simp only [List.cons.injEq, and_true]
  omega

/-- The range of the second byte of a character of three or four bytes. -/
def second (lead : UInt8) : UInt8 × UInt8 :=
  (if lead = 0xE0 then 0xA0 else if lead = 0xF0 then 0x90 else 0x80,
    if lead = 0xED then 0x9F else if lead = 0xF4 then 0x8F else 0xBF)

theorem inRange_tail {b : UInt8} :
    InRange b (0x80, 0xBF) ↔ 0x80 ≤ b.toNat ∧ b.toNat ≤ 0xBF := by
  simp only [InRange, UInt8.le_iff_toNat_le, UInt8.reduceToNat]

theorem inRange_second {lead b : UInt8} :
    InRange b (second lead) ↔
      (0x80 ≤ b.toNat ∧ b.toNat ≤ 0xBF) ∧
        (lead.toNat = 0xE0 → 0xA0 ≤ b.toNat) ∧ (lead.toNat = 0xF0 → 0x90 ≤ b.toNat) ∧
        (lead.toNat = 0xED → b.toNat ≤ 0x9F) ∧ (lead.toNat = 0xF4 → b.toNat ≤ 0x8F) := by
  simp only [InRange, second, UInt8.le_iff_toNat_le, ← UInt8.toNat_inj, apply_ite UInt8.toNat,
    UInt8.reduceToNat]
  split_ifs
  all_goals omega

/-- The table of the first bytes, by the number of the bytes that follow. -/
theorem following_iff {lead : UInt8} {ranges : List (UInt8 × UInt8)} :
    following lead = some ranges ↔
      (lead.toNat ≤ 0x7F ∧ ranges = []) ∨
      ((0xC2 ≤ lead.toNat ∧ lead.toNat ≤ 0xDF) ∧ ranges = [(0x80, 0xBF)]) ∨
      ((0xE0 ≤ lead.toNat ∧ lead.toNat ≤ 0xEF) ∧ ranges = [second lead, (0x80, 0xBF)]) ∨
      ((0xF0 ≤ lead.toNat ∧ lead.toNat ≤ 0xF4) ∧
        ranges = [second lead, (0x80, 0xBF), (0x80, 0xBF)]) := by
  simp only [following, second, UInt8.le_iff_toNat_le, ← UInt8.toNat_inj, UInt8.reduceToNat]
  split_ifs
  all_goals grind

theorem exists_char_of_following {lead : UInt8} {ranges : List (UInt8 × UInt8)}
    {bytes : List UInt8} (hlead : following lead = some ranges)
    (hbytes : List.Forall₂ InRange bytes ranges) :
    ∃ c, String.utf8EncodeChar c = lead :: bytes := by
  suffices h : ∃ v, (v < 0xD800 ∨ 0xDFFF < v ∧ v < 0x110000) ∧
      encodeNat v = (lead :: bytes).map UInt8.toNat by
    obtain ⟨v, hv, hcode⟩ := h
    obtain ⟨c, rfl⟩ := exists_char hv
    exact ⟨c, by rw [encodeChar_eq, map_ofNat_eq hcode]⟩
  obtain ⟨h, rfl⟩ | ⟨h, rfl⟩ | ⟨h, rfl⟩ | ⟨h, rfl⟩ := following_iff.mp hlead
  all_goals
    simp only [List.forall₂_cons_right_iff, List.forall₂_nil_right_iff, inRange_tail,
      inRange_second] at hbytes
  · subst hbytes
    refine ⟨lead.toNat, by omega, ?_⟩
    rw [encodeNat, if_pos h]
    rfl
  · obtain ⟨b, _, hb, rfl, rfl⟩ := hbytes
    exact ⟨_, by omega, encodeNat_two h hb⟩
  · obtain ⟨b, _, ⟨hb, hsecond⟩, ⟨c, _, hc, rfl, rfl⟩, rfl⟩ := hbytes
    exact ⟨_, by omega, encodeNat_three h hb hc hsecond.1⟩
  · obtain ⟨b, _, ⟨hb, hsecond⟩, ⟨c, _, hc, ⟨d, _, hd, rfl, rfl⟩, rfl⟩, rfl⟩ := hbytes
    exact ⟨_, by omega, encodeNat_four h hb hc hd hsecond.2.1⟩

theorem toNat_ofNat {n : Nat} (h : n < 256) : (UInt8.ofNat n).toNat = n := by
  rw [UInt8.toNat_ofNat', Nat.mod_eq_of_lt h]

theorem following_of_char {lead : UInt8} {bytes : List UInt8} {c : Char}
    (hc : String.utf8EncodeChar c = lead :: bytes) :
    ∃ ranges, following lead = some ranges ∧ List.Forall₂ InRange bytes ranges := by
  have hlt := toNat_lt c
  simp only [following_iff, or_and_right, exists_or, and_assoc, exists_and_left, exists_eq_left]
  rw [encodeChar_eq, encodeNat] at hc
  generalize c.toNat = v at hlt hc
  split_ifs at hc with h₁ h₂ h₃
  · cases hc
    left
    rw [toNat_ofNat (by omega)]
    exact ⟨h₁, .nil⟩
  · cases hc
    right; left
    rw [toNat_ofNat (by omega)]
    refine ⟨by omega, by omega, .cons ?_ .nil⟩
    rw [inRange_tail, toNat_ofNat (by omega)]
    omega
  · cases hc
    right; right; left
    rw [toNat_ofNat (by omega)]
    refine ⟨by omega, by omega, .cons ?_ (.cons ?_ .nil)⟩
    · rw [inRange_second, toNat_ofNat (by omega), toNat_ofNat (by omega)]
      omega
    · rw [inRange_tail, toNat_ofNat (by omega)]
      omega
  · cases hc
    right; right; right
    rw [toNat_ofNat (by omega)]
    refine ⟨by omega, by omega, .cons ?_ (.cons ?_ (.cons ?_ .nil))⟩
    · rw [inRange_second, toNat_ofNat (by omega), toNat_ofNat (by omega)]
      omega
    · rw [inRange_tail, toNat_ofNat (by omega)]
      omega
    · rw [inRange_tail, toNat_ofNat (by omega)]
      omega

theorem or_shift {v k n : Nat} (h : v < 2 ^ k) : (2 ^ k * n) ||| v = v + 2 ^ k * n := by
  rw [Nat.add_comm, Nat.two_pow_add_eq_or_of_lt h]

theorem codepointBytes_toNat (c : Char) : codepointBytes c.toNat = String.utf8EncodeChar c := by
  have hlt := toNat_lt c
  rw [encodeChar_eq, codepointBytes, encodeNat]
  generalize c.toNat = v at hlt
  have hor6 : ∀ n, 0x80 ||| (n &&& 0x3F) = n % 64 + 0x80 := by
    intro n
    rw [Nat.and_two_pow_sub_one_eq_mod n 6]
    exact or_shift (k := 6) (n := 2) (by omega)
  simp only [hor6, Nat.shiftRight_eq_div_pow]
  by_cases h₁ : v ≤ 0x7F
  · rw [if_pos (by omega), if_pos h₁]
    rfl
  rw [if_neg (by omega), if_neg h₁]
  by_cases h₂ : v ≤ 0x7FF
  · rw [if_pos h₂, if_pos h₂, show 0xC0 ||| v / 2 ^ 6 = v / 64 + 0xC0 from
      or_shift (k := 5) (n := 6) (by omega)]
    rfl
  rw [if_neg h₂, if_neg h₂]
  by_cases h₃ : v ≤ 0xFFFF
  · rw [if_pos h₃, if_pos h₃, show 0xE0 ||| v / 2 ^ 12 = v / 4096 + 0xE0 from
      or_shift (k := 4) (n := 14) (by omega)]
    rfl
  · rw [if_neg h₃, if_neg h₃, show 0xF0 ||| v / 2 ^ 18 = v / 262144 + 0xF0 from
      or_shift (k := 3) (n := 30) (by omega)]
    rfl

/-! ## Escapes -/

/-- The four digits of a number, in either case. -/
inductive Hex4 : List UInt8 → Nat → Prop where
  | mk {a b c d : UInt8} {w x y z : Nat} (ha : hexValue a = some w) (hb : hexValue b = some x)
      (hc : hexValue c = some y) (hd : hexValue d = some z) :
      Hex4 [a, b, c, d] (w * 0x1000 + x * 0x100 + y * 0x10 + z)

theorem codepointLoop_cons_iff {factor n codepoint : Nat} {factors : List Nat}
    {text rest : List UInt8} :
    codepointLoop (factor :: factors) codepoint text = some (n, rest) ↔
      ∃ b digit text', text = b :: text' ∧ hexValue b = some digit ∧
        codepointLoop factors (codepoint + digit * 2 ^ factor) text' = some (n, rest) := by
  cases text with
  | nil => simp [codepointLoop]
  | cons b text =>
      rw [codepointLoop]
      cases hb : hexValue b with
      | none => simp [hb]
      | some digit => simp [hb]

theorem getCodepoint_iff {text rest : List UInt8} {n : Nat} :
    getCodepoint text = some (n, rest) ↔ ∃ digits, text = digits ++ rest ∧ Hex4 digits n := by
  simp only [getCodepoint, codepointLoop_cons_iff]
  constructor
  · rintro ⟨a, w, _, rfl, ha, b, x, _, rfl, hb, c, y, _, rfl, hc, d, z, _, rfl, hd, h⟩
    rw [codepointLoop, Option.some.injEq, Prod.mk.injEq] at h
    obtain ⟨rfl, rfl⟩ := h
    refine ⟨[a, b, c, d], rfl, ?_⟩
    convert Hex4.mk ha hb hc hd using 1
    ring
  · rintro ⟨_, rfl, ⟨ha, hb, hc, hd⟩⟩
    refine ⟨_, _, _, rfl, ha, _, _, _, rfl, hb, _, _, _, rfl, hc, _, _, _, rfl, hd, ?_⟩
    show some (_, rest) = some (_, rest)
    congr 2
    ring

theorem hexValue_lt {b : UInt8} {n : Nat} (h : hexValue b = some n) : n < 16 := by
  simp only [hexValue, UInt8.le_iff_toNat_le, UInt8.reduceToNat] at h
  split_ifs at h <;> cases h <;> omega

theorem Hex4.lt {digits : List UInt8} {n : Nat} (h : Hex4 digits n) : n < 0x10000 := by
  obtain ⟨ha, hb, hc, hd⟩ := h
  have := hexValue_lt ha
  have := hexValue_lt hb
  have := hexValue_lt hc
  have := hexValue_lt hd
  omega

/-- What may follow `\u`: a character below `U+10000` that is no surrogate, or a pair of
surrogates. -/
inductive Unicode : Char → List UInt8 → Prop where
  | single {c : Char} {digits : List UInt8} (h : Hex4 digits c.toNat) : Unicode c digits
  | pair {c : Char} {digits₁ digits₂ : List UInt8} {high low : Nat} (h₁ : Hex4 digits₁ high)
      (h₂ : Hex4 digits₂ low) (hhigh : 0xD800 ≤ high ∧ high ≤ 0xDBFF)
      (hlow : 0xDC00 ≤ low ∧ low ≤ 0xDFFF)
      (hc : c.toNat = 0x10000 + (high - 0xD800) * 0x400 + (low - 0xDC00)) :
      Unicode c (digits₁ ++ 92 :: 117 :: digits₂)

/-- The ways to write a character inside a string literal. -/
inductive Spells : Char → List UInt8 → Prop where
  | plain {c : Char} (hcontrol : 0x20 ≤ c.toNat) (hquote : c.toNat ≠ 34)
      (hbackslash : c.toNat ≠ 92) : Spells c (String.utf8EncodeChar c)
  | short {c : Char} {b x : UInt8} (h : shortEscape b = some x) (hc : c.toNat = x.toNat) :
      Spells c [92, b]
  | unicode {c : Char} {text : List UInt8} (h : Unicode c text) : Spells c (92 :: 117 :: text)

theorem scanUnicode_of_unicode {c : Char} {text : List UInt8} (h : Unicode c text)
    (rest : List UInt8) :
    scanUnicode (text ++ rest) = some (String.utf8EncodeChar c, rest) := by
  cases h with
  | single h =>
      have hlt := toNat_lt c
      have hbound := h.lt
      rw [scanUnicode, getCodepoint_iff.mpr ⟨text, rfl, h⟩]
      show (if _ then _ else if _ then none else some (codepointBytes c.toNat, rest)) = _
      rw [if_neg (by omega), if_neg (by omega), codepointBytes_toNat]
  | @pair digits₁ digits₂ high low h₁ h₂ hhigh hlow hc =>
      have hfirst : getCodepoint (digits₁ ++ 92 :: 117 :: digits₂ ++ rest) =
          some (high, 92 :: 117 :: (digits₂ ++ rest)) :=
        getCodepoint_iff.mpr ⟨digits₁, by simp, h₁⟩
      have hnoise : high * 2 ^ 10 + low - 0x35FDC00 = c.toNat := by omega
      rw [scanUnicode, hfirst]
      show (if _ then _ else _) = _
      rw [if_pos hhigh]
      simp only [getCodepoint_iff.mpr ⟨digits₂, rfl, h₂⟩, if_pos hlow, hnoise,
        codepointBytes_toNat]

theorem unicode_of_scanUnicode {text bytes rest : List UInt8}
    (h : scanUnicode text = some (bytes, rest)) :
    ∃ c unit, Unicode c unit ∧ text = unit ++ rest ∧ bytes = String.utf8EncodeChar c := by
  rw [scanUnicode] at h
  cases hfirst : getCodepoint text with
  | none => simp [hfirst] at h
  | some result =>
      obtain ⟨codepoint₁, text'⟩ := result
      obtain ⟨digits₁, rfl, h₁⟩ := getCodepoint_iff.mp hfirst
      have hbound := h₁.lt
      simp only [hfirst] at h
      split_ifs at h with hhigh hlow
      · split at h
        next text' =>
          cases hsecond : getCodepoint text' with
          | none => simp [hsecond] at h
          | some result =>
              obtain ⟨codepoint₂, text''⟩ := result
              obtain ⟨digits₂, rfl, h₂⟩ := getCodepoint_iff.mp hsecond
              simp only [hsecond] at h
              split_ifs at h with hlow
              rw [Option.some.injEq, Prod.mk.injEq] at h
              obtain ⟨rfl, rfl⟩ := h
              obtain ⟨c, hc⟩ := exists_char
                (v := 0x10000 + (codepoint₁ - 0xD800) * 0x400 + (codepoint₂ - 0xDC00)) (by omega)
              have hnoise : codepoint₁ * 2 ^ 10 + codepoint₂ - 0x35FDC00 = c.toNat := by omega
              refine ⟨c, _, .pair h₁ h₂ hhigh hlow hc, by simp, ?_⟩
              rw [hnoise, codepointBytes_toNat]
        next => simp at h
      · cases h
        obtain ⟨c, hc⟩ := exists_char (v := codepoint₁) (by omega)
        refine ⟨c, _, .single (hc ▸ h₁), rfl, ?_⟩
        rw [← codepointBytes_toNat, hc]

/-! ## One character -/

/-- The first byte of a character tells whether it is an ASCII character, and which one. -/
theorem lead_cases {lead : UInt8} {bytes : List UInt8} {c : Char}
    (hc : String.utf8EncodeChar c = lead :: bytes) :
    c.toNat ≤ 0x7F ∧ lead.toNat = c.toNat ∨ 0x7F < c.toNat ∧ 0x80 ≤ lead.toNat := by
  have hlt := toNat_lt c
  rw [encodeChar_eq, encodeNat] at hc
  split_ifs at hc with h₁ h₂ h₃
  all_goals
    rw [List.map_cons, List.cons.injEq] at hc
    rw [← hc.1, toNat_ofNat (by omega)]
    omega

/-- An ASCII character is one byte. -/
theorem encodeChar_ascii {c : Char} {b : UInt8} (hc : c.toNat = b.toNat) (hb : b.toNat ≤ 0x7F) :
    String.utf8EncodeChar c = [b] := by
  rw [encodeChar_eq, encodeNat, if_pos (by omega), hc]
  exact map_ofNat_eq (show [b.toNat] = [b].map UInt8.toNat from rfl)

theorem shortEscape_le {b x : UInt8} (h : shortEscape b = some x) : x.toNat ≤ 0x7F := by
  rw [shortEscape] at h
  split_ifs at h
  all_goals
    cases h
    decide

theorem spells_of_scanEscape {text bytes rest : List UInt8}
    (h : scanEscape text = some (bytes, rest)) :
    ∃ c unit, Spells c (92 :: unit) ∧ text = unit ++ rest ∧ bytes = String.utf8EncodeChar c := by
  cases text with
  | nil => simp [scanEscape] at h
  | cons b text =>
      rw [scanEscape] at h
      split_ifs at h with hu
      · subst hu
        obtain ⟨c, unit, hunit, rfl, rfl⟩ := unicode_of_scanUnicode h
        exact ⟨c, _, .unicode hunit, rfl, rfl⟩
      · cases hshort : shortEscape b with
        | none => simp [hshort] at h
        | some x =>
            simp only [hshort, Option.some.injEq, Prod.mk.injEq] at h
            obtain ⟨rfl, rfl⟩ := h
            have hx := shortEscape_le hshort
            obtain ⟨c, hc⟩ := exists_char (v := x.toNat) (by omega)
            refine ⟨c, _, .short hshort hc, rfl, ?_⟩
            rw [encodeChar_ascii hc hx]

theorem stringStep_of_spells {c : Char} {unit : List UInt8} (h : Spells c unit)
    (rest buffer : List UInt8) :
    stringStep (unit ++ rest, buffer) = .inl (rest, buffer ++ String.utf8EncodeChar c) := by
  cases h with
  | plain hcontrol hquote hbackslash =>
      obtain ⟨lead, bytes, hc⟩ : ∃ lead bytes, String.utf8EncodeChar c = lead :: bytes :=
        List.exists_cons_of_ne_nil (by
          rw [← List.length_pos_iff_ne_nil, String.length_utf8EncodeChar]
          exact Char.utf8Size_pos c)
      obtain ⟨ranges, hranges, hbytes⟩ := following_of_char hc
      have hlead := lead_cases hc
      rw [hc, List.cons_append, stringStep, if_neg, if_neg, if_neg, hranges]
      · simp only [(nextByteInRange_iff ranges (bytes ++ rest) bytes rest).mpr ⟨rfl, hbytes⟩]
      · simp only [UInt8.lt_iff_toNat_lt, UInt8.reduceToNat]
        omega
      · rintro rfl
        simp only [UInt8.reduceToNat] at hlead
        omega
      · rintro rfl
        simp only [UInt8.reduceToNat] at hlead
        omega
  | @short b x h hc =>
      have hu : b ≠ 117 := by
        rintro rfl
        simp [shortEscape] at h
      rw [encodeChar_ascii hc (shortEscape_le h)]
      simp [stringStep, scanEscape, hu, h]
  | unicode h =>
      simp [stringStep, scanEscape, scanUnicode_of_unicode h]

theorem spells_of_stringStep {text buffer rest buffer' : List UInt8}
    (h : stringStep (text, buffer) = .inl (rest, buffer')) :
    ∃ c unit, Spells c unit ∧ text = unit ++ rest ∧ 
      buffer' = buffer ++ String.utf8EncodeChar c := by
  cases text with
  | nil => simp [stringStep] at h
  | cons b text =>
      rw [stringStep] at h
      split_ifs at h with hquote hbackslash hcontrol
      · subst hbackslash
        cases hescape : scanEscape text with
        | none => simp [hescape] at h
        | some result =>
            obtain ⟨bytes, rest'⟩ := result
            simp only [hescape, Sum.inl.injEq, Prod.mk.injEq] at h
            obtain ⟨rfl, rfl⟩ := h
            obtain ⟨c, unit, hunit, rfl, rfl⟩ := spells_of_scanEscape hescape
            exact ⟨c, _, hunit, rfl, rfl⟩
      · cases hranges : following b with
        | none => simp [hranges] at h
        | some ranges =>
            cases hnext : nextByteInRange ranges text with
            | none => simp [hranges, hnext] at h
            | some result =>
                obtain ⟨bytes, rest'⟩ := result
                simp only [hranges, hnext, Sum.inl.injEq, Prod.mk.injEq] at h
                obtain ⟨rfl, rfl⟩ := h
                obtain ⟨rfl, hbytes⟩ := (nextByteInRange_iff _ _ _ _).mp hnext
                obtain ⟨c, hc⟩ := exists_char_of_following hranges hbytes
                have hlead := lead_cases hc
                simp only [UInt8.lt_iff_toNat_lt, ← UInt8.toNat_inj, UInt8.reduceToNat]
                  at hcontrol hquote hbackslash
                refine ⟨c, _, .plain (by omega) (by omega) (by omega), ?_, ?_⟩
                · rw [hc, List.cons_append]
                · rw [hc]

/-! ## The literal -/

/-- A text that stands for these characters inside a string literal. -/
inductive Spelling : List Char → List UInt8 → Prop where
  | nil : Spelling [] []
  | cons {c : Char} {cs : List Char} {unit text : List UInt8} (h : Spells c unit)
      (hrest : Spelling cs text) : Spelling (c :: cs) (unit ++ text)

theorem Spells.length_pos {c : Char} {unit : List UInt8} (h : Spells c unit) :
    0 < unit.length := by
  cases h with
  | plain _ _ _ =>
      rw [String.length_utf8EncodeChar]
      exact Char.utf8Size_pos c
  | short _ _ => exact Nat.succ_pos _
  | unicode _ => exact Nat.succ_pos _

theorem shrinks_stringStep : Lib.Shrinks stringStep fun state => state.1.length := by
  rintro ⟨text, buffer⟩ ⟨rest, buffer'⟩ hstep
  obtain ⟨c, unit, hunit, rfl, -⟩ := spells_of_stringStep hstep
  have hpos := hunit.length_pos
  simp only [List.length_append]
  omega

theorem stringStep_quote (rest buffer : List UInt8) :
    stringStep (34 :: rest, buffer) = .inr (some (buffer, rest)) :=
  rfl

/-- The loop ends well at a quotation mark only. -/
theorem quote_of_stringStep {text buffer result rest : List UInt8}
    (h : stringStep (text, buffer) = .inr (some (result, rest))) :
    text = 34 :: rest ∧ result = buffer := by
  cases text with
  | nil => simp [stringStep] at h
  | cons b text =>
      rw [stringStep] at h
      split_ifs at h with hquote hbackslash hcontrol
      · simp only [Sum.inr.injEq, Option.some.injEq, Prod.mk.injEq] at h
        obtain ⟨rfl, rfl⟩ := h
        exact ⟨by rw [hquote], rfl⟩
      · cases hescape : scanEscape text with
        | none => simp [hescape] at h
        | some result => simp [hescape] at h
      · simp at h
      · cases hranges : following b with
        | none => simp [hranges] at h
        | some ranges =>
            cases hnext : nextByteInRange ranges text with
            | none => simp [hranges, hnext] at h
            | some result => simp [hranges, hnext] at h

/-- The bytes of the characters of a string. -/
theorem utf8_ofList (cs : List Char) :
    utf8 (String.ofList cs) = cs.flatMap String.utf8EncodeChar := by
  simp only [utf8, String.toByteArray_ofList, List.utf8Encode, List.data_toByteArray]

theorem ofUtf8_utf8 (s : String) : ofUtf8 (utf8 s) = some s := by
  have hbytes : (⟨(utf8 s).toArray⟩ : ByteArray) = s.toByteArray := rfl
  rw [ofUtf8, String.fromUTF8?, hbytes, dif_pos s.isValidUTF8]
  rfl

theorem stringLoop_iff {text buffer result rest : List UInt8} :
    Lib.loop stringStep (fun state => state.1.length) (text, buffer) = some (result, rest) ↔
      ∃ cs body, Spelling cs body ∧ text = body ++ 34 :: rest ∧
        result = buffer ++ cs.flatMap String.utf8EncodeChar := by
  constructor
  · intro h
    refine Lib.loop_induction (P := fun (state : List UInt8 × List UInt8) output =>
      ∃ cs body, Spelling cs body ∧ state.1 = body ++ 34 :: output.2 ∧
        output.1 = state.2 ++ cs.flatMap String.utf8EncodeChar) shrinks_stringStep ?_ ?_ h
    · rintro ⟨text, buffer⟩ ⟨result, rest⟩ hstep
      obtain ⟨rfl, rfl⟩ := quote_of_stringStep hstep
      exact ⟨[], [], .nil, rfl, by simp⟩
    · rintro ⟨text, buffer⟩ ⟨text', buffer'⟩ ⟨result, rest⟩ hstep ⟨cs, body, hbody, htext, hresult⟩
      obtain ⟨c, unit, hunit, rfl, rfl⟩ := spells_of_stringStep hstep
      refine ⟨c :: cs, unit ++ body, .cons hunit hbody, ?_, ?_⟩
      · simp only at htext
        rw [htext, List.append_assoc]
      · simp only at hresult
        rw [hresult, List.flatMap_cons, List.append_assoc]
  · rintro ⟨cs, body, hbody, rfl, rfl⟩
    induction hbody generalizing buffer with
    | nil =>
        rw [List.nil_append, Lib.loop_of_leave shrinks_stringStep (stringStep_quote _ _)]
        simp
    | cons hunit _ ih =>
        rw [List.append_assoc, Lib.loop_of_again shrinks_stringStep (stringStep_of_spells hunit _ _),
          ih, List.flatMap_cons, List.append_assoc]

/-- `scan_string` reads exactly the texts that spell a string, up to the quotation mark that
ends the literal.  In particular its buffer always holds well-formed UTF-8. -/
theorem scanString_iff {text buffer rest : List UInt8} :
    scanString text = some (buffer, rest) ↔
      ∃ s body, buffer = utf8 s ∧ Spelling s.toList body ∧ text = body ++ 34 :: rest := by
  rw [scanString, stringLoop_iff]
  constructor
  · rintro ⟨cs, body, hbody, htext, hbuffer⟩
    refine ⟨String.ofList cs, body, ?_, ?_, htext⟩
    · rw [utf8_ofList, hbuffer, List.nil_append]
    · rw [String.toList_ofList]
      exact hbody
  · rintro ⟨s, body, rfl, hbody, htext⟩
    refine ⟨s.toList, body, hbody, htext, ?_⟩
    rw [List.nil_append, ← utf8_ofList, String.ofList_toList]

end Json
end YoloServer

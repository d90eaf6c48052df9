import YoloServer.Json.Grammar

/-!
# A null byte ends the text

`scan` treats a null byte like the end of the input, so `json::parse` does not look at what comes
after it: `parse_null` holds for every text and everything that may follow.
A message of the server carries its length, and such bytes can be sent.

The proof moves a derivation of the grammar from one text to the other.  A token does not
contain a null byte, and whether a number ends depends on the next byte only.
-/

namespace YoloServer
namespace Json

/-! ## Tokens contain no null byte -/

theorem split_of_no_null {body rest text junk : List UInt8} (hbody : 0 ∉ body)
    (h : body ++ rest = text ++ 0 :: junk) :
    ∃ rest', text = body ++ rest' ∧ rest = rest' ++ 0 :: junk := by
  obtain ⟨rest', htext, hrest⟩ | ⟨tail, hbody', htail⟩ := List.append_eq_append_iff.mp h
  · exact ⟨rest', htext, hrest⟩
  · cases tail with
    | nil => exact ⟨[], by simpa using hbody'.symm, htail.symm⟩
    | cons b tail =>
        cases htail
        exact absurd (by rw [hbody']; simp) hbody

theorem hexValue_ne_null {b : UInt8} {n : Nat} (h : hexValue b = some n) : b ≠ 0 := by
  rintro rfl
  cases h

theorem Hex4.no_null {digits : List UInt8} {n : Nat} (h : Hex4 digits n) : 0 ∉ digits := by
  obtain ⟨ha, hb, hc, hd⟩ := h
  simp [(hexValue_ne_null ha).symm, (hexValue_ne_null hb).symm, (hexValue_ne_null hc).symm,
    (hexValue_ne_null hd).symm]

theorem encodeChar_no_null {c : Char} (h : c.toNat ≠ 0) : 0 ∉ String.utf8EncodeChar c := by
  have hlt := toNat_lt c
  rw [encodeChar_eq, List.mem_map]
  rintro ⟨n, hn, hzero⟩
  have hmod : n % 2 ^ 8 = 0 := by
    rw [← UInt8.toNat_ofNat', hzero]
    rfl
  rw [encodeNat] at hn
  split_ifs at hn
  all_goals
    simp only [List.mem_cons, List.not_mem_nil, or_false] at hn
    omega

theorem Spells.no_null {c : Char} {unit : List UInt8} (h : Spells c unit) : 0 ∉ unit := by
  cases h with
  | plain hcontrol _ _ => exact encodeChar_no_null (by omega)
  | @short b x hshort _ =>
      have hb : b ≠ 0 := by
        rintro rfl
        cases hshort
      simp [hb.symm]
  | unicode h =>
      cases h with
      | single h => simp [h.no_null]
      | pair h₁ h₂ _ _ _ => simp [h₁.no_null, h₂.no_null]

theorem Spelling.no_null {cs : List Char} {text : List UInt8} (h : Spelling cs text) :
    0 ∉ text := by
  induction h with
  | nil => simp
  | cons hunit _ ih => simp [hunit.no_null, ih]

theorem NumberState.next_null (state : NumberState) : state.next 0 = none := by
  cases state with
  | _ => rfl

theorem run_no_null {state final : NumberState} {type type' : NumberType} {bytes : List UInt8}
    (h : state.run type bytes = some (final, type')) : 0 ∉ bytes := by
  induction bytes generalizing state type with
  | nil => simp
  | cons b bytes ih =>
      obtain ⟨state', hnext, hrun⟩ := NumberState.run_cons_iff.mp h
      have hb : b ≠ 0 := by
        rintro rfl
        rw [NumberState.next_null] at hnext
        cases hnext
      simp [hb.symm, ih hrun]

theorem Number.no_null {bytes : List UInt8} {type : NumberType} {final : NumberState}
    (h : Number bytes type final) : 0 ∉ bytes := by
  obtain ⟨b, rest, rfl, hb, hrun, -⟩ := run_of_number h
  have hne : b ≠ 0 := by
    rintro rfl
    exact absurd hb (by decide)
  simp [hne.symm, run_no_null hrun]

/-! ## Moving a token -/

variable {D : Type} [Strtod D]

/-- A token is the same before another text, if this starts with the same byte, with a null byte
or not at all. -/
theorem Lexeme.move {text rest : List UInt8} {token : Token D} (h : Lexeme text token rest)
    (htoken : token ≠ .endOfInput) :
    ∃ body, text = body ++ rest ∧ 0 ∉ body ∧
      ∀ rest', (∀ b ∈ rest'.head?, b = 0 ∨ b ∈ rest.head?) → Lexeme (body ++ rest') token rest' := by
  cases h with
  | @structural c _ _ h =>
      have hc : c ≠ 0 := by
        rintro rfl
        cases h
      exact ⟨[c], rfl, by simp [hc.symm], fun _ _ => .structural h⟩
  | @literal c word _ _ h =>
      refine ⟨c :: word, rfl, ?_, fun _ _ => .literal h⟩
      rw [Json.literal] at h
      split_ifs at h with h₁ h₂ h₃ <;> cases h
      · subst h₁
        decide
      · subst h₂
        decide
      · subst h₃
        decide
  | @string s body _ h =>
      refine ⟨34 :: (body ++ [34]), by simp, by simp [h.no_null], fun rest' _ => ?_⟩
      have htext : 34 :: (body ++ [34]) ++ rest' = 34 :: (body ++ 34 :: rest') := by simp
      rw [htext]
      exact .string h
  | @number bytes _ type final h hstops =>
      refine ⟨bytes, rfl, h.no_null, fun rest' hrest' => .number h ?_⟩
      intro b hb
      obtain rfl | hb := hrest' b hb
      · exact NumberState.next_null final
      · exact hstops b hb
  | endOfText => exact absurd rfl htoken
  | nul => exact absurd rfl htoken

theorem Reads.no_null_space {space : List UInt8} (h : ∀ b ∈ space, isWhitespace b = true) :
    0 ∉ space := by
  intro hzero
  exact absurd (h 0 hzero) (by decide)

theorem Reads.extend {text rest : List UInt8} {token : Token D} (h : Reads text token rest)
    (htoken : token ≠ .endOfInput) (junk : List UInt8) :
    Reads (text ++ 0 :: junk) token (rest ++ 0 :: junk) := by
  obtain ⟨space, lexeme, rfl, hspace, hlexeme⟩ := h
  obtain ⟨body, rfl, -, hmove⟩ := hlexeme.move htoken
  refine ⟨space, body ++ (rest ++ 0 :: junk), by simp, hspace, hmove _ ?_⟩
  intro b hb
  cases rest with
  | nil =>
      cases hb
      exact .inl rfl
  | cons c rest => exact .inr hb

theorem Reads.cut {text junk rest : List UInt8} {token : Token D}
    (h : Reads (text ++ 0 :: junk) token rest) (htoken : token ≠ .endOfInput) :
    ∃ rest', rest = rest' ++ 0 :: junk ∧ Reads text token rest' := by
  obtain ⟨space, lexeme, htext, hspace, hlexeme⟩ := h
  obtain ⟨body, rfl, hbody, hmove⟩ := hlexeme.move htoken
  have hnull : 0 ∉ space ++ body := by
    rw [List.mem_append]
    exact fun h => h.elim (Reads.no_null_space hspace) hbody
  rw [← List.append_assoc] at htext
  obtain ⟨rest', rfl, rfl⟩ := split_of_no_null hnull htext.symm
  refine ⟨rest', rfl, space, body ++ rest', List.append_assoc _ _ _, hspace, hmove _ ?_⟩
  intro b hb
  right
  cases rest' with
  | nil => cases hb
  | cons c rest' => exact hb

/-- The end of the input is the end of the text or a null byte. -/
theorem Lexeme.eq_of_endOfInput {text rest : List UInt8}
    (h : Lexeme text (.endOfInput : Token D) rest) : text = [] ∨ ∃ tail, text = 0 :: tail := by
  generalize htoken : (.endOfInput : Token D) = token at h
  cases h with
  | structural h =>
      subst htoken
      rw [Json.structural] at h
      split_ifs at h <;> cases h
  | literal h =>
      subst htoken
      rw [Json.literal] at h
      split_ifs at h <;> cases h
  | string _ => cases htoken
  | @number bytes _ type _ _ _ =>
      obtain ⟨n, -, hn⟩ | ⟨n, -, hn⟩ | ⟨d, hn⟩ := convert_cases (D := D) type bytes
      all_goals
        rw [hn] at htoken
        cases htoken
  | endOfText => exact .inl rfl
  | nul => exact .inr ⟨_, rfl⟩

/-- The end of the input is found in both texts or in none. -/
theorem endOfInput_null_iff {text junk : List UInt8} :
    (∃ rest, Reads (text ++ 0 :: junk) (.endOfInput : Token D) rest) ↔
      ∃ rest, Reads text (.endOfInput : Token D) rest := by
  constructor
  · rintro ⟨rest, space, lexeme, htext, hspace, hlexeme⟩
    obtain ⟨text', rfl, rfl⟩ := split_of_no_null (Reads.no_null_space hspace) htext.symm
    cases text' with
    | nil => exact ⟨[], space, [], rfl, hspace, .endOfText⟩
    | cons b text' =>
        obtain hnil | ⟨tail, htail⟩ := hlexeme.eq_of_endOfInput
        · cases hnil
        · cases htail
          exact ⟨text', space, _, rfl, hspace, .nul⟩
  · rintro ⟨rest, space, lexeme, rfl, hspace, hlexeme⟩
    obtain rfl | ⟨tail, rfl⟩ := hlexeme.eq_of_endOfInput
    · exact ⟨junk, space, 0 :: junk, by simp, hspace, .nul⟩
    · exact ⟨tail ++ 0 :: junk, space, 0 :: (tail ++ 0 :: junk), by simp, hspace, .nul⟩

/-! ## Moving a value -/

variable [IsFinite D]

mutual

theorem Value.extend {text rest : List UInt8} {value : Json D} (junk : List UInt8) :
    Value text value rest → Value (text ++ 0 :: junk) value (rest ++ 0 :: junk)
  | .scalar htoken hvalue =>
      .scalar (htoken.extend (by rintro rfl; cases hvalue) junk) hvalue
  | .emptyArray hbegin hend =>
      .emptyArray (hbegin.extend (by nofun) junk) (hend.extend (by nofun) junk)
  | .array hbegin hitems => .array (hbegin.extend (by nofun) junk) (hitems.extend junk)
  | .emptyObject hbegin hend =>
      .emptyObject (hbegin.extend (by nofun) junk) (hend.extend (by nofun) junk)
  | .object hbegin hmembers => .object (hbegin.extend (by nofun) junk) (hmembers.extend junk)

theorem Items.extend {text rest : List UInt8} {values : List (Json D)} (junk : List UInt8) :
    Items text values rest → Items (text ++ 0 :: junk) values (rest ++ 0 :: junk)
  | .last hvalue hend => .last (hvalue.extend junk) (hend.extend (by nofun) junk)
  | .more hvalue hcomma hitems =>
      .more (hvalue.extend junk) (hcomma.extend (by nofun) junk) (hitems.extend junk)

theorem Members.extend {text rest : List UInt8} {members : List (String × Json D)}
    (junk : List UInt8) :
    Members text members rest → Members (text ++ 0 :: junk) members (rest ++ 0 :: junk)
  | .last hkey hcolon hvalue hend =>
      .last (hkey.extend (by nofun) junk) (hcolon.extend (by nofun) junk) (hvalue.extend junk)
        (hend.extend (by nofun) junk)
  | .more hkey hcolon hvalue hcomma hmembers =>
      .more (hkey.extend (by nofun) junk) (hcolon.extend (by nofun) junk) (hvalue.extend junk)
        (hcomma.extend (by nofun) junk) (hmembers.extend junk)

end

mutual

theorem Value.cut {source rest : List UInt8} {value : Json D} :
    Value source value rest → ∀ {text junk : List UInt8}, source = text ++ 0 :: junk →
      ∃ rest', rest = rest' ++ 0 :: junk ∧ Value text value rest'
  | .scalar htoken hvalue, _, _, hsource => by
      subst hsource
      obtain ⟨rest', rfl, htoken'⟩ := htoken.cut (by rintro rfl; cases hvalue)
      exact ⟨rest', rfl, .scalar htoken' hvalue⟩
  | .emptyArray hbegin hend, _, _, hsource => by
      subst hsource
      obtain ⟨inner, rfl, hbegin'⟩ := hbegin.cut (by nofun)
      obtain ⟨rest', rfl, hend'⟩ := hend.cut (by nofun)
      exact ⟨rest', rfl, .emptyArray hbegin' hend'⟩
  | .array hbegin hitems, _, _, hsource => by
      subst hsource
      obtain ⟨inner, hinner, hbegin'⟩ := hbegin.cut (by nofun)
      obtain ⟨rest', hrest, hitems'⟩ := hitems.cut hinner
      exact ⟨rest', hrest, .array hbegin' hitems'⟩
  | .emptyObject hbegin hend, _, _, hsource => by
      subst hsource
      obtain ⟨inner, rfl, hbegin'⟩ := hbegin.cut (by nofun)
      obtain ⟨rest', rfl, hend'⟩ := hend.cut (by nofun)
      exact ⟨rest', rfl, .emptyObject hbegin' hend'⟩
  | .object hbegin hmembers, _, _, hsource => by
      subst hsource
      obtain ⟨inner, hinner, hbegin'⟩ := hbegin.cut (by nofun)
      obtain ⟨rest', hrest, hmembers'⟩ := hmembers.cut hinner
      exact ⟨rest', hrest, .object hbegin' hmembers'⟩

theorem Items.cut {source rest : List UInt8} {values : List (Json D)} :
    Items source values rest → ∀ {text junk : List UInt8}, source = text ++ 0 :: junk →
      ∃ rest', rest = rest' ++ 0 :: junk ∧ Items text values rest'
  | .last hvalue hend, _, _, hsource => by
      obtain ⟨after, hafter, hvalue'⟩ := hvalue.cut hsource
      subst hafter
      obtain ⟨rest', rfl, hend'⟩ := hend.cut (by nofun)
      exact ⟨rest', rfl, .last hvalue' hend'⟩
  | .more hvalue hcomma hitems, _, _, hsource => by
      obtain ⟨after, hafter, hvalue'⟩ := hvalue.cut hsource
      subst hafter
      obtain ⟨next, hnext, hcomma'⟩ := hcomma.cut (by nofun)
      obtain ⟨rest', hrest, hitems'⟩ := hitems.cut hnext
      exact ⟨rest', hrest, .more hvalue' hcomma' hitems'⟩

theorem Members.cut {source rest : List UInt8} {members : List (String × Json D)} :
    Members source members rest → ∀ {text junk : List UInt8}, source = text ++ 0 :: junk →
      ∃ rest', rest = rest' ++ 0 :: junk ∧ Members text members rest'
  | .last hkey hcolon hvalue hend, _, _, hsource => by
      subst hsource
      obtain ⟨colon, rfl, hkey'⟩ := hkey.cut (by nofun)
      obtain ⟨inner, hinner, hcolon'⟩ := hcolon.cut (by nofun)
      obtain ⟨after, hafter, hvalue'⟩ := hvalue.cut hinner
      subst hafter
      obtain ⟨rest', rfl, hend'⟩ := hend.cut (by nofun)
      exact ⟨rest', rfl, .last hkey' hcolon' hvalue' hend'⟩
  | .more hkey hcolon hvalue hcomma hmembers, _, _, hsource => by
      subst hsource
      obtain ⟨colon, rfl, hkey'⟩ := hkey.cut (by nofun)
      obtain ⟨inner, hinner, hcolon'⟩ := hcolon.cut (by nofun)
      obtain ⟨after, hafter, hvalue'⟩ := hvalue.cut hinner
      subst hafter
      obtain ⟨next, hnext, hcomma'⟩ := hcomma.cut (by nofun)
      obtain ⟨rest', hrest, hmembers'⟩ := hmembers.cut hnext
      exact ⟨rest', hrest, .more hkey' hcolon' hvalue' hcomma' hmembers'⟩

end

/-- `json::parse` does not depend on what comes after a null byte. -/
theorem parse_null (text junk : List UInt8) :
    (parse (text ++ 0 :: junk) : Option (Json D)) = parse text := by
  ext value
  rw [parse_iff_document, parse_iff_document]
  constructor
  · rintro ⟨body, after, rest, htext, hvalue, hend⟩
    obtain ⟨body', hbody, htext'⟩ : ∃ body', body = body' ++ 0 :: junk ∧
        (text = body' ∨ text = 0xEF :: 0xBB :: 0xBF :: body') := by
      obtain htext | htext := htext
      · exact ⟨text, htext.symm, .inl rfl⟩
      · have hmark : (0 : UInt8) ∉ [0xEF, 0xBB, 0xBF] := by decide
        obtain ⟨body', hmark, hbody⟩ := split_of_no_null hmark htext.symm
        exact ⟨body', hbody, .inr hmark⟩
    obtain ⟨after', rfl, hvalue'⟩ := hvalue.cut hbody
    obtain ⟨rest', hend'⟩ := endOfInput_null_iff.mp ⟨rest, hend⟩
    exact ⟨body', after', rest', htext', hvalue', hend'⟩
  · rintro ⟨body, after, rest, htext, hvalue, hend⟩
    obtain ⟨rest', hend'⟩ := (endOfInput_null_iff).mpr ⟨rest, hend⟩
    refine ⟨body ++ 0 :: junk, after ++ 0 :: junk, rest', ?_, hvalue.extend junk, hend'⟩
    obtain rfl | rfl := htext
    · exact .inl rfl
    · exact .inr rfl

end Json
end YoloServer

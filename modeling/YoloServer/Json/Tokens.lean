import YoloServer.Json.Numbers
import YoloServer.Json.Strings

/-!
# Tokens

`Lexeme text token rest` lists the texts of the tokens, and `scan_iff` says that `scan`
skips white space and reads exactly these.  A null byte is the end of the input.
-/

namespace YoloServer
namespace Json

variable {D : Type}

/-- The text starts with this token, and `rest` is what follows it. -/
inductive Lexeme [Strtod D] : List UInt8 → Token D → List UInt8 → Prop where
  | structural {c : UInt8} {token : Token D} {rest : List UInt8}
      (h : Json.structural c = some token) : Lexeme (c :: rest) token rest
  | literal {c : UInt8} {word rest : List UInt8} {token : Token D}
      (h : Json.literal c = some (word, token)) : Lexeme (c :: (word ++ rest)) token rest
  | string {s : String} {body rest : List UInt8} (h : Spelling s.toList body) :
      Lexeme (34 :: (body ++ 34 :: rest)) (.valueString s) rest
  | number {bytes rest : List UInt8} {type : NumberType} {final : NumberState}
      (h : Number bytes type final) (hstops : final.Stops rest) :
      Lexeme (bytes ++ rest) (convert type bytes) rest
  | endOfText : Lexeme [] .endOfInput []
  | nul {rest : List UInt8} : Lexeme (0 :: rest) .endOfInput rest

/-! ## Which byte starts which token -/

/-- A byte that is not in the tables. -/
theorem table_eq_none {c : UInt8} (h : c ∉ [91, 93, 123, 125, 58, 44, 116, 102, 110]) :
    structural (D := D) c = none ∧ literal (D := D) c = none := by
  simp only [List.mem_cons, List.not_mem_nil, or_false, not_or] at h
  simp [structural, literal, h]

theorem scanLiteral_append (literal rest : List UInt8) (token : Token D) :
    scanLiteral literal (literal ++ rest) token = (token, rest) := by
  induction literal with
  | nil => rfl
  | cons c literal ih =>
      rw [List.cons_append, scanLiteral, if_pos rfl, ih]

theorem eq_append_of_scanLiteral {literal text rest : List UInt8} {token token' : Token D}
    (h : scanLiteral literal text token = (token', rest)) (htoken : token' ≠ .parseError) :
    text = literal ++ rest ∧ token' = token := by
  induction literal generalizing text with
  | nil =>
      cases h
      exact ⟨rfl, rfl⟩
  | cons c literal ih =>
      cases text with
      | nil =>
          cases h
          exact absurd rfl htoken
      | cons b text =>
          rw [scanLiteral] at h
          split_ifs at h with hb
          · obtain ⟨rfl, rfl⟩ := ih h
            exact ⟨by rw [hb, List.cons_append], rfl⟩
          · cases h
            exact absurd rfl htoken

theorem number_head {bytes : List UInt8} {type : NumberType} {final : NumberState}
    (h : Number bytes type final) :
    ∃ b rest, bytes = b :: rest ∧ (b = 45 ∨ isDigit b = true) := by
  obtain ⟨b, rest, hbytes, hb, -⟩ := run_of_number h
  exact ⟨b, rest, hbytes, hb⟩

/-- The first byte of a number is none of the other bytes that `scan` looks for. -/
theorem not_mem_of_number {b : UInt8} (h : b = 45 ∨ isDigit b = true) {cs : List UInt8}
    (hcs : (cs.all fun c => decide (c ≠ 45) && !isDigit c) = true) : b ∉ cs := by
  intro hb
  have hall := List.all_eq_true.mp hcs b hb
  simp only [Bool.and_eq_true, decide_eq_true_eq, Bool.not_eq_true'] at hall
  obtain rfl | h := h
  · exact hall.1 rfl
  · rw [hall.2] at h
    cases h

variable [Strtod D]

theorem scanFrom_structural {c : UInt8} {token : Token D} (h : structural c = some token)
    (text : List UInt8) : scanFrom c text = (token, text) := by
  rw [scanFrom, h]

theorem scanFrom_literal {c : UInt8} {word : List UInt8} {token : Token D}
    (h : literal c = some (word, token)) (text : List UInt8) :
    scanFrom c text = scanLiteral word text token := by
  have hnone : structural (D := D) c = none := by
    rw [literal] at h
    split_ifs at h with h₁ h₂ h₃
    · subst h₁
      rfl
    · subst h₂
      rfl
    · subst h₃
      rfl
  rw [scanFrom, hnone, h]

theorem scanFrom_number {b : UInt8} (hb : b = 45 ∨ isDigit b = true) (text : List UInt8) :
    scanFrom b text = (scanNumber b text : Token D × List UInt8) := by
  obtain ⟨h₁, h₂⟩ := table_eq_none (D := D) (not_mem_of_number hb (by decide))
  have hnot : b ∉ [34] := not_mem_of_number hb (by decide)
  have hquote : b ≠ 34 := List.ne_of_not_mem_cons hnot
  simp only [scanFrom, h₁, h₂, if_neg hquote, if_pos hb]

theorem scanFrom_string {s : String} {body : List UInt8} (h : Spelling s.toList body)
    (rest : List UInt8) :
    scanFrom 34 (body ++ 34 :: rest) = ((.valueString s, rest) : Token D × List UInt8) := by
  have hscan : scanString (body ++ 34 :: rest) = some (utf8 s, rest) :=
    scanString_iff.mpr ⟨s, body, rfl, h, rfl⟩
  show scanQuoted (body ++ 34 :: rest) = _
  simp only [scanQuoted, hscan, ofUtf8_utf8]

/-- After a string literal, the buffer always holds a string. -/
theorem lexeme_of_scanQuoted {text rest : List UInt8} {token : Token D}
    (h : scanQuoted text = (token, rest)) (htoken : token ≠ .parseError) :
    Lexeme (34 :: text) token rest := by
  rw [scanQuoted] at h
  cases hscan : scanString text with
  | none =>
      rw [hscan] at h
      cases h
      exact absurd rfl htoken
  | some result =>
      obtain ⟨buffer, rest'⟩ := result
      obtain ⟨s, body, rfl, hbody, rfl⟩ := scanString_iff.mp hscan
      simp only [hscan, ofUtf8_utf8, Prod.mk.injEq] at h
      obtain ⟨rfl, rfl⟩ := h
      exact .string hbody

/-! ## One token -/

theorem lexeme_of_scanFrom {c : UInt8} {text rest : List UInt8} {token : Token D}
    (h : scanFrom c text = (token, rest)) (htoken : token ≠ .parseError) :
    Lexeme (c :: text) token rest := by
  cases hstructural : structural (D := D) c with
  | some token' =>
      rw [scanFrom_structural hstructural, Prod.mk.injEq] at h
      obtain ⟨rfl, rfl⟩ := h
      exact .structural hstructural
  | none =>
      cases hliteral : literal (D := D) c with
      | some entry =>
          obtain ⟨word, token'⟩ := entry
          rw [scanFrom_literal hliteral] at h
          obtain ⟨rfl, rfl⟩ := eq_append_of_scanLiteral h htoken
          exact .literal hliteral
      | none =>
          simp only [scanFrom, hstructural, hliteral] at h
          split_ifs at h with hquote hnumber hnul
          · subst hquote
            exact lexeme_of_scanQuoted h htoken
          · obtain ⟨bytes, type, final, hbytes, hstops, rfl, rfl⟩ :=
              (scanNumber_iff hnumber htoken).mp h
            exact .number hbytes hstops
          · rw [Prod.mk.injEq] at h
            obtain ⟨rfl, rfl⟩ := h
            subst hnul
            exact .nul
          · rw [Prod.mk.injEq] at h
            exact absurd h.1.symm htoken

theorem scanFrom_of_lexeme {c : UInt8} {text rest : List UInt8} {token : Token D}
    (h : Lexeme (c :: text) token rest) : scanFrom c text = (token, rest) := by
  generalize htext : c :: text = text' at h
  cases h with
  | structural h =>
      cases htext
      exact scanFrom_structural h _
  | literal h =>
      cases htext
      rw [scanFrom_literal h, scanLiteral_append]
  | string h =>
      cases htext
      exact scanFrom_string h rest
  | endOfText => cases htext
  | nul =>
      cases htext
      rfl
  | @number bytes rest type final h hstops =>
      obtain ⟨b, bytes', rfl, hb⟩ := number_head h
      cases htext
      rw [scanFrom_number hb, scanNumber_iff hb]
      · exact ⟨bytes', type, final, h, hstops, rfl, rfl⟩
      · obtain ⟨n, -, hn⟩ | ⟨n, -, hn⟩ | ⟨d, hn⟩ := convert_cases (D := D) type (c :: bytes')
        all_goals
          rw [hn]
          simp

theorem Lexeme.ne_parseError {text rest : List UInt8} {token : Token D}
    (h : Lexeme text token rest) : token ≠ .parseError := by
  cases h with
  | structural h =>
      rintro rfl
      rw [Json.structural] at h
      split_ifs at h <;> cases h
  | literal h =>
      rintro rfl
      rw [Json.literal] at h
      split_ifs at h <;> cases h
  | @number bytes _ type _ _ _ =>
      obtain ⟨n, -, hn⟩ | ⟨n, -, hn⟩ | ⟨d, hn⟩ := convert_cases (D := D) type bytes
      all_goals
        rw [hn]
        nofun
  | string _ => nofun
  | endOfText => nofun
  | nul => nofun

theorem Lexeme.eq_of_nil {rest : List UInt8} {token : Token D} (h : Lexeme [] token rest) :
    token = .endOfInput ∧ rest = [] := by
  generalize htext : ([] : List UInt8) = text at h
  cases h with
  | endOfText => exact ⟨rfl, rfl⟩
  | number h _ =>
      obtain ⟨b, bytes, rfl, -⟩ := number_head h
      cases htext
  | _ => cases htext

/-- A token does not start with white space. -/
theorem Lexeme.head_not_space {c : UInt8} {text rest : List UInt8} {token : Token D}
    (h : Lexeme (c :: text) token rest) : isWhitespace c = false := by
  by_contra hc
  rw [Bool.not_eq_false] at hc
  have hmem : c = 32 ∨ c = 9 ∨ c = 10 ∨ c = 13 := of_decide_eq_true hc
  have herror : scanFrom (D := D) c text = (.parseError, text) := by
    obtain rfl | rfl | rfl | rfl := hmem
    all_goals rfl
  rw [scanFrom_of_lexeme h, Prod.mk.injEq] at herror
  exact h.ne_parseError herror.1

/-- White space and a token. -/
def Reads (text : List UInt8) (token : Token D) (rest : List UInt8) : Prop :=
  ∃ space lexeme, text = space ++ lexeme ∧ (∀ b ∈ space, isWhitespace b = true) ∧
    Lexeme lexeme token rest

/-- `scan` skips white space and reads one token. -/
theorem scan_iff {text rest : List UInt8} {token : Token D} (htoken : token ≠ .parseError) :
    scan text = (token, rest) ↔ Reads text token rest := by
  constructor
  · intro h
    refine ⟨text.takeWhile isWhitespace, text.dropWhile isWhitespace,
      List.takeWhile_append_dropWhile.symm, fun b hb => List.mem_takeWhile_imp hb, ?_⟩
    rw [scan] at h
    cases hdrop : text.dropWhile isWhitespace with
    | nil =>
        rw [hdrop] at h
        cases h
        exact .endOfText
    | cons c text' =>
        rw [hdrop] at h
        exact lexeme_of_scanFrom h htoken
  · rintro ⟨space, lexeme, rfl, hspace, hlexeme⟩
    rw [scan, List.dropWhile_append_of_pos hspace]
    cases lexeme with
    | nil =>
        obtain ⟨rfl, rfl⟩ := hlexeme.eq_of_nil
        rfl
    | cons c text =>
        rw [List.dropWhile_cons_of_neg (by rw [hlexeme.head_not_space]; exact Bool.noConfusion)]
        exact scanFrom_of_lexeme hlexeme

/-- A token takes at least one byte of the text. -/
theorem Lexeme.length_lt {text rest : List UInt8} {token : Token D} (h : Lexeme text token rest)
    (htoken : token ≠ .endOfInput) : rest.length < text.length := by
  cases h with
  | structural _ => exact Nat.lt_succ_self _
  | literal _ =>
      simp only [List.length_cons, List.length_append]
      omega
  | string _ =>
      simp only [List.length_cons, List.length_append]
      omega
  | number h _ =>
      obtain ⟨b, bytes, rfl, -⟩ := number_head h
      simp only [List.length_cons, List.length_append]
      omega
  | endOfText => exact absurd rfl htoken
  | nul => exact absurd rfl htoken

theorem Reads.ne_parseError {text rest : List UInt8} {token : Token D}
    (h : Reads text token rest) : token ≠ .parseError := by
  obtain ⟨_, _, _, _, hlexeme⟩ := h
  exact hlexeme.ne_parseError

theorem scan_of_reads {text rest : List UInt8} {token : Token D} (h : Reads text token rest) :
    scan text = (token, rest) :=
  (scan_iff h.ne_parseError).mpr h

theorem Reads.length_lt {text rest : List UInt8} {token : Token D} (h : Reads text token rest)
    (htoken : token ≠ .endOfInput) : rest.length < text.length := by
  obtain ⟨space, lexeme, rfl, -, hlexeme⟩ := h
  have hlt := hlexeme.length_lt htoken
  rw [List.length_append]
  omega

end Json
end YoloServer

import YoloServer.Json.Parser
import YoloServer.Json.Tokens

/-!
# The texts that `json::parse` accepts

`Value text value rest` is the grammar of JSON, over the remaining text: `text` starts with
the value and `rest` follows it.  `parse_iff` says that the loop of `sax_parse_internal`
accepts exactly the documents of this grammar, and that it builds the value which the text
stands for; in an object the last member with a key counts.
-/

namespace YoloServer
namespace Json

variable {D : Type} [Strtod D] [IsFinite D]

/-! ## The grammar -/

/-- The value of a token that is a value by itself.  A number must be finite. -/
def scalar : Token D → Option (Json D)
  | .literalTrue => some (.boolean true)
  | .literalFalse => some (.boolean false)
  | .literalNull => some .null
  | .valueString s => some (.string s)
  | .valueUnsigned n => some (.unsigned n)
  | .valueInteger n => some (.integer n)
  | .valueFloat d => if IsFinite.isFinite d then some (.float d) else none
  | _ => none

/-- The members of an object in the order of the text, written one after the other. -/
def setMembers (members written : List (String × Json D)) : List (String × Json D) :=
  written.foldl (fun members member => setMember member.1 member.2 members) members

mutual

/-- A value. -/
inductive Value : List UInt8 → Json D → List UInt8 → Prop where
  | scalar {text rest : List UInt8} {token : Token D} {value : Json D}
      (htoken : Reads text token rest) (hvalue : scalar token = some value) :
      Value text value rest
  | emptyArray {text inner rest : List UInt8} (hbegin : Reads text (.beginArray : Token D) inner)
      (hend : Reads inner (.endArray : Token D) rest) : Value text (.array []) rest
  | array {text inner rest : List UInt8} {items : List (Json D)}
      (hbegin : Reads text (.beginArray : Token D) inner) (hitems : Items inner items rest) :
      Value text (.array items) rest
  | emptyObject {text inner rest : List UInt8}
      (hbegin : Reads text (.beginObject : Token D) inner)
      (hend : Reads inner (.endObject : Token D) rest) : Value text (.object []) rest
  | object {text inner rest : List UInt8} {members : List (String × Json D)}
      (hbegin : Reads text (.beginObject : Token D) inner)
      (hmembers : Members inner members rest) : Value text (.object (setMembers [] members)) rest

/-- One or more items, separated by commas, and the end of the array. -/
inductive Items : List UInt8 → List (Json D) → List UInt8 → Prop where
  | last {text after rest : List UInt8} {value : Json D} (hvalue : Value text value after)
      (hend : Reads after (.endArray : Token D) rest) : Items text [value] rest
  | more {text after next rest : List UInt8} {value : Json D} {values : List (Json D)}
      (hvalue : Value text value after) (hcomma : Reads after (.valueSeparator : Token D) next)
      (hitems : Items next values rest) : Items text (value :: values) rest

/-- One or more members, separated by commas, and the end of the object. -/
inductive Members : List UInt8 → List (String × Json D) → List UInt8 → Prop where
  | last {text colon inner after rest : List UInt8} {key : String} {value : Json D}
      (hkey : Reads text (.valueString key : Token D) colon)
      (hcolon : Reads colon (.nameSeparator : Token D) inner) (hvalue : Value inner value after)
      (hend : Reads after (.endObject : Token D) rest) : Members text [(key, value)] rest
  | more {text colon inner after next rest : List UInt8} {key : String} {value : Json D}
      {members : List (String × Json D)} (hkey : Reads text (.valueString key : Token D) colon)
      (hcolon : Reads colon (.nameSeparator : Token D) inner) (hvalue : Value inner value after)
      (hcomma : Reads after (.valueSeparator : Token D) next)
      (hmembers : Members next members rest) : Members text ((key, value) :: members) rest

end

/-- A document: one value, after a byte order mark or not, and white space up to the end of the
input or up to a null byte. -/
def Document (text : List UInt8) (value : Json D) : Prop :=
  ∃ body after rest, (text = body ∨ text = 0xEF :: 0xBB :: 0xBF :: body) ∧
    Value body value after ∧ Reads after (.endOfInput : Token D) rest

/-! ## What the loop can do -/

omit [IsFinite D] in
theorem readKey_iff {text rest : List UInt8} {key : String} :
    readKey D text = some (key, rest) ↔
      ∃ colon, Reads text (.valueString key : Token D) colon ∧
        Reads colon (.nameSeparator : Token D) rest := by
  constructor
  · intro h
    rw [readKey] at h
    split at h
    next key' colon hkey =>
      split at h
      next rest' hcolon =>
        cases h
        exact ⟨colon, (scan_iff (by nofun)).mp hkey, (scan_iff (by nofun)).mp hcolon⟩
      next => cases h
    next => cases h
  · rintro ⟨colon, hkey, hcolon⟩
    rw [readKey, scan_of_reads hkey]
    simp only [scan_of_reads hcolon]

/-- The iterations that start with a token. -/
inductive ReadsTo (token : Token D) (text : List UInt8) (stack : List (Frame D)) : State D → Prop where
  | scalar {value : Json D} (h : scalar token = some value) :
      ReadsTo token text stack (.evaluate value text stack)
  | emptyArray {rest : List UInt8} (h : token = .beginArray)
      (hend : Reads text (.endArray : Token D) rest) :
      ReadsTo token text stack (.evaluate (.array []) rest stack)
  | array (h : token = .beginArray) (hitems : (scan (D := D) text).1 ≠ .endArray) :
      ReadsTo token text stack (readNext text (.array [] :: stack))
  | emptyObject {rest : List UInt8} (h : token = .beginObject)
      (hend : Reads text (.endObject : Token D) rest) :
      ReadsTo token text stack (.evaluate (.object []) rest stack)
  | object {key : String} {rest : List UInt8} (h : token = .beginObject)
      (hkey : readKey D text = some (key, rest)) :
      ReadsTo token text stack (readNext rest (.object [] key :: stack))

theorem readsTo_of_readValue {token : Token D} {text : List UInt8} {stack : List (Frame D)}
    {state : State D} (h : readValue token text stack = .inl state) :
    ReadsTo token text stack state := by
  cases token with
  | beginObject =>
      rw [readValue] at h
      split at h
      next rest hend =>
        cases h
        exact .emptyObject rfl ((scan_iff (by nofun)).mp hend)
      next =>
        split at h
        next key rest hkey =>
          cases h
          exact .object rfl hkey
        next => cases h
  | beginArray =>
      rw [readValue] at h
      split at h
      next rest hend =>
        cases h
        exact .emptyArray rfl ((scan_iff (by nofun)).mp hend)
      next hitems =>
        cases h
        exact .array rfl fun hend => hitems _ (Prod.ext hend rfl)
  | valueFloat d =>
      rw [readValue] at h
      split_ifs at h with hfinite
      cases h
      exact .scalar (by rw [scalar, if_pos hfinite])
  | literalTrue | literalFalse | literalNull | valueString | valueUnsigned | valueInteger =>
      cases h
      exact .scalar rfl
  | _ => cases h

theorem readValue_of_readsTo {token : Token D} {text : List UInt8} {stack : List (Frame D)}
    {state : State D} (h : ReadsTo token text stack state) :
    readValue token text stack = .inl state := by
  cases h with
  | scalar h =>
      cases token with
      | valueFloat d =>
          rw [scalar] at h
          split_ifs at h with hfinite
          cases h
          rw [readValue, if_pos hfinite]
      | literalTrue | literalFalse | literalNull | valueString | valueUnsigned | valueInteger =>
          cases h
          rfl
      | _ => cases h
  | emptyArray h hend | emptyObject h hend =>
      subst h
      simp only [readValue, scan_of_reads hend]
  | array h hitems =>
      subst h
      rw [readValue]
      split
      next hend =>
        rw [hend] at hitems
        exact absurd rfl hitems
      next => rfl
  | object h hkey =>
      subst h
      obtain ⟨colon, hstring, -⟩ := readKey_iff.mp hkey
      simp only [readValue, scan_of_reads hstring, hkey]

/-- The iterations that come after a value. -/
inductive EvaluatesTo (value : Json D) (text : List UInt8) : List (Frame D) → State D → Prop where
  | nextItem {items : List (Json D)} {stack : List (Frame D)} {rest : List UInt8}
      (hcomma : Reads text (.valueSeparator : Token D) rest) :
      EvaluatesTo value text (.array items :: stack)
        (readNext rest (.array (items ++ [value]) :: stack))
  | endArray {items : List (Json D)} {stack : List (Frame D)} {rest : List UInt8}
      (hend : Reads text (.endArray : Token D) rest) :
      EvaluatesTo value text (.array items :: stack)
        (.evaluate (.array (items ++ [value])) rest stack)
  | nextMember {members : List (String × Json D)} {key next : String} {stack : List (Frame D)}
      {after rest : List UInt8} (hcomma : Reads text (.valueSeparator : Token D) after)
      (hkey : readKey D after = some (next, rest)) :
      EvaluatesTo value text (.object members key :: stack)
        (readNext rest (.object (setMember key value members) next :: stack))
  | endObject {members : List (String × Json D)} {key : String} {stack : List (Frame D)}
      {rest : List UInt8} (hend : Reads text (.endObject : Token D) rest) :
      EvaluatesTo value text (.object members key :: stack)
        (.evaluate (.object (setMember key value members)) rest stack)

omit [IsFinite D] in
theorem evaluatesTo_of_evaluateState {value : Json D} {text : List UInt8}
    {stack : List (Frame D)} {state : State D} (h : evaluateState value text stack = .inl state) :
    EvaluatesTo value text stack state := by
  cases stack with
  | nil => cases h
  | cons frame stack =>
      cases frame with
      | array items =>
          rw [evaluateState] at h
          split at h
          next rest hcomma =>
            cases h
            exact .nextItem ((scan_iff (by nofun)).mp hcomma)
          next rest hend =>
            cases h
            exact .endArray ((scan_iff (by nofun)).mp hend)
          next => cases h
      | object members key =>
          rw [evaluateState] at h
          split at h
          next after hcomma =>
            split at h
            next next rest hkey =>
              cases h
              exact .nextMember ((scan_iff (by nofun)).mp hcomma) hkey
            next => cases h
          next rest hend =>
            cases h
            exact .endObject ((scan_iff (by nofun)).mp hend)
          next => cases h

omit [IsFinite D] in
theorem evaluateState_of_evaluatesTo {value : Json D} {text : List UInt8}
    {stack : List (Frame D)} {state : State D} (h : EvaluatesTo value text stack state) :
    evaluateState value text stack = .inl state := by
  cases h with
  | nextItem hcomma => rw [evaluateState, scan_of_reads hcomma]
  | endArray hend =>
      rw [evaluateState, scan_of_reads hend]
      rfl
  | nextMember hcomma hkey => simp only [evaluateState, scan_of_reads hcomma, hkey]
  | endObject hend =>
      rw [evaluateState, scan_of_reads hend]
      rfl

/-! ## The loop ends -/

omit [Strtod D] [IsFinite D] in
theorem size_read_le (token : Token D) (text : List UInt8) (stack : List (Frame D)) :
    (State.read token text stack).size ≤ 2 * text.length + 1 := by
  cases token with
  | endOfInput | parseError => exact Nat.zero_le _
  | _ => exact Nat.le_refl _

omit [IsFinite D] in
theorem size_readNext_le (text : List UInt8) (stack : List (Frame D)) :
    (readNext text stack).size ≤ 2 * text.length := by
  rw [readNext]
  cases hscan : scan (D := D) text with
  | mk token rest =>
      by_cases herror : token = .parseError
      · subst herror
        exact Nat.zero_le _
      by_cases hend : token = .endOfInput
      · subst hend
        exact Nat.zero_le _
      have hlt := ((scan_iff herror).mp hscan).length_lt hend
      have hle := size_read_le token rest stack
      show (State.read token rest stack).size ≤ _
      omega

omit [IsFinite D] in
theorem length_readKey_lt {text rest : List UInt8} {key : String}
    (h : readKey D text = some (key, rest)) : rest.length < text.length := by
  obtain ⟨colon, hkey, hcolon⟩ := readKey_iff.mp h
  have h₁ := hkey.length_lt (by nofun)
  have h₂ := hcolon.length_lt (by nofun)
  omega

theorem shrinks_parseStep : Lib.Shrinks (parseStep (D := D)) State.size := by
  intro state state' hstep
  cases state with
  | read token text stack =>
      have hsize : (State.read token text stack).size = 2 * text.length + 1 := by
        cases token with
        | endOfInput | parseError => cases hstep
        | _ => rfl
      rw [hsize]
      cases readsTo_of_readValue hstep with
      | scalar h => exact Nat.lt_succ_self _
      | emptyArray h hend | emptyObject h hend =>
          have hlt := hend.length_lt (by nofun)
          simp only [State.size]
          omega
      | array h _ =>
          have hle := size_readNext_le (D := D) text (.array [] :: stack)
          omega
      | @object key rest h hkey =>
          have hle := size_readNext_le (D := D) rest (.object [] key :: stack)
          have hlt := length_readKey_lt hkey
          omega
  | evaluate value text stack =>
      show _ < 2 * text.length
      cases evaluatesTo_of_evaluateState hstep with
      | @nextItem items stack rest hcomma =>
          have hle := size_readNext_le (D := D) rest (.array (items ++ [value]) :: stack)
          have hlt := hcomma.length_lt (by nofun)
          omega
      | endArray hend | endObject hend =>
          have hlt := hend.length_lt (by nofun)
          simp only [State.size]
          omega
      | @nextMember members key next stack after rest hcomma hkey =>
          have hle := size_readNext_le (D := D) rest
            (.object (setMember key value members) next :: stack)
          have hlt := hcomma.length_lt (by nofun)
          have hkey := length_readKey_lt hkey
          omega

/-! ## The grammar is accepted -/

theorem parseLoop_read {token : Token D} {text rest : List UInt8} {stack : List (Frame D)}
    {state : State D} (htoken : Reads text token rest) (h : ReadsTo token rest stack state) :
    parseLoop (readNext text stack) = parseLoop state := by
  apply Lib.loop_of_again shrinks_parseStep
  rw [readNext, scan_of_reads htoken]
  exact readValue_of_readsTo h

theorem parseLoop_evaluate {value : Json D} {text : List UInt8} {stack : List (Frame D)}
    {state : State D} (h : EvaluatesTo value text stack state) :
    parseLoop (.evaluate value text stack) = parseLoop state :=
  Lib.loop_of_again shrinks_parseStep (evaluateState_of_evaluatesTo h)

/-- A value does not start with the end of an array. -/
theorem Value.scan_ne_endArray {text rest : List UInt8} {value : Json D}
    (h : Value text value rest) : (scan (D := D) text).1 ≠ .endArray := by
  intro hend
  cases h with
  | scalar htoken hvalue =>
      rw [scan_of_reads htoken] at hend
      cases hend
      cases hvalue
  | emptyArray hbegin _ | array hbegin _ | emptyObject hbegin _ | object hbegin _ =>
      rw [scan_of_reads hbegin] at hend
      cases hend

theorem Items.scan_ne_endArray {text rest : List UInt8} {values : List (Json D)}
    (h : Items text values rest) : (scan (D := D) text).1 ≠ .endArray := by
  cases h with
  | last hvalue _ | more hvalue _ _ => exact hvalue.scan_ne_endArray

/-- The members of an object start with a key. -/
theorem Members.readKey {text rest : List UInt8} {members : List (String × Json D)}
    (h : Members text members rest) : ∃ key inner, Json.readKey D text = some (key, inner) := by
  cases h with
  | last hkey hcolon _ _ | more hkey hcolon _ _ _ =>
      exact ⟨_, _, readKey_iff.mpr ⟨_, hkey, hcolon⟩⟩

mutual

/-- The loop reads a value of the grammar, whatever is below it on the stack. -/
theorem Value.parseLoop_eq {text rest : List UInt8} {value : Json D} :
    Value text value rest → ∀ stack : List (Frame D),
      parseLoop (readNext text stack) = parseLoop (.evaluate value rest stack)
  | .scalar htoken hvalue, _ => parseLoop_read htoken (.scalar hvalue)
  | .emptyArray hbegin hend, _ => parseLoop_read hbegin (.emptyArray rfl hend)
  | .array hbegin hitems, stack => by
      rw [parseLoop_read hbegin (.array rfl hitems.scan_ne_endArray), hitems.parseLoop_eq [] stack]
      rfl
  | .emptyObject hbegin hend, _ => parseLoop_read hbegin (.emptyObject rfl hend)
  | .object hbegin hmembers, stack => by
      obtain ⟨key, inner, hkey⟩ := hmembers.readKey
      rw [parseLoop_read hbegin (.object rfl hkey), hmembers.parseLoop_eq hkey [] stack]

theorem Items.parseLoop_eq {text rest : List UInt8} {values : List (Json D)} :
    Items text values rest → ∀ (items : List (Json D)) (stack : List (Frame D)),
      parseLoop (readNext text (.array items :: stack)) =
        parseLoop (.evaluate (.array (items ++ values)) rest stack)
  | .last hvalue hend, items, stack => by
      rw [hvalue.parseLoop_eq, parseLoop_evaluate (.endArray hend)]
  | .more hvalue hcomma hitems, items, stack => by
      rw [hvalue.parseLoop_eq, parseLoop_evaluate (.nextItem hcomma), hitems.parseLoop_eq,
        List.append_assoc]
      rfl

theorem Members.parseLoop_eq {text rest : List UInt8} {written : List (String × Json D)} :
    Members text written rest → ∀ {key : String} {inner : List UInt8}
      (_ : Json.readKey D text = some (key, inner)) (members : List (String × Json D))
      (stack : List (Frame D)),
      parseLoop (readNext inner (.object members key :: stack)) =
        parseLoop (.evaluate (.object (setMembers members written)) rest stack)
  | .last hkey' hcolon hvalue hend, key, inner, hkey, members, stack => by
      rw [readKey_iff.mpr ⟨_, hkey', hcolon⟩] at hkey
      cases hkey
      rw [hvalue.parseLoop_eq, parseLoop_evaluate (.endObject hend)]
      rfl
  | .more hkey' hcolon hvalue hcomma hmembers, key, inner, hkey, members, stack => by
      rw [readKey_iff.mpr ⟨_, hkey', hcolon⟩] at hkey
      cases hkey
      obtain ⟨next, inner', hnext⟩ := hmembers.readKey
      rw [hvalue.parseLoop_eq, parseLoop_evaluate (.nextMember hcomma hnext),
        hmembers.parseLoop_eq hnext]
      rfl

end

/-! ## Nothing else is accepted -/

/-- What closes a container after one of its values: the end of it, or a comma and more. -/
inductive Closes : Frame D → Json D → List UInt8 → Json D → List UInt8 → Prop where
  | endArray {items : List (Json D)} {value : Json D} {text rest : List UInt8}
      (hend : Reads text (.endArray : Token D) rest) :
      Closes (.array items) value text (.array (items ++ [value])) rest
  | items {items values : List (Json D)} {value : Json D} {text next rest : List UInt8}
      (hcomma : Reads text (.valueSeparator : Token D) next) (hitems : Items next values rest) :
      Closes (.array items) value text (.array (items ++ value :: values)) rest
  | endObject {members : List (String × Json D)} {key : String} {value : Json D}
      {text rest : List UInt8} (hend : Reads text (.endObject : Token D) rest) :
      Closes (.object members key) value text (.object (setMember key value members)) rest
  | members {members written : List (String × Json D)} {key : String} {value : Json D}
      {text next rest : List UInt8} (hcomma : Reads text (.valueSeparator : Token D) next)
      (hmembers : Members next written rest) :
      Closes (.object members key) value text
        (.object (setMembers members ((key, value) :: written))) rest

theorem items_of_closes {text after rest : List UInt8} {value container : Json D}
    {items : List (Json D)} (hvalue : Value text value after)
    (h : Closes (.array items) value after container rest) :
    ∃ values, container = .array (items ++ values) ∧ Items text values rest := by
  cases h with
  | endArray hend => exact ⟨_, rfl, .last hvalue hend⟩
  | items hcomma hitems => exact ⟨_, rfl, .more hvalue hcomma hitems⟩

theorem members_of_closes {text inner after rest : List UInt8} {value container : Json D}
    {members : List (String × Json D)} {key : String} (hkey : readKey D text = some (key, inner))
    (hvalue : Value inner value after)
    (h : Closes (.object members key) value after container rest) :
    ∃ written, container = .object (setMembers members written) ∧ Members text written rest := by
  obtain ⟨colon, hstring, hcolon⟩ := readKey_iff.mp hkey
  cases h with
  | endObject hend => exact ⟨[(key, value)], rfl, .last hstring hcolon hvalue hend⟩
  | members hcomma hmembers => exact ⟨_, rfl, .more hstring hcolon hvalue hcomma hmembers⟩

theorem readValue_ne_some (token : Token D) (text : List UInt8) (stack : List (Frame D))
    (result : Json D × List UInt8) : readValue token text stack ≠ .inr (some result) := by
  intro h
  cases token with
  | beginObject =>
      rw [readValue] at h
      split at h
      · cases h
      · split at h <;> cases h
  | beginArray =>
      rw [readValue] at h
      split at h <;> cases h
  | valueFloat d =>
      rw [readValue] at h
      split_ifs at h
      cases h
  | _ => cases h

omit [IsFinite D] in
theorem evaluateState_ne_some (value : Json D) (text : List UInt8) (frame : Frame D)
    (stack : List (Frame D)) (result : Json D × List UInt8) :
    evaluateState value text (frame :: stack) ≠ .inr (some result) := by
  intro h
  cases frame with
  | array items =>
      rw [evaluateState] at h
      split at h <;> cases h
  | object members key =>
      rw [evaluateState] at h
      split at h
      · split at h <;> cases h
      · cases h
      · cases h

/-- A loop that returns a value does not stop at a token. -/
theorem readsTo_of_parseLoop {text : List UInt8} {stack : List (Frame D)}
    {result : Json D × List UInt8} (h : parseLoop (readNext text stack) = some result) :
    ∃ token rest state, Reads text token rest ∧ ReadsTo token rest stack state ∧
      parseLoop state = some result := by
  cases hscan : scan (D := D) text with
  | mk token rest =>
      have hread : readNext text stack = .read token rest stack := by rw [readNext, hscan]
      rw [hread] at h
      cases hstep : parseStep (.read token rest stack) with
      | inr output =>
          rw [parseLoop, Lib.loop_of_leave shrinks_parseStep hstep] at h
          exact absurd (h ▸ hstep) (readValue_ne_some _ _ _ _)
      | inl state =>
          rw [parseLoop, Lib.loop_of_again shrinks_parseStep hstep] at h
          refine ⟨token, rest, state, (scan_iff ?_).mp hscan, readsTo_of_readValue hstep, h⟩
          rintro rfl
          cases hstep

theorem evaluatesTo_of_parseLoop {value : Json D} {text : List UInt8} {frame : Frame D}
    {stack : List (Frame D)} {result : Json D × List UInt8}
    (h : parseLoop (.evaluate value text (frame :: stack)) = some result) :
    ∃ state, EvaluatesTo value text (frame :: stack) state ∧ parseLoop state = some result := by
  cases hstep : parseStep (.evaluate value text (frame :: stack)) with
  | inr output =>
      rw [parseLoop, Lib.loop_of_leave shrinks_parseStep hstep] at h
      exact absurd (h ▸ hstep) (evaluateState_ne_some _ _ _ _ _)
  | inl state =>
      rw [parseLoop, Lib.loop_of_again shrinks_parseStep hstep] at h
      exact ⟨state, evaluatesTo_of_evaluateState hstep, h⟩

/-- Both parts of the loop, by the length of the text that is left: a value that is read is a
value of the grammar, and after a value its container is closed as the grammar says. -/
theorem sound_of_length (n : Nat) :
    (∀ {text : List UInt8} {stack : List (Frame D)} {result : Json D × List UInt8},
      text.length ≤ n → parseLoop (readNext text stack) = some result →
      ∃ value rest, Value text value rest ∧ rest.length < text.length ∧
        parseLoop (.evaluate value rest stack) = some result) ∧
    ∀ {value : Json D} {text : List UInt8} {frame : Frame D} {stack : List (Frame D)}
      {result : Json D × List UInt8}, text.length ≤ n →
      parseLoop (.evaluate value text (frame :: stack)) = some result →
      ∃ container rest, Closes frame value text container rest ∧ rest.length < text.length ∧
        parseLoop (.evaluate container rest stack) = some result := by
  induction n using Nat.strong_induction_on with
  | _ n ih =>
      constructor
      · intro text stack result hlength h
        obtain ⟨token, inner, state, htoken, hto, h⟩ := readsTo_of_parseLoop h
        cases hto with
        | scalar hvalue =>
            have hlt := htoken.length_lt (by rintro rfl; cases hvalue)
            exact ⟨_, inner, .scalar htoken hvalue, hlt, h⟩
        | emptyArray htype hend =>
            subst htype
            have h₁ := htoken.length_lt (by nofun)
            have h₂ := hend.length_lt (by nofun)
            exact ⟨_, _, .emptyArray htoken hend, by omega, h⟩
        | array htype hitems =>
            subst htype
            have h₁ := htoken.length_lt (by nofun)
            obtain ⟨value, after, hvalue, h₂, h⟩ := (ih inner.length (by omega)).1 le_rfl h
            obtain ⟨container, rest, hcloses, h₃, h⟩ := (ih after.length (by omega)).2 le_rfl h
            obtain ⟨values, rfl, hvalues⟩ := items_of_closes hvalue hcloses
            exact ⟨_, rest, .array htoken hvalues, by omega, h⟩
        | emptyObject htype hend =>
            subst htype
            have h₁ := htoken.length_lt (by nofun)
            have h₂ := hend.length_lt (by nofun)
            exact ⟨_, _, .emptyObject htoken hend, by omega, h⟩
        | @object key next htype hkey =>
            subst htype
            have h₁ := htoken.length_lt (by nofun)
            have h₀ := length_readKey_lt hkey
            obtain ⟨value, after, hvalue, h₂, h⟩ := (ih next.length (by omega)).1 le_rfl h
            obtain ⟨container, rest, hcloses, h₃, h⟩ := (ih after.length (by omega)).2 le_rfl h
            obtain ⟨written, rfl, hwritten⟩ := members_of_closes hkey hvalue hcloses
            exact ⟨_, rest, .object htoken hwritten, by omega, h⟩
      · intro value text frame stack result hlength h
        obtain ⟨state, hto, h⟩ := evaluatesTo_of_parseLoop h
        cases hto with
        | @nextItem items _ next hcomma =>
            have h₁ := hcomma.length_lt (by nofun)
            obtain ⟨value', after, hvalue, h₂, h⟩ := (ih next.length (by omega)).1 le_rfl h
            obtain ⟨container, rest, hcloses, h₃, h⟩ := (ih after.length (by omega)).2 le_rfl h
            obtain ⟨values, rfl, hvalues⟩ := items_of_closes hvalue hcloses
            rw [List.append_assoc] at h
            exact ⟨_, rest, .items hcomma hvalues, by omega, h⟩
        | endArray hend => exact ⟨_, _, .endArray hend, hend.length_lt (by nofun), h⟩
        | @nextMember members key next _ after₀ inner hcomma hkey =>
            have h₁ := hcomma.length_lt (by nofun)
            have h₀ := length_readKey_lt hkey
            obtain ⟨value', after, hvalue, h₂, h⟩ := (ih inner.length (by omega)).1 le_rfl h
            obtain ⟨container, rest, hcloses, h₃, h⟩ := (ih after.length (by omega)).2 le_rfl h
            obtain ⟨written, rfl, hwritten⟩ := members_of_closes hkey hvalue hcloses
            exact ⟨_, rest, .members hcomma hwritten, by omega, h⟩
        | endObject hend => exact ⟨_, _, .endObject hend, hend.length_lt (by nofun), h⟩

/-- `sax_parse_internal` reads the values of the grammar. -/
theorem saxParse_iff {text rest : List UInt8} {value : Json D} :
    saxParse text = some (value, rest) ↔ Value text value rest := by
  have hdone : ∀ (v : Json D) (r : List UInt8), parseLoop (.evaluate v r []) = some (v, r) :=
    fun v r => Lib.loop_of_leave shrinks_parseStep rfl
  rw [saxParse]
  constructor
  · intro h
    obtain ⟨value', rest', hvalue, -, h⟩ := (sound_of_length text.length).1 le_rfl h
    rw [hdone] at h
    cases h
    exact hvalue
  · intro h
    rw [h.parseLoop_eq [], hdone]

theorem Value.reads {text rest : List UInt8} {value : Json D} (h : Value text value rest) :
    ∃ (token : Token D) (inner : List UInt8), Reads text token inner := by
  cases h with
  | scalar htoken _ => exact ⟨_, _, htoken⟩
  | emptyArray hbegin _ | array hbegin _ | emptyObject hbegin _ | object hbegin _ =>
      exact ⟨_, _, hbegin⟩

/-- A value does not start with a byte of the byte order mark. -/
theorem Value.skipBom_eq {text rest : List UInt8} {value : Json D} (h : Value text value rest) :
    skipBom text = some text := by
  rw [skipBom]
  rintro tail rfl
  obtain ⟨token, inner, htoken⟩ := h.reads
  have herror : (scan (D := D) (0xEF :: tail)).1 = .parseError := rfl
  rw [scan_of_reads htoken] at herror
  exact htoken.ne_parseError herror

theorem eq_of_skipBom {text body : List UInt8} (h : skipBom text = some body) :
    text = body ∨ text = 0xEF :: 0xBB :: 0xBF :: body := by
  rw [skipBom.eq_def] at h
  split at h
  · split at h
    · cases h
      exact .inr rfl
    · cases h
  · cases h
    exact .inl rfl

/-- `json::parse` accepts exactly the documents of the grammar, and returns the value that the
document stands for. -/
theorem parse_iff_document (text : List UInt8) (value : Json D) :
    parse text = some value ↔ Document text value := by
  rw [parse]
  constructor
  · intro h
    cases hbom : skipBom text with
    | none => simp [hbom] at h
    | some body =>
        simp only [hbom] at h
        cases hparse : saxParse (D := D) body with
        | none => simp [hparse] at h
        | some result =>
            obtain ⟨value', after⟩ := result
            simp only [hparse] at h
            cases hscan : scan (D := D) after with
            | mk token rest =>
                rw [hscan] at h
                cases token with
                | endOfInput =>
                    cases h
                    exact ⟨body, after, rest, eq_of_skipBom hbom, saxParse_iff.mp hparse,
                      (scan_iff (by nofun)).mp hscan⟩
                | _ => cases h
  · rintro ⟨body, after, rest, htext, hvalue, hend⟩
    have hbom : skipBom text = some body := by
      obtain rfl | rfl := htext
      · exact hvalue.skipBom_eq
      · rfl
    simp only [hbom, saxParse_iff.mpr hvalue, scan_of_reads hend]

/-- **The parser decides the grammar**: a text is a document of exactly one value, which `parse`
returns, or it is no document, and `parse` throws. -/
theorem parse_decides_document (text : List UInt8) :
    (∃ value : Json D, parse text = some value ∧ ∀ other, Document text other ↔ other = value) ∨
      (parse (D := D) text = none ∧ ∀ value : Json D, ¬ Document text value) := by
  cases hparse : parse (D := D) text with
  | some value =>
      refine .inl ⟨value, rfl, fun other => ?_⟩
      rw [← parse_iff_document, hparse, Option.some.injEq]
      exact eq_comm
  | none =>
      refine .inr ⟨rfl, fun value hvalue => ?_⟩
      rw [← parse_iff_document, hparse] at hvalue
      cases hvalue

end Json
end YoloServer

import YoloServer.Common.Config
import YoloServer.Lib.Text

/-!
# The configuration file (`common/config/Config.cpp`)

`loadFromFile` reads the file line by line.  A line is trimmed and cut at its first `=`,
and what stands on the two sides is trimmed again.  Blank lines, comments and lines
without `=` are skipped.

* `loadLine_pair` and `loadLine_noise`: what one line does to the configuration.
* `getString_loadFromFile`: however a list of keys and values is laid out in a file, the
  configuration holds the last value of each key, and no other key.
-/

namespace YoloServer
namespace Config

open Lib Function

/-- The characters that `trim` removes. -/
def isBlank (c : Char) : Bool :=
  c = ' ' || c = '\t' || c = '\r' || c = '\n'

/-- The body of the loop of `loadFromFile`: one line, as `std::getline` returns it. -/
def loadLine (c : Config) (text : List Char) : Config :=
  let line := trim isBlank text
  if line = [] ∨ line.head? = some '#' then c
  else if '=' ∉ line then c
  else
    let key := trim isBlank (line.takeWhile (· ≠ '='))
    let value := trim isBlank (line.dropWhile (· ≠ '=')).tail
    if key = [] then c
    else c.set (String.ofList key) (String.ofList value)

/-- `Config::loadFromFile`, with the content of the file if it can be opened. -/
def loadFromFile (c : Config) (file : Option String) : Config × Bool :=
  match file with
  | none => (c, false)
  | some text => ((lines '\n' text.toList).foldl loadLine c, true)

/-! ## One line -/

/-- Spaces, tabs and carriage returns. -/
def Padding (text : List Char) : Prop :=
  ∀ c ∈ text, c = ' ' ∨ c = '\t' ∨ c = '\r'

instance (text : List Char) : Decidable (Padding text) :=
  List.decidableBAll _ text

/-- A key and a value that a file can hold: both trimmed and on one line, the key neither
empty nor cut by a `=` nor taken for a comment. -/
structure Entry where
  key : String
  value : String
  key_ne : key.toList ≠ []
  key_trimmed : Trimmed isBlank key.toList
  key_equals : '=' ∉ key.toList
  key_line : '\n' ∉ key.toList
  key_comment : key.toList.head? ≠ some '#'
  value_trimmed : Trimmed isBlank value.toList
  value_line : '\n' ∉ value.toList

/-- A line that carries the entry. -/
inductive PairLine (e : Entry) : List Char → Prop
  | mk {a b c d : List Char} (ha : Padding a) (hb : Padding b) (hc : Padding c) (hd : Padding d) :
      PairLine e ((a ++ e.key.toList ++ b) ++ '=' :: (c ++ e.value.toList ++ d))

/-- A line that carries nothing. -/
inductive NoiseLine : List Char → Prop
  | blank {line : List Char} (h : Padding line) : NoiseLine line
  | comment {pad rest : List Char} (hpad : Padding pad) (hrest : '\n' ∉ rest) :
      NoiseLine (pad ++ '#' :: rest)
  | noEquals {line : List Char} (hequals : '=' ∉ line) (hline : '\n' ∉ line) : NoiseLine line

theorem isBlank_of_padding {text : List Char} (h : Padding text) :
    ∀ c ∈ text, isBlank c = true := by
  intro c hc
  rcases h c hc with rfl | rfl | rfl <;> rfl

theorem not_mem_of_padding {text : List Char} {c : Char} (h : Padding text)
    (hc : isBlank c = false) : c ∉ text := by
  intro hmem
  rw [isBlank_of_padding h c hmem] at hc
  cases hc

theorem newline_not_mem_padding {text : List Char} (h : Padding text) : '\n' ∉ text := by
  intro hmem
  rcases h _ hmem with hc | hc | hc <;> cases hc

/-- A line with `=` sets what stands before it, unless that is empty or a comment. -/
theorem loadLine_split (c : Config) {left right : List Char} (hleft : '=' ∉ left)
    (hcomment : (left.dropWhile isBlank).head? ≠ some '#') (hkey : trim isBlank left ≠ []) :
    loadLine c (left ++ '=' :: right)
      = c.set (String.ofList (trim isBlank left)) (String.ofList (trim isBlank right)) := by
  have hdrop : '=' ∉ left.dropWhile isBlank := fun h => hleft ((List.dropWhile_sublist _).subset h)
  have hne : left.dropWhile isBlank ≠ [] := by
    intro hnil
    rw [trim, hnil] at hkey
    exact hkey rfl
  have hhead : ¬(left.dropWhile isBlank ++ '=' :: right.rdropWhile isBlank = [] ∨
      (left.dropWhile isBlank ++ '=' :: right.rdropWhile isBlank).head? = some '#') := by
    rw [List.head?_append_of_ne_nil _ hne]
    simp [hcomment]
  simp only [loadLine, trim_split (p := isBlank) (c := '=') rfl]
  rw [if_neg hhead, if_neg (by simp), takeWhile_cut _ hdrop, dropWhile_cut _ hdrop,
    List.tail_cons, trim_dropWhile, trim_rdropWhile, if_neg hkey]

theorem loadLine_pair (c : Config) {e : Entry} {line : List Char} (h : PairLine e line) :
    loadLine c line = c.set e.key e.value := by
  cases h with
  | mk ha hb hc hd =>
      rename_i a b _ _
      have hkey : trim isBlank (a ++ e.key.toList ++ b) = e.key.toList := by
        rw [trim_pad _ (isBlank_of_padding ha) (isBlank_of_padding hb), trim_eq_self e.key_trimmed]
      have hdrop : (a ++ e.key.toList ++ b).dropWhile isBlank = e.key.toList ++ b := by
        rw [List.append_assoc, List.dropWhile_append_of_pos (isBlank_of_padding ha)]
        refine dropWhile_eq_self ?_
        rw [List.head?_append_of_ne_nil _ e.key_ne]
        exact e.key_trimmed.head
      rw [loadLine_split, hkey, trim_pad _ (isBlank_of_padding hc) (isBlank_of_padding hd),
        trim_eq_self e.value_trimmed, String.ofList_toList, String.ofList_toList]
      · simp [not_mem_of_padding (c := '=') ha rfl, not_mem_of_padding (c := '=') hb rfl,
          e.key_equals]
      · rw [hdrop, List.head?_append_of_ne_nil _ e.key_ne]
        exact e.key_comment
      · rw [hkey]
        exact e.key_ne

theorem loadLine_noise (c : Config) {line : List Char} (h : NoiseLine line) :
    loadLine c line = c := by
  have hskip : '=' ∉ line → loadLine c line = c := by
    intro hequals
    have htrim : '=' ∉ trim isBlank line := fun hmem => hequals (mem_of_mem_trim hmem)
    simp only [loadLine, if_pos htrim, ite_self]
  cases h with
  | blank hpad => exact hskip (not_mem_of_padding hpad rfl)
  | noEquals hequals => exact hskip hequals
  | comment hpad hrest =>
      have hdrop : List.dropWhile isBlank _ = [] :=
        List.dropWhile_eq_nil_iff.mpr (isBlank_of_padding hpad)
      simp only [loadLine, trim_split (p := isBlank) (c := '#') rfl, hdrop]
      rw [List.nil_append, if_pos (Or.inr List.head?_cons)]

/-! ## A whole file -/

/-- The lines carry the entries in their order, with other lines in between. -/
inductive Renders : List Entry → List (List Char) → Prop
  | nil : Renders [] []
  | noise {entries : List Entry} {line : List Char} {rest : List (List Char)}
      (hline : NoiseLine line) (hrest : Renders entries rest) : Renders entries (line :: rest)
  | pair {e : Entry} {entries : List Entry} {line : List Char} {rest : List (List Char)}
      (hline : PairLine e line) (hrest : Renders entries rest) :
      Renders (e :: entries) (line :: rest)

/-- The text of a file with these lines.  The last line may lack its newline. -/
inductive TextOf : List (List Char) → List Char → Prop
  | ended (ls : List (List Char)) : TextOf ls (unlines '\n' ls)
  | unended (ls : List (List Char)) (last : List Char) :
      TextOf (ls ++ [last]) (unlines '\n' ls ++ last)

theorem newline_not_mem_pair {e : Entry} {line : List Char} (h : PairLine e line) :
    '\n' ∉ line := by
  cases h with
  | mk ha hb hc hd =>
      simp [newline_not_mem_padding ha, newline_not_mem_padding hb, newline_not_mem_padding hc,
        newline_not_mem_padding hd, e.key_line, e.value_line]

theorem newline_not_mem_noise {line : List Char} (h : NoiseLine line) : '\n' ∉ line := by
  cases h with
  | blank hpad => exact newline_not_mem_padding hpad
  | comment hpad hrest => simp [newline_not_mem_padding hpad, hrest]
  | noEquals _ hline => exact hline

theorem newline_not_mem_of_renders {entries : List Entry} {ls : List (List Char)}
    (h : Renders entries ls) : ∀ line ∈ ls, '\n' ∉ line := by
  induction h with
  | nil => simp
  | noise hline _ ih => exact List.forall_mem_cons.mpr ⟨newline_not_mem_noise hline, ih⟩
  | pair hline _ ih => exact List.forall_mem_cons.mpr ⟨newline_not_mem_pair hline, ih⟩

/-- The entries set one after the other. -/
def setAll (c : Config) (entries : List Entry) : Config :=
  entries.foldl (fun c e => c.set e.key e.value) c

/-- Reading the lines sets the entries, from any configuration on. -/
theorem foldl_loadLine {entries : List Entry} {ls : List (List Char)} (h : Renders entries ls)
    (c : Config) : ls.foldl loadLine c = setAll c entries := by
  induction h generalizing c with
  | nil => rfl
  | noise hline _ ih => rw [List.foldl_cons, loadLine_noise c hline, ih]
  | pair hline _ ih =>
      rw [List.foldl_cons, loadLine_pair c hline, ih, setAll, setAll, List.foldl_cons]

/-- `std::getline` gives the lines that were written.  An empty last line without newline
is not seen. -/
theorem lines_of_text {ls : List (List Char)} {text : List Char} (h : TextOf ls text)
    (hls : ∀ line ∈ ls, '\n' ∉ line) : lines '\n' text = ls ∨ lines '\n' text ++ [[]] = ls := by
  cases h with
  | ended =>
      have hread := lines_unlines [] hls
      rw [List.append_nil] at hread
      exact Or.inl (hread.trans (List.append_nil ls))
  | unended ls last =>
      have hinit : ∀ line ∈ ls, '\n' ∉ line :=
        fun line hmem => hls line (List.mem_append_left _ hmem)
      have hlast : '\n' ∉ last := hls last (by simp)
      rw [lines_unlines last hinit]
      by_cases hne : last = []
      · subst hne
        exact Or.inr (by simp [lines])
      · exact Or.inl (by rw [lines_of_not_mem hlast hne])

theorem loadLine_nil (c : Config) : loadLine c [] = c :=
  loadLine_noise c (.blank (by simp [Padding]))

theorem loadFromFile_eq {entries : List Entry} {ls : List (List Char)} {text : String}
    (hls : Renders entries ls) (htext : TextOf ls text.toList) (c : Config) :
    c.loadFromFile (some text) = (setAll c entries, true) := by
  have hfold := foldl_loadLine hls c
  rw [loadFromFile, Prod.mk.injEq]
  refine ⟨?_, rfl⟩
  rcases lines_of_text htext (newline_not_mem_of_renders hls) with hread | hread
  · rw [hread, hfold]
  · rw [← hfold, ← hread, List.foldl_append, List.foldl_cons, List.foldl_nil, loadLine_nil]

theorem setAll_data_of_forall_ne {entries : List Entry} {key : String}
    (h : ∀ e ∈ entries, e.key ≠ key) (c : Config) : (setAll c entries).data key = c.data key := by
  induction entries generalizing c with
  | nil => rfl
  | cons e entries ih =>
      have hset : (c.set e.key e.value).data key = c.data key :=
        update_of_ne (h e List.mem_cons_self).symm _ _
      rw [← hset]
      exact ih (fun other hmem => h other (List.mem_cons_of_mem _ hmem)) _

/-- A file that lists the entries in any layout is read as these entries: `getString`
gives the last value of a key that is listed, and the default for every other one. -/
theorem getString_loadFromFile {entries : List Entry} {ls : List (List Char)} {text : String}
    (hls : Renders entries ls) (htext : TextOf ls text.toList) :
    (empty.loadFromFile (some text)).2 = true ∧
      (∀ before e after, entries = before ++ e :: after → (∀ other ∈ after, other.key ≠ e.key) →
        ∀ defaultValue,
          (empty.loadFromFile (some text)).1.getString e.key defaultValue = e.value) ∧
      ∀ key, (∀ e ∈ entries, e.key ≠ key) →
        ∀ defaultValue,
          (empty.loadFromFile (some text)).1.getString key defaultValue = defaultValue := by
  rw [loadFromFile_eq hls htext]
  refine ⟨rfl, ?_, ?_⟩
  · intro before e after hsplit hafter defaultValue
    have hfold : setAll empty entries = setAll ((setAll empty before).set e.key e.value) after := by
      rw [hsplit, setAll, List.foldl_append]
      rfl
    have hdata : (setAll empty entries).data e.key = some e.value := by
      rw [hfold, setAll_data_of_forall_ne hafter]
      exact update_self _ _ _
    simp only [getString, hdata, Option.getD_some]
  · intro key hnone defaultValue
    have hdata : (setAll empty entries).data key = none := setAll_data_of_forall_ne hnone empty
    simp only [getString, hdata, Option.getD_none]

/-- An entry for `self.id`. -/
def selfEntry (value : String) (htrimmed : Trimmed isBlank value.toList)
    (hline : '\n' ∉ value.toList) : Entry where
  key := "self.id"
  value := value
  key_ne := by decide
  key_trimmed := by decide
  key_equals := by decide
  key_line := by decide
  key_comment := by decide
  value_trimmed := htrimmed
  value_line := hline

/-- A name whose value has `=` and `#` in it, listed twice, among other lines. -/
theorem getString_loadFromFile_sample :
    let c := (empty.loadFromFile (some "# self\n self.id =\ta=b#1 \r\n\nport\nself.id=n2")).1
    c.getString "self.id" "self" = "n2" ∧ c.getString "port" "8080" = "8080" := by
  let first : Entry := selfEntry "a=b#1" (by decide) (by decide)
  let second : Entry := selfEntry "n2" (by decide) (by decide)
  have hfirst : PairLine first " self.id =\ta=b#1 \r".toList := by
    have hcut : " self.id =\ta=b#1 \r".toList
        = ([' '] ++ "self.id".toList ++ [' ']) ++
          '=' :: (['\t'] ++ "a=b#1".toList ++ [' ', '\r']) := by
      decide
    rw [hcut]
    exact .mk (by decide) (by decide) (by decide) (by decide)
  have hsecond : PairLine second "self.id=n2".toList := by
    have hcut : "self.id=n2".toList
        = ([] ++ "self.id".toList ++ []) ++ '=' :: ([] ++ "n2".toList ++ []) := by
      decide
    rw [hcut]
    exact .mk (by decide) (by decide) (by decide) (by decide)
  have hcomment : NoiseLine "# self".toList := .comment (by decide : Padding []) (by decide)
  have hport : NoiseLine "port".toList := .noEquals (by decide) (by decide)
  have hls := Renders.noise hcomment
    (.pair hfirst (.noise (.blank (by decide : Padding [])) (.noise hport (.pair hsecond .nil))))
  have htext := TextOf.unended ["# self".toList, " self.id =\ta=b#1 \r".toList, [], "port".toList]
    "self.id=n2".toList
  have hread : unlines '\n' ["# self".toList, " self.id =\ta=b#1 \r".toList, [], "port".toList]
      ++ "self.id=n2".toList = "# self\n self.id =\ta=b#1 \r\n\nport\nself.id=n2".toList := by
    decide
  rw [hread] at htext
  obtain ⟨-, hlast, hnone⟩ := getString_loadFromFile hls htext
  refine ⟨hlast [first] second [] rfl (by simp) "self", hnone "port" ?_ "8080"⟩
  simp [first, second, selfEntry]

end Config
end YoloServer

import Mathlib
import ColorTheme.Proofs.Layout
import ColorTheme.Proofs.Reading
/-! # The normal form of theme texts

The lines of a text that say something, each in its plainest form and numbered from 1. What a line
says in its plainest form is what it said before, so reading the normal form of a text into a
definition comes to the same as reading the text itself, up to the numbers of the lines. -/
namespace ColorTheme

open Text

namespace Line

theorem plain_comment : Plain .comment := by
  constructor
  all_goals decide

theorem plain_directive (mode : Mode) : Plain (.directive mode) := by
  constructor
  all_goals cases mode <;> decide +kernel

theorem plain_of_read_assignment {s key value : List Char} (single : '\n' ∉ s)
    (h : read s = .ok (.assignment key value)) : Plain (.assignment key value) := by
  obtain ⟨left, right, rfl, -, hvalue, hk, hkl, hv, hvl⟩ := of_read_eq_assignment h
  -- the value was cut out of the line, and cutting it once more changes nothing
  have htrim : trim value = value := by rw [hvalue, trim_dropComment_trim]
  have hcomment : dropComment value = value := by rw [hvalue, dropComment_dropComment]
  have hnewline : '\n' ∉ value := fun hc =>
    single (by simp [mem_of_mem_trim ((dropComment_isPrefix _).mem (hvalue ▸ hc))])
  exact plain_assignment hk hkl hv htrim hcomment hvl hnewline

/-- Whatever a line was read from, its plainest form is read as the same. -/
theorem plain_of_read {s : List Char} {l : Line} (single : '\n' ∉ s) (h : read s = .ok l) :
    l.Plain := by
  cases l with
  | comment => exact plain_comment
  | directive mode => exact plain_directive mode
  | assignment key value => exact plain_of_read_assignment single h

end Line

namespace Token

/-- What the tokens say, but for those that are refused. -/
def contents (tokens : List Token) : List Line := tokens.filterMap fun t => t.content.toOption

@[simp]
theorem contents_cons_ok (number : ℕ) (l : Line) (tokens : List Token) :
    contents (⟨number, .ok l⟩ :: tokens) = l :: contents tokens := rfl

@[simp]
theorem contents_cons_error (number : ℕ) (fault : Fault) (tokens : List Token) :
    contents (⟨number, .error fault⟩ :: tokens) = contents tokens := rfl

/-- Lines as tokens, one below the other. -/
def numbered : ℕ → List Line → List Token
  | _, [] => []
  | number, l :: ls => ⟨number, .ok l⟩ :: numbered (number + 1) ls

theorem content_numbered (number : ℕ) (ls : List Line) :
    (numbered number ls).map content = ls.map .ok := by
  induction ls generalizing number with
  | nil => rfl
  | cons l ls ih => simp [numbered, ih]

theorem line_numbered (number : ℕ) (ls : List Line) :
    (numbered number ls).map line = List.range' number ls.length := by
  induction ls generalizing number with
  | nil => rfl
  | cons l ls ih => simp [numbered, ih, List.range'_succ]

theorem contents_numbered (number : ℕ) (ls : List Line) : contents (numbered number ls) = ls := by
  induction ls generalizing number with
  | nil => rfl
  | cons l ls ih => simp [numbered, ih]

theorem content_of_accepted {tokens : List Token} (accepted : ∀ t ∈ tokens, t.content.isOk = true) :
    tokens.map content = (contents tokens).map .ok := by
  induction tokens with
  | nil => rfl
  | cons t tokens ih =>
    obtain ⟨number, fault | l⟩ := t
    · cases accepted _ (List.mem_cons_self ..)
    · simp [ih fun t ht => accepted t (List.mem_cons_of_mem _ ht)]

theorem ofLines_chars {ls : List Line} (plain : ∀ l ∈ ls, l.Plain) (number : ℕ) :
    ofLines number (ls.map Line.chars) = numbered number ls := by
  induction ls generalizing number with
  | nil => rfl
  | cons l ls ih =>
    have hl := plain l (List.mem_cons_self ..)
    rw [List.map_cons, ofLines, hl.trimmed, if_neg hl.nonempty, hl.readBack, numbered,
      ih fun l' hl' => plain l' (List.mem_cons_of_mem _ hl')]

theorem plain_of_mem_contents (number : ℕ) {ls : List (List Char)}
    (single : ∀ s ∈ ls, '\n' ∉ s) : ∀ l ∈ contents (ofLines number ls), l.Plain := by
  induction ls generalizing number with
  | nil => simp [ofLines, contents]
  | cons s ls ih =>
    have hs := single s (List.mem_cons_self ..)
    have hrest := ih (number + 1) fun s' hs' => single s' (List.mem_cons_of_mem _ hs')
    rw [ofLines]
    split
    · exact hrest
    · cases hread : Line.read (trim s) with
      | error fault => exact hrest
      | ok first =>
        intro l hl
        rcases List.mem_cons.1 hl with rfl | hl
        · exact Line.plain_of_read (fun hc => hs (mem_of_mem_trim hc)) hread
        · exact hrest l hl

/-- The token of a line with a new number. -/
def renumber (number : ℕ → ℕ) (t : Token) : Token := { t with line := number t.line }

/-- How many of the tokens stand on the first lines, up to a given one. -/
def place (tokens : List Token) (number : ℕ) : ℕ := tokens.countP (·.line ≤ number)

def Ascending (tokens : List Token) : Prop := tokens.Pairwise fun t u => t.line < u.line

theorem le_line_of_mem_ofLines {number : ℕ} {ls : List (List Char)} :
    ∀ t ∈ ofLines number ls, number ≤ t.line := by
  induction ls generalizing number with
  | nil => simp [ofLines]
  | cons s ls ih =>
    have hrest : ∀ t ∈ ofLines (number + 1) ls, number ≤ t.line := fun t ht =>
      (Nat.le_succ number).trans (ih t ht)
    rw [ofLines]
    split
    · exact hrest
    · exact List.forall_mem_cons.2 ⟨Nat.le_refl _, hrest⟩

theorem ascending_ofLines (number : ℕ) (ls : List (List Char)) :
    Ascending (ofLines number ls) := by
  induction ls generalizing number with
  | nil => exact List.Pairwise.nil
  | cons s ls ih =>
    rw [ofLines]
    split
    · exact ih _
    · exact List.pairwise_cons.2 ⟨fun t ht => le_line_of_mem_ofLines t ht, ih _⟩

theorem place_cons (t : Token) (tokens : List Token) (number : ℕ) :
    place (t :: tokens) number = (if t.line ≤ number then 1 else 0) + place tokens number := by
  simp [place, List.countP_cons, Nat.add_comm]

/-- The tokens of a text have the places 1, 2, 3 and so on. -/
theorem Ascending.map_place {tokens : List Token} (h : Ascending tokens) :
    tokens.map (fun t => place tokens t.line) = List.range' 1 tokens.length := by
  induction tokens with
  | nil => rfl
  | cons t tokens ih =>
    obtain ⟨hfirst, hrest⟩ := List.pairwise_cons.1 h
    have none : place tokens t.line = 0 :=
      List.countP_eq_zero.2 fun u hu => by simpa using hfirst u hu
    -- the first token takes one place before each of the others
    have others : tokens.map (fun u => place (t :: tokens) u.line) =
        (tokens.map fun u => place tokens u.line).map (1 + ·) := by
      rw [List.map_map]
      refine List.map_congr_left fun u hu => ?_
      rw [place_cons, if_pos (hfirst u hu).le]
      rfl
    rw [List.map_cons, others, ih hrest, place_cons, none, if_pos (Nat.le_refl _),
      List.map_add_range', List.length_cons, List.range'_succ]

theorem zipWith_line_content (tokens : List Token) :
    List.zipWith mk (tokens.map line) (tokens.map content) = tokens := by
  induction tokens with
  | nil => rfl
  | cons t tokens ih => simp [ih]

/-- Without a refused line among them, numbering what the tokens say anew is giving each token its
place for a number. -/
theorem numbered_contents {tokens : List Token} (h : Ascending tokens)
    (accepted : ∀ t ∈ tokens, t.content.isOk = true) :
    numbered 1 (contents tokens) = tokens.map (renumber (place tokens)) := by
  have hcontent := content_of_accepted accepted
  have hlength : (contents tokens).length = tokens.length := by
    simpa using (congrArg List.length hcontent).symm
  have hlines : (numbered 1 (contents tokens)).map line =
      (tokens.map (renumber (place tokens))).map line := by
    rw [line_numbered, hlength, ← h.map_place, List.map_map]
    rfl
  have hcontents : (numbered 1 (contents tokens)).map content =
      (tokens.map (renumber (place tokens))).map content := by
    rw [content_numbered, ← hcontent, List.map_map]
    rfl
  rw [← zipWith_line_content (numbered _ _), hlines, hcontents, zipWith_line_content]

end Token

def Outcome.renumber (number : ℕ → ℕ) (o : Outcome) : Outcome :=
  { o with duplicates := o.duplicates.map fun x => { x with line := number x.line } }

def ParseError.renumber (number : ℕ → ℕ) (e : ParseError) : ParseError :=
  { e with line := number e.line }

theorem Outcome.renumber_append (number : ℕ → ℕ) (o p : Outcome) :
    (o ++ p).renumber number = o.renumber number ++ p.renumber number := by
  simp [append_eq, renumber]

namespace Definition

/-- The result of reading with other numbers for the lines. -/
def renumber (number : ℕ → ℕ) : Except ParseError Outcome → Except ParseError Outcome
  | .ok outcome => .ok (outcome.renumber number)
  | .error e => .error (e.renumber number)

theorem insertStates_renumber (d : Definition) (number : ℕ → ℕ) (line : ℕ) (mode : Mode)
    (key : String) (value : Value) (states : List State) :
    d.insertStates (number line) mode key value states =
      ((d.insertStates line mode key value states).1,
        (d.insertStates line mode key value states).2.renumber number) := by
  induction states generalizing d with
  | nil => rfl
  | cons state states ih =>
    simp only [insertStates]
    split
    · simp only [ih, Outcome.renumber_append]
      rfl
    · simp only [ih, Outcome.renumber_append]
      rfl

theorem renumber_map_append (number : ℕ → ℕ) (first : Outcome)
    (others : Except ParseError Outcome) :
    renumber number (others.map (first ++ ·)) =
      (renumber number others).map (first.renumber number ++ ·) := by
  cases others with
  | error e => rfl
  | ok others => exact congrArg _ (Outcome.renumber_append number first others)

/-- The numbers of the lines do not matter for what is added, only for what is reported. -/
theorem readTokens_renumber (d : Definition) (mode : Mode) (number : ℕ → ℕ)
    (tokens : List Token) :
    d.readTokens mode (tokens.map (Token.renumber number)) =
      ((d.readTokens mode tokens).1, renumber number (d.readTokens mode tokens).2) := by
  induction tokens generalizing d mode with
  | nil => rfl
  | cons t tokens ih =>
    rcases t with ⟨line, fault | comment | mode' | ⟨key, text⟩⟩
    · rfl
    · exact ih d mode
    · exact ih d mode'
    · rw [List.map_cons, Token.renumber, readTokens, readTokens]
      cases Value.read key text with
      | error fault => rfl
      | ok value => simp only [assign, insertStates_renumber, ih, renumber_map_append]

/-- What a text says, line by line in the plainest form. -/
def normalForm (text : String) : String :=
  String.ofList (Line.render (Token.contents (Token.ofText text.toList)))

theorem ofText_normalForm (text : String) :
    Token.ofText (normalForm text).toList =
      Token.numbered 1 (Token.contents (Token.ofText text.toList)) := by
  have single : ∀ s ∈ lines text.toList, '\n' ∉ s := fun _ hs => newline_notMem_of_mem_lines hs
  have plain : ∀ l ∈ Token.contents (Token.ofText text.toList), l.Plain :=
    Token.plain_of_mem_contents 1 single
  rw [normalForm, String.toList_ofList, Token.ofText, Line.lines_render plain,
    Token.ofLines_chars plain]

/-- A normal form is its own normal form. -/
theorem normalForm_normalForm (text : String) : normalForm (normalForm text) = normalForm text := by
  conv_lhs => rw [normalForm, ofText_normalForm, Token.contents_numbered]
  rfl

/-- The normal form of a text without refused lines says the same on the lines 1, 2, 3 and so on.
Reading it comes to the same as reading the text, where every line has its place for a number. -/
theorem readInto_normalForm {text : String}
    (accepted : ∀ t ∈ Token.ofText text.toList, t.content.isOk = true) :
    (Token.ofText (normalForm text).toList).map Token.content =
        (Token.ofText text.toList).map Token.content ∧
      (Token.ofText (normalForm text).toList).map Token.line =
        List.range' 1 (Token.ofText text.toList).length ∧
      ∀ d : Definition, d.readInto (normalForm text) =
        ((d.readInto text).1,
          renumber (Token.place (Token.ofText text.toList)) (d.readInto text).2) := by
  have ascending : Token.Ascending (Token.ofText text.toList) := Token.ascending_ofLines 1 _
  have renumbered := ofText_normalForm text
  rw [Token.numbered_contents ascending accepted] at renumbered
  refine ⟨?_, ?_, fun d => ?_⟩
  · rw [renumbered, List.map_map]
    rfl
  · rw [renumbered, List.map_map, ← ascending.map_place]
    rfl
  · rw [readInto, renumbered, readTokens_renumber]
    rfl

/-- White space of all kinds, notes, empty lines, and a name that is written twice. -/
def untidy : String :=
  "\n".intercalate ["# Ink\r", "", "[ dark ]", "\u00a0Ink: red\t// bright\r", "", "Ink : blue"]

theorem readInto_normalForm_untidy :
    (∀ t ∈ Token.ofText untidy.toList, t.content.isOk = true) ∧
      normalForm untidy = "//\n[Dark]\nInk: red\nInk: blue\n" ∧
      (empty.readInto untidy).2 = .ok ⟨1, [⟨.dark, .any, "Ink", 6⟩]⟩ ∧
      (empty.readInto (normalForm untidy)).2 = .ok ⟨1, [⟨.dark, .any, "Ink", 4⟩]⟩ := by
  have accepted : ∀ t ∈ Token.ofText untidy.toList, t.content.isOk = true := by decide +kernel
  have valid : ∀ line ∈ lines untidy.toList, Line.fault? line = none := by decide +kernel
  have hread := readInto_of_accepted empty valid
  have houtcome : (empty.absorb (written untidy)).2 = ⟨1, [⟨.dark, .any, "Ink", 6⟩]⟩ := by
    have hfresh : (empty.fresh [] (written untidy)).length = 1 := by decide +kernel
    have hrepeated : (empty.repeated [] (written untidy)).map Written.duplicate =
        [⟨.dark, .any, "Ink", 6⟩] := by decide +kernel
    rw [(absorb_written indexed_empty untidy).2, hfresh, hrepeated]
  rw [houtcome] at hread
  obtain ⟨-, -, hnormal⟩ := readInto_normalForm accepted
  refine ⟨accepted, by decide +kernel, by rw [hread], ?_⟩
  rw [hnormal, hread]
  decide +kernel

end Definition

end ColorTheme

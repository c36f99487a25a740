import Mathlib
import ColorTheme.Proofs.Layout
import ColorTheme.Proofs.Reading
/-! # Texts that are refused

Reading stops at the first line that is refused, whatever stands below it. What is kept by then is
what the lines above it, read on their own, would have added. -/
namespace ColorTheme

namespace Text

/-- Nothing follows on the line: the text is empty or starts with a line break. -/
def EndsLine (s : List Char) : Prop := ∀ c ∈ s.head?, c = '\n'

/-- Lines with a line break behind each of them. -/
def unlines (ls : List (List Char)) : List Char := ls.flatMap (· ++ ['\n'])

theorem of_lines_eq_cons {s line : List Char} {rest : List (List Char)}
    (h : lines s = line :: rest) :
    ∃ tail, s = line ++ tail ∧ EndsLine tail ∧ rest = lines (tail.drop 1) := by
  induction s generalizing line rest with
  | nil => cases h
  | cons c s ih =>
    rw [lines] at h
    split at h
    · rename_i hc
      cases h
      exact ⟨c :: s, rfl, by simp [EndsLine, hc], rfl⟩
    · cases hs : lines s with
      | nil =>
        obtain rfl : s = [] := by
          by_contra hne
          exact lines_ne_nil hne hs
        cases h
        exact ⟨[], rfl, by simp [EndsLine], rfl⟩
      | cons first others =>
        rw [hs] at h
        cases h
        obtain ⟨tail, rfl, hends, hrest⟩ := ih hs
        exact ⟨tail, rfl, hends, hrest⟩

theorem lines_append_of_endsLine {line tail : List Char} (single : '\n' ∉ line)
    (filled : line ≠ []) (ends : EndsLine tail) :
    lines (line ++ tail) = line :: lines (tail.drop 1) := by
  cases tail with
  | nil =>
    obtain ⟨first, rest, hl⟩ := List.exists_cons_of_ne_nil (lines_ne_nil filled)
    obtain ⟨tail, hs, hends, hrest⟩ := of_lines_eq_cons hl
    cases tail with
    | nil => simp_all
    | cons c tail =>
      obtain rfl : c = '\n' := hends c rfl
      simp [hs] at single
  | cons c tail =>
    obtain rfl : c = '\n' := ends c rfl
    exact lines_append_newline single tail

theorem lines_unlines_append {ls : List (List Char)} (single : ∀ l ∈ ls, '\n' ∉ l)
    (rest : List Char) : lines (unlines ls ++ rest) = ls ++ lines rest := by
  induction ls with
  | nil => rfl
  | cons l ls ih =>
    have hl := lines_append_newline (single l (by simp)) (unlines ls ++ rest)
    rw [ih fun l' hl' => single l' (by simp [hl'])] at hl
    simpa [unlines] using hl

/-- A text is its first lines, with a line break behind each of them, one further line, and what
stands behind that line. -/
theorem of_lines_eq_append {s line : List Char} {above below : List (List Char)}
    (h : lines s = above ++ line :: below) :
    ∃ tail, s = unlines above ++ line ++ tail ∧ EndsLine tail ∧ below = lines (tail.drop 1) := by
  induction above generalizing s with
  | nil => exact of_lines_eq_cons h
  | cons first above ih =>
    obtain ⟨rest, rfl, hends, hrest⟩ := of_lines_eq_cons h
    cases rest with
    | nil => simp [lines] at hrest
    | cons c rest =>
      obtain rfl : c = '\n' := hends c rfl
      obtain ⟨tail, hs, htail, hbelow⟩ := ih hrest.symm
      rw [List.drop_one, List.tail_cons] at hs
      exact ⟨tail, by simp [unlines, hs], htail, hbelow⟩

theorem lines_eq_append {above : List (List Char)} {line tail : List Char}
    (single : ∀ l ∈ above ++ [line], '\n' ∉ l) (filled : line ≠ []) (ends : EndsLine tail) :
    lines (unlines above ++ line ++ tail) = above ++ line :: lines (tail.drop 1) := by
  rw [List.append_assoc, lines_unlines_append fun l hl => single l (by simp [hl]),
    lines_append_of_endsLine (single line (by simp)) filled ends]

end Text

open Text

theorem Line.trim_ne_nil_of_fault? {line : List Char} {fault : Fault}
    (h : fault? line = some fault) : trim line ≠ [] := by
  intro ht
  rw [fault?, if_pos ht] at h
  cases h

namespace Definition

/-- Up to the first refused line, reading adds what the lines write, whatever stands below. -/
theorem readTokens_of_refused (d : Definition) (above : List (List Char))
    {rest : List (List Char)} (accepted : ∀ line ∈ rest, Line.fault? line = none)
    {line : List Char} {fault : Fault} (refused : Line.fault? line = some fault)
    (below : List (List Char)) :
    d.readTokens (Line.modeBelow above) (Token.ofLines (above.length + 1) (rest ++ line :: below)) =
      ((d.absorb (Line.writtenBelow above rest)).1,
        .error ⟨above.length + rest.length + 1, fault⟩) := by
  -- `above` grows with each line read: it fixes the mode and the number of the next one
  induction rest generalizing above d with
  | nil =>
    rw [List.nil_append, readTokens_ofLines_cons, refused]
    rfl
  | cons first rest ih =>
    have hmode := Line.modeBelow_concat above first
    have hlength : (above ++ [first]).length = above.length + 1 := by simp
    have hnumber : above.length + 1 + rest.length + 1 = above.length + (rest.length + 1) + 1 := by
      omega
    have hrest := fun d => ih d (above ++ [first]) fun l hl => accepted l (by simp [hl])
    rw [hmode, hlength, hnumber] at hrest
    rw [List.cons_append, readTokens_ofLines_cons, accepted first (by simp)]
    simp only [hrest, Line.writtenBelow, withPrefixes, List.flatMap_cons, absorb_append]
    rfl

theorem readInto_of_refused (d : Definition) {text : String} {above below : List (List Char)}
    {line : List Char} (hl : lines text.toList = above ++ line :: below)
    (accepted : ∀ line ∈ above, Line.fault? line = none) {fault : Fault}
    (refused : Line.fault? line = some fault) :
    d.readInto text =
      ((d.absorb (Line.writtenBelow [] above)).1, .error ⟨above.length + 1, fault⟩) := by
  have hr := d.readTokens_of_refused [] accepted refused below
  rw [List.length_nil, Nat.zero_add, Nat.zero_add] at hr
  rw [readInto, Token.ofText, hl]
  exact hr

/-- Where reading fails, some line is the first that is refused. -/
theorem exists_refused {d d' : Definition} {text : String} {e : ParseError}
    (h : d.readInto text = (d', .error e)) : ∃ above line below fault,
    lines text.toList = above ++ line :: below ∧
      (∀ line ∈ above, Line.fault? line = none) ∧ Line.fault? line = some fault := by
  cases hf : (lines text.toList).find? fun line => (Line.fault? line).isSome with
  | none =>
    have accepted : ∀ line ∈ lines text.toList, Line.fault? line = none := by simpa using hf
    rw [readInto_of_accepted d accepted] at h
    cases h
  | some line =>
    obtain ⟨hline, above, below, hl, habove⟩ := List.find?_eq_some_iff_append.1 hf
    obtain ⟨fault, hfault⟩ := Option.isSome_iff_exists.1 hline
    exact ⟨above, line, below, fault, hl, by simpa using habove, hfault⟩

/-- A text that cannot be read parts at the line that the error names, which is not blank: the lines
above it can be read and leave the same definition, and with anything else below it the text fails
in the same way. -/
theorem readInto_eq_error {d d' : Definition} {text : String} {e : ParseError}
    (h : d.readInto text = (d', .error e)) : ∃ head line tail,
    text.toList = head ++ line ++ tail ∧ EndsLine tail ∧
      lines text.toList = lines head ++ line :: lines (tail.drop 1) ∧
      e.line = (lines head).length + 1 ∧ trim line ≠ [] ∧
      (∃ outcome, d.readInto (String.ofList head) = (d', .ok outcome)) ∧
      ∀ other, EndsLine other →
        d.readInto (String.ofList (head ++ line ++ other)) = (d', .error e) := by
  obtain ⟨above, line, below, fault, hl, accepted, refused⟩ := exists_refused h
  have single : ∀ l ∈ above ++ [line], '\n' ∉ l := by
    intro l hm
    have hmem : l ∈ lines text.toList := by
      rw [hl, List.append_cons]
      exact List.mem_append_left _ hm
    exact newline_notMem_of_mem_lines hmem
  have hblank := Line.trim_ne_nil_of_fault? refused
  have filled : line ≠ [] := by
    rintro rfl
    exact hblank rfl
  have hhead : lines (unlines above) = above :=
    lines_flatMap_of_notMem fun l hm => single l (by simp [hm])
  obtain ⟨tail, htext, hends, -⟩ := of_lines_eq_append hl
  have hread := d.readInto_of_refused hl accepted refused
  rw [h] at hread
  cases hread
  have hstart : ∀ l ∈ lines (String.ofList (unlines above)).toList, Line.fault? l = none := by
    simpa [hhead] using accepted
  have hbegin := d.readInto_of_accepted hstart
  rw [written, String.toList_ofList, hhead] at hbegin
  refine ⟨unlines above, line, tail, htext, hends, ?_, ?_, hblank, ⟨_, hbegin⟩,
    fun other hother => ?_⟩
  · rw [htext, lines_eq_append single filled hends, hhead]
  · rw [hhead]
  · have hlines : lines (String.ofList (unlines above ++ line ++ other)).toList =
        above ++ line :: lines (other.drop 1) := by
      rw [String.toList_ofList, lines_eq_append single filled hother]
    exact d.readInto_of_refused hlines accepted refused

/-- A key of two states above a call with too few arguments, and a line without a colon. -/
def faulty : String := "\n".intercalate
  ["[Dark]", "Ink_Hovered_Pressed: white // bright", "", "Glow: Mix(Ink)", "Dim"]

theorem readInto_faulty : ∃ d', empty.readInto faulty = (d', .error ⟨4, .argumentCount .mix 1⟩) ∧
    d'.size = 2 ∧ ∃ head line, (lines head).length = 3 ∧
      (∃ outcome, empty.readInto (String.ofList head) = (d', .ok outcome)) ∧
      empty.readInto (String.ofList (head ++ line ++ "\nInk: red".toList)) =
        (d', .error ⟨4, .argumentCount .mix 1⟩) := by
  let above := ["[Dark]".toList, "Ink_Hovered_Pressed: white // bright".toList, []]
  have hl : lines faulty.toList = above ++ "Glow: Mix(Ink)".toList :: ["Dim".toList] := by
    decide +kernel
  have accepted : ∀ line ∈ above, Line.fault? line = none := by decide +kernel
  have refused : Line.fault? "Glow: Mix(Ink)".toList = some (.argumentCount .mix 1) := by
    decide +kernel
  have hread := empty.readInto_of_refused hl accepted refused
  have typed : ∀ w ∈ Line.writtenBelow [] above, w.entry.value.wellTyped = true := by
    decide +kernel
  obtain ⟨hentries, -⟩ := absorb_eq indexed_empty typed taken_nil
  have hfresh : (empty.fresh [] (Line.writtenBelow [] above)).length = 2 := by decide +kernel
  obtain ⟨head, line, tail, -, -, -, hline, -, hstart, hother⟩ := readInto_eq_error hread
  refine ⟨_, hread, ?_, head, line, ?_, hstart, ?_⟩
  · rw [size, hentries]
    simpa [empty] using hfresh
  · exact (Nat.succ.inj hline).symm
  · exact hother _ (by simp [EndsLine])

end Definition

end ColorTheme

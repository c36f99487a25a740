import Mathlib
import ColorTheme.Proofs.Layout
/-! # The spacing of theme texts

What a text says does not depend on how it is laid out: on the line ends that it uses, on the white
space around the content of a line, or on notes behind its assignments. -/
namespace ColorTheme

namespace Text

/-- The text between the line breaks is the lines, and an empty one behind a last line break. -/
theorem splitOn_newline (s : List Char) :
    s.splitOn '\n' = lines s ∨ s.splitOn '\n' = lines s ++ [[]] := by
  induction s with
  | nil => exact Or.inr rfl
  | cons c s ih =>
    rw [List.splitOn_cons_eq_if_modifyHead, lines]
    by_cases hc : c = '\n'
    · simpa [hc] using ih
    · cases hs : lines s with
      | nil =>
        obtain rfl : s = [] := by
          by_contra hne
          exact lines_ne_nil hne hs
        simp [hc]
      | cons line rest =>
        rw [hs] at ih
        rcases ih with h | h
        · simp [hc, h]
        · simp [hc, h]

theorem length_splitOn (c : Char) (s : List Char) : (s.splitOn c).length = s.count c + 1 := by
  induction s with
  | nil => rfl
  | cons d s ih =>
    rw [List.splitOn_cons_eq_if_modifyHead]
    by_cases hd : d = c
    · simp [hd, ih]
    · simp [hd, ih]

/-- A carriage return before every line break. -/
def withReturns (s : List Char) : List Char :=
  s.flatMap fun c => if c = '\n' then ['\r', '\n'] else [c]

theorem splitOn_withReturns (s : List Char) :
    List.Forall₂ (fun l l' => l' = l ∨ l' = l ++ ['\r']) (s.splitOn '\n')
      ((withReturns s).splitOn '\n') := by
  induction s with
  | nil => simp [withReturns]
  | cons c s ih =>
    rw [withReturns, List.flatMap_cons, ← withReturns, List.splitOn_cons_eq_if_modifyHead]
    by_cases hc : c = '\n'
    · simpa [hc, List.splitOn_cons_eq_if_modifyHead] using ih
    · rw [if_neg hc, List.singleton_append, List.splitOn_cons_eq_if_modifyHead]
      simp only [beq_iff_eq, hc, if_false]
      generalize s.splitOn '\n' = ls at ih
      generalize (withReturns s).splitOn '\n' = ls' at ih
      cases ih with
      | nil => exact .nil
      | cons hl hls =>
        refine .cons ?_ hls
        rcases hl with rfl | rfl
        · exact Or.inl rfl
        · exact Or.inr rfl

end Text

open Text

namespace Line

/-- Where nothing is left of what stands behind a value, the value is left as it is. -/
theorem trimEnd_beforeComment_append {t : List Char} (hh : t.head? ≠ some '/')
    (ht : ∀ blank, trimEnd (beforeComment blank t) = []) (blank : Bool) (s : List Char) :
    trimEnd (beforeComment blank (s ++ t)) = trimEnd (beforeComment blank s) := by
  induction s generalizing blank with
  | nil =>
    rw [List.nil_append, ht]
    rfl
  | cons c s ih =>
    have hstart : (s ++ t).head? = some '/' ↔ s.head? = some '/' := by
      cases s with
      | nil => simp [hh]
      | cons d s => simp
    simp only [List.cons_append, beforeComment, hstart]
    split
    · rfl
    · exact trimEnd_append_congr (ih (isBlank c)) [c]

theorem dropComment_trim (s : List Char) : dropComment (trim s) = dropComment (trimStart s) := by
  obtain ⟨after, hs, ha⟩ := exists_trimEnd_append (trimStart s)
  have hhead : after.head? ≠ some '/' := fun h =>
    absurd (ha '/' (List.mem_of_mem_head? h)) (by decide)
  have hblank (blank : Bool) : trimEnd (beforeComment blank after) = [] :=
    trimEnd_eq_nil_iff.2 fun c hc => ha c ((beforeComment_isPrefix _ _).mem hc)
  have happend := trimEnd_beforeComment_append hhead hblank true (trimEnd (trimStart s))
  rw [← hs] at happend
  exact happend.symm

/-- A note behind a value leaves the value as it was. -/
theorem dropComment_note {value : List Char} (hv : trim value ≠ []) {c : Char}
    (hc : isBlank c = true) (note : List Char) :
    dropComment (trim (value ++ c :: '/' :: '/' :: note)) = dropComment (trim value) := by
  have hstart : trimStart value ≠ [] := by
    intro h
    rw [trim, h] at hv
    exact hv rfl
  have hslash : c ≠ '/' := by
    rintro rfl
    revert hc
    decide
  have hnote (blank : Bool) : trimEnd (beforeComment blank (c :: '/' :: '/' :: note)) = [] := by
    simp [beforeComment, hslash, hc, trimEnd]
  rw [dropComment_trim, dropComment_trim, trimStart_append hstart, dropComment,
    trimEnd_beforeComment_append (by simpa using hslash) hnote, dropComment]

theorem readAssignment_congr {value value' : List Char}
    (h : dropComment value' = dropComment value) (key : List Char) :
    readAssignment key value' = readAssignment key value := by
  simp only [readAssignment, h]

/-- A line that is read as an assignment says the same with a note behind it. -/
theorem read_note {line key value : List Char} (h : read (trim line) = .ok (.assignment key value))
    {c : Char} (hc : isBlank c = true) (note : List Char) :
    read (trim (line ++ c :: '/' :: '/' :: note)) = .ok (.assignment key value) := by
  obtain ⟨left, right, hcut, hkey, hvalue, hk, -, hv, -⟩ := of_read_eq_assignment h
  obtain ⟨before, after, hline, hb, ha⟩ := exists_append_trim line
  rw [hcut] at hline
  have hsplit : line = (before ++ left) ++ ':' :: (right ++ after) := by simpa using hline
  have hleft : trim (before ++ left) = key := by rw [trim_of_blank_append hb, hkey]
  have hright : trim (right ++ after) ≠ [] := by
    intro hnil
    rw [trim_append_of_blank ha] at hnil
    rw [hvalue, hnil] at hv
    exact hv rfl
  calc
    _ = read (trim ((before ++ left) ++ ':' :: (right ++ after ++ c :: '/' :: '/' :: note))) := by
      simp [hsplit]
    _ = readAssignment key (trim (right ++ after ++ c :: '/' :: '/' :: note)) := by
      rw [read_trim_eq_readAssignment (by rwa [hleft]), hleft]
    _ = readAssignment key (trim (right ++ after)) :=
      readAssignment_congr (dropComment_note hright hc note) key
    _ = read (trim line) := by
      rw [hsplit, read_trim_eq_readAssignment (by rwa [hleft]), hleft]
    _ = _ := h

end Line

namespace Line

/-- What a line says or why it is refused, unless it is blank. -/
def content? (line : List Char) : Option (Except Fault Line) :=
  if trim line = [] then none else some (read (trim line))

/-- Ways to lay out a line that leave what it says: other white space around it, or a note behind an
assignment. -/
inductive Relaid : List Char → List Char → Prop
  | spaced (before content after before' after' : List Char)
      (blank : ∀ c ∈ before ++ after ++ before' ++ after', isBlank c = true) :
      Relaid (before ++ content ++ after) (before' ++ content ++ after')
  | noted {line key value : List Char} (assigned : read (trim line) = .ok (.assignment key value))
      {c : Char} (blank : isBlank c = true) (note : List Char) :
      Relaid line (line ++ c :: '/' :: '/' :: note)

theorem Relaid.content?_eq {line line' : List Char} (h : Relaid line line') :
    content? line' = content? line := by
  cases h with
  | spaced before content after before' after' blank =>
    have hline : trim (before ++ content ++ after) = trim content := by
      rw [trim_append_of_blank fun c hc => blank c (by simp [hc]),
        trim_of_blank_append fun c hc => blank c (by simp [hc])]
    have hline' : trim (before' ++ content ++ after') = trim content := by
      rw [trim_append_of_blank fun c hc => blank c (by simp [hc]),
        trim_of_blank_append fun c hc => blank c (by simp [hc])]
    rw [content?, content?, hline, hline']
  | noted assigned blank note =>
    have hread := read_note assigned blank note
    have filled {s : List Char} {l : Line} (hs : read (trim s) = .ok l) : trim s ≠ [] := by
      intro hnil
      rw [hnil] at hs
      cases hs
    rw [content?, content?, if_neg (filled hread), if_neg (filled assigned), hread, assigned]

end Line

namespace Token

theorem ofLines_append (number : ℕ) (ls ls' : List (List Char)) :
    ofLines number (ls ++ ls') = ofLines number ls ++ ofLines (number + ls.length) ls' := by
  induction ls generalizing number with
  | nil => rfl
  | cons l ls ih =>
    have hnumber : number + 1 + ls.length = number + (ls.length + 1) := by omega
    simp only [List.cons_append, ofLines, ih, List.length_cons, hnumber]
    split
    · rfl
    · rfl

theorem ofText_eq_ofLines (s : List Char) : ofText s = ofLines 1 (s.splitOn '\n') := by
  rcases splitOn_newline s with h | h
  · rw [ofText, h]
  · rw [ofText, h, ofLines_append]
    exact (List.append_nil _).symm

theorem ofLines_cons (number : ℕ) (l : List Char) (ls : List (List Char)) :
    ofLines number (l :: ls) =
      ((Line.content? l).map (mk number)).toList ++ ofLines (number + 1) ls := by
  rw [ofLines, Line.content?]
  split
  · rfl
  · rfl

theorem ofLines_relaid {ls ls' : List (List Char)} (h : List.Forall₂ Line.Relaid ls ls')
    (number : ℕ) : ofLines number ls' = ofLines number ls := by
  induction h generalizing number with
  | nil => rfl
  | cons hl _ ih => rw [ofLines_cons, ofLines_cons, hl.content?_eq, ih]

/-- A text keeps its tokens when its lines end in carriage returns too, and when any of its lines
are laid out in another way. -/
theorem ofText_relaid (s : List Char) :
    ofText (withReturns s) = ofText s ∧
      ∀ t, List.Forall₂ Line.Relaid (s.splitOn '\n') (t.splitOn '\n') → ofText t = ofText s := by
  have hrelaid (t : List Char) (h : List.Forall₂ Line.Relaid (s.splitOn '\n') (t.splitOn '\n')) :
      ofText t = ofText s := by
    rw [ofText_eq_ofLines, ofText_eq_ofLines, ofLines_relaid h]
  refine ⟨hrelaid _ ((splitOn_withReturns s).imp ?_), hrelaid⟩
  rintro l l' (rfl | rfl)
  · simpa using Line.Relaid.spaced [] l' [] [] [] (by simp)
  · have hreturn : isBlank '\r' = true := by decide
    simpa using Line.Relaid.spaced [] l [] [] ['\r'] (by simpa using hreturn)

/-- A section and a value with slashes of its own. -/
def compact : List Char := "[Dark]\nInk: a//b // x".toList

/-- The same with line ends and white space of all kinds, and with a note that looks like a key. -/
def roomy : List Char := "\u00a0[Dark]\t\r\nInk: a//b // x\u3000// Ink: y //".toList

theorem ofText_relaid_roomy :
    List.Forall₂ Line.Relaid (compact.splitOn '\n') (roomy.splitOn '\n') ∧
      ofText roomy = ofText compact := by
  have hlines : compact.splitOn '\n' = ["[Dark]".toList, "Ink: a//b // x".toList] := by decide
  have hlines' : roomy.splitOn '\n' = [['\u00a0'] ++ "[Dark]".toList ++ ['\t', '\r'],
      "Ink: a//b // x".toList ++ '\u3000' :: '/' :: '/' :: " Ink: y //".toList] := by decide
  have hassigned : Line.read (trim "Ink: a//b // x".toList) =
      .ok (.assignment "Ink".toList "a//b".toList) := by decide
  have hblank : isBlank '\u00a0' = true ∧ isBlank '\t' = true ∧ isBlank '\r' = true ∧
      isBlank '\u3000' = true := by decide
  have hrelaid : List.Forall₂ Line.Relaid (compact.splitOn '\n') (roomy.splitOn '\n') := by
    rw [hlines, hlines']
    exact .cons (.spaced [] "[Dark]".toList [] ['\u00a0'] ['\t', '\r'] (by simp [hblank]))
      (.cons (.noted hassigned hblank.2.2.2 _) .nil)
  exact ⟨hrelaid, (ofText_relaid compact).2 roomy hrelaid⟩

end Token

end ColorTheme

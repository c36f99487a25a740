import Mathlib
import ColorTheme.Line
/-! # The layout of theme texts

Which characters end a line, stand around its content or divide it, and that names hold none of
them: a key and a value that were written down as an assignment are read back unchanged. -/
namespace ColorTheme

namespace Text

theorem trimStart_eq_self {s : List Char} (h : ∀ c ∈ s.head?, isBlank c = false) :
    trimStart s = s := by
  cases s with
  | nil => rfl
  | cons c s =>
    rw [trimStart_cons, h c (by simp)]
    rfl

theorem trimEnd_eq_self {s : List Char} (h : ∀ c ∈ s.getLast?, isBlank c = false) :
    trimEnd s = s := by
  rcases List.eq_nil_or_concat s with rfl | ⟨s, c, rfl⟩
  · rfl
  · rw [List.concat_eq_append] at h ⊢
    rw [trimEnd_concat, h c (by simp)]
    rfl

theorem trim_eq_self {s : List Char} (hh : ∀ c ∈ s.head?, isBlank c = false)
    (hl : ∀ c ∈ s.getLast?, isBlank c = false) : trim s = s := by
  rw [trim, trimStart_eq_self hh, trimEnd_eq_self hl]

theorem trim_of_not_blank {s : List Char} (h : ∀ c ∈ s, isBlank c = false) : trim s = s :=
  trim_eq_self (fun c hc => h c (List.mem_of_mem_head? hc))
    fun c hc => h c (List.mem_of_mem_getLast? hc)

theorem trimEnd_eq_rdropWhile (s : List Char) : trimEnd s = s.rdropWhile isBlank := rfl

theorem trimEnd_isPrefix (s : List Char) : trimEnd s <+: s := List.rdropWhile_prefix isBlank s

theorem not_blank_of_mem_getLast?_trimEnd {s : List Char} {c : Char}
    (h : c ∈ (trimEnd s).getLast?) : isBlank c = false := by
  rw [trimEnd_eq_rdropWhile] at h
  obtain ⟨hne, rfl⟩ := List.mem_getLast?_eq_getLast h
  simpa using List.rdropWhile_last_not isBlank s hne

theorem not_blank_of_mem_head?_trimStart {s : List Char} {c : Char}
    (h : c ∈ (trimStart s).head?) : isBlank c = false := by
  have hn := List.head?_dropWhile_not isBlank s
  rw [← trimStart, Option.mem_def.1 h] at hn
  exact hn

/-- A text that starts like another one has its first character. -/
theorem mem_head?_of_isPrefix {s t : List Char} (h : s <+: t) {c : Char} (hc : c ∈ s.head?) :
    c ∈ t.head? := by
  obtain ⟨rest, rfl⟩ := h
  rw [List.head?_append, Option.mem_def.1 hc]
  rfl

theorem not_blank_of_mem_head?_trim {s : List Char} {c : Char} (h : c ∈ (trim s).head?) :
    isBlank c = false :=
  not_blank_of_mem_head?_trimStart (mem_head?_of_isPrefix (trimEnd_isPrefix _) h)

theorem trim_trim (s : List Char) : trim (trim s) = trim s :=
  trim_eq_self (fun _ hc => not_blank_of_mem_head?_trim hc)
    fun _ hc => not_blank_of_mem_getLast?_trimEnd hc

theorem mem_of_mem_trim {s : List Char} {c : Char} (h : c ∈ trim s) : c ∈ s :=
  (List.dropWhile_sublist _).mem ((trimEnd_isPrefix _).mem h)

theorem trimStart_of_blank_append {w : List Char} (hw : ∀ c ∈ w, isBlank c = true)
    (s : List Char) : trimStart (w ++ s) = trimStart s :=
  List.dropWhile_append_of_pos hw

theorem trimStart_append {s : List Char} (hs : trimStart s ≠ []) (t : List Char) :
    trimStart (s ++ t) = trimStart s ++ t := by
  unfold trimStart at *
  simp [List.dropWhile_append, hs]

theorem trimEnd_append_of_blank {w : List Char} (hw : ∀ c ∈ w, isBlank c = true)
    (s : List Char) : trimEnd (s ++ w) = trimEnd s := by
  unfold trimEnd
  rw [List.reverse_append, List.dropWhile_append_of_pos (by simpa using hw)]

theorem trimEnd_append {t : List Char} (ht : trimEnd t ≠ []) (s : List Char) :
    trimEnd (s ++ t) = s ++ trimEnd t := by
  unfold trimEnd at *
  simp_all [List.dropWhile_append]

theorem trimStart_append_cons {c : Char} (hc : isBlank c = false) (s t : List Char) :
    trimStart (s ++ c :: t) = trimStart s ++ c :: t := by
  unfold trimStart
  by_cases hs : s.dropWhile isBlank = []
  · simp [List.dropWhile_append, hs, hc]
  · simp [List.dropWhile_append, hs]

theorem trimEnd_append_cons {c : Char} (hc : isBlank c = false) (s t : List Char) :
    trimEnd (s ++ c :: t) = s ++ c :: trimEnd t := by
  have hrev := congrArg List.reverse (trimStart_append_cons hc t.reverse s.reverse)
  simpa [trimStart, trimEnd] using hrev

theorem trim_append_cons {c : Char} (hc : isBlank c = false) (s t : List Char) :
    trim (s ++ c :: t) = trimStart s ++ c :: trimEnd t := by
  rw [trim, trimStart_append_cons hc, trimEnd_append_cons hc]

theorem trimEnd_eq_nil_iff {s : List Char} : trimEnd s = [] ↔ ∀ c ∈ s, isBlank c = true := by
  simp [trimEnd]

theorem trimEnd_append_congr {s t : List Char} (h : trimEnd s = trimEnd t) (before : List Char) :
    trimEnd (before ++ s) = trimEnd (before ++ t) := by
  by_cases hs : trimEnd s = []
  · have ht : trimEnd t = [] := by rw [← h, hs]
    rw [trimEnd_append_of_blank (trimEnd_eq_nil_iff.1 hs),
      trimEnd_append_of_blank (trimEnd_eq_nil_iff.1 ht)]
  · have ht : trimEnd t ≠ [] := by rwa [← h]
    rw [trimEnd_append hs, trimEnd_append ht, h]

theorem trim_of_blank_append {w : List Char} (hw : ∀ c ∈ w, isBlank c = true) (s : List Char) :
    trim (w ++ s) = trim s := by
  rw [trim, trimStart_of_blank_append hw, trim]

theorem trim_append_of_blank {w : List Char} (hw : ∀ c ∈ w, isBlank c = true) (s : List Char) :
    trim (s ++ w) = trim s := by
  by_cases hs : trimStart s = []
  · have hblank : ∀ c ∈ s, isBlank c = true := List.dropWhile_eq_nil_iff.1 hs
    have hw' : trimStart w = [] := List.dropWhile_eq_nil_iff.2 hw
    rw [trim_of_blank_append hblank, trim, trim, hs, hw']
  · rw [trim, trimStart_append hs, trimEnd_append_of_blank hw, trim]

theorem exists_append_trimStart (s : List Char) :
    ∃ before, s = before ++ trimStart s ∧ ∀ c ∈ before, isBlank c = true :=
  ⟨s.takeWhile isBlank, List.takeWhile_append_dropWhile.symm, fun _ hc => List.mem_takeWhile_imp hc⟩

theorem exists_trimEnd_append (s : List Char) :
    ∃ after, s = trimEnd s ++ after ∧ ∀ c ∈ after, isBlank c = true :=
  ⟨s.rtakeWhile isBlank, List.rdropWhile_append_rtakeWhile.symm,
    fun _ hc => List.mem_rtakeWhile_imp hc⟩

/-- A text is its content with white space before and after it. -/
theorem exists_append_trim (s : List Char) : ∃ before after, s = before ++ trim s ++ after ∧
    (∀ c ∈ before, isBlank c = true) ∧ ∀ c ∈ after, isBlank c = true := by
  obtain ⟨before, hs, hb⟩ := exists_append_trimStart s
  obtain ⟨after, ht, ha⟩ := exists_trimEnd_append (trimStart s)
  refine ⟨before, after, ?_, hb, ha⟩
  rw [List.append_assoc, trim, ← ht, ← hs]

theorem trim_trimStart (s : List Char) : trim (trimStart s) = trim s := by
  obtain ⟨before, hs, hb⟩ := exists_append_trimStart s
  have htrim := trim_of_blank_append hb (trimStart s)
  rwa [← hs, eq_comm] at htrim

theorem trim_trimEnd (s : List Char) : trim (trimEnd s) = trim s := by
  obtain ⟨after, hs, ha⟩ := exists_trimEnd_append s
  have htrim := trim_append_of_blank ha (trimEnd s)
  rwa [← hs, eq_comm] at htrim

theorem mem_trim_of_mem {s : List Char} {c : Char} (h : c ∈ s) (hc : isBlank c = false) :
    c ∈ trim s := by
  obtain ⟨before, after, hs, hb, ha⟩ := exists_append_trim s
  rw [hs] at h
  simp only [List.mem_append] at h
  rcases h with (h | h) | h
  · simp [hb c h] at hc
  · exact h
  · simp [ha c h] at hc

theorem lines_append_newline {s : List Char} (h : '\n' ∉ s) (rest : List Char) :
    lines (s ++ '\n' :: rest) = s :: lines rest := by
  induction s with
  | nil => rfl
  | cons c s ih =>
    simp only [List.mem_cons, not_or] at h
    rw [List.cons_append, lines, if_neg (Ne.symm h.1), ih h.2]

theorem lines_ne_nil {s : List Char} (h : s ≠ []) : lines s ≠ [] := by
  cases s with
  | nil => exact absurd rfl h
  | cons c s =>
    rw [lines]
    split
    · exact List.cons_ne_nil _ _
    · split
      · exact List.cons_ne_nil _ _
      · exact List.cons_ne_nil _ _

/-- A line break parts the lines before it from those behind it. -/
theorem lines_append_cons (s rest : List Char) :
    lines (s ++ '\n' :: rest) = lines (s ++ ['\n']) ++ lines rest := by
  induction s with
  | nil => rfl
  | cons c s ih =>
    obtain ⟨line, others, hs⟩ : ∃ line others, lines (s ++ ['\n']) = line :: others :=
      List.exists_cons_of_ne_nil (lines_ne_nil (by simp))
    rw [List.cons_append, lines, ih, List.cons_append, lines, hs]
    split
    · rfl
    · rfl

theorem lines_flatMap (ls : List (List Char)) :
    lines (ls.flatMap (· ++ ['\n'])) = ls.flatMap fun l => lines (l ++ ['\n']) := by
  induction ls with
  | nil => rfl
  | cons l ls ih =>
    rw [List.flatMap_cons, List.append_assoc, List.singleton_append, lines_append_cons, ih,
      List.flatMap_cons]

theorem lines_flatMap_of_notMem {ls : List (List Char)} (h : ∀ l ∈ ls, '\n' ∉ l) :
    lines (ls.flatMap (· ++ ['\n'])) = ls := by
  have single : ∀ l ∈ ls, lines (l ++ ['\n']) = [l] := fun l hl => lines_append_newline (h l hl) []
  rw [lines_flatMap, List.flatMap_congr single, List.flatMap_singleton']

theorem newline_notMem_of_mem_lines {s line : List Char} (h : line ∈ lines s) : '\n' ∉ line := by
  induction s generalizing line with
  | nil => cases h
  | cons c s ih =>
    rw [lines] at h
    split at h
    · rcases List.mem_cons.1 h with rfl | h
      · exact List.not_mem_nil
      · exact ih h
    · rename_i hc
      cases hs : lines s with
      | nil =>
        rw [hs] at h
        obtain rfl : line = [c] := by simpa using h
        simpa using Ne.symm hc
      | cons first others =>
        rw [hs] at h ih
        rcases List.mem_cons.1 h with rfl | h
        · simpa [Ne.symm hc] using ih (List.mem_cons_self ..)
        · exact ih (List.mem_cons_of_mem _ h)

/-- The last line ends as the text before the last line break does. -/
theorem exists_getLast?_lines {s ending : List Char} (h : ending <:+ s) (hb : '\n' ∉ ending) :
    ∃ line, (lines (s ++ ['\n'])).getLast? = some line ∧ ending <:+ line := by
  obtain ⟨before, rfl⟩ := h
  induction before with
  | nil => exact ⟨ending, by simp [lines_append_newline hb, lines], List.suffix_rfl⟩
  | cons c before ih =>
    obtain ⟨line, hline, hending⟩ := ih
    rw [List.cons_append, List.cons_append, lines]
    obtain ⟨first, others, hs⟩ :
        ∃ first others, lines (before ++ ending ++ ['\n']) = first :: others :=
      List.exists_cons_of_ne_nil (lines_ne_nil (by simp))
    rw [hs] at hline ⊢
    split
    · exact ⟨line, by rwa [List.getLast?_cons_cons], hending⟩
    · cases others with
      | nil =>
        obtain rfl : first = line := by simpa using hline
        exact ⟨c :: first, rfl, hending.trans (List.suffix_cons c first)⟩
      | cons second others =>
        rw [List.getLast?_cons_cons] at hline
        exact ⟨line, by rwa [List.getLast?_cons_cons], hending⟩

theorem cutFirst?_append {c : Char} {s : List Char} (h : c ∉ s) (rest : List Char) :
    cutFirst? c (s ++ c :: rest) = some (s, rest) := by
  induction s with
  | nil => simp [cutFirst?]
  | cons d s ih =>
    simp only [List.mem_cons, not_or] at h
    simp [cutFirst?, Ne.symm h.1, ih h.2]

theorem cutLast?_append {c : Char} {s : List Char} (h : c ∉ s) (before : List Char) :
    cutLast? c (before ++ c :: s) = some (before, s) := by
  have hrev : (before ++ c :: s).reverse = s.reverse ++ c :: before.reverse := by simp
  rw [cutLast?, hrev, cutFirst?_append (by simpa using h)]
  simp

theorem byteLength_le (s : List Char) : byteLength s ≤ 4 * s.length := by
  induction s with
  | nil => simp [byteLength]
  | cons c s ih =>
    have hc := c.utf8Size_le_four
    rw [byteLength, List.length_cons]
    omega

theorem continuesName_of_startsName {c : Char} (h : startsName c = true) :
    continuesName c = true := by
  simp only [startsName, continuesName, Char.isAlphanum, Bool.or_eq_true] at h ⊢
  tauto

theorem continuesName_of_isName {s : List Char} (h : isName s = true) :
    ∀ c ∈ s, continuesName c = true := by
  cases s with
  | nil => simp
  | cons c s =>
    simp only [isName, Bool.and_eq_true, List.all_eq_true] at h
    intro d hd
    rcases List.mem_cons.1 hd with rfl | hd
    · exact continuesName_of_startsName h.1
    · exact h.2 d hd

theorem isName_append {s t : List Char} (h : isName s = true)
    (ht : ∀ c ∈ t, continuesName c = true) : isName (s ++ t) = true := by
  cases s with
  | nil => cases h
  | cons c s =>
    simp only [isName, Bool.and_eq_true, List.all_eq_true] at h
    simp only [isName, List.cons_append, Bool.and_eq_true, List.all_eq_true, List.mem_append]
    exact ⟨h.1, fun d hd => hd.elim (h.2 d) (ht d)⟩

theorem isName_of_append {s t : List Char} (h : isName (s ++ t) = true) (hs : s ≠ []) :
    isName s = true := by
  cases s with
  | nil => exact absurd rfl hs
  | cons c s =>
    simp only [isName, List.cons_append, Bool.and_eq_true, List.all_eq_true, List.mem_append] at h ⊢
    exact ⟨h.1, fun d hd => h.2 d (Or.inl hd)⟩

/-- A property of the ASCII characters is decided by running through them. -/
theorem of_ascii {P : Char → Prop} (hall : ∀ n < 128, P (Char.ofNat n)) {c : Char}
    (hc : c.toNat < 128) : P c := by
  have h := hall c.toNat hc
  rwa [Char.ofNat_toNat] at h

theorem toNat_lt_of_continuesName {c : Char} (h : continuesName c = true) : c.toNat < 128 := by
  simp only [continuesName, Char.isAlphanum, Char.isAlpha, Char.isUpper, Char.isLower, Char.isDigit,
    Bool.or_eq_true, Bool.and_eq_true, decide_eq_true_eq, beq_iff_eq, UInt32.le_iff_toNat_le,
    ge_iff_le] at h
  change (((65 ≤ c.toNat ∧ c.toNat ≤ 90) ∨ (97 ≤ c.toNat ∧ c.toNat ≤ 122)) ∨
    (48 ≤ c.toNat ∧ c.toNat ≤ 57)) ∨ c = '_' at h
  rcases h with h | rfl
  · omega
  · decide

/-- No character of a name is white space or has a meaning of its own in a line. -/
theorem of_continuesName {c : Char} (h : continuesName c = true) :
    isBlank c = false ∧ c ∉ [':', '/', '#', '[', '(', '\n'] :=
  of_ascii (P := fun c => continuesName c = true →
      isBlank c = false ∧ c ∉ [':', '/', '#', '[', '(', '\n'])
    (by decide +kernel) (toNat_lt_of_continuesName h) h

theorem of_mem_of_isName {s : List Char} (h : isName s = true) {c : Char} (hc : c ∈ s) :
    isBlank c = false ∧ c ∉ [':', '/', '#', '[', '(', '\n'] :=
  of_continuesName (continuesName_of_isName h c hc)

end Text

open Text

namespace Line

theorem beforeComment_eq_self {s : List Char} (h : '/' ∉ s) (blank : Bool) :
    beforeComment blank s = s := by
  induction s generalizing blank with
  | nil => rfl
  | cons c s ih =>
    simp only [List.mem_cons, not_or] at h
    simp [beforeComment, Ne.symm h.1, ih h.2]

theorem dropComment_eq_self {value : List Char} (h : '/' ∉ value)
    (hl : ∀ c ∈ value.getLast?, isBlank c = false) : dropComment value = value := by
  rw [dropComment, beforeComment_eq_self h, trimEnd_eq_self hl]

theorem beforeComment_isPrefix (blank : Bool) (s : List Char) : beforeComment blank s <+: s := by
  induction s generalizing blank with
  | nil => exact List.nil_prefix
  | cons c s ih =>
    rw [beforeComment]
    split
    · exact List.nil_prefix
    · exact (List.prefix_cons_inj c).2 (ih _)

/-- No comment starts before the comment of a value. -/
theorem beforeComment_of_isPrefix {blank : Bool} {s t : List Char}
    (h : t <+: beforeComment blank s) : beforeComment blank t = t := by
  induction s generalizing blank t with
  | nil =>
    obtain rfl : t = [] := List.prefix_nil.1 h
    rfl
  | cons c s ih =>
    cases t with
    | nil => rfl
    | cons d t =>
      rw [beforeComment] at h
      split at h
      · cases List.prefix_nil.1 h
      · rename_i hno
        obtain ⟨rfl, h⟩ := List.cons_prefix_cons.1 h
        have hstart : ¬ (blank = true ∧ d = '/' ∧ t.head? = some '/') := by
          rintro ⟨hb, hd, ht⟩
          exact hno ⟨hb, hd, mem_head?_of_isPrefix (h.trans (beforeComment_isPrefix _ _)) ht⟩
        rw [beforeComment, if_neg hstart, ih h]

theorem dropComment_isPrefix (s : List Char) : dropComment s <+: s :=
  (trimEnd_isPrefix _).trans (beforeComment_isPrefix true s)

/-- A value keeps nothing that would be taken for a comment when it is read again. -/
theorem dropComment_dropComment (s : List Char) : dropComment (dropComment s) = dropComment s := by
  rw [dropComment, dropComment, beforeComment_of_isPrefix (trimEnd_isPrefix _)]
  exact trimEnd_eq_self fun _ => not_blank_of_mem_getLast?_trimEnd

example : dropComment "a//b // c".toList = "a//b".toList := by decide

/-- The value of an assignment has no white space around. -/
theorem trim_dropComment_trim (s : List Char) :
    trim (dropComment (trim s)) = dropComment (trim s) :=
  trim_eq_self
    (fun _ hc => not_blank_of_mem_head?_trim (mem_head?_of_isPrefix (dropComment_isPrefix _) hc))
    fun _ => not_blank_of_mem_getLast?_trimEnd

/-- A line that has a name before its colon is read as an assignment. -/
theorem read_eq_readAssignment {left rest : List Char} (hk : isName (trim left) = true)
    (hh : ∀ c ∈ left.head?, isBlank c = false) :
    read (left ++ ':' :: rest) = readAssignment (trim left) (trim rest) := by
  have hcolon : ':' ∉ left := fun hc =>
    (of_mem_of_isName hk (mem_trim_of_mem hc (by decide))).2 (by simp)
  have hcut := cutFirst?_append hcolon rest
  cases left with
  | nil => cases hk
  | cons c left =>
    have hmark := (of_mem_of_isName hk (mem_trim_of_mem (List.mem_cons_self ..) (hh c rfl))).2
    simp only [List.mem_cons, List.not_mem_nil, or_false, not_or] at hmark
    obtain ⟨-, hslash, hhash, hbracket, -⟩ := hmark
    rw [List.cons_append] at hcut ⊢
    rw [read, hcut]
    · exact fun _ heq => hslash (List.cons.inj heq).1
    · exact fun _ heq => hhash (List.cons.inj heq).1
    · exact fun _ heq => hbracket (List.cons.inj heq).1

/-- The same for a line with white space around. -/
theorem read_trim_eq_readAssignment {left rest : List Char} (hk : isName (trim left) = true) :
    read (trim (left ++ ':' :: rest)) = readAssignment (trim left) (trim rest) := by
  have hread : read (trimStart left ++ ':' :: trimEnd rest) = _ :=
    read_eq_readAssignment (by rwa [trim_trimStart]) fun _ hc =>
      not_blank_of_mem_head?_trimStart hc
  rwa [trim_trimStart, trim_trimEnd, ← trim_append_cons (by decide)] at hread

/-- An assignment is read back from its plain form. -/
theorem read_assignment {key value : List Char} (hk : isName key = true)
    (hkl : byteLength key ≤ maxKeyBytes) (hv : value ≠ []) (ht : trim value = value)
    (hc : dropComment value = value) (hvl : byteLength value ≤ maxValueBytes) :
    read (key ++ ':' :: ' ' :: value) = .ok (.assignment key value) := by
  have htrim : trim (' ' :: value) = value := by
    rw [trim, trimStart_cons, if_pos (by decide)]
    exact ht
  have hblank : ∀ c ∈ key, isBlank c = false := fun c hc => (of_mem_of_isName hk hc).1
  have htk : trim key = key := trim_of_not_blank hblank
  have hne : key ≠ [] := by
    rintro rfl
    cases hk
  rw [read_eq_readAssignment (by rwa [htk]) fun c hc => hblank c (List.mem_of_mem_head? hc), htrim,
    htk]
  simp only [readAssignment, hk, hc]
  rw [if_neg hne, if_neg (by simp [Nat.not_lt.2 hkl]), if_neg hv, if_neg (Nat.not_lt.2 hvl)]

theorem readDirective_ne_assignment (s key value : List Char) :
    readDirective s ≠ .ok (.assignment key value) := by
  rw [readDirective]
  split
  · split
    · nofun
    · nofun
  · nofun

theorem of_readAssignment {left right key value : List Char}
    (h : readAssignment left right = .ok (.assignment key value)) :
    key = left ∧ value = dropComment right ∧ isName key = true ∧ byteLength key ≤ maxKeyBytes ∧
      value ≠ [] ∧ byteLength value ≤ maxValueBytes := by
  rw [readAssignment] at h
  split at h
  · cases h
  · split at h
    · cases h
    · rename_i hname
      dsimp only at h
      split at h
      · cases h
      · rename_i hne
        split at h
        · cases h
        · rename_i hlength
          cases h
          obtain ⟨hkey, hbytes⟩ := not_or.1 hname
          exact ⟨rfl, rfl, by simpa using hkey, Nat.not_lt.1 hbytes, hne, Nat.not_lt.1 hlength⟩

/-- What a line says that is read as an assignment. -/
theorem of_read_eq_assignment {s key value : List Char}
    (h : read s = .ok (.assignment key value)) :
    ∃ left right, s = left ++ ':' :: right ∧ key = trim left ∧ value = dropComment (trim right) ∧
      isName key = true ∧ byteLength key ≤ maxKeyBytes ∧ value ≠ [] ∧
      byteLength value ≤ maxValueBytes := by
  unfold read at h
  split at h
  · cases h
  · cases h
  · exact absurd h (readDirective_ne_assignment _ _ _)
  · split at h
    · cases h
    · rename_i left right hcut
      exact ⟨left, right, eq_of_cutFirst? hcut, of_readAssignment h⟩

theorem trim_assignment {key value : List Char} (hk : isName key = true) (hv : value ≠ [])
    (hl : ∀ c ∈ value.getLast?, isBlank c = false) :
    trim (key ++ ':' :: ' ' :: value) = key ++ ':' :: ' ' :: value := by
  cases key with
  | nil => cases hk
  | cons d key =>
    cases value with
    | nil => exact absurd rfl hv
    | cons v value =>
      apply trim_eq_self
      · rintro c hc
        obtain rfl : d = c := by simpa using hc
        exact (of_mem_of_isName hk (by simp)).1
      · intro c hc
        rw [List.getLast?_append_of_ne_nil _ (List.cons_ne_nil _ _), List.getLast?_cons_cons,
          List.getLast?_cons_cons] at hc
        exact hl c hc

/-- The plainest form of a line stands on one line, has nothing around it and says the same. -/
structure Plain (l : Line) : Prop where
  oneLine : '\n' ∉ l.chars
  trimmed : trim l.chars = l.chars
  nonempty : l.chars ≠ []
  readBack : read l.chars = .ok l

theorem plain_assignment {key value : List Char} (hk : isName key = true)
    (hkl : byteLength key ≤ maxKeyBytes) (hv : value ≠ []) (ht : trim value = value)
    (hc : dropComment value = value) (hvl : byteLength value ≤ maxValueBytes)
    (single : '\n' ∉ value) : Plain (.assignment key value) := by
  have hkey : '\n' ∉ key := fun hn => (of_mem_of_isName hk hn).2 (by simp)
  have hlast : ∀ c ∈ value.getLast?, isBlank c = false := by
    rw [← ht]
    exact fun _ => not_blank_of_mem_getLast?_trimEnd
  exact {
    oneLine := by simp [chars, hkey, single]
    trimmed := trim_assignment hk hv hlast
    nonempty := by simp [chars]
    readBack := read_assignment hk hkl hv ht hc hvl }

theorem lines_render {ls : List Line} (plain : ∀ l ∈ ls, l.Plain) :
    lines (render ls) = ls.map chars := by
  have single : ∀ s ∈ ls.map chars, '\n' ∉ s := by
    intro s hs
    obtain ⟨l, hl, rfl⟩ := List.mem_map.1 hs
    exact (plain l hl).oneLine
  rw [← lines_flatMap_of_notMem single, List.flatMap_map]
  rfl

end Line

end ColorTheme

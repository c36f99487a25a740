import Mathlib
import ColorTheme.Proofs.Calling
import ColorTheme.Proofs.Numerals
/-! # The forms of color literals

A literal has one of four forms: digits, one of two calls, or a name. Each form is described here by
the text alone. No text has two of them, so that it does not matter in which order the readers of
the forms are tried. -/
namespace ColorTheme

open Text

/-- Reading every member of a list. -/
theorem mapM_eq_some_iff {α β : Type} {f : α → Option β} {l : List α} {r : List β} :
    l.mapM f = some r ↔ List.Forall₂ (fun a b => f a = some b) l r := by
  induction l generalizing r with
  | nil => simp [eq_comm]
  | cons a l ih =>
    rw [List.mapM_cons, List.forall₂_cons_left_iff]
    simp only [Option.bind_eq_bind, Option.bind_eq_some_iff, Option.pure_def, Option.some.injEq, ih]
    constructor
    · rintro ⟨b, hb, u, hu, rfl⟩
      exact ⟨b, u, hb, hu, rfl⟩
    · rintro ⟨b, u, hb, hu, rfl⟩
      exact ⟨b, hb, u, hu, rfl⟩

theorem isSome_mapM_iff {α β : Type} {f : α → Option β} {l : List α} :
    (l.mapM f).isSome = true ↔ ∀ a ∈ l, (f a).isSome = true := by
  induction l with
  | nil => simp
  | cons a l ih =>
    rw [List.forall_mem_cons, ← ih, List.mapM_cons]
    cases f a <;> cases l.mapM f <;> simp

namespace Color

/-- The digits of base 16, in both cases. -/
def hexDigits : List Char := "0123456789abcdefABCDEF".toList

theorem toNat_lt_of_hexValue? {c : Char} {n : ℕ} (h : hexValue? c = some n) : c.toNat < 128 := by
  simp only [hexValue?, Char.isDigit, Char.le_def, UInt32.le_iff_toNat_le, ge_iff_le,
    Bool.and_eq_true, decide_eq_true_eq] at h
  change (if 48 ≤ c.toNat ∧ c.toNat ≤ 57 then _ else
    if 97 ≤ c.toNat ∧ c.toNat ≤ 102 then _ else
      if 65 ≤ c.toNat ∧ c.toNat ≤ 70 then _ else none) = some n at h
  split_ifs at h <;> omega

theorem isSome_hexDigit?_iff {c : Char} : (hexDigit? c).isSome = true ↔ c ∈ hexDigits := by
  rw [hexDigit?, Option.isSome_map]
  constructor
  · intro h
    obtain ⟨n, hn⟩ := Option.isSome_iff_exists.1 h
    exact of_ascii (P := fun c => (hexValue? c).isSome = true → c ∈ hexDigits) (by decide +kernel)
      (toNat_lt_of_hexValue? hn) h
  · intro h
    have hall : hexDigits.all (fun c => (hexValue? c).isSome) = true := by decide
    exact List.all_eq_true.1 hall c h

theorem isSome_ofDigits?_iff {values : List UInt8} :
    (ofDigits? values).isSome = true ↔ values.length ∈ [3, 4, 6, 8] := by
  match values with
  | [] | [_] | [_, _] | [_, _, _] | [_, _, _, _] | [_, _, _, _, _] | [_, _, _, _, _, _]
  | [_, _, _, _, _, _, _] | [_, _, _, _, _, _, _, _] => simp [ofDigits?]
  | _ :: _ :: _ :: _ :: _ :: _ :: _ :: _ :: _ :: _ => simp [ofDigits?]

theorem isSome_readHex?_iff {s : List Char} : (readHex? s).isSome = true ↔
    ∃ digits, s = '#' :: digits ∧ digits.length ∈ [3, 4, 6, 8] ∧ ∀ c ∈ digits, c ∈ hexDigits := by
  constructor
  · intro h
    unfold readHex? at h
    split at h
    · rename_i digits
      obtain ⟨c, hc⟩ := Option.isSome_iff_exists.1 h
      obtain ⟨values, hvalues, hcolor⟩ := Option.bind_eq_some_iff.1 hc
      have hlength := (mapM_eq_some_iff.1 hvalues).length_eq
      refine ⟨digits, rfl, ?_, fun c hc => ?_⟩
      · rw [hlength, ← isSome_ofDigits?_iff, hcolor]
        rfl
      · rw [← isSome_hexDigit?_iff]
        exact isSome_mapM_iff.1 (by rw [hvalues]; rfl) c hc
    · cases h
  · rintro ⟨digits, rfl, hlength, hdigits⟩
    obtain ⟨values, hvalues⟩ := Option.isSome_iff_exists.1
      (isSome_mapM_iff.2 fun c hc => isSome_hexDigit?_iff.2 (hdigits c hc))
    rw [readHex?, hvalues, Option.bind_some, isSome_ofDigits?_iff]
    rwa [← (mapM_eq_some_iff.1 hvalues).length_eq]

/-- A number, perhaps with gaps before and after it, that is finite in binary32. -/
def IsChannel (s : List Char) (v : Float32) : Prop :=
  ∃ before number after d, (∀ c ∈ before, isGap c = true) ∧ (∀ c ∈ after, isGap c = true) ∧
    s = before ++ (number ++ after) ∧ Decimal.Writes number d ∧ d.toFloat32 = v ∧
    v.isFinite = true

/-- A name in letters of any case, and behind it, perhaps after a gap, channels in parentheses with
commas between them. -/
def Calls (name : List Char) (values : List Float32) (s : List Char) : Prop :=
  ∃ called gap pieces, sameLetters called name = true ∧ (∀ c ∈ gap, isGap c = true) ∧
    s = called ++ (gap ++ '(' :: ([','].intercalate pieces ++ [')'])) ∧
    List.Forall₂ IsChannel pieces values

theorem isGap_of_mem_number {s : List Char} {d : Decimal} (h : Decimal.Writes s d) {c : Char}
    (hc : c ∈ s) : isGap c = false ∧ c ≠ ',' := by
  rcases h.mem hc with hdigit | hmark
  · refine ⟨?_, by rintro rfl; simp at hdigit⟩
    by_contra hgap
    simp only [isGap, Bool.not_eq_false, Bool.or_eq_true, beq_iff_eq] at hgap
    rcases hgap with ((rfl | rfl) | rfl) | rfl <;> simp at hdigit
  · have hall : ['+', '-', '.', 'e', 'E'].all (fun c => !isGap c && c != ',') = true := by decide
    simpa using List.all_eq_true.1 hall c hmark

theorem exists_append_trimGaps (s : List Char) : ∃ before after,
    (∀ c ∈ before, isGap c = true) ∧ (∀ c ∈ after, isGap c = true) ∧
      s = before ++ (trimGaps s ++ after) := by
  refine ⟨s.takeWhile isGap, (s.dropWhile isGap).rtakeWhile isGap,
    fun _ hc => List.mem_takeWhile_imp hc, fun _ hc => List.mem_rtakeWhile_imp hc, ?_⟩
  rw [trimGaps, ← List.rdropWhile, List.rdropWhile_append_rtakeWhile,
    List.takeWhile_append_dropWhile]

theorem trimGaps_append {before s after : List Char} (hb : ∀ c ∈ before, isGap c = true)
    (ha : ∀ c ∈ after, isGap c = true) (hs : ∀ c ∈ s, isGap c = false) :
    trimGaps (before ++ (s ++ after)) = s := by
  have hafter : after.dropWhile isGap = [] := List.dropWhile_eq_nil_iff.2 ha
  have hself : s.reverse.dropWhile isGap = s.reverse := by
    rw [List.dropWhile_eq_self_iff]
    intro hlt
    rw [hs _ (List.mem_reverse.1 (List.getElem_mem hlt))]
    exact Bool.false_ne_true
  rw [trimGaps, List.dropWhile_append_of_pos hb]
  cases s with
  | nil => simp [hafter]
  | cons c s =>
    rw [List.cons_append, List.dropWhile_cons_of_neg (by simp [hs c]), ← List.cons_append,
      List.reverse_append, List.dropWhile_append_of_pos (by simpa using ha), hself,
      List.reverse_reverse]

theorem finite?_trimGaps_eq_some_iff {s : List Char} {v : Float32} :
    Decimal.finite? (trimGaps s) = some v ↔ IsChannel s v := by
  have hfinite (number : List Char) : Decimal.finite? number = some v ↔
      ∃ d, Decimal.Writes number d ∧ d.toFloat32 = v ∧ v.isFinite = true := by
    simp [Decimal.finite?, Option.filter_eq_some_iff, Decimal.read?_eq_some_iff, ← and_assoc]
  rw [hfinite]
  constructor
  · rintro ⟨d, hwrites, hv⟩
    obtain ⟨before, after, hb, ha, hs⟩ := exists_append_trimGaps s
    exact ⟨before, _, after, d, hb, ha, hs, hwrites, hv⟩
  · rintro ⟨before, number, after, d, hb, ha, rfl, hwrites, hv⟩
    rw [trimGaps_append hb ha fun c hc => (isGap_of_mem_number hwrites hc).1]
    exact ⟨d, hwrites, hv⟩

theorem comma_notMem_of_gaps {s : List Char} (h : ∀ c ∈ s, isGap c = true) : ',' ∉ s := by
  intro hc
  have hcomma : isGap ',' = true := h ',' hc
  revert hcomma
  decide

theorem IsChannel.comma_notMem {s : List Char} {v : Float32} (h : IsChannel s v) : ',' ∉ s := by
  obtain ⟨before, number, after, d, hb, ha, rfl, hwrites, -⟩ := h
  simp only [List.mem_append, not_or]
  exact ⟨comma_notMem_of_gaps hb, fun hc => (isGap_of_mem_number hwrites hc).2 rfl,
    comma_notMem_of_gaps ha⟩

theorem pieces_eq_splitOn (s : List Char) : pieces s = s.splitOn ',' := by
  induction s with
  | nil => simp [pieces]
  | cons c s ih =>
    obtain ⟨piece, rest, hs⟩ := List.exists_cons_of_ne_nil (List.splitOn_ne_nil ',' s)
    rw [pieces, List.splitOn_cons_eq_if_modifyHead, ih, hs]
    by_cases hc : c = ',' <;> simp [hc, consFirst]

section Reading

variable {name s : List Char} {values : List Float32}

theorem calls_of_readCall? (h : readCall? name s = some values) : Calls name values s := by
  rw [readCall?] at h
  split at h
  · rename_i hname
    split at h
    · rename_i inner hinner
      split at h
      · rename_i hlast
        have hchannels := mapM_eq_some_iff.1 h
        simp only [finite?_trimGaps_eq_some_iff] at hchannels
        refine ⟨s.take name.length, (s.drop name.length).takeWhile isGap, pieces inner.dropLast,
          ?_, fun _ hc => List.mem_takeWhile_imp hc, ?_, hchannels⟩
        · rw [sameLetters, hname, ← hname]
          simp [Function.comp_def]
        · rw [pieces_eq_splitOn, List.intercalate_splitOn, List.dropLast_append_getLast? _ hlast,
            ← hinner, List.takeWhile_append_dropWhile, List.take_append_drop]
      · cases h
    · cases h
  · cases h

theorem map_toLower_of_sameLetters {called : List Char} (h : sameLetters called name = true)
    (hname : name.map Char.toLower = name) : called.map Char.toLower = name := by
  simpa [sameLetters, hname] using h

theorem Calls.readCall? (h : Calls name values s) (hname : name.map Char.toLower = name)
    (hvalues : values ≠ []) : readCall? name s = some values := by
  obtain ⟨called, gap, pieces, hcalled, hgap, rfl, hchannels⟩ := h
  have hopen : isGap '(' = false := by decide
  have hletters := map_toLower_of_sameLetters hcalled hname
  have hlength : called.length = name.length := by simpa using congrArg List.length hletters
  have hpieces : pieces ≠ [] := by
    rintro rfl
    exact hvalues (List.forall₂_nil_left_iff.1 hchannels)
  have hcommas : ∀ piece ∈ pieces, ',' ∉ piece := by
    intro piece hmem
    obtain ⟨i, hi, rfl⟩ := List.getElem_of_mem hmem
    exact (hchannels.get hi (hchannels.length_eq ▸ hi)).comma_notMem
  have hread : (Color.pieces ([','].intercalate pieces)).mapM
      (fun piece => Decimal.finite? (trimGaps piece)) = some values := by
    rw [pieces_eq_splitOn, List.splitOn_intercalate _ hcommas hpieces, mapM_eq_some_iff]
    simpa only [finite?_trimGaps_eq_some_iff] using hchannels
  rw [Color.readCall?, ← hlength, List.take_left, List.drop_left, if_pos hletters,
    List.dropWhile_append_of_pos hgap, List.dropWhile_cons_of_neg (by simp [hopen])]
  simp [hread]

/-- Behind the letters of a call comes a gap or its parenthesis. -/
theorem Calls.exists_letters (h : Calls name values s) (hname : name.map Char.toLower = name) :
    ∃ called c rest, called.map Char.toLower = name ∧ s = called ++ c :: rest ∧
      (isGap c = true ∨ c = '(') ∧ '(' ∈ s := by
  obtain ⟨called, gap, pieces, hcalled, hgap, rfl, -⟩ := h
  have hletters := map_toLower_of_sameLetters hcalled hname
  cases gap with
  | nil => exact ⟨called, '(', _, hletters, rfl, Or.inr rfl, by simp⟩
  | cons c gap => exact ⟨called, c, _, hletters, rfl, Or.inl (hgap c (by simp)), by simp⟩

end Reading

/-- The name of the call with three channels does not go on to the name with four. -/
theorem Calls.ne_rgba {values : List Float32} {s : List Char} (h : Calls ['r', 'g', 'b'] values s) :
    (s.take 4).map Char.toLower ≠ ['r', 'g', 'b', 'a'] := by
  obtain ⟨called, c, rest, hletters, rfl, hc, -⟩ := h.exists_letters (by decide)
  have hlength : called.length = 3 := by simpa using congrArg List.length hletters
  have hnext : c.toLower ≠ 'a' := by
    simp only [isGap, Bool.or_eq_true, beq_iff_eq] at hc
    rcases hc with (((rfl | rfl) | rfl) | rfl) | rfl <;> decide
  simpa [List.take_append, hlength, hletters] using hnext

/-- Letter by letter the text is the name, in letters of any case; a Kelvin sign counts as a capital
`k`, which is its lower case. -/
def Spells (s name : List Char) : Prop :=
  List.Forall₂ (fun c d => c = d ∨ c = d.toUpper ∨ c = '\u212A' ∧ d = 'k') s name

def smallLetters : List Char := "abcdefghijklmnopqrstuvwxyz".toList

theorem toUpper_toLower {c : Char} (h : c.isUpper = true) : c.toLower.toUpper = c := by
  have hname : continuesName c = true := by simp [continuesName, Char.isAlphanum, Char.isAlpha, h]
  exact of_ascii (P := fun c => c.isUpper = true → c.toLower.toUpper = c) (by decide +kernel)
    (toNat_lt_of_continuesName hname) h

theorem lower_eq_iff {c d : Char} (hd : d ∈ smallLetters) :
    lower c = d ↔ c = d ∨ c = d.toUpper ∨ c = '\u212A' ∧ d = 'k' := by
  have hall : smallLetters.all (fun d => lower d == d && lower d.toUpper == d) = true := by decide
  have hcase := List.all_eq_true.1 hall d hd
  simp only [Bool.and_eq_true, beq_iff_eq] at hcase
  constructor
  · intro h
    rw [lower] at h
    split at h
    · exact Or.inr (Or.inr ⟨‹_›, h.symm⟩)
    · by_cases hupper : c.isUpper = true
      · exact Or.inr (Or.inl (by rw [← h, toUpper_toLower hupper]))
      · exact Or.inl ((Char.toLower_eq_of_not_isUpper hupper).symm.trans h)
  · rintro (rfl | rfl | ⟨rfl, rfl⟩)
    · exact hcase.1
    · exact hcase.2
    · rfl

theorem spells_iff {s name : List Char} (h : ∀ d ∈ name, d ∈ smallLetters) :
    Spells s name ↔ s.map lower = name := by
  induction name generalizing s with
  | nil => simp [Spells]
  | cons d name ih =>
    rw [List.forall_mem_cons] at h
    have hrest (t : List Char) : Spells t name ↔ t.map lower = name := ih h.2
    simp only [Spells] at hrest ⊢
    simp only [List.forall₂_cons_right_iff, ← lower_eq_iff h.1, hrest, List.map_eq_cons_iff]
    constructor
    · rintro ⟨c, t, hc, ht, rfl⟩
      exact ⟨c, t, rfl, hc, ht⟩
    · rintro ⟨c, t, rfl, hc, ht⟩
      exact ⟨c, t, hc, ht, rfl⟩

theorem mem_smallLetters_of_named {entry : String × Color} (h : entry ∈ named) :
    ∀ d ∈ entry.1.toList, d ∈ smallLetters := by
  have hall : named.all (fun entry => entry.1.toList.all (· ∈ smallLetters)) = true := by decide
  simpa using List.all_eq_true.1 hall entry h

theorem Spells.mem_smallLetters {s : List Char} {entry : String × Color} (hentry : entry ∈ named)
    (h : Spells s entry.1.toList) {c : Char} (hc : c ∈ s) : lower c ∈ smallLetters := by
  have hsmall := mem_smallLetters_of_named hentry
  rw [← (spells_iff hsmall).1 h] at hsmall
  exact hsmall _ (List.mem_map_of_mem hc)

theorem isSome_readName?_iff {s : List Char} : (readName? s).isSome = true ↔
    ∃ entry ∈ named, Spells s entry.1.toList := by
  rw [readName?, List.lookup_isSome_iff]
  refine exists_congr fun entry => and_congr_right fun hentry => ?_
  rw [spells_iff (mem_smallLetters_of_named hentry)]
  simp [String.ext_iff]

inductive Form where
  | hex
  | rgba
  | rgb
  | name
  deriving DecidableEq, Repr

namespace Form

def every : List Form := [hex, rgba, rgb, name]

theorem mem_every (form : Form) : form ∈ every := by cases form <;> decide

def read? : Form → List Char → Option Color
  | hex => readHex?
  | rgba => readRgba?
  | rgb => readRgb?
  | name => readName?

/-- What a text of each form looks like. -/
def Fits : Form → List Char → Prop
  | hex, s => ∃ digits, s = '#' :: digits ∧ digits.length ∈ [3, 4, 6, 8] ∧
      ∀ c ∈ digits, c ∈ hexDigits
  | rgba, s => ∃ r g b a, Calls ['r', 'g', 'b', 'a'] [r, g, b, a] s
  | rgb, s => ∃ r g b, Calls ['r', 'g', 'b'] [r, g, b] s
  | name, s => ∃ entry ∈ named, Spells s entry.1.toList

theorem isSome_read?_iff {form : Form} {s : List Char} :
    (form.read? s).isSome = true ↔ form.Fits s := by
  cases form with
  | hex => exact isSome_readHex?_iff
  | name => exact isSome_readName?_iff
  | rgba =>
    rw [read?, readRgba?]
    constructor
    · intro h
      split at h
      · rename_i r g b a hcall
        exact ⟨r, g, b, a, calls_of_readCall? hcall⟩
      · cases h
    · rintro ⟨r, g, b, a, hcalls⟩
      rw [hcalls.readCall? (by decide) (List.cons_ne_nil _ _)]
      rfl
  | rgb =>
    rw [read?, readRgb?]
    constructor
    · intro h
      split at h
      · rename_i r g b hcall
        exact ⟨r, g, b, calls_of_readCall? hcall⟩
      · cases h
    · rintro ⟨r, g, b, hcalls⟩
      rw [hcalls.readCall? (by decide) (List.cons_ne_nil _ _)]
      rfl

/-- The form that a text can have, by its first characters and its parenthesis. -/
def guess (s : List Char) : Form :=
  if s.head? = some '#' then hex
  else if '(' ∉ s then name
  else if (s.take 4).map Char.toLower = ['r', 'g', 'b', 'a'] then rgba
  else rgb

theorem head?_ne_hash {called rest name : List Char} (h : called.map Char.toLower = name)
    (hname : name.head? = some 'r') : (called ++ rest).head? ≠ some '#' := by
  cases called with
  | nil => simp [← h] at hname
  | cons c called =>
    intro hc
    obtain rfl : c = '#' := by simpa using hc
    rw [← h] at hname
    revert hname
    simp

theorem Fits.eq_guess {form : Form} {s : List Char} (h : form.Fits s) : form = guess s := by
  cases form with
  | hex =>
    obtain ⟨digits, rfl, -⟩ := h
    rfl
  | name =>
    obtain ⟨entry, hentry, hspells⟩ := h
    have hopen : '(' ∉ s := fun hc => by
      have hsmall := hspells.mem_smallLetters hentry hc
      revert hsmall
      decide
    have hhash : s.head? ≠ some '#' := fun hc => by
      have hsmall := hspells.mem_smallLetters hentry (List.mem_of_mem_head? hc)
      revert hsmall
      decide
    rw [guess, if_neg hhash, if_pos hopen]
  | rgba =>
    obtain ⟨r, g, b, a, hcalls⟩ := h
    obtain ⟨called, c, rest, hletters, rfl, -, hopen⟩ := hcalls.exists_letters (by decide)
    have hlength : called.length = 4 := by simpa using congrArg List.length hletters
    have hhash : (called ++ c :: rest).head? ≠ some '#' := head?_ne_hash hletters rfl
    rw [guess, if_neg hhash, if_neg (not_not_intro hopen), ← hlength, List.take_left,
      if_pos hletters]
  | rgb =>
    obtain ⟨r, g, b, hcalls⟩ := h
    have hfour := hcalls.ne_rgba
    obtain ⟨called, c, rest, hletters, rfl, -, hopen⟩ := hcalls.exists_letters (by decide)
    have hhash : (called ++ c :: rest).head? ≠ some '#' := head?_ne_hash hletters rfl
    rw [guess, if_neg hhash, if_neg (not_not_intro hopen), if_neg hfour]

theorem Fits.unique {form form' : Form} {s : List Char} (h : form.Fits s) (h' : form'.Fits s) :
    form = form' := h.eq_guess.trans h'.eq_guess.symm

end Form

/-- Readers of all the forms, in whatever order, find the color that some form writes. -/
theorem findSome?_forms {forms : List Form} (complete : ∀ form, form ∈ forms) {s : List Char}
    {c : Color} : forms.findSome? (fun form => form.read? s) = some c ↔
      ∃ form : Form, form.read? s = some c := by
  constructor
  · intro h
    obtain ⟨form, -, hform⟩ := List.exists_of_findSome?_eq_some h
    exact ⟨form, hform⟩
  · rintro ⟨form, hform⟩
    have hsome : (form.read? s).isSome = true := by rw [hform]; rfl
    have hfound : (forms.findSome? fun form => form.read? s).isSome = true :=
      List.findSome?_isSome_iff.2 ⟨form, complete form, hsome⟩
    obtain ⟨c', hc'⟩ := Option.isSome_iff_exists.1 hfound
    obtain ⟨form', -, hform'⟩ := List.exists_of_findSome?_eq_some hc'
    have hsome' : (form'.read? s).isSome = true := by rw [hform']; rfl
    obtain rfl := (Form.isSome_read?_iff.1 hsome').unique (Form.isSome_read?_iff.1 hsome)
    rw [hc', ← hform', hform]

theorem read?_eq_findSome? (s : List Char) :
    read? s = Form.every.findSome? fun form => form.read? (trim s) := by
  simp only [read?, Form.every, List.findSome?, Form.read?]
  cases readHex? (trim s) <;> cases readRgba? (trim s) <;> cases readRgb? (trim s) <;>
    cases readName? (trim s) <;> rfl

/-- A text is a literal just if it has one of the four forms, apart from white space around it. It
never has two of them, so that the readers of the forms find the same in any order. -/
theorem read?_forms (s : List Char) :
    ((read? s).isSome = true ↔ ∃ form : Form, form.Fits (trim s)) ∧
    (∀ form form' : Form, form.Fits (trim s) → form'.Fits (trim s) → form = form') ∧
    ∀ forms : List Form, (∀ form, form ∈ forms) →
      forms.findSome? (fun form => form.read? (trim s)) = read? s := by
  refine ⟨?_, fun _ _ h h' => h.unique h', fun forms complete => ?_⟩
  · rw [read?_eq_findSome?, List.findSome?_isSome_iff]
    simp [Form.isSome_read?_iff, Form.mem_every]
  · rw [read?_eq_findSome?]
    ext c
    rw [findSome?_forms complete, findSome?_forms Form.mem_every]

/-- Numbers in several spellings, gaps inside and other white space around. -/
def roomy : List Char := "\u2003RgB\t( +.5e1,\n2. ,0E-3)\u00a0".toList

theorem read?_roomy :
    (∀ form : Form, form.Fits (trim roomy) → form = .rgb) ∧
    (∀ form, form ∈ [Form.name, .rgb, .rgba, .hex]) ∧
    [Form.name, .rgb, .rgba, .hex].findSome? (fun form => form.read? (trim roomy)) =
      some ⟨5 / 255, 2 / 255, 0, 1⟩ := by
  obtain ⟨-, unique, order⟩ := read?_forms roomy
  have hread : read? roomy = some ⟨5 / 255, 2 / 255, 0, 1⟩ := by decide +kernel
  have hfits : Form.rgb.Fits (trim roomy) := Form.isSome_read?_iff.1 (by decide +kernel)
  have complete : ∀ form, form ∈ [Form.name, .rgb, .rgba, .hex] := by
    intro form
    cases form <;> decide
  exact ⟨fun form h => unique form .rgb h hfits, complete, (order _ complete).trans hread⟩

example : read? "rgb(0, 0, 1e39)".toList = none := by decide +kernel

end Color

end ColorTheme

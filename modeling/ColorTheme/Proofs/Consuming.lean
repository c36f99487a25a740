import Mathlib
import ColorTheme.Proofs.Hexadecimal
import ColorTheme.Proofs.Parsers
/-! # Literals taken piece by piece

A literal may also be taken off the front of a text piece by piece: by a choice of its forms, of
which each names the pieces that it takes one after the other, and no piece is ever taken back. What
the choice takes has to be the whole text; otherwise the text may still be a name. This finds the
same colors as the readers of the forms, which look at the text as a whole. -/
namespace ColorTheme.Color.Grammar

open Text ColorTheme.Parser

def digits : Parser (List Char) := span1 Char.isDigit

def signs : Parser (Option Char) := ((char '+').or (char '-')).optional

def mantissa : Parser (List Char) :=
  (digits.seq ((char '.').seq digits.optional).optional).recognized.or
    ((char '.').seq digits).recognized

/-- A letter of an exponent without digits behind it fails. -/
def exponent : Parser (Option (Char × Option Char × List Char)) :=
  (((char 'e').or (char 'E')).seq (signs.seq digits.must)).optional

def numeral : Parser (List Char) := (signs.seq (mantissa.seq exponent)).recognized

/-- What may stand behind a number without becoming a part of it. -/
def Closes (rest : List Char) : Prop :=
  ∀ c ∈ rest.head?, c.isDigit = false ∧ c ≠ '.' ∧ c ≠ 'e' ∧ c ≠ 'E'

section Numerals

variable {s rest : List Char}

theorem closes_append {gap : List Char} (hgap : ∀ c ∈ gap, isGap c = true)
    (hrest : Closes rest) : Closes (gap ++ rest) := by
  cases gap with
  | nil => exact hrest
  | cons c gap =>
    rintro _ ⟨⟩
    have hc := hgap c (by simp)
    simp only [isGap, Bool.or_eq_true, beq_iff_eq] at hc
    rcases hc with ((rfl | rfl) | rfl) | rfl <;> decide

theorem digits_takes (hs : s ≠ []) (h : ∀ c ∈ s, c.isDigit = true)
    (hrest : ∀ c ∈ rest.head?, c.isDigit = false) : digits.Takes s s rest :=
  span1_takes_iff.2 ⟨rfl, hs, h, hrest⟩

theorem signs_takes {negative : Bool} (h : Decimal.IsSign negative s)
    (hrest : ∀ c ∈ rest.head?, c ≠ '-' ∧ c ≠ '+') : ∃ sign, signs.Takes sign s rest := by
  cases h with
  | missing =>
    have hplus : rest.head? ≠ some '+' := fun hc => (hrest _ hc).2 rfl
    have hminus : rest.head? ≠ some '-' := fun hc => (hrest _ hc).1 rfl
    exact ⟨none, optional_takes_nil
      (or_run_of_refused (char_run_of_ne hplus) (char_run_of_ne hminus))⟩
  | plus => exact ⟨some '+', ((char_takes '+' _).or_left _).optional⟩
  | minus =>
    have hplus : (['-'] ++ rest).head? ≠ some '+' := by simp
    exact ⟨some '-', ((char_takes '-' _).or_right (char_run_of_ne hplus)).optional⟩

theorem fraction_takes {part point : List Char} (h : Decimal.IsFraction part point)
    (hrest : ∀ c ∈ rest.head?, c.isDigit = false ∧ c ≠ '.') :
    ∃ a, ((char '.').seq digits.optional).optional.Takes a point rest := by
  have hdigit : ∀ c ∈ rest.head?, c.isDigit = false := fun c hc => (hrest c hc).1
  cases h with
  | missing =>
    have hpoint : rest.head? ≠ some '.' := fun hc => (hrest _ hc).2 rfl
    exact ⟨none, optional_takes_nil (seq_run_of_refused _ (char_run_of_ne hpoint))⟩
  | pointed h =>
    have hpart : ∃ a, digits.optional.Takes a part rest := by
      by_cases hp : part = []
      · subst hp
        exact ⟨none, optional_takes_nil (span1_run_of_head hdigit)⟩
      · exact ⟨some part, (digits_takes hp h hdigit).optional⟩
    obtain ⟨a, ha⟩ := hpart
    exact ⟨some ('.', a), (seq_takes_iff.2 ⟨['.'], part, rfl, char_takes '.' _, ha⟩).optional⟩

theorem mantissa_takes {whole part point : List Char} (hwhole : ∀ c ∈ whole, c.isDigit = true)
    (fraction : Decimal.IsFraction part point) (filled : whole ≠ [] ∨ part ≠ [])
    (hrest : ∀ c ∈ rest.head?, c.isDigit = false ∧ c ≠ '.') :
    mantissa.Takes (whole ++ point) (whole ++ point) rest := by
  by_cases hw : whole = []
  · -- the digits are missing in front of the point, so that the second form takes over
    subst hw
    cases fraction with
    | missing => simp at filled
    | pointed h =>
      have hhead : ∀ c ∈ (('.' :: part) ++ rest).head?, c.isDigit = false := by simp
      have hdigits : digits.run (('.' :: part) ++ rest) = .refused := span1_run_of_head hhead
      have hpart : digits.Takes part part rest :=
        digits_takes (by simpa using filled) h fun c hc => (hrest c hc).1
      have hseq : ((char '.').seq digits).Takes ('.', part) ('.' :: part) rest :=
        seq_takes_iff.2 ⟨['.'], part, rfl, char_takes '.' _, hpart⟩
      exact (recognized_takes_iff.2 ⟨rfl, _, hseq⟩).or_right
        (recognized_run_of_refused (seq_run_of_refused _ hdigits))
  · obtain ⟨a, ha⟩ := fraction_takes fraction hrest
    have hhead := fraction.head fun c hc => (hrest c hc).1
    have hseq : (digits.seq ((char '.').seq digits.optional).optional).Takes (whole, a)
        (whole ++ point) rest :=
      seq_takes_iff.2 ⟨whole, point, rfl, digits_takes hw hwhole hhead, ha⟩
    exact (recognized_takes_iff.2 ⟨rfl, _, hseq⟩).or_left _

theorem exponent_takes {e : ℤ} (h : Decimal.IsExponent e s) (hrest : Closes rest) :
    ∃ a, exponent.Takes a s rest := by
  cases h with
  | missing =>
    have he : rest.head? ≠ some 'e' := fun hc => (hrest _ hc).2.2.1 rfl
    have hE : rest.head? ≠ some 'E' := fun hc => (hrest _ hc).2.2.2 rfl
    exact ⟨none, optional_takes_nil (seq_run_of_refused _
      (or_run_of_refused (char_run_of_ne he) (char_run_of_ne hE)))⟩
  | @marked mark negative sign digits letter signed filled h =>
    have hmark : ((char 'e').or (char 'E')).Takes mark [mark] (sign ++ digits ++ rest) := by
      rcases letter with rfl | rfl
      · exact (char_takes 'e' _).or_left _
      · exact (char_takes 'E' _).or_right (char_run_of_ne (by simp))
    have hhead : ∀ c ∈ (digits ++ rest).head?, c ≠ '-' ∧ c ≠ '+' := by
      intro c hc
      rw [List.head?_append_of_ne_nil _ filled] at hc
      exact Decimal.ne_sign_of_isDigit (h c (List.mem_of_mem_head? hc))
    obtain ⟨a, ha⟩ := signs_takes signed hhead
    have hdigits := digits_takes filled h fun c hc => (hrest c hc).1
    exact ⟨some (mark, a, digits), (seq_takes_iff.2 ⟨[mark], _, rfl, hmark,
      seq_takes_iff.2 ⟨sign, digits, rfl, ha, hdigits.must⟩⟩).optional⟩

theorem numeral_takes {d : Decimal} (h : Decimal.Writes s d) (hrest : Closes rest) :
    numeral.Takes s s rest := by
  obtain ⟨signed, digits, fraction, filled, scaled, rfl⟩ := h
  rename_i negative sign whole part point tail e
  have htail : ∀ c ∈ (tail ++ rest).head?, c.isDigit = false ∧ c ≠ '.' := by
    cases scaled with
    | missing => exact fun c hc => ⟨(hrest c hc).1, (hrest c hc).2.1⟩
    | marked letter => rcases letter with rfl | rfl <;> simp
  obtain ⟨a, ha⟩ := signs_takes signed
    (Decimal.ne_sign_of_filled digits fraction filled (tail ++ rest))
  obtain ⟨b, hb⟩ := exponent_takes scaled hrest
  have hback : (mantissa.seq exponent).Takes (whole ++ point, b) (whole ++ (point ++ tail)) rest :=
    seq_takes_iff.2 ⟨whole ++ point, tail, by rw [List.append_assoc],
      mantissa_takes digits fraction filled htail, hb⟩
  exact recognized_takes_iff.2 ⟨rfl, (a, whole ++ point, b),
    seq_takes_iff.2 ⟨sign, _, rfl, by simpa using ha, hback⟩⟩

end Numerals

/-- A number, or one of the words for what else there is in binary32. -/
def float? (s : List Char) : Option Float32 :=
  if sameLetters s "nan".toList then some (.ofBits 0x7FC00000)
  else if sameLetters s "inf".toList || sameLetters s "infinity".toList then
    some (.ofBits 0x7F800000)
  else (Decimal.read? s).map Decimal.toFloat32

/-- The word `inf` is tried first, so that `infinity` is never taken whole. -/
def float : Parser Float32 :=
  (numeral.or ((word "nan".toList).or ((word "inf".toList).or
    (word "infinity".toList)))).keep float?

theorem float?_of_writes {s : List Char} {d : Decimal} (h : Decimal.Writes s d) :
    float? s = some d.toFloat32 := by
  have hletter : ∀ c ∈ s, c.toLower ≠ 'n' := by
    intro c hc
    rcases h.mem hc with hdigit | hmark
    · have hname : continuesName c = true := by simp [continuesName, Char.isAlphanum, hdigit]
      exact of_ascii (P := fun c => c.isDigit = true → c.toLower ≠ 'n') (by decide +kernel)
        (toNat_lt_of_continuesName hname) hdigit
    · have hall : ['+', '-', '.', 'e', 'E'].all (fun c => c.toLower != 'n') = true := by decide
      simpa using List.all_eq_true.1 hall c hmark
  -- the three words have an `n` in common
  have hword (name : List Char) (hn : 'n' ∈ name.map Char.toLower) :
      sameLetters s name = false := by
    rw [sameLetters, beq_eq_false_iff_ne]
    intro heq
    rw [← heq] at hn
    obtain ⟨c, hc, hlower⟩ := List.mem_map.1 hn
    exact hletter c hc hlower
  have hnan := hword "nan".toList (by decide)
  have hinf := hword "inf".toList (by decide)
  have hinfinity := hword "infinity".toList (by decide)
  rw [float?, hnan, hinf, hinfinity, h.read?]
  rfl

theorem float_takes {s rest : List Char} {d : Decimal} (h : Decimal.Writes s d)
    (hrest : Closes rest) : float.Takes d.toFloat32 s rest :=
  keep_takes_iff.2 ⟨s, (numeral_takes h hrest).or_left _, float?_of_writes h⟩

theorem writes_of_float_takes {s rest : List Char} {v : Float32} (h : float.Takes v s rest)
    (hv : v.isFinite = true) : ∃ d, Decimal.Writes s d ∧ d.toFloat32 = v := by
  obtain ⟨a, ha, hfloat⟩ := keep_takes_iff.1 h
  obtain rfl : a = s := by
    simp only [or_takes_iff, numeral, recognized_takes_iff, word_takes_iff] at ha
    tauto
  unfold float? at hfloat
  split_ifs at hfloat
  · cases hfloat
    exact absurd hv (by decide +kernel)
  · cases hfloat
    exact absurd hv (by decide +kernel)
  · obtain ⟨d, hd, rfl⟩ := Option.map_eq_some_iff.1 hfloat
    exact ⟨d, Decimal.writes_of_read? hd, rfl⟩

def gaps : Parser (List Char) := span isGap

def comma : Parser Char := gaps.after ((char ',').before gaps)

def channel : Parser Float32 := gaps.after float

def mark (c : Char) : Parser Char := gaps.after (char c)

/-- Channels in parentheses. Whether they are finite is asked of all of them at the end. -/
def channels : Parser (List Float32) :=
  (mark '(').after
    (((separated comma channel).verify fun values => values.all Float32.isFinite).before (mark ')'))

section Calls

variable {s rest : List Char} {values : List Float32}

theorem gaps_takes_iff {a : List Char} : gaps.Takes a s rest ↔
    a = s ∧ (∀ c ∈ s, isGap c = true) ∧ ∀ c ∈ rest.head?, isGap c = false := span_takes_iff

theorem comma_takes_iff {a : Char} : comma.Takes a s rest ↔ ∃ front back,
    a = ',' ∧ s = front ++ ',' :: back ∧ (∀ c ∈ front, isGap c = true) ∧
      (∀ c ∈ back, isGap c = true) ∧ ∀ c ∈ rest.head?, isGap c = false := by
  have hcomma : isGap ',' = false := by decide
  constructor
  · intro h
    obtain ⟨_, front, back, rfl, hfront, h⟩ := after_takes_iff.1 h
    obtain ⟨_, _, back, rfl, h, hback⟩ := before_takes_iff.1 h
    obtain ⟨rfl, rfl⟩ := char_takes_iff.1 h
    exact ⟨front, back, rfl, rfl, (gaps_takes_iff.1 hfront).2.1, (gaps_takes_iff.1 hback).2⟩
  · rintro ⟨front, back, rfl, rfl, hfront, hback, hrest⟩
    refine after_takes_iff.2 ⟨front, front, ',' :: back, rfl, gaps_takes_iff.2 ⟨rfl, hfront, ?_⟩,
      before_takes_iff.2 ⟨back, [','], back, rfl, char_takes _ _,
        gaps_takes_iff.2 ⟨rfl, hback, hrest⟩⟩⟩
    simp [hcomma]

theorem comma_run_of_close (h : ∀ c ∈ s, isGap c = true) :
    comma.run (s ++ ')' :: rest) = .refused := by
  have hclose : isGap ')' = false := by decide
  have hcomma : (')' :: rest).head? ≠ some ',' := by simp
  have hgaps : gaps.Takes s s (')' :: rest) := gaps_takes_iff.2 ⟨rfl, h, by simp [hclose]⟩
  exact hgaps.after_run_of_refused (before_run_of_refused gaps (char_run_of_ne hcomma))

theorem head_number {number : List Char} {d : Decimal} (h : Decimal.Writes number d)
    (rest : List Char) : ∀ c ∈ (number ++ rest).head?, isGap c = false := by
  intro c hc
  rw [List.head?_append_of_ne_nil _ h.ne_nil] at hc
  exact (isGap_of_mem_number h (List.mem_of_mem_head? hc)).1

theorem channel_takes {before number : List Char} {d : Decimal} (hb : ∀ c ∈ before, isGap c = true)
    (h : Decimal.Writes number d) (hrest : Closes rest) :
    channel.Takes d.toFloat32 (before ++ number) rest :=
  after_takes_iff.2 ⟨before, before, number, rfl,
    gaps_takes_iff.2 ⟨rfl, hb, head_number h rest⟩, float_takes h hrest⟩

theorem writes_of_channel_takes {v : Float32} (h : channel.Takes v s rest)
    (hv : v.isFinite = true) : ∃ before number d, s = before ++ number ∧
      (∀ c ∈ before, isGap c = true) ∧ Decimal.Writes number d ∧ d.toFloat32 = v := by
  obtain ⟨_, before, number, rfl, hb, hfloat⟩ := after_takes_iff.1 h
  obtain ⟨d, hwrites, hd⟩ := writes_of_float_takes hfloat hv
  exact ⟨before, number, d, rfl, (gaps_takes_iff.1 hb).2.1, hwrites, hd⟩

theorem intercalate_comma (piece : List Char) (pieces : List (List Char)) :
    [','].intercalate (piece :: pieces) = piece ++ pieces.flatMap (',' :: ·) := by
  induction pieces generalizing piece with
  | nil => simp
  | cons next pieces ih =>
    rw [List.intercalate_cons_cons, ih]
    simp

theorem closes_of_pieces {text gap after : List Char} {pieces : List (List Char)}
    (h : text ++ gap = after ++ pieces.flatMap (',' :: ·)) (ha : ∀ c ∈ after, isGap c = true)
    (rest : List Char) : Closes (text ++ (gap ++ ')' :: rest)) := by
  rw [← List.append_assoc, h, List.append_assoc]
  refine closes_append ha ?_
  cases pieces <;> simp [Closes]

/-- The gaps behind a number belong to its piece, but a parser leaves them to what comes next. So
the list is taken from the gaps behind one number up to the gaps behind the last one. -/
theorem more_takes {pieces : List (List Char)} {after : List Char}
    (h : List.Forall₂ IsChannel pieces values) (ha : ∀ c ∈ after, isGap c = true) :
    ∃ text gap, text ++ gap = after ++ pieces.flatMap (',' :: ·) ∧ (∀ c ∈ gap, isGap c = true) ∧
      (more comma channel).Takes values text (gap ++ ')' :: rest) := by
  induction h generalizing after with
  | nil => exact ⟨[], after, by simp, ha, more_takes_nil (comma_run_of_close ha)⟩
  | @cons piece v pieces values hpiece _ ih =>
    obtain ⟨before, number, after', d, hb, ha', rfl, hwrites, rfl, -⟩ := hpiece
    obtain ⟨text, gap, htext, hgap, hmore⟩ := ih ha'
    have hchannel :=
      channel_takes (List.forall_mem_nil _) hwrites (closes_of_pieces htext ha' rest)
    rw [List.nil_append] at hchannel
    have hcomma : comma.Takes ',' (after ++ ',' :: before)
        (number ++ (text ++ (gap ++ ')' :: rest))) :=
      comma_takes_iff.2 ⟨after, before, rfl, rfl, ha, hb, head_number hwrites _⟩
    refine ⟨(after ++ ',' :: before) ++ (number ++ text), gap, ?_, hgap,
      more_takes_cons hcomma (by simp) hchannel hmore⟩
    simp [htext]

theorem exists_pieces {after : List Char} (h : (more comma channel).Takes values s rest)
    (hfinite : ∀ v ∈ values, v.isFinite = true) (ha : ∀ c ∈ after, isGap c = true) :
    ∃ before pieces, (∀ c ∈ before, isGap c = true) ∧ List.Forall₂ IsChannel pieces values ∧
      s ++ after = before ++ pieces.flatMap (',' :: ·) := by
  obtain ⟨parts, rfl, hparts⟩ := exists_parts_of_moreItems h
  clear h
  induction hparts with
  | nil => exact ⟨after, [], ha, .nil, by simp⟩
  | @cons part v parts values hpart _ ih =>
    obtain ⟨_, front, own, _, _, rfl, hcomma, hchannel⟩ := hpart
    obtain ⟨before, back, -, rfl, hb, hback, -⟩ := comma_takes_iff.1 hcomma
    rw [List.forall_mem_cons] at hfinite
    obtain ⟨before', number, d, rfl, hb', hwrites, hd⟩ :=
      writes_of_channel_takes hchannel hfinite.1
    obtain ⟨after', pieces, ha', hpieces, htext⟩ := ih hfinite.2
    refine ⟨before, (back ++ before' ++ (number ++ after')) :: pieces, hb, .cons ?_ hpieces, ?_⟩
    · exact ⟨back ++ before', number, after', d, List.forall_mem_append.2 ⟨hback, hb'⟩, ha', rfl,
        hwrites, hd, hfinite.1⟩
    · simp [htext]

theorem mark_takes_iff {c a : Char} (hc : isGap c = false) : (mark c).Takes a s rest ↔
    a = c ∧ ∃ gap, s = gap ++ [c] ∧ ∀ b ∈ gap, isGap b = true := by
  constructor
  · intro h
    obtain ⟨_, gap, _, rfl, hgap, h⟩ := after_takes_iff.1 h
    obtain ⟨rfl, rfl⟩ := char_takes_iff.1 h
    exact ⟨rfl, gap, rfl, (gaps_takes_iff.1 hgap).2.1⟩
  · rintro ⟨rfl, gap, rfl, hgap⟩
    exact after_takes_iff.2 ⟨gap, gap, [a], rfl, gaps_takes_iff.2 ⟨rfl, hgap, by simp [hc]⟩,
      char_takes a rest⟩

theorem isFinite_of_channels {pieces : List (List Char)}
    (h : List.Forall₂ IsChannel pieces values) : ∀ v ∈ values, v.isFinite = true := by
  induction h with
  | nil => simp
  | cons hpiece _ ih =>
    obtain ⟨_, _, _, _, _, _, _, _, _, hv⟩ := hpiece
    exact List.forall_mem_cons.2 ⟨hv, ih⟩

theorem channels_takes {gap : List Char} {pieces : List (List Char)} (hvalues : values ≠ [])
    (hgap : ∀ c ∈ gap, isGap c = true) (h : List.Forall₂ IsChannel pieces values) :
    channels.Takes values (gap ++ '(' :: ([','].intercalate pieces ++ [')'])) rest := by
  have hfinite : values.all Float32.isFinite = true := List.all_eq_true.2 (isFinite_of_channels h)
  cases h with
  | nil => exact absurd rfl hvalues
  | @cons piece v pieces values hpiece hpieces =>
    obtain ⟨before, number, after, d, hb, ha, rfl, hwrites, rfl, -⟩ := hpiece
    obtain ⟨text, gap', htext, hgap', hmore⟩ := more_takes hpieces ha
    have hchannel := channel_takes hb hwrites (closes_of_pieces htext ha rest)
    have hlist : (separated comma channel).Takes (d.toFloat32 :: values) (before ++ number ++ text)
        (gap' ++ [')'] ++ rest) := by
      rw [List.append_assoc gap', List.singleton_append]
      exact separated_takes_iff.2 ⟨_, _, _, _, rfl, rfl, hchannel, hmore⟩
    have hopen (rest : List Char) : (mark '(').Takes '(' (gap ++ ['(']) rest :=
      (mark_takes_iff (by decide)).2 ⟨rfl, gap, rfl, hgap⟩
    have hclose : (mark ')').Takes ')' (gap' ++ [')']) rest :=
      (mark_takes_iff (by decide)).2 ⟨rfl, gap', rfl, hgap'⟩
    have htext' : gap ++ ['('] ++ (before ++ number ++ text ++ (gap' ++ [')'])) =
        gap ++ '(' :: ([','].intercalate ((before ++ (number ++ after)) :: pieces) ++ [')']) := by
      rw [← List.append_assoc _ gap', List.append_assoc _ text, htext, intercalate_comma]
      simp
    rw [← htext']
    exact after_takes_iff.2 ⟨'(', _, _, rfl, hopen _, before_takes_iff.2
      ⟨')', _, _, rfl, verify_takes_iff.2 ⟨hlist, hfinite⟩, hclose⟩⟩

theorem exists_pieces_of_channels (h : channels.Takes values s rest) :
    ∃ gap pieces, (∀ c ∈ gap, isGap c = true) ∧ List.Forall₂ IsChannel pieces values ∧
      s = gap ++ '(' :: ([','].intercalate pieces ++ [')']) := by
  obtain ⟨_, _, _, rfl, hopen, h'⟩ := after_takes_iff.1 h
  obtain ⟨-, gap, rfl, hgap⟩ := (mark_takes_iff (by decide)).1 hopen
  obtain ⟨_, _, _, rfl, hverify, hclose⟩ := before_takes_iff.1 h'
  obtain ⟨-, after, rfl, ha⟩ := (mark_takes_iff (by decide)).1 hclose
  obtain ⟨hlist, hall⟩ := verify_takes_iff.1 hverify
  obtain ⟨v, values, front, back, rfl, rfl, hchannel, hmore⟩ := separated_takes_iff.1 hlist
  have hfinite := List.forall_mem_cons.1 (List.all_eq_true.1 hall)
  obtain ⟨before, number, d, rfl, hb, hwrites, hd⟩ := writes_of_channel_takes hchannel hfinite.1
  obtain ⟨after', pieces, ha', hpieces, htext⟩ := exists_pieces hmore hfinite.2 ha
  refine ⟨gap, (before ++ (number ++ after')) :: pieces, hgap, .cons ?_ hpieces, ?_⟩
  · exact ⟨before, number, after', d, hb, ha', rfl, hwrites, hd, hfinite.1⟩
  · rw [← List.append_assoc _ after, List.append_assoc _ back, htext, intercalate_comma]
    simp

end Calls

def call (name : List Char) : Parser (List Float32) := (word name).after channels

theorem call_run_of_ne {name : List Char} {s : List Char}
    (h : (s.take name.length).map Char.toLower ≠ name) : (call name).run s = .refused :=
  after_run_of_refused channels (word_run_of_ne h)

theorem all_call {name : List Char} {values : List Float32} (hname : name.map Char.toLower = name)
    (hvalues : values ≠ []) {s : List Char} :
    (call name).all s = some values ↔ readCall? name s = some values := by
  rw [all_eq_some_iff, call, after_takes_iff]
  constructor
  · rintro ⟨_, called, _, rfl, hword, hchannels⟩
    have hletters := (word_takes_iff.1 hword).2
    obtain ⟨gap, pieces, hgap, hpieces, rfl⟩ := exists_pieces_of_channels hchannels
    have hcalled : sameLetters called name = true := by simp [sameLetters, hletters, hname]
    exact Calls.readCall? ⟨called, gap, pieces, hcalled, hgap, rfl, hpieces⟩ hname hvalues
  · intro h
    obtain ⟨called, gap, pieces, hcalled, hgap, rfl, hpieces⟩ := calls_of_readCall? h
    have hletters := map_toLower_of_sameLetters hcalled hname
    exact ⟨called, called, _, rfl, word_takes_iff.2 ⟨rfl, hletters⟩,
      channels_takes hvalues hgap hpieces⟩

theorem all_keep_call {name : List Char} {f : List Float32 → Option Color}
    (hname : name.map Char.toLower = name) (hf : f [] = none) (s : List Char) :
    ((call name).keep f).all s = (readCall? name s).bind f := by
  ext c
  rw [all_eq_some_iff, keep_takes_iff, Option.bind_eq_some_iff]
  refine exists_congr fun values => and_congr_left fun hvalues => ?_
  rw [← all_eq_some_iff]
  refine all_call hname ?_
  rintro rfl
  cases hf.symm.trans hvalues

def hexColor : Parser Color :=
  ((char '#').after (span1 (· ∈ hexDigits))).keep fun digits =>
    ofWord? digits.length (gather digits)

theorem all_hexColor (s : List Char) : hexColor.all s = readHex? s := by
  ext c
  rw [all_eq_some_iff, hexColor, keep_takes_iff]
  constructor
  · rintro ⟨digits, htake, hcolor⟩
    obtain ⟨_, _, _, rfl, hhash, hdigits⟩ := after_takes_iff.1 htake
    obtain ⟨rfl, rfl⟩ := char_takes_iff.1 hhash
    obtain ⟨rfl, -, hdigits, -⟩ := span1_takes_iff.1 hdigits
    simp only [decide_eq_true_eq] at hdigits
    rw [List.singleton_append, readHex?, mapM_hexDigit?_of_digits hdigits, Option.bind_some,
      ← ofWord?_gather, hcolor]
  · intro h
    obtain ⟨digits, rfl, hlength, hdigits⟩ := isSome_readHex?_iff.1 (Option.isSome_of_mem h)
    rw [readHex?, mapM_hexDigit?_of_digits hdigits, Option.bind_some, ← ofWord?_gather] at h
    have hne : digits ≠ [] := by
      rintro rfl
      simp at hlength
    have hrun : (span1 (· ∈ hexDigits)).Takes digits digits [] :=
      span1_takes_iff.2 ⟨rfl, hne, by simpa using hdigits, by simp⟩
    exact ⟨digits, after_takes_iff.2 ⟨'#', ['#'], digits, rfl, char_takes '#' _, hrun⟩, h⟩

def ofRgba? : List Float32 → Option Color
  | [r, g, b, a] => some (ofChannels r g b (clamp a))
  | _ => none

def rgbaColor : Parser Color := (call ['r', 'g', 'b', 'a']).keep ofRgba?

theorem all_rgbaColor (s : List Char) : rgbaColor.all s = readRgba? s := by
  rw [rgbaColor, all_keep_call (by decide) rfl, readRgba?]
  cases readCall? ['r', 'g', 'b', 'a'] s with
  | none => rfl
  | some values => rcases values with _ | ⟨r, _ | ⟨g, _ | ⟨b, _ | ⟨a, _ | _⟩⟩⟩⟩ <;> rfl

def ofRgb? : List Float32 → Option Color
  | [r, g, b] => some (ofChannels r g b 1)
  | _ => none

def rgbColor : Parser Color := (call ['r', 'g', 'b']).keep ofRgb?

theorem all_rgbColor (s : List Char) : rgbColor.all s = readRgb? s := by
  rw [rgbColor, all_keep_call (by decide) rfl, readRgb?]
  cases readCall? ['r', 'g', 'b'] s with
  | none => rfl
  | some values => rcases values with _ | ⟨r, _ | ⟨g, _ | ⟨b, _ | _⟩⟩⟩ <;> rfl

def literal : Parser Color := hexColor.or (rgbaColor.or rgbColor)

theorem all_literal (s : List Char) :
    literal.all s = (readHex? s <|> readRgba? s <|> readRgb? s) := by
  have hrgba : rgbaColor.run s ≠ .refused → rgbColor.all s = none := by
    intro h
    rw [all_rgbColor]
    by_contra hn
    obtain ⟨r, g, b, hcalls⟩ : Form.rgb.Fits s :=
      Form.isSome_read?_iff.1 (Option.isSome_iff_ne_none.2 hn)
    exact h (keep_run_of_refused (call_run_of_ne hcalls.ne_rgba))
  have hhex : hexColor.run s ≠ .refused → (rgbaColor.or rgbColor).all s = none := by
    intro h
    by_cases hhash : s.head? = some '#'
    · obtain ⟨s, rfl⟩ := List.head?_eq_some_iff.1 hhash
      exact all_of_refused (or_run_of_refused (keep_run_of_refused (call_run_of_ne (by simp)))
        (keep_run_of_refused (call_run_of_ne (by simp))))
    · exact absurd (keep_run_of_refused (after_run_of_refused _ (char_run_of_ne hhash))) h
  rw [literal, all_or hhex, all_or hrgba, all_hexColor, all_rgbaColor, all_rgbColor]

def consume? (s : List Char) : Option Color := literal.all (trim s) <|> readName? (trim s)

/-- A literal that is taken piece by piece is the same as one that is read as a whole. -/
theorem consume?_eq_read? (s : List Char) : consume? s = read? s := by
  simp only [consume?, read?, all_literal]
  cases readHex? (trim s) <;> cases readRgba? (trim s) <;> cases readRgb? (trim s) <;> rfl

end ColorTheme.Color.Grammar

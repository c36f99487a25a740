import Mathlib
import ColorTheme.Decimal
/-! # The texts of decimal numbers

A number is a sign, digits with a point among or before them, and an exponent, where only some digit
has to be there. The reader takes as many digits as it can at each place; it accepts just the texts
of this form, and finds the number that they write. -/
namespace ColorTheme.Decimal

/-- Whether a minus is written, and the text of the sign. -/
inductive IsSign : Bool → List Char → Prop
  | missing : IsSign false []
  | plus : IsSign false ['+']
  | minus : IsSign true ['-']

/-- The digits behind a point, and the text from the point on. -/
inductive IsFraction : List Char → List Char → Prop
  | missing : IsFraction [] []
  | pointed {digits : List Char} (h : ∀ c ∈ digits, c.isDigit = true) :
      IsFraction digits ('.' :: digits)

/-- The number of an exponent, and its text. -/
inductive IsExponent : ℤ → List Char → Prop
  | missing : IsExponent 0 []
  | marked {mark : Char} {negative : Bool} {sign digits : List Char}
      (letter : mark = 'e' ∨ mark = 'E') (signed : IsSign negative sign) (filled : digits ≠ [])
      (h : ∀ c ∈ digits, c.isDigit = true) :
      IsExponent (Decimal.signed negative (ofDigits digits)) (mark :: (sign ++ digits))

/-- What a text writes, given its parts. A digit has to stand before or behind the point. -/
inductive Writes (s : List Char) : Decimal → Prop
  | intro {negative : Bool} {sign whole part point tail : List Char} {exponent : ℤ}
      (signed : IsSign negative sign) (digits : ∀ c ∈ whole, c.isDigit = true)
      (fraction : IsFraction part point) (filled : whole ≠ [] ∨ part ≠ [])
      (scaled : IsExponent exponent tail) (text : s = sign ++ (whole ++ (point ++ tail))) :
      Writes s ⟨negative, ofDigits (whole ++ part), exponent - part.length⟩

theorem exists_isSign (s : List Char) :
    ∃ text, IsSign (sign s).1 text ∧ s = text ++ (sign s).2 := by
  unfold sign
  split
  · exact ⟨_, .minus, rfl⟩
  · exact ⟨_, .plus, rfl⟩
  · exact ⟨_, .missing, rfl⟩

theorem sign_append {negative : Bool} {text rest : List Char} (h : IsSign negative text)
    (hrest : ∀ c ∈ rest.head?, c ≠ '-' ∧ c ≠ '+') : sign (text ++ rest) = (negative, rest) := by
  cases h with
  | plus => rfl
  | minus => rfl
  | missing =>
    cases rest with
    | nil => rfl
    | cons c rest =>
      obtain ⟨hminus, hplus⟩ := hrest c rfl
      rw [List.nil_append, sign]
      · exact fun _ heq => hminus (List.cons.inj heq).1
      · exact fun _ heq => hplus (List.cons.inj heq).1

theorem ne_sign_of_isDigit {c : Char} (h : c.isDigit = true) : c ≠ '-' ∧ c ≠ '+' :=
  ⟨by rintro rfl; simp at h, by rintro rfl; simp at h⟩

theorem span_digits {digits rest : List Char} (h : ∀ c ∈ digits, c.isDigit = true)
    (hrest : ∀ c ∈ rest.head?, c.isDigit = false) :
    (digits ++ rest).takeWhile Char.isDigit = digits ∧
      (digits ++ rest).dropWhile Char.isDigit = rest := by
  rw [List.takeWhile_append_of_pos h, List.dropWhile_append_of_pos h]
  cases rest with
  | nil => simp
  | cons c rest => simp [hrest c rfl]

theorem natural?_eq_some_iff {s : List Char} {n : ℕ} :
    natural? s = some n ↔ s ≠ [] ∧ (∀ c ∈ s, c.isDigit = true) ∧ ofDigits s = n := by
  simp [natural?, and_assoc]

theorem exists_isFraction (s : List Char) :
    ∃ text, IsFraction (fraction s).1 text ∧ s = text ++ (fraction s).2 := by
  unfold fraction
  split
  · exact ⟨_, .pointed fun _ hc => List.mem_takeWhile_imp hc, by simp⟩
  · exact ⟨_, .missing, rfl⟩

theorem fraction_append {part text rest : List Char} (h : IsFraction part text)
    (hrest : ∀ c ∈ rest.head?, c.isDigit = false ∧ c ≠ '.') :
    fraction (text ++ rest) = (part, rest) := by
  cases h with
  | pointed h =>
    obtain ⟨htake, hdrop⟩ := span_digits h fun c hc => (hrest c hc).1
    rw [List.cons_append, fraction, htake, hdrop]
  | missing =>
    cases rest with
    | nil => rfl
    | cons c rest =>
      rw [List.nil_append, fraction]
      exact fun _ heq => (hrest c rfl).2 (List.cons.inj heq).1

theorem IsFraction.head {part text rest : List Char} (h : IsFraction part text)
    (hrest : ∀ c ∈ rest.head?, c.isDigit = false) :
    ∀ c ∈ (text ++ rest).head?, c.isDigit = false := by
  cases h with
  | missing => exact hrest
  | pointed _ => simp

/-- No sign stands at the front of the digits, whatever comes behind them. -/
theorem ne_sign_of_filled {whole part point : List Char} (digits : ∀ c ∈ whole, c.isDigit = true)
    (fraction : IsFraction part point) (filled : whole ≠ [] ∨ part ≠ []) (rest : List Char) :
    ∀ c ∈ (whole ++ (point ++ rest)).head?, c ≠ '-' ∧ c ≠ '+' := by
  intro c hc
  cases whole with
  | nil =>
    cases fraction with
    | missing => simp at filled
    | pointed _ =>
      obtain rfl : '.' = c := by simpa using hc
      decide
  | cons d whole =>
    obtain rfl : d = c := by simpa using hc
    exact ne_sign_of_isDigit (digits d (by simp))

theorem exponent?_eq_some_iff {s : List Char} {e : ℤ} : exponent? s = some e ↔ IsExponent e s := by
  constructor
  · intro h
    cases s with
    | nil =>
      cases h
      exact .missing
    | cons mark s =>
      obtain ⟨text, hsign, hs⟩ := exists_isSign s
      rw [exponent?] at h
      generalize sign s = parts at h hsign hs
      split at h
      · rename_i hmark
        obtain ⟨n, hn, rfl⟩ := Option.map_eq_some_iff.1 h
        obtain ⟨filled, digits, rfl⟩ := natural?_eq_some_iff.1 hn
        rw [hs]
        exact .marked hmark hsign filled digits
      · cases h
  · intro h
    cases h with
    | missing => rfl
    | @marked mark negative text digits letter signed filled h =>
      have hdigits : ∀ c ∈ digits.head?, c ≠ '-' ∧ c ≠ '+' := fun c hc =>
        ne_sign_of_isDigit (h c (List.mem_of_mem_head? hc))
      have hnatural := natural?_eq_some_iff.2 ⟨filled, h, rfl⟩
      rw [exponent?, if_pos letter, sign_append signed hdigits]
      exact Option.map_eq_some_iff.2 ⟨_, hnatural, rfl⟩

theorem IsExponent.head {e : ℤ} {s : List Char} (h : IsExponent e s) :
    ∀ c ∈ s.head?, c = 'e' ∨ c = 'E' := by
  cases h with
  | missing => simp
  | marked letter _ _ _ => simpa using letter

theorem writes_of_read? {s : List Char} {d : Decimal} (h : read? s = some d) : Writes s d := by
  obtain ⟨sign, signed, hsign⟩ := exists_isSign s
  obtain ⟨point, fraction, hpoint⟩ :=
    exists_isFraction ((Decimal.sign s).2.dropWhile Char.isDigit)
  simp only [read?] at h
  split at h
  · cases h
  · rename_i hfilled
    obtain ⟨e, he, rfl⟩ := Option.map_eq_some_iff.1 h
    have digits : ∀ c ∈ (Decimal.sign s).2.takeWhile Char.isDigit, c.isDigit = true :=
      fun _ hc => List.mem_takeWhile_imp hc
    refine .intro signed digits fraction (not_and_or.1 hfilled) (exponent?_eq_some_iff.1 he) ?_
    rw [← hpoint, List.takeWhile_append_dropWhile, ← hsign]

theorem Writes.read? {s : List Char} {d : Decimal} (h : Writes s d) : read? s = some d := by
  obtain ⟨signed, digits, fraction, filled, scaled, rfl⟩ := h
  rename_i negative sign whole part point tail exponent
  have htail : ∀ c ∈ tail.head?, c.isDigit = false ∧ c ≠ '.' := by
    intro c hc
    rcases scaled.head c hc with rfl | rfl
    · decide
    · decide
  -- neither the sign nor the digits before the point run on into what follows them
  have hpoint := fraction.head fun c hc => (htail c hc).1
  have hwhole := ne_sign_of_filled digits fraction filled tail
  obtain ⟨htake, hdrop⟩ := span_digits digits hpoint
  simp only [Decimal.read?, sign_append signed hwhole, htake, hdrop, fraction_append fraction htail,
    exponent?_eq_some_iff.2 scaled]
  rw [if_neg (not_and_or.2 filled), Option.map_some]

theorem read?_eq_some_iff {s : List Char} {d : Decimal} : read? s = some d ↔ Writes s d :=
  ⟨writes_of_read?, Writes.read?⟩

theorem Writes.ne_nil {s : List Char} {d : Decimal} (h : Writes s d) : s ≠ [] := by
  rintro rfl
  have hnone : Decimal.read? [] = none := by decide
  cases hnone.symm.trans h.read?

example : Writes "-.50E+3".toList ⟨true, 50, 1⟩ := writes_of_read? (by decide)

theorem IsSign.mem {negative : Bool} {s : List Char} (h : IsSign negative s) {c : Char}
    (hc : c ∈ s) : c ∈ ['+', '-', '.', 'e', 'E'] := by
  cases h <;> simp_all

theorem Writes.mem {s : List Char} {d : Decimal} (h : Writes s d) {c : Char} (hc : c ∈ s) :
    c.isDigit = true ∨ c ∈ ['+', '-', '.', 'e', 'E'] := by
  obtain ⟨signed, digits, fraction, -, scaled, rfl⟩ := h
  simp only [List.mem_append] at hc
  rcases hc with hc | hc | hc | hc
  · exact Or.inr (signed.mem hc)
  · exact Or.inl (digits c hc)
  · cases fraction with
    | missing => cases hc
    | pointed h =>
      rcases List.mem_cons.1 hc with rfl | hc
      · simp
      · exact Or.inl (h c hc)
  · cases scaled with
    | missing => cases hc
    | marked letter signed _ h =>
      rcases List.mem_cons.1 hc with rfl | hc
      · rcases letter with rfl | rfl <;> simp
      · rcases List.mem_append.1 hc with hc | hc
        · exact Or.inr (signed.mem hc)
        · exact Or.inl (h c hc)

end ColorTheme.Decimal

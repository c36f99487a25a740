import Mathlib
import ColorTheme.Proofs.EightBit
import ColorTheme.Proofs.Literals
/-! # Literals by their digits

A literal of digits stands for eight of them, which write the word of its color. The digits may as
well be gathered in one word of 32 bits before they are counted: the word of a long text has lost
its first digits, but such a text is no literal. -/
namespace ColorTheme.Color

open Text

/-- The value of a digit of base 16, and 0 for any other character. -/
def digitValue (c : Char) : ℕ := (hexValue? c).getD 0

/-- The number that some digits write. -/
def number (digits : List Char) : ℕ := Digits.value 16 (digits.map digitValue)

theorem digitValue_lt (c : Char) : digitValue c < 16 := by
  rw [digitValue]
  cases h : hexValue? c with
  | none => decide
  | some n =>
    exact of_ascii (P := fun c => ∀ n ∈ hexValue? c, n < 16) (by decide +kernel)
      (toNat_lt_of_hexValue? h) n h

theorem lt_of_mem_map_digitValue {digits : List Char} {n : ℕ} (h : n ∈ digits.map digitValue) :
    n < 16 := by
  obtain ⟨c, -, rfl⟩ := List.mem_map.1 h
  exact digitValue_lt c

theorem hexValue?_toLower (c : Char) : hexValue? c.toLower = hexValue? c := by
  by_cases hupper : c.isUpper = true
  · have hname : continuesName c = true := by
      simp [continuesName, Char.isAlphanum, Char.isAlpha, hupper]
    exact of_ascii (P := fun c => hexValue? c.toLower = hexValue? c) (by decide +kernel)
      (toNat_lt_of_continuesName hname)
  · rw [Char.toLower_eq_of_not_isUpper hupper]

theorem toLower_mem_hexDigits_iff {c : Char} : c.toLower ∈ hexDigits ↔ c ∈ hexDigits := by
  rw [← isSome_hexDigit?_iff, ← isSome_hexDigit?_iff, hexDigit?, hexDigit?, hexValue?_toLower]

section SameLetters

variable {digits digits' : List Char} (h : sameLetters digits' digits = true)
include h

theorem mem_hexDigits_of_sameLetters (hd : ∀ c ∈ digits, c ∈ hexDigits) :
    ∀ c ∈ digits', c ∈ hexDigits := by
  intro c hc
  have hmem : c.toLower ∈ digits'.map Char.toLower := List.mem_map_of_mem hc
  rw [beq_iff_eq.1 h] at hmem
  obtain ⟨b, hb, hbc⟩ := List.mem_map.1 hmem
  rw [← toLower_mem_hexDigits_iff, ← hbc, toLower_mem_hexDigits_iff]
  exact hd b hb

theorem map_digitValue_of_sameLetters : digits'.map digitValue = digits.map digitValue := by
  have lower (s : List Char) : s.map digitValue = (s.map Char.toLower).map digitValue := by
    simp [digitValue, hexValue?_toLower]
  rw [lower, lower digits, beq_iff_eq.1 h]

end SameLetters

theorem number_concat (digits : List Char) (c : Char) :
    number (digits ++ [c]) = number digits * 16 + digitValue c := by
  simp [number, Digits.value_eq, Digits.step]

theorem number_lt (digits : List Char) : number digits < 16 ^ digits.length := by
  induction digits using List.reverseRecOn with
  | nil => decide
  | append_singleton digits c ih =>
    have hc := digitValue_lt c
    rw [number_concat, List.length_append, List.length_singleton, pow_succ]
    omega

theorem mapM_hexDigit?_of_digits {digits : List Char} (h : ∀ c ∈ digits, c ∈ hexDigits) :
    digits.mapM hexDigit? = some ((digits.map digitValue).map Nat.toUInt8) := by
  rw [mapM_eq_some_iff, List.map_map, List.forall₂_map_right_iff, List.forall₂_same]
  intro c hc
  have hsome := isSome_hexDigit?_iff.2 (h c hc)
  rw [hexDigit?, Option.isSome_map] at hsome
  obtain ⟨n, hn⟩ := Option.isSome_iff_exists.1 hsome
  simp [hexDigit?, digitValue, hn]

/-- The eight digits that 3, 4, 6 or 8 of them stand for: each one twice in the short forms, and two
at the top where there is no alpha. -/
def fillUp? {α : Type} (top : α) : List α → Option (List α)
  | [r, g, b] => some [r, r, g, g, b, b, top, top]
  | [r, g, b, a] => some [r, r, g, g, b, b, a, a]
  | [r, r', g, g', b, b'] => some [r, r', g, g', b, b', top, top]
  | [r, r', g, g', b, b', a, a'] => some [r, r', g, g', b, b', a, a']
  | _ => none

section FillUp

variable {α : Type} (top : α) (l : List α)

theorem fillUp?_map {β : Type} (f : α → β) :
    fillUp? (f top) (l.map f) = (fillUp? top l).map (List.map f) := by
  match l with
  | [_, _, _] | [_, _, _, _] | [_, _, _, _, _, _] | [_, _, _, _, _, _, _, _]
  | [] | [_] | [_, _] | [_, _, _, _, _] | [_, _, _, _, _, _, _]
  | _ :: _ :: _ :: _ :: _ :: _ :: _ :: _ :: _ :: _ => rfl

theorem length_fillUp? : ∀ full ∈ fillUp? top l, full.length = 8 := by
  match l with
  | [_, _, _] | [_, _, _, _] | [_, _, _, _, _, _] | [_, _, _, _, _, _, _, _]
  | [] | [_] | [_, _] | [_, _, _, _, _] | [_, _, _, _, _, _, _]
  | _ :: _ :: _ :: _ :: _ :: _ :: _ :: _ :: _ :: _ => simp [fillUp?]

theorem isSome_fillUp?_iff : (fillUp? top l).isSome = true ↔ l.length ∈ [3, 4, 6, 8] := by
  match l with
  | [_, _, _] | [_, _, _, _] | [_, _, _, _, _, _] | [_, _, _, _, _, _, _, _]
  | [] | [_] | [_, _] | [_, _, _, _, _] | [_, _, _, _, _, _, _]
  | _ :: _ :: _ :: _ :: _ :: _ :: _ :: _ :: _ :: _ => simp [fillUp?]

end FillUp

/-- Eight values of digits make the word of the bytes that they make two by two. -/
theorem ofPacked_ofNat {a b c d e f g h : ℕ}
    (hlt : ∀ n ∈ [a, b, c, d, e, f, g, h], n < 16) :
    ofPacked (.ofNat (Digits.value 16 [a, b, c, d, e, f, g, h])) =
      ofBytes (pairByte a.toUInt8 b.toUInt8) (pairByte c.toUInt8 d.toUInt8)
        (pairByte e.toUInt8 f.toUInt8) (pairByte g.toUInt8 h.toUInt8) := by
  simp only [List.forall_mem_cons, List.not_mem_nil, false_implies, implies_true, and_true] at hlt
  obtain ⟨ha, hb, hc, hd, he, hf, hg, hh⟩ := hlt
  rw [ofPacked, Digits.value_eq]
  congr 1
  all_goals
    apply UInt8.toNat_inj.1
    simp [pairByte, Digits.step, Nat.shiftRight_eq_div_pow]
    omega

theorem ofDigits?_eq {values : List ℕ} (h : ∀ n ∈ values, n < 16) :
    ofDigits? (values.map Nat.toUInt8) =
      (fillUp? 15 values).map fun full => ofPacked (.ofNat (Digits.value 16 full)) := by
  match values with
  | [r, g, b] | [r, g, b, a] | [r, r', g, g', b, b'] | [r, r', g, g', b, b', a, a'] =>
    rw [fillUp?, Option.map_some, ofPacked_ofNat (by simp at h ⊢; omega)]
    rfl
  | [] | [_] | [_, _] | [_, _, _, _, _] | [_, _, _, _, _, _, _]
  | _ :: _ :: _ :: _ :: _ :: _ :: _ :: _ :: _ :: _ => rfl

theorem ofDigits?_map_digitValue (digits : List Char) :
    ofDigits? ((digits.map digitValue).map Nat.toUInt8) =
      (fillUp? 'F' digits).map fun full => ofPacked (.ofNat (number full)) := by
  have htop : digitValue 'F' = 15 := by decide
  rw [ofDigits?_eq fun _ hn => lt_of_mem_map_digitValue hn, ← htop, fillUp?_map, Option.map_map]
  rfl

/-- Takes in one digit after the other; the word keeps the last eight of them. -/
def gather (digits : List Char) : UInt32 :=
  digits.foldl (fun word c => word <<< 4 ||| .ofNat (digitValue c)) 0

/-- Bits that are put below a word move it up, and its highest ones out. -/
theorem toNat_shiftLeft_or {word bits k : UInt32} (hk : k.toNat < 32)
    (h : bits.toNat < 2 ^ k.toNat) :
    (word <<< k ||| bits).toNat = (word.toNat * 2 ^ k.toNat + bits.toNat) % 2 ^ 32 := by
  obtain ⟨m, hm⟩ : ∃ m, 2 ^ 32 = m * 2 ^ k.toNat :=
    ⟨2 ^ (32 - k.toNat), by rw [← pow_add]; congr 1; omega⟩
  have hlow : word.toNat % m * 2 ^ k.toNat + bits.toNat < m * 2 ^ k.toNat := by
    have hmod : word.toNat % m < m := Nat.mod_lt _ (by grind)
    nlinarith
  have hsplit : word.toNat * 2 ^ k.toNat + bits.toNat =
      word.toNat % m * 2 ^ k.toNat + bits.toNat + m * 2 ^ k.toNat * (word.toNat / m) := by
    nth_rewrite 1 [← Nat.mod_add_div word.toNat m]
    ring
  rw [UInt32.toNat_or, UInt32.toNat_shiftLeft, Nat.mod_eq_of_lt hk, Nat.shiftLeft_eq, hm,
    Nat.mul_mod_mul_right, ← Nat.shiftLeft_eq, ← Nat.shiftLeft_add_eq_or_of_lt h,
    Nat.shiftLeft_eq, hsplit, Nat.add_mul_mod_self_left, Nat.mod_eq_of_lt hlow]

theorem gather_eq (digits : List Char) : gather digits = .ofNat (number digits) := by
  induction digits using List.reverseRecOn with
  | nil => rfl
  | append_singleton digits c ih =>
    have hc := digitValue_lt c
    have hbits : (UInt32.ofNat (digitValue c)).toNat = digitValue c := by
      rw [UInt32.toNat_ofNat']
      omega
    apply UInt32.toNat_inj.1
    rw [gather, List.foldl_append, List.foldl_cons, List.foldl_nil, ← gather, ih,
      toNat_shiftLeft_or (by decide) (by rw [hbits]; exact hc), hbits, number_concat]
    simp
    omega

/-- The byte of a digit of a word that is written twice. -/
def twice (word shift : UInt32) : UInt8 := ((word >>> shift &&& 0xF) * 0x11).toUInt8

/-- The color of a word of gathered digits, by how many there were. -/
def ofWord? (length : ℕ) (word : UInt32) : Option Color :=
  match length with
  | 3 => some (ofBytes (twice word 8) (twice word 4) (twice word 0) 255)
  | 4 => some (ofBytes (twice word 12) (twice word 8) (twice word 4) (twice word 0))
  | 6 => some (ofPacked (word <<< 8 ||| 0xFF))
  | 8 => some (ofPacked word)
  | _ => none

theorem twice_eq {word shift : UInt32} {n : ℕ} (h : shift.toNat < 32)
    (hn : word.toNat / 2 ^ shift.toNat % 16 = n) :
    twice word shift = pairByte n.toUInt8 n.toUInt8 := by
  have hand (n : ℕ) : n &&& 15 = n % 16 := Nat.and_two_pow_sub_one_eq_mod n 4
  apply UInt8.toNat_inj.1
  simp [twice, pairByte, hand, Nat.shiftRight_eq_div_pow, Nat.mod_eq_of_lt h, hn]
  omega

theorem ofWord?_ofNat {values : List ℕ} (h : ∀ n ∈ values, n < 16) :
    ofWord? values.length (.ofNat (Digits.value 16 values)) =
      ofDigits? (values.map Nat.toUInt8) := by
  rw [Digits.value_eq]
  match values with
  | [r, g, b] =>
    simp only [List.forall_mem_cons] at h
    simp only [ofWord?, ofDigits?, List.map_cons, List.map_nil, List.length_cons, List.length_nil]
    congr 2
    all_goals
      apply twice_eq (by decide)
      simp [Digits.step]
      omega
  | [r, g, b, a] =>
    simp only [List.forall_mem_cons] at h
    simp only [ofWord?, ofDigits?, List.map_cons, List.map_nil, List.length_cons, List.length_nil]
    congr 2
    all_goals
      apply twice_eq (by decide)
      simp [Digits.step]
      omega
  | [r, r', g, g', b, b'] =>
    have hword : UInt32.ofNat (Digits.step 16 [r, r', g, g', b, b']) <<< 8 ||| 0xFF =
        .ofNat (Digits.value 16 [r, r', g, g', b, b', 15, 15]) := by
      apply UInt32.toNat_inj.1
      rw [toNat_shiftLeft_or (by decide) (by decide), Digits.value_eq]
      simp [Digits.step]
      omega
    rw [ofDigits?_eq h, fillUp?, Option.map_some, ← hword]
    rfl
  | [r, r', g, g', b, b', a, a'] =>
    rw [ofDigits?_eq h, fillUp?, Option.map_some, Digits.value_eq]
    rfl
  | [] | [_] | [_, _] | [_, _, _, _, _] | [_, _, _, _, _, _, _]
  | _ :: _ :: _ :: _ :: _ :: _ :: _ :: _ :: _ :: _ => rfl

theorem ofWord?_gather (digits : List Char) :
    ofWord? digits.length (gather digits) =
      ofDigits? ((digits.map digitValue).map Nat.toUInt8) := by
  rw [gather_eq, number, ← ofWord?_ofNat fun _ hn => lt_of_mem_map_digitValue hn, List.length_map]

/-- A text that starts like a literal of digits has no other form. -/
theorem read?_of_hash {s rest : List Char} (h : trim s = '#' :: rest) :
    read? s = readHex? ('#' :: rest) := by
  have other (form : Form) (hform : form ≠ .hex) : form.read? ('#' :: rest) = none := by
    by_contra hn
    have hfits : form.Fits ('#' :: rest) :=
      Form.isSome_read?_iff.1 (Option.isSome_iff_ne_none.2 hn)
    exact hform hfits.eq_guess
  have hrgba : readRgba? ('#' :: rest) = none := other .rgba (by decide)
  have hrgb : readRgb? ('#' :: rest) = none := other .rgb (by decide)
  have hname : readName? ('#' :: rest) = none := other .name (by decide)
  simp only [read?, h, hrgba, hrgb, hname]
  cases readHex? ('#' :: rest) <;> rfl

theorem isBlank_of_mem_hexDigits {c : Char} (h : c ∈ hexDigits) : isBlank c = false := by
  have hall : hexDigits.all (fun c => !isBlank c) = true := by decide
  simpa using List.all_eq_true.1 hall c h

theorem parse?_digits {digits : List Char} (h : ∀ c ∈ digits, c ∈ hexDigits) :
    parse? (String.ofList ('#' :: digits)) =
      ofDigits? ((digits.map digitValue).map Nat.toUInt8) := by
  have htrim : trim ('#' :: digits) = '#' :: digits := by
    apply trim_of_not_blank
    intro c hc
    rcases List.mem_cons.1 hc with rfl | hc
    · decide
    · exact isBlank_of_mem_hexDigits (h c hc)
  rw [parse?, String.toList_ofList, read?_of_hash htrim, readHex?, mapM_hexDigit?_of_digits h,
    Option.bind_some]

/-- A literal of 3, 4, 6 or 8 digits is the color of the word that its eight digits write; with any
other number of digits, however large, it is none. The digits may be gathered in a word of 32 bits
before they are counted, and they may be of either case. -/
theorem parse?_hash {digits : List Char} (h : ∀ c ∈ digits, c ∈ hexDigits) :
    (digits.length ∈ [3, 4, 6, 8] → ∃ (full : List Char) (word : UInt32),
      fillUp? 'F' digits = some full ∧ word.toNat = number full ∧
        parse? (String.ofList ('#' :: digits)) = some (ofPacked word)) ∧
    (digits.length ∉ [3, 4, 6, 8] → parse? (String.ofList ('#' :: digits)) = none) ∧
    ((gather digits).toNat = number digits % 2 ^ 32 ∧
      parse? (String.ofList ('#' :: digits)) = ofWord? digits.length (gather digits)) ∧
    ∀ digits', sameLetters digits' digits = true →
      parse? (String.ofList ('#' :: digits')) = parse? (String.ofList ('#' :: digits)) := by
  have hread := parse?_digits h
  have hfull := hread.trans (ofDigits?_map_digitValue digits)
  refine ⟨fun hlength => ?_, fun hlength => ?_, ⟨?_, ?_⟩, fun digits' hcase => ?_⟩
  · obtain ⟨full, hf⟩ := Option.isSome_iff_exists.1 ((isSome_fillUp?_iff 'F' digits).2 hlength)
    have hlt := number_lt full
    rw [length_fillUp? 'F' digits full hf] at hlt
    refine ⟨full, .ofNat (number full), hf, ?_, by rw [hfull, hf, Option.map_some]⟩
    rw [UInt32.toNat_ofNat']
    omega
  · have hn : fillUp? 'F' digits = none := by
      rwa [← Option.not_isSome_iff_eq_none, isSome_fillUp?_iff]
    rw [hfull, hn, Option.map_none]
  · rw [gather_eq, UInt32.toNat_ofNat']
  · rw [hread, ofWord?_gather]
  · rw [hread, parse?_digits (mem_hexDigits_of_sameLetters hcase h),
      map_digitValue_of_sameLetters hcase]

/-- Nine digits, of which a word has lost the first by the time that they are counted, and four. -/
theorem parse?_hash_long : (∀ c ∈ "F00000000".toList, c ∈ hexDigits) ∧
    gather "F00000000".toList = 0 ∧ parse? "#F00000000" = none ∧
    (∀ c ∈ "aB3c".toList, c ∈ hexDigits) ∧ parse? "#aB3c" = some (ofPacked 0xAABB33CC) ∧
    parse? "#Ab3C" = parse? "#aB3c" := by
  have hlong : "F00000000".toList ⊆ hexDigits := by decide
  have hshort : "aB3c".toList ⊆ hexDigits := by decide
  obtain ⟨-, hnone, ⟨hgather, -⟩, -⟩ := parse?_hash fun c hc => hlong hc
  obtain ⟨hsome, -, -, hcase⟩ := parse?_hash fun c hc => hshort hc
  refine ⟨fun c hc => hlong hc, ?_, hnone (by decide), fun c hc => hshort hc, ?_,
    hcase "Ab3C".toList (by decide)⟩
  · apply UInt32.toNat_inj.1
    rw [hgather]
    decide
  · obtain ⟨full, word, hfull, hword, hparse⟩ := hsome (by decide)
    cases hfull
    have : word = 0xAABB33CC := UInt32.toNat_inj.1 (hword.trans (by decide))
    exact this ▸ hparse

end ColorTheme.Color

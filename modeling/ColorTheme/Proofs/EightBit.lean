import Mathlib
import ColorTheme.Color.Literal
import ColorTheme.Proofs.Layout
/-! # Colors with eight bits a channel

A color is shown by the bytes of its channels, two digits each, which write its packed word. What is
shown reads back as the color of that word, and that color is shown the same way, whatever the
channels were: out of range, infinite or NaN. -/
namespace ColorTheme.Color

open Text

theorem toByte_ofByte : ∀ n : UInt8, toByte (ofByte n) = n := by decide +kernel

theorem bytes_ofBytes (red green blue alpha : UInt8) :
    (ofBytes red green blue alpha).bytes = [red, green, blue, alpha] := by
  simp [bytes, ofBytes, toByte_ofByte]

/-- A word holds its four bytes side by side. -/
theorem ofPacked_word (red green blue alpha : UInt8) :
    ofPacked (red.toUInt32 <<< 24 ||| green.toUInt32 <<< 16 ||| blue.toUInt32 <<< 8 |||
      alpha.toUInt32) = ofBytes red green blue alpha := by
  rw [ofPacked]
  congr 1
  -- bit by bit; the lowest byte is not shifted at all
  case e_alpha =>
    apply UInt8.toBitVec_inj.1
    ext i hi
    simp
  all_goals
    apply UInt8.toBitVec_inj.1
    ext i hi
    simp
    grind

theorem ofPacked_packed (c : Color) :
    ofPacked c.packed = ofBytes (toByte c.red) (toByte c.green) (toByte c.blue) (toByte c.alpha) :=
  ofPacked_word _ _ _ _

theorem bytes_ofPacked_packed (c : Color) : (ofPacked c.packed).bytes = c.bytes := by
  rw [ofPacked_packed, bytes_ofBytes, bytes]

theorem hexText_ofPacked_packed (c : Color) : (ofPacked c.packed).hexText = c.hexText := by
  simp only [hexText, hexChars, bytes_ofPacked_packed]

theorem hexValue?_hexDigit : ∀ n < (16 : UInt8), hexValue? (hexDigit n) = some n.toNat := by
  decide +kernel

theorem halves_lt : ∀ n : UInt8, n / 16 < 16 ∧ n % 16 < 16 := by decide +kernel

/-- A byte is made of two digits. -/
theorem pairByte_halves : ∀ n : UInt8,
    pairByte (.ofNat (n.toNat / 16)) (.ofNat (n.toNat % 16)) = n := by decide +kernel

/-- The digits of some bytes as numbers. -/
def nibbles (bytes : List UInt8) : List ℕ := bytes.flatMap fun n => [n.toNat / 16, n.toNat % 16]

theorem mapM_hexValue?_flatMap (bytes : List UInt8) :
    (bytes.flatMap hexPair).mapM hexValue? = some (nibbles bytes) := by
  induction bytes with
  | nil => rfl
  | cons n bytes ih =>
    obtain ⟨hhigh, hlow⟩ := halves_lt n
    have hpair : (hexPair n).mapM hexValue? = some [n.toNat / 16, n.toNat % 16] := by
      simp [hexPair, hexValue?_hexDigit _ hhigh, hexValue?_hexDigit _ hlow]
    simp [hpair, ih, nibbles]

theorem mapM_hexDigit?_eq (s : List Char) :
    s.mapM hexDigit? = (s.mapM hexValue?).map (List.map Nat.toUInt8) := by
  induction s with
  | nil => rfl
  | cons c s ih =>
    rw [List.mapM_cons, List.mapM_cons, ih, hexDigit?]
    cases hexValue? c <;> cases s.mapM hexValue? <;> rfl

theorem readHex?_hexChars (c : Color) : readHex? c.hexChars = some (ofPacked c.packed) := by
  rw [hexChars, readHex?, mapM_hexDigit?_eq, mapM_hexValue?_flatMap, ofPacked_packed]
  simp [bytes, nibbles, ofDigits?, pairByte_halves]

/-- The digits of the bytes of a word write the word. -/
theorem value_nibbles (word : UInt32) :
    Digits.value 16 (nibbles (ofPacked word).bytes) = word.toNat := by
  have hword := word.toNat_lt
  rw [ofPacked, bytes_ofBytes, Digits.value_eq]
  simp [nibbles, Digits.step, Nat.shiftRight_eq_div_pow]
  omega

/-- A word is packed as it was, since its bytes and thereby its digits stay. -/
theorem packed_ofPacked (word : UInt32) : (ofPacked word).packed = word := by
  have hdigits := value_nibbles (ofPacked word).packed
  rw [bytes_ofPacked_packed, value_nibbles] at hdigits
  exact UInt32.toNat_inj.1 hdigits.symm

theorem exists_hexDigit {bytes : List UInt8} {x : Char} (h : x ∈ bytes.flatMap hexPair) :
    ∃ n < (16 : UInt8), x = hexDigit n := by
  simp only [List.mem_flatMap, hexPair, List.mem_cons, List.not_mem_nil, or_false] at h
  obtain ⟨n, -, rfl | rfl⟩ := h
  · exact ⟨_, (halves_lt n).1, rfl⟩
  · exact ⟨_, (halves_lt n).2, rfl⟩

/-- The characters of a color are neither white space nor such as a comment or a line ends with. -/
theorem of_mem_hexChars {c : Color} {x : Char} (h : x ∈ c.hexChars) :
    isBlank x = false ∧ x ≠ '/' ∧ x ≠ '\n' := by
  have digit : ∀ n < (16 : UInt8), isBlank (hexDigit n) = false ∧ hexDigit n ≠ '/' ∧
      hexDigit n ≠ '\n' := by decide +kernel
  rcases List.mem_cons.1 h with rfl | h
  · decide
  · obtain ⟨n, hn, rfl⟩ := exists_hexDigit h
    exact digit n hn

theorem trim_hexChars (c : Color) : trim c.hexChars = c.hexChars :=
  trim_of_not_blank fun _ hx => (of_mem_hexChars hx).1

/-- What is shown of a color reads as the color of its bytes. -/
theorem read?_hexChars (c : Color) : read? c.hexChars = some (ofPacked c.packed) := by
  rw [read?, trim_hexChars]
  simp only [readHex?_hexChars]
  rfl

/-- Eight digits, the letters among them capital ones, that write a word. -/
structure Shows (digits : List Char) (word : UInt32) : Prop where
  length : digits.length = 8
  capital : ∀ x ∈ digits, x ∈ "0123456789ABCDEF".toList
  value : (digits.mapM hexValue?).map (Digits.value 16) = some word.toNat

theorem shows_packed (c : Color) : Shows (c.bytes.flatMap hexPair) c.packed where
  length := rfl
  capital := by
    have digit : ∀ n < (16 : UInt8), hexDigit n ∈ "0123456789ABCDEF".toList := by decide +kernel
    intro x hx
    obtain ⟨n, hn, rfl⟩ := exists_hexDigit hx
    exact digit n hn
  value := by
    rw [mapM_hexValue?_flatMap, Option.map_some, ← bytes_ofPacked_packed, value_nibbles]

/-- A color is shown by the eight digits of its packed word. They are read as the color of that
word, which is shown in the same way and is packed into the same word: nothing is lost after the
first time, whatever the channels were. -/
theorem hexText_readBack (c : Color) :
    (∃ digits, c.hexText.toList = '#' :: digits ∧ Shows digits c.packed) ∧
    parse? c.hexText = some (ofPacked c.packed) ∧
    (ofPacked c.packed).hexText = c.hexText ∧
    (∀ word : UInt32, (ofPacked word).packed = word) ∧
    ofPacked (ofPacked c.packed).packed = ofPacked c.packed := by
  refine ⟨⟨_, hexText_toList c, shows_packed c⟩, ?_, hexText_ofPacked_packed c, packed_ofPacked, ?_⟩
  · rw [parse?, hexText_toList, read?_hexChars]
  · rw [packed_ofPacked]

example : hexText ⟨2, -1, 0 / 0, 0.5⟩ = "#FF000080" := by decide +kernel

end ColorTheme.Color

import Mathlib
import ColorTheme.Proofs.Reading
import ColorTheme.Proofs.Layout
/-! # Calls in theme texts

A call is cut into its arguments at the commas outside inner parentheses, and it is read argument by
argument: their number is checked first, then the first one that is not of its kind is reported. -/
namespace ColorTheme

namespace Text

def weight (c : Char) : ℤ := if c = '(' then 1 else if c = ')' then -1 else 0

/-- How many more parentheses a text opens than it closes. -/
def depth (t : List Char) : ℤ := (t.map weight).sum

theorem depth_nil : depth [] = 0 := rfl

theorem depth_cons (c : Char) (t : List Char) : depth (c :: t) = weight c + depth t := by
  simp [depth]

/-- Every parenthesis has its partner, and every comma stands between parentheses. -/
structure Balanced (t : List Char) : Prop where
  nonneg : ∀ p, p <+: t → 0 ≤ depth p
  closed : depth t = 0
  enclosed : ∀ p, p ++ [','] <+: t → 0 < depth p

instance (t : List Char) : Decidable (Balanced t) :=
  decidable_of_iff ((∀ p ∈ t.inits, 0 ≤ depth p) ∧ depth t = 0 ∧
    ∀ p ∈ t.inits, p ++ [','] <+: t → 0 < depth p) <| by
  simp only [List.mem_inits]
  constructor
  · rintro ⟨nonneg, closed, enclosed⟩
    exact ⟨nonneg, closed, fun p hp => enclosed p ((List.prefix_append p [',']).trans hp) hp⟩
  · rintro ⟨nonneg, closed, enclosed⟩
    exact ⟨nonneg, closed, fun p _ => enclosed p⟩

theorem splitCommas_ne_nil (n : ℕ) (s : List Char) : splitCommas n s ≠ [] := by
  have hcons (c : Char) (pieces : List (List Char)) : consFirst c pieces ≠ [] := by
    cases pieces <;> simp [consFirst]
  cases s with
  | nil => simp [splitCommas]
  | cons c s =>
    rw [splitCommas]
    split_ifs <;> simp [hcons]

theorem consFirst_splitCommas (c : Char) (n : ℕ) (s : List Char) :
    consFirst c (splitCommas n s) = (splitCommas n s).modifyHead (c :: ·) := by
  cases h : splitCommas n s with
  | nil => exact absurd h (splitCommas_ne_nil n s)
  | cons piece pieces => rfl

/-- Apart from a comma outside parentheses, a character goes to the first piece and only changes the
depth for what follows. -/
theorem splitCommas_cons {c : Char} {n : ℕ} (hcomma : c = ',' → 0 < n) (s : List Char) :
    splitCommas n (c :: s) = (splitCommas (n + weight c).toNat s).modifyHead (c :: ·) := by
  have hcut : ¬(c = ',' ∧ n = 0) := fun h => absurd h.2 (hcomma h.1).ne'
  rw [splitCommas, if_neg hcut, ← consFirst_splitCommas]
  unfold weight
  split_ifs
  · congr 2
  · congr 2
    omega
  · simp

/-- A text without a comma at depth 0 goes to the first piece as a whole. -/
theorem splitCommas_append {t : List Char} {n : ℕ} (nonneg : ∀ p, p <+: t → 0 ≤ n + depth p)
    (enclosed : ∀ p, p ++ [','] <+: t → 0 < n + depth p) (rest : List Char) :
    splitCommas n (t ++ rest) = (splitCommas (n + depth t).toNat rest).modifyHead (t ++ ·) := by
  induction t generalizing n with
  | nil =>
    rw [depth_nil, add_zero, Int.toNat_natCast]
    exact (congrFun List.modifyHead_id _).symm
  | cons c t ih =>
    -- What stands behind the first character starts at the depth that this one leaves.
    have hweight : 0 ≤ n + weight c := by simpa [depth] using nonneg [c] (by simp)
    have hcomma (hc : c = ',') : 0 < n := by simpa [depth, hc] using enclosed [] (by simp [hc])
    have hdepth (p : List Char) : ((n + weight c).toNat : ℤ) + depth p = n + depth (c :: p) := by
      rw [Int.toNat_of_nonneg hweight, depth_cons]
      ring
    have hrest := ih (n := (n + weight c).toNat)
      (fun p hp => hdepth p ▸ nonneg (c :: p) (by simpa using hp))
      (fun p hp => hdepth p ▸ enclosed (c :: p) (by simpa using hp))
    rw [List.cons_append, splitCommas_cons hcomma, hrest, List.modifyHead_modifyHead, hdepth]
    rfl

theorem Balanced.splitCommas_append {t : List Char} (h : Balanced t) (rest : List Char) :
    splitCommas 0 (t ++ rest) = (splitCommas 0 rest).modifyHead (t ++ ·) := by
  have happend := Text.splitCommas_append (n := 0) (by simpa using h.nonneg)
    (by simpa using h.enclosed) rest
  simpa [h.closed] using happend

/-- Texts that are balanced are the pieces of what they make with commas between them. -/
theorem splitCommas_intercalate {texts : List (List Char)} (hne : texts ≠ [])
    (h : ∀ t ∈ texts, Balanced t) : splitCommas 0 ([','].intercalate texts) = texts := by
  induction texts with
  | nil => exact absurd rfl hne
  | cons t texts ih =>
    have ht : Balanced t := h t (by simp)
    cases texts with
    | nil => simpa [splitCommas] using ht.splitCommas_append []
    | cons t' texts =>
      have hrest := ih (by simp) fun u hu => h u (by simp [hu])
      rw [List.intercalate_cons_cons, List.append_assoc, ht.splitCommas_append]
      simp [splitCommas, hrest]

/-- A name, perhaps white space, and then parentheses around some text, up to the end. -/
def IsCall (name inner s : List Char) : Prop :=
  ∃ blank, (∀ c ∈ blank, isBlank c = true) ∧ s = name ++ blank ++ '(' :: (inner ++ [')'])

end Text

open Text

namespace Builtin

theorem mem_every (f : Builtin) : f ∈ every := by cases f <;> decide

/-- No function's name begins with that of another one. -/
theorem eq_of_name_isPrefix {f g : Builtin} (h : f.name.toList <+: g.name.toList) : f = g := by
  revert h; cases f <;> cases g <;> decide

/-- A text calls a function by its bare name or with parentheses, perhaps after white space. -/
def Calls (f : Builtin) (inner s : List Char) : Prop :=
  (inner = [] ∧ ∃ blank, (∀ c ∈ blank, isBlank c = true) ∧ s = f.name.toList ++ blank) ∨
    IsCall f.name.toList inner s

theorem Calls.name_isPrefix {f : Builtin} {inner s : List Char} (h : f.Calls inner s) :
    f.name.toList <+: s := by
  rcases h with ⟨-, blank, -, rfl⟩ | ⟨blank, -, rfl⟩
  · exact List.prefix_append _ _
  · rw [List.append_assoc]
    exact List.prefix_append _ _

theorem Calls.eq {f g : Builtin} {inner inner' s : List Char} (hf : f.Calls inner s)
    (hg : g.Calls inner' s) : f = g := by
  rcases List.prefix_or_prefix_of_prefix hf.name_isPrefix hg.name_isPrefix with h | h
  · exact eq_of_name_isPrefix h
  · exact (eq_of_name_isPrefix h).symm

theorem parenthesized?_eq_some_iff {s inner : List Char} :
    parenthesized? s = some inner ↔ IsCall [] inner s := by
  constructor
  · intro h
    obtain ⟨blank, hs, hb⟩ := exists_append_trimStart s
    rw [parenthesized?] at h
    split at h
    · rename_i rest hrest
      split at h
      · rename_i hlast
        cases h
        refine ⟨blank, hb, ?_⟩
        rw [List.dropLast_append_getLast? _ hlast]
        simpa [hrest] using hs
      · cases h
    · cases h
  · rintro ⟨blank, hb, rfl⟩
    have hopen : isBlank '(' = false := by decide
    rw [parenthesized?, List.nil_append, trimStart_of_blank_append hb, trimStart_cons, hopen]
    simp

theorem split_eq_some_iff {f g : Builtin} {s inner : List Char} :
    ((f.name.toList.isPrefixOf? s).bind fun rest =>
      if rest.all isBlank then some (f, [])
      else (parenthesized? rest).map fun inner => (f, inner)) = some (g, inner) ↔
      f = g ∧ f.Calls inner s := by
  have hopen : isBlank '(' = false := by decide
  simp only [Option.bind_eq_some_iff, List.isPrefixOf?_eq_some_iff_append_eq]
  constructor
  · rintro ⟨rest, rfl, h⟩
    split at h
    · rename_i hblank
      cases h
      exact ⟨rfl, Or.inl ⟨rfl, rest, by simpa using hblank, rfl⟩⟩
    · simp only [Option.map_eq_some_iff, Prod.mk.injEq, parenthesized?_eq_some_iff] at h
      obtain ⟨inner, ⟨blank, hb, rfl⟩, rfl, rfl⟩ := h
      exact ⟨rfl, Or.inr ⟨blank, hb, by simp⟩⟩
  · rintro ⟨rfl, ⟨rfl, blank, hb, rfl⟩ | ⟨blank, hb, rfl⟩⟩
    · exact ⟨blank, rfl, if_pos (by simpa using hb)⟩
    · refine ⟨blank ++ '(' :: (inner ++ [')']), by simp, ?_⟩
      have hcall : IsCall [] inner (blank ++ '(' :: (inner ++ [')'])) := ⟨blank, hb, rfl⟩
      rw [if_neg (by simp [hopen]), parenthesized?_eq_some_iff.2 hcall]
      rfl

theorem splitCall?_eq_some_iff {f : Builtin} {s inner : List Char} :
    splitCall? s = some (f, inner) ↔ f.Calls inner s := by
  constructor
  · intro h
    obtain ⟨g, -, hg⟩ := List.exists_of_findSome?_eq_some h
    obtain ⟨rfl, hcalls⟩ := split_eq_some_iff.1 hg
    exact hcalls
  · intro h
    cases hs : splitCall? s with
    | none =>
      have hnone := List.findSome?_eq_none_iff.1 hs f (mem_every f)
      rw [split_eq_some_iff.2 ⟨rfl, h⟩] at hnone
      cases hnone
    | some call =>
      obtain ⟨g, -, hg⟩ := List.exists_of_findSome?_eq_some hs
      obtain ⟨rfl, hcalls⟩ := split_eq_some_iff.1 hg
      obtain rfl := hcalls.eq h
      rw [split_eq_some_iff.2 ⟨rfl, h⟩] at hg
      exact hg.symm

end Builtin

namespace Color

theorem readHex?_eq_none {s : List Char} (h : s.head? ≠ some '#') : readHex? s = none := by
  unfold readHex?
  split
  · simp at h
  · rfl

theorem of_readCall?_eq_some {name s : List Char} {values : List Float32}
    (h : readCall? name s = some values) :
    (s.take name.length).map Char.toLower = name ∧ '(' ∈ s := by
  rw [readCall?] at h
  split at h
  · rename_i hname
    split at h
    · rename_i inner hinner
      have hmem : '(' ∈ (s.drop name.length).dropWhile isGap := by simp [hinner]
      exact ⟨hname, List.mem_of_mem_drop ((List.dropWhile_sublist _).mem hmem)⟩
    · cases h
  · cases h

theorem of_readName?_eq_some {s : List Char} {c : Color} (h : readName? s = some c) :
    ∃ name ∈ named.map Prod.fst, s.map lower = name.toList := by
  obtain ⟨before, after, hnamed, -⟩ := List.lookup_eq_some_iff.1 h
  refine ⟨String.ofList (s.map lower), ?_, String.toList_ofList.symm⟩
  simp [hnamed]

theorem readName?_eq_none {s : List Char} (h : '(' ∈ s) : readName? s = none := by
  by_contra hne
  obtain ⟨c, hc⟩ := Option.ne_none_iff_exists'.1 hne
  obtain ⟨name, hmem, hname⟩ := of_readName?_eq_some hc
  have hplain : ∀ name ∈ named.map Prod.fst, '(' ∉ name.toList := by decide
  exact hplain name hmem (hname ▸ List.mem_map_of_mem (f := lower) h)

/-- Only the name of a color is left where neither digits nor channels can be written. -/
theorem read?_eq_readName? {s : List Char} (hhex : (trim s).head? ≠ some '#')
    (hcall : '(' ∈ trim s → ∀ c ∈ (trim s).head?, c.toLower ≠ 'r') :
    read? s = readName? (trim s) := by
  have hnone (name : List Char) (hname : name.head? = some 'r') :
      readCall? name (trim s) = none := by
    by_contra hne
    obtain ⟨values, hvalues⟩ := Option.ne_none_iff_exists'.1 hne
    obtain ⟨htake, hopen⟩ := of_readCall?_eq_some hvalues
    cases ht : trim s with
    | nil => simp [ht] at hopen
    | cons c t =>
      rw [← htake, ht] at hname
      cases name with
      | nil => simp at hname
      | cons d name => exact hcall hopen c (by simp [ht]) (by simpa using hname)
  have hrgb : readRgb? (trim s) = none := by rw [readRgb?, hnone _ rfl]
  have hrgba : readRgba? (trim s) = none := by rw [readRgba?, hnone _ rfl]
  simp [read?, readHex?_eq_none hhex, hrgb, hrgba]

end Color

namespace Builtin

theorem findIdx?_isNone_map_some (args : List Argument) :
    (args.map some).findIdx? Option.isNone = none := by
  simp [List.findIdx?_eq_none_iff]

theorem readEach_eq_ok (f : Builtin) (position : ℕ) {parameters : List Parameter}
    {texts : List (List Char)} {args : List Argument}
    (h : Parameter.readAll parameters texts = args.map some) :
    f.readEach position parameters texts = .ok args := by
  rcases f.readEach_cases position parameters texts with ⟨args', hall, hread⟩ | ⟨i, _, _, hi, _⟩
  · rwa [List.map_injective_iff.2 (Option.some_injective _) (hall.symm.trans h)] at hread
  · rw [h, findIdx?_isNone_map_some] at hi
    cases hi

theorem readEach_eq_error (f : Builtin) (position : ℕ) {parameters : List Parameter}
    {texts : List (List Char)} {i : ℕ}
    (h : (Parameter.readAll parameters texts).findIdx? Option.isNone = some i) :
    ∃ p text, parameters[i]? = some p ∧ texts[i]? = some text ∧
      f.readEach position parameters texts =
        .error (.argumentType f (position + i) p (String.ofList text)) := by
  rcases f.readEach_cases position parameters texts with ⟨args, hall, -⟩ | ⟨j, p, text, hj, hrest⟩
  · rw [hall, findIdx?_isNone_map_some] at h
    cases h
  · obtain rfl : i = j := Option.some.inj (h.symm.trans hj)
    exact ⟨p, text, hrest⟩

theorem argumentTexts_intercalate {texts : List (List Char)} (hne : texts ≠ [])
    (hbalanced : ∀ t ∈ texts, Balanced t)
    (hfilled : ∀ t, texts = [t] → ∃ c ∈ t, isBlank c = false) :
    argumentTexts ([','].intercalate texts) = texts.map trim := by
  have hblank : ([','].intercalate texts).all isBlank = false := by
    have hcomma : isBlank ',' = false := by decide
    match texts with
    | [] => exact absurd rfl hne
    | [t] => simpa using hfilled t rfl
    | t :: t' :: texts => simp [List.intercalate_cons_cons, hcomma]
  rw [argumentTexts, hblank, splitCommas_intercalate hne hbalanced]
  rfl

/-- No function's name starts like a literal. -/
theorem exists_name_eq_cons (f : Builtin) : ∃ c t, f.name.toList = c :: t ∧
    isBlank c = false ∧ c ≠ '#' ∧ c.toLower ≠ 'r' := by
  cases f <;> exact ⟨_, _, rfl, by decide⟩

end Builtin

namespace Value

theorem read_of_isCall {f : Builtin} {inner s : List Char} (h : IsCall f.name.toList inner s)
    (key : List Char) : read key s = (f.readArguments inner).map (call f) := by
  have hsplit := Builtin.splitCall?_eq_some_iff.2 (Or.inr h)
  obtain ⟨blank, -, hs⟩ := h
  obtain ⟨c, t, hname, hblank, hhex, hrgb⟩ := f.exists_name_eq_cons
  have hclose : isBlank ')' = false := by decide
  have hhead : s.head? = some c := by simp [hs, hname]
  have hlast : s.getLast? = some ')' := by simp [hs, List.getLast?_cons]
  have hopen : '(' ∈ s := by simp [hs]
  have htrim : trim s = s := trim_eq_self (by simpa [hhead] using hblank)
    (by simpa [hlast] using hclose)
  have hcolor : Color.read? s = none := by
    rw [Color.read?_eq_readName?, htrim, Color.readName?_eq_none hopen]
    · simpa [htrim, hhead] using hhex
    · simpa [htrim, hhead] using fun _ => hrgb
  rw [read, htrim, hcolor, hsplit]

/-- A call is read argument by argument. A wrong number of arguments is reported before an argument
of the wrong kind, and of those the first one is. Whatever else is read fits its function, so that
a definition takes it wherever its mode, state and key are free. -/
theorem read_call {f : Builtin} {blank : List Char} (hblank : ∀ c ∈ blank, isBlank c = true)
    {texts : List (List Char)} (hne : texts ≠ []) (hbalanced : ∀ t ∈ texts, Balanced t)
    (hfilled : ∀ t, texts = [t] → ∃ c ∈ t, isBlank c = false) (key : List Char) {s : List Char}
    (hs : s = f.name.toList ++ blank ++ '(' :: ([','].intercalate texts ++ [')'])) :
    (texts.length ≠ f.arity → read key s = .error (.argumentCount f texts.length)) ∧
    (texts.length = f.arity →
      (∀ i, (Parameter.readAll f.parameters (texts.map trim)).findIdx? Option.isNone = some i →
        ∃ p text, f.parameters[i]? = some p ∧ texts[i]? = some text ∧
          read key s = .error (.argumentType f (i + 1) p (String.ofList (trim text)))) ∧
      ∀ args, Parameter.readAll f.parameters (texts.map trim) = args.map some →
        read key s = .ok (.call f args) ∧ args.length = f.arity ∧ f.mismatch? args = none ∧
        ∀ (d : Definition) (e : Entry), e.value = .call f args →
          d.findExact? e.mode e.state e.key = none → d.insert? e = some (d.push e)) := by
  have hread : read key s = (f.readArguments ([','].intercalate texts)).map (call f) :=
    read_of_isCall ⟨blank, hblank, hs⟩ key
  rw [Builtin.readArguments, Builtin.argumentTexts_intercalate hne hbalanced hfilled,
    List.length_map] at hread
  refine ⟨fun hcount => ?_, fun hcount => ⟨fun i hi => ?_, fun args hargs => ?_⟩⟩
  · rw [hread, if_neg hcount]
    rfl
  · obtain ⟨p, text, hp, htext, hfirst⟩ := f.readEach_eq_error 1 hi
    obtain ⟨t, ht, rfl⟩ : ∃ t, texts[i]? = some t ∧ trim t = text := by simpa using htext
    refine ⟨p, t, hp, ht, ?_⟩
    rw [hread, if_pos hcount, hfirst, add_comm]
    rfl
  · have hargs' := f.readEach_eq_ok 1 hargs
    rw [if_pos hcount, hargs'] at hread
    have hfits := Builtin.fits_of_readEach ((List.length_map _).trans hcount) hargs'
    refine ⟨hread, hfits.length_eq, Builtin.mismatch?_of_fits hfits, fun d e he hfree => ?_⟩
    rw [Definition.insert?, Definition.admits, he, wellTyped, Builtin.accepts_of_fits hfits, hfree]
    rfl

/-- Arguments with commas and white space of their own. -/
def blended : List (List Char) :=
  [" rgb(0, 255,0) ".toList, "Ink_Hovered\t".toList, "\u00a00.5".toList]

/-- The second argument is missing, and the third one is no number either. -/
def patchy : List (List Char) := ["Ink".toList, " ".toList, "half".toList]

theorem read_call_mix :
    read "Tint".toList "Mix\u3000( rgb(0, 255,0) ,Ink_Hovered\t,\u00a00.5)".toList =
      .ok (.call .mix [.color (.rgb 0 1 0), .entry ⟨"Ink", .hovered⟩, .number 0.5]) ∧
    read "Tint".toList "Mix(Ink, ,half)".toList = .error (.argumentType .mix 2 .color "") ∧
    read "Tint".toList "Alpha(Ink, ,half)".toList = .error (.argumentCount .alpha 3) := by
  have hblended : ∀ t ∈ blended, Balanced t := by decide +kernel
  have hpatchy : ∀ t ∈ patchy, Balanced t := by decide +kernel
  have hspace : isBlank '\u3000' = true := by decide
  have hspaced : ∀ c ∈ ['\u3000'], isBlank c = true := by simpa using hspace
  have htight : ∀ c ∈ ([] : List Char), isBlank c = true := by simp
  obtain ⟨-, hmix⟩ := read_call (f := .mix) hspaced (by decide) hblended nofun "Tint".toList
    (s := "Mix\u3000( rgb(0, 255,0) ,Ink_Hovered\t,\u00a00.5)".toList) (by decide)
  obtain ⟨-, hpatch⟩ := read_call (f := .mix) htight (by decide) hpatchy nofun "Tint".toList
    (s := "Mix(Ink, ,half)".toList) (by decide)
  obtain ⟨halpha, -⟩ := read_call (f := .alpha) htight (by decide) hpatchy nofun "Tint".toList
    (s := "Alpha(Ink, ,half)".toList) (by decide)
  refine ⟨((hmix rfl).2 _ ?_).1, ?_, halpha (by decide)⟩
  · decide +kernel
  · obtain ⟨p, text, hp, htext, hread⟩ := (hpatch rfl).1 1 (by decide +kernel)
    cases hp
    cases htext
    exact hread

end Value

end ColorTheme

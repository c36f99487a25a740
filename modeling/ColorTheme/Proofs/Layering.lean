import Mathlib
import ColorTheme.Proofs.NormalForm
import ColorTheme.Proofs.Spacing
/-! # Texts on top of each other

Reading a text and then another one comes to reading a single text, in which the second one stands
below the first and below a directive for all modes. Only the numbers of its lines change. -/
namespace ColorTheme

open Text

namespace Token

theorem ofLines_add (number k : ℕ) (ls : List (List Char)) :
    ofLines (number + k) ls = (ofLines number ls).map (renumber (· + k)) := by
  induction ls generalizing number with
  | nil => rfl
  | cons l ls ih =>
    have hnumber : number + k + 1 = number + 1 + k := by omega
    simp only [ofLines, hnumber, ih]
    split
    · rfl
    · rfl

/-- The directive stands on the line behind the last one of the first text. -/
theorem ofText_joined (a b : List Char) :
    ofText (a ++ "\n[All]\n".toList ++ b) =
      ofText a ++ ⟨a.count '\n' + 2, .ok (.directive .all)⟩ ::
        (ofText b).map (renumber (· + (a.count '\n' + 2))) := by
  have htext : a ++ "\n[All]\n".toList ++ b = a ++ '\n' :: ("[All]".toList ++ '\n' :: b) := by simp
  have hlabel : '\n' ∉ "[All]".toList := by decide
  have hread : Line.read (trim "[All]".toList) = .ok (.directive .all) := by decide
  have hnumber : 1 + (a.count '\n' + 1) = a.count '\n' + 2 := by omega
  have hbelow : a.count '\n' + 2 + 1 = 1 + (a.count '\n' + 2) := by omega
  rw [htext, ofText_eq_ofLines, List.splitOn_append_cons_self,
    List.splitOn_append_cons_self_of_not_mem hlabel, ofLines_append, length_splitOn, hnumber,
    ofLines, if_neg (by decide), hread, hbelow, ofLines_add, ← ofText_eq_ofLines,
    ← ofText_eq_ofLines]

end Token

namespace Definition

/-- Below a directive reading goes on from what the tokens above it have left. -/
theorem readTokens_append {d d' : Definition} {mode : Mode} {tokens : List Token} {first : Outcome}
    (h : d.readTokens mode tokens = (d', .ok first)) (number : ℕ) (next : Mode)
    (rest : List Token) :
    d.readTokens mode (tokens ++ ⟨number, .ok (.directive next)⟩ :: rest) =
      ((d'.readTokens next rest).1, (d'.readTokens next rest).2.map (first ++ ·)) := by
  induction tokens generalizing d mode first with
  | nil =>
    cases h
    simp [readTokens, Outcome.map_nothing_append]
  | cons t tokens ih =>
    rcases t with ⟨line, fault | comment | mode' | ⟨key, text⟩⟩
    · cases h
    · exact ih h
    · exact ih h
    · rw [readTokens] at h
      rw [List.cons_append, readTokens]
      cases hv : Value.read key text with
      | error fault =>
        rw [hv] at h
        cases h
      | ok value =>
        rw [hv] at h
        dsimp only at h ⊢
        cases hr : (d.assign line mode key value).1.readTokens mode tokens with
        | mk d₂ result =>
          rw [hr] at h
          cases result with
          | error e => cases h
          | ok others =>
            cases h
            rw [ih hr]
            cases (d₂.readTokens next rest).2 with
            | error e => rfl
            | ok last => simp [Except.map, Outcome.append_assoc]

/-- Where a first text is read, a second one on top of it comes to the same definition as both in
one text. What is reported of the second one has its lines further below by those of the first. -/
theorem readInto_joined {d d' : Definition} {a b : String} {first : Outcome}
    (h : d.readInto a = (d', .ok first)) :
    (d.readInto (a ++ "\n[All]\n" ++ b)).1 = (d'.readInto b).1 ∧
    (∀ second, (d'.readInto b).2 = .ok second →
      (d.readInto (a ++ "\n[All]\n" ++ b)).2 = .ok ⟨first.added + second.added,
        first.duplicates ++ second.duplicates.map fun x =>
          { x with line := x.line + (a.toList.count '\n' + 2) }⟩) ∧
    ∀ e, (d'.readInto b).2 = .error e →
      (d.readInto (a ++ "\n[All]\n" ++ b)).2 =
        .error { e with line := e.line + (a.toList.count '\n' + 2) } := by
  let shift := a.toList.count '\n' + 2
  have hjoined : d.readInto (a ++ "\n[All]\n" ++ b) =
      ((d'.readInto b).1, (renumber (· + shift) (d'.readInto b).2).map (first ++ ·)) := by
    rw [readInto, String.toList_append, String.toList_append, Token.ofText_joined,
      readTokens_append h, readTokens_renumber]
    rfl
  rw [hjoined]
  refine ⟨rfl, fun second hs => ?_, fun e he => ?_⟩
  · rw [hs]
    rfl
  · rw [he]
    rfl

/-- A text that ends in a section of its own and a carriage return. -/
def ground : String := "// ink\n[Dark]\nInk: red\r"

/-- A text that names an entry twice. -/
def glaze : String := "\n".intercalate ["Ink: white", "", "Ink: gray // again"]

theorem readInto_joined_glaze : ∃ d' : Definition,
    empty.readInto ground = (d', .ok ⟨1, []⟩) ∧
    (d'.readInto glaze).2 = .ok ⟨1, [⟨.all, .any, "Ink", 3⟩]⟩ ∧
    (empty.readInto (ground ++ "\n[All]\n" ++ glaze)).1 = (d'.readInto glaze).1 ∧
    (empty.readInto (ground ++ "\n[All]\n" ++ glaze)).2 =
      .ok ⟨2, [⟨.all, .any, "Ink", 7⟩]⟩ := by
  have haccepted : ∀ line ∈ lines ground.toList, Line.fault? line = none := by decide +kernel
  have hground := readInto_of_accepted empty haccepted
  obtain ⟨hentries, houtcome⟩ := absorb_written indexed_empty ground
  generalize hd : (empty.absorb (written ground)).1 = d' at hground hentries
  have hfresh : empty.fresh [] (written ground) =
      [⟨3, ⟨"Ink", .dark, .any, .color .pureRed⟩⟩] := by decide +kernel
  have hrepeated : empty.repeated [] (written ground) = [] := by decide +kernel
  rw [houtcome, hfresh, hrepeated] at hground
  have hink : d'.entries = (ofEntries [⟨"Ink", .dark, .any, .color .pureRed⟩]).entries := by
    rw [hentries, hfresh, entries_ofEntries]
    rfl
  have hbuilt : d'.Built := by simpa [hground] using Built.empty.read ground
  have haccepted' : ∀ line ∈ lines glaze.toList, Line.fault? line = none := by decide +kernel
  have hglaze : (d'.readInto glaze).2 = .ok ⟨1, [⟨.all, .any, "Ink", 3⟩]⟩ := by
    have houtcome' := (absorb_written hbuilt.indexed glaze).2
    rw [fresh_congr hink, repeated_congr hink] at houtcome'
    rw [readInto_of_accepted d' haccepted']
    refine congrArg Except.ok (houtcome'.trans ?_)
    decide +kernel
  obtain ⟨hsame, hsecond, -⟩ := readInto_joined (b := glaze) hground
  exact ⟨d', hground, hglaze, hsame, hsecond _ hglaze⟩

end Definition

end ColorTheme

import Mathlib
import ColorTheme.CommandLine
import ColorTheme.Proofs.Wording
/-! # What a check prints

A check prints notices, findings for its modes and perhaps `ok`, each on lines of its own. The last
characters of such an item tell which of them it is. -/
namespace ColorTheme.CommandLine

open Text

/-- What is printed for some items, one below the other. -/
def sheet (items : List String) : String := String.join (items.map (· ++ "\n"))

theorem lines_sheet (items : List String) :
    lines (sheet items).toList = items.flatMap fun s => lines (s.toList ++ ['\n']) := by
  have hsheet : (sheet items).toList = (items.map String.toList).flatMap (· ++ ['\n']) := by
    simp [sheet, List.flatMap_map]
  rw [hsheet, lines_flatMap, List.flatMap_map]

theorem lines_item {s : String} (h : OneLine s) : lines (s.toList ++ ['\n']) = [s.toList] :=
  lines_append_newline h []

theorem mem_lines_sheet {items : List String} {s : String} (h : OneLine s) (hs : s ∈ items) :
    s.toList ∈ lines (sheet items).toList := by
  rw [lines_sheet]
  exact List.mem_flatMap.2 ⟨s, hs, by simp [lines_item h]⟩

/-- An item with line breaks takes more lines than one. -/
theorem mem_lines_between {s : String} (h : OneLine s) (before rest : List Char) :
    s.toList ∈ lines (before ++ '\n' :: (s.toList ++ '\n' :: rest)) := by
  rw [lines_append_cons, lines_append_newline h]
  simp

theorem mem_of_mem_lines_sheet {items : List String} (h : ∀ s ∈ items, OneLine s) {s : String}
    (hs : s.toList ∈ lines (sheet items).toList) : s ∈ items := by
  rw [lines_sheet] at hs
  obtain ⟨t, ht, hs⟩ := List.mem_flatMap.1 hs
  rw [lines_item (h t ht), List.mem_singleton] at hs
  rwa [String.toList_injective hs]

def Ends (s ending : String) : Prop := ending.toList <:+ s.toList

theorem ends_append (s ending : String) : Ends (s ++ ending) ending := by simp [Ends]

/-- The last line of a sheet ends as its last item does. -/
theorem exists_getLast?_sheet (items : List String) {s ending : String} (hs : Ends s ending)
    (hb : OneLine ending) : ∃ line, (lines (sheet (items ++ [s])).toList).getLast? = some line ∧
      ending.toList <:+ line := by
  obtain ⟨line, hline, hending⟩ := exists_getLast?_lines hs hb
  refine ⟨line, ?_, hending⟩
  have hne : lines (s.toList ++ ['\n']) ≠ [] := lines_ne_nil (by simp)
  rw [lines_sheet, List.flatMap_append, List.flatMap_singleton,
    List.getLast?_append_of_ne_nil _ hne, hline]

theorem getLast?_sheet (items : List String) {s : String} (hs : OneLine s) :
    (lines (sheet (items ++ [s])).toList).getLast? = some s.toList := by
  rw [lines_sheet, List.flatMap_append, List.flatMap_singleton, lines_item hs,
    List.getLast?_concat]

def noticeLine (origin : String) (x : Duplicate) : String :=
  origin ++ ":" ++ toString x.line ++ ": duplicate `" ++ x.key ++ "` (" ++ x.mode.name ++ ", " ++
    x.state.name ++ ") ignored"

def unusedLine (mode : Mode) (u : Unused) : String :=
  mode.name ++ ": unused entry `" ++ u.key ++ "` (" ++ u.mode.name ++ ", " ++ u.state.name ++ ")"

def errorLine (mode : Mode) (e : BakeError) : String := mode.name ++ ": " ++ e.message

theorem Source.duplicateLines_eq (s : Source) :
    s.duplicateLines = s.duplicates.map (noticeLine s.origin) := rfl

/-- What a check says of the bakes of a definition, item by item. -/
inductive Finding (d : Definition) : String → Prop
  | unused {mode : Mode} {report : Report} {u : Unused} (ok : d.bakeWithReport mode = .ok report)
      (mem : u ∈ report.unused) : Finding d (unusedLine mode u)
  | failed {mode : Mode} {e : BakeError} (error : d.bakeWithReport mode = .error e) :
      Finding d (errorLine mode e)

theorem finding_of_mem_checkMode {d : Definition} {mode : Mode} {s : String}
    (h : s ∈ (checkMode d mode).1) : Finding d s := by
  rw [checkMode] at h
  split at h
  · rename_i report ok
    obtain ⟨u, hu, rfl⟩ := List.mem_map.1 h
    exact .unused ok hu
  · rename_i e error
    obtain rfl := List.mem_singleton.1 h
    exact .failed error

theorem checkMode_of_error {d : Definition} {mode : Mode} {e : BakeError}
    (h : d.bakeWithReport mode = .error e) : checkMode d mode = ([errorLine mode e], false) := by
  rw [checkMode, h]
  rfl

theorem checkMode_snd_iff {d : Definition} {mode : Mode} :
    (checkMode d mode).2 = true ↔ ∃ t, d.bake mode = .ok t := by
  rw [checkMode, Definition.bake]
  cases d.bakeWithReport mode with
  | error e => simp [Except.map]
  | ok report => simp [Except.map]

theorem errorLine_inj {mode mode' : Mode} {e e' : BakeError}
    (h : errorLine mode e = errorLine mode' e') : mode = mode' ∧ e.message = e'.message := by
  have cut (mode : Mode) (e : BakeError) : cutFirst? ':' (errorLine mode e).toList =
      some (mode.name.toList, ' ' :: e.message.toList) := by
    have hname : ':' ∉ mode.name.toList := by cases mode <;> simp [Mode.name]
    rw [← cutFirst?_append hname]
    simp [errorLine]
  have hcut := cut mode e
  rw [h, cut mode' e', Option.some.injEq, Prod.mk.injEq, List.cons.injEq] at hcut
  exact ⟨Mode.name_injective (String.toList_injective hcut.1.symm),
    String.toList_injective hcut.2.2.symm⟩

/-- How the items end that speak of a mode. -/
def findingEndings : List String := [")", "`", "entries also unresolved"]

/-- How items end. -/
def endings : List String := "ok" :: ") ignored" :: findingEndings

theorem oneLine_of_mem_endings {ending : String} (h : ending ∈ endings) : OneLine ending := by
  have hall : ∀ ending ∈ endings, OneLine ending := by decide
  exact hall ending h

/-- None of the endings ends another one, so that an item has only one of them. -/
theorem eq_of_ends {s a b : String} (ha : a ∈ endings) (hb : b ∈ endings) (hs : Ends s a)
    (hs' : Ends s b) : a = b := by
  have hall : ∀ a ∈ endings, ∀ b ∈ endings, a.toList <:+ b.toList → a = b := by decide
  rcases List.suffix_or_suffix_of_suffix hs hs' with h | h
  · exact hall a ha b hb h
  · exact (hall b hb a ha h).symm

theorem exists_ends_errorLine (mode : Mode) (e : BakeError) :
    ∃ ending ∈ ["`", "entries also unresolved"], Ends (errorLine mode e) ending := by
  have ends {ending : String} (h : Ends e.message ending) : Ends (errorLine mode e) ending :=
    h.trans (ends_append _ _)
  cases e with
  | unresolved => exact ⟨"entries also unresolved", by simp, ends (ends_append _ _)⟩
  | unknownReference => exact ⟨"`", by simp, ends (ends_append _ _)⟩
  | missingCell => exact ⟨"`", by simp, ends (ends_append _ _)⟩

theorem ends_unusedLine (mode : Mode) (u : Unused) : Ends (unusedLine mode u) ")" :=
  ends_append _ _

theorem errorLine_not_ends (mode : Mode) (e : BakeError) {other : String} (h : other ∈ endings)
    (hn : other ∉ ["`", "entries also unresolved"]) : ¬ Ends (errorLine mode e) other := by
  intro hs
  obtain ⟨ending, hmem, hending⟩ := exists_ends_errorLine mode e
  have hmem' : ending ∈ endings := by
    revert hmem
    simp +contextual [endings, findingEndings]
  rw [eq_of_ends h hmem' hs hending] at hn
  exact hn hmem

theorem Finding.exists_ends {d : Definition} {s : String} (h : Finding d s) :
    ∃ ending ∈ findingEndings, Ends s ending := by
  cases h with
  | @unused mode report u => exact ⟨")", by simp [findingEndings], ends_unusedLine mode u⟩
  | @failed mode e =>
    obtain ⟨ending, hmem, hending⟩ := exists_ends_errorLine mode e
    exact ⟨ending, List.mem_cons_of_mem _ hmem, hending⟩

theorem Finding.oneLine {d : Definition} {s : String} (h : Finding d s) (hd : d.Indexed)
    (legible : d.Legible) : OneLine s := by
  cases h with
  | @unused mode report u ok mem =>
    have hkey := (legible.of_bakeWithReport hd mode).2 report ok u mem
    simp only [unusedLine, OneLine.append_iff, Mode.oneLine_name, State.oneLine_name, hkey]
    simp [OneLine]
  | @failed mode e error =>
    have hmessage := (legible.of_bakeWithReport hd mode).1 e error
    simp only [errorLine, OneLine.append_iff, Mode.oneLine_name, hmessage]
    simp [OneLine]

end ColorTheme.CommandLine

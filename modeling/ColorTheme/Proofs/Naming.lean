import Mathlib
import ColorTheme.Proofs.Editing
import ColorTheme.Proofs.Expansion
/-! # References and the text of them

A reference is shown as it was written: the text of what was read is the text that was read. Only a
key that is no name, or that would be taken for a key and a state, is not read back; no entry of a
theme text has one, so that its key and state can be told from the name that messages give it. -/
namespace ColorTheme

open Text

theorem State.continuesName_of_mem_name (state : State) :
    ∀ c ∈ state.name.toList, continuesName c = true := by
  rw [← List.all_eq_true]
  cases state <;> decide

namespace Reference

theorem text_toList (r : Reference) : r.text.toList =
    if r.state = .any then r.key.toList else r.key.toList ++ '_' :: r.state.name.toList := by
  obtain ⟨key, state⟩ := r
  cases state <;> simp [text]

/-- The parts of a name make up the name. -/
theorem text_of_splitState {name : List Char} {r : Reference}
    (h : splitState name = (r.key.toList, r.state)) : r.text.toList = name := by
  rw [text_toList]
  cases hs : suffix? name with
  | none =>
    obtain ⟨hkey, hstate⟩ : name = r.key.toList ∧ State.any = r.state := by
      simpa [splitState, hs] using h
    rw [if_pos hstate.symm, hkey]
  | some cut =>
    obtain rfl : cut = (r.key.toList, r.state) := by simpa [splitState, hs] using h
    obtain ⟨hname, -, hany⟩ := suffix?_eq_some hs
    rw [if_neg hany, ← hname]

theorem read?_eq_some_iff {s : List Char} {r : Reference} : read? s = some r ↔
    isName (trim s) = true ∧ splitState (trim s) = (r.key.toList, r.state) := by
  obtain ⟨key, state⟩ := r
  by_cases hname : isName (trim s) = true
  · simp [read?, hname, Prod.ext_iff, String.ext_iff]
  · simp [read?, hname]

theorem text_of_read? {s : List Char} {r : Reference} (h : read? s = some r) :
    r.text.toList = trim s := text_of_splitState (read?_eq_some_iff.1 h).2

theorem read?_text_of_read? {s : List Char} {r : Reference} (h : read? s = some r) :
    read? r.text.toList = some r := by
  rw [read?_eq_some_iff] at h ⊢
  rwa [text_of_splitState h.2, trim_trim]

/-- The key is a name, and no state is written behind it if the reference itself is for any. -/
structure Legal (r : Reference) : Prop where
  isName : isName r.key.toList = true
  stateless : r.state = .any → Stateless r.key.toList

theorem Legal.read?_text {r : Reference} (h : r.Legal) : read? r.text.toList = some r := by
  have hname : Text.isName r.text.toList = true := by
    rw [text_toList]
    split
    · exact h.isName
    · refine isName_append h.isName fun c hc => ?_
      rcases List.mem_cons.1 hc with rfl | hc
      · decide
      · exact r.state.continuesName_of_mem_name c hc
  have htrim : trim r.text.toList = r.text.toList :=
    trim_of_not_blank fun c hc => (of_mem_of_isName hname hc).1
  rw [read?_eq_some_iff, htrim]
  refine ⟨hname, ?_⟩
  rw [text_toList]
  split
  · rename_i hany
    rw [splitState_eq_self_iff.2 (h.stateless hany), hany]
  · rename_i hany
    refine splitState_append (fun hkey => ?_) hany
    have hempty := h.isName
    rw [hkey] at hempty
    cases hempty

theorem legal_of_read?_text {r : Reference} (h : read? r.text.toList = some r) : r.Legal := by
  have htext := text_of_read? h
  rw [read?_eq_some_iff, ← htext] at h
  obtain ⟨hname, hsplit⟩ := h
  by_cases hany : r.state = .any
  · rw [text_toList, if_pos hany] at hname hsplit
    exact ⟨hname, fun _ => splitState_eq_self_iff.1 (hsplit.trans (by rw [hany]))⟩
  · refine ⟨?_, fun h => absurd h hany⟩
    rw [text_toList, if_neg hany] at hname hsplit
    -- an empty key would leave the state to the name
    refine isName_of_append hname fun hkey => hany ?_
    have hnone : suffix? ([] ++ '_' :: r.state.name.toList) = none := by
      cases r.state <;> decide
    rw [hkey, splitState, hnone] at hsplit
    exact (congrArg Prod.snd hsplit).symm

theorem read?_text_iff {r : Reference} : read? r.text.toList = some r ↔ r.Legal :=
  ⟨legal_of_read?_text, Legal.read?_text⟩

/-- A key that is a name stands for legal references, one for each of its states. -/
theorem Expansion.legal {key base : List Char} {states : List State}
    (h : Expansion key base states) (hkey : isName key = true) {state : State}
    (hstate : state ∈ states) : Legal ⟨String.ofList base, state⟩ := by
  cases h with
  | plain stateless => exact ⟨by simpa using hkey, fun _ => by simpa using stateless⟩
  | stated written filled some few own maximal =>
    refine ⟨?_, ?_⟩
    · simpa using isName_of_append (written ▸ hkey) filled
    · rintro rfl
      exact absurd hstate own

end Reference

namespace Definition

theorem legal_of_mem_written {text : String} {w : Written} (h : w ∈ written text) :
    w.entry.reference.Legal := by
  obtain ⟨_, key, _, hline, -, hkey, hstate⟩ := exists_assignment h
  obtain ⟨-, -, -, -, -, hname, -⟩ := Line.of_read_eq_assignment hline
  rw [Entry.reference, hkey]
  exact (Reference.expansion_expandKey key).legal hname hstate

theorem legal_of_parse {text : String} {d : Definition} {outcome : Outcome}
    (h : parse text = .ok (d, outcome)) : ∀ e ∈ d.entries, e.reference.Legal := by
  intro e he
  obtain ⟨w, hw, rfl⟩ := exists_written_of_parse h he
  exact legal_of_mem_written hw

/-- Entries of one mode are told apart by the names that messages give them. -/
theorem nodup_qualifiedKey {text : String} {d : Definition} {outcome : Outcome}
    (h : parse text = .ok (d, outcome)) :
    (d.entries.toList.map fun e => (e.mode, e.qualifiedKey)).Nodup := by
  have hdistinct : d.triples.Nodup := by
    have hread := nodup_triples_editAll [.read text]
    rwa [editAll, List.foldl_cons, List.foldl_nil, edit, readInto_of_parse h] at hread
  refine List.Nodup.map_on ?_ hdistinct.of_map
  intro e he e' he' heq
  obtain ⟨hmode, hname⟩ := Prod.mk.inj heq
  have hlegal := legal_of_parse h
  have href : e.reference = e'.reference := by
    have hread := (hlegal e (by simpa using he)).read?_text
    have hread' := (hlegal e' (by simpa using he')).read?_text
    rw [← Entry.qualifiedKey] at hread hread'
    rw [hname, hread'] at hread
    exact (Option.some.inj hread).symm
  have htriple : e.triple = e'.triple := by
    obtain ⟨hkey, hstate⟩ := Reference.mk.inj href
    exact Prod.ext hmode (Prod.ext hstate hkey)
  exact List.inj_on_of_nodup_map hdistinct he he' htriple

end Definition

namespace Reference

/-- A reference that was read is shown as the text that it was read from, without white space, and
is read from that again. Of all references just those whose key is a name, with no state behind it
unless they have one themselves, are read back from what they are shown as. The entries of a text
are among them, and those of one mode are shown differently. -/
theorem text_readBack :
    (∀ s r, read? s = some r → r.text.toList = trim s ∧ read? r.text.toList = some r) ∧
    (∀ r : Reference, read? r.text.toList = some r ↔
      isName r.key.toList = true ∧ (r.state = .any → Stateless r.key.toList)) ∧
    ∀ text d outcome, Definition.parse text = .ok (d, outcome) →
      (∀ e ∈ d.entries, isName e.key.toList = true ∧
        read? e.qualifiedKey.toList = some ⟨e.key, e.state⟩) ∧
      (d.entries.toList.map fun e => (e.mode, e.qualifiedKey)).Nodup := by
  refine ⟨fun s r h => ⟨text_of_read? h, read?_text_of_read? h⟩, fun r => ?_,
    fun text d outcome h => ⟨fun e he => ?_, Definition.nodup_qualifiedKey h⟩⟩
  · rw [read?_text_iff]
    exact ⟨fun h => ⟨h.isName, h.stateless⟩, fun h => ⟨h.1, h.2⟩⟩
  · have hlegal := Definition.legal_of_parse h e he
    exact ⟨hlegal.isName, hlegal.read?_text⟩

/-- A key with more states than are taken off, one with a state in the middle and one that is only
a state. -/
def nested : String := "\n".intercalate
  ["Btn_Open_Default_Hovered_Pressed: white", "[Dark]", "Btn_Any_Open: #000", "_Open: Btn_Open"]

theorem text_readBack_nested :
    read? "\u3000Btn_Any_Open\t".toList = some ⟨"Btn_Any", .opened⟩ ∧
    read? "Btn_Any_Open".toList = some ⟨"Btn_Any", .opened⟩ ∧
    ∃ d outcome, Definition.parse nested = .ok (d, outcome) ∧
      (⟨"_Open", .dark, .any, .reference ⟨"Btn", .opened⟩⟩ : Entry) ∈ d.entries ∧
      read? "_Open".toList = some ⟨"_Open", .any⟩ ∧
      (d.entries.toList.map fun e => (e.mode, e.qualifiedKey)).Nodup := by
  obtain ⟨hread, -, hparse⟩ := text_readBack
  have hbtn : read? "\u3000Btn_Any_Open\t".toList = some ⟨"Btn_Any", .opened⟩ := by decide +kernel
  have accepted : ∀ line ∈ lines nested.toList, Line.fault? line = none := by decide +kernel
  have distinct : ((Definition.written nested).map fun w => w.entry.triple).Nodup := by
    decide +kernel
  obtain ⟨d, hd, hentries⟩ := Definition.parse_of_distinct accepted distinct
  obtain ⟨hback, hnodup⟩ := hparse _ _ _ hd
  have hopen : (⟨"_Open", .dark, .any, .reference ⟨"Btn", .opened⟩⟩ : Entry) ∈ d.entries := by
    rw [← Array.mem_toList_iff, hentries]
    decide +kernel
  exact ⟨hbtn, (hread _ _ hbtn).2, d, _, hd, hopen, (hback _ hopen).2, hnodup⟩

end Reference

end ColorTheme

import Mathlib
import ColorTheme.Proofs.Calling
/-! # The classes of values

A text is a color, a call, the name of an entry, a call of no known function, or nothing at all. The
reader tries them in turn; each class is described here by the text alone, and exactly one of them
fits. -/
namespace ColorTheme

open Text

namespace Color

theorem read?_trim (s : List Char) : read? (trim s) = read? s := by rw [read?, trim_trim, read?]

theorem lower_of_continuesName {c : Char} (h : continuesName c = true) : lower c = c.toLower := by
  rw [lower, if_neg]
  rintro rfl
  revert h
  decide

/-- Among names only the color names are literals, in any case of their letters. -/
theorem read?_eq_none_iff_of_isName {s : List Char} (h : isName s = true) :
    read? s = none ↔ ∀ name ∈ named.map Prod.fst, sameLetters s name.toList = false := by
  have ht : trim s = s := trim_of_not_blank fun c hc => (of_mem_of_isName h hc).1
  have hhex : (trim s).head? ≠ some '#' := fun hhead =>
    (of_mem_of_isName h (ht ▸ List.mem_of_mem_head? hhead)).2 (by simp)
  have hopen : '(' ∉ trim s := fun hc => (of_mem_of_isName h (ht ▸ hc)).2 (by simp)
  have hlower : s.map lower = s.map Char.toLower :=
    List.map_congr_left fun c hc => lower_of_continuesName (continuesName_of_isName h c hc)
  have hnames : ∀ name ∈ named.map Prod.fst, name.toList.map Char.toLower = name.toList := by decide
  rw [read?_eq_readName? hhex (absurd · hopen), ht, readName?, List.lookup_eq_none_iff, hlower,
    List.forall_mem_map]
  refine forall₂_congr fun entry hentry => ?_
  simp [sameLetters, hnames entry.1 (List.mem_map_of_mem hentry), String.ext_iff]

end Color

namespace Builtin

theorem splitCall?_eq_none_iff {s : List Char} :
    splitCall? s = none ↔ ∀ f inner, ¬ Calls f inner s := by
  simp only [← splitCall?_eq_some_iff]
  cases h : splitCall? s with
  | none => simp
  | some call => simpa using ⟨call.1, call.2, rfl⟩

/-- A name calls a function only by being its name. -/
theorem Calls.eq_name {f : Builtin} {inner s : List Char} (h : f.Calls inner s)
    (hs : isName s = true) : s = f.name.toList := by
  rcases h with ⟨-, blank, hb, rfl⟩ | ⟨blank, -, rfl⟩
  · cases blank with
    | nil => exact List.append_nil _
    | cons c blank =>
      have hc : isBlank c = false := (of_mem_of_isName hs (by simp)).1
      rw [hb c (by simp)] at hc
      cases hc
  · exact absurd (by simp) (of_mem_of_isName hs (c := '(') (by simp)).2

/-- The arguments of a call are read, or it is the call that is at fault. -/
theorem readArguments_cases (f : Builtin) (inner : List Char) :
    (∃ args, f.readArguments inner = .ok args) ∨
    (∃ n, f.readArguments inner = .error (.argumentCount f n)) ∨
      ∃ i p text, f.readArguments inner = .error (.argumentType f i p text) := by
  rw [readArguments]
  split
  · rcases f.readEach_cases 1 f.parameters (argumentTexts inner) with
      ⟨args, -, hread⟩ | ⟨i, p, text, -, -, -, hread⟩
    · exact Or.inl ⟨args, hread⟩
    · exact Or.inr (Or.inr ⟨_, p, _, hread⟩)
  · exact Or.inr (Or.inl ⟨_, rfl⟩)

end Builtin

/-- The reference that a name makes: its last state is split off. -/
def Reference.ofName (name : List Char) : Reference :=
  ⟨String.ofList (splitState name).1, (splitState name).2⟩

theorem Reference.read?_eq {s : List Char} (h : trim s = s) :
    read? s = if isName s then some (ofName s) else none := by
  rw [read?, h]
  rfl

namespace Value

/-- The name of an entry: one that neither a color nor a function has. -/
structure IsEntryName (s : List Char) : Prop where
  isName : isName s = true
  uncolored : ∀ name ∈ Color.named.map Prod.fst, sameLetters s name.toList = false
  uncalled : ∀ f : Builtin, s ≠ f.name.toList

/-- A call by a name that could be that of a function. -/
structure CallsName (name s : List Char) : Prop where
  isName : isName name = true
  isCall : ∃ inner, IsCall name inner s
  not_rgb : sameLetters name ['r', 'g', 'b'] = false
  not_rgba : sameLetters name ['r', 'g', 'b', 'a'] = false

/-- A text that is not a value. -/
structure Unread (v : List Char) : Prop where
  uncolored : Color.read? v = none
  uncalled : ∀ f inner, ¬ Builtin.Calls f inner (trim v)
  unnamed : ¬ IsEntryName (trim v)

/-- The function whose call a result is about. -/
def function? : Except Fault Value → Option Builtin
  | .ok (.call f _) => some f
  | .error (.argumentCount f _) => some f
  | .error (.argumentType f _ _ _) => some f
  | _ => none

theorem functionName?_eq_some_iff {name s : List Char} :
    functionName? s = some name ↔ CallsName name s := by
  constructor
  · intro h
    obtain ⟨⟨before, after⟩, hcut, h⟩ := Option.bind_eq_some_iff.1 h
    have hs := eq_of_cutFirst? hcut
    dsimp only at h
    split at h
    · rename_i hcalls
      cases h
      obtain ⟨hlast, hname, hliteral⟩ := hcalls
      have hafter : after.getLast? = some ')' := by
        cases hl : after.getLast? with
        | none => simp [hs, List.getLast?_cons, hl] at hlast
        | some c => simpa [hs, List.getLast?_cons, hl] using hlast
      obtain ⟨blank, hbefore, hb⟩ := exists_trimEnd_append before
      have hcall : IsCall (trimEnd before) after.dropLast s := by
        refine ⟨blank, hb, ?_⟩
        rw [List.dropLast_append_getLast? _ hafter, ← hbefore, hs]
      simp only [Bool.not_eq_true', Bool.or_eq_false_iff] at hliteral
      exact ⟨hname, ⟨_, hcall⟩, hliteral.1, hliteral.2⟩
    · cases h
  · rintro ⟨hname, ⟨inner, blank, hb, rfl⟩, hrgb, hrgba⟩
    have hopen : '(' ∉ name ++ blank := by
      have hblank : isBlank '(' = false := by decide
      rw [List.mem_append, not_or]
      exact ⟨fun hc => (of_mem_of_isName hname hc).2 (by simp), fun hc => by
        simp [hb _ hc] at hblank⟩
    have htrim : trimEnd (name ++ blank) = name := by
      rw [trimEnd_append_of_blank hb, trimEnd_eq_self]
      exact fun c hc => (of_mem_of_isName hname (List.mem_of_mem_getLast? hc)).1
    rw [functionName?, cutFirst?_append hopen]
    simp [htrim, hname, hrgb, hrgba, List.getLast?_cons]

/-- What a text is read as, by its class. -/
inductive Reading (key v : List Char) : Except Fault Value → Prop
  | color {c : Color} (colored : Color.read? v = some c) : Reading key v (.ok (.color c))
  | call {f : Builtin} {inner : List Char} (uncolored : Color.read? v = none)
      (calls : f.Calls inner (trim v)) : Reading key v ((f.readArguments inner).map (call f))
  | reference (named : IsEntryName (trim v)) :
      Reading key v (.ok (.reference (.ofName (trim v))))
  | unknown {name : List Char} (unread : Unread v) (calls : CallsName name (trim v)) :
      Reading key v (.error (.unknownFunction (String.ofList name)))
  | invalid (unread : Unread v) (uncalled : ∀ name, ¬ CallsName name (trim v)) :
      Reading key v (.error (.invalidValue (String.ofList key) (String.ofList (trim v))))

theorem reading_read (key v : List Char) : Reading key v (read key v) := by
  rw [read, Color.read?_trim]
  cases hc : Color.read? v with
  | some c => exact .color hc
  | none =>
    cases hs : Builtin.splitCall? (trim v) with
    | some call => exact .call hc (Builtin.splitCall?_eq_some_iff.1 hs)
    | none =>
      have huncalled := Builtin.splitCall?_eq_none_iff.1 hs
      rw [Reference.read?_eq (trim_trim v)]
      by_cases hname : isName (trim v) = true
      · have hentry : IsEntryName (trim v) := ⟨hname,
          (Color.read?_eq_none_iff_of_isName hname).1 (by rwa [Color.read?_trim]),
          fun f hf => huncalled f [] (Or.inl ⟨rfl, [], by simp, by simpa using hf⟩)⟩
        simpa [hname] using .reference hentry
      · have hunread : Unread v := ⟨hc, huncalled, fun h => hname h.isName⟩
        rw [if_neg hname, fault]
        cases hf : functionName? (trim v) with
        | some name => exact .unknown hunread (functionName?_eq_some_iff.1 hf)
        | none =>
          refine .invalid hunread fun name hcalls => ?_
          rw [functionName?_eq_some_iff.2 hcalls] at hf
          cases hf

theorem IsEntryName.not_calls {f : Builtin} {inner s : List Char} (h : IsEntryName s) :
    ¬ f.Calls inner s := fun hcalls => h.uncalled f (hcalls.eq_name h.isName)

theorem IsEntryName.read?_eq_none {v : List Char} (h : IsEntryName (trim v)) :
    Color.read? v = none := by
  rw [← Color.read?_trim, Color.read?_eq_none_iff_of_isName h.isName]
  exact h.uncolored

theorem CallsName.eq {name name' s : List Char} (h : CallsName name s) (h' : CallsName name' s) :
    name = name' :=
  Option.some.inj ((functionName?_eq_some_iff.2 h).symm.trans (functionName?_eq_some_iff.2 h'))

/-- Each class of results is that of exactly the texts that its description fits, and they are read
as the description says. -/
theorem read_partition (key v : List Char) :
    (∀ r, read key v = .ok (.reference r) ↔ IsEntryName (trim v) ∧ r = .ofName (trim v)) ∧
    (∀ c, read key v = .ok (.color c) ↔ Color.read? v = some c) ∧
    (∀ f, function? (read key v) = some f ↔
      Color.read? v = none ∧ ∃ inner, f.Calls inner (trim v)) ∧
    (∀ name, read key v = .error (.unknownFunction name) ↔
      Unread v ∧ CallsName name.toList (trim v)) ∧
    ∀ k t, read key v = .error (.invalidValue k t) ↔
      k = String.ofList key ∧ t = String.ofList (trim v) ∧ Unread v ∧
        ∀ name, ¬ CallsName name (trim v) := by
  have h := reading_read key v
  generalize read key v = result at h
  cases h with
  | @color c hc =>
    have hentry : ¬ IsEntryName (trim v) := fun h => by simp [h.read?_eq_none] at hc
    have hunread : ¬ Unread v := fun h => by simp [h.uncolored] at hc
    simp [hc, hentry, hunread, function?]
  | @call f inner hc hcalls =>
    have hentry : ¬ IsEntryName (trim v) := fun h => h.not_calls hcalls
    have hunread : ¬ Unread v := fun h => h.uncalled f inner hcalls
    have hcallee (g : Builtin) : (∃ inner, g.Calls inner (trim v)) ↔ f = g :=
      ⟨fun ⟨_, h⟩ => hcalls.eq h, fun h => h ▸ ⟨inner, hcalls⟩⟩
    rcases f.readArguments_cases inner with ⟨args, hr⟩ | ⟨n, hr⟩ | ⟨i, p, text, hr⟩ <;>
      simp [hr, Except.map, hc, hentry, hunread, hcallee, function?]
  | reference hentry =>
    have hunread : ¬ Unread v := fun h => h.unnamed hentry
    have huncalled (f : Builtin) (inner : List Char) : ¬ f.Calls inner (trim v) := hentry.not_calls
    simp [hentry, hentry.read?_eq_none, hunread, huncalled, function?, eq_comm]
  | @unknown name hunread hcalls =>
    have hname (name' : List Char) : CallsName name' (trim v) ↔ name = name' :=
      ⟨hcalls.eq, fun h => h ▸ hcalls⟩
    simp [hunread, hunread.unnamed, hunread.uncolored, hunread.uncalled, function?, hname,
      String.ext_iff]
  | invalid hunread huncalled =>
    simp [hunread, hunread.unnamed, hunread.uncolored, hunread.uncalled, function?, huncalled,
      eq_comm]

example : read [] "Mixed_Pressed".toList = .ok (.reference ⟨"Mixed", .pressed⟩) := by
  decide +kernel

end Value

end ColorTheme

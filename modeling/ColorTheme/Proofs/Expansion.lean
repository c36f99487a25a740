import Mathlib
import ColorTheme.Proofs.Layout
/-! # Keys and the states behind them

A key stands for its base in each of the states that are written behind it. Taking them off, last
one first, stops at three of them or where what is left ends in no state, and there is one way only
to read a key like that. -/
namespace ColorTheme

open Text

theorem State.underscore_notMem_name (state : State) : '_' ∉ state.name.toList := by
  cases state <;> decide

namespace Reference

theorem suffix?_eq_some_iff {name rest : List Char} {state : State} :
    suffix? name = some (rest, state) ↔
      name = rest ++ '_' :: state.name.toList ∧ rest ≠ [] ∧ state ≠ .any := by
  constructor
  · exact suffix?_eq_some
  · rintro ⟨rfl, hrest, hany⟩
    have hstate : State.ofSuffix? state.name.toList = some state :=
      State.ofSuffix?_eq_some_iff.2 ⟨hany, rfl⟩
    rw [suffix?, cutLast?_append state.underscore_notMem_name]
    simp [hrest, hstate]

/-- No state is written behind the name. -/
def Stateless (name : List Char) : Prop :=
  ∀ (rest : List Char) (state : State), rest ≠ [] → state ≠ .any →
    name ≠ rest ++ '_' :: state.name.toList

theorem suffix?_eq_none_iff {name : List Char} : suffix? name = none ↔ Stateless name := by
  constructor
  · intro h rest state hrest hany hname
    rw [suffix?_eq_some_iff.2 ⟨hname, hrest, hany⟩] at h
    cases h
  · intro h
    by_contra hsome
    obtain ⟨⟨rest, state⟩, hs⟩ := Option.ne_none_iff_exists'.1 hsome
    obtain ⟨hname, hrest, hany⟩ := suffix?_eq_some hs
    exact h rest state hrest hany hname

theorem splitState_eq_self_iff {name : List Char} :
    splitState name = (name, .any) ↔ Stateless name := by
  rw [← suffix?_eq_none_iff, splitState]
  cases hs : suffix? name with
  | none => simp
  | some cut =>
    obtain ⟨-, -, hany⟩ := suffix?_eq_some hs
    simpa using fun heq => absurd (congrArg Prod.snd heq) hany

/-- A state is split off a name that carries one. -/
theorem splitState_append {rest : List Char} (hrest : rest ≠ []) {state : State}
    (hany : state ≠ .any) : splitState (rest ++ '_' :: state.name.toList) = (rest, state) := by
  rw [splitState, suffix?_eq_some_iff.2 ⟨rfl, hrest, hany⟩]
  rfl

/-- Written states are taken off again if they are within the limit, and if nothing more could be
taken where they are fewer. -/
theorem stripStates_append {limit : ℕ} {base : List Char} {taken : List State}
    (few : taken.length ≤ limit) (own : .any ∉ taken) (filled : taken ≠ [] → base ≠ [])
    (maximal : taken.length < limit → Stateless base) (states : List State) :
    stripStates limit (base ++ taken.flatMap fun state => '_' :: state.name.toList) states =
      (base, taken ++ states) := by
  induction limit generalizing taken states with
  | zero =>
    obtain rfl : taken = [] := List.length_eq_zero_iff.1 (Nat.le_zero.1 few)
    simp [stripStates]
  | succ limit ih =>
    rcases List.eq_nil_or_concat taken with rfl | ⟨taken, state, rfl⟩
    · have hnone : suffix? base = none := suffix?_eq_none_iff.2 (maximal (by simp))
      simp [stripStates, hnone]
    · -- the last state comes off first; the others stand within one less
      simp only [List.concat_eq_append, List.length_append, List.length_singleton, List.mem_append,
        List.mem_singleton, not_or] at few own maximal filled ⊢
      have hbase : base ≠ [] := filled (by simp)
      have hrest := ih (by omega) own.1 (fun _ => hbase) (fun h => maximal (by omega))
        (state :: states)
      have hsuffix : suffix? (base ++ (taken ++ [state]).flatMap fun state =>
          '_' :: state.name.toList) =
            some (base ++ taken.flatMap fun state => '_' :: state.name.toList, state) :=
        suffix?_eq_some_iff.2 ⟨by simp, by simp [hbase], Ne.symm own.2⟩
      rw [stripStates, hsuffix]
      simp [hrest]

/-- What a key may stand for: for itself in any state, or for a base in the states that are written
behind it. -/
inductive Expansion (key : List Char) : List Char → List State → Prop
  | plain (stateless : Stateless key) : Expansion key key [.any]
  | stated {base : List Char} {states : List State}
      (written : key = base ++ states.flatMap fun state => '_' :: state.name.toList)
      (filled : base ≠ []) (some : states ≠ []) (few : states.length ≤ 3) (own : .any ∉ states)
      (maximal : states.length < 3 → Stateless base) : Expansion key base states

theorem expansion_expandKey (key : List Char) :
    Expansion key (expandKey key).1 (expandKey key).2 := by
  rw [expandKey]
  cases hs : stripStates maxStates key [] with
  | mk base states =>
    obtain ⟨taken, htaken, few, own, filled, maximal, written⟩ := eq_of_stripStates hs
    obtain rfl : states = taken := by simpa using htaken
    cases states with
    | nil =>
      obtain rfl : key = base := by simpa using written
      exact .plain (suffix?_eq_none_iff.1 (maximal (by decide)))
    | cons first states =>
      have hne : first :: states ≠ [] := List.cons_ne_nil _ _
      exact .stated written (filled hne) hne few own fun h => suffix?_eq_none_iff.1 (maximal h)

theorem Expansion.eq_expandKey {key base : List Char} {states : List State}
    (h : Expansion key base states) : expandKey key = (base, states) := by
  rw [expandKey]
  cases h with
  | plain stateless =>
    have hstrip : stripStates maxStates key [] = (key, []) := by
      simp [stripStates, maxStates, suffix?_eq_none_iff.2 stateless]
    rw [hstrip]
  | stated written filled some few own maximal =>
    have hstrip : stripStates maxStates key [] = (base, states ++ []) :=
      written ▸ stripStates_append few own (fun _ => filled) maximal []
    rw [hstrip, List.append_nil]
    cases states with
    | nil => exact absurd rfl some
    | cons first states => rfl

/-- A key is expanded to the one thing that it may stand for; and there is nothing to split off a
name just where no state is written behind it. -/
theorem expandKey_eq_iff (key : List Char) :
    (∀ base states, expandKey key = (base, states) ↔ Expansion key base states) ∧
      ∀ name, splitState name = (name, .any) ↔ Stateless name := by
  refine ⟨fun base states => ⟨fun h => ?_, Expansion.eq_expandKey⟩,
    fun _ => splitState_eq_self_iff⟩
  have hkey := expansion_expandKey key
  rwa [h] at hkey

example : expandKey "Btn_Open_Any_Default_Hovered".toList =
    ("Btn_Open_Any".toList, [.default, .hovered]) := by decide

end Reference

end ColorTheme

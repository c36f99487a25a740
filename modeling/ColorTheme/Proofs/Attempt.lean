import Mathlib
import ColorTheme.Bake.Graph
import ColorTheme.Proofs.Lookup
/-! # One attempt to color an entry

An attempt reads the references of an entry from left to right. It ends with a color when all of
them lead to colored entries, and otherwise at the first one that does not. -/
namespace ColorTheme.Definition

variable {d : Definition} {mode : Mode}

def seen? (d : Definition) (mode : Mode) (p : Progress) (r : Reference) : Option Color :=
  (d.find? mode r.state r.key).bind p.color?

def seen (d : Definition) (mode : Mode) (p : Progress) (r : Reference) : Color :=
  (d.seen? mode p r).getD .transparent

def hits (d : Definition) (mode : Mode) (references : List Reference) : List Nat :=
  references.filterMap fun r => d.find? mode r.state r.key

/-- What can come of reading the references of the entry that `key` names, where `finish` makes the
result from their colors. -/
inductive Scanned (d : Definition) (mode : Mode) (p : Progress) (key : String)
    (references : List Reference) {α : Type} (finish : (Reference → Color) → α) :
    Except BakeError (Attempt α) → Prop
  | colored (known : ∀ r ∈ references, (d.seen? mode p r).isSome) :
      Scanned d mode p key references finish
        (.ok ⟨some (finish (d.seen mode p)), d.hits mode references⟩)
  | waiting {before after : List Reference} {r : Reference} {i : Nat}
      (split : references = before ++ r :: after)
      (known : ∀ b ∈ before, (d.seen? mode p b).isSome)
      (found : d.find? mode r.state r.key = some i) (pending : p.color? i = none) :
      Scanned d mode p key references finish (.ok ⟨none, d.hits mode (before ++ [r])⟩)
  | unknown {before after : List Reference} {r : Reference}
      (split : references = before ++ r :: after)
      (known : ∀ b ∈ before, (d.seen? mode p b).isSome)
      (missing : d.find? mode r.state r.key = none) :
      Scanned d mode p key references finish (.error (.unknownReference key r.text))

theorem Scanned.unknown_head {p : Progress} {key : String} {r : Reference}
    {references : List Reference} {α : Type} {finish : (Reference → Color) → α}
    (missing : d.find? mode r.state r.key = none) :
    d.Scanned mode p key (r :: references) finish (.error (.unknownReference key r.text)) :=
  .unknown (List.nil_append _).symm (by simp) missing

theorem Scanned.waiting_head {p : Progress} {key : String} {r : Reference}
    {references : List Reference} {i : Nat} {α : Type} {finish : (Reference → Color) → α}
    (found : d.find? mode r.state r.key = some i) (pending : p.color? i = none) :
    d.Scanned mode p key (r :: references) finish (.ok ⟨none, [i]⟩) := by
  have hh : [i] = d.hits mode ([] ++ [r]) := by simp [hits, found]
  rw [hh]
  exact .waiting (List.nil_append _).symm (by simp) found pending

theorem Scanned.map {p : Progress} {key : String} {references : List Reference} {α β : Type}
    {finish : (Reference → Color) → α} {result : Except BakeError (Attempt α)} (f : α → β)
    (h : d.Scanned mode p key references finish result) :
    d.Scanned mode p key references (fun colors => f (finish colors))
      (result.map fun a => ⟨a.result.map f, a.found⟩) := by
  cases h with
  | colored known => exact .colored known
  | waiting split known found pending => exact .waiting split known found pending
  | unknown split known missing => exact .unknown split known missing

theorem Scanned.cons {p : Progress} {key : String} {r : Reference} {references : List Reference}
    {i : Nat} {c : Color} {α β : Type} {finish : (Reference → Color) → α} (f : Color → α → β)
    {result : Except BakeError (Attempt α)} (hf : d.find? mode r.state r.key = some i)
    (hc : p.color? i = some c) (h : d.Scanned mode p key references finish result) :
    d.Scanned mode p key (r :: references) (fun colors => f (colors r) (finish colors))
      (result.map fun a => ⟨a.result.map (f c), i :: a.found⟩) := by
  have hs : d.seen? mode p r = some c := by simp [seen?, hf, hc]
  have hk {rs : List Reference} (known : ∀ b ∈ rs, (d.seen? mode p b).isSome) :
      ∀ b ∈ r :: rs, (d.seen? mode p b).isSome := by
    intro b hb
    rcases List.mem_cons.1 hb with rfl | hb
    · simp [hs]
    · exact known b hb
  have hh (rs : List Reference) : d.hits mode (r :: rs) = i :: d.hits mode rs := by
    simp [hits, hf]
  cases h with
  | colored known =>
    have hr : f (d.seen mode p r) (finish (d.seen mode p)) = f c (finish (d.seen mode p)) := by
      simp [seen, hs]
    change d.Scanned mode p key _ _
      (.ok ⟨some (f c (finish (d.seen mode p))), i :: d.hits mode references⟩)
    rw [← hh, ← hr]
    exact .colored (hk known)
  | @waiting before after r' j split known found pending =>
    change d.Scanned mode p key _ _ (.ok ⟨none, i :: d.hits mode (before ++ [r'])⟩)
    rw [← hh]
    exact .waiting (congrArg (r :: ·) split) (hk known) found pending
  | unknown split known missing =>
    exact .unknown (congrArg (r :: ·) split) (hk known) missing

theorem concrete_scanned (d : Definition) (mode : Mode) (p : Progress) (e : Entry)
    (arguments : List Argument) :
    d.Scanned mode p e.qualifiedKey (arguments.filterMap Argument.target?)
      (fun colors => arguments.map (Argument.substitute colors))
      (d.concrete mode p e arguments) := by
  induction arguments with
  | nil => exact .colored (by simp)
  | cons argument rest ih =>
    rw [concrete]
    cases ht : argument.target? with
    | none =>
      have hs (colors : Reference → Color) : argument.substitute colors = argument := by
        simp [Argument.substitute, ht]
      simpa only [List.filterMap_cons, ht, List.map_cons, hs] using ih.map (argument :: ·)
    | some target =>
      have hs (colors : Reference → Color) :
          argument.substitute colors = .color (colors target) := by
        simp [Argument.substitute, ht]
      simp only [List.filterMap_cons, ht, List.map_cons, hs, follow]
      cases hf : d.find? mode target.state target.key with
      | none => exact .unknown_head hf
      | some i =>
        cases hc : p.color? i with
        | none =>
          simp only [hc]
          exact .waiting_head hf hc
        | some c =>
          simp only [hc]
          exact ih.cons (fun c arguments => Argument.color c :: arguments) hf hc

/-- Every attempt is a reading of the entry's references, and a color that it gives is the value of
the entry under the colors they lead to. -/
theorem attempt_scanned (d : Definition) (mode : Mode) (p : Progress) (e : Entry) :
    d.Scanned mode p e.qualifiedKey e.value.references (fun colors => e.value.evaluate colors)
      (d.attempt mode p e) := by
  rw [attempt]
  cases hv : e.value with
  | color c => exact .colored (by simp [Value.references])
  | reference target =>
    simp only [Value.references, Value.evaluate, follow]
    cases hf : d.find? mode target.state target.key with
    | none => exact .unknown_head hf
    | some i =>
      have hh : [i] = d.hits mode [target] := by simp [hits, hf]
      have hs : d.seen? mode p target = p.color? i := by simp [seen?, hf]
      simp only [Except.map]
      cases hc : p.color? i with
      | none => exact .waiting_head hf hc
      | some c =>
        have hr : d.seen mode p target = c := by simp [seen, hs, hc]
        rw [← hr, hh]
        exact .colored (by simp [hs, hc])
  | call f arguments => exact (concrete_scanned d mode p e arguments).map f.evaluate

end ColorTheme.Definition

import Mathlib
/-! # Parsers of the front of a text

A parser takes something off the front of a text, refuses or fails. After a refusal another parser
may be tried at the same place; a failure ends the whole attempt. A choice keeps to the first parser
that takes anything, whatever comes behind it. -/
namespace ColorTheme

inductive Reply (α : Type) where
  | taken (value : α) (text rest : List Char)
  | refused
  | failed

namespace Reply

variable {α β : Type} {text rest : List Char}

/-- Goes on with what has been taken. -/
def andThen (reply : Reply α) (next : α → List Char → List Char → Reply β) : Reply β :=
  match reply with
  | taken a text rest => next a text rest
  | refused => refused
  | failed => failed

theorem andThen_eq_taken_iff {reply : Reply α} {next : α → List Char → List Char → Reply β}
    {b : β} : reply.andThen next = taken b text rest ↔
      ∃ a front back, reply = taken a front back ∧ next a front back = taken b text rest := by
  cases reply <;> simp [andThen]

/-- Another reply in place of a refusal. -/
def orElse (reply other : Reply α) : Reply α :=
  match reply with
  | taken a text rest => taken a text rest
  | refused => other
  | failed => failed

theorem orElse_eq_taken_iff {reply other : Reply α} {a : α} :
    reply.orElse other = taken a text rest ↔
      reply = taken a text rest ∨ reply = refused ∧ other = taken a text rest := by
  cases reply <;> simp [orElse]

end Reply

structure Parser (α : Type) where
  run : List Char → Reply α
  splits : ∀ {s value text rest}, run s = .taken value text rest → s = text ++ rest

namespace Parser

variable {α β : Type} {p : Parser α} {q : Parser β} {a : α} {b : β} {s text rest : List Char}

/-- In front of the rest the parser takes a text and makes a value of it. -/
def Takes (p : Parser α) (a : α) (text rest : List Char) : Prop :=
  p.run (text ++ rest) = .taken a text rest

theorem run_eq_taken_iff :
    p.run s = .taken a text rest ↔ s = text ++ rest ∧ p.Takes a text rest := by
  constructor
  · intro h
    obtain rfl := p.splits h
    exact ⟨rfl, h⟩
  · rintro ⟨rfl, h⟩
    exact h

/-- The value, if the parser takes all of the text. -/
def all (p : Parser α) (s : List Char) : Option α :=
  match p.run s with
  | .taken a _ [] => some a
  | _ => none

theorem all_eq_some_iff : p.all s = some a ↔ p.Takes a s [] := by
  rw [Takes, List.append_nil, all]
  split
  · rename_i text hp
    obtain rfl : s = text := by simpa using p.splits hp
    simp [hp]
  · rename_i hp
    simpa using hp a s

theorem all_of_refused (h : p.run s = .refused) : p.all s = none := by
  rw [all, h]

def nothing (a : α) : Parser α where
  run s := .taken a [] s
  splits h := by
    cases h
    rfl

def char (c : Char) : Parser Char where
  run
    | d :: s => if d = c then .taken c [c] s else .refused
    | [] => .refused
  splits {s value text rest} h := by
    cases s with
    | nil => cases h
    | cons d s =>
      simp only at h
      split at h
      · rename_i hd
        cases h
        rw [hd, List.singleton_append]
      · cases h

theorem char_run_of_ne {c : Char} (h : s.head? ≠ some c) : (char c).run s = .refused := by
  cases s with
  | nil => rfl
  | cons d s => exact if_neg fun hd => h (congrArg some hd)

theorem char_takes (c : Char) (rest : List Char) : (char c).Takes c [c] rest := if_pos rfl

theorem char_takes_iff {c d : Char} : (char c).Takes d text rest ↔ d = c ∧ text = [c] := by
  constructor
  · intro h
    by_cases hhead : (text ++ rest).head? = some c
    · obtain ⟨s, hs⟩ := List.head?_eq_some_iff.1 hhead
      rw [Takes, hs] at h
      cases (char_takes c s).symm.trans h
      exact ⟨rfl, rfl⟩
    · cases (char_run_of_ne hhead).symm.trans h
  · rintro ⟨rfl, rfl⟩
    exact char_takes d rest

/-- The longest run of certain characters, even an empty one. -/
def span (p : Char → Bool) : Parser (List Char) where
  run s := .taken (s.takeWhile p) (s.takeWhile p) (s.dropWhile p)
  splits h := by
    cases h
    exact List.takeWhile_append_dropWhile.symm

theorem span_takes_iff {p : Char → Bool} {a : List Char} : (span p).Takes a text rest ↔
    a = text ∧ (∀ c ∈ text, p c = true) ∧ ∀ c ∈ rest.head?, p c = false := by
  constructor
  · intro h
    injection h with ha htext hrest
    refine ⟨ha.symm.trans htext, fun c hc => ?_, fun c hc => ?_⟩
    · rw [← htext] at hc
      exact List.mem_takeWhile_imp hc
    · have hstop := List.head?_dropWhile_not p (text ++ rest)
      rw [hrest, Option.mem_def.1 hc] at hstop
      exact hstop
  · rintro ⟨rfl, htext, hrest⟩
    have hstop : rest.takeWhile p = [] ∧ rest.dropWhile p = rest := by
      cases rest with
      | nil => simp
      | cons c rest => simp [hrest c rfl]
    simp [Takes, span, List.takeWhile_append_of_pos htext, List.dropWhile_append_of_pos htext,
      hstop]

/-- A name of small letters, in letters of any case. -/
def word (name : List Char) : Parser (List Char) where
  run s :=
    if (s.take name.length).map Char.toLower = name then
      .taken (s.take name.length) (s.take name.length) (s.drop name.length)
    else .refused
  splits h := by
    split at h
    · cases h
      exact (List.take_append_drop _ _).symm
    · cases h

theorem word_run_of_ne {name : List Char} (h : (s.take name.length).map Char.toLower ≠ name) :
    (word name).run s = .refused := if_neg h

theorem word_takes_iff {name a : List Char} :
    (word name).Takes a text rest ↔ a = text ∧ text.map Char.toLower = name := by
  constructor
  · intro h
    simp only [Takes, word] at h
    split at h
    · rename_i hname
      injection h with ha htext
      rw [htext] at ha hname
      exact ⟨ha.symm, hname⟩
    · cases h
  · rintro ⟨rfl, h⟩
    have hlength : a.length = name.length := by simpa using congrArg List.length h
    simp [Takes, word, ← hlength, h]

/-- Makes something of the value, or refuses. -/
def keep (p : Parser α) (f : α → Option β) : Parser β where
  run s := (p.run s).andThen fun a text rest =>
    match f a with
    | some b => .taken b text rest
    | none => .refused
  splits h := by
    obtain ⟨a, text, rest, hp, h⟩ := Reply.andThen_eq_taken_iff.1 h
    split at h
    · cases h
      exact p.splits hp
    · cases h

theorem keep_run_of_refused {f : α → Option β} (h : p.run s = .refused) :
    (p.keep f).run s = .refused := by
  simp [keep, Reply.andThen, h]

theorem keep_takes_iff {f : α → Option β} :
    (p.keep f).Takes b text rest ↔ ∃ a, p.Takes a text rest ∧ f a = some b := by
  rw [Takes, keep, Reply.andThen_eq_taken_iff]
  constructor
  · rintro ⟨a, front, back, hp, h⟩
    split at h
    · rename_i hf
      cases h
      exact ⟨a, hp, hf⟩
    · cases h
  · rintro ⟨a, hp, hf⟩
    exact ⟨a, text, rest, hp, by rw [hf]⟩

def verify (p : Parser α) (f : α → Bool) : Parser α := p.keep fun a => if f a then some a else none

theorem verify_takes_iff {f : α → Bool} :
    (p.verify f).Takes a text rest ↔ p.Takes a text rest ∧ f a = true := by
  simp only [verify, keep_takes_iff, Option.ite_none_right_eq_some, Option.some.injEq]
  constructor
  · rintro ⟨a, hp, hf, rfl⟩
    exact ⟨hp, hf⟩
  · rintro ⟨hp, hf⟩
    exact ⟨a, hp, hf, rfl⟩

/-- A run of certain characters that is not empty. -/
def span1 (p : Char → Bool) : Parser (List Char) := (span p).verify (· ≠ [])

theorem span1_takes_iff {p : Char → Bool} {a : List Char} : (span1 p).Takes a text rest ↔
    a = text ∧ text ≠ [] ∧ (∀ c ∈ text, p c = true) ∧ ∀ c ∈ rest.head?, p c = false := by
  rw [span1, verify_takes_iff, span_takes_iff, decide_eq_true_eq]
  constructor
  · rintro ⟨⟨rfl, htext, hrest⟩, hne⟩
    exact ⟨rfl, hne, htext, hrest⟩
  · rintro ⟨rfl, hne, htext, hrest⟩
    exact ⟨⟨rfl, htext, hrest⟩, hne⟩

theorem span1_run_of_head {p : Char → Bool} (h : ∀ c ∈ s.head?, p c = false) :
    (span1 p).run s = .refused := by
  cases s with
  | nil => rfl
  | cons c s => simp [span1, verify, keep, span, Reply.andThen, h c rfl]

def map (p : Parser α) (f : α → β) : Parser β := p.keep fun a => some (f a)

theorem map_run_of_refused {f : α → β} (h : p.run s = .refused) :
    (p.map f).run s = .refused := keep_run_of_refused h

theorem map_takes_iff {f : α → β} :
    (p.map f).Takes b text rest ↔ ∃ a, p.Takes a text rest ∧ f a = b := by
  simp [map, keep_takes_iff]

/-- The text that a parser takes. -/
def recognized (p : Parser α) : Parser (List Char) where
  run s := (p.run s).andThen fun _ text rest => .taken text text rest
  splits h := by
    obtain ⟨a, text, rest, hp, h⟩ := Reply.andThen_eq_taken_iff.1 h
    cases h
    exact p.splits hp

theorem recognized_takes_iff {s : List Char} :
    p.recognized.Takes s text rest ↔ s = text ∧ ∃ a, p.Takes a text rest := by
  rw [Takes, recognized, Reply.andThen_eq_taken_iff]
  constructor
  · rintro ⟨a, front, back, hp, h⟩
    cases h
    exact ⟨rfl, a, hp⟩
  · rintro ⟨rfl, a, hp⟩
    exact ⟨a, s, rest, hp, rfl⟩

theorem recognized_run_of_refused (h : p.run s = .refused) : p.recognized.run s = .refused := by
  simp [recognized, Reply.andThen, h]

def seq (p : Parser α) (q : Parser β) : Parser (α × β) where
  run s := (p.run s).andThen fun a text rest =>
    (q.run rest).andThen fun b text' rest' => .taken (a, b) (text ++ text') rest'
  splits h := by
    obtain ⟨a, text, rest, hp, h⟩ := Reply.andThen_eq_taken_iff.1 h
    obtain ⟨b, text', rest', hq, h⟩ := Reply.andThen_eq_taken_iff.1 h
    cases h
    rw [p.splits hp, q.splits hq, List.append_assoc]

theorem seq_takes_iff {ab : α × β} :
    (p.seq q).Takes ab text rest ↔ ∃ front back, text = front ++ back ∧
      p.Takes ab.1 front (back ++ rest) ∧ q.Takes ab.2 back rest := by
  simp only [Takes, seq, Reply.andThen_eq_taken_iff]
  constructor
  · rintro ⟨a, front, middle, hp, b, back, rest, hq, h⟩
    cases h
    obtain rfl := q.splits hq
    rw [List.append_assoc] at hp
    exact ⟨front, back, rfl, hp, hq⟩
  · rintro ⟨front, back, rfl, hp, hq⟩
    rw [List.append_assoc]
    exact ⟨ab.1, front, _, hp, ab.2, back, rest, hq, rfl⟩

theorem seq_run_of_refused (q : Parser β) (h : p.run s = .refused) :
    (p.seq q).run s = .refused := by
  simp [seq, Reply.andThen, h]

theorem Takes.seq_run_of_refused (hp : p.Takes a text rest) (hq : q.run rest = .refused) :
    (p.seq q).run (text ++ rest) = .refused := by
  rw [Takes] at hp
  simp [seq, Reply.andThen, hp, hq]

/-- The value of the second of two parsers. -/
def after (p : Parser α) (q : Parser β) : Parser β := (p.seq q).map Prod.snd

theorem after_takes_iff : (p.after q).Takes b text rest ↔ ∃ a front back, text = front ++ back ∧
    p.Takes a front (back ++ rest) ∧ q.Takes b back rest := by
  simp [after, map_takes_iff, seq_takes_iff]

theorem after_run_of_refused (q : Parser β) (h : p.run s = .refused) :
    (p.after q).run s = .refused := map_run_of_refused (seq_run_of_refused q h)

theorem Takes.after_run_of_refused (hp : p.Takes a text rest) (hq : q.run rest = .refused) :
    (p.after q).run (text ++ rest) = .refused := map_run_of_refused (hp.seq_run_of_refused hq)

/-- The value of the first of two parsers. -/
def before (p : Parser α) (q : Parser β) : Parser α := (p.seq q).map Prod.fst

theorem before_takes_iff : (p.before q).Takes a text rest ↔ ∃ b front back, text = front ++ back ∧
    p.Takes a front (back ++ rest) ∧ q.Takes b back rest := by
  simp [before, map_takes_iff, seq_takes_iff]

theorem before_run_of_refused (q : Parser β) (h : p.run s = .refused) :
    (p.before q).run s = .refused := map_run_of_refused (seq_run_of_refused q h)

/-- The second parser is tried only where the first one refuses. -/
def or (p q : Parser α) : Parser α where
  run s := (p.run s).orElse (q.run s)
  splits h := by
    obtain hp | ⟨-, hq⟩ := Reply.orElse_eq_taken_iff.1 h
    · exact p.splits hp
    · exact q.splits hq

theorem or_takes_iff {p q : Parser α} : (p.or q).Takes a text rest ↔
    p.Takes a text rest ∨ p.run (text ++ rest) = .refused ∧ q.Takes a text rest :=
  Reply.orElse_eq_taken_iff

theorem Takes.or_left (h : p.Takes a text rest) (q : Parser α) : (p.or q).Takes a text rest :=
  or_takes_iff.2 (Or.inl h)

theorem Takes.or_right {q : Parser α} (hq : q.Takes a text rest)
    (hp : p.run (text ++ rest) = .refused) : (p.or q).Takes a text rest :=
  or_takes_iff.2 (Or.inr ⟨hp, hq⟩)

theorem or_run_of_refused {p q : Parser α} (hp : p.run s = .refused) (hq : q.run s = .refused) :
    (p.or q).run s = .refused := by
  simp [or, Reply.orElse, hp, hq]

/-- A choice takes all of a text as one of its parsers does, unless the first one stands in the way
of the second one. -/
theorem all_or {p q : Parser α} (h : p.run s ≠ .refused → q.all s = none) :
    (p.or q).all s = (p.all s <|> q.all s) := by
  cases hp : p.run s with
  | taken a text rest =>
    rw [h (by simp [hp])]
    cases rest <;> simp [all, or, Reply.orElse, hp]
  | refused => simp [all, or, Reply.orElse, hp]
  | failed =>
    rw [h (by simp [hp])]
    simp [all, or, Reply.orElse, hp]

def optional (p : Parser α) : Parser (Option α) := (p.map some).or (nothing none)

theorem Takes.optional (h : p.Takes a text rest) : p.optional.Takes (some a) text rest :=
  (map_takes_iff.2 ⟨a, h, rfl⟩).or_left _

theorem optional_takes_nil (h : p.run rest = .refused) : p.optional.Takes none [] rest := by
  have hnothing : (nothing (none : Option α)).Takes none [] rest := rfl
  exact hnothing.or_right (map_run_of_refused h)

/-- Fails where the parser refuses. -/
def must (p : Parser α) : Parser α where
  run s := (p.run s).orElse .failed
  splits h := by
    obtain hp | ⟨-, h⟩ := Reply.orElse_eq_taken_iff.1 h
    · exact p.splits hp
    · cases h

theorem Takes.must (h : p.Takes a text rest) : p.must.Takes a text rest :=
  Reply.orElse_eq_taken_iff.2 (Or.inl h)

section Lists

variable {sep : Parser α} {item : Parser β} {bs : List β}

/-- More items of a list, as long as a separator and an item follow. If a separator takes nothing,
the list is refused. -/
def moreItems (sep : Parser α) (item : Parser β) (s : List Char) : Reply (List β) :=
  match hs : sep.run s with
  | .taken _ comma rest =>
    if hc : comma = [] then .refused
    else
      match hi : item.run rest with
      | .taken b text rest' =>
        have : rest'.length < s.length := by
          have := List.length_pos_of_ne_nil hc
          simp only [sep.splits hs, item.splits hi, List.length_append]
          omega
        (moreItems sep item rest').andThen fun bs texts back =>
          .taken (b :: bs) (comma ++ (text ++ texts)) back
      | .refused => .taken [] [] s
      | .failed => .failed
  | .refused => .taken [] [] s
  | .failed => .failed
termination_by s.length

theorem moreItems_splits (h : moreItems sep item s = .taken bs text rest) : s = text ++ rest := by
  fun_induction moreItems generalizing bs text with
  | case1 => cases h
  | case2 s a comma middle hs hc b front back hi hlt ih =>
    obtain ⟨bs, texts, rest, hmore, h⟩ := Reply.andThen_eq_taken_iff.1 h
    cases h
    rw [sep.splits hs, item.splits hi, ih hmore]
    simp
  | case3 | case5 =>
    cases h
    rfl
  | case4 | case6 => cases h

def more (sep : Parser α) (item : Parser β) : Parser (List β) where
  run := moreItems sep item
  splits := moreItems_splits

theorem more_takes_nil (h : sep.run rest = .refused) : (more sep item).Takes [] [] rest := by
  change moreItems sep item rest = .taken [] [] rest
  unfold moreItems
  split
  · rename_i hs
    cases h.symm.trans hs
  · rfl
  · rename_i hs
    cases h.symm.trans hs

theorem more_takes_cons {comma texts : List Char}
    (hsep : sep.Takes a comma (text ++ (texts ++ rest))) (hcomma : comma ≠ [])
    (hitem : item.Takes b text (texts ++ rest)) (hmore : (more sep item).Takes bs texts rest) :
    (more sep item).Takes (b :: bs) (comma ++ (text ++ texts)) rest := by
  change moreItems sep item (texts ++ rest) = .taken bs texts rest at hmore
  change moreItems sep item (comma ++ (text ++ texts) ++ rest) = _
  rw [Takes] at hsep hitem
  rw [List.append_assoc, List.append_assoc]
  unfold moreItems
  split
  · rename_i hs
    cases hsep.symm.trans hs
    rw [dif_neg hcomma]
    split <;> simp_all [Reply.andThen]
  · simp_all
  · simp_all

/-- Each item that has been taken had a separator in front of it. -/
theorem exists_parts_of_moreItems (h : moreItems sep item s = .taken bs text rest) :
    ∃ parts : List (List Char), text = parts.flatten ∧ List.Forall₂ (fun part b =>
      ∃ a comma own behind behind', part = comma ++ own ∧ sep.Takes a comma behind ∧
        item.Takes b own behind') parts bs := by
  fun_induction moreItems generalizing bs text with
  | case1 => cases h
  | case2 s a comma middle hs hc b front back hi hlt ih =>
    obtain ⟨bs, texts, rest, hmore, h⟩ := Reply.andThen_eq_taken_iff.1 h
    cases h
    obtain ⟨parts, rfl, hparts⟩ := ih hmore
    refine ⟨(comma ++ front) :: parts, by simp, .cons ?_ hparts⟩
    exact ⟨a, comma, front, middle, back, rfl, (run_eq_taken_iff.1 hs).2, (run_eq_taken_iff.1 hi).2⟩
  | case3 | case5 =>
    cases h
    exact ⟨[], rfl, .nil⟩
  | case4 | case6 => cases h

/-- An item and more of them. -/
def separated (sep : Parser α) (item : Parser β) : Parser (List β) :=
  (item.seq (more sep item)).map fun (b, bs) => b :: bs

theorem separated_takes_iff : (separated sep item).Takes bs text rest ↔
    ∃ b others front back, bs = b :: others ∧ text = front ++ back ∧
      item.Takes b front (back ++ rest) ∧ (more sep item).Takes others back rest := by
  simp only [separated, map_takes_iff, seq_takes_iff, Prod.exists]
  constructor
  · rintro ⟨b, others, ⟨front, back, htext, hitem, hmore⟩, rfl⟩
    exact ⟨b, others, front, back, rfl, htext, hitem, hmore⟩
  · rintro ⟨b, others, front, back, rfl, htext, hitem, hmore⟩
    exact ⟨b, others, ⟨front, back, htext, hitem, hmore⟩, rfl⟩

end Lists

end Parser

end ColorTheme

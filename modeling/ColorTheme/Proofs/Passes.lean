import Mathlib
import ColorTheme.Proofs.Baking
/-! # How far the passes have come

The loop of the resolver, one pass after the other. Every pass but the last colors an entry, so that
there are no more passes than entries. After `k` of them an entry has its color if no chain of
references from it is longer than `k`: when a pass leaves an entry without a color, then it leads to
an entry that had none at the start of that pass. -/
namespace ColorTheme.Definition

variable {d : Definition} {mode : Mode}

/-- Where the loop stands: before another pass, or at one of its three ends. -/
inductive Stage where
  | running (p : Progress) (pending : List (Entry × Nat))
  | resolved (p : Progress)
  | stalled (p : Progress) (first : Entry × Nat) (others : List (Entry × Nat))
  | failed (err : BakeError)

namespace Stage

/-- What the loop has come to, unless a look-up has failed. -/
def progress? : Stage → Option Progress
  | running p _ | resolved p | stalled p _ _ => some p
  | failed _ => none

/-- What the loop gives, once it has ended. -/
def result? : Stage → Option (Except BakeError Progress)
  | running _ _ => none
  | resolved p => some (.ok p)
  | stalled _ first others => some (.error (.unresolved first.1.qualifiedKey others.length))
  | failed err => some (.error err)

end Stage

/-- Makes one more pass, unless the loop has ended. -/
def nextStage (d : Definition) (mode : Mode) : Stage → Stage
  | .running p pending =>
    match d.pass mode pending p with
    | .error err => .failed err
    | .ok (q, []) => .resolved q
    | .ok (q, first :: others) =>
      if others.length + 1 < pending.length then .running q (first :: others)
      else .stalled q first others
  | stage => stage

/-- With nothing to color there is no pass at all. -/
def firstStage (d : Definition) (mode : Mode) : Stage :=
  if d.applicable mode = [] then .resolved (.start d.size)
  else .running (.start d.size) (d.applicable mode)

/-- Where the loop stands after so many passes, or at its end if that comes earlier. -/
def stageAfter (d : Definition) (mode : Mode) (passes : Nat) : Stage :=
  (d.nextStage mode)^[passes] (d.firstStage mode)

theorem stageAfter_succ (d : Definition) (mode : Mode) (k : Nat) :
    d.stageAfter mode (k + 1) = d.nextStage mode (d.stageAfter mode k) :=
  Function.iterate_succ_apply' (d.nextStage mode) k (d.firstStage mode)

theorem progress?_nextStage_running (d : Definition) (mode : Mode) (p : Progress)
    (pending : List (Entry × Nat)) :
    (d.nextStage mode (.running p pending)).progress? =
      (d.pass mode pending p).toOption.map Prod.fst := by
  rw [nextStage]
  cases d.pass mode pending p with
  | error err => rfl
  | ok result =>
    obtain ⟨q, _ | ⟨first, others⟩⟩ := result
    · rfl
    · simp only
      split <;> rfl

/-- A look-up that has failed ends the loop. -/
theorem exists_progress?_of_nextStage {stage : Stage} {q : Progress}
    (h : (d.nextStage mode stage).progress? = some q) : ∃ p, stage.progress? = some p := by
  cases stage with
  | failed err => cases h
  | _ => exact ⟨_, rfl⟩

/-- What the loop gives in the end. -/
def outcome (d : Definition) (mode : Mode) : Stage → Except BakeError Progress
  | .running p pending => d.resolve mode pending p
  | .resolved p => .ok p
  | .stalled _ first others => .error (.unresolved first.1.qualifiedKey others.length)
  | .failed err => .error err

theorem outcome_nextStage (d : Definition) (mode : Mode) (stage : Stage) :
    d.outcome mode (d.nextStage mode stage) = d.outcome mode stage := by
  cases stage with
  | running p pending =>
    rw [nextStage, outcome, resolve]
    cases d.pass mode pending p with
    | error err => rfl
    | ok result =>
      obtain ⟨q, _ | ⟨first, others⟩⟩ := result
      · rfl
      · simp only
        split <;> rfl
  | _ => rfl

theorem outcome_firstStage (d : Definition) (mode : Mode) :
    d.outcome mode (d.firstStage mode) = d.resolve mode (d.applicable mode) (.start d.size) := by
  rw [firstStage]
  split
  · rename_i h
    rw [h, resolve]
    rfl
  · rfl

theorem outcome_stageAfter (d : Definition) (mode : Mode) (k : Nat) :
    d.outcome mode (d.stageAfter mode k) = d.resolve mode (d.applicable mode) (.start d.size) := by
  induction k with
  | zero => exact outcome_firstStage d mode
  | succ k ih => rw [stageAfter_succ, outcome_nextStage, ih]

/-- No chain of references from the entry, itself counted, has more than `k` entries. -/
def Shallow (d : Definition) (mode : Mode) (k i : Nat) : Prop :=
  ∀ chain, List.IsChain (d.Leads mode) (i :: chain) → (i :: chain).length ≤ k

theorem not_shallow_zero (i : Nat) : ¬ d.Shallow mode 0 i := by
  intro h
  have := h [] (.singleton i)
  simp at this

theorem Shallow.of_leads {k i j : Nat} (h : d.Shallow mode (k + 1) i) (hl : d.Leads mode i j) :
    d.Shallow mode k j := by
  intro chain hc
  have := h (j :: chain) (.cons_cons hl hc)
  simpa using this

theorem shallow_succ {k i : Nat} (h : ∀ j, d.Leads mode i j → d.Shallow mode k j) :
    d.Shallow mode (k + 1) i := by
  intro chain hc
  cases hc with
  | singleton => simp
  | cons_cons hl hc => simpa using h _ hl _ hc

theorem Blocked.leads {p q : Progress} {i : Nat} {e : Entry} (h : d.Blocked mode p q e)
    (he : d.Applies mode i e) : ∃ j, d.Leads mode i j ∧ p.color? j = none := by
  obtain ⟨before, r, after, j, split, -, found, pending⟩ := h
  exact ⟨j, ⟨e, he.entry, he.mode, r, by simp [split], found⟩, pending⟩

/-- All entries with chains of at most `k` entries have their colors. -/
def ColoredTo (d : Definition) (mode : Mode) (k : Nat) (p : Progress) : Prop :=
  ∀ i e, d.Applies mode i e → d.Shallow mode k i → p.color? i ≠ none

theorem coloredTo_zero (p : Progress) : d.ColoredTo mode 0 p :=
  fun i _ _ h => absurd h (not_shallow_zero i)

/-- The colors of a pass go one entry further along the chains than those it started with. -/
theorem ColoredTo.pass (hd : d.Indexed) {k : Nat} {p q : Progress} (h : d.ColoredTo mode k p)
    (passed : d.Passed mode p q (d.uncolored mode p)) : d.ColoredTo mode (k + 1) q := by
  intro i e he hi hq
  have hm : (e, i) ∈ d.uncolored mode p := mem_uncolored.2 ⟨he, passed.grows.eq_none hq⟩
  obtain ⟨j, hl, hj⟩ := (passed.blocked _ hm hq).leads he
  obtain ⟨-, -, -, r, -, hf⟩ := id hl
  obtain ⟨e', he'⟩ := applies_of_find? hd hf
  exact h j e' he' (hi.of_leads hl) hj

/-- Where all entries without a color wait for each other, one more pass would color none. -/
theorem coloredTo_of_blocked (hd : d.Indexed) {p : Progress} (h : d.Sound mode p)
    (blocked : ∀ x ∈ d.uncolored mode p, d.Blocked mode p p x.1) (k : Nat) :
    d.ColoredTo mode k p := by
  induction k with
  | zero => exact coloredTo_zero p
  | succ k ih => exact ih.pass hd ⟨h, .refl p, fun x hx _ => blocked x hx⟩

/-- What is known of the loop after so many passes. While it goes on, every pass has colored an
entry, so that the passes and the pending entries together are not more than the entries. -/
inductive Reached (d : Definition) (mode : Mode) (passes : Nat) : Stage → Prop
  | running {p : Progress} (sound : d.Sound mode p) (pending : d.uncolored mode p ≠ [])
      (bound : passes + (d.uncolored mode p).length ≤ (d.applicable mode).length)
      (colored : d.ColoredTo mode passes p) :
      Reached d mode passes (.running p (d.uncolored mode p))
  | resolved {p : Progress} (sound : d.Sound mode p) (colored : d.uncolored mode p = []) :
      Reached d mode passes (.resolved p)
  | stalled {p : Progress} {first : Entry × Nat} {others : List (Entry × Nat)}
      (sound : d.Sound mode p) (pending : d.uncolored mode p = first :: others)
      (blocked : ∀ x ∈ d.uncolored mode p, d.Blocked mode p p x.1) :
      Reached d mode passes (.stalled p first others)
  | failed {err : BakeError} (exposed : ∃ e r, d.Exposed mode e r) :
      Reached d mode passes (.failed err)

theorem reached_firstStage (d : Definition) (mode : Mode) :
    d.Reached mode 0 (d.firstStage mode) := by
  have hs := sound_start d mode
  have hu : d.uncolored mode (.start d.size) = d.applicable mode := by simp [uncolored]
  rw [firstStage]
  split
  · rename_i h
    exact .resolved hs (hu.trans h)
  · rename_i h
    rw [← hu] at h ⊢
    exact .running hs h (by simp [hu]) (coloredTo_zero _)

theorem Reached.nextStage (hd : d.Indexed) {k : Nat} {stage : Stage} (h : d.Reached mode k stage) :
    d.Reached mode (k + 1) (d.nextStage mode stage) := by
  cases h with
  | @running p sound pending bound colored =>
    rw [Definition.nextStage]
    cases hp : d.pass mode (d.uncolored mode p) p with
    | error err =>
      obtain ⟨e, r, exposed, -⟩ := exposed_of_pass hd sound hp
      exact .failed ⟨e, r, exposed⟩
    | ok result =>
      obtain ⟨q, still⟩ := result
      obtain ⟨passed, rfl⟩ := passed_of_pass hd sound hp
      cases hq : d.uncolored mode q with
      | nil => exact .resolved passed.sound hq
      | cons first others =>
        have hlen : (d.uncolored mode q).length = others.length + 1 := by simp [hq]
        simp only
        split
        · rw [← hq]
          exact .running passed.sound (by simp [hq]) (by omega) (colored.pass hd passed)
        · exact .stalled passed.sound hq (blocked_of_no_progress hd passed (by omega))
  | resolved sound colored => exact .resolved sound colored
  | stalled sound pending blocked => exact .stalled sound pending blocked
  | failed exposed => exact .failed exposed

theorem reached_stageAfter (hd : d.Indexed) (mode : Mode) (k : Nat) :
    d.Reached mode k (d.stageAfter mode k) := by
  induction k with
  | zero => exact reached_firstStage d mode
  | succ k ih =>
    rw [stageAfter_succ]
    exact ih.nextStage hd

/-- With as many passes as there are entries the loop has ended. -/
theorem Reached.result? {k : Nat} {stage : Stage} (h : d.Reached mode k stage)
    (hk : (d.applicable mode).length ≤ k) : stage.result? = some (d.outcome mode stage) := by
  cases h with
  | running sound pending bound =>
    have hpos := List.length_pos_of_ne_nil pending
    omega
  | resolved | stalled | failed => rfl

theorem Reached.coloredTo (hd : d.Indexed) {k : Nat} {stage : Stage} (h : d.Reached mode k stage)
    {p : Progress} (hp : stage.progress? = some p) : d.ColoredTo mode k p := by
  cases h with
  | running sound pending bound colored =>
    cases hp
    exact colored
  | resolved sound colored =>
    cases hp
    exact coloredTo_of_blocked hd sound (by simp [colored]) k
  | stalled sound pending blocked =>
    cases hp
    exact coloredTo_of_blocked hd sound blocked k
  | failed => cases hp

theorem Reached.not_answered {k : Nat} {stage : Stage} (h : d.Reached mode k stage)
    (hp : stage.progress? = none) : ¬ d.Answered mode := by
  cases h with
  | running | resolved | stalled => cases hp
  | failed exposed =>
    obtain ⟨e, r, exposed⟩ := exposed
    exact fun answered => answered.not_exposed e r exposed

/-- What a pass over the entries comes through: the progress at its start and after each of its
attempts, up to a look-up that fails. -/
def trail (d : Definition) (mode : Mode) : List (Entry × Nat) → Progress → List Progress
  | [], p => [p]
  | (e, i) :: rest, p =>
    match d.attempt mode p e with
    | .error _ => [p]
    | .ok a => p :: trail d mode rest (p.advance i a)

theorem head?_trail (d : Definition) (mode : Mode) (pending : List (Entry × Nat)) (p : Progress) :
    (d.trail mode pending p).head? = some p := by
  cases pending with
  | nil => rfl
  | cons first rest =>
    rw [trail]
    split <;> rfl

theorem getLast?_trail {waiting pending still : List (Entry × Nat)} {p q : Progress}
    (h : d.passOn mode waiting pending p = .ok (q, still)) :
    (d.trail mode pending p).getLast? = some q := by
  induction pending generalizing waiting p with
  | nil =>
    cases h
    rfl
  | cons first rest ih =>
    rw [passOn] at h
    rw [trail]
    cases ha : d.attempt mode p first.1 with
    | error err =>
      rw [ha] at h
      cases h
    | ok a =>
      rw [ha] at h
      have hlast : (d.trail mode rest (p.advance first.2 a)).getLast? = some q := ih h
      simp [List.getLast?_cons, hlast]

theorem grows_of_head? {ps : List Progress} (h : ps.Pairwise Progress.Grows) {p q : Progress}
    (hp : ps.head? = some p) (hq : q ∈ ps) : p.Grows q := by
  obtain ⟨rest, rfl⟩ := List.head?_eq_some_iff.1 hp
  rcases List.mem_cons.1 hq with rfl | hq
  · exact .refl _
  · exact List.rel_of_pairwise_cons h hq

theorem grows_of_getLast? {ps : List Progress} (h : ps.Pairwise Progress.Grows)
    {p q : Progress} (hp : p ∈ ps) (hq : ps.getLast? = some q) : p.Grows q := by
  obtain ⟨before, rfl⟩ := List.getLast?_eq_some_iff.1 hq
  rcases List.mem_append.1 hp with hp | hp
  · exact (List.pairwise_append.1 h).2.2 p hp q (by simp)
  · obtain rfl := List.mem_singleton.1 hp
    exact .refl _

theorem sound_trail (hd : d.Indexed) {waiting pending : List (Entry × Nat)} {p : Progress}
    (h : d.Sound mode p) (hu : d.uncolored mode p = waiting.reverse ++ pending) :
    (∀ q ∈ d.trail mode pending p, d.Sound mode q) ∧
      (d.trail mode pending p).Pairwise Progress.Grows := by
  induction pending generalizing waiting p with
  | nil => simp [trail, h]
  | cons first rest ih =>
    obtain ⟨e, i⟩ := first
    obtain ⟨he, hn⟩ : d.Applies mode i e ∧ p.color? i = none := mem_uncolored.1 (hu ▸ by simp)
    rw [trail]
    cases ha : d.attempt mode p e with
    | error err => simp [h]
    | ok a =>
      have hs := stepped_of_attempt hd h he hn ha
      obtain ⟨sound, ordered⟩ := ih hs.sound (uncolored_advance h hu a)
      have grows : ∀ q ∈ d.trail mode rest (p.advance i a), p.Grows q :=
        fun q hq => hs.grows.trans (grows_of_head? ordered (head?_trail d mode rest _) hq)
      exact ⟨by simpa using ⟨h, sound⟩, List.pairwise_cons.2 ⟨grows, ordered⟩⟩

/-- What the next pass comes through, or what the loop has ended with. -/
def course (d : Definition) (mode : Mode) : Stage → List Progress
  | .running p pending => d.trail mode pending p
  | .resolved p | .stalled p _ _ => [p]
  | .failed _ => []

theorem head?_course (d : Definition) (mode : Mode) (stage : Stage) :
    (d.course mode stage).head? = stage.progress? := by
  cases stage with
  | running p pending => exact head?_trail d mode pending p
  | _ => rfl

theorem Reached.course (hd : d.Indexed) {k : Nat} {stage : Stage} (h : d.Reached mode k stage) :
    (∀ p ∈ d.course mode stage, d.Sound mode p) ∧
      (d.course mode stage).Pairwise Progress.Grows := by
  cases h with
  | @running p sound =>
    exact sound_trail hd sound (show d.uncolored mode p = [].reverse ++ _ from rfl)
  | resolved sound | stalled sound => simpa [Definition.course] using sound
  | failed => simp [Definition.course]

theorem Reached.grows_nextStage (hd : d.Indexed) {k : Nat} {stage : Stage}
    (h : d.Reached mode k stage) {p q : Progress} (hp : p ∈ d.course mode stage)
    (hq : (d.nextStage mode stage).progress? = some q) : p.Grows q := by
  have ordered := (h.course hd).2
  cases h with
  | @running start =>
    rw [progress?_nextStage_running] at hq
    obtain ⟨⟨q, still⟩, hpass, rfl⟩ := Option.map_eq_some_iff.1 hq
    cases hr : d.pass mode (d.uncolored mode start) start with
    | error err =>
      rw [hr] at hpass
      cases hpass
    | ok result =>
      rw [hr] at hpass
      cases hpass
      exact grows_of_getLast? ordered hp (getLast?_trail hr)
  | resolved | stalled =>
    cases hq
    obtain rfl := List.mem_singleton.1 hp
    exact .refl _
  | failed => cases hp

theorem mem_course {stage : Stage} {p : Progress} (h : stage.progress? = some p) :
    p ∈ d.course mode stage := List.mem_of_head? ((head?_course d mode stage).trans h)

theorem exists_mem_course {stage : Stage} {p : Progress} (h : p ∈ d.course mode stage) :
    ∃ q, stage.progress? = some q := by
  rw [← head?_course d mode]
  exact ⟨_, List.head?_eq_some_head (List.ne_nil_of_mem h)⟩

/-- What the first passes come through, in order. -/
def history (d : Definition) (mode : Mode) (passes : Nat) : List Progress :=
  (List.range passes).flatMap fun k => d.course mode (d.stageAfter mode k)

theorem grows_of_lt (hd : d.Indexed) {k l : Nat} (h : k < l) {p q : Progress}
    (hp : p ∈ d.course mode (d.stageAfter mode k))
    (hq : (d.stageAfter mode l).progress? = some q) : p.Grows q := by
  induction l, h using Nat.le_induction generalizing q with
  | base =>
    rw [stageAfter_succ] at hq
    exact (reached_stageAfter hd mode k).grows_nextStage hd hp hq
  | succ l _ ih =>
    rw [stageAfter_succ] at hq
    obtain ⟨middle, hm⟩ := exists_progress?_of_nextStage hq
    have hgrows := (reached_stageAfter hd mode l).grows_nextStage hd (mem_course hm) hq
    exact (ih hm).trans hgrows

theorem sound_history (hd : d.Indexed) (mode : Mode) (k : Nat) :
    (∀ p ∈ d.history mode k, d.Sound mode p) ∧ (d.history mode k).Pairwise Progress.Grows := by
  constructor
  · intro p hp
    obtain ⟨l, -, hl⟩ := List.mem_flatMap.1 hp
    exact ((reached_stageAfter hd mode l).course hd).1 p hl
  · refine List.pairwise_flatMap.2 ⟨fun l _ => ((reached_stageAfter hd mode l).course hd).2, ?_⟩
    refine List.pairwise_lt_range.imp fun {l m} hlm p hp q hq => ?_
    obtain ⟨start, hs⟩ := exists_mem_course hq
    have hhead := (head?_course d mode _).trans hs
    exact (grows_of_lt hd hlm hp hs).trans
      (grows_of_head? ((reached_stageAfter hd mode m).course hd).2 hhead hq)

/-- There are at most as many passes as applicable entries. Colors never change, and no entry that
reaches a cycle gets one, whether or not a look-up fails in the end. Unless one has failed, every
entry has its color after as many passes as its longest chain has entries. -/
theorem Built.progress_of_passes (hd : d.Built) (mode : Mode) :
    (∀ k ≥ (d.applicable mode).length, (d.stageAfter mode k).result? =
        some (d.resolve mode (d.applicable mode) (.start d.size))) ∧
      (∀ k, (d.history mode k).Pairwise Progress.Grows ∧
        ∀ p ∈ d.history mode k, ∀ i, d.ReachesCycle mode i → p.color? i = none) ∧
      ∀ k, ((d.stageAfter mode k).progress? = none → ¬ d.Answered mode) ∧
        ∀ p, (d.stageAfter mode k).progress? = some p → p ∈ d.history mode (k + 1) ∧
          ∀ i e, d.Applies mode i e → d.Shallow mode k i →
            ∃ c, p.color? i = some c ∧ d.Denotes mode i c ∧
              ∀ l ≥ k, ∀ q, (d.stageAfter mode l).progress? = some q → q.color? i = some c := by
  have hi := hd.indexed
  have reached := reached_stageAfter hi mode
  refine ⟨fun k hk => ?_, fun k => ?_, fun k => ⟨(reached k).not_answered, fun p hp => ?_⟩⟩
  · rw [(reached k).result? hk, outcome_stageAfter]
  · obtain ⟨sound, ordered⟩ := sound_history hi mode k
    exact ⟨ordered, fun p hp i hi => (sound p hp).color?_eq_none hi.not_resolvable⟩
  have hmem : p ∈ d.course mode (d.stageAfter mode k) := mem_course hp
  refine ⟨List.mem_flatMap.2 ⟨k, by simp, hmem⟩, fun i e he hs => ?_⟩
  obtain ⟨c, hc⟩ :=
    Option.ne_none_iff_exists'.1 ((reached k).coloredTo hi hp i e he hs)
  refine ⟨c, hc, (((reached k).course hi).1 p hmem).denotes i c hc, fun l hl q hq => ?_⟩
  rcases hl.eq_or_lt with rfl | hl
  · cases hp.symm.trans hq
    exact hc
  · exact grows_of_lt hi hl hmem hq i c hc

/-- A chain in the order that takes the most passes, and two entries that refer to each other. -/
def chained : Definition := ofEntries
  [⟨"A", .all, .any, .reference ⟨"B", .any⟩⟩, ⟨"B", .all, .any, .reference ⟨"C", .any⟩⟩,
    ⟨"C", .all, .any, .color .gray⟩, ⟨"X", .all, .any, .reference ⟨"Y", .any⟩⟩,
    ⟨"Y", .all, .any, .reference ⟨"X", .any⟩⟩]

theorem built_chained : chained.Built := built_ofEntries (by decide)

theorem find?_chained :
    chained.find? .dark .any "B" = some 1 ∧ chained.find? .dark .any "C" = some 2 ∧
      chained.find? .dark .any "X" = some 3 ∧ chained.find? .dark .any "Y" = some 4 := by
  simp only [built_chained.indexed.find?_eq]
  decide

theorem answered_chained : chained.Answered .dark := by
  intro i e he r hr
  have hall : ∀ e ∈ chained.entries, ∀ r ∈ e.value.references,
      r.state = .any ∧ r.key ∈ ["B", "C", "X", "Y"] := by decide
  obtain ⟨hs, hk⟩ := hall e (Array.mem_of_getElem? he.entry) r hr
  obtain ⟨hB, hC, hX, hY⟩ := find?_chained
  simp only [List.mem_cons, List.not_mem_nil, or_false] at hk
  rcases hk with hk | hk | hk | hk <;> simp [hs, hk, hB, hC, hX, hY]

theorem leads_chained {i j : Nat} :
    chained.Leads .dark i j ↔ (i, j) ∈ [(0, 1), (1, 2), (3, 4), (4, 3)] := by
  obtain ⟨hB, hC, hX, hY⟩ := find?_chained
  have hall : ∀ x ∈ chained.entries.toList.zipIdx, ∀ r ∈ x.1.value.references, (x.2, r) ∈
      [(0, ⟨"B", .any⟩), (1, ⟨"C", .any⟩), (3, ⟨"Y", .any⟩), (4, ⟨"X", .any⟩)] := by decide
  constructor
  · rintro ⟨e, he, -, r, hr, hf⟩
    have hr := hall (e, i) (List.mem_zipIdx_iff_getElem?.2 (by simpa using he)) r hr
    simp only [List.mem_cons, Prod.mk.injEq, List.not_mem_nil, or_false] at hr
    rcases hr with ⟨rfl, rfl⟩ | ⟨rfl, rfl⟩ | ⟨rfl, rfl⟩ | ⟨rfl, rfl⟩ <;> simp_all
  · intro h
    simp only [List.mem_cons, Prod.mk.injEq, List.not_mem_nil, or_false] at h
    rcases h with ⟨rfl, rfl⟩ | ⟨rfl, rfl⟩ | ⟨rfl, rfl⟩ | ⟨rfl, rfl⟩
    all_goals exact ⟨_, rfl, rfl, _, List.mem_singleton_self _, ‹_›⟩

theorem shallow_chained : chained.Shallow .dark 3 0 := by
  refine shallow_succ fun i hi => shallow_succ fun j hj => shallow_succ fun k hk => ?_
  obtain rfl : i = 1 := by simpa using leads_chained.1 hi
  obtain rfl : j = 2 := by simpa using leads_chained.1 hj
  simpa using leads_chained.1 hk

theorem reachesCycle_chained : chained.ReachesCycle .dark 3 := by
  have hxy : chained.Leads .dark 3 4 := leads_chained.2 (by decide)
  have hyx : chained.Leads .dark 4 3 := leads_chained.2 (by decide)
  exact ⟨3, .refl, .head hxy (.single hyx)⟩

theorem progress_chained : chained.Built ∧ ∃ p, (chained.stageAfter .dark 3).progress? = some p ∧
    (∃ c, p.color? 0 = some c) ∧ p.color? 3 = none := by
  obtain ⟨-, never, reached⟩ := built_chained.progress_of_passes .dark
  obtain ⟨unanswered, colored⟩ := reached 3
  obtain ⟨p, hp⟩ :=
    Option.ne_none_iff_exists'.1 fun hn => unanswered hn answered_chained
  obtain ⟨hmem, colored⟩ := colored p hp
  obtain ⟨c, hc, -⟩ := colored 0 _ ⟨rfl, rfl⟩ shallow_chained
  exact ⟨built_chained, p, hp, ⟨c, hc⟩, (never 4).2 p hmem 3 reachesCycle_chained⟩

end ColorTheme.Definition

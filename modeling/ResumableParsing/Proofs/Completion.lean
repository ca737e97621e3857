/-
# How often a computation completes

A computation that has put out its output may be resumed all the same, and so may one that has
failed or was answered wrongly.  `outputs` lists what it puts out in the course of all that.  A
pair, a choice and a repetition put out one thing at most: whatever their parts do, the turn in
which they complete leaves a state in which they are spent.  A list of machines is different.  The
turn in which it completes leaves its first state, so that it starts over, and puts out as often as
it is made to.
-/
import ResumableParsing.Machine.Repetition
import ResumableParsing.Proofs.Descent.Choice

namespace ResumableParsing

variable {ι ν ο α β σ τ : Type}

/-! ## Outputs -/

/-- The output that a resumption came to. -/
def Resumed.output? : Resumed ι α → Option α
  | .complete a => some a
  | .suspend _ | .fail _ => none

@[simp] theorem Resumed.output?_complete (a : α) :
    (.complete a : Resumed ι α).output? = some a := rfl

@[simp] theorem Resumed.output?_suspend (q : Request) :
    (.suspend q : Resumed ι α).output? = none := rfl

@[simp] theorem Resumed.output?_fail (e : Failure ι) :
    (.fail e : Resumed ι α).output? = none := rfl

/-- An output is that of a completion. -/
theorem Resumed.output?_eq_some_iff {x : Resumed ι α} {a : α} :
    x.output? = some a ↔ x = .complete a := by
  cases x <;> simp

/-- If the turn completes, it leaves a state of the kind. -/
def Turn.Closes (kind : σ → Prop) (t : Turn σ ι ν α) : Prop :=
  ∀ a, t.resumed = .complete a → kind t.state

/-- Notes do not matter. -/
theorem Turn.Closes.after {kind : σ → Prop} {t : Turn σ ι ν α} (h : t.Closes kind)
    (notes : List ν) : (t.after notes).Closes kind := h

namespace Machine

variable {m : Machine ι ν ο}

/-- What a computation puts out when it is resumed with each of the answers, whatever it comes
to. -/
def outputs (m : Machine ι ν ο) (s : m.State) (rs : List (Option (Response ι))) : List ο :=
  (m.replay s rs).filterMap fun t => t.resumed.output?

@[simp] theorem outputs_nil (m : Machine ι ν ο) (s : m.State) : m.outputs s [] = [] := rfl

/-- The first resumption may put something out, and then the others. -/
theorem outputs_cons (m : Machine ι ν ο) (s : m.State) (r : Option (Response ι))
    (rs : List (Option (Response ι))) :
    m.outputs s (r :: rs) =
      (m.resume s r).resumed.output?.toList ++ m.outputs (m.resume s r).state rs := by
  rw [outputs, replay_cons, List.filterMap_cons]
  cases (m.resume s r).resumed.output? with
  | none => rfl
  | some a => rfl

/-- Further resumptions go on from the state that was come to. -/
theorem outputs_append (m : Machine ι ν ο) (s : m.State) (rs qs : List (Option (Response ι))) :
    m.outputs s (rs ++ qs) = m.outputs s rs ++ m.outputs (m.stateAfter s rs) qs := by
  rw [outputs, replay_append, List.filterMap_append]
  rfl

/-- What is put out is put out in some turn. -/
theorem exists_of_mem_outputs {s : m.State} {rs : List (Option (Response ι))} {a : ο}
    (h : a ∈ m.outputs s rs) : ∃ before r after, rs = before ++ r :: after ∧
      (m.resume (m.stateAfter s before) r).resumed = .complete a := by
  induction rs generalizing s with
  | nil => cases h
  | cons r rs ih =>
    rw [outputs_cons, List.mem_append, Option.mem_toList] at h
    rcases h with hnow | hlater
    · exact ⟨[], r, rs, rfl, Resumed.output?_eq_some_iff.mp hnow⟩
    · obtain ⟨before, r', after, rfl, hcomplete⟩ := ih hlater
      exact ⟨r :: before, r', after, rfl, hcomplete⟩

/-! ## Computations that are spent -/

/-- From the state on nothing is put out. -/
def Spent (m : Machine ι ν ο) (s : m.State) : Prop := ∀ rs, m.outputs s rs = []

/-- It is enough to know of each state something that every turn preserves. -/
theorem spent_of_invariant (kind : m.State → Prop)
    (step : ∀ s r, kind s →
      (m.resume s r).resumed.output? = none ∧ kind (m.resume s r).state)
    {s : m.State} (h : kind s) : m.Spent s := by
  intro rs
  induction rs generalizing s with
  | nil => rfl
  | cons r rs ih =>
    obtain ⟨hnone, hkind⟩ := step s r h
    rw [outputs_cons, hnone, ih hkind]
    rfl

/-- A machine whose outputs leave it spent puts out one thing at most. -/
theorem length_outputs_le_one (h : ∀ s r, (m.resume s r).Closes m.Spent) (s : m.State)
    (rs : List (Option (Response ι))) : (m.outputs s rs).length ≤ 1 := by
  induction rs generalizing s with
  | nil => exact Nat.zero_le 1
  | cons r rs ih =>
    rw [outputs_cons]
    cases ht : (m.resume s r).resumed with
    | suspend q => exact ih _
    | fail e => exact ih _
    | complete a =>
      rw [h s r a ht rs]
      exact Nat.le_refl 1

/-! ## Pairs -/

section Pair

variable {p : Machine ι ν α} {q : Machine ι ν β}

/-- A pair whose first output was given away puts out nothing, whatever its second machine does. -/
theorem spent_pair (s : q.State) : (p.pair q).Spent (.second none s) := by
  refine spent_of_invariant (m := p.pair q) (fun S => ∃ s, S = .second none s) ?_ ⟨s, rfl⟩
  rintro _ r ⟨s, rfl⟩
  show (pairSecond none (q.resume s r)).resumed.output? = none ∧
    ∃ s', (pairSecond none (q.resume s r)).state = .second none s'
  unfold pairSecond
  cases (q.resume s r).resumed with
  | suspend req => exact ⟨rfl, _, rfl⟩
  | complete b => exact ⟨rfl, _, rfl⟩
  | fail e => exact ⟨rfl, _, rfl⟩

/-- A pair gives the output of its first machine away when it completes. -/
theorem closes_pairSecond (a : Option α) (t : Turn q.State ι ν β) :
    (pairSecond a t : Turn (p.pair q).State ι ν (α × β)).Closes (p.pair q).Spent := by
  unfold pairSecond
  cases t.resumed with
  | suspend req => exact nofun
  | fail e => exact nofun
  | complete b =>
    cases a with
    | none => exact nofun
    | some a => exact fun _ _ => spent_pair t.state

/-- A pair that has completed has given away the output of its first machine. -/
theorem closes_pair (S : (p.pair q).State) (r : Option (Response ι)) :
    ((p.pair q).resume S r).Closes (p.pair q).Spent := by
  cases S with
  | first s =>
    show (pairTurn p q (p.resume s r)).Closes _
    unfold pairTurn
    cases (p.resume s r).resumed with
    | suspend req => exact nofun
    | fail e => exact nofun
    | complete a => exact (closes_pairSecond (some a) q.start).after _
  | second a s => exact closes_pairSecond a (q.resume s r)

end Pair

/-! ## Choices -/

section Choice

variable {ps : List (Machine ι ν α)}

/-- A choice that has ended stays there. -/
theorem spent_choice : (choice ps).Spent .ended := by
  refine spent_of_invariant (m := choice ps) (· = .ended) ?_ rfl
  rintro _ r rfl
  exact ⟨rfl, rfl⟩

/-- A choice that completes with an alternative has ended. -/
theorem closes_alternativeTurn (initial : Token) (best : Option (Furthest ι)) (i : Fin ps.length)
    (t : Turn (ps.get i).State ι ν α) :
    (alternativeTurn ps initial best i t).Closes (· = .ended) := by
  unfold alternativeTurn Choosing.ofTurn
  cases t.resumed with
  | suspend q => exact nofun
  | complete a => exact fun _ _ => rfl
  | fail e =>
    by_cases he : e.isFatal
    · simp only [if_pos he]
      exact nofun
    · simp only [if_neg he]
      exact nofun

/-- A choice completes only when an alternative does, and has ended then. -/
theorem closes_choice (S : (choice ps).State) (r : Option (Response ι)) :
    ((choice ps).resume S r).Closes (· = .ended) := by
  cases S with
  | start =>
    simp only [choice, chooseFrom]
    split
    · exact nofun
    · exact nofun
  | opening =>
    simp only [choice, chooseFrom]
    split
    · exact nofun
    · split
      · exact closes_alternativeTurn _ _ _ _
      · exact nofun
  | running initial best i s => exact closes_alternativeTurn initial best i _
  | measuring initial best i e =>
    simp only [choice, chooseFrom]
    split
    · exact nofun
    · split
      · exact nofun
      · exact nofun
  | returning initial best i =>
    simp only [choice, chooseFrom]
    split
    · exact nofun
    · exact closes_alternativeTurn _ _ _ _
  | settling best =>
    simp only [choice, chooseFrom]
    split
    · exact nofun
    · exact nofun
  | ended => exact nofun

end Choice

/-! ## Repetitions -/

section Repetition

open Repeating

variable {p : Machine ι ν α}

/-- A repetition that has ended stays there. -/
theorem spent_repetition (min : Nat) (max : Option Nat) :
    (p.repetition min max).Spent .ended := by
  refine spent_of_invariant (m := p.repetition min max) (· = .ended) ?_ rfl
  rintro _ r rfl
  exact ⟨rfl, rfl⟩

/-- A repetition that completes has ended. -/
theorem closes_finish (done : List α) :
    (finish done : Turn (Repeating α σ) ι ν (List α)).Closes (· = .ended) := fun _ _ => rfl

/-- A repetition without room for a further run completes. -/
theorem closes_proceed (room last : Option Nat) (done : List α) :
    (proceed room last done : Turn (Repeating α σ) ι ν (List α)).Closes (· = .ended) := by
  unfold proceed
  split
  · exact closes_finish done
  · exact nofun

/-- After a run that must succeed it completes at most in what goes on behind it. -/
theorem closes_ofMandatory (left : Nat) (done : List α)
    {onward : List α → Turn (Repeating α σ) ι ν (List α)}
    (honward : ∀ done, (onward done).Closes (· = .ended)) (t : Turn σ ι ν α) :
    (ofMandatory left done onward t).Closes (· = .ended) := by
  unfold ofMandatory
  cases t.resumed with
  | suspend q => exact nofun
  | fail e => exact nofun
  | complete a => exact (honward _).after _

/-- Runs that start at once complete the repetition only at their end. -/
theorem closes_demand (room : Option Nat) (left : Nat) (done : List α) :
    (demand p room left done).Closes (· = .ended) := by
  induction left generalizing done with
  | zero => exact closes_proceed room none done
  | succ left ih => exact closes_ofMandatory left done ih p.start

/-- After an optional run the repetition completes if there is no room for a further one. -/
theorem closes_ofOptional (room : Option Nat) (checkpoint : Token) (done : List α)
    (t : Turn σ ι ν α) : (ofOptional room checkpoint done t).Closes (· = .ended) := by
  unfold ofOptional
  cases t.resumed with
  | suspend q => exact nofun
  | complete a => exact (closes_proceed _ _ _).after _
  | fail e =>
    by_cases he : e.isFatal
    · simp only [if_pos he]
      exact nofun
    · simp only [if_neg he]
      exact nofun

/-- A repetition completes when it has no room for a further run, when a run took nothing, or when
it is back from a run that failed, and has ended then. -/
theorem closes_repetition (min : Nat) (max : Option Nat) (S : (p.repetition min max).State)
    (r : Option (Response ι)) : ((p.repetition min max).resume S r).Closes (· = .ended) := by
  cases S with
  | start =>
    cases min with
    | zero => exact closes_proceed _ none []
    | succ left => exact closes_ofMandatory left [] (closes_demand _ left) _
  | mandatory left done s => exact closes_ofMandatory left done (closes_demand _ left) _
  | checking room last done =>
    simp only [repetition]
    split
    · exact nofun
    · split
      · exact closes_finish done
      · exact closes_ofOptional _ _ _ _
  | optional room checkpoint done s => exact closes_ofOptional room checkpoint done _
  | returning done =>
    simp only [repetition]
    split
    · exact nofun
    · exact closes_finish done
  | ended => exact nofun

end Repetition

/-! ## Lists -/

section Rewinding

/-- A machine that starts over is in its first state when it has completed. -/
theorem closes_rewinding (p : Machine ι ν α) (s : p.State) (r : Option (Response ι)) :
    (p.rewinding.resume s r).Closes (· = p.rewinding.init) := by
  show (rewindingTurn p (p.resume s r)).Closes _
  unfold rewindingTurn
  cases (p.resume s r).resumed with
  | suspend q => exact nofun
  | fail e => exact nofun
  | complete a => exact fun _ _ => rfl

variable (h : ∀ s r, (m.resume s r).Closes (· = m.init))

include h

/-- What follows an output is what a fresh computation does. -/
theorem replay_after_output {rs : List (Option (Response ι))} {r : Option (Response ι)} {a : ο}
    (completes : (m.resume (m.stateAfter m.init rs) r).resumed = .complete a)
    (qs : List (Option (Response ι))) :
    m.replay m.init (rs ++ r :: qs) = m.replay m.init (rs ++ [r]) ++ m.replay m.init qs := by
  have hinit : (m.resume (m.stateAfter m.init rs) r).state = m.init := h _ _ a completes
  rw [replay_append, replay_append, replay_cons, replay_cons, hinit, List.append_assoc]
  rfl

/-- If it puts out anything at all, it can be made to do so again. -/
theorem length_outputs_le_one_iff :
    (∀ rs, (m.outputs m.init rs).length ≤ 1) ↔ ∀ rs, m.outputs m.init rs = [] := by
  constructor
  · intro hone rs
    by_contra hsome
    obtain ⟨a, ha⟩ := List.exists_mem_of_ne_nil _ hsome
    obtain ⟨before, r, after, -, completes⟩ := exists_of_mem_outputs ha
    -- told once more what led to the output, the computation puts out again
    have hagain : m.outputs m.init (before ++ r :: (before ++ [r])) =
        m.outputs m.init (before ++ [r]) ++ m.outputs m.init (before ++ [r]) := by
      rw [outputs, replay_after_output h completes, List.filterMap_append]
      rfl
    have hlast : m.outputs m.init (before ++ [r]) = m.outputs m.init before ++ [a] := by
      rw [outputs_append, outputs_cons, completes]
      rfl
    have hlength := hone (before ++ r :: (before ++ [r]))
    rw [hagain, hlast] at hlength
    simp only [List.length_append, List.length_singleton] at hlength
    omega
  · intro hnone rs
    rw [hnone rs]
    exact Nat.zero_le 1

end Rewinding

/-! ## Pairs, choices, repetitions and lists -/

/-- Resumed with whatever answers and as often as one likes, a pair, a choice and a repetition put
out one thing at most.  A list starts over: behind the turn in which it completes its turns are
those of a fresh computation, so that it puts out one thing at most only if it cannot complete at
all. -/
theorem completes_once_or_starts_over (p : Machine ι ν α) (q : Machine ι ν β)
    (ps : List (Machine ι ν α)) (min : Nat) (max : Option Nat) :
    (∀ rs, ((p.pair q).outputs (p.pair q).init rs).length ≤ 1) ∧
    (∀ rs, ((choice ps).outputs (choice ps).init rs).length ≤ 1) ∧
    (∀ rs, ((p.repetition min max).outputs (p.repetition min max).init rs).length ≤ 1) ∧
    (∀ rs r a, ((all ps).resume ((all ps).stateAfter (all ps).init rs) r).resumed = .complete a →
      ∀ qs, (all ps).replay (all ps).init (rs ++ r :: qs) =
        (all ps).replay (all ps).init (rs ++ [r]) ++ (all ps).replay (all ps).init qs) ∧
    ((∀ rs, ((all ps).outputs (all ps).init rs).length ≤ 1) ↔
      ∀ rs, (all ps).outputs (all ps).init rs = []) := by
  have hchoice : ∀ s r, ((choice ps).resume s r).Closes (choice ps).Spent := by
    intro s r a completes
    rw [closes_choice s r a completes]
    exact spent_choice
  have hrepetition : ∀ s r,
      ((p.repetition min max).resume s r).Closes (p.repetition min max).Spent := by
    intro s r a completes
    rw [closes_repetition min max s r a completes]
    exact spent_repetition min max
  have hall : ∀ s r, ((all ps).resume s r).Closes (· = (all ps).init) :=
    closes_rewinding (ps.foldr cons nil)
  refine ⟨?_, ?_, ?_, ?_, ?_⟩
  · exact length_outputs_le_one closes_pair _
  · exact length_outputs_le_one hchoice _
  · exact length_outputs_le_one hrepetition _
  · intro rs r a completes qs
    exact replay_after_output hall completes qs
  · exact length_outputs_le_one_iff hall

/-- A letter. -/
def oneLetter : Machine Char Unit Char := satisfy "a" (· == 'a')

/-- A list of one letter that has completed reads the letter again. -/
theorem letter_list_starts_over :
    let m := all [oneLetter]
    let x : Option (Response Char) := some (.item 'a')
    (m.resume (m.stateAfter m.init [none, x]) x).resumed = .complete ['a'] ∧
      m.replay m.init ([none, x] ++ x :: [none, x, x]) =
        m.replay m.init ([none, x] ++ [x]) ++ m.replay m.init [none, x, x] := by
  intro m x
  have completes : (m.resume (m.stateAfter m.init [none, x]) x).resumed = .complete ['a'] := rfl
  obtain ⟨-, -, -, hagain, -⟩ :=
    completes_once_or_starts_over oneLetter oneLetter [oneLetter] 0 none
  exact ⟨completes, hagain [none, x] x ['a'] completes [none, x, x]⟩

/-- It puts out a second time, although it has put out before. -/
theorem letter_list_completes_twice :
    let x : Option (Response Char) := some (.item 'a')
    let outputs := (all [oneLetter]).outputs (all [oneLetter]).init [none, x, x, none, x, x]
    outputs = [['a'], ['a']] ∧ ¬ outputs.length ≤ 1 :=
  ⟨rfl, by decide⟩

end Machine

end ResumableParsing

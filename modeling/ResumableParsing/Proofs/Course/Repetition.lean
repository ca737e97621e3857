/-
# What a repetition comes to

The machine that is repeated may be any machine, also one that returns to places before the one
where the repetition began.  Its runs follow one another, each from where the one before it ended.
`Rounds` are runs that complete; they leave it open what the repetition comes to (`Undecided`) until
a run fails, there is no more room, or, where room is unlimited, an optional run has taken nothing.
-/
import ResumableParsing.Proofs.Course.Basic
import ResumableParsing.Proofs.Descent.Repetition

namespace ResumableParsing

variable {ι ν α : Type}

/-! ## Rounds -/

/-- A run that completed: where it began, what it put out, and where it ended. -/
structure Round (α : Type) where
  /-- The place where the run began. -/
  start : Nat
  /-- What the run put out. -/
  output : α
  /-- The place where the run ended. -/
  stop : Nat

/-- After the rounds a repetition is not yet at its end: there is room for another one, or, where
room is unlimited, no optional run has taken nothing. -/
def Undecided (min : Nat) : Option Nat → List (Round α) → Prop
  | some max, rounds => rounds.length < Nat.max max min
  | none, rounds => ∀ r ∈ rounds.drop min, r.start ≠ r.stop

/-- What is undecided was undecided before. -/
theorem Undecided.earlier {min : Nat} {max : Option Nat} {rounds earlier : List (Round α)}
    (h : Undecided min max rounds) (hearlier : earlier <+: rounds) : Undecided min max earlier := by
  cases max with
  | some max => exact Nat.lt_of_le_of_lt hearlier.length_le h
  | none =>
    intro r hr
    obtain ⟨later, rfl⟩ := hearlier
    refine h r ?_
    rw [List.drop_append]
    exact List.mem_append_left _ hr

namespace Machine

/-- The machine runs from the place, then from where it ended, and so on, and all runs complete: the
rounds, what was noted, and the place where the last of them ended. -/
inductive Rounds (p : Machine ι ν α) (w : Setting ι) :
    Nat → List (Round α) → List ν → Nat → Prop
  /-- Nothing is run. -/
  | nil {c : Nat} : p.Rounds w c [] [] c
  /-- The first run completes, and so do those behind it. -/
  | cons {c k n : Nat} {a : α} {rounds : List (Round α)} {notes noted : List ν}
      (run : p.Runs w c notes (.ok a) k) (rest : p.Rounds w k rounds noted n) :
      p.Rounds w c (⟨c, a, k⟩ :: rounds) (notes ++ noted) n

open Repeating

variable {w : Setting ι} {p : Machine ι ν α} {min : Nat} {max : Option Nat} {c k n : Nat}
  {res : Except (Failure ι) (List α)}

/-- Rounds end within the session. -/
theorem Rounds.within {rounds : List (Round α)} {noted : List ν} (h : p.Rounds w c rounds noted n)
    (hc : w.Within c) : w.Within n := by
  induction h with
  | nil => exact hc
  | cons run _ ih => exact ih (run.within hc)

/-- The last of the rounds ended where they all end. -/
theorem Rounds.stop {rounds : List (Round α)} {noted : List ν} (h : p.Rounds w c rounds noted n) :
    ∀ r ∈ rounds.getLast?, r.stop = n := by
  induction h with
  | nil => nofun
  | cons run rest ih =>
    cases rest with
    | nil => simp
    | cons run' rest' =>
      rw [List.getLast?_cons_cons]
      exact ih

/-! ## The turns of a run -/

variable {a : α} {f : Failure ι} {done : List α} {left : Nat} {room : Option Nat}
  {notes notes' : List ν}

/-- A run that must succeed and does is followed by the next. -/
theorem Runs.mandatory (run : p.Runs w c notes (.ok a) k)
    (onward : (p.repetition min max).Course w (demand p (max.map (· - min)) left (a :: done)) k
      notes' res n) :
    (p.repetition min max).Course w (demand p (max.map (· - min)) (left + 1) done) c
      (notes ++ notes') res n := by
  refine Course.phase (m := p.repetition min max) (ofMandatory_suspends p min max left done) run
    fun t ht => ?_
  unfold ofMandatory
  rw [ht]
  exact onward.after t.notes

/-- A run that must succeed and fails is the end. -/
theorem Runs.mandatory_failed (run : p.Runs w c notes (.error f) k) :
    (p.repetition min max).Course w (demand p (max.map (· - min)) (left + 1) done) c notes
      (.error f) k := by
  rw [← List.append_nil notes]
  refine Course.phase (m := p.repetition min max) (ofMandatory_suspends p min max left done) run
    fun t ht => ?_
  unfold ofMandatory
  rw [ht, List.append_nil]
  exact .fail rfl

/-- An optional run that completes may be followed by another. -/
theorem Runs.optional (run : p.Runs w c notes (.ok a) k)
    (onward : (p.repetition min max).Course w (proceed (room.map (· - 1)) (some c) (a :: done)) k
      notes' res n) :
    (p.repetition min max).Course w (ofOptional room ⟨w.session, c⟩ done p.start) c
      (notes ++ notes') res n := by
  refine Course.phase (m := p.repetition min max) (ofOptional_suspends p min max room _ done) run
    fun t ht => ?_
  unfold ofOptional
  rw [ht]
  exact onward.after t.notes

/-- An optional run that fails fatally is the end. -/
theorem Runs.optional_fatal (run : p.Runs w c notes (.error f) k) (hf : f.isFatal = true) :
    (p.repetition min max).Course w (ofOptional room ⟨w.session, c⟩ done p.start) c notes
      (.error f) k := by
  rw [← List.append_nil notes]
  refine Course.phase (m := p.repetition min max) (ofOptional_suspends p min max room _ done) run
    fun t ht => ?_
  unfold ofOptional
  rw [ht, List.append_nil]
  simp only [Resumed.ofResult, hf, if_true]
  exact .fail rfl

/-- An optional run that fails recoverably is undone. -/
theorem Runs.optional_undone (run : p.Runs w c notes (.error f) k) (hf : f.isFatal = false)
    (hc : w.Within c) :
    (p.repetition min max).Course w (ofOptional room ⟨w.session, c⟩ done p.start) c notes
      (.ok done.reverse) c := by
  rw [← List.append_nil notes]
  refine Course.phase (m := p.repetition min max) (ofOptional_suspends p min max room _ done) run
    fun t ht => ?_
  unfold ofOptional
  rw [ht]
  simp only [Resumed.ofResult, hf]
  exact .answer rfl (Setting.respond_rollback hc k) (.complete rfl)

/-! ## After some rounds -/

variable {rounds : List (Round α)} {noted : List ν}

/-- The turn in which the rounds are over and the next run is about to be made, if any. -/
def nextTurn (p : Machine ι ν α) (min : Nat) (max : Option Nat) (rounds : List (Round α)) :
    Turn (Repeating α p.State) ι ν (List α) :=
  let done := (rounds.map Round.output).reverse
  if rounds.length < min then demand p (max.map (· - min)) (min - rounds.length) done
  else proceed (max.map (· - rounds.length)) ((rounds.drop min).getLast?.map Round.start) done

theorem nextTurn_of_lt (h : rounds.length < min) :
    nextTurn p min max rounds = demand p (max.map (· - min)) (min - (rounds.length + 1) + 1)
      (rounds.map Round.output).reverse := by
  rw [nextTurn, if_pos h]
  congr 1
  omega

theorem nextTurn_of_le (h : min ≤ rounds.length) :
    nextTurn p min max rounds = proceed (max.map (· - rounds.length))
      ((rounds.drop min).getLast?.map Round.start) (rounds.map Round.output).reverse :=
  if_neg (Nat.not_lt_of_le h)

/-- After a round that must succeed, what is left of them is demanded. -/
theorem nextTurn_concat_of_lt (h : rounds.length < min) (r : Round α) :
    nextTurn p min max (rounds ++ [r]) = demand p (max.map (· - min)) (min - (rounds.length + 1))
      (r.output :: (rounds.map Round.output).reverse) := by
  have hlength : (rounds ++ [r]).length = rounds.length + 1 := List.length_append
  have hdone : ((rounds ++ [r]).map Round.output).reverse =
      r.output :: (rounds.map Round.output).reverse := by
    rw [List.map_append, List.reverse_append]
    rfl
  rw [nextTurn, hdone, hlength]
  by_cases hlast : rounds.length + 1 < min
  · rw [if_pos hlast]
  · -- this was the last of them, and optional runs follow
    obtain rfl : min = rounds.length + 1 := by omega
    rw [if_neg hlast, List.drop_eq_nil_of_le (Nat.le_of_eq hlength), Nat.sub_self]
    rfl

/-- After an optional round there is room for one less. -/
theorem nextTurn_concat_of_le (h : min ≤ rounds.length) (r : Round α) :
    nextTurn p min max (rounds ++ [r]) = proceed ((max.map (· - rounds.length)).map (· - 1))
      (some r.start) (r.output :: (rounds.map Round.output).reverse) := by
  have hlength : (rounds ++ [r]).length = rounds.length + 1 := List.length_append
  rw [nextTurn_of_le (by omega), List.drop_append_of_le_length h, List.getLast?_concat, hlength,
    Option.map_map, List.map_append, List.reverse_append]
  rfl

/-- As long as it is undecided what the repetition comes to, an optional run is made. -/
theorem Course.attempt (hund : Undecided min max rounds) (hmin : min ≤ rounds.length)
    (hstop : ∀ r ∈ rounds.getLast?, r.stop = c)
    (h : (p.repetition min max).Course w (ofOptional (max.map (· - rounds.length)) ⟨w.session, c⟩
      (rounds.map Round.output).reverse p.start) c notes res n) :
    (p.repetition min max).Course w (nextTurn p min max rounds) c notes res n := by
  have hroom : max.map (· - rounds.length) ≠ some 0 := by
    cases max with
    | none => nofun
    | some max =>
      have hlt : rounds.length < Max.max max min := hund
      rw [Option.map_some]
      intro h
      have := Option.some.inj h
      omega
  -- the last optional run has taken something, so this one does not begin where that one began
  have hlast : ¬ (max.map (· - rounds.length) = none ∧
      (rounds.drop min).getLast?.map Round.start = some c) := by
    rintro ⟨hnone, hlast⟩
    obtain rfl : max = none := Option.map_eq_none_iff.mp hnone
    obtain ⟨r, hr, rfl⟩ := Option.map_eq_some_iff.mp hlast
    have hmoved : r.start ≠ r.stop := hund r (List.mem_of_getLast? hr)
    rw [List.getLast?_drop] at hr
    split at hr
    · cases hr
    · exact hmoved (hstop r hr).symm
  rw [nextTurn_of_le hmin, proceed, if_neg hroom]
  refine .silent rfl rfl (Setting.respond_snapshot w c) ?_
  rw [resume_checking, if_neg hlast]
  exact h

/-- A round leads to the next turn. -/
theorem Runs.round (run : p.Runs w c notes (.ok a) k) (hund : Undecided min max rounds)
    (hstop : ∀ r ∈ rounds.getLast?, r.stop = c)
    (onward : (p.repetition min max).Course w (nextTurn p min max (rounds ++ [⟨c, a, k⟩])) k notes'
      res n) :
    (p.repetition min max).Course w (nextTurn p min max rounds) c (notes ++ notes') res n := by
  rcases Nat.lt_or_ge rounds.length min with hlt | hge
  · rw [nextTurn_concat_of_lt hlt] at onward
    rw [nextTurn_of_lt hlt]
    exact run.mandatory onward
  · rw [nextTurn_concat_of_le hge] at onward
    exact .attempt hund hge hstop (run.optional onward)

/-- Rounds lead to the next turn, if it is undecided before each of them what the repetition comes
to. -/
theorem Rounds.onward (h : p.Rounds w k rounds noted n) {earlier : List (Round α)}
    (hstop : ∀ r ∈ earlier.getLast?, r.stop = k)
    (hund : ∀ rs, rs <+: rounds → rs ≠ rounds → Undecided min max (earlier ++ rs)) {e : Nat}
    (hcourse : (p.repetition min max).Course w (nextTurn p min max (earlier ++ rounds)) n notes
      res e) :
    (p.repetition min max).Course w (nextTurn p min max earlier) k (noted ++ notes) res e := by
  induction h generalizing earlier with
  | nil => rwa [List.append_nil] at hcourse
  | @cons c k n a rounds notes noted run _ ih =>
    have hearlier : Undecided min max earlier := by
      have := hund [] List.nil_prefix (List.cons_ne_nil _ _).symm
      rwa [List.append_nil] at this
    rw [List.append_assoc]
    refine run.round hearlier hstop (ih (by simp) (fun rs hrs hne => ?_) ?_)
    · rw [List.append_assoc]
      exact hund (_ :: rs) (List.cons_prefix_cons.mpr ⟨rfl, hrs⟩) (by simpa using hne)
    · rwa [List.append_assoc]

/-- Rounds lead from the beginning to the next turn. -/
theorem Rounds.leads (h : p.Rounds w c rounds noted k)
    (hund : ∀ rs, rs <+: rounds → rs ≠ rounds → Undecided min max rs)
    (hcourse : (p.repetition min max).Course w (nextTurn p min max rounds) k notes res n) :
    (p.repetition min max).Runs w c (noted ++ notes) res n := by
  have hstart : (p.repetition min max).start = nextTurn p min max [] := by
    cases min with
    | zero => rfl
    | succ left => rfl
  rw [Runs, hstart]
  exact h.onward (by simp) hund hcourse

/-- Where there is no more room, the repetition completes at once. -/
theorem Course.no_room {bound : Nat} (hlength : rounds.length = Nat.max bound min) :
    (p.repetition min (some bound)).Course w (nextTurn p min (some bound) rounds) c []
      (.ok (rounds.map Round.output)) c := by
  have hbound : rounds.length = Max.max bound min := hlength
  have hfinish : (p.repetition min (some bound)).Course w
      (finish (rounds.map Round.output).reverse) c []
      (.ok (rounds.map Round.output).reverse.reverse) c := .complete rfl
  rw [List.reverse_reverse] at hfinish
  rw [nextTurn_of_le (by omega), Option.map_some, Nat.sub_eq_zero_of_le (by omega), proceed,
    if_pos rfl]
  exact hfinish

/-- Where room is unlimited, the repetition completes after an optional run that took nothing. -/
theorem Course.still {r : Round α} (hmin : min ≤ rounds.length) (hstill : r.start = c) :
    (p.repetition min none).Course w (nextTurn p min none (rounds ++ [r])) c []
      (.ok ((rounds ++ [r]).map Round.output)) c := by
  rw [nextTurn_concat_of_le hmin, proceed, if_neg (by simp)]
  refine .silent rfl rfl (Setting.respond_snapshot w c) ?_
  have hdone : (rounds ++ [r]).map Round.output =
      (r.output :: (rounds.map Round.output).reverse).reverse := by simp
  rw [resume_checking, if_pos ⟨rfl, congrArg some hstill⟩, hdone]
  exact .complete rfl

/-- A repetition of any machine, started anywhere in a session; a bound below the number of runs
that must succeed stands for that number.  Runs that complete, each where the one before it ended,
are made as long as it is undecided what the repetition comes to.  If the next run then fails, and
had to succeed or fails fatally, so does the repetition, with the same failure and at the same
place; if it fails recoverably, the repetition completes with the outputs, at the end of the last
run that completed.  When there is no more room, or when without a bound an optional run took
nothing, the repetition completes with the outputs and makes no other run: nothing was noted but by
the runs. -/
theorem repetition_outcome (hc : w.Within c) (p : Machine ι ν α) (min : Nat) (max : Option Nat) :
    (∀ rounds noted k, p.Rounds w c rounds noted k →
      (Undecided min max rounds → ∀ f notes e, p.Runs w k notes (.error f) e →
        (rounds.length < min ∨ f.isFatal = true → ∀ notes' res n,
          (p.repetition min max).Runs w c notes' res n ↔
            notes' = noted ++ notes ∧ res = .error f ∧ n = e) ∧
        (min ≤ rounds.length → f.isFatal = false → ∀ notes' res n,
          (p.repetition min max).Runs w c notes' res n ↔
            notes' = noted ++ notes ∧ res = .ok (rounds.map Round.output) ∧ n = k)) ∧
      ((∃ bound, max = some bound ∧ rounds.length = Nat.max bound min) → ∀ notes' res n,
        (p.repetition min max).Runs w c notes' res n ↔
          notes' = noted ∧ res = .ok (rounds.map Round.output) ∧ n = k) ∧
      (max = none → ∀ earlier r, rounds = earlier ++ [r] → min ≤ earlier.length →
        Undecided min none earlier → r.start = r.stop → ∀ notes' res n,
          (p.repetition min max).Runs w c notes' res n ↔
            notes' = noted ∧ res = .ok (rounds.map Round.output) ∧ n = k)) ∧
    ∀ res n, (Session.begun (p.repetition min max) w.session w.start c).Ends
        (.of w.items w.start) w.ended res n ↔
      ∃ notes, (p.repetition min max).Runs w c notes res n := by
  refine ⟨fun rounds noted k h => ⟨fun hund f notes e run => ?_, ?_, ?_⟩,
    fun _ _ => Session.ends_begun_iff_runs hc⟩
  · have hleads {notes : List ν} {res : Except (Failure ι) (List α)} {n : Nat}
        (hcourse : (p.repetition min max).Course w (nextTurn p min max rounds) k notes res n) :
        (p.repetition min max).Runs w c (noted ++ notes) res n :=
      h.leads (fun _ hrs _ => hund.earlier hrs) hcourse
    refine ⟨fun hends _ _ _ => Course.iff (hleads ?_), fun hmin hf _ _ _ => Course.iff (hleads ?_)⟩
    · rcases Nat.lt_or_ge rounds.length min with hlt | hge
      · rw [nextTurn_of_lt hlt]
        exact run.mandatory_failed
      · have hf : f.isFatal = true := hends.resolve_left (Nat.not_lt_of_le hge)
        exact .attempt hund hge h.stop (run.optional_fatal hf)
    · rw [← List.reverse_reverse (rounds.map Round.output)]
      exact .attempt hund hmin h.stop (run.optional_undone hf (h.within hc))
  · rintro ⟨bound, rfl, hlength⟩ _ _ _
    have hund : ∀ rs, rs <+: rounds → rs ≠ rounds → Undecided min (some bound) rs := by
      intro rs hrs hne
      have hlt : rs.length < rounds.length :=
        Nat.lt_of_le_of_ne hrs.length_le fun heq => hne (hrs.eq_of_length heq)
      rw [Undecided, ← hlength]
      exact hlt
    rw [← List.append_nil noted]
    exact Course.iff (h.leads hund (.no_room hlength))
  · rintro rfl earlier r rfl hmin hund hstill _ _ _
    have hund' : ∀ rs, rs <+: earlier ++ [r] → rs ≠ earlier ++ [r] → Undecided min none rs :=
      fun rs hrs hne => hund.earlier ((List.prefix_concat_iff.mp hrs).resolve_left hne)
    have hk : r.start = k := hstill.trans (h.stop r (by simp))
    rw [← List.append_nil noted]
    exact Course.iff (h.leads hund' (.still hmin hk))

/-- Two pairs of letters are read, and the first letter of a third is given back. -/
theorem repetition_of_pairs :
    let w : Setting Char := ⟨['a', 'b', 'a', 'b', 'a'], true, 0, 0⟩
    let p : Machine Char Nat (Char × Char) :=
      ((satisfy "a" (· == 'a')).pair (satisfy "b" (· == 'b'))).tap fun _ _ => 0
    w.Within 0 ∧ ∀ notes res n, (p.repetition 1 none).Runs w 0 notes res n ↔
      notes = List.replicate 14 0 ∧ res = .ok [('a', 'b'), ('a', 'b')] ∧ n = 4 := by
  intro w p
  have hw : w.Within 0 := ⟨Nat.le_refl _, Nat.zero_le _⟩
  have hfirst : p.Runs w 0 [0, 0, 0, 0, 0] (.ok ('a', 'b')) 2 :=
    .answer rfl rfl (.answer rfl rfl (.answer rfl rfl (.answer rfl rfl (.complete rfl))))
  have hsecond : p.Runs w 2 [0, 0, 0, 0, 0] (.ok ('a', 'b')) 4 :=
    .answer rfl rfl (.answer rfl rfl (.answer rfl rfl (.answer rfl rfl (.complete rfl))))
  have hthird : p.Runs w 4 [0, 0, 0, 0] (.error (.endOfInput "b")) 5 :=
    .answer rfl rfl (.answer rfl rfl (.answer rfl rfl (.fail rfl)))
  have hrounds : p.Rounds w 0 _ _ 4 := .cons hfirst (.cons hsecond .nil)
  have hmoved : Undecided 1 none [Round.mk 0 ('a', 'b') 2, Round.mk 2 ('a', 'b') 4] := by
    simp [Undecided]
  obtain ⟨-, hundone⟩ := ((repetition_outcome hw p 1 none).1 _ _ _ hrounds).1 hmoved _ _ _ hthird
  exact ⟨hw, hundone (by decide) rfl⟩

end Machine

end ResumableParsing

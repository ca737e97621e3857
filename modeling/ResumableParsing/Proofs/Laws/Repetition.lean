/-
# Repetition as a sequence

The runs of a repetition that must succeed are a list of the same machine, and the optional runs are
a repetition behind that list.  Both follow from one law, which takes the first run off
(`repetition_succ`): a repetition that begins with a run that must succeed is that run, followed by
the repetition that demands one run less and puts the first output before its own.

The two sides of that law run the same machine at every moment.  They differ in the outputs that
they have gathered: on the left the first output is at the end of them, since the last one comes
first.
-/
import ResumableParsing.Proofs.Descent.Repetition
import ResumableParsing.Proofs.Laws.Algebra

namespace ResumableParsing

variable {ι ν α β γ σ : Type}

/-- A turn whose output is changed. -/
def Turn.mapOutput (f : α → β) (t : Turn σ ι ν α) : Turn σ ι ν β :=
  ⟨t.state, Machine.mapOutput f t.resumed, t.notes⟩

namespace Machine

/-! ## Sequences -/

/-- A change of the last output belongs to the last machine. -/
theorem bind_map (p : Machine ι ν α) (f : α → Machine ι ν β) (g : β → γ) :
    ((p.bind f).map g).Equivalent (p.bind fun a => (f a).map g) :=
  (map_equivalent _ g).trans
    ((bind_assoc p f _).trans (Equivalent.bind (.refl p) fun a => (map_equivalent (f a) g).symm))

/-- What follows a sequence may be put for something equivalent. -/
theorem inOrder_congr {g h : List α → Machine ι ν β} (hgh : ∀ as, (g as).Equivalent (h as))
    (ps : List (Machine ι ν α)) : (inOrder ps g).Equivalent (inOrder ps h) := by
  induction ps generalizing g h with
  | nil => exact hgh []
  | cons p ps ih => exact Equivalent.bind (.refl p) fun a => ih fun as => hgh (a :: as)

/-- To change the output of a sequence is to change that of its last machine. -/
theorem inOrder_map (ps : List (Machine ι ν α)) (g : List α → Machine ι ν β) (f : β → γ) :
    ((inOrder ps g).map f).Equivalent (inOrder ps fun as => (g as).map f) := by
  induction ps generalizing g with
  | nil => exact .refl _
  | cons p ps ih => exact (bind_map p _ f).trans (Equivalent.bind (.refl p) fun a => ih _)

/-! ## One output before the others -/

namespace Repeating

/-- Two repetitions have come equally far, and the first has put out one output before all
others. -/
inductive Behind (a : α) : Repeating α σ → Repeating α σ → Prop
  /-- A run that must succeed is under way in both. -/
  | mandatory (left : Nat) (done : List α) (s : σ) :
      Behind a (.mandatory left (done ++ [a]) s) (.mandatory left done s)
  /-- Both wait for the token before an optional run. -/
  | checking (room last : Option Nat) (done : List α) :
      Behind a (.checking room last (done ++ [a])) (.checking room last done)
  /-- An optional run is under way in both. -/
  | optional (room : Option Nat) (checkpoint : Token) (done : List α) (s : σ) :
      Behind a (.optional room checkpoint (done ++ [a]) s) (.optional room checkpoint done s)
  /-- Both wait to be back where a failed run began. -/
  | returning (done : List α) : Behind a (.returning (done ++ [a])) (.returning done)

/-- The turns differ by one output that is put out before all others. -/
def AgreeBehind (a : α) (t t' : Turn (Repeating α σ) ι ν (List α)) : Prop :=
  t.Agree (Behind a) (t'.mapOutput (a :: ·))

variable {a : α}

theorem AgreeBehind.after {t t' : Turn (Repeating α σ) ι ν (List α)} (h : AgreeBehind a t t')
    (notes : List ν) : AgreeBehind a (t.after notes) (t'.after notes) :=
  Turn.Agree.after h notes

/-- The gathered output stands before all others. -/
theorem agree_finish (done : List α) :
    AgreeBehind a (finish (done ++ [a]) : Turn (Repeating α σ) ι ν (List α)) (finish done) := by
  have houtput : (done ++ [a]).reverse = a :: done.reverse := by simp
  refine ⟨?_, rfl, nofun⟩
  show Resumed.complete (done ++ [a]).reverse = .complete (a :: done.reverse)
  rw [houtput]

theorem agree_stop (e : Failure ι) :
    AgreeBehind a (stop e : Turn (Repeating α σ) ι ν (List α)) (stop e) :=
  ⟨rfl, rfl, nofun⟩

/-- Whether there is room for a further run does not depend on what was gathered. -/
theorem agree_proceed (room last : Option Nat) (done : List α) :
    AgreeBehind a (proceed room last (done ++ [a]) : Turn (Repeating α σ) ι ν (List α))
      (proceed room last done) := by
  unfold proceed
  split
  · exact agree_finish done
  · exact ⟨rfl, rfl, fun _ _ => .checking room last done⟩

/-- What a run that must succeed comes to does not depend on what was gathered. -/
theorem agree_ofMandatory (left : Nat) (done : List α)
    {onward : List α → Turn (Repeating α σ) ι ν (List α)}
    (honward : ∀ done, AgreeBehind a (onward (done ++ [a])) (onward done)) (t : Turn σ ι ν α) :
    AgreeBehind a (ofMandatory left (done ++ [a]) onward t) (ofMandatory left done onward t) := by
  obtain ⟨s, q | b | e, notes⟩ := t
  · exact ⟨rfl, rfl, fun _ _ => .mandatory left done s⟩
  · exact (honward (b :: done)).after notes
  · exact ⟨rfl, rfl, nofun⟩

/-- What runs that start at once come to does not depend on what was gathered. -/
theorem agree_demand (p : Machine ι ν α) (room : Option Nat) (left : Nat) (done : List α) :
    AgreeBehind a (demand p room left (done ++ [a])) (demand p room left done) := by
  induction left generalizing done with
  | zero => exact agree_proceed room none done
  | succ left ih => exact agree_ofMandatory left done ih p.start

/-- What an optional run comes to does not depend on what was gathered. -/
theorem agree_ofOptional (room : Option Nat) (checkpoint : Token) (done : List α)
    (t : Turn σ ι ν α) :
    AgreeBehind a (ofOptional room checkpoint (done ++ [a]) t)
      (ofOptional room checkpoint done t) := by
  obtain ⟨s, q | b | e, notes⟩ := t
  · exact ⟨rfl, rfl, fun _ _ => .optional room checkpoint done s⟩
  · exact (agree_proceed _ _ (b :: done)).after notes
  · -- the failure of an optional run is not put out, but decides what is asked next
    unfold ofOptional
    by_cases he : e.isFatal
    · simp only [if_pos he]
      exact ⟨rfl, rfl, nofun⟩
    · simp only [if_neg he]
      exact ⟨rfl, rfl, fun _ _ => .returning done⟩

end Repeating

open Repeating

variable {p : Machine ι ν α} {min min' : Nat} {max max' : Option Nat}

/-- Repetitions with the same room for optional runs go on alike, whatever they are told. -/
theorem Repeating.Behind.resume (hroom : max.map (· - min) = max'.map (· - min')) {a : α}
    {s s' : Repeating α p.State} (h : Behind a s s') (r : Option (Response ι)) :
    AgreeBehind a ((p.repetition min max).resume s r) ((p.repetition min' max').resume s' r) := by
  cases h with
  | mandatory left done s =>
    show AgreeBehind a (ofMandatory left (done ++ [a]) (demand p (max.map (· - min)) left) _)
      (ofMandatory left done (demand p (max'.map (· - min')) left) _)
    rw [hroom]
    exact agree_ofMandatory left done (agree_demand p _ left) _
  | checking room last done =>
    simp only [repetition]
    cases (expectToken r : Except (Failure ι) Token) with
    | error e => exact agree_stop e
    | ok checkpoint =>
      by_cases hstill : room = none ∧ last = some checkpoint.offset
      · simp only [if_pos hstill]
        exact agree_finish done
      · simp only [if_neg hstill]
        exact agree_ofOptional room checkpoint done p.start
  | optional room checkpoint done s => exact agree_ofOptional room checkpoint done _
  | returning done =>
    simp only [repetition]
    cases (expectToken r : Except (Failure ι) Token) with
    | error e => exact agree_stop e
    | ok _ => exact agree_finish done

/-! ## The first run -/

/-- A repetition begins with the runs that must succeed. -/
theorem repetition_start (p : Machine ι ν α) (min : Nat) (max : Option Nat) :
    (p.repetition min max).start = demand p (max.map (· - min)) min [] := by
  cases min with
  | zero => rfl
  | succ left => rfl

/-- To demand one run less leaves one place less. -/
theorem room_succ (min : Nat) (max : Option Nat) :
    (max.map (· - 1)).map (· - min) = max.map (· - (min + 1)) := by
  rw [Option.map_map]
  refine congrArg (fun f => max.map f) (funext fun bound => ?_)
  show bound - 1 - min = bound - (min + 1)
  omega

/-- A repetition and a sequence of a run and a repetition run the same machine. -/
inductive Unrolled (p : Machine ι ν α) (min min' : Nat) (max max' : Option Nat) :
    (p.repetition min max).State → p.State ⊕ (_ : α) × (p.repetition min' max').State → Prop
  /-- The first run is under way. -/
  | first (s : p.State) : Unrolled p min min' max max' (.mandatory min' [] s) (.inl s)
  /-- The first run has completed. -/
  | behind {a : α} {s s' : Repeating α p.State} (h : Behind a s s') :
      Unrolled p min min' max max' s (.inr ⟨a, s'⟩)

/-- A repetition that must succeed is a run and then the repetition that demands one run less. -/
theorem repetition_succ (p : Machine ι ν α) (min : Nat) (max : Option Nat) :
    (p.repetition (min + 1) max).Equivalent
      (p.bind fun a => (p.repetition min (max.map (· - 1))).map (a :: ·)) := by
  let next (a : α) : Machine ι ν (List α) := (p.repetition min (max.map (· - 1))).map (a :: ·)
  have hroom : max.map (· - (min + 1)) = (max.map (· - 1)).map (· - min) := (room_succ min max).symm
  -- the turn in which the first run ends is that in which the second machine starts
  have hfirst (t : Turn p.State ι ν α) :
      (ofMandatory min [] (demand p (max.map (· - (min + 1))) min) t).Agree
        (Unrolled p (min + 1) min max (max.map (· - 1))) (relayTurn p .start .fail next t) := by
    obtain ⟨s, q | a | e, notes⟩ := t
    · exact ⟨rfl, rfl, fun _ _ => .first s⟩
    · have hrest : AgreeBehind a (demand p (max.map (· - (min + 1))) min ([] ++ [a]))
          (p.repetition min (max.map (· - 1))).start := by
        rw [repetition_start, hroom]
        exact agree_demand p _ min []
      have hafter := hrest.after notes
      exact ⟨hafter.resumed, hafter.notes, fun q hq => .behind (hafter.states q hq)⟩
    · exact ⟨rfl, rfl, nofun⟩
  have hbisim : IsBisimulation (p.repetition (min + 1) max) (p.bind next)
      (Unrolled p (min + 1) min max (max.map (· - 1))) := by
    intro s s' r hs
    cases hs with
    | first s => exact hfirst _
    | behind h =>
      have hturn := h.resume hroom r
      exact ⟨hturn.resumed, hturn.notes, fun q hq => .behind (hturn.states q hq)⟩
  exact hbisim.equivalent (hfirst _)

/-! ## The runs that must succeed -/

/-- The runs that must succeed come in order, and behind them the repetition that demands none. -/
theorem repetition_inOrder (p : Machine ι ν α) (min : Nat) (max : Option Nat) :
    (p.repetition min max).Equivalent (inOrder (List.replicate min p) fun as =>
      (p.repetition 0 (max.map (· - min))).map (as ++ ·)) := by
  induction min generalizing max with
  | zero =>
    have hsame : (p.repetition 0 (max.map (· - 0))).map ([] ++ ·) = p.repetition 0 max := by
      have hmax : max.map (· - 0) = max := Option.map_id'
      rw [hmax]
      exact map_id _
    exact .of_eq hsame.symm
  | succ min ih =>
    refine (repetition_succ p min max).trans (Equivalent.bind (.refl p) fun a => ?_)
    have hrest (as : List α) :
        ((p.repetition 0 ((max.map (· - 1)).map (· - min))).map (as ++ ·)).map (a :: ·) =
          (p.repetition 0 (max.map (· - (min + 1)))).map (a :: as ++ ·) := by
      rw [room_succ]
      exact map_map _ _ _
    refine ((ih (max.map (· - 1))).map (a :: ·)).trans ((inOrder_map _ _ _).trans ?_)
    exact inOrder_congr (fun as => .of_eq (hrest as)) _

/-- Without room for optional runs nothing is done. -/
theorem repetition_zero_zero (p : Machine ι ν α) :
    (p.repetition 0 (some 0)).Equivalent (pure []) :=
  equivalent_of_result (x := .ok []) rfl rfl rfl

/-- A repetition of any machine is the list of the runs that must succeed, and behind it the
repetition with the room that is left; the outputs of both are put together.  If there is no room
for optional runs, it is the list alone.  Before they end, nobody can tell the two sides apart,
whatever they are answered. -/
theorem repetition_decomposes (p : Machine ι ν α) (min : Nat) (max : Option Nat) :
    (p.repetition min (some min)).Equivalent (all (List.replicate min p)) ∧
      (p.repetition min max).Equivalent ((all (List.replicate min p)).bind fun as =>
        (p.repetition 0 (max.map (· - min))).map (as ++ ·)) := by
  refine ⟨?_, (repetition_inOrder p min max).trans (all_bind _ _).symm⟩
  have hnone (as : List α) :
      ((p.repetition 0 ((some min).map (· - min))).map (as ++ ·)).Equivalent (pure as) := by
    have hroom : (some min).map (· - min) = some 0 := congrArg some (Nat.sub_self min)
    have hoptional := (repetition_zero_zero p).map (as ++ ·)
    rw [hroom]
    refine hoptional.trans (equivalent_of_result (x := .ok as) ?_ rfl rfl)
    exact congrArg Resumed.complete (List.append_nil as)
  refine (repetition_inOrder p min (some min)).trans (Equivalent.trans ?_ (all_equivalent _).symm)
  exact inOrder_congr hnone _

end Machine

end ResumableParsing

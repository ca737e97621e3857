/-
# Histories of an engine

A history is an engine together with what has happened to it so far.  It goes on by moves: items
arrive, the end of the input is declared, the limit is replaced, or the engine does one step of
work.  Every schedule of calls is a list of moves, and so is every part of a schedule, up to the
middle of a call.
-/
import ResumableParsing.Proofs.Engine.Step

namespace ResumableParsing

variable {ι ν ο : Type}

/-! ## Moves -/

/-- What can happen to an engine. -/
inductive Move (ι : Type) where
  /-- Items arrive. -/
  | feed (xs : List ι)
  /-- The end of the input is declared. -/
  | finish
  /-- The limit on retained items is replaced. -/
  | configure (limit : Option Nat)
  /-- The engine does one step of work. -/
  | work

/-- What a step delivers. -/
def Verdict.delivery : Verdict ι ο → List (Engine.Delivery ι ο)
  | .running | .idle => []
  | .output o => [.ok o]
  | .error x => [.error x]

/-- An engine and what has happened to it. -/
structure History (m : Machine ι ν ο) where
  /-- The engine. -/
  engine : Engine m
  /-- The stream that was fed to it. -/
  fed : List ι
  /-- The cursor of the session under way, or the number of committed items when none is; after an
  error, the cursor at which it arose. -/
  cursor : Nat
  /-- What computations were resumed with, by the number of the session. -/
  told : List (Nat × Option (Response ι))
  /-- What an observer was told. -/
  events : List (Event ι ο)
  /-- What computations noted. -/
  notes : List ν
  /-- What was delivered. -/
  delivered : List (Engine.Delivery ι ο)

namespace History

variable {m : Machine ι ν ο}

/-- The beginning. -/
def fresh (m : Machine ι ν ο) (limit : Option Nat) : History m :=
  ⟨.fresh m limit, [], 0, [], [], [], []⟩

/-- What a move adds.  An engine that has ended or whose input has ended refuses items. -/
def move (h : History m) : Move ι → History m
  | .feed xs =>
    { h with
      engine := (h.engine.feed xs).1
      fed := if h.engine.aborted ∨ h.engine.finished then h.fed else h.fed ++ xs }
  | .finish => { h with engine := h.engine.finish.1 }
  | .configure limit => { h with engine := { h.engine with limit := limit } }
  | .work =>
    { engine := h.engine.step.engine
      fed := h.fed
      cursor := match h.engine.resumption with
        | some (_, c, _) => c
        | none => h.cursor
      told := h.told ++ match h.engine.resumption with
        | some (s, _, r) => [(s.id, r)]
        | none => []
      events := h.events ++ h.engine.step.events
      notes := h.notes ++ h.engine.step.notes
      delivered := h.delivered ++ h.engine.step.verdict.delivery }

/-- What has happened after moves. -/
def after (h : History m) (moves : List (Move ι)) : History m := moves.foldl move h

@[simp] theorem after_nil (h : History m) : h.after [] = h := rfl

@[simp] theorem after_cons (h : History m) (x : Move ι) (moves : List (Move ι)) :
    h.after (x :: moves) = (h.move x).after moves := rfl

/-- Moves one after the other are made one after the other. -/
theorem after_append (h : History m) (moves moves' : List (Move ι)) :
    h.after (moves ++ moves') = (h.after moves).after moves' := List.foldl_append

/-! ## Histories are sound -/

/-- A history whose engine hangs together with the stream, and whose cursor is that of the engine
unless an error has ended it. -/
structure Sound (h : History m) : Prop where
  /-- The engine hangs together with the stream. -/
  engine : h.engine.Sound h.fed
  /-- The cursor is that of the engine. -/
  cursor : h.engine.aborted = false → h.cursor = h.engine.cursor
  /-- The cursor is in what was fed and not committed. -/
  within : h.engine.committed ≤ h.cursor ∧ h.cursor ≤ h.fed.length
  /-- An error that was delivered has ended the engine, a failure where the cursor is. -/
  error : ∀ x, .error x ∈ h.delivered →
    h.engine.aborted = true ∧ ∀ f n, x = .failure f n → n = h.cursor

/-- An engine that was told nothing is sound for the empty stream. -/
theorem sound_fresh (m : Machine ι ν ο) (limit : Option Nat) : (fresh m limit).Sound where
  engine := Engine.sound_fresh m limit
  cursor := fun _ => rfl
  within := ⟨Nat.le_refl 0, Nat.le_refl 0⟩
  error := nofun

variable {h : History m}

/-- Nothing happens once an error has ended the engine. -/
theorem move_work_of_aborted (ha : h.engine.aborted = true) : h.move .work = h := by
  have hstep : h.engine.step = ⟨h.engine, [], [], .idle⟩ := if_pos ha
  have hstays : h.engine.resumption = none := if_pos ha
  simp [move, hstep, hstays, Verdict.delivery]

/-- Items that are refused change nothing. -/
theorem move_feed_of_refused (hr : h.engine.aborted = true ∨ h.engine.finished = true)
    (xs : List ι) : h.move (.feed xs) = h := by
  rcases h.engine.feed_cases xs with ⟨-, x, heq⟩ | ⟨ha, -⟩
  · show ({ h with engine := _, fed := _ } : History m) = h
    rw [heq, if_pos hr]
  · simp [ha] at hr

/-- Items that are not refused are fed. -/
theorem fed_move_feed (ha : h.engine.aborted = false) (hf : h.engine.finished = false)
    (xs : List ι) : (h.move (.feed xs)).fed = h.fed ++ xs :=
  if_neg (by simp [ha, hf])

/-- What is fed is added to the stream, unless the engine refuses it. -/
theorem Sound.feed (hh : h.Sound) (xs : List ι) : (h.move (.feed xs)).Sound := by
  rcases h.engine.feed_cases xs with ⟨hrefused, -⟩ | ⟨⟨ha, hf⟩, heq⟩
  · rw [move_feed_of_refused hrefused]
    exact hh
  · have hfed : (h.move (.feed xs)).fed = h.fed ++ xs := fed_move_feed ha hf xs
    have hengine : (h.move (.feed xs)).engine = (h.engine.feed xs).1 := rfl
    have hlen : h.cursor ≤ (h.fed ++ xs).length := by
      rw [List.length_append]
      exact Nat.le_add_right_of_le hh.within.2
    have hextended := hh.engine.feed hf xs
    -- an engine that does not refuse has delivered no error
    have hnone : ∀ x, .error x ∉ h.delivered := by
      intro x hx
      simp [(hh.error x hx).1] at ha
    rcases heq with heq | ⟨x, heq⟩
    · refine ⟨?_, ?_, ?_, fun x hx => absurd hx (hnone x)⟩ <;> rw [hengine, heq]
      · rw [hfed]; exact hextended
      · exact hh.cursor
      · rw [hfed]; exact ⟨hh.within.1, hlen⟩
    · refine ⟨?_, ?_, ?_, fun x hx => absurd hx (hnone x)⟩ <;> rw [hengine, heq]
      · rw [hfed]; exact hextended.abort
      · exact nofun
      · rw [hfed]; exact ⟨hh.within.1, hlen⟩

/-- To declare the end does not change the stream. -/
theorem Sound.finish (hh : h.Sound) : (h.move .finish).Sound := by
  have hengine : (h.move .finish).engine = h.engine.finish.1 := rfl
  refine ⟨hh.engine.finish, ?_, ?_, ?_⟩ <;> rw [hengine] <;> unfold Engine.finish
  · split <;> exact hh.cursor
  · split <;> exact hh.within
  · split <;> exact hh.error

/-- A limit does not change what was done. -/
theorem Sound.configure (hh : h.Sound) (limit : Option Nat) : (h.move (.configure limit)).Sound :=
  ⟨{ hh.engine with }, hh.cursor, hh.within, hh.error⟩

/-- A step that resumes a computation leaves the cursor where the answer put it. -/
theorem cursor_work {s : Session m} {c : Nat} {r : Option (Response ι)}
    (hr : h.engine.resumption = some (s, c, r)) : (h.move .work).cursor = c := by
  simp only [move, hr]

/-- A step that resumes none leaves the cursor where it is. -/
theorem cursor_work_of_stays (hr : h.engine.resumption = none) :
    (h.move .work).cursor = h.cursor := by
  simp only [move, hr]

/-- Unless it ends the engine, a step takes the cursor of the history along. -/
theorem Sound.cursor_after_work (hh : h.Sound) (ha : (h.move .work).engine.aborted = false) :
    (h.move .work).cursor = (h.move .work).engine.cursor := by
  have hengine : (h.move .work).engine = h.engine.step.engine := rfl
  rw [hengine] at ha ⊢
  cases hh.engine.stepped with
  | idle stays eq =>
    rw [eq] at ha ⊢
    rw [cursor_work_of_stays stays]
    exact hh.cursor ha
  | suspended resumes _ eq | completed resumes _ _ _ eq =>
    rw [eq, cursor_work resumes]
    rfl
  | refused _ _ _ eq | failed _ _ eq | unproductive _ _ _ eq =>
    rw [eq] at ha
    cases ha

/-- A step leaves the cursor in what was fed and not committed. -/
theorem Sound.within_after_work (hh : h.Sound) :
    (h.move .work).engine.committed ≤ (h.move .work).cursor ∧
      (h.move .work).cursor ≤ h.fed.length := by
  have hengine : (h.move .work).engine = h.engine.step.engine := rfl
  rw [hengine]
  cases hh.engine.stepped with
  | idle stays eq | refused stays _ _ eq =>
    rw [eq, cursor_work_of_stays stays]
    exact hh.within
  | suspended resumes _ eq | failed resumes _ eq | unproductive resumes _ _ eq =>
    rw [eq, cursor_work resumes]
    exact hh.engine.resumption_within resumes
  | completed resumes _ _ _ eq =>
    rw [eq, cursor_work resumes]
    exact ⟨Nat.le_refl _, (hh.engine.resumption_within resumes).2⟩

/-- A step that delivers an error ends the engine, with the cursor where a failure arose. -/
theorem Sound.error_after_work (hh : h.Sound) {x : ParseError ι}
    (hx : .error x ∈ h.engine.step.verdict.delivery) :
    h.engine.step.engine.aborted = true ∧ ∀ f n, x = .failure f n → n = (h.move .work).cursor := by
  cases hh.engine.stepped with
  | idle _ eq | suspended _ _ eq =>
    rw [eq] at hx
    cases hx
  | completed _ _ _ _ eq =>
    rw [eq] at hx
    simp [Verdict.delivery] at hx
  | refused _ _ _ eq | unproductive _ _ _ eq =>
    rw [eq] at hx ⊢
    cases List.mem_singleton.mp hx
    exact ⟨rfl, nofun⟩
  | failed resumes _ eq =>
    rw [eq] at hx ⊢
    cases List.mem_singleton.mp hx
    refine ⟨rfl, ?_⟩
    rintro f n ⟨⟩
    rw [cursor_work resumes]

/-- A step of work leaves a sound engine. -/
theorem Sound.work (hh : h.Sound) : (h.move .work).Sound := by
  refine ⟨hh.engine.step, hh.cursor_after_work, hh.within_after_work, ?_⟩
  intro x hx
  -- an error that was delivered before has left nothing to do
  rcases List.mem_append.mp hx with hold | hnew
  · rw [move_work_of_aborted (hh.error x hold).1]
    exact hh.error x hold
  · exact hh.error_after_work hnew

/-- Every move keeps a history sound. -/
theorem Sound.move (hh : h.Sound) (x : Move ι) : (h.move x).Sound := by
  cases x with
  | feed xs => exact hh.feed xs
  | finish => exact hh.finish
  | configure limit => exact hh.configure limit
  | work => exact hh.work

/-- Every history is sound. -/
theorem Sound.after (hh : h.Sound) (moves : List (Move ι)) : (h.after moves).Sound := by
  induction moves generalizing h with
  | nil => exact hh
  | cons x moves ih => exact ih (hh.move x)

/-! ## Delivered failures -/

/-- Every failure that was delivered is what a fresh computation comes to from the beginning of its
session. -/
def Justified (h : History m) : Prop :=
  ∀ f n, .error (.failure f n) ∈ h.delivered → ∃ id start, start ≤ h.fed.length ∧
    m.Yields ⟨h.fed, h.engine.finished, id, start⟩ start (.error f) n

/-- A step of work delivers only what a dialogue came to. -/
theorem Justified.work (hj : h.Justified) (hh : h.Sound) : (h.move .work).Justified := by
  intro f n hf
  rcases List.mem_append.mp hf with hold | hnew
  · rw [move_work_of_aborted (hh.error _ hold).1]
    exact hj f n hold
  · have hfinished : (h.move .work).engine.finished = h.engine.finished := by
      show h.engine.step.engine.finished = _
      cases hh.engine.stepped with
      | idle _ eq => rw [eq]
      | suspended _ _ eq | completed _ _ _ _ eq => rw [eq]; rfl
      | refused _ _ _ eq | failed _ _ eq | unproductive _ _ _ eq => rw [eq]; rfl
    rw [hfinished]
    cases hh.engine.stepped with
    | idle _ eq | suspended _ _ eq => rw [eq] at hnew; cases hnew
    | completed _ _ _ _ eq => rw [eq] at hnew; simp [Verdict.delivery] at hnew
    | refused _ _ _ eq | unproductive _ _ _ eq => rw [eq] at hnew; simp [Verdict.delivery] at hnew
    | failed resumes fails eq =>
      rw [eq] at hnew
      cases List.mem_singleton.mp hnew
      obtain ⟨-, hs, -⟩ := Engine.resumption_eq_some resumes
      obtain ⟨told, hleads⟩ := hh.engine.leads resumes
      have hstart := (hh.engine.opens hs).start
      exact ⟨_, _, hstart ▸ hh.engine.committed_le, hleads.yields (.fail fails)⟩

/-- Only work delivers anything. -/
theorem Justified.move (hj : h.Justified) (hh : h.Sound) (x : Move ι) : (h.move x).Justified := by
  cases x with
  | feed xs =>
    intro f n hf
    have ha : h.engine.aborted = true := (hh.error _ hf).1
    rw [move_feed_of_refused (.inl ha)]
    exact hj f n hf
  | finish =>
    intro f n hf
    have ha : h.engine.aborted = true := (hh.error _ hf).1
    have hsame : (h.move .finish).engine = h.engine := Engine.finish_of_ended (.inl ha)
    rw [hsame]
    exact hj f n hf
  | configure limit => exact hj
  | work => exact hj.work hh

/-- Whatever moves are made, each delivered failure is that of a dialogue. -/
theorem Justified.after (hj : h.Justified) (hh : h.Sound) (moves : List (Move ι)) :
    (h.after moves).Justified := by
  induction moves generalizing h with
  | nil => exact hj
  | cons x moves ih => exact ih (hj.move hh x) (hh.move x)

/-- At first nothing was delivered. -/
theorem justified_fresh (m : Machine ι ν ο) (limit : Option Nat) : (fresh m limit).Justified :=
  nofun

end History

end ResumableParsing

/-
# Adequacy of direct style

A session for a plain grammar comes to an end just when the descent of the grammar does, with the
same result and the cursor at the same place; and an engine that is about to start the session
delivers that result when it is asked for a delivery often enough.
-/
import ResumableParsing.Proofs.Descent.Grammar
import ResumableParsing.Proofs.Engine.Step

namespace ResumableParsing

variable {ρ : Type → Type} {ι ν ο α : Type}

namespace Engine

variable {m : Machine ι ν ο}

/-! ## Sessions of an engine -/

/-- The engine resumes the session next, and answers it from the window. -/
structure Runs (e : Engine m) (s : Session m) (w : Window ι) (finished : Bool) : Prop where
  /-- No error has ended the engine. -/
  running : e.aborted = false
  /-- The session is next. -/
  opens : e.openSession = some s
  /-- The window of the engine. -/
  window : e.window = w
  /-- Whether the end of the input was declared. -/
  finished : e.finished = finished

variable {e : Engine m} {s : Session m} {w : Window ι} {finished : Bool}

theorem Runs.step_eq (h : e.Runs s w finished) {c : Nat} {r : Option (Response ι)}
    {ev : List (Event ι ο)} (ha : s.answer w finished = .ready c r ev) :
    e.step = (e.opened s).resume s c r ev := by
  rw [step_of_openSession (by simp [h.running]) h.opens, h.window, h.finished, ha]

/-- A session that asks something is next again. -/
theorem Runs.suspended (h : e.Runs s w finished) (c : Nat) (q : Request)
    (t : Turn m.State ι ν ο) :
    Runs { e.opened s with session := some (s.waitingOn c q t) } (s.waitingOn c q t) w finished :=
  ⟨h.running, rfl, h.window, h.finished⟩

/-- A session that asks something is asked for a delivery again. -/
theorem Runs.next_of_suspend (h : e.Runs s w finished) {c : Nat} {r : Option (Response ι)}
    {ev : List (Event ι ο)} (answered : s.answer w finished = .ready c r ev) {q : Request}
    (asks : (m.resume s.state r).resumed = .suspend q) (budget : Nat) :
    let e' := { e.opened s with session := some (s.waitingOn c q (m.resume s.state r)) }
    (e.next (budget + 1)).verdict = (next budget e').verdict ∧
      (e.next (budget + 1)).engine = (next budget e').engine := by
  have hstep := h.step_eq answered
  simp only [Engine.resume, asks] at hstep
  rw [next, hstep]
  exact ⟨rfl, rfl⟩

/-- The failure that a session comes to is delivered. -/
theorem Runs.next_of_fails (h : e.Runs s w finished) {f : Failure ι} {n : Nat}
    (hs : s.Ends w finished (.error f) n) :
    ∃ budget, (e.next budget).verdict = .error (.failure f n) := by
  generalize hres : (.error f : Except (Failure ι) ο) = res at hs
  induction hs generalizing e with
  | complete answered ends => cases hres
  | fail answered ends =>
    cases hres
    have hstep := h.step_eq answered
    simp only [Engine.resume, ends] at hstep
    refine ⟨1, ?_⟩
    rw [next, hstep]
  | @suspend s c n r ev q res answered asks _ ih =>
    obtain ⟨budget, hb⟩ := ih (h.suspended c q (m.resume s.state r)) hres
    exact ⟨budget + 1, (h.next_of_suspend answered asks budget).1.trans hb⟩

/-- The output that a session comes to is delivered and what it took is committed, if it took
something. -/
theorem Runs.next_of_completes (h : e.Runs s w finished) {o : ο} {n : Nat}
    (hs : s.Ends w finished (.ok o) n) (hstart : w.start = s.start) (hlo : s.start < n)
    (hhi : n ≤ w.stop) (hfresh : s.pending = none → s.cursor = s.start) :
    ∃ budget, (e.next budget).verdict = .output o ∧ (e.next budget).engine.committed = n := by
  generalize hres : (.ok o : Except (Failure ι) ο) = res at hs
  induction hs generalizing e with
  | fail answered ends => cases hres
  | @complete s c r ev o' answered ends =>
    cases hres
    have hasked : s.pending ≠ none := by
      intro hnone
      rw [Session.answer, hnone] at answered
      cases answered
      exact absurd (hfresh hnone) (Nat.ne_of_gt hlo)
    have hmoved : ¬ (c = s.start ∧ c < (e.opened s).window.stop) :=
      fun hstill => Nat.ne_of_gt hlo hstill.1
    have hstep := h.step_eq answered
    simp only [Engine.resume, ends, complete, if_neg hasked, if_neg hmoved] at hstep
    refine ⟨1, ?_⟩
    rw [next, hstep]
    refine ⟨rfl, ?_⟩
    show (e.window.discardBefore c).start = c
    rw [h.window]
    exact Window.start_discardBefore (hstart ▸ Nat.le_of_lt hlo) hhi
  | @suspend s c n r ev q res answered asks _ ih =>
    have hwaiting : (s.waitingOn c q (m.resume s.state r)).pending ≠ none := Option.some_ne_none q
    obtain ⟨budget, hb⟩ := ih (h.suspended c q (m.resume s.state r)) hstart hlo hhi
      (fun hnone => absurd hnone hwaiting) hres
    obtain ⟨hverdict, hengine⟩ := h.next_of_suspend answered asks budget
    exact ⟨budget + 1, hverdict.trans hb.1, (congrArg Engine.committed hengine).trans hb.2⟩

/-- A session that comes to an output where it began makes no progress if more has arrived;
otherwise the output is delivered, and the next session is not under way. -/
theorem Runs.next_of_still (h : e.Runs s w finished) {o : ο}
    (hs : s.Ends w finished (.ok o) s.start)
    (hasks : s.pending = none → ∃ q, (m.resume s.state none).resumed = .suspend q) :
    ∃ budget, (s.start < w.stop →
        (e.next budget).verdict = .error (.usage (.noProgress s.start))) ∧
      (w.stop ≤ s.start → (e.next budget).verdict = .output o ∧
        (e.next budget).engine.aborted = false ∧ (e.next budget).engine.session = none ∧
        0 < (e.next budget).engine.nextSession) := by
  generalize hn : s.start = n at hs
  generalize hres : (.ok o : Except (Failure ι) ο) = res at hs
  induction hs generalizing e with
  | fail answered ends => cases hres
  | @complete s c r ev o' answered ends =>
    cases hres
    have hasked : s.pending ≠ none := by
      intro hnone
      obtain ⟨q, hq⟩ := hasks hnone
      rw [Session.answer, hnone] at answered
      cases answered
      rw [ends] at hq
      cases hq
    have hstep := h.step_eq answered
    have hstop : (e.opened s).window.stop = w.stop := congrArg Window.stop h.window
    refine ⟨1, fun hlt => ?_, fun hle => ?_⟩
    · have hstill : c = s.start ∧ c < (e.opened s).window.stop := ⟨hn.symm, hstop ▸ hlt⟩
      simp only [Engine.resume, ends, complete, if_neg hasked, if_pos hstill] at hstep
      rw [next, hstep]
    · have hmoved : ¬ (c = s.start ∧ c < (e.opened s).window.stop) :=
        fun hstill => Nat.not_lt.mpr hle (hstop ▸ hstill.2)
      simp only [Engine.resume, ends, complete, if_neg hasked, if_neg hmoved] at hstep
      rw [next, hstep]
      exact ⟨rfl, h.running, rfl, Nat.succ_pos _⟩
  | @suspend s c n r ev q res answered asks _ ih =>
    have hwaiting : (s.waitingOn c q (m.resume s.state r)).pending ≠ none := Option.some_ne_none q
    obtain ⟨budget, hb⟩ := ih (h.suspended c q (m.resume s.state r))
      (fun hnone => absurd hnone hwaiting) hn hres
    obtain ⟨hverdict, hengine⟩ := h.next_of_suspend answered asks budget
    refine ⟨budget + 1, ?_⟩
    rw [hverdict, hengine]
    exact hb

end Engine

/-! ## Grammars -/

namespace Grammar

/-- Wherever a session for a plain grammar begins: it comes to a result with the cursor at a place
just when the descent of the grammar does, and it is enough to unfold the rules less deep than the
parser does.  An engine that starts the session delivers a failure, and an output for which
something was taken. -/
theorem session_ends_iff_descends {rules : RuleBook ρ ι ν} (hrules : rules.Plain)
    {g : Grammar ρ ι ν α} (hg : g.Plain) (depth : Nat) (items : List ι) (ended : Bool) (id : Nat)
    {c : Nat} (hc : c ≤ items.length) :
    (∀ res n, (Session.fresh (g.parser rules depth) id c).Ends (.of items c) ended res n ↔
      ∃ d ≤ depth, g.descend ⟨items, ended, id, c⟩ rules d c = some (res, n)) ∧
    ∀ e : Engine (g.parser rules depth),
      e.Runs (.fresh (g.parser rules depth) id c) (.of items c) ended → ∀ d ≤ depth,
        (∀ f n, g.descend ⟨items, ended, id, c⟩ rules d c = some (.error f, n) →
          ∃ budget, (e.next budget).verdict = .error (.failure f n)) ∧
        ∀ o n, g.descend ⟨items, ended, id, c⟩ rules d c = some (.ok o, n) → c < n →
          ∃ budget, (e.next budget).verdict = .output o ∧
            (e.next budget).engine.committed = n := by
  have hrealizes := parser_realizes (w := ⟨items, ended, id, c⟩) hrules depth hg
  have hwithin : (⟨items, ended, id, c⟩ : Setting ι).Within c := ⟨Nat.le_refl c, hc⟩
  have hiff : ∀ res n,
      (Session.fresh (g.parser rules depth) id c).Ends (.of items c) ended res n ↔
        ∃ d ≤ depth, g.descend ⟨items, ended, id, c⟩ rules d c = some (res, n) := by
    intro res n
    rw [Session.ends_fresh_iff hc, hrealizes.yields_iff hwithin]
    constructor
    · intro h
      exact ⟨depth, Nat.le_refl depth, h⟩
    · rintro ⟨d, hd, h⟩
      exact descend_approximates rules hd g h
  refine ⟨hiff, fun e he d hd => ⟨fun f n h => ?_, fun o n h hlt => ?_⟩⟩
  · exact he.next_of_fails ((hiff _ _).mpr ⟨d, hd, h⟩)
  · have hdepth := descend_approximates rules hd g h
    have hn : n ≤ (Window.of items c).stop := by
      rw [Window.stop_of hc]
      exact (hrealizes.forward hc hdepth).2
    exact he.next_of_completes ((hiff _ _).mpr ⟨d, hd, h⟩) rfl hlt hn fun _ => rfl

/-- A session reads the second word after it has returned from the first. -/
theorem session_reads_second_word :
    (Session.fresh (twoWords.parser noRules 0) 0 0).Ends (.of ['a', 'c'] 0) true
      (.ok ('a', 'c')) 2 :=
  ((session_ends_iff_descends plain_noRules plain_twoWords 0 ['a', 'c'] true 0
    (c := 0) (by decide)).1 _ _).mpr ⟨0, Nat.le_refl 0, by decide⟩

end Grammar

end ResumableParsing

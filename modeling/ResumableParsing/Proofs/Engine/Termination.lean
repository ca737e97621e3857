/-
# Parsing comes to an end

A session that comes to an end is over after some steps: an error has ended the engine, or what the
session took is committed.  A session that is not the last takes something, and without input only
the first may start; so if every session comes to an end, there are no more sessions than items, and
in the end nothing can be done.  The sessions of a grammar that calls no rules come to an end.
-/
import ResumableParsing.Proofs.Descent.Adequacy
import ResumableParsing.Proofs.Descent.Total
import ResumableParsing.Proofs.Engine.Schedule

namespace ResumableParsing

variable {ι ν ο : Type}

namespace Engine

variable {m : Machine ι ν ο}

theorem Runs.resumption_eq {e : Engine m} {s : Session m} {w : Window ι} {finished : Bool}
    (h : e.Runs s w finished) {c : Nat} {r : Option (Response ι)} {ev : List (Event ι ο)}
    (answered : s.answer w finished = .ready c r ev) : e.resumption = some (s, c, r) := by
  simp [resumption, h.running, h.opens, h.window, h.finished, answered]

end Engine

namespace History

variable {m : Machine ι ν ο} {h h' h'' : History m}

/-! ## One session -/

/-- From one history to another a session is brought to an end, with the cursor at a place. -/
structure Concludes (h h' : History m) (s : Session m) (n : Nat) : Prop where
  /-- No session is under way. -/
  session : h'.engine.session = none
  /-- It was the last that was started. -/
  number : h'.engine.nextSession = s.id + 1
  /-- No items have arrived. -/
  fed : h'.fed = h.fed
  /-- The end of the input was declared before, or is not yet. -/
  finished : h'.engine.finished = h.engine.finished
  /-- An error has ended the engine; or what the session took is committed, which is something
  unless nothing was left. -/
  progress : h'.engine.aborted = true ∨ h'.engine.committed = n ∧ (s.start < n ∨ n = h.fed.length)

/-- A session is over when its computation is resumed and does not ask anything. -/
theorem Sound.concludes_work (hh : h.Sound) {s : Session m} {c : Nat} {r : Option (Response ι)}
    (hresumes : h.engine.resumption = some (s, c, r))
    (hends : ∀ q, (m.resume s.state r).resumed ≠ .suspend q) : h.Concludes (h.move .work) s c := by
  have hengine : (h.move .work).engine = h.engine.step.engine := rfl
  have hkeeps : (h.move .work).engine.finished = h.engine.finished := hh.engine.stepped.keeps.2
  obtain ⟨q, hq, -⟩ | ⟨f, -, hstep⟩ | ⟨o, u, -, -, hstep⟩ | ⟨o, -, -, hstill, hstep⟩ :=
    hh.engine.stepped.resumed hresumes
  · exact absurd hq (hends q)
  · rw [hstep] at hengine
    exact ⟨by rw [hengine]; rfl, by rw [hengine]; rfl, rfl, hkeeps, .inl (by rw [hengine]; rfl)⟩
  · rw [hstep] at hengine
    exact ⟨by rw [hengine]; rfl, by rw [hengine]; rfl, rfl, hkeeps, .inl (by rw [hengine]; rfl)⟩
  · rw [hstep] at hengine
    have hwithin := hh.engine.resumption_within hresumes
    have hstart : s.start = h.engine.committed :=
      (hh.engine.opens (Engine.resumption_eq_some hresumes).2.1).start
    refine ⟨by rw [hengine], by rw [hengine]; rfl, rfl, hkeeps, .inr ⟨by rw [hengine]; rfl, ?_⟩⟩
    by_cases hc : c = s.start
    · exact .inr (hstill hc)
    · exact .inl (by omega)

/-- A session that comes to an end is over after some steps. -/
theorem Sound.exists_concludes (hh : h.Sound) {s : Session m} {w : Window ι} {finished : Bool}
    (hr : h.engine.Runs s w finished) {n : Nat} {res : Except (Failure ι) ο}
    (hs : s.Ends w finished res n) : ∃ k, h.Concludes (h.works k) s n := by
  -- the induction is on the course of the session, of which every step of work is one resumption
  induction hs generalizing h with
  | complete answered ends =>
    exact ⟨1, hh.concludes_work (hr.resumption_eq answered) (by rw [ends]; exact nofun)⟩
  | fail answered ends =>
    exact ⟨1, hh.concludes_work (hr.resumption_eq answered) (by rw [ends]; exact nofun)⟩
  | @suspend s c n r ev q res answered asks _ ih =>
    have hengine : (h.move .work).engine =
        { h.engine.opened s with session := some (s.waitingOn c q (m.resume s.state r)) } := by
      show h.engine.step.engine = _
      rw [hr.step_eq answered]
      simp only [Engine.resume, asks]
      rfl
    obtain ⟨k, hk⟩ := ih hh.work (by rw [hengine]; exact hr.suspended c q _)
    have hkeeps : (h.move .work).engine.finished = h.engine.finished := hh.engine.stepped.keeps.2
    exact ⟨k + 1, hk.session, hk.number, hk.fed, hk.finished.trans hkeeps, hk.progress⟩

/-! ## All sessions -/

/-- After the end of the input was declared, every session comes to an end. -/
def Ending (m : Machine ι ν ο) (xs : List ι) : Prop :=
  ∀ id c, c ≤ xs.length → ∃ res n, (Session.fresh m id c).Ends (.of xs c) true res n

/-- Nothing can be done, and no session is under way. -/
structure Done (h : History m) (sessions : Nat) : Prop where
  /-- Nothing can be done. -/
  settled : h.Settled
  /-- No session is under way. -/
  session : h.engine.session = none
  /-- No more sessions were started. -/
  number : h.engine.nextSession ≤ sessions

theorem settled_of_openSession (hs : h.engine.openSession = none) : h.Settled := by
  unfold Settled Engine.step
  rw [hs]
  split <;> rfl

/-- If every session comes to an end, nothing can be done after some steps; no more sessions are
started than there are items, but at least one. -/
theorem Sound.exists_done (hh : h.Sound) (hending : Ending m h.fed)
    (hfinished : h.engine.finished = true) (hnone : h.engine.session = none)
    (hnumber : h.engine.nextSession ≤ h.engine.committed) :
    ∃ k, (h.works k).Done (max 1 h.fed.length) := by
  -- the induction is on what is left of the stream
  induction hleft : h.fed.length - h.engine.committed using Nat.strongRecOn generalizing h with
  | _ left ih =>
    have hle := hh.engine.committed_le
    by_cases ha : h.engine.aborted = true
    · exact ⟨0, settled_of_aborted ha, hnone, by show h.engine.nextSession ≤ _; omega⟩
    cases hopens : h.engine.openSession with
    | none =>
      exact ⟨0, settled_of_openSession hopens, hnone, by show h.engine.nextSession ≤ _; omega⟩
    | some s =>
      obtain hs | ⟨-, hmay, hfresh⟩ := Engine.openSession_eq_some hopens
      · rw [hnone] at hs
        cases hs
      have hid : s.id = h.engine.nextSession := by rw [hfresh]; rfl
      have hstart : s.start = h.engine.committed := by rw [hfresh]; rfl
      -- only the first session starts without input
      have hone : s.id + 1 ≤ max 1 h.fed.length := by
        rw [hid]
        by_cases hzero : h.engine.nextSession = 0
        · omega
        · have hleft : h.engine.committed ≠ h.fed.length := fun hall =>
            hmay ⟨Nat.pos_of_ne_zero hzero, hh.engine.items_eq_nil_iff.mpr hall⟩
          omega
      obtain ⟨res, n, hends⟩ := hending h.engine.nextSession h.engine.committed hle
      rw [← hfresh] at hends
      have hruns : h.engine.Runs s (.of h.fed h.engine.committed) true :=
        ⟨by simpa using ha, hopens, hh.engine.window, hfinished⟩
      obtain ⟨j, hj⟩ := hh.exists_concludes hruns hends
      have hj' := hh.works j
      by_cases hlast : (h.works j).engine.openSession = none
      · exact ⟨j, settled_of_openSession hlast, hj.session, by rw [hj.number]; exact hone⟩
      rcases hj.progress with haborted | ⟨hn, hprogress⟩
      · exact ⟨j, settled_of_aborted haborted, hj.session, by rw [hj.number]; exact hone⟩
      have hmore : n ≠ h.fed.length := by
        intro hall
        apply hlast
        have hnil : (h.works j).engine.window.items = [] :=
          hj'.engine.items_eq_nil_iff.mpr (by rw [hn, hj.fed, hall])
        have hpos : 0 < (h.works j).engine.nextSession := by rw [hj.number]; omega
        rw [Engine.openSession, hj.session]
        exact if_pos ⟨hpos, hnil⟩
      have hin : n ≤ h.fed.length := by
        rw [← hn, ← hj.fed]
        exact hj'.engine.committed_le
      have hlt : h.engine.committed < n := by omega
      obtain ⟨k, hk⟩ := ih (h.fed.length - n) (by omega) hj' (by rwa [hj.fed])
        (by rw [hj.finished, hfinished]) hj.session (by rw [hj.number, hn]; omega)
        (by rw [hj.fed, hn])
      rw [hj.fed, ← works_add] at hk
      exact ⟨j + k, hk⟩

/-- If every session comes to an end, a whole input is parsed with every budget that is large
enough, and in as many sessions as there are items, or in one. -/
theorem exists_parseAll {xs : List ι} (hending : Ending m xs) :
    ∃ k res notes, ∀ budget, k < budget →
      parseAll m budget xs = some (res, notes) ∧
        (((Engine.fresh m none).drive xs false).1.drain budget).settled = true ∧
        (((Engine.fresh m none).drive xs false).1.drain budget).engine.session = none ∧
        (((Engine.fresh m none).drive xs false).1.drain budget).engine.nextSession ≤
          max 1 xs.length := by
  have hw : (whole m xs).Sound := sound_whole m xs
  have hfed : (whole m xs).fed = xs := rfl
  have hdrive : ((Engine.fresh m none).drive xs false).1 = (whole m xs).engine :=
    engine_after_drive (fresh m none) xs false
  obtain ⟨k, hk⟩ := hw.exists_done hending rfl rfl (Nat.zero_le _)
  refine ⟨k, gather ((whole m xs).works k).delivered, ((whole m xs).works k).notes,
    fun budget hlt => ?_⟩
  have hsettled := hw.settled_drain hk.settled hlt
  have hadds := hw.adds_drain_of_settled hk.settled hsettled
  rw [hdrive, ← hadds.engine, parseAll_eq, if_pos hsettled, hadds.delivered, hadds.notes]
  rw [hfed] at hk
  exact ⟨rfl, hsettled, hk.session, hk.number⟩

end History

/-! ## Grammars that call no rules -/

namespace Grammar

/-- Parsing with a plain grammar that calls no rules comes to an end, whatever the input is: every
session comes to a result, and with every budget that is large enough the whole input is parsed, in
as many sessions as there are items or in one. -/
theorem parsing_terminates {g : Grammar (fun _ => Empty) ι ν ο} (hg : g.Plain)
    (rules : RuleBook (fun _ => Empty) ι ν) (depth : Nat) (xs : List ι) :
    (∀ id c, c ≤ xs.length → ∃ res n,
      (Session.fresh (g.parser rules depth) id c).Ends (.of xs c) true res n) ∧
    ∃ k res notes, ∀ budget, k < budget →
      parseAll (g.parser rules depth) budget xs = some (res, notes) ∧
        (((Engine.fresh (g.parser rules depth) none).drive xs false).1.drain
          budget).settled = true ∧
        (((Engine.fresh (g.parser rules depth) none).drive xs false).1.drain
          budget).engine.session = none ∧
        (((Engine.fresh (g.parser rules depth) none).drive xs false).1.drain
          budget).engine.nextSession ≤ max 1 xs.length := by
  have hending : History.Ending (g.parser rules depth) xs := by
    intro id c hc
    have hrules : rules.Plain := fun _ rule => nomatch rule
    have hrealizes := parser_realizes (w := ⟨xs, true, id, c⟩) hrules depth hg
    obtain ⟨res, n, hn⟩ := total_evaluate (w := ⟨xs, true, id, c⟩) rfl hg hc
    exact ⟨res, n, (Session.ends_fresh_iff hc).mpr
      ((hrealizes.yields_iff ⟨Nat.le_refl c, hc⟩).mpr hn)⟩
  exact ⟨hending, History.exists_parseAll hending⟩

/-- Two repetitions without a bound, one in the other, of something that may take nothing. -/
def restless : Grammar (fun _ => Empty) Char Unit (List (List (Option Char))) :=
  (letter 'a').optional.many.many

/-- Nested repetitions come to an end although nothing is left that they could take. -/
theorem restless_terminates :
    restless.Plain ∧ ∃ k res notes, ∀ budget, k < budget →
      parseAll (restless.parser noRules 0) budget ['a', 'a', 'b'] = some (res, notes) := by
  obtain ⟨-, k, res, notes, h⟩ :=
    parsing_terminates (g := restless) trivial noRules 0 ['a', 'a', 'b']
  exact ⟨trivial, k, res, notes, fun budget hlt => (h budget hlt).1⟩

end Grammar

end ResumableParsing

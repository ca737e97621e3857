/-
# Watched engines

An engine answers every request with what was asked for, resumes a computation only while it waits,
and drops it once it has ended.  So an engine for watched machines goes the same way as the engine
for the machines themselves, and all that is remarked in it is proper: no machine inside another is
told what it did not ask for, and no failure speaks of a violation.
-/
import ResumableParsing.Proofs.Engine.Streaming
import ResumableParsing.Proofs.Watch.Grammar

namespace ResumableParsing

variable {ι ν ο : Type} {m : Machine ι ν ο} {m' : Machine ι (Remark ι) ο}

/-! ## Sessions -/

namespace Session

/-- Where the exchange with the computation of a session stands. -/
def standing (s : Session m) : Standing :=
  match s.pending with
  | none => .fresh
  | some q => .waiting q

/-- What the window has to say to a session is admitted. -/
theorem admits_answer {s : Session m} {w : Window ι} {finished : Bool} {c : Nat}
    {r : Option (Response ι)} {ev : List (Event ι ο)} (h : s.answer w finished = .ready c r ev) :
    s.standing.Admits r := by
  cases hq : s.pending with
  | none =>
    simp only [answer, standing, hq] at h ⊢
    cases h
    trivial
  | some q =>
    cases q with
    | peek | consume =>
      simp only [answer, standing, hq] at h ⊢
      split at h
      · cases h
        trivial
      · split at h
        · cases h
          trivial
        · cases h
    | snapshot =>
      simp only [answer, standing, hq] at h ⊢
      cases h
      trivial
    | rollback t =>
      simp only [answer, restore, standing, hq] at h ⊢
      split at h
      · cases h
      · split at h
        · cases h
        · cases h
          trivial

/-- Two sessions that stand alike, of which the second is watched. -/
structure Mirrors (s : Session m) (s' : Session m') : Prop where
  /-- They have the same number. -/
  id : s'.id = s.id
  /-- They began at the same place. -/
  start : s'.start = s.start
  /-- The cursor is at the same place. -/
  cursor : s'.cursor = s.cursor
  /-- They wait on the same request. -/
  pending : s'.pending = s.pending
  /-- The computations mirror each other. -/
  state : m.Mirrors m' s.state s'.state s.standing

/-- The window has the same to say to both. -/
theorem Mirrors.answer {s : Session m} {s' : Session m'} (h : s.Mirrors s') (w : Window ι)
    (finished : Bool) : s'.answer (ο := ο) w finished = s.answer w finished := by
  unfold Session.answer restore
  rw [h.pending, h.cursor, h.id, h.start]

end Session

/-! ## Engines -/

namespace Engine

/-- The sessions under way stand alike, or there is none. -/
inductive SessionsMirror : Option (Session m) → Option (Session m') → Prop
  /-- No session is under way. -/
  | none : SessionsMirror none none
  /-- The sessions stand alike. -/
  | some {s : Session m} {s' : Session m'} (h : s.Mirrors s') :
      SessionsMirror (some s) (some s')

/-- Two engines that stand alike, of which the second is for watched machines. -/
structure Mirrors (e : Engine m) (e' : Engine m') : Prop where
  /-- The limit is the same. -/
  limit : e'.limit = e.limit
  /-- The window is the same. -/
  window : e'.window = e.window
  /-- The sessions stand alike. -/
  session : SessionsMirror e.session e'.session
  /-- The next session has the same number. -/
  nextSession : e'.nextSession = e.nextSession
  /-- The end was declared to both or to none. -/
  finished : e'.finished = e.finished
  /-- An error has ended both or none. -/
  aborted : e'.aborted = e.aborted

/-- Two pieces of work that come to the same, of which the second is watched. -/
structure AdvancesMirror (a : Advance m) (a' : Advance m') : Prop where
  /-- The engines stand alike. -/
  engine : a.engine.Mirrors a'.engine
  /-- The events are the same. -/
  events : a'.events = a.events
  /-- The verdict is the same. -/
  verdict : a'.verdict = a.verdict
  /-- A failure tells of the input. -/
  failure : ∀ f n, a.verdict = .error (.failure f n) → f.Tells
  /-- What is remarked is proper. -/
  notes : ∀ x ∈ a'.notes, x.Proper

theorem mirrors_fresh (m : Machine ι ν ο) (m' : Machine ι (Remark ι) ο) (limit : Option Nat) :
    (fresh m limit).Mirrors (fresh m' limit) :=
  ⟨rfl, rfl, .none, rfl, rfl, rfl⟩

variable {e : Engine m} {e' : Engine m'}

/-- Engines that end with an error do so alike. -/
theorem Mirrors.abort (h : e.Mirrors e') : e.abort.Mirrors e'.abort :=
  ⟨h.limit, h.window, .none, h.nextSession, h.finished, rfl⟩

/-- A piece of work without a computation comes to the same in both. -/
theorem Mirrors.advance (h : e.Mirrors e') {v : Verdict ι ο}
    (hv : ∀ f n, v ≠ .error (.failure f n)) :
    AdvancesMirror (⟨e, [], [], v⟩ : Advance m) ⟨e', [], [], v⟩ :=
  ⟨h, rfl, rfl, fun f n hf => absurd hf (hv f n), nofun⟩

/-- The session that is next stands alike in both. -/
theorem Mirrors.openSession (h : e.Mirrors e') (hm : m.Mirrored m') :
    SessionsMirror e.openSession e'.openSession := by
  unfold Engine.openSession
  rw [h.nextSession, h.window]
  have hsession := h.session
  generalize e.session = session, e'.session = session' at hsession
  cases hsession with
  | some hs => exact .some hs
  | none =>
    dsimp only
    split
    · exact .none
    · exact .some ⟨rfl, rfl, rfl, rfl, hm⟩

/-- A session that completes is committed, or ends the engine, in both. -/
theorem Mirrors.complete (h : e.Mirrors e') {s : Session m} {s' : Session m'} (hs : s.Mirrors s')
    (c : Nat) (o : ο) :
    (e.complete s c o).1.Mirrors (e'.complete s' c o).1 ∧
      (e'.complete s' c o).2 = (e.complete s c o).2 ∧
      ∀ f n, (e.complete s c o).2 ≠ .error (.failure f n) := by
  unfold Engine.complete
  rw [hs.pending, hs.start, h.window]
  split
  · exact ⟨h.abort, rfl, nofun⟩
  · split
    · exact ⟨h.abort, rfl, nofun⟩
    · exact ⟨⟨h.limit, rfl, .none, h.nextSession, h.finished, h.aborted⟩, rfl, nofun⟩

/-- Both computations are resumed alike. -/
theorem Mirrors.resume (h : e.Mirrors e') {s : Session m} {s' : Session m'} (hs : s.Mirrors s')
    {r : Option (Response ι)} (hr : s.standing.Admits r) (c : Nat) (ev : List (Event ι ο)) :
    AdvancesMirror (e.resume s c r ev) (e'.resume s' c r ev) := by
  have hturn := hs.state.resume hr
  unfold Engine.resume
  generalize m.resume s.state r = t, m'.resume s'.state r = t' at hturn
  cases hturn with
  | @suspend state state' q ns ns' hstate hnotes =>
    exact ⟨⟨h.limit, h.window, .some ⟨hs.id, hs.start, rfl, rfl, hstate⟩, h.nextSession,
      h.finished, h.aborted⟩, rfl, rfl, nofun, hnotes⟩
  | @complete state state' o ns ns' hnotes =>
    obtain ⟨hengine, hverdict, hfailure⟩ := h.complete hs c o
    dsimp only
    generalize e.complete s c o = x, e'.complete s' c o = x' at hengine hverdict hfailure
    obtain ⟨e, v⟩ := x
    obtain ⟨e', v'⟩ := x'
    obtain rfl : v' = v := hverdict
    cases v' with
    | output o => exact ⟨hengine, rfl, rfl, nofun, hnotes⟩
    | running | idle | error =>
      exact ⟨hengine, rfl, rfl, fun f n hf => absurd hf (hfailure f n), hnotes⟩
  | fail hfailure hnotes =>
    refine ⟨h.abort, rfl, rfl, ?_, hnotes⟩
    rintro _ _ ⟨⟩
    exact hfailure

/-- Both do the same step. -/
theorem Mirrors.step (h : e.Mirrors e') (hm : m.Mirrored m') :
    AdvancesMirror e.step e'.step := by
  by_cases ha : e.aborted
  · have ha' : e'.aborted := h.aborted.trans ha
    rw [Engine.step, Engine.step, if_pos ha, if_pos ha']
    exact h.advance (by simp)
  · have ha' : ¬ e'.aborted := by rwa [h.aborted]
    have hsession := h.openSession hm
    generalize hs : e.openSession = session, hs' : e'.openSession = session' at hsession
    cases hsession with
    | none =>
      rw [Engine.step, Engine.step, if_neg ha, if_neg ha', hs, hs']
      exact h.advance (by simp)
    | @some s s' hsession =>
      have hopened : (e.opened s).Mirrors (e'.opened s') :=
        ⟨h.limit, h.window, h.session, congrArg (· + 1) hsession.id, h.finished, h.aborted⟩
      rw [step_of_openSession ha hs, step_of_openSession ha' hs', h.window, h.finished,
        hsession.answer]
      cases hanswer : (s.answer e.window e.finished : Answer ι ο) with
      | starved => exact hopened.advance (by simp)
      | refused u => exact hopened.abort.advance (by simp)
      | ready c r ev => exact hopened.resume hsession (Session.admits_answer hanswer) c ev

/-- Both resume the session that is next, with the same, or both resume none. -/
theorem Mirrors.resumption (h : e.Mirrors e') (hm : m.Mirrored m') :
    e.resumption = none ∧ e'.resumption = none ∨
      ∃ s s' c r, e.resumption = some (s, c, r) ∧ e'.resumption = some (s', c, r) ∧
        s.Mirrors s' := by
  unfold Engine.resumption
  rw [h.aborted]
  split
  · exact .inl ⟨rfl, rfl⟩
  · have hsession := h.openSession hm
    generalize e.openSession = session, e'.openSession = session' at hsession
    cases hsession with
    | none => exact .inl ⟨rfl, rfl⟩
    | @some s s' hs =>
      dsimp only
      rw [h.window, h.finished, hs.answer]
      cases (s.answer e.window e.finished : Answer ι ο) with
      | starved | refused => exact .inl ⟨rfl, rfl⟩
      | ready c r ev => exact .inr ⟨s, s', c, r, rfl, rfl, hs⟩

/-- Both engines take what is fed, or neither does. -/
theorem Mirrors.feed (h : e.Mirrors e') (xs : List ι) : (e.feed xs).1.Mirrors (e'.feed xs).1 := by
  obtain ⟨limit, window, session, number, finished, aborted⟩ := e
  obtain ⟨_, _, session', _, _, _⟩ := e'
  obtain ⟨rfl, rfl, hsession, rfl, rfl, rfl⟩ := h
  unfold Engine.feed
  split
  · exact ⟨rfl, rfl, hsession, rfl, rfl, rfl⟩
  · split
    · exact ⟨rfl, rfl, hsession, rfl, rfl, rfl⟩
    · dsimp only [buffered]
      split
      · exact ⟨rfl, rfl, .none, rfl, rfl, rfl⟩
      · exact ⟨rfl, rfl, hsession, rfl, rfl, rfl⟩

/-- Both engines are told the end, or neither is. -/
theorem Mirrors.finish (h : e.Mirrors e') : e.finish.1.Mirrors e'.finish.1 := by
  obtain ⟨limit, window, session, number, finished, aborted⟩ := e
  obtain ⟨_, _, session', _, _, _⟩ := e'
  obtain ⟨rfl, rfl, hsession, rfl, rfl, rfl⟩ := h
  unfold Engine.finish
  split
  · exact ⟨rfl, rfl, hsession, rfl, rfl, rfl⟩
  · exact ⟨rfl, rfl, hsession, rfl, rfl, rfl⟩

end Engine

/-! ## Histories -/

/-- An error is delivered by the verdict that says so. -/
theorem Verdict.error_mem_delivery {v : Verdict ι ο} {x : ParseError ι} :
    .error x ∈ v.delivery ↔ v = .error x := by
  cases v with
  | running | idle | output => simp [Verdict.delivery]
  | error y => simp [Verdict.delivery, eq_comm]

namespace History

/-- The same has happened in both histories, of which the second is watched; what was remarked is
proper, and failures that were delivered tell of the input. -/
structure Mirrors (h : History m) (h' : History m') : Prop where
  /-- The engines stand alike. -/
  engine : h.engine.Mirrors h'.engine
  /-- The same stream was fed. -/
  fed : h'.fed = h.fed
  /-- The cursor is at the same place. -/
  cursor : h'.cursor = h.cursor
  /-- The computations were resumed with the same. -/
  told : h'.told = h.told
  /-- An observer was told the same. -/
  events : h'.events = h.events
  /-- The same was delivered. -/
  delivered : h'.delivered = h.delivered
  /-- A failure that was delivered tells of the input. -/
  failure : ∀ f n, .error (.failure f n) ∈ h.delivered → f.Tells
  /-- What was remarked is proper. -/
  notes : ∀ x ∈ h'.notes, x.Proper

theorem mirrors_fresh (m : Machine ι ν ο) (m' : Machine ι (Remark ι) ο) (limit : Option Nat) :
    (fresh m limit).Mirrors (fresh m' limit) :=
  ⟨Engine.mirrors_fresh m m' limit, rfl, rfl, rfl, rfl, rfl, nofun, nofun⟩

variable {h : History m} {h' : History m'}

/-- A step of work leaves engines that are in step. -/
theorem Mirrors.work (hh : h.Mirrors h') (hm : m.Mirrored m') :
    (h.move .work).Mirrors (h'.move .work) := by
  have hstep := hh.engine.step hm
  have hfailure (f : Failure ι) (n : Nat)
      (hf : .error (.failure f n) ∈ (h.move .work).delivered) : f.Tells := by
    rcases List.mem_append.mp hf with hold | hnew
    · exact hh.failure f n hold
    · exact hstep.failure f n (Verdict.error_mem_delivery.mp hnew)
  refine ⟨hstep.engine, hh.fed, ?_, ?_, ?_, ?_, hfailure,
    List.forall_mem_append.mpr ⟨hh.notes, hstep.notes⟩⟩
  · rcases hh.engine.resumption hm with ⟨hr, hr'⟩ | ⟨s, s', c, r, hr, hr', -⟩
    · rw [cursor_work_of_stays hr, cursor_work_of_stays hr', hh.cursor]
    · rw [cursor_work hr, cursor_work hr']
  · rcases hh.engine.resumption hm with ⟨hr, hr'⟩ | ⟨s, s', c, r, hr, hr', hs⟩
    · simp only [move, hr, hr', hh.told]
    · simp only [move, hr, hr', hh.told, hs.id]
  · simp only [move, hh.events, hstep.events]
  · simp only [move, hh.delivered, hstep.verdict]

/-- Every move keeps two histories alike. -/
theorem Mirrors.after (hh : h.Mirrors h') (hm : m.Mirrored m') (moves : List (Move ι)) :
    (h.after moves).Mirrors (h'.after moves) := by
  induction moves generalizing h h' with
  | nil => exact hh
  | cons x moves ih =>
    cases x with
    | work => exact ih (hh.work hm)
    | feed xs =>
      refine ih { hh with engine := hh.engine.feed xs, fed := ?_ }
      simp only [move, hh.engine.aborted, hh.engine.finished, hh.fed]
    | finish => exact ih { hh with engine := hh.engine.finish }
    | configure limit => exact ih { hh with engine := { hh.engine with limit := rfl } }

end History

/-! ## The errors of an engine -/

/-- The error is a failure, or a session completed where it must not. -/
def ParseError.Inner (x : ParseError ι) : Prop :=
  (∃ f n, x = .failure f n) ∨ x.code = .e2001 ∨ x.code = .e2002

/-- An engine for a faithful machine refuses no token. -/
theorem Engine.Sound.inner_of_step {e : Engine m} {fed : List ι} (h : e.Sound fed)
    (hm : m.Faithful) {x : ParseError ι} (hx : e.step.verdict = .error x) : x.Inner := by
  cases h.stepped with
  | idle stays | refused stays =>
    rw [h.step_of_stays hm stays] at hx
    cases hx
  | suspended _ _ eq | completed _ _ _ _ eq =>
    rw [eq] at hx
    cases hx
  | @failed s c r f _ _ eq =>
    rw [eq] at hx
    cases hx
    exact .inl ⟨f, c, rfl⟩
  | unproductive _ _ early eq =>
    rw [eq] at hx
    cases hx
    rcases early with ⟨-, rfl⟩ | ⟨-, -, -, rfl⟩
    · exact .inr (.inl rfl)
    · exact .inr (.inr rfl)

namespace Engine

/-- The codes of what a caller is refused. -/
def RefusalCode (code : ErrorCode) : Prop := code = .e2005 ∨ code = .e2006 ∨ code = .e3001

variable {e : Engine m} {x : ParseError ι}

/-- What is refused when items are fed is a misuse of the engine. -/
theorem refusalCode_of_feed {xs : List ι} (hx : (e.feed xs).2 = some x) : RefusalCode x.code := by
  unfold feed at hx
  split at hx
  · cases hx
    exact .inr (.inl rfl)
  · split at hx
    · cases hx
      exact .inl rfl
    · dsimp only at hx
      split at hx
      · cases hx
        exact .inr (.inr rfl)
      · cases hx

/-- What is refused when the end is declared is a misuse of the engine. -/
theorem refusalCode_of_finish (hx : e.finish.2 = some x) : RefusalCode x.code := by
  unfold finish at hx
  split at hx
  · cases hx
    exact .inr (.inl rfl)
  · cases hx

/-- What a call refuses is a misuse of the engine. -/
theorem refusalCode_of_drive {xs : List ι} {streaming : Bool}
    (hx : (e.drive xs streaming).2 = some x) : RefusalCode x.code := by
  unfold drive at hx
  have hfeed (y : ParseError ι) (hy : (e.feed xs).2 = some y) : RefusalCode y.code :=
    refusalCode_of_feed hy
  generalize e.feed xs = fed at hx hfeed
  obtain ⟨e', _ | y⟩ := fed
  · cases streaming with
    | true => cases hx
    | false => exact refusalCode_of_finish hx
  · cases hx
    exact hfeed x rfl

/-- A call is refused after the end of the input or of the engine, or for too many items. -/
theorem refusalCode_of_makeCall {budget : Nat} {c : ScheduledCall ι}
    (hx : (e.makeCall budget c).outcome = .refused x) : RefusalCode x.code := by
  have hanswer {p : Engine m × Option (ParseError ι)}
      (hp : ∀ y, p.2 = some y → RefusalCode y.code)
      (hx : (History.answerCall budget c p).outcome = .refused x) : RefusalCode x.code := by
    obtain ⟨e', _ | y⟩ := p
    · exact absurd hx (outcome_takeAfter_ne_refused _ _ _)
    · cases hx
      exact hp x rfl
  obtain ⟨call, take⟩ := c
  cases call with
  | feed xs => exact hanswer (p := e.feed xs) (fun _ => refusalCode_of_feed) hx
  | finish => exact hanswer (p := e.finish) (fun _ => refusalCode_of_finish) hx
  | drive xs streaming =>
    exact hanswer (p := e.drive xs streaming) (fun _ => refusalCode_of_drive) hx
  | outputs => exact hanswer (p := (e, none)) nofun hx
  | configure limit => cases hx
  | renewObserver => cases hx

/-- In no schedule is anything else refused. -/
theorem refusalCode_of_runSchedule {budget : Nat} {calls : List (ScheduledCall ι)}
    {r : CallReport m} (hr : r ∈ e.runSchedule budget calls) (hx : r.outcome = .refused x) :
    RefusalCode x.code := by
  induction calls generalizing e with
  | nil => cases hr
  | cons c calls ih =>
    rcases List.mem_cons.mp hr with rfl | hr
    · exact refusalCode_of_makeCall hx
    · exact ih hr

end Engine

namespace History

variable {h h' : History m}

/-- A machine that is faithful to its tokens is never refused one. -/
theorem inner_of_delivered (hm : m.Faithful) (hh : h.Sound)
    (hinner : ∀ x, .error x ∈ h.delivered → x.Inner) (moves : List (Move ι)) :
    ∀ x, .error x ∈ (h.after moves).delivered → x.Inner := by
  induction moves generalizing h with
  | nil => exact hinner
  | cons y moves ih =>
    refine ih (hh.move y) fun x hx => ?_
    cases y with
    | feed | finish | configure => exact hinner x hx
    | work =>
      rcases List.mem_append.mp hx with hold | hnew
      · exact hinner x hold
      · exact hh.engine.inner_of_step hm (Verdict.error_mem_delivery.mp hnew)

/-- What the calls of a schedule deliver is delivered in its history. -/
theorem Follows.mem_delivered {budget : Nat} {calls : List (ScheduledCall ι)}
    (hf : h.Follows budget calls h') {r : CallReport m} (hr : r ∈ h.engine.runSchedule budget calls)
    {d : Engine.Delivery ι ο} (hd : d ∈ r.outcome.delivered) : d ∈ h'.delivered := by
  induction hf with
  | nil => cases hr
  | @cons h _ c calls k first rest ih =>
    obtain ⟨_, hrest, -⟩ := rest.adds
    rcases List.mem_cons.mp hr with rfl | hr
    · obtain ⟨delivered, hfirst, hdelivered⟩ := first
      have hne : (h.engine.makeCall budget c).outcome ≠ .exhausted := by
        intro hex
        rw [hex] at hd
        cases hd
      rw [hrest.delivered, hfirst.delivered, hdelivered hne]
      exact List.mem_append_left _ (List.mem_append_right _ hd)
    · rw [← first.engine] at hr
      exact ih hr

end History

/-! ## Parsers -/

namespace Grammar

variable {ρ : Type → Type} {α : Type}

/-- However an engine for a grammar without machines made by hand is called, and at any moment: the
engine in which the machine of every construction is watched has come to the same; each machine was
resumed first without an answer, then with what it had asked for, and never again once it had ended;
no failure, be it handled, gathered or delivered, tells of a violation.  Without returns to tokens,
the engine delivers no other errors than failures that tell of the input and completions where there
must be none, and refuses a call only after the end of the input or of the engine, or for too many
items. -/
theorem parser_resumed_properly {rules : RuleBook ρ ι ν} (hrules : rules.Composed)
    {g : Grammar ρ ι ν α} (hg : g.Composed) (depth : Nat) (limit : Option Nat)
    (moves : List (Move ι)) :
    let h := (History.fresh (g.parser rules depth) limit).after moves
    let watched := (History.fresh (g.watchedParser rules depth) limit).after moves
    (watched.delivered = h.delivered ∧ watched.events = h.events ∧ watched.told = h.told ∧
      watched.cursor = h.cursor ∧ watched.engine.window = h.engine.window ∧
      watched.engine.aborted = h.engine.aborted) ∧
    (∀ x ∈ watched.notes, x.standing.Admits x.answer ∧
      ∀ f, x.failure = some f → ∀ leaf ∈ f.leaves, leaf.code ≠ .e1005) ∧
    (∀ f n, .error (.failure f n) ∈ h.delivered → ∀ leaf ∈ f.leaves, leaf.code ≠ .e1005) ∧
    (rules.Plain → g.Plain →
      (∀ x, .error x ∈ h.delivered →
        x.code ∈ [ErrorCode.e1001, .e1002, .e1003, .e2001, .e2002]) ∧
      ∀ budget calls, ∀ r ∈ (Engine.fresh (g.parser rules depth) limit).runSchedule budget calls,
        (∀ x, .error x ∈ r.outcome.delivered →
          x.code ∈ [ErrorCode.e1001, .e1002, .e1003, .e2001, .e2002]) ∧
        ∀ x, r.outcome = .refused x → x.code ∈ [ErrorCode.e2005, .e2006, .e3001]) := by
  intro h watched
  have hm := parser_mirrored hrules depth hg
  have hfresh := History.sound_fresh (g.parser rules depth) limit
  have hmirrors (moves : List (Move ι)) := (History.mirrors_fresh _ _ limit).after hm moves
  have hh := hmirrors moves
  have hviolation {f : Failure ι} (hf : f.Tells) : ∀ leaf ∈ f.leaves, leaf.code ≠ .e1005 := by
    intro leaf hleaf
    rcases (hf leaf hleaf).code with hcode | hcode <;> simp [hcode]
  refine ⟨⟨hh.delivered, hh.events, hh.told, hh.cursor, hh.engine.window, hh.engine.aborted⟩,
    fun x hx => ?_, fun f n hf => hviolation (hh.failure f n hf), fun hrules' hg' => ?_⟩
  · exact ⟨(hh.notes x hx).1, fun f hf => hviolation ((hh.notes x hx).2 f hf)⟩
  · have hfaithful := parser_faithful hrules' depth hg'
    have hcodes (moves : List (Move ι)) (x : ParseError ι)
        (hx : .error x ∈ ((History.fresh (g.parser rules depth) limit).after moves).delivered) :
        x.code ∈ [ErrorCode.e1001, .e1002, .e1003, .e2001, .e2002] := by
      rcases History.inner_of_delivered hfaithful hfresh nofun moves x hx with
        ⟨f, n, rfl⟩ | hcode | hcode
      · rcases ((hmirrors moves).failure f n hx).code with hcode | hcode | hcode <;>
          simp [ParseError.code, hcode]
      · simp [hcode]
      · simp [hcode]
    refine ⟨hcodes moves, fun budget calls r hr => ⟨fun x hx => ?_, fun x hx => ?_⟩⟩
    · obtain ⟨_, hfollows⟩ := hfresh.exists_follows budget calls
      obtain ⟨moves', rfl⟩ := hfollows.exists_moves
      exact hcodes moves' x (hfollows.mem_delivered hr hx)
    · simpa [Engine.RefusalCode] using Engine.refusalCode_of_runSchedule hr hx

/-- Where neither of two words is read, both failures are remarked before they are gathered, and the
alternatives, each of which reads two letters, are resumed properly. -/
theorem neither_word_resumed_properly :
    let moves := [.feed ['a', 'x'], .work, .finish] ++ List.replicate 12 .work
    let h := (History.fresh (twoWords.parser noRules 0) none).after moves
    let watched := (History.fresh (twoWords.watchedParser noRules 0) none).after moves
    let f : Failure Char := .aggregate [.unexpected 'x' "b", .unexpected 'x' "c"]
    h.delivered = [.error (.failure f 1)] ∧
      watched.notes.filterMap (·.failure.map Failure.code) =
        [.e1001, .e1001, .e1001, .e1001, .e1003] ∧
      (∀ x ∈ watched.notes, x.standing.Admits x.answer ∧
        ∀ f, x.failure = some f → ∀ leaf ∈ f.leaves, leaf.code ≠ .e1005) ∧
      ∀ x, .error x ∈ h.delivered → x.code ∈ [ErrorCode.e1001, .e1002, .e1003, .e2001, .e2002] := by
  intro moves h watched f
  obtain ⟨-, hnotes, -, hcodes⟩ := parser_resumed_properly plain_noRules.composed
    plain_twoWords.composed 0 none moves
  exact ⟨rfl, rfl, hnotes, (hcodes plain_noRules plain_twoWords).1⟩

end Grammar

end ResumableParsing

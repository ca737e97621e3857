/-
# Steps of an engine

A step of an engine does nothing, or it resumes one computation once.  `Sound` says how an engine
hangs together with the stream that was fed to it: the window is the part of the stream that is not
committed, and the session under way stands where the dialogue of its computation has led.
`Sound.stepped` says everything that a step of a sound engine can do; all facts about runs of an
engine are derived from it.
-/
import ResumableParsing.Engine.Basic
import ResumableParsing.Proofs.Engine.Session

namespace ResumableParsing

variable {ι ν ο : Type}

namespace Engine

variable {m : Machine ι ν ο}

/-! ## Sound engines -/

/-- The cursor of the session under way, or the place where the next one begins. -/
def cursor (e : Engine m) : Nat :=
  match e.session with
  | some s => s.cursor
  | none => e.committed

/-- How an engine hangs together with the stream that was fed to it. -/
structure Sound (e : Engine m) (fed : List ι) : Prop where
  /-- The window is what is not committed. -/
  window : e.window = .of fed e.committed
  /-- Only what was fed is committed. -/
  committed_le : e.committed ≤ fed.length
  /-- Nothing is committed before the first session. -/
  first : e.nextSession = 0 → e.committed = 0
  /-- An engine that has ended runs nothing. -/
  ended : e.aborted → e.session = none
  /-- The session under way began behind what is committed. -/
  start : ∀ s, e.session = some s → s.start = e.committed
  /-- The session under way is the last that was started. -/
  number : ∀ s, e.session = some s → s.id + 1 = e.nextSession
  /-- The session under way waits on a request of its computation. -/
  waits : ∀ s, e.session = some s → s.pending ≠ none ∧ ∃ told, s.Stands fed e.finished told
  /-- Only before anything was fed is a session under way without input. -/
  input : ∀ s, e.session = some s → e.committed = fed.length → fed = []

/-- The engine when the next session starts or goes on. -/
def opened (e : Engine m) (s : Session m) : Engine m := { e with nextSession := s.id + 1 }

section Sound

variable {e : Engine m} {fed : List ι}

/-- The window of a sound engine goes up to the end of what was fed. -/
theorem Sound.stop (h : e.Sound fed) : e.window.stop = fed.length := by
  rw [h.window, Window.stop_of h.committed_le]

/-- The window is empty just when everything is committed. -/
theorem Sound.items_eq_nil_iff (h : e.Sound fed) :
    e.window.items = [] ↔ e.committed = fed.length := by
  have := h.committed_le
  rw [h.window, Window.items_of, List.drop_eq_nil_iff]
  omega

/-- The session at work is the one under way, or one that can be started now. -/
theorem openSession_eq_some {s : Session m} (h : e.openSession = some s) :
    e.session = some s ∨
      e.session = none ∧ ¬ (0 < e.nextSession ∧ e.window.items = []) ∧
        s = .fresh m e.nextSession e.committed := by
  unfold openSession at h
  split at h
  · cases h
    exact .inl ‹_›
  · split at h
    · cases h
    · cases h
      exact .inr ⟨‹_›, ‹_›, rfl⟩

/-- What is known of the session that a step resumes. -/
structure Opens (e : Engine m) (fed : List ι) (s : Session m) : Prop where
  /-- It began behind what is committed. -/
  start : s.start = e.committed
  /-- Its cursor is that of the engine. -/
  cursor : s.cursor = e.cursor
  /-- It stands in the dialogue of its computation. -/
  stands : ∃ told, s.Stands fed e.finished told
  /-- Only before anything was fed is there no input for it. -/
  input : e.committed = fed.length → fed = []

/-- In a sound engine the session at work stands where its dialogue has come to. -/
theorem Sound.opens (h : e.Sound fed) {s : Session m} (hs : e.openSession = some s) :
    e.Opens fed s := by
  rcases openSession_eq_some hs with hs | ⟨hnone, hmay, rfl⟩
  · exact ⟨h.start s hs, by simp [Engine.cursor, hs], (h.waits s hs).2, h.input s hs⟩
  · -- without input only the first session may start, and then nothing is committed
    refine ⟨rfl, by simp [Engine.cursor, hnone, Session.fresh], ⟨[], .fresh rfl⟩, fun hlen => ?_⟩
    have hnil : e.window.items = [] := h.items_eq_nil_iff.mpr hlen
    have hfirst : e.committed = 0 := h.first (by simpa [hnil] using hmay)
    exact List.eq_nil_of_length_eq_zero (by omega)

end Sound

/-! ## What a step can do -/

/-- The session that the next step resumes, the place of the cursor then, and the answer; nothing if
no computation is resumed. -/
def resumption (e : Engine m) : Option (Session m × Nat × Option (Response ι)) :=
  if e.aborted then none
  else
    match e.openSession with
    | none => none
    | some s =>
      match (s.answer e.window e.finished : Answer ι ο) with
      | .ready c r _ => some (s, c, r)
      | _ => none

/-- A computation can be resumed if its session is at work and has an answer. -/
theorem resumption_eq_some {e : Engine m} {s : Session m} {c : Nat} {r : Option (Response ι)}
    (h : e.resumption = some (s, c, r)) :
    e.aborted = false ∧ e.openSession = some s ∧
      ∃ ev : List (Event ι ο), s.answer e.window e.finished = .ready c r ev := by
  unfold resumption at h
  split at h
  · cases h
  · rename_i hrunning
    split at h
    · cases h
    · split at h
      · cases h
        exact ⟨Bool.eq_false_iff.mpr hrunning, ‹_›, _, ‹_›⟩
      · cases h

/-- The ways in which a step of an engine can go after the stream `fed` has arrived. -/
inductive Stepped (e : Engine m) (fed : List ι) (a : Advance m) : Prop
  /-- Nothing can be done. -/
  | idle (stays : e.resumption = none) (eq : a = ⟨e, [], [], .idle⟩)
  /-- A return to a token is refused. -/
  | refused {s : Session m} {u : UsageError} (stays : e.resumption = none)
      (active : e.session = some s)
      (refuses : (s.answer e.window e.finished : Answer ι ο) = .refused u)
      (eq : a = ⟨e.abort, [], [], .error (.usage u)⟩)
  /-- The computation asks something. -/
  | suspended {s : Session m} {c : Nat} {r : Option (Response ι)} {q : Request}
      (resumes : e.resumption = some (s, c, r)) (asks : (m.resume s.state r).resumed = .suspend q)
      (eq : a = ⟨{ e.opened s with session := some (s.waitingOn c q (m.resume s.state r)) },
        movement e.window s.cursor c, (m.resume s.state r).notes, .running⟩)
  /-- The computation fails. -/
  | failed {s : Session m} {c : Nat} {r : Option (Response ι)} {f : Failure ι}
      (resumes : e.resumption = some (s, c, r)) (fails : (m.resume s.state r).resumed = .fail f)
      (eq : a = ⟨(e.opened s).abort, movement e.window s.cursor c, (m.resume s.state r).notes,
        .error (.failure f c)⟩)
  /-- The computation completes where it must not. -/
  | unproductive {s : Session m} {c : Nat} {r : Option (Response ι)} {o : ο} {u : UsageError}
      (resumes : e.resumption = some (s, c, r))
      (completes : (m.resume s.state r).resumed = .complete o)
      (early : s.pending = none ∧ u = .noConsumption ∨
        s.pending ≠ none ∧ c = s.start ∧ c < fed.length ∧ u = .noProgress c)
      (eq : a = ⟨(e.opened s).abort, movement e.window s.cursor c, (m.resume s.state r).notes,
        .error (.usage u)⟩)
  /-- The computation completes, and what is behind the cursor is committed. -/
  | completed {s : Session m} {c : Nat} {r : Option (Response ι)} {o : ο}
      (resumes : e.resumption = some (s, c, r))
      (completes : (m.resume s.state r).resumed = .complete o)
      (asked : s.pending ≠ none) (progress : c = s.start → c = fed.length)
      (eq : a = ⟨{ e.opened s with session := none, window := .of fed c },
        movement e.window s.cursor c ++ [.completed o], (m.resume s.state r).notes, .output o⟩)

/-- A session that is resumed goes on with the dialogue of its computation. -/
theorem Sound.leads {e : Engine m} {fed : List ι} (h : e.Sound fed) {s : Session m} {c : Nat}
    {r : Option (Response ι)} (hr : e.resumption = some (s, c, r)) :
    ∃ told, m.Leads (s.setting fed e.finished) (told ++ [r]) (m.resume s.state r) c := by
  obtain ⟨-, hs, ev, ha⟩ := resumption_eq_some hr
  obtain ⟨hstart, -, ⟨told, hstands⟩, -⟩ := h.opens hs
  rw [h.window, ← hstart] at ha
  exact ⟨told, (hstands.resume (hstart ▸ h.committed_le) ha).1⟩

/-- What a step does is decided by the answer that there is for the session at work. -/
theorem step_of_openSession {e : Engine m} (haborted : ¬ e.aborted) {s : Session m}
    (hs : e.openSession = some s) :
    e.step = match s.answer e.window e.finished with
      | .starved => ⟨e.opened s, [], [], .idle⟩
      | .refused u => ⟨(e.opened s).abort, [], [], .error (.usage u)⟩
      | .ready c r ev => (e.opened s).resume s c r ev := by
  rw [step, if_neg haborted, hs]
  rfl

/-- The cursor of a session that is resumed is in what was fed and not committed. -/
theorem Sound.resumption_within {e : Engine m} {fed : List ι} (h : e.Sound fed) {s : Session m}
    {c : Nat} {r : Option (Response ι)} (hr : e.resumption = some (s, c, r)) :
    e.committed ≤ c ∧ c ≤ fed.length := by
  obtain ⟨-, hs, -⟩ := resumption_eq_some hr
  obtain ⟨told, hleads⟩ := h.leads hr
  have hstart : s.start = e.committed := (h.opens hs).start
  have hle : s.start ≤ fed.length := hstart ▸ h.committed_le
  exact ⟨hstart ▸ (hleads.within hle).1, (hleads.within hle).2⟩

/-- A session that cannot be resumed is under way already. -/
theorem Sound.active {e : Engine m} {fed : List ι} (h : e.Sound fed) {s : Session m}
    (hs : e.openSession = some s)
    (ha : ∀ c r ev, (s.answer e.window e.finished : Answer ι ο) ≠ .ready c r ev) :
    e.session = some s ∧ e.opened s = e := by
  rcases openSession_eq_some hs with hs | ⟨-, -, rfl⟩
  · exact ⟨hs, by rw [opened, h.number s hs]⟩
  · -- a session that was just started is resumed in any case
    exact absurd rfl (ha e.committed none [])

/-- A step of a sound engine goes in one of these ways. -/
theorem Sound.stepped {e : Engine m} {fed : List ι} (h : e.Sound fed) : e.Stepped fed e.step := by
  by_cases haborted : e.aborted
  · refine .idle ?_ ?_
    · simp [resumption, haborted]
    · simp [step, haborted]
  cases hs : e.openSession with
  | none =>
    refine .idle ?_ ?_
    · simp [resumption, hs]
    · simp [step, haborted, hs]
  | some s =>
    obtain ⟨hstart, hcursor, ⟨told, hstands⟩, hinput⟩ := h.opens hs
    have hle : s.start ≤ fed.length := hstart ▸ h.committed_le
    cases ha : (s.answer e.window e.finished : Answer ι ο) with
    | starved =>
      obtain ⟨-, hopened⟩ := h.active hs (by simp [ha])
      refine .idle ?_ ?_
      · simp [resumption, hs, ha]
      · rw [step_of_openSession haborted hs, ha, hopened]
    | refused u =>
      obtain ⟨hactive, hopened⟩ := h.active hs (by simp [ha])
      refine .refused (u := u) ?_ hactive ha ?_
      · simp [resumption, hs, ha]
      · rw [step_of_openSession haborted hs, ha, hopened]
    | ready c r ev =>
      have hr : e.resumption = some (s, c, r) := by simp [resumption, haborted, hs, ha]
      have hstep : e.step = (e.opened s).resume s c r ev := by
        rw [step_of_openSession haborted hs, ha]
      have hstop : (e.opened s).window.stop = fed.length := h.stop
      rw [h.window, ← hstart] at ha
      have hev := (hstands.resume hle ha).2
      rw [hstart, ← h.window] at hev
      rw [hstep, hev]
      cases ht : (m.resume s.state r).resumed with
      | suspend q =>
        refine .suspended hr ht ?_
        simp [Engine.resume, ht, Session.waitingOn]
      | fail f =>
        refine .failed hr ht ?_
        simp [Engine.resume, ht]
      | complete o =>
        obtain ⟨hlo, hhi⟩ := h.resumption_within hr
        -- the session has asked nothing, or taken nothing that was there, or it is done
        by_cases hpending : s.pending = none
        · refine .unproductive hr ht (.inl ⟨hpending, rfl⟩) ?_
          simp [Engine.resume, ht, complete, hpending]
        by_cases hstill : c = s.start ∧ c < (e.opened s).window.stop
        · have hlt : c < fed.length := hstop ▸ hstill.2
          refine .unproductive hr ht (.inr ⟨hpending, hstill.1, hlt, rfl⟩) ?_
          simp only [Engine.resume, ht, complete, if_neg hpending, if_pos hstill]
        · refine .completed hr ht hpending (fun hc => ?_) ?_
          · have hend : ¬ c < fed.length := fun hlt => hstill ⟨hc, hstop ▸ hlt⟩
            exact Nat.le_antisymm hhi (Nat.not_lt.mp hend)
          · have hdiscard : (e.opened s).window.discardBefore c = .of fed c := by
              show e.window.discardBefore c = _
              rw [h.window, Window.discardBefore_of hlo hhi]
            simp only [Engine.resume, ht, complete, if_neg hpending, if_neg hstill, hdiscard]

/-- What a step comes to that resumes a computation, by how the computation is resumed. -/
theorem Stepped.resumed {e : Engine m} {fed : List ι} {a : Advance m} (h : e.Stepped fed a)
    {s : Session m} {c : Nat} {r : Option (Response ι)} (hr : e.resumption = some (s, c, r)) :
    (∃ q, (m.resume s.state r).resumed = .suspend q ∧
      a = ⟨{ e.opened s with session := some (s.waitingOn c q (m.resume s.state r)) },
        movement e.window s.cursor c, (m.resume s.state r).notes, .running⟩) ∨
    (∃ f, (m.resume s.state r).resumed = .fail f ∧
      a = ⟨(e.opened s).abort, movement e.window s.cursor c, (m.resume s.state r).notes,
        .error (.failure f c)⟩) ∨
    (∃ o u, (m.resume s.state r).resumed = .complete o ∧
      (s.pending = none ∧ u = .noConsumption ∨
        s.pending ≠ none ∧ c = s.start ∧ c < fed.length ∧ u = .noProgress c) ∧
      a = ⟨(e.opened s).abort, movement e.window s.cursor c, (m.resume s.state r).notes,
        .error (.usage u)⟩) ∨
    ∃ o, (m.resume s.state r).resumed = .complete o ∧ s.pending ≠ none ∧
      (c = s.start → c = fed.length) ∧
      a = ⟨{ e.opened s with session := none, window := .of fed c },
        movement e.window s.cursor c ++ [.completed o], (m.resume s.state r).notes,
        .output o⟩ := by
  cases h with
  | idle stays | refused stays =>
    rw [hr] at stays
    cases stays
  | suspended resumes asks eq =>
    rw [hr] at resumes
    cases resumes
    exact .inl ⟨_, asks, eq⟩
  | failed resumes fails eq =>
    rw [hr] at resumes
    cases resumes
    exact .inr (.inl ⟨_, fails, eq⟩)
  | unproductive resumes completes early eq =>
    rw [hr] at resumes
    cases resumes
    exact .inr (.inr (.inl ⟨_, _, completes, early, eq⟩))
  | completed resumes completes asked progress eq =>
    rw [hr] at resumes
    cases resumes
    exact .inr (.inr (.inr ⟨_, completes, asked, progress, eq⟩))

/-- A step changes neither the limit nor whether the end of the input was declared. -/
theorem Stepped.keeps {e : Engine m} {fed : List ι} {a : Advance m} (h : e.Stepped fed a) :
    a.engine.limit = e.limit ∧ a.engine.finished = e.finished := by
  cases h with
  | idle _ eq => rw [eq]; exact ⟨rfl, rfl⟩
  | suspended _ _ eq | completed _ _ _ _ eq => rw [eq]; exact ⟨rfl, rfl⟩
  | refused _ _ _ eq | failed _ _ eq | unproductive _ _ _ eq => rw [eq]; exact ⟨rfl, rfl⟩

/-! ## What keeps an engine sound -/

theorem sound_fresh (m : Machine ι ν ο) (limit : Option Nat) : (fresh m limit).Sound [] where
  window := rfl
  committed_le := Nat.le_refl 0
  first := fun _ => rfl
  ended := nofun
  start := nofun
  number := nofun
  waits := nofun
  input := nofun

variable {e : Engine m} {fed : List ι}

/-- An error ends an engine, which keeps what it has committed. -/
theorem Sound.abort (h : e.Sound fed) : e.abort.Sound fed where
  window := h.window
  committed_le := h.committed_le
  first := h.first
  ended := fun _ => rfl
  start := nofun
  number := nofun
  waits := nofun
  input := nofun

/-- An error leaves the stream as it is. -/
theorem Sound.abort_opened (h : e.Sound fed) (s : Session m) : (e.opened s).abort.Sound fed :=
  { h.abort with first := nofun, number := nofun }

/-- More of the stream may arrive, and the stream may end. -/
theorem Sound.extend (h : e.Sound fed) (hfinished : e.finished = false) (xs : List ι)
    (finished : Bool) :
    Sound { e with window := e.window.append xs, finished := finished } (fed ++ xs) where
  window := by
    show e.window.append xs = .of (fed ++ xs) e.committed
    rw [h.window, Window.append_of h.committed_le]
  committed_le := by
    have := h.committed_le
    rw [List.length_append]
    exact Nat.le_add_right_of_le this
  first := h.first
  ended := h.ended
  start := h.start
  number := h.number
  waits := fun s hs => by
    obtain ⟨hasked, told, hstands⟩ := h.waits s hs
    rw [hfinished] at hstands
    exact ⟨hasked, told, hstands.extend xs finished⟩
  input := fun s hs hlen => by
    have hle : e.committed ≤ fed.length := h.committed_le
    have hlen : e.committed = fed.length + xs.length := by rw [← List.length_append]; exact hlen
    have hfed : fed = [] := h.input s hs (by omega)
    have hxs : xs = [] := List.eq_nil_of_length_eq_zero (by omega)
    rw [hfed, hxs, List.append_nil]

/-- What becomes of items: an engine that has ended refuses them, and so does one whose input has
ended; otherwise they arrive, and end the engine if they are too many. -/
theorem feed_eq (e : Engine m) (xs : List ι) :
    e.aborted = true ∧ e.feed xs = (e, some (.usage .aborted)) ∨
      (e.aborted = false ∧ e.finished = true) ∧ e.feed xs = (e, some (.usage .inputFinished)) ∨
      (e.aborted = false ∧ e.finished = false) ∧
        (e.feed xs = ({ e with window := e.window.append xs }, none) ∨
          ∃ retained limit, e.feed xs = (Engine.abort { e with window := e.window.append xs },
            some (.bufferOverflow retained limit))) := by
  unfold feed
  cases ha : e.aborted
  · right
    cases hf : e.finished
    · right
      refine ⟨⟨rfl, rfl⟩, ?_⟩
      simp only [Bool.false_eq_true, if_false]
      split
      · exact .inr ⟨_, _, rfl⟩
      · exact .inl rfl
    · exact .inl ⟨⟨rfl, rfl⟩, by simp⟩
  · exact .inl ⟨rfl, by simp⟩

/-- Items are refused, or they arrive, or they arrive and are too many. -/
theorem feed_cases (e : Engine m) (xs : List ι) :
    (e.aborted = true ∨ e.finished = true) ∧ (∃ x, e.feed xs = (e, some x)) ∨
      (e.aborted = false ∧ e.finished = false) ∧
        (e.feed xs = ({ e with window := e.window.append xs }, none) ∨
          ∃ x, e.feed xs = (Engine.abort { e with window := e.window.append xs }, some x)) := by
  rcases e.feed_eq xs with ⟨ha, heq⟩ | ⟨hended, heq⟩ | ⟨hruns, heq | ⟨_, _, heq⟩⟩
  · exact .inl ⟨.inl ha, _, heq⟩
  · exact .inl ⟨.inr hended.2, _, heq⟩
  · exact .inr ⟨hruns, .inl heq⟩
  · exact .inr ⟨hruns, .inr ⟨_, heq⟩⟩

/-- Without a limit items arrive unless they are refused. -/
theorem feed_of_unlimited (hl : e.limit = none) (ha : e.aborted = false) (hf : e.finished = false)
    (xs : List ι) : e.feed xs = ({ e with window := e.window.append xs }, none) := by
  simp [feed, ha, hf, hl, exceededLimit]

/-- Declaring the end changes nothing once the input or the engine has ended. -/
theorem finish_of_ended (h : e.aborted = true ∨ e.finished = true) : e.finish.1 = e := by
  unfold finish
  split
  · rfl
  · rename_i ha
    have hf : e.finished = true := h.resolve_left ha
    show { e with finished := true } = e
    rw [← hf]

theorem Sound.feed (h : e.Sound fed) (hfinished : e.finished = false) (xs : List ι) :
    Sound { e with window := e.window.append xs } (fed ++ xs) := by
  have hextend := h.extend hfinished xs false
  rwa [← hfinished] at hextend

/-- To declare the end adds nothing to the stream. -/
theorem Sound.finish (h : e.Sound fed) : e.finish.1.Sound fed := by
  by_cases hended : e.aborted = true ∨ e.finished = true
  · rwa [finish_of_ended hended]
  · have hfinished : e.finished = false := by simpa using (not_or.mp hended).2
    unfold Engine.finish
    rw [if_neg (not_or.mp hended).1]
    simpa [Window.append] using h.extend hfinished [] true

/-- A step keeps an engine sound. -/
theorem Sound.step (h : e.Sound fed) : e.step.engine.Sound fed := by
  cases h.stepped with
  | idle _ eq => rw [eq]; exact h
  | refused _ _ _ eq => rw [eq]; exact h.abort
  | failed _ _ eq => rw [eq]; exact h.abort_opened _
  | unproductive _ _ _ eq => rw [eq]; exact h.abort_opened _
  | @suspended s c r q resumes asks eq =>
    obtain ⟨haborted, hs, -⟩ := resumption_eq_some resumes
    obtain ⟨told, hleads⟩ := h.leads resumes
    have hopens := h.opens hs
    rw [eq]
    refine ⟨h.window, h.committed_le, nofun, fun habort => ?_, ?_, ?_, ?_, ?_⟩
    · exact absurd habort (by simp [opened, haborted])
    · rintro _ ⟨⟩
      exact hopens.start
    · rintro _ ⟨⟩
      rfl
    · rintro _ ⟨⟩
      exact ⟨nofun, told ++ [r], .waiting hleads asks rfl⟩
    · rintro _ ⟨⟩
      exact hopens.input
  | @completed s c r o resumes completes asked progress eq =>
    rw [eq]
    exact ⟨rfl, (h.resumption_within resumes).2, nofun, fun _ => rfl, nofun, nofun, nofun, nofun⟩

end Engine

end ResumableParsing

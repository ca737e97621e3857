/-
# Confinement

A computation that runs inside another one begins wherever the cursor is then.  It may return, but
only to places for which it was handed tokens, and it was handed these where its own reading had
led.  So a machine that makes up no tokens of its own never returns to a place before the one where
it began, nor beyond the furthest place that it has reached, wherever it runs and whatever runs
around it.

`Machine.Excursion` follows a computation from its beginning, with the cursor at each of its turns.
The answers come from a session of which nothing else is known than that it waits on what the
computation has asked.  `Sound.hosts_after` says that an engine answers a computation in this way as
long as it runs inside the session under way.
-/
import ResumableParsing.Proofs.Engine.Tokens
import ResumableParsing.Proofs.Insistence.Basic

namespace ResumableParsing

variable {ι ν ο α : Type}

/-! ## Answers -/

/-- The token belongs to the session with this number and stands for a place between the two. -/
structure Token.Between (id lo hi : Nat) (k : Token) : Prop where
  /-- The token belongs to the session. -/
  session : k.session = id
  /-- It stands for the lower place or one behind it. -/
  lower : lo ≤ k.offset
  /-- It stands for the upper place or one before it. -/
  upper : k.offset ≤ hi

/-- An answer takes the cursor onward, or to the token whose restoration was asked for. -/
theorem Session.le_or_rollback_of_answer {m : Machine ι ν ο} {s : Session m} {q : Request}
    (hq : s.pending = some q) {w : Window ι} {finished : Bool} {c : Nat}
    {r : Option (Response ι)} {ev : List (Event ι ο)}
    (ha : s.answer w finished = .ready c r ev) : s.cursor ≤ c ∨ q = .rollback ⟨s.id, c⟩ := by
  cases q with
  | snapshot =>
    simp only [answer, hq] at ha
    cases ha
    exact .inl (Nat.le_refl _)
  | rollback k =>
    have hrestore := (answer_of_rollback hq w finished).symm.trans ha
    obtain rfl : r = some (.token k) := by
      unfold restore at hrestore
      split at hrestore
      · cases hrestore
      · split at hrestore <;> cases hrestore
        rfl
    exact .inr (congrArg _ (token_of_answer ha))
  | peek =>
    simp only [answer, hq] at ha
    split at ha
    · cases ha
      exact .inl (Nat.le_refl _)
    · split at ha <;> cases ha
      exact .inl (Nat.le_refl _)
  | consume =>
    simp only [answer, hq] at ha
    split at ha
    · cases ha
      exact .inl (Nat.le_succ _)
    · split at ha <;> cases ha
      exact .inl (Nat.le_refl _)

/-! ## Excursions -/

namespace Machine

variable {p : Machine ι ν α}

/-- The run of a computation that began with the cursor at `origin` in the session with a number: a
turn of it, the cursor then, and the furthest place where the cursor has been meanwhile.  What the
computation asks is what the session waits on, whatever else the session's machine does. -/
inductive Excursion (p : Machine ι ν α) (id origin : Nat) :
    Turn p.State ι ν α → Nat → Nat → Prop
  /-- The first resumption. -/
  | start : p.Excursion id origin p.start origin origin
  /-- A resumption with the answer of the session to what was asked. -/
  | answer {κ β : Type} {m : Machine ι κ β} {s : Session m} {t : Turn p.State ι ν α} {q : Request}
      {c far : Nat} {w : Window ι} {finished : Bool} {r : Response ι} {ev : List (Event ι β)}
      (before : p.Excursion id origin t s.cursor far) (asks : t.resumed = .suspend q)
      (session : s.id = id) (pending : s.pending = some q)
      (answered : s.answer w finished = .ready c (some r) ev) :
      p.Excursion id origin (p.resume t.state (some r)) c (max far c)

/-- An excursion that has not passed `hi` stays behind its beginning, and it keeps no tokens to
return to but those of its session that stand for places between its beginning and `hi`. -/
theorem Excursion.heeds (heeds : ∀ trusted, p.Heeds trusted p.init) {id origin c far hi : Nat}
    {t : Turn p.State ι ν α} (run : p.Excursion id origin t c far) (hfar : far ≤ hi) :
    (origin ≤ c ∧ c ≤ far) ∧
      t.Heeds (Token.Between id origin hi) (p.Heeds (Token.Between id origin hi)) := by
  induction run with
  | start => exact ⟨⟨Nat.le_refl _, Nat.le_refl _⟩, (heeds _).start⟩
  | @answer _ _ _ s t q c far _ _ r _ _ asks session pending answered ih =>
    obtain ⟨hreached, hc⟩ := Nat.max_le.mp hfar
    obtain ⟨⟨hlo, -⟩, hturn⟩ := ih hreached
    -- whether the cursor went onward or returned, it did not get before the beginning
    have horigin : origin ≤ c := by
      rcases Session.le_or_rollback_of_answer pending answered with honward | rfl
      · exact Nat.le_trans hlo honward
      · exact (hturn.returns _ asks).lower
    have htrusts : Trusts (Token.Between id origin hi) (some r) := by
      intro k hk
      obtain rfl : r = .token k := Option.some.inj hk
      obtain rfl := Session.token_of_answer answered
      exact ⟨session, horigin, hc⟩
    exact ⟨⟨horigin, Nat.le_max_right _ _⟩, hturn.state.resume htrusts⟩

/-- An excursion stays behind its beginning and returns only to places between it and the furthest
one that it has reached. -/
theorem Excursion.confined (heeds : ∀ trusted, p.Heeds trusted p.init) {id origin c far : Nat}
    {t : Turn p.State ι ν α} (run : p.Excursion id origin t c far) :
    (origin ≤ c ∧ c ≤ far) ∧
      ∀ k, t.resumed = .suspend (.rollback k) → k.Between id origin far := by
  obtain ⟨hcursor, hturn⟩ := run.heeds heeds (Nat.le_refl far)
  exact ⟨hcursor, hturn.returns⟩

end Machine

/-! ## Inside a session -/

section Inside

variable {m : Machine ι ν ο} {p : Machine ι ν α} {embed : p.State → m.State}

/-- The session waits on a computation of `p` that runs inside, began at `origin` and has got as far
as `far`. -/
inductive Session.Hosts (s : Session m) (p : Machine ι ν α) (embed : p.State → m.State)
    (origin far : Nat) : Prop
  /-- The request and the state are those of a turn of the computation. -/
  | intro {t : Turn p.State ι ν α} {q : Request} (run : p.Excursion s.id origin t s.cursor far)
      (asks : t.resumed = .suspend q) (pending : s.pending = some q)
      (state : s.state = embed t.state)

theorem Session.Hosts.confined {s : Session m} {origin far : Nat}
    (hosts : s.Hosts p embed origin far) (heeds : ∀ trusted, p.Heeds trusted p.init) :
    (origin ≤ s.cursor ∧ s.cursor ≤ far) ∧
      ∀ k, s.pending = some (.rollback k) → k.Between s.id origin far := by
  obtain ⟨run, asks, pending, -⟩ := hosts
  obtain ⟨hcursor, hreturns⟩ := run.confined heeds
  refine ⟨hcursor, fun k hk => hreturns k ?_⟩
  rw [asks, Option.some.inj (pending.symm.trans hk)]

namespace History

variable {h : History m} {id origin : Nat}

/-- The session with this number is under way and waits on the computation inside. -/
inductive Hosts (h : History m) (p : Machine ι ν α) (embed : p.State → m.State)
    (id origin : Nat) : Prop
  /-- The session is the one under way. -/
  | intro {s : Session m} {far : Nat} (session : h.engine.session = some s) (number : s.id = id)
      (hosts : s.Hosts p embed origin far)

/-- The computation inside the session with this number has come to an end, with the cursor where
the history has it. -/
inductive Ended (h : History m) (p : Machine ι ν α) (id origin : Nat) : Prop
  /-- The last turn asks nothing. -/
  | intro {t : Turn p.State ι ν α} {far : Nat} (run : p.Excursion id origin t h.cursor far)
      (ends : ∀ q, t.resumed ≠ .suspend q)

theorem Ended.le (ended : h.Ended p id origin) (heeds : ∀ trusted, p.Heeds trusted p.init) :
    origin ≤ h.cursor := by
  obtain ⟨run, -⟩ := ended
  exact (run.confined heeds).1.1

/-- A session whose computation asks something waits on it. -/
theorem Sound.session_of_asks (hh : h.Sound) {s : Session m} {c : Nat} {r : Option (Response ι)}
    (hr : h.engine.resumption = some (s, c, r)) {q : Request}
    (asks : (m.resume s.state r).resumed = .suspend q) :
    (h.move .work).engine.session = some (s.waitingOn c q (m.resume s.state r)) := by
  show h.engine.step.engine.session = _
  rcases hh.engine.stepped.resumed hr with ⟨q', ht, eq⟩ | ⟨f, ht, -⟩ | ⟨o, u, ht, -⟩ |
    ⟨o, ht, -⟩ <;> rw [asks] at ht <;> cases ht
  rw [eq]

/-- A step that tells the session something answers the computation inside. -/
theorem Sound.hosts_work (hh : h.Sound) (hcontext : m.Context p embed) {s : Session m}
    (hs : h.engine.session = some s) {far : Nat} (hosts : s.Hosts p embed origin far)
    {s' : Session m} {c : Nat} {r : Option (Response ι)}
    (hr : h.engine.resumption = some (s', c, r)) :
    (h.move .work).Hosts p embed s.id origin ∨ (h.move .work).Ended p s.id origin := by
  obtain ⟨rfl, -, r, -, rfl, -⟩ := hh.exchange_eq hs hr
  obtain ⟨-, -, ev, hanswer⟩ := Engine.resumption_eq_some hr
  obtain @⟨t, q, run, asks, pending, state⟩ := hosts
  have hrun : p.Excursion s'.id origin (p.resume t.state (some r)) c (max far c) :=
    run.answer asks rfl pending hanswer
  by_cases hasks : ∃ q', (p.resume t.state (some r)).resumed = .suspend q'
  · -- what is asked inside is asked outside, and the session waits on it
    obtain ⟨q', hq'⟩ := hasks
    obtain ⟨houter, hstate⟩ := hcontext.asks hq'
    rw [← state] at houter hstate
    exact .inl ⟨hh.session_of_asks hr houter, rfl, hrun, hq', rfl, hstate⟩
  · rw [← cursor_work hr] at hrun
    exact .inr ⟨hrun, not_exists.mp hasks⟩

/-- Where nothing is told, the session waits on, or it is over. -/
theorem Sound.hosts_rest (hh : h.Sound) (hosts : h.Hosts p embed id origin) {h' : History m}
    (hnumber : h'.engine.nextSession = h.engine.nextSession)
    (hsession : h'.engine.session = h.engine.session ∨ h'.engine.session = none) :
    h'.Hosts p embed id origin ∨ h'.Over id := by
  obtain ⟨hs, rfl, hosts⟩ := hosts
  rcases hsession with hsame | hnone
  · exact .inl ⟨hsame.trans hs, rfl, hosts⟩
  · exact .inr (hh.over_of_session hs hnumber hnone)

/-- A move leaves the computation inside waiting, answers it, or ends the session. -/
theorem Sound.hosts_move (hh : h.Sound) (hcontext : m.Context p embed)
    (hosts : h.Hosts p embed id origin) (x : Move ι) :
    (h.move x).Hosts p embed id origin ∨ (h.move x).Ended p id origin ∨ (h.move x).Over id := by
  by_cases hx : x ≠ .work
  · obtain ⟨hnumber, hsession⟩ := session_of_move (h := h) hx
    exact (hh.hosts_rest hosts hnumber hsession).imp_right .inr
  obtain rfl : x = .work := Classical.not_not.mp hx
  cases hr : h.engine.resumption with
  | none =>
    obtain ⟨hnumber, hsession⟩ := hh.session_after_rest hr
    exact (hh.hosts_rest hosts hnumber hsession).imp_right .inr
  | some a =>
    obtain ⟨hs, rfl, hosts⟩ := hosts
    exact (hh.hosts_work hcontext hs hosts hr).imp_right .inl

/-- However an engine is called, it answers a computation inside a session until that computation
has come to an end or the session is over. -/
theorem Sound.hosts_after (hh : h.Sound) (hcontext : m.Context p embed)
    (hosts : h.Hosts p embed id origin) (moves : List (Move ι)) :
    (h.after moves).Hosts p embed id origin ∨
      ∃ before, before <+: moves ∧
        ((h.after before).Ended p id origin ∨ (h.after before).Over id) := by
  induction moves generalizing h with
  | nil => exact .inl hosts
  | cons x moves ih =>
    rcases hh.hosts_move hcontext hosts x with hosts | hleft
    · rcases ih (hh.move x) hosts with hosts | ⟨before, hbefore, hleft⟩
      · exact .inl hosts
      · exact .inr ⟨x :: before, (List.prefix_cons_inj x).mpr hbefore, hleft⟩
    · exact .inr ⟨[x], (List.prefix_cons_inj x).mpr List.nil_prefix, hleft⟩

/-- However an engine is called after a computation has asked its first question inside a session:
as long as the computation runs there, and when it comes to an end, the cursor is not before the
place where it began, and it returns only to places between this one and the furthest that it has
reached. -/
theorem Sound.confined_inside (hh : h.Sound) (hcontext : m.Context p embed)
    (heeds : ∀ trusted, p.Heeds trusted p.init) {s : Session m} (hs : h.engine.session = some s)
    {q : Request} (asks : p.start.resumed = .suspend q) (pending : s.pending = some q)
    (state : s.state = embed p.start.state) (moves : List (Move ι)) :
    (∃ s' far, (h.after moves).engine.session = some s' ∧ s'.id = s.id ∧
        s'.Hosts p embed s.cursor far ∧ (s.cursor ≤ s'.cursor ∧ s'.cursor ≤ far) ∧
        ∀ k, s'.pending = some (.rollback k) → k.Between s.id s.cursor far) ∨
      ∃ before, before <+: moves ∧
        ((h.after before).Ended p s.id s.cursor ∧ s.cursor ≤ (h.after before).cursor ∨
          (h.after before).Over s.id) := by
  have hosts : h.Hosts p embed s.id s.cursor := ⟨hs, rfl, .start, asks, pending, state⟩
  rcases hh.hosts_after hcontext hosts moves with ⟨hs', hid, hosts'⟩ |
    ⟨before, hbefore, hended | hover⟩
  · obtain ⟨hcursor, hreturns⟩ := hosts'.confined heeds
    exact .inl ⟨_, _, hs', hid, hosts', hcursor, hid ▸ hreturns⟩
  · exact .inr ⟨before, hbefore, .inl ⟨hended, hended.le heeds⟩⟩
  · exact .inr ⟨before, hbefore, .inr hover⟩

end History

end Inside

/-! ## Grammars -/

namespace Grammar

variable {ρ : Type → Type}

/-- The parser of a plain grammar that begins at some place in some session and is answered by it:
at none of its turns, be it that it asks, completes or fails, is the cursor before this place.  If
it asks to return to a token, the token is of the session and stands for a place between its
beginning and the furthest place that it has reached. -/
theorem parser_confined {rules : RuleBook ρ ι ν} (hrules : rules.Plain) (depth : Nat)
    {g : Grammar ρ ι ν α} (hg : g.Plain) {id origin c far : Nat}
    {t : Turn (g.parser rules depth).State ι ν α}
    (run : (g.parser rules depth).Excursion id origin t c far) :
    (origin ≤ c ∧ c ≤ far) ∧ ∀ k, t.resumed = .suspend (.rollback k) →
      k.session = id ∧ origin ≤ k.offset ∧ k.offset ≤ far := by
  have hheeds (trusted : Token → Prop) : (g.parser rules depth).Heeds trusted _ :=
    machine_heeds (ruleMachine_heeds hrules depth) hg
  obtain ⟨hcursor, hreturns⟩ := run.confined hheeds
  refine ⟨hcursor, fun k asks => ?_⟩
  obtain ⟨hsession, hlower, hupper⟩ := hreturns k asks
  exact ⟨hsession, hlower, hupper⟩

/-- The second word is read after a return to where the first one began. -/
theorem two_words_confined :
    let m := twoWords.parser noRules 0
    (noRules : RuleBook _ Char Unit).Plain ∧ twoWords.Plain ∧
      ∃ t, m.Excursion 3 1 t 2 2 ∧ t.resumed = .suspend (.rollback ⟨3, 1⟩) ∧
        (1 ≤ 2 ∧ 2 ≤ 2) ∧ ∀ k, t.resumed = .suspend (.rollback k) →
          k.session = 3 ∧ 1 ≤ k.offset ∧ k.offset ≤ 2 := by
  intro m
  -- the session in which the parser began behind the first letter waits on a request
  let asking (c : Nat) (q : Request) : Session m := ⟨3, 1, c, some q, m.init⟩
  have answer (q : Request) {t : Turn m.State Char Unit (Char × Char)} {c far c' : Nat}
      {r : Response Char} {ev : List (Event Char (Char × Char))} (run : m.Excursion 3 1 t c far)
      (asks : t.resumed = .suspend q)
      (answered : (asking c q).answer (.of ['x', 'a', 'c'] 1) true = .ready c' (some r) ev) :
      m.Excursion 3 1 (m.resume t.state (some r)) c' (max far c') :=
    run.answer (s := asking c q) asks rfl rfl answered
  have run := answer .snapshot .start rfl rfl
  replace run := answer .peek run rfl rfl
  replace run := answer .consume run rfl rfl
  replace run := answer .peek run rfl rfl
  replace run := answer .snapshot run rfl rfl
  exact ⟨plain_noRules, plain_twoWords, _, run, rfl,
    parser_confined plain_noRules 0 plain_twoWords run⟩

end Grammar

end ResumableParsing

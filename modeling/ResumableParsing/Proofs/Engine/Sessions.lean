/-
# Sessions one after the other

Over a stream that has arrived as a whole the sessions of an engine do not depend on how the engine
gets there: each is described by what a fresh computation yields where the session begins, and the
next begins where it has ended.  `Machine.Sessions` describes in this way what the sessions deliver,
one rule for each way in which a session goes.

For machines that return only to tokens that they were handed this is all that an engine delivers:
`drain_whole_iff` says that the work comes to an end with these deliveries just when the rules give
them, and `Sound.drain_iff_of_between` says the same from some session on.
-/
import ResumableParsing.Proofs.Engine.Streaming
import ResumableParsing.Proofs.Engine.Termination
import ResumableParsing.Proofs.Engine.Tiling

namespace ResumableParsing

variable {ι ν ο : Type}

/-! ## What sessions deliver -/

/-- What the sessions of a machine deliver over a whole stream, from the session with a number on,
which begins at an offset. -/
inductive Machine.Sessions (m : Machine ι ν ο) (xs : List ι) :
    Nat → Nat → List (Engine.Delivery ι ο) → Prop
  /-- Nothing is left, and only the first session starts without input. -/
  | exhausted {id : Nat} (later : 0 < id) : m.Sessions xs id xs.length []
  /-- The computation completes before it asks anything. -/
  | silent {id c : Nat} {o : ο} (may : id = 0 ∨ c < xs.length)
      (completes : m.start.resumed = .complete o) :
      m.Sessions xs id c [.error (.usage .noConsumption)]
  /-- The computation fails. -/
  | failure {id c n : Nat} {f : Failure ι} (may : id = 0 ∨ c < xs.length)
      (yields : m.Yields ⟨xs, true, id, c⟩ c (.error f) n) :
      m.Sessions xs id c [.error (.failure f n)]
  /-- The computation completes where it began, before input. -/
  | still {id c : Nat} {o : ο} (left : c < xs.length) (asks : ∃ q, m.start.resumed = .suspend q)
      (yields : m.Yields ⟨xs, true, id, c⟩ c (.ok o) c) :
      m.Sessions xs id c [.error (.usage (.noProgress c))]
  /-- The computation completes, and the next session begins where it has ended. -/
  | output {id c n : Nat} {o : ο} {ds : List (Engine.Delivery ι ο)}
      (may : id = 0 ∨ c < xs.length) (asks : ∃ q, m.start.resumed = .suspend q)
      (yields : m.Yields ⟨xs, true, id, c⟩ c (.ok o) n) (progress : c < n ∨ n = xs.length)
      (rest : m.Sessions xs (id + 1) n ds) : m.Sessions xs id c (.ok o :: ds)

namespace History

variable {m : Machine ι ν ο} {h : History m}

/-! ## The course of one session -/

/-- A session that was just started is resumed where it begins, without an answer. -/
theorem resumption_fresh {id c : Nat} {w : Window ι} {finished : Bool}
    (hr : h.engine.Runs (.fresh m id c) w finished) :
    h.engine.resumption = some (.fresh m id c, c, none) :=
  have hanswer : (Session.fresh m id c).answer w finished = .ready c none ([] : List (Event ι ο)) :=
    rfl
  hr.resumption_eq hanswer

/-- A session that comes to a result is resumed for the last time after some steps. -/
theorem Sound.exists_last (hh : h.Sound) {s : Session m} {w : Window ι} {finished : Bool}
    (hr : h.engine.Runs s w finished) {n : Nat} {res : Except (Failure ι) ο}
    (hs : s.Ends w finished res n) :
    ∃ k s' r, (h.works k).engine.Runs s' w finished ∧
      (h.works k).engine.resumption = some (s', n, r) ∧
      (m.resume s'.state r).resumed = .ofResult res ∧ s'.id = s.id ∧ s'.start = s.start ∧
      (s'.pending = none → s' = s) ∧ (h.works k).delivered = h.delivered := by
  -- the induction is on the course of the session, of which every step of work is one resumption
  induction hs generalizing h with
  | complete answered ends =>
    exact ⟨0, _, _, hr, hr.resumption_eq answered, ends, rfl, rfl, fun _ => rfl, rfl⟩
  | fail answered ends =>
    exact ⟨0, _, _, hr, hr.resumption_eq answered, ends, rfl, rfl, fun _ => rfl, rfl⟩
  | @suspend s c n r ev q res answered asks _ ih =>
    have hstep := hr.step_eq answered
    simp only [Engine.resume, asks] at hstep
    have hengine : (h.move .work).engine =
        { h.engine.opened s with session := some (s.waitingOn c q (m.resume s.state r)) } := by
      show h.engine.step.engine = _
      rw [hstep]
      rfl
    have hdelivered : (h.move .work).delivered = h.delivered := by
      show h.delivered ++ h.engine.step.verdict.delivery = _
      rw [hstep]
      exact List.append_nil _
    obtain ⟨k, s', r', hruns, hresumes, hends, hid, hstart, hfresh, hrest⟩ :=
      ih hh.work (by rw [hengine]; exact hr.suspended c q _)
    refine ⟨k + 1, s', r', hruns, hresumes, hends, hid, hstart, fun hnone => ?_,
      hrest.trans hdelivered⟩
    -- a session that has asked something does not become fresh again
    rw [hfresh hnone] at hnone
    cases hnone

/-- A step that delivers an error is the last one. -/
theorem Sound.settled_of_error (hh : h.Sound) {x : ParseError ι}
    (hx : h.engine.step.verdict = .error x) :
    (h.move .work).Settled ∧ (h.move .work).delivered = h.delivered ++ [.error x] := by
  have hdelivery : h.engine.step.verdict.delivery = [.error x] := by rw [hx, Verdict.delivery]
  have hmem : .error x ∈ h.engine.step.verdict.delivery :=
    hdelivery ▸ List.mem_singleton_self _
  exact ⟨settled_of_aborted (hh.error_after_work hmem).1, congrArg (h.delivered ++ ·) hdelivery⟩

/-- The session that is next is resumed, if its computation returns only to tokens that it was
handed. -/
theorem Sound.exists_resumption (hh : h.Sound) (hm : m.Faithful) {s : Session m} {w : Window ι}
    (hr : h.engine.Runs s w true) :
    ∃ c r ev, h.engine.resumption = some (s, c, r) ∧ s.answer w true = .ready c r ev := by
  cases hres : h.engine.resumption with
  | some a =>
    obtain ⟨s', c, r⟩ := a
    obtain ⟨-, hopen, ev, hanswer⟩ := Engine.resumption_eq_some hres
    obtain rfl : s' = s := Option.some.inj (hopen.symm.trans hr.opens)
    rw [hr.window, hr.finished] at hanswer
    exact ⟨c, r, ev, rfl, hanswer⟩
  | none =>
    exfalso
    have hidle : h.engine.step.verdict = .idle := by rw [hh.engine.step_of_stays hm hres]
    rcases hh.engine.rests hidle hr.running with ⟨-, hnone⟩ | ⟨-, -, -, -, hunfinished⟩
    · rcases Engine.openSession_eq_some hr.opens with hactive | ⟨-, -, rfl⟩
      · rw [hnone] at hactive
        cases hactive
      · -- a session that was just started is resumed in any case
        rw [resumption_fresh hr] at hres
        cases hres
    · rw [hr.finished] at hunfinished
      cases hunfinished

/-- If the work comes to an end, so does the session that is next. -/
theorem Sound.exists_ends (hh : h.Sound) (hm : m.Faithful) {s : Session m} {w : Window ι}
    (hr : h.engine.Runs s w true) {k : Nat} (hk : (h.works k).Settled) :
    ∃ res n, s.Ends w true res n := by
  induction k generalizing h s with
  | zero =>
    obtain ⟨c, r, -, hresumes, -⟩ := hh.exists_resumption hm hr
    rw [(hh.step_of_settled hk).1] at hresumes
    cases hresumes
  | succ k ih =>
    obtain ⟨c, r, ev, -, hanswer⟩ := hh.exists_resumption hm hr
    cases ht : (m.resume s.state r).resumed with
    | complete o => exact ⟨.ok o, c, .complete hanswer ht⟩
    | fail f => exact ⟨.error f, c, .fail hanswer ht⟩
    | suspend q =>
      have hengine : (h.move .work).engine =
          { h.engine.opened s with session := some (s.waitingOn c q (m.resume s.state r)) } := by
        show h.engine.step.engine = _
        rw [hr.step_eq hanswer]
        simp only [Engine.resume, ht]
        rfl
      obtain ⟨res, n, hends⟩ := ih hh.work (by rw [hengine]; exact hr.suspended c q _) hk
      exact ⟨res, n, .suspend hanswer ht hends⟩

/-! ## Between sessions -/

/-- The input has ended, no session is under way, and the next one has this number and begins at
this offset. -/
structure Between (h : History m) (id c : Nat) : Prop where
  /-- The history is sound. -/
  sound : h.Sound
  /-- No error has ended the engine. -/
  running : h.engine.aborted = false
  /-- The end of the input was declared. -/
  finished : h.engine.finished = true
  /-- No session is under way. -/
  session : h.engine.session = none
  /-- The number of the next session. -/
  number : h.engine.nextSession = id
  /-- The offset of the next session. -/
  committed : h.engine.committed = c

theorem between_whole (m : Machine ι ν ο) (xs : List ι) : (whole m xs).Between 0 0 :=
  ⟨sound_whole m xs, rfl, rfl, rfl, rfl, rfl⟩

variable {id c n : Nat}

namespace Between

theorem le (hb : h.Between id c) : c ≤ h.fed.length :=
  hb.committed ▸ hb.sound.engine.committed_le

/-- The first session may start, and every other one before input. -/
theorem runs (hb : h.Between id c) (may : id = 0 ∨ c < h.fed.length) :
    h.engine.Runs (.fresh m id c) (.of h.fed c) true where
  running := hb.running
  opens := by
    have hstart : ¬ (0 < h.engine.nextSession ∧ h.engine.window.items = []) := by
      rw [hb.sound.engine.items_eq_nil_iff, hb.number, hb.committed]
      omega
    rw [Engine.openSession, hb.session]
    show (if _ then none else some _) = _
    rw [if_neg hstart, hb.number]
    show some (Session.fresh m id h.engine.committed) = _
    rw [hb.committed]
  window := by rw [hb.sound.engine.window, hb.committed]
  finished := hb.finished

/-- Where nothing is left and the first session is over, nothing can be done. -/
theorem settled (hb : h.Between id c) (later : 0 < id) (hc : c = h.fed.length) : h.Settled := by
  apply settled_of_openSession
  rw [Engine.openSession, hb.session]
  refine if_pos ⟨hb.number ▸ later, ?_⟩
  rw [hb.sound.engine.items_eq_nil_iff, hb.committed, hc]

/-- What a fresh computation yields is what the next session is resumed to for the last time. -/
theorem exists_last (hb : h.Between id c) (may : id = 0 ∨ c < h.fed.length)
    {res : Except (Failure ι) ο} (hyields : m.Yields ⟨h.fed, true, id, c⟩ c res n) :
    ∃ k s r, (h.works k).engine.Runs s (.of h.fed c) true ∧
      (h.works k).engine.resumption = some (s, n, r) ∧
      (m.resume s.state r).resumed = .ofResult res ∧ s.id = id ∧ s.start = c ∧
      (s.pending = none → s = .fresh m id c) ∧ (h.works k).delivered = h.delivered :=
  hb.sound.exists_last (hb.runs may) ((Session.ends_fresh_iff hb.le).mpr hyields)

/-- The failure that a fresh computation yields is delivered and ends the engine. -/
theorem works_of_failure (hb : h.Between id c) (may : id = 0 ∨ c < h.fed.length) {f : Failure ι}
    (hyields : m.Yields ⟨h.fed, true, id, c⟩ c (.error f) n) :
    ∃ k, (h.works k).Settled ∧ (h.works k).delivered = h.delivered ++ [.error (.failure f n)] := by
  obtain ⟨k, s, r, -, hresumes, hfails, -, -, -, hdelivered⟩ := hb.exists_last may hyields
  have hverdict : (h.works k).engine.step.verdict = .error (.failure f n) := by
    rcases (hb.sound.works k).engine.stepped.resumed hresumes with ⟨q, ht, -⟩ | ⟨f', ht, eq⟩ |
      ⟨o, u, ht, -⟩ | ⟨o, ht, -⟩ <;> rw [hfails] at ht <;> cases ht
    rw [eq]
  refine ⟨k + 1, ?_⟩
  rw [works_add h k 1, ← hdelivered]
  exact (hb.sound.works k).settled_of_error hverdict

/-- A computation that completes before it asks anything ends the engine. -/
theorem works_of_silent (hb : h.Between id c) (may : id = 0 ∨ c < h.fed.length) {o : ο}
    (completes : m.start.resumed = .complete o) :
    ∃ k, (h.works k).Settled ∧
      (h.works k).delivered = h.delivered ++ [.error (.usage .noConsumption)] := by
  have hresumes := resumption_fresh (hb.runs may)
  have hverdict : h.engine.step.verdict = .error (.usage .noConsumption) := by
    rcases hb.sound.engine.stepped.resumed hresumes with ⟨q, ht, -⟩ | ⟨f, ht, -⟩ |
      ⟨o', u, -, ⟨-, rfl⟩ | ⟨hasked, -⟩, eq⟩ | ⟨o', -, hasked, -⟩
    · exact absurd (completes.symm.trans ht) nofun
    · exact absurd (completes.symm.trans ht) nofun
    · rw [eq]
    · exact absurd rfl hasked
    · exact absurd rfl hasked
  exact ⟨1, hb.sound.settled_of_error hverdict⟩

/-- What becomes of the output that a fresh computation yields after it has asked something: it is
delivered, and the next session begins where the cursor is; or the session has taken nothing of
what was there, which ends the engine. -/
theorem works_of_output (hb : h.Between id c) (may : id = 0 ∨ c < h.fed.length)
    (asks : ∃ q, m.start.resumed = .suspend q) {o : ο}
    (hyields : m.Yields ⟨h.fed, true, id, c⟩ c (.ok o) n) :
    ∃ k, (c < n ∨ n = h.fed.length) ∧ (h.works k).Between (id + 1) n ∧
          (h.works k).delivered = h.delivered ++ [.ok o] ∨
        n = c ∧ c < h.fed.length ∧ (h.works k).Settled ∧
          (h.works k).delivered = h.delivered ++ [.error (.usage (.noProgress c))] := by
  obtain ⟨k, s, r, hruns, hresumes, hcompletes, hid, hstart, hfresh, hdelivered⟩ :=
    hb.exists_last may hyields
  have hasked : s.pending ≠ none := by
    intro hnone
    obtain ⟨q, hq⟩ := asks
    obtain rfl := hfresh hnone
    -- a session that was just started is resumed without an answer
    have hready := resumption_fresh hruns
    rw [hresumes] at hready
    cases hready
    exact absurd (hq.symm.trans hcompletes) nofun
  have hwithin := (hb.sound.works k).engine.resumption_within hresumes
  rw [fed_works] at hwithin
  have hle : c ≤ n := by
    have hcommitted := (hb.sound.works k).engine.opens (Engine.resumption_eq_some hresumes).2.1
    exact hstart ▸ hcommitted.start ▸ hwithin.1
  refine ⟨k + 1, ?_⟩
  have hengine : (h.works (k + 1)).engine = (h.works k).engine.step.engine := by
    rw [works_add h k 1]
    rfl
  have hdeliver : (h.works (k + 1)).delivered =
      h.delivered ++ (h.works k).engine.step.verdict.delivery := by
    rw [works_add h k 1, ← hdelivered]
    rfl
  rcases (hb.sound.works k).engine.stepped.resumed hresumes with ⟨q, ht, -⟩ | ⟨f, ht, -⟩ |
    ⟨o', u, ht, ⟨hnone, -⟩ | ⟨-, hstill, hlt, rfl⟩, eq⟩ | ⟨o', ht, -, hprogress, eq⟩
  · rw [hcompletes] at ht
    cases ht
  · rw [hcompletes] at ht
    cases ht
  · exact absurd hnone hasked
  · rw [fed_works] at hlt
    obtain rfl : n = c := hstill.trans hstart
    right
    rw [works_add h k 1, ← hdelivered]
    exact ⟨rfl, hlt, (hb.sound.works k).settled_of_error (by rw [eq])⟩
  · rw [hcompletes] at ht
    cases ht
    rw [fed_works] at hprogress
    have hmoved : c < n ∨ n = h.fed.length := by
      by_cases hstill : n = s.start
      · exact .inr (hprogress hstill)
      · exact .inl (by omega)
    left
    rw [hdeliver, eq]
    refine ⟨hmoved, ⟨hb.sound.works (k + 1), ?_, ?_, ?_, ?_, ?_⟩, rfl⟩ <;> rw [hengine, eq]
    · exact hruns.running
    · exact hruns.finished
    · show s.id + 1 = id + 1
      rw [hid]
    · rfl

/-! ## All sessions -/

/-- What the rules give is delivered. -/
theorem settles_of_sessions {ds : List (Engine.Delivery ι ο)} (hb : h.Between id c)
    (hs : m.Sessions h.fed id c ds) :
    ∃ k, (h.works k).Settled ∧ (h.works k).delivered = h.delivered ++ ds := by
  generalize hfed : h.fed = xs at hs
  induction hs generalizing h with
  | exhausted later => exact ⟨0, hb.settled later (by rw [hfed]), (List.append_nil _).symm⟩
  | silent may completes => exact hb.works_of_silent (hfed ▸ may) completes
  | failure may yields => exact hb.works_of_failure (hfed ▸ may) (hfed ▸ yields)
  | still left asks yields =>
    obtain ⟨k, ⟨hmoved, -⟩ | ⟨-, -, hk⟩⟩ :=
      hb.works_of_output (.inr (hfed ▸ left)) asks (hfed ▸ yields)
    · rw [hfed] at hmoved
      omega
    · exact ⟨k, hk⟩
  | output may asks yields progress _ ih =>
    obtain ⟨j, ⟨-, hbetween, hdelivered⟩ | ⟨rfl, hlt, -⟩⟩ :=
      hb.works_of_output (hfed ▸ may) asks (hfed ▸ yields)
    · obtain ⟨k, hsettled, hrest⟩ := ih hbetween (by rw [fed_works, hfed])
      refine ⟨j + k, ?_⟩
      rw [works_add]
      exact ⟨hsettled, by rw [hrest, hdelivered, List.append_assoc, List.singleton_append]⟩
    · rw [hfed] at hlt
      omega

/-- If the work comes to an end, the rules give something. -/
theorem exists_sessions (hb : h.Between id c) (hm : m.Faithful) {k : Nat}
    (hk : (h.works k).Settled) : ∃ ds, m.Sessions h.fed id c ds := by
  -- every session but the first one takes something, so what is left of the stream decreases
  generalize hleft : h.fed.length - c + (if id = 0 then 1 else 0) = left
  induction left using Nat.strongRecOn generalizing h id c with
  | ind left ih =>
    by_cases may : id = 0 ∨ c < h.fed.length
    · cases hstart : m.start.resumed with
      | complete o => exact ⟨_, .silent may hstart⟩
      | fail f => exact ⟨_, .failure may (.fail hstart)⟩
      | suspend q =>
        obtain ⟨res, n, hends⟩ := hb.sound.exists_ends hm (hb.runs may) hk
        have hyields := (Session.ends_fresh_iff hb.le).mp hends
        cases res with
        | error f => exact ⟨_, .failure may hyields⟩
        | ok o =>
          obtain ⟨j, ⟨hmoved, hbetween, -⟩ | ⟨rfl, hlt, -⟩⟩ :=
            hb.works_of_output may ⟨q, hstart⟩ hyields
          · have hsettled : (((h.works j)).works k).Settled := by
              rw [← works_add]
              exact hb.sound.settled_mono (Nat.le_add_left k j) hk
            have hn : n ≤ h.fed.length := by
              have hle := hbetween.le
              rwa [fed_works] at hle
            have hless : (h.works j).fed.length - n + (if id + 1 = 0 then 1 else 0) < left := by
              rw [fed_works, if_neg (Nat.succ_ne_zero id)]
              split at hleft <;> omega
            obtain ⟨ds, hds⟩ := ih _ hless hbetween hsettled rfl
            rw [fed_works] at hds
            exact ⟨_, .output may ⟨q, hstart⟩ hyields hmoved hds⟩
          · exact ⟨_, .still hlt ⟨q, hstart⟩ hyields⟩
    · obtain ⟨hid, hc⟩ := not_or.mp may
      obtain rfl : c = h.fed.length := Nat.le_antisymm hb.le (Nat.not_lt.mp hc)
      exact ⟨[], .exhausted (Nat.pos_of_ne_zero hid)⟩

end Between

/-! ## Draining an engine -/

/-- Draining an engine delivers what its work delivers until nothing can be done. -/
theorem Sound.drain_iff (hh : h.Sound) {ds : List (Engine.Delivery ι ο)} :
    (∃ budget, (h.engine.drain budget).settled = true ∧ (h.engine.drain budget).delivered = ds) ↔
      ∃ k, (h.works k).Settled ∧ (h.works k).delivered = h.delivered ++ ds := by
  constructor
  · rintro ⟨budget, hs, rfl⟩
    obtain ⟨k, hk⟩ := hh.exists_settled hs
    exact ⟨k, hk, (hh.adds_drain_of_settled hk hs).delivered⟩
  · rintro ⟨k, hk, hds⟩
    have hs := hh.settled_drain hk (Nat.lt_succ_self k)
    rw [(hh.adds_drain_of_settled hk hs).delivered] at hds
    exact ⟨k + 1, hs, List.append_cancel_left hds⟩

/-- If some work leads to where the next session begins, draining the engine delivers what this work
has delivered and what the rules give from there on. -/
theorem Sound.drain_iff_of_between (hh : h.Sound) (hm : m.Faithful) {j : Nat}
    {before ds : List (Engine.Delivery ι ο)} (hb : (h.works j).Between id c)
    (hbefore : (h.works j).delivered = h.delivered ++ before) :
    (∃ budget, (h.engine.drain budget).settled = true ∧ (h.engine.drain budget).delivered = ds) ↔
      ∃ es, m.Sessions h.fed id c es ∧ ds = before ++ es := by
  rw [hh.drain_iff]
  constructor
  · rintro ⟨n, hn, hds⟩
    have hlater : ((h.works j).works n).Settled := by
      rw [← works_add]
      exact hh.settled_mono (Nat.le_add_left n j) hn
    obtain ⟨es, hes⟩ := hb.exists_sessions hm hlater
    -- the work comes to an end in one way only
    obtain ⟨n', hn', hlast⟩ := hb.settles_of_sessions hes
    rw [← works_add] at hn' hlast
    rw [hh.works_unique hn hn', hlast, hbefore, List.append_assoc] at hds
    rw [fed_works] at hes
    exact ⟨es, hes, (List.append_cancel_left hds).symm⟩
  · rintro ⟨es, hes, rfl⟩
    obtain ⟨n, hn, hlast⟩ := hb.settles_of_sessions (by rwa [fed_works])
    rw [← works_add] at hn hlast
    exact ⟨j + n, hn, by rw [hlast, hbefore, List.append_assoc]⟩

/-- Draining an engine to which a whole input was fed delivers what the rules give. -/
theorem drain_whole_iff (hm : m.Faithful) {xs : List ι} {ds : List (Engine.Delivery ι ο)} :
    (∃ budget, ((whole m xs).engine.drain budget).settled = true ∧
        ((whole m xs).engine.drain budget).delivered = ds) ↔ m.Sessions xs 0 0 ds := by
  have hb : ((whole m xs).works 0).Between 0 0 := between_whole m xs
  rw [(sound_whole m xs).drain_iff_of_between hm hb (List.append_nil _).symm]
  constructor
  · rintro ⟨es, hes, rfl⟩
    exact hes
  · intro hds
    exact ⟨ds, hds, rfl⟩

/-! ## Parsing a whole input -/

/-- What a whole input is parsed to is gathered from what the rules give. -/
theorem exists_sessions_of_parseAll (hm : m.Faithful) {xs : List ι} {budget : Nat}
    {res : Except (ParseError ι) (List ο)} {notes : List ν}
    (h : parseAll m budget xs = some (res, notes)) :
    ∃ ds, m.Sessions xs 0 0 ds ∧ gather ds = res := by
  rw [parseAll_eq] at h
  split at h
  · rename_i hs
    cases h
    exact ⟨_, (drain_whole_iff hm).mp ⟨budget, hs, rfl⟩, rfl⟩
  · cases h

/-- With every budget that is large enough a whole input is parsed to what is gathered from what the
rules give. -/
theorem parseAll_of_sessions {xs : List ι} {ds : List (Engine.Delivery ι ο)}
    (hs : m.Sessions xs 0 0 ds) :
    ∃ k notes, ∀ budget, k < budget → parseAll m budget xs = some (gather ds, notes) := by
  have hw : (whole m xs).Sound := sound_whole m xs
  obtain ⟨k, hk, hdelivered⟩ := (between_whole m xs).settles_of_sessions hs
  refine ⟨k, ((whole m xs).works k).notes, fun budget hlt => ?_⟩
  have hsettled := hw.settled_drain hk hlt
  have hadds := hw.adds_drain_of_settled hk hsettled
  rw [hadds.delivered] at hdelivered
  rw [parseAll_eq, if_pos hsettled, hadds.notes, ← List.append_cancel_left hdelivered]
  rfl

end History

end ResumableParsing

/-
# Tokens

A session that asks for a token is handed one that stands for its cursor.  As long as the session is
under way the token stays good: its offset lies between the beginning of the session and the end of
what was fed, whatever else is asked and fed meanwhile, so that a return to it is never refused.
Behind it the stream is what it was, with more at the end perhaps, and so a session that goes over
it again is told the same.

`Issued` says of a history that all tokens handed out in the session under way are good, and every
move keeps it.
-/
import ResumableParsing.Proofs.Engine.Window

namespace ResumableParsing

variable {ι ν ο : Type}

/-! ## Looking at the stream -/

/-- A request looks if it asks for the item at the cursor. -/
def Request.looks : Request → Bool
  | .peek | .consume => true
  | .snapshot | .rollback _ => false

/-- A stream goes on as another one: unless its end was declared, more has arrived. -/
def GoesOn (items : List ι) (ended : Bool) (items' : List ι) (ended' : Bool) : Prop :=
  items <+: items' ∧ (ended = true → items' = items ∧ ended' = true)

theorem GoesOn.refl (items : List ι) (ended : Bool) : GoesOn items ended items ended :=
  ⟨List.prefix_refl items, fun h => ⟨rfl, h⟩⟩

theorem GoesOn.trans {items items' items'' : List ι} {ended ended' ended'' : Bool}
    (first : GoesOn items ended items' ended') (second : GoesOn items' ended' items'' ended'') :
    GoesOn items ended items'' ended'' := by
  refine ⟨first.1.trans second.1, fun h => ?_⟩
  obtain ⟨hitems, hended⟩ := first.2 h
  obtain ⟨hitems', hended'⟩ := second.2 hended
  exact ⟨hitems'.trans hitems, hended'⟩

namespace Session

variable {m : Machine ι ν ο}

/-- What requests that follow each other are answered from a window, up to the first that is not. -/
def replies (s : Session m) (w : Window ι) (finished : Bool) : List Request → List (Response ι)
  | [] => []
  | q :: qs =>
    match Session.answer { s with pending := some q } w finished with
    | .ready c (some r) _ => r :: replies { s with cursor := c } w finished qs
    | _ => []

/-- A session that looks at a place is told the same when the stream goes on, whatever session it
is and whatever is retained before the place. -/
theorem answer_of_goesOn (s s' : Session m) {items items' : List ι} {ended ended' : Bool}
    {k k' : Nat} (hgo : GoesOn items ended items' ended') (hk : k ≤ s.cursor) (hk' : k' ≤ s.cursor)
    (hcursor : s'.cursor = s.cursor) {q : Request} (hlooks : q.looks = true)
    (hq : s.pending = some q) (hq' : s'.pending = some q) {c : Nat} {r : Option (Response ι)}
    {ev : List (Event ι ο)} (ha : s.answer (.of items k) ended = .ready c r ev) :
    s.cursor ≤ c ∧ s'.answer (.of items' k') ended' = .ready c r ev := by
  obtain ⟨⟨more, rfl⟩, hend⟩ := hgo
  cases hx : items[s.cursor]? with
  | some x =>
    -- the item has arrived, and stays where it is
    have hx' : (items ++ more)[s.cursor]? = some x := by
      rw [List.getElem?_append_left (List.getElem?_eq_some_iff.mp hx).1, hx]
    cases q with
    | peek =>
      simp only [answer, hq, Window.get?_of hk, hx] at ha
      cases ha
      refine ⟨Nat.le_refl _, ?_⟩
      simp only [answer, hq', hcursor, Window.get?_of hk', hx']
    | consume =>
      simp only [answer, hq, Window.get?_of hk, hx] at ha
      cases ha
      refine ⟨Nat.le_succ _, ?_⟩
      simp only [answer, hq', hcursor, Window.get?_of hk', hx']
    | snapshot | rollback => cases hlooks
  | none =>
    -- a session that is told that the input has ended is told so later
    have hended : ended = true → (items ++ more)[s.cursor]? = none ∧ ended' = true := by
      intro h
      rw [(hend h).1]
      exact ⟨hx, (hend h).2⟩
    cases q with
    | peek | consume =>
      simp only [answer, hq, Window.get?_of hk, hx] at ha
      split at ha
      · rename_i h
        cases ha
        refine ⟨Nat.le_refl _, ?_⟩
        simp only [answer, hq', hcursor, Window.get?_of hk', (hended h).1, (hended h).2, if_true]
      · cases ha
    | snapshot | rollback => cases hlooks

/-- Requests that look at the stream from one place on are answered as before when it goes on. -/
theorem replies_prefix (s s' : Session m) {items items' : List ι} {ended ended' : Bool}
    {k k' : Nat} (hgo : GoesOn items ended items' ended') (hk : k ≤ s.cursor) (hk' : k' ≤ s.cursor)
    (hcursor : s'.cursor = s.cursor) {qs : List Request} (hlooks : ∀ q ∈ qs, q.looks = true) :
    s.replies (.of items k) ended qs <+: s'.replies (.of items' k') ended' qs := by
  induction qs generalizing s s' with
  | nil => exact List.prefix_refl _
  | cons q qs ih =>
    obtain ⟨hq, hqs⟩ := List.forall_mem_cons.mp hlooks
    unfold replies
    split
    · rename_i c r ev ha
      obtain ⟨hc, ha'⟩ := answer_of_goesOn { s with pending := some q }
        { s' with pending := some q } hgo hk hk' hcursor hq rfl rfl ha
      rw [ha']
      have hrest := ih { s with cursor := c } { s' with cursor := c }
        (Nat.le_trans hk hc) (Nat.le_trans hk' hc) rfl hqs
      exact List.prefix_cons_inj r |>.mpr hrest
    · exact List.nil_prefix

theorem answer_of_rollback {s : Session m} {t : Token} (hq : s.pending = some (.rollback t))
    (w : Window ι) (finished : Bool) : s.answer w finished = s.restore w t := by
  rw [answer, hq]

/-- What a session is handed as a token stands for the place where its cursor is then. -/
theorem token_of_answer {s : Session m} {w : Window ι} {finished : Bool} {c : Nat} {t : Token}
    {ev : List (Event ι ο)} (ha : s.answer w finished = .ready c (some (.token t)) ev) :
    t = ⟨s.id, c⟩ := by
  unfold answer at ha
  split at ha
  · cases ha
  · cases ha
    rfl
  · unfold restore at ha
    split at ha
    · cases ha
    · rename_i hid
      split at ha
      · cases ha
      · cases ha
        rw [← Decidable.not_not.mp hid]
  · split at ha
    · cases ha
    · split at ha <;> cases ha
  · split at ha
    · cases ha
    · split at ha <;> cases ha

end Session

namespace History

variable {m : Machine ι ν ο} {h h' : History m}

/-! ## Later moments -/

/-- The stream of a history goes on. -/
theorem goesOn_move (h : History m) (x : Move ι) (hh : h.Sound) :
    GoesOn h.fed h.engine.finished (h.move x).fed (h.move x).engine.finished := by
  cases x with
  | feed xs =>
    rcases h.engine.feed_cases xs with ⟨hrefused, -⟩ | ⟨⟨ha, hf⟩, -⟩
    · rw [move_feed_of_refused hrefused]
      exact .refl _ _
    · rw [fed_move_feed ha hf]
      refine ⟨List.prefix_append _ _, fun hend => ?_⟩
      rw [hf] at hend
      cases hend
  | finish =>
    refine ⟨List.prefix_refl _, fun hend => ⟨rfl, ?_⟩⟩
    show h.engine.finish.1.finished = true
    rwa [Engine.finish_of_ended (.inr hend)]
  | configure limit => exact .refl _ _
  | work =>
    refine ⟨List.prefix_refl _, fun hend => ⟨rfl, ?_⟩⟩
    show h.engine.step.engine.finished = true
    rwa [hh.engine.stepped.keeps.2]

theorem Sound.goesOn_after (hh : h.Sound) (moves : List (Move ι)) :
    GoesOn h.fed h.engine.finished (h.after moves).fed (h.after moves).engine.finished := by
  induction moves generalizing h with
  | nil => exact .refl _ _
  | cons x moves ih => exact (h.goesOn_move x hh).trans (ih (hh.move x))

/-- What was told stays told. -/
theorem told_prefix_after (h : History m) (moves : List (Move ι)) :
    h.told <+: (h.after moves).told := by
  induction moves generalizing h with
  | nil => exact List.prefix_refl _
  | cons x moves ih =>
    refine List.IsPrefix.trans ?_ (ih (h.move x))
    cases x with
    | work => exact List.prefix_append _ _
    | feed | finish | configure => exact List.prefix_refl _

/-- Without work a session stays as it is, or an error ends it. -/
theorem session_of_move {x : Move ι} (hx : x ≠ .work) :
    (h.move x).engine.nextSession = h.engine.nextSession ∧
      ((h.move x).engine.session = h.engine.session ∨ (h.move x).engine.session = none) := by
  cases x with
  | feed xs =>
    refine ⟨h.engine.nextSession_feed xs, ?_⟩
    show (h.engine.feed xs).1.session = _ ∨ (h.engine.feed xs).1.session = none
    rcases h.engine.feed_cases xs with ⟨-, x, heq⟩ | ⟨-, heq | ⟨x, heq⟩⟩ <;> rw [heq]
    · exact .inl rfl
    · exact .inl rfl
    · exact .inr rfl
  | finish =>
    refine ⟨h.engine.nextSession_finish, .inl ?_⟩
    show h.engine.finish.1.session = _
    unfold Engine.finish
    split <;> rfl
  | configure limit => exact ⟨rfl, .inl rfl⟩
  | work => exact absurd rfl hx

/-! ## Tokens that were handed out -/

/-- The tokens that were handed out are those of sessions that were started, and those of the
session under way are good. -/
structure Issued (h : History m) : Prop where
  /-- Only sessions that were started were told anything. -/
  number : ∀ id r, (id, r) ∈ h.told → id < h.engine.nextSession
  /-- A token belongs to the session that it was handed to. -/
  session : ∀ id t, (id, some (.token t)) ∈ h.told → t.session = id
  /-- A token of the session under way stands for a place behind its beginning. -/
  offset : ∀ s t, h.engine.session = some s → (s.id, some (.token t)) ∈ h.told →
    s.start ≤ t.offset ∧ t.offset ≤ h.fed.length

theorem issued_fresh (m : Machine ι ν ο) (limit : Option Nat) : (fresh m limit).Issued where
  number := nofun
  session := nofun
  offset := nofun

/-- A session that is told something waits on its next request afterwards, or it is over. -/
theorem Sound.session_after_work (hh : h.Sound) {s : Session m} {c : Nat}
    {r : Option (Response ι)} (hr : h.engine.resumption = some (s, c, r)) :
    (h.move .work).engine.nextSession = s.id + 1 ∧
      ((h.move .work).engine.session = none ∨
        ∃ q, (h.move .work).engine.session = some (s.waitingOn c q (m.resume s.state r))) := by
  have hengine : (h.move .work).engine = h.engine.step.engine := rfl
  rw [hengine]
  rcases hh.engine.stepped.resumed hr with ⟨q, -, eq⟩ | ⟨f, -, eq⟩ | ⟨o, u, -, -, eq⟩ |
    ⟨o, -, -, -, eq⟩ <;> rw [eq]
  · exact ⟨rfl, .inr ⟨q, rfl⟩⟩
  · exact ⟨rfl, .inl rfl⟩
  · exact ⟨rfl, .inl rfl⟩
  · exact ⟨rfl, .inl rfl⟩

/-- Where nothing is told, a session stays as it is, or an error ends it. -/
theorem Sound.session_after_rest (hh : h.Sound) (hr : h.engine.resumption = none) :
    (h.move .work).engine.nextSession = h.engine.nextSession ∧
      ((h.move .work).engine.session = h.engine.session ∨
        (h.move .work).engine.session = none) := by
  have hengine : (h.move .work).engine = h.engine.step.engine := rfl
  rw [hengine]
  cases hh.engine.stepped with
  | idle _ eq =>
    rw [eq]
    exact ⟨rfl, .inl rfl⟩
  | refused _ _ _ eq =>
    rw [eq]
    exact ⟨rfl, .inr rfl⟩
  | suspended resumes | failed resumes | unproductive resumes | completed resumes =>
    rw [hr] at resumes
    cases resumes

/-- Where nothing is told, tokens stay good as long as their session is under way. -/
theorem Issued.keep (hi : h.Issued) (htold : h'.told = h.told)
    (hnumber : h'.engine.nextSession = h.engine.nextSession)
    (hsession : h'.engine.session = h.engine.session ∨ h'.engine.session = none)
    (hfed : h.fed <+: h'.fed) : h'.Issued where
  number := by
    rw [htold, hnumber]
    exact hi.number
  session := by
    rw [htold]
    exact hi.session
  offset := by
    intro s t hs ht
    rw [htold] at ht
    rcases hsession with hsame | hnone
    · obtain ⟨hlo, hhi⟩ := hi.offset s t (hsame ▸ hs) ht
      exact ⟨hlo, Nat.le_trans hhi hfed.length_le⟩
    · rw [hnone] at hs
      cases hs

/-- A session that is told something is the last that was started. -/
theorem Sound.lt_nextSession (hh : h.Sound) {s : Session m} {c : Nat} {r : Option (Response ι)}
    (hr : h.engine.resumption = some (s, c, r)) : h.engine.nextSession ≤ s.id + 1 := by
  have hrange := congrArg List.length (hh.engine.range_of_resumption hr)
  simp only [List.length_append, List.length_range] at hrange
  omega

theorem Issued.work (hi : h.Issued) (hh : h.Sound) : (h.move .work).Issued := by
  cases hr : h.engine.resumption with
  | none =>
    have htold : (h.move .work).told = h.told := by simp [move, hr]
    obtain ⟨hnumber, hsession⟩ := hh.session_after_rest hr
    exact hi.keep htold hnumber hsession (List.prefix_refl _)
  | some a =>
    obtain ⟨s, c, r⟩ := a
    have htold : (h.move .work).told = h.told ++ [(s.id, r)] := by simp [move, hr]
    obtain ⟨-, hs, ev, hanswer⟩ := Engine.resumption_eq_some hr
    have hnext : h.engine.nextSession ≤ s.id + 1 := hh.lt_nextSession hr
    obtain ⟨hnumber, hsession⟩ := hh.session_after_work hr
    refine ⟨fun id r' hmem => ?_, fun id t hmem => ?_, fun s' t hs' hmem => ?_⟩ <;>
      rw [htold, List.mem_append, List.mem_singleton] at hmem
    · rw [hnumber]
      rcases hmem with hold | hnew
      · exact Nat.lt_of_lt_of_le (hi.number id r' hold) hnext
      · cases hnew
        exact Nat.lt_succ_self _
    · rcases hmem with hold | hnew
      · exact hi.session id t hold
      · cases hnew
        rw [Session.token_of_answer hanswer]
    · show s'.start ≤ t.offset ∧ t.offset ≤ h.fed.length
      have hid : s'.id = s.id ∧ s'.start = s.start := by
        rcases hsession with hnone | ⟨q, hq⟩
        · rw [hnone] at hs'
          cases hs'
        · rw [hq] at hs'
          cases hs'
          exact ⟨rfl, rfl⟩
      rw [hid.1] at hmem
      rw [hid.2]
      rcases hmem with hold | hnew
      · rcases Engine.openSession_eq_some hs with hactive | ⟨-, -, rfl⟩
        · exact hi.offset s t hactive hold
        · -- a session that was just started has been told nothing
          exact absurd (hi.number _ _ hold) (Nat.lt_irrefl _)
      · cases hnew
        rw [Session.token_of_answer hanswer, (hh.engine.opens hs).start]
        exact hh.engine.resumption_within hr

/-- Every move keeps the tokens of the session under way good. -/
theorem Issued.move (hi : h.Issued) (hh : h.Sound) (x : Move ι) : (h.move x).Issued := by
  by_cases hx : x = .work
  · rw [hx]
    exact hi.work hh
  · obtain ⟨hnumber, hsession⟩ := session_of_move (h := h) hx
    refine hi.keep ?_ hnumber hsession (h.goesOn_move x hh).1
    cases x with
    | work => exact absurd rfl hx
    | feed | finish | configure => rfl

theorem Issued.after (hi : h.Issued) (hh : h.Sound) (moves : List (Move ι)) :
    (h.after moves).Issued := by
  induction moves generalizing h with
  | nil => exact hi
  | cons x moves ih => exact ih (hi.move hh x) (hh.move x)

/-- A token that was handed out in the session under way is one to return to. -/
theorem Issued.restore (hi : h.Issued) (hh : h.Sound) {s : Session m}
    (hs : h.engine.session = some s) {t : Token} (ht : (s.id, some (.token t)) ∈ h.told) :
    s.restore h.engine.window t =
      .ready t.offset (some (.token t)) (movement h.engine.window s.cursor t.offset) := by
  obtain ⟨hlo, hhi⟩ := hi.offset s t hs ht
  have hid : ¬ t.session ≠ s.id := not_not_intro (hi.session s.id t ht)
  have hoffset : ¬ (t.offset < s.start ∨ h.engine.window.stop < t.offset) := by
    rw [hh.engine.stop]
    omega
  rw [Session.restore, if_neg hid, if_neg hoffset]

end History

/-! ## Going over the stream again -/

/-- What the session of this number asks and is told in the next step. -/
def Engine.exchange? {m : Machine ι ν ο} (e : Engine m) (id : Nat) :
    Option (Request × Response ι) :=
  match e.resumption with
  | some (s, _, some r) => if s.id = id then s.pending.map (·, r) else none
  | _ => none

namespace History

variable {m : Machine ι ν ο} {h h' : History m}

/-- What the session of this number asks and is told during moves, in order. -/
def exchanged (h : History m) (id : Nat) : List (Move ι) → List (Request × Response ι)
  | [] => []
  | .work :: moves => (h.engine.exchange? id).toList ++ (h.move .work).exchanged id moves
  | x :: moves => (h.move x).exchanged id moves

theorem exchanged_cons {x : Move ι} (hx : x ≠ .work) (h : History m) (id : Nat)
    (moves : List (Move ι)) : h.exchanged id (x :: moves) = (h.move x).exchanged id moves := by
  cases x with
  | work => exact absurd rfl hx
  | feed | finish | configure => rfl

/-- What the session of this number asks and is told as long as it only looks. -/
def looked (h : History m) (id : Nat) (moves : List (Move ι)) : List (Request × Response ι) :=
  (h.exchanged id moves).takeWhile fun x => x.1.looks

/-- The session of this number was started and is not under way any more. -/
def Over (h : History m) (id : Nat) : Prop :=
  id < h.engine.nextSession ∧ ∀ s, h.engine.session = some s → s.id ≠ id

/-- Where a session stays or none is under way, sessions that are over stay so. -/
theorem Over.keep {id : Nat} (ho : h.Over id)
    (hnumber : h'.engine.nextSession = h.engine.nextSession)
    (hsession : h'.engine.session = h.engine.session ∨ h'.engine.session = none) :
    h'.Over id := by
  refine ⟨hnumber ▸ ho.1, fun s hs => ?_⟩
  rcases hsession with hsame | hnone
  · exact ho.2 s (hsame ▸ hs)
  · rw [hnone] at hs
    cases hs

/-- A session that is over is not resumed. -/
theorem Over.ne_of_resumption {id : Nat} (ho : h.Over id) {s : Session m} {c : Nat}
    {r : Option (Response ι)} (hr : h.engine.resumption = some (s, c, r)) : s.id ≠ id := by
  obtain ⟨-, hs, -⟩ := Engine.resumption_eq_some hr
  rcases Engine.openSession_eq_some hs with hactive | ⟨-, -, rfl⟩
  · exact ho.2 s hactive
  · exact Nat.ne_of_gt ho.1

theorem Over.work {id : Nat} (ho : h.Over id) (hh : h.Sound) :
    h.engine.exchange? id = none ∧ (h.move .work).Over id := by
  cases hr : h.engine.resumption with
  | none =>
    obtain ⟨hnumber, hsession⟩ := hh.session_after_rest hr
    exact ⟨by simp [Engine.exchange?, hr], ho.keep hnumber hsession⟩
  | some a =>
    obtain ⟨s, c, r⟩ := a
    have hne : s.id ≠ id := ho.ne_of_resumption hr
    obtain ⟨hnumber, hsession⟩ := hh.session_after_work hr
    refine ⟨?_, Nat.lt_of_lt_of_le ho.1 (hnumber ▸ hh.lt_nextSession hr), fun s' hs' => ?_⟩
    · cases r with
      | none => simp [Engine.exchange?, hr]
      | some r => simp [Engine.exchange?, hr, hne]
    · rcases hsession with hnone | ⟨q, hq⟩
      · rw [hnone] at hs'
        cases hs'
      · rw [hq] at hs'
        cases hs'
        exact hne

/-- A session that is over asks nothing any more. -/
theorem Over.exchanged {id : Nat} (ho : h.Over id) (hh : h.Sound) (moves : List (Move ι)) :
    h.exchanged id moves = [] := by
  induction moves generalizing h with
  | nil => rfl
  | cons x moves ih =>
    by_cases hx : x = .work
    · obtain ⟨hnone, ho'⟩ := ho.work hh
      rw [hx, History.exchanged, hnone, ih ho' hh.work]
      rfl
    · obtain ⟨hnumber, hsession⟩ := session_of_move (h := h) hx
      rw [exchanged_cons hx, ih (ho.keep hnumber hsession) (hh.move x)]

/-- The session under way is over once none is. -/
theorem Sound.over_of_session (hh : h.Sound) {s : Session m} (hs : h.engine.session = some s)
    (hnumber : h'.engine.nextSession = h.engine.nextSession)
    (hnone : h'.engine.session = none) : h'.Over s.id := by
  refine ⟨?_, fun s' hs' => ?_⟩
  · rw [hnumber, ← hh.engine.number s hs]
    exact Nat.lt_succ_self _
  · rw [hnone] at hs'
    cases hs'

/-- The session under way that is told something is over afterwards, or waits on its next
request. -/
theorem Sound.over_or_waits (hh : h.Sound) {s : Session m} (hs : h.engine.session = some s)
    {c : Nat} {r : Option (Response ι)} (hr : h.engine.resumption = some (s, c, r)) :
    (h.move .work).Over s.id ∨
      ∃ q, (h.move .work).engine.session = some (s.waitingOn c q (m.resume s.state r)) := by
  obtain ⟨hnumber, hnone | hwaits⟩ := hh.session_after_work hr
  · exact .inl (hh.over_of_session hs (hnumber.trans (hh.engine.number s hs)) hnone)
  · exact .inr hwaits

/-- A session that is under way and told something has asked for it. -/
theorem Sound.exchange_eq (hh : h.Sound) {s s' : Session m} (hs : h.engine.session = some s)
    {c : Nat} {r : Option (Response ι)} (hr : h.engine.resumption = some (s', c, r)) :
    s' = s ∧ ∃ q r', s.pending = some q ∧ r = some r' ∧
      h.engine.exchange? s.id = some (q, r') := by
  obtain ⟨-, hopen, ev, hanswer⟩ := Engine.resumption_eq_some hr
  have hsame : s' = s := by
    rcases Engine.openSession_eq_some hopen with hactive | ⟨hnone, -⟩
    · exact Option.some.inj (hactive.symm.trans hs)
    · rw [hnone] at hs
      cases hs
  subst hsame
  obtain ⟨hasked, told, hstands⟩ := hh.engine.waits s' hs
  obtain ⟨q, hq⟩ := Option.ne_none_iff_exists'.mp hasked
  have hstart : s'.start = h.engine.committed := hh.engine.start s' hs
  have hwithin := hstands.within (hstart ▸ hh.engine.committed_le)
  rw [hh.engine.window, ← hstart] at hanswer
  obtain ⟨r', -, rfl, -⟩ := (Session.answer_eq_ready_iff hwithin hq).mp hanswer
  exact ⟨rfl, q, r', hq, rfl, by simp [Engine.exchange?, hr, hq]⟩

/-- What a session is told that looks at the stream is what it would have been told at an earlier
moment with its cursor at the same place, if it would have been told anything. -/
theorem Sound.answer_eq_earlier (hh : h.Sound) {items : List ι} {ended : Bool}
    (hgo : GoesOn items ended h.fed h.engine.finished) {s s₀ : Session m}
    (hs : h.engine.session = some s) (hcursor : s₀.cursor = s.cursor) {k : Nat}
    (hk : k ≤ s.cursor) {q : Request} (hlooks : q.looks = true) (hq : s.pending = some q)
    {c c₀ : Nat} {r r₀ : Response ι} {ev₀ : List (Event ι ο)}
    (hr : h.engine.resumption = some (s, c, some r))
    (h₀ : Session.answer { s₀ with pending := some q } (.of items k) ended =
      .ready c₀ (some r₀) ev₀) :
    c₀ = c ∧ r₀ = r ∧ s.cursor ≤ c := by
  obtain ⟨-, -, ev, hanswer⟩ := Engine.resumption_eq_some hr
  have hcommitted : h.engine.committed ≤ s.cursor :=
    hh.engine.start s hs ▸ (hh.engine.session_within hs).2.1
  obtain ⟨hle, hanswer'⟩ := Session.answer_of_goesOn { s₀ with pending := some q } s
    hgo (hcursor ▸ hk) (hcursor ▸ hcommitted) hcursor.symm hlooks rfl hq h₀
  rw [← hh.engine.window, hanswer] at hanswer'
  cases hanswer'
  exact ⟨rfl, rfl, hcursor ▸ hle⟩

/-- As long as a session only looks at the stream, it is told what it would have been told at an
earlier moment with its cursor at the same place, and perhaps more. -/
theorem Sound.replies_prefix_looked (hh : h.Sound) {items : List ι} {ended : Bool}
    (hgo : GoesOn items ended h.fed h.engine.finished) {s : Session m}
    (hs : h.engine.session = some s) (s₀ : Session m) (hcursor : s₀.cursor = s.cursor) {k : Nat}
    (hk : k ≤ s.cursor) (moves : List (Move ι)) :
    s₀.replies (.of items k) ended ((h.looked s.id moves).map Prod.fst) <+:
      (h.looked s.id moves).map Prod.snd := by
  induction moves generalizing h s s₀ with
  | nil => exact List.nil_prefix
  | cons x moves ih =>
    have hgo' := hgo.trans (h.goesOn_move x hh)
    -- a session that is told nothing goes on later, or it is over and asks nothing
    have hrest (hnumber : (h.move x).engine.nextSession = h.engine.nextSession)
        (hsession : (h.move x).engine.session = h.engine.session ∨
          (h.move x).engine.session = none) :
        s₀.replies (.of items k) ended (((h.move x).looked s.id moves).map Prod.fst) <+:
          ((h.move x).looked s.id moves).map Prod.snd := by
      rcases hsession with hsame | hnone
      · exact ih (hh.move x) hgo' (hsame.trans hs) s₀ hcursor hk
      · rw [looked, (hh.over_of_session hs hnumber hnone).exchanged (hh.move x)]
        exact List.nil_prefix
    by_cases hx : x ≠ .work
    · obtain ⟨hnumber, hsession⟩ := session_of_move (h := h) hx
      rw [looked, exchanged_cons hx]
      exact hrest hnumber hsession
    obtain rfl : x = .work := Classical.not_not.mp hx
    cases hr : h.engine.resumption with
    | none =>
      have hnothing : h.engine.exchange? s.id = none := by simp [Engine.exchange?, hr]
      obtain ⟨hnumber, hsession⟩ := hh.session_after_rest hr
      rw [looked, exchanged, hnothing]
      exact hrest hnumber hsession
    | some a =>
      obtain ⟨s', c, r⟩ := a
      obtain ⟨rfl, q, r, hq, rfl, hexchange⟩ := hh.exchange_eq hs hr
      by_cases hlooks : q.looks = true
      · have hlooked : h.looked s'.id (.work :: moves) =
            (q, r) :: (h.move .work).looked s'.id moves := by
          simp [looked, exchanged, hexchange, hlooks]
        rw [hlooked, List.map_cons, List.map_cons, Session.replies]
        split
        · rename_i c₀ r₀ ev₀ h₀
          obtain ⟨rfl, rfl, hle⟩ := hh.answer_eq_earlier hgo hs hcursor hk hlooks hq hr h₀
          refine (List.prefix_cons_inj r₀).mpr ?_
          rcases hh.over_or_waits hs hr with hover | ⟨q', hq'⟩
          · rw [looked, hover.exchanged hh.work]
            exact List.nil_prefix
          · exact ih hh.work hgo' hq' { s₀ with cursor := c₀ } rfl (Nat.le_trans hk hle)
        · exact List.nil_prefix
      · have hlooked : h.looked s'.id (.work :: moves) = [] := by
          simp [looked, exchanged, hexchange, hlooks]
        rw [hlooked]
        exact List.nil_prefix

/-! ## Returning to a token -/

/-- A session under way is the one that the next step is about. -/
theorem Sound.openSession_eq (hh : h.Sound) {s : Session m} (hs : h.engine.session = some s) :
    ¬ h.engine.aborted ∧ h.engine.openSession = some s := by
  constructor
  · intro haborted
    rw [hh.engine.ended haborted] at hs
    cases hs
  · unfold Engine.openSession
    rw [hs]

/-- The session under way is resumed if it is answered. -/
theorem Sound.resumption_of_answer (hh : h.Sound) {s : Session m} (hs : h.engine.session = some s)
    {c : Nat} {r : Option (Response ι)} {ev : List (Event ι ο)}
    (ha : s.answer h.engine.window h.engine.finished = .ready c r ev) :
    h.engine.resumption = some (s, c, r) := by
  obtain ⟨hrunning, hopen⟩ := hh.openSession_eq hs
  unfold Engine.resumption
  rw [if_neg hrunning, hopen]
  simp only [ha]

/-- A step that resumes a session tells it the answer and takes the cursor along. -/
theorem told_work {s : Session m} {c : Nat} {r : Option (Response ι)}
    (hr : h.engine.resumption = some (s, c, r)) :
    (h.move .work).told = h.told ++ [(s.id, r)] := by
  simp only [move, hr]

/-- Behind the place where an answer puts the cursor, a session that goes on and only looks is told
what it would have been told at an earlier moment, and perhaps more. -/
theorem Sound.replies_prefix_looked_work (hh : h.Sound) {items : List ι} {ended : Bool}
    (hgo : GoesOn items ended h.fed h.engine.finished) {s s₀ : Session m}
    (hs : h.engine.session = some s) {c : Nat} {r : Option (Response ι)}
    (hr : h.engine.resumption = some (s, c, r)) (hcursor : s₀.cursor = c) {k : Nat} (hk : k ≤ c)
    (moves : List (Move ι)) :
    s₀.replies (.of items k) ended (((h.move .work).looked s.id moves).map Prod.fst) <+:
      ((h.move .work).looked s.id moves).map Prod.snd := by
  rcases hh.over_or_waits hs hr with hover | ⟨q, hq⟩
  · rw [looked, hover.exchanged hh.work]
    exact List.nil_prefix
  · have hgo' := hgo.trans (h.goesOn_move .work hh)
    exact hh.work.replies_prefix_looked hgo' hq s₀ hcursor hk moves

/-- Where a return is refused, an error ends the engine and is delivered, and nothing else
changes. -/
theorem Sound.work_of_refused (hh : h.Sound) {s : Session m} (hs : h.engine.session = some s)
    {u : UsageError} (ha : (s.answer h.engine.window h.engine.finished : Answer ι ο) = .refused u) :
    h.move .work = { h with
      engine := h.engine.abort, delivered := h.delivered ++ [.error (.usage u)] } := by
  obtain ⟨hrunning, hopen⟩ := hh.openSession_eq hs
  have hopened : h.engine.opened s = h.engine := by rw [Engine.opened, hh.engine.number s hs]
  have hstays : h.engine.resumption = none := by
    unfold Engine.resumption
    rw [if_neg hrunning, hopen]
    simp only [ha]
  have hstep : h.engine.step = ⟨h.engine.abort, [], [], .error (.usage u)⟩ := by
    rw [Engine.step_of_openSession hrunning hopen, ha, hopened]
  simp [History.move, hstays, hstep, Verdict.delivery]

/-- However an engine is called, and at any moment: a session that asks for a token is handed one
that stands for its cursor.  At any later moment of the session a return to a token that was handed
out in it is answered with the token and puts the cursor where the token stands for; requests that
only look at the stream are then answered as they would have been answered earlier behind the token,
and perhaps more of them, both at that moment and while more is fed.  A return to a token of another
session, or to a place outside of what the session may see, ends the engine with an error and does
nothing else. -/
theorem tokens_return (m : Machine ι ν ο) (limit : Option Nat) (moves moves' : List (Move ι)) :
    let h := (fresh m limit).after moves
    let h' := h.after moves'
    (∀ s, h.engine.session = some s → s.pending = some .snapshot →
      (h.move .work).cursor = s.cursor ∧
        (h.move .work).told = h.told ++ [(s.id, some (.token ⟨s.id, s.cursor⟩))]) ∧
    (∀ s s' t, h.engine.session = some s → (s.id, some (.token t)) ∈ h.told →
      h'.engine.session = some s' → s'.id = s.id →
      t.session = s.id ∧
        s'.restore h'.engine.window t = .ready t.offset (some (.token t))
          (movement h'.engine.window s'.cursor t.offset) ∧
        (∀ qs, (∀ q ∈ qs, q.looks = true) →
          Session.replies { s with cursor := t.offset } h.engine.window h.engine.finished qs <+:
            Session.replies { s' with cursor := t.offset } h'.engine.window h'.engine.finished
              qs) ∧
        (s'.pending = some (.rollback t) →
          let back := h'.move .work
          back.cursor = t.offset ∧ back.told = h'.told ++ [(s.id, some (.token t))] ∧
            (∀ s'', back.engine.session = some s'' → s''.cursor = t.offset) ∧
            ∀ moves'',
              Session.replies { s with cursor := t.offset } h.engine.window h.engine.finished
                  ((back.looked s.id moves'').map Prod.fst) <+:
                (back.looked s.id moves'').map Prod.snd)) ∧
    ∀ s t, h.engine.session = some s → s.pending = some (.rollback t) →
      (t.session ≠ s.id → h.move .work = { h with
        engine := h.engine.abort
        delivered := h.delivered ++ [.error (.usage (.foreignSnapshot t.session s.id))] }) ∧
      (t.session = s.id → t.offset < s.start ∨ h.engine.window.stop < t.offset →
        h.move .work = { h with
          engine := h.engine.abort
          delivered := h.delivered ++
            [.error (.usage (.staleSnapshot t.offset s.start h.engine.window.stop))] }) := by
  intro h h'
  have hh : h.Sound := (sound_fresh m limit).after moves
  have hh' : h'.Sound := hh.after moves'
  have hi : h.Issued := (issued_fresh m limit).after (sound_fresh m limit) moves
  have hi' : h'.Issued := hi.after hh moves'
  have hgo : GoesOn h.fed h.engine.finished h'.fed h'.engine.finished := hh.goesOn_after moves'
  refine ⟨fun s hs hq => ?_, fun s s' t hs ht hs' hid => ?_, fun s t hs hq => ⟨?_, ?_⟩⟩
  · have hanswer : s.answer h.engine.window h.engine.finished =
        .ready s.cursor (some (.token ⟨s.id, s.cursor⟩)) [] := by
      simp only [Session.answer, hq]
    have hr := hh.resumption_of_answer hs hanswer
    exact ⟨cursor_work hr, told_work hr⟩
  · have ht' : (s'.id, some (.token t)) ∈ h'.told := by
      rw [hid]
      exact (h.told_prefix_after moves').mem ht
    have hrestore := hi'.restore hh' hs' ht'
    -- the token stands for a place behind the beginning of the window, then and now
    have hlo : h.engine.committed ≤ t.offset := hh.engine.start s hs ▸ (hi.offset s t hs ht).1
    have hlo' : h'.engine.committed ≤ t.offset :=
      hh'.engine.start s' hs' ▸ (hi'.offset s' t hs' ht').1
    refine ⟨hi.session s.id t ht, hrestore, fun qs hqs => ?_, fun hq => ?_⟩
    · rw [hh.engine.window, hh'.engine.window]
      exact Session.replies_prefix { s with cursor := t.offset } { s' with cursor := t.offset }
        hgo hlo hlo' rfl hqs
    · have hr := hh'.resumption_of_answer hs' ((Session.answer_of_rollback hq _ _).trans hrestore)
      refine ⟨cursor_work hr, hid ▸ told_work hr, fun s'' hs'' => ?_, fun moves'' => ?_⟩
      · obtain ⟨-, hnone | ⟨q, hq⟩⟩ := hh'.session_after_work hr
        · rw [hnone] at hs''
          cases hs''
        · rw [hq] at hs''
          cases hs''
          rfl
      · rw [hh.engine.window, ← hid]
        exact hh'.replies_prefix_looked_work hgo hs' hr rfl hlo moves''
  · intro hforeign
    refine hh.work_of_refused hs ?_
    rw [Session.answer_of_rollback hq]
    exact if_pos hforeign
  · intro hsame hout
    refine hh.work_of_refused hs ?_
    rw [Session.answer_of_rollback hq, Session.restore, if_neg (not_not_intro hsame), if_pos hout]

end History

end ResumableParsing

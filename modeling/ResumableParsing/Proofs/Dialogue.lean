/-
# Dialogues

A computation talks to the stream that it reads: it asks, is answered, and asks again until it comes
to an end.  A setting says what it can be answered.  Three relations describe such a dialogue:

* `Leads`: after some answers the computation has come to a certain turn, with the cursor at a
  certain place;
* `Ends`: from a turn on, the dialogue goes on to an output or a failure;
* `Yields`: a fresh computation that starts at a place comes to an output or a failure.

A machine that runs another one inside goes through its phases.  `ends_phase` describes a phase once
and for all: the dialogue of the outer machine is that of the inner one, followed by what the outer
one makes of how the inner one ended.
-/
import ResumableParsing.Machine.Basic

namespace ResumableParsing

variable {ι ν ο α β : Type}

/-- Two turns that differ at most in their notes. -/
def Turn.Alike {σ : Type} (t t' : Turn σ ι ν ο) : Prop :=
  t.state = t'.state ∧ t.resumed = t'.resumed

/-- A turn is like itself. -/
theorem Turn.Alike.of_eq {σ : Type} {t t' : Turn σ ι ν ο} (h : t = t') : t.Alike t' :=
  h ▸ ⟨rfl, rfl⟩

/-- Notes make no difference. -/
theorem Turn.alike_after {σ : Type} (ns : List ν) (t : Turn σ ι ν ο) : (t.after ns).Alike t :=
  ⟨rfl, rfl⟩

/-- What the last turn of a dialogue comes to, by the result of the dialogue. -/
def Resumed.ofResult : Except (Failure ι) ο → Resumed ι ο
  | .ok o => .complete o
  | .error e => .fail e

/-! ## Settings -/

/-- Where a computation runs: what has arrived of the stream, whether the stream ends there, and the
number and the beginning of the session. -/
structure Setting (ι : Type) where
  /-- The items that have arrived, from the beginning of the stream. -/
  items : List ι
  /-- Whether no more will arrive. -/
  ended : Bool
  /-- The number of the session. -/
  session : Nat
  /-- The offset at which the session began. -/
  start : Nat

namespace Setting

/-- What stands at an offset: an item, the end of the input (`some none`), or nothing so far. -/
def look (w : Setting ι) (c : Nat) : Option (Option ι) :=
  match w.items[c]? with
  | some x => some (some x)
  | none => if w.ended then some none else none

/-- The answer to a request that is made at an offset, after the offset that the cursor moves to. -/
def respond (w : Setting ι) (c : Nat) : Request → Option (Nat × Response ι)
  | .peek => (w.look c).map fun
    | some x => (c, .item x)
    | none => (c, .endOfInput)
  | .consume => (w.look c).map fun
    | some x => (c + 1, .item x)
    | none => (c, .endOfInput)
  | .snapshot => some (c, .token ⟨w.session, c⟩)
  | .rollback t =>
    if t.session = w.session ∧ w.start ≤ t.offset ∧ t.offset ≤ w.items.length then
      some (t.offset, .token t)
    else none

/-- The places where the cursor of the session can be. -/
def Within (w : Setting ι) (c : Nat) : Prop := w.start ≤ c ∧ c ≤ w.items.length

/-- The same setting after more items arrived and perhaps the stream ended. -/
def extend (w : Setting ι) (xs : List ι) (ended : Bool) : Setting ι :=
  { w with items := w.items ++ xs, ended := ended }

/-- An item is seen where it stands. -/
theorem look_eq_some_some {w : Setting ι} {c : Nat} {x : ι} :
    w.look c = some (some x) ↔ w.items[c]? = some x := by
  unfold look
  cases h : w.items[c]? with
  | some y => simp
  | none => by_cases hw : w.ended <;> simp [hw]

/-- The end is seen behind the items, once it is known. -/
theorem look_eq_some_none {w : Setting ι} {c : Nat} :
    w.look c = some none ↔ w.items.length ≤ c ∧ w.ended = true := by
  unfold look
  cases h : w.items[c]? with
  | some y =>
    have hc : c < w.items.length := (List.getElem?_eq_some_iff.mp h).1
    simp only [Option.some.injEq, reduceCtorEq, false_iff, not_and]
    omega
  | none =>
    have hc : w.items.length ≤ c := List.getElem?_eq_none_iff.mp h
    by_cases hw : w.ended <;> simp [hw, hc]

@[simp] theorem respond_snapshot (w : Setting ι) (c : Nat) :
    w.respond c .snapshot = some (c, .token ⟨w.session, c⟩) := rfl

/-- A token for a place of the session is honoured. -/
theorem respond_rollback {w : Setting ι} {k : Nat} (hk : w.Within k) (c : Nat) :
    w.respond c (.rollback ⟨w.session, k⟩) = some (k, .token ⟨w.session, k⟩) :=
  if_pos ⟨rfl, hk⟩

/-- The cursor stays within the session. -/
theorem Within.respond {w : Setting ι} {c c' : Nat} {q : Request} {r : Response ι}
    (hc : w.Within c) (h : w.respond c q = some (c', r)) : w.Within c' := by
  cases q with
  | peek =>
    obtain ⟨o, -, ho⟩ := Option.map_eq_some_iff.mp h
    cases o <;> cases ho <;> exact hc
  | consume =>
    obtain ⟨o, hl, ho⟩ := Option.map_eq_some_iff.mp h
    cases o with
    | none => cases ho; exact hc
    | some x =>
      -- an item that is taken is there, so the cursor does not leave the stream
      cases ho
      obtain ⟨hlt, -⟩ := List.getElem?_eq_some_iff.mp (look_eq_some_some.mp hl)
      exact ⟨Nat.le_succ_of_le hc.1, hlt⟩
  | snapshot =>
    cases h
    exact hc
  | rollback t =>
    simp only [Setting.respond] at h
    split at h
    · rename_i ht
      cases h
      exact ht.2
    · cases h

/-- A token that is handed out belongs to the session and to a place within it. -/
theorem Within.respond_token {w : Setting ι} {c c' : Nat} {q : Request} {t : Token}
    (hc : w.Within c) (h : w.respond c q = some (c', .token t)) :
    t.session = w.session ∧ w.Within t.offset := by
  cases q with
  | peek =>
    obtain ⟨o, -, ho⟩ := Option.map_eq_some_iff.mp h
    cases o <;> cases ho
  | consume =>
    obtain ⟨o, -, ho⟩ := Option.map_eq_some_iff.mp h
    cases o <;> cases ho
  | snapshot =>
    cases h
    exact ⟨rfl, hc⟩
  | rollback t =>
    simp only [Setting.respond] at h
    split at h
    · rename_i ht
      cases h
      exact ht
    · cases h

/-- What can be seen stays to be seen when more arrives. -/
theorem look_extend {w : Setting ι} (hw : w.ended = false) {c : Nat} {o : Option ι}
    (h : w.look c = some o) (xs : List ι) (ended : Bool) : (w.extend xs ended).look c = some o := by
  cases o with
  | none =>
    -- no end was seen, since the stream had not ended
    have := (look_eq_some_none.mp h).2
    simp [hw] at this
  | some x =>
    have hx : w.items[c]? = some x := look_eq_some_some.mp h
    have hc : c < w.items.length := (List.getElem?_eq_some_iff.mp hx).1
    rw [look_eq_some_some, extend, List.getElem?_append_left hc, hx]

/-- An answer stays the answer when more arrives. -/
theorem respond_extend {w : Setting ι} (hw : w.ended = false) {c : Nat} {q : Request}
    {a : Nat × Response ι} (h : w.respond c q = some a) (xs : List ι) (ended : Bool) :
    (w.extend xs ended).respond c q = some a := by
  cases q with
  | peek | consume =>
    obtain ⟨o, hl, ho⟩ := Option.map_eq_some_iff.mp h
    exact Option.map_eq_some_iff.mpr ⟨o, look_extend hw hl xs ended, ho⟩
  | snapshot => exact h
  | rollback t =>
    simp only [respond] at h ⊢
    split at h
    · rename_i ht
      have hle : t.offset ≤ (w.extend xs ended).items.length := by
        simp only [extend, List.length_append]
        omega
      rw [if_pos ⟨ht.1, ht.2.1, hle⟩]
      exact h
    · cases h

end Setting

/-! ## The course of a dialogue -/

namespace Machine

variable {m : Machine ι ν ο} {p : Machine ι ν α} {w : Setting ι}

/-- A computation that began the session has been told the answers, the last of them brought it to
the turn, and the cursor is at the place. -/
inductive Leads (m : Machine ι ν ο) (w : Setting ι) :
    List (Option (Response ι)) → Turn m.State ι ν ο → Nat → Prop
  /-- The first resumption has no answer. -/
  | start : m.Leads w [none] m.start w.start
  /-- A turn that asks something leads to the turn that the answer brings about. -/
  | answer {told : List (Option (Response ι))} {t : Turn m.State ι ν ο} {q : Request}
      {c c' : Nat} {r : Response ι} (before : m.Leads w told t c) (asks : t.resumed = .suspend q)
      (answered : w.respond c q = some (c', r)) :
      m.Leads w (told ++ [some r]) (m.resume t.state (some r)) c'

/-- From the turn and the place on, the dialogue comes to the result with the cursor at the last
place. -/
inductive Ends (m : Machine ι ν ο) (w : Setting ι) :
    Turn m.State ι ν ο → Nat → Except (Failure ι) ο → Nat → Prop
  /-- A turn that completes ends the dialogue. -/
  | complete {t : Turn m.State ι ν ο} {c : Nat} {o : ο} (ends : t.resumed = .complete o) :
      m.Ends w t c (.ok o) c
  /-- A turn that fails ends the dialogue. -/
  | fail {t : Turn m.State ι ν ο} {c : Nat} {e : Failure ι} (ends : t.resumed = .fail e) :
      m.Ends w t c (.error e) c
  /-- After a turn that asks something the dialogue goes on with the answer. -/
  | answer {t : Turn m.State ι ν ο} {q : Request} {c c' n : Nat} {r : Response ι}
      {res : Except (Failure ι) ο} (asks : t.resumed = .suspend q)
      (answered : w.respond c q = some (c', r))
      (after : m.Ends w (m.resume t.state (some r)) c' res n) : m.Ends w t c res n

/-- A fresh computation that starts at the place comes to the result. -/
def Yields (m : Machine ι ν ο) (w : Setting ι) (c : Nat) (res : Except (Failure ι) ο) (n : Nat) :
    Prop := m.Ends w m.start c res n

/-! ## Turns that end a dialogue and turns that do not -/

/-- A dialogue whose turn completes has ended with its output. -/
theorem ends_iff_of_complete {t : Turn m.State ι ν ο} {o : ο} (h : t.resumed = .complete o)
    {c n : Nat} {res : Except (Failure ι) ο} : m.Ends w t c res n ↔ res = .ok o ∧ n = c := by
  constructor
  · rintro (h' | h' | ⟨h', -, -⟩) <;> rw [h] at h' <;> cases h'
    exact ⟨rfl, rfl⟩
  · rintro ⟨rfl, rfl⟩
    exact .complete h

/-- A dialogue whose turn fails has ended with its failure. -/
theorem ends_iff_of_fail {t : Turn m.State ι ν ο} {e : Failure ι} (h : t.resumed = .fail e)
    {c n : Nat} {res : Except (Failure ι) ο} : m.Ends w t c res n ↔ res = .error e ∧ n = c := by
  constructor
  · rintro (h' | h' | ⟨h', -, -⟩) <;> rw [h] at h' <;> cases h'
    exact ⟨rfl, rfl⟩
  · rintro ⟨rfl, rfl⟩
    exact .fail h

/-- A dialogue whose turn asks something ends as it does after the answer. -/
theorem ends_iff_of_suspend {t : Turn m.State ι ν ο} {q : Request} (h : t.resumed = .suspend q)
    {c n : Nat} {res : Except (Failure ι) ο} :
    m.Ends w t c res n ↔
      ∃ c' r, w.respond c q = some (c', r) ∧ m.Ends w (m.resume t.state (some r)) c' res n := by
  constructor
  · rintro (h' | h' | ⟨h', hr, ha⟩) <;> rw [h] at h' <;> cases h'
    exact ⟨_, _, hr, ha⟩
  · rintro ⟨c', r, hr, ha⟩
    exact .answer h hr ha

/-- A dialogue whose turn comes to a result has ended with it. -/
theorem ends_iff_of_result {t : Turn m.State ι ν ο} {x : Except (Failure ι) ο}
    (h : t.resumed = .ofResult x) {c n : Nat} {res : Except (Failure ι) ο} :
    m.Ends w t c res n ↔ res = x ∧ n = c := by
  cases x with
  | ok o => exact ends_iff_of_complete h
  | error e => exact ends_iff_of_fail h

/-- A request with a known answer is a step that can be skipped. -/
theorem ends_iff_of_respond {t : Turn m.State ι ν ο} {q : Request} {c c' n : Nat}
    {r : Response ι} {res : Except (Failure ι) ο} (h : t.resumed = .suspend q)
    (hr : w.respond c q = some (c', r)) :
    m.Ends w t c res n ↔ m.Ends w (m.resume t.state (some r)) c' res n := by
  rw [ends_iff_of_suspend h]
  constructor
  · rintro ⟨c'', r', hr', ha⟩
    rw [hr] at hr'
    cases hr'
    exact ha
  · intro ha
    exact ⟨c', r, hr, ha⟩

/-- After a look at the cursor a dialogue goes on with what stands there. -/
theorem ends_iff_of_peek {t : Turn m.State ι ν ο} (h : t.resumed = .suspend .peek) {c n : Nat}
    {res : Except (Failure ι) ο} :
    m.Ends w t c res n ↔
      (∃ x, w.look c = some (some x) ∧ m.Ends w (m.resume t.state (some (.item x))) c res n) ∨
        w.look c = some none ∧ m.Ends w (m.resume t.state (some .endOfInput)) c res n := by
  rcases hl : w.look c with _ | _ | x
  · simp [ends_iff_of_suspend h, Setting.respond, hl]
  · have hr : w.respond c .peek = some (c, .endOfInput) := by simp [Setting.respond, hl]
    simp [ends_iff_of_respond h hr]
  · have hr : w.respond c .peek = some (c, .item x) := by simp [Setting.respond, hl]
    simp [ends_iff_of_respond h hr]

/-- A dialogue that takes an item goes on behind it, and at the end of the input it stays. -/
theorem ends_iff_of_consume {t : Turn m.State ι ν ο} (h : t.resumed = .suspend .consume)
    {c n : Nat} {res : Except (Failure ι) ο} :
    m.Ends w t c res n ↔
      (∃ x, w.look c = some (some x) ∧
        m.Ends w (m.resume t.state (some (.item x))) (c + 1) res n) ∨
        w.look c = some none ∧ m.Ends w (m.resume t.state (some .endOfInput)) c res n := by
  rcases hl : w.look c with _ | _ | x
  · simp [ends_iff_of_suspend h, Setting.respond, hl]
  · have hr : w.respond c .consume = some (c, .endOfInput) := by simp [Setting.respond, hl]
    simp [ends_iff_of_respond h hr]
  · have hr : w.respond c .consume = some (c + 1, .item x) := by simp [Setting.respond, hl]
    simp [ends_iff_of_respond h hr]

/-- The notes of a turn do not matter for what follows. -/
theorem ends_congr {t t' : Turn m.State ι ν ο} (h : t.Alike t') {c n : Nat}
    {res : Except (Failure ι) ο} : m.Ends w t c res n ↔ m.Ends w t' c res n := by
  cases ht : t'.resumed with
  | suspend q => rw [ends_iff_of_suspend (h.2.trans ht), ends_iff_of_suspend ht, h.1]
  | complete o => rw [ends_iff_of_complete (h.2.trans ht), ends_iff_of_complete ht]
  | fail e => rw [ends_iff_of_fail (h.2.trans ht), ends_iff_of_fail ht]

/-- Notes do not change how a dialogue ends. -/
@[simp] theorem ends_after {ns : List ν} {t : Turn m.State ι ν ο} {c n : Nat}
    {res : Except (Failure ι) ο} : m.Ends w (t.after ns) c res n ↔ m.Ends w t c res n :=
  ends_congr (Turn.alike_after ns t)

/-! ## Dialogues as a whole -/

/-- The cursor stays within the session. -/
theorem Leads.within (hw : w.start ≤ w.items.length) {told : List (Option (Response ι))}
    {t : Turn m.State ι ν ο} {c : Nat} (h : m.Leads w told t c) : w.Within c := by
  induction h with
  | start => exact ⟨Nat.le_refl _, hw⟩
  | answer _ _ answered ih => exact ih.respond answered

/-- The dialogue ends within the session. -/
theorem Ends.within {t : Turn m.State ι ν ο} {c n : Nat} {res : Except (Failure ι) ο}
    (h : m.Ends w t c res n) (hc : w.Within c) : w.Within n := by
  induction h with
  | complete | fail => exact hc
  | answer _ answered _ ih => exact ih (hc.respond answered)

/-- Every token that a computation was told belongs to the session and to a place within it. -/
theorem Leads.token_within (hw : w.start ≤ w.items.length) {told : List (Option (Response ι))}
    {t : Turn m.State ι ν ο} {c : Nat} (h : m.Leads w told t c) {k : Token}
    (hk : some (.token k) ∈ told) : k.session = w.session ∧ w.Within k.offset := by
  induction h with
  | start => simp at hk
  | answer before _ answered ih =>
    -- the token was told before, or it is the last answer
    rcases List.mem_append.mp hk with hk | hk
    · exact ih hk
    · cases List.mem_singleton.mp hk
      exact (before.within hw).respond_token answered

/-- A dialogue is not disturbed when more of the stream arrives. -/
theorem Leads.extend (hw : w.ended = false) {told : List (Option (Response ι))}
    {t : Turn m.State ι ν ο} {c : Nat} (h : m.Leads w told t c) (xs : List ι) (ended : Bool) :
    m.Leads (w.extend xs ended) told t c := by
  induction h with
  | start => exact .start
  | answer _ asks answered ih =>
    exact .answer ih asks (Setting.respond_extend hw answered xs ended)

/-- What a dialogue has come to it comes to when more of the stream arrives. -/
theorem Ends.extend (hw : w.ended = false) {t : Turn m.State ι ν ο} {c n : Nat}
    {res : Except (Failure ι) ο} (h : m.Ends w t c res n) (xs : List ι) (ended : Bool) :
    m.Ends (w.extend xs ended) t c res n := by
  induction h with
  | complete ends => exact .complete ends
  | fail ends => exact .fail ends
  | answer asks answered _ ih => exact .answer asks (Setting.respond_extend hw answered xs ended) ih

/-- A computation that asks something later asks something at first. -/
theorem Leads.start_asks {told : List (Option (Response ι))} {t : Turn m.State ι ν ο} {c : Nat}
    (h : m.Leads w told t c) (hasks : ∃ q, t.resumed = .suspend q) :
    ∃ q, m.start.resumed = .suspend q := by
  induction h with
  | start => exact hasks
  | answer _ asks _ ih => exact ih ⟨_, asks⟩

/-- What follows a turn that a session leads to is what the session yields. -/
theorem Leads.yields {told : List (Option (Response ι))} {t : Turn m.State ι ν ο} {c n : Nat}
    {res : Except (Failure ι) ο} (h : m.Leads w told t c) (he : m.Ends w t c res n) :
    m.Yields w w.start res n := by
  induction h with
  | start => exact he
  | answer _ asks answered ih => exact ih (.answer asks answered he)

/-! ## Phases -/

/-- The place where something happened that leaves the cursor there is the last place. -/
theorem exists_place_iff {P : Nat → Prop} {Q : Prop} {n : Nat} :
    (∃ k, P k ∧ Q ∧ n = k) ↔ P n ∧ Q := by
  constructor
  · rintro ⟨k, hk, hq, rfl⟩
    exact ⟨hk, hq⟩
  · rintro ⟨hn, hq⟩
    exact ⟨n, hn, hq, rfl⟩

/-- While the machine `m` runs the machine `p` inside, their turns correspond: `embed` says how a
turn of `p` looks from outside, and `completed` and `failed` what follows the end of `p`.  Then the
dialogue of `m` is the dialogue of `p` and what follows it. -/
theorem ends_phase (embed : Turn p.State ι ν α → Turn m.State ι ν ο)
    (completed : α → Nat → Except (Failure ι) ο → Nat → Prop)
    (failed : Failure ι → Nat → Except (Failure ι) ο → Nat → Prop)
    (suspends : ∀ t q, t.resumed = .suspend q → (embed t).resumed = .suspend q ∧
      ∀ r, (m.resume (embed t).state (some r)).Alike (embed (p.resume t.state (some r))))
    (completes : ∀ t a c res n, t.resumed = .complete a →
      (m.Ends w (embed t) c res n ↔ completed a c res n))
    (fails : ∀ t e c res n, t.resumed = .fail e →
      (m.Ends w (embed t) c res n ↔ failed e c res n))
    {t : Turn p.State ι ν α} {c n : Nat} {res : Except (Failure ι) ο} :
    m.Ends w (embed t) c res n ↔
      (∃ a k, p.Ends w t c (.ok a) k ∧ completed a k res n) ∨
        ∃ e k, p.Ends w t c (.error e) k ∧ failed e k res n := by
  constructor
  · -- a turn of `p` that asks nothing ends its dialogue, and the rest of that of `m` follows it
    have ended {t : Turn p.State ι ν α} {c n : Nat} {res : Except (Failure ι) ο}
        (hends : m.Ends w (embed t) c res n) (hover : ∀ q, t.resumed ≠ .suspend q) :
        (∃ a k, p.Ends w t c (.ok a) k ∧ completed a k res n) ∨
          ∃ e k, p.Ends w t c (.error e) k ∧ failed e k res n := by
      cases ht : t.resumed with
      | suspend q => exact absurd ht (hover q)
      | complete a => exact .inl ⟨a, c, .complete ht, (completes t a _ _ _ ht).mp hends⟩
      | fail e => exact .inr ⟨e, c, .fail ht, (fails t e _ _ _ ht).mp hends⟩
    intro h
    -- the induction is on the dialogue of `m`, whose turns are those of `p` but for the notes
    generalize hT : embed t = T at h
    replace hT : (embed t).Alike T := ⟨congrArg _ hT, congrArg _ hT⟩
    induction h generalizing t with
    | @complete T c o ends =>
      refine ended ((ends_congr hT).mpr (.complete ends)) fun q ht => ?_
      rw [← hT.2, (suspends t q ht).1] at ends
      cases ends
    | @fail T c e ends =>
      refine ended ((ends_congr hT).mpr (.fail ends)) fun q ht => ?_
      rw [← hT.2, (suspends t q ht).1] at ends
      cases ends
    | @answer T q c c' n r res asks answered after ih =>
      by_cases hover : ∀ q', t.resumed ≠ .suspend q'
      · exact ended ((ends_congr hT).mpr (.answer asks answered after)) hover
      · obtain ⟨q', ht⟩ : ∃ q', t.resumed = .suspend q' := by simpa using hover
        obtain ⟨hq, hresume⟩ := suspends t q' ht
        obtain rfl : q' = q := Resumed.suspend.inj (hq.symm.trans (hT.2.trans asks))
        rw [hT.1] at hresume
        rcases ih ⟨(hresume r).1.symm, (hresume r).2.symm⟩ with ⟨a, k, ha, hk⟩ | ⟨e, k, he, hk⟩
        · exact .inl ⟨a, k, .answer ht answered ha, hk⟩
        · exact .inr ⟨e, k, .answer ht answered he, hk⟩
  · -- in the other direction the induction is on the dialogue of `p`
    have back {t : Turn p.State ι ν α} {c k : Nat} {x : Except (Failure ι) α}
        (hx : p.Ends w t c x k) (hok : ∀ a, x = .ok a → completed a k res n)
        (herror : ∀ e, x = .error e → failed e k res n) : m.Ends w (embed t) c res n := by
      induction hx with
      | complete ends => exact (completes _ _ _ _ _ ends).mpr (hok _ rfl)
      | fail ends => exact (fails _ _ _ _ _ ends).mpr (herror _ rfl)
      | answer asks answered _ ih =>
        obtain ⟨hq, hresume⟩ := suspends _ _ asks
        exact .answer hq answered ((ends_congr (hresume _)).mpr (ih hok herror))
    rintro (⟨a, k, ha, hk⟩ | ⟨e, k, he, hk⟩)
    · exact back ha (fun _ h => Except.ok.inj h ▸ hk) nofun
    · exact back he nofun fun _ h => Except.error.inj h ▸ hk

/-- A phase whose failure passes. -/
theorem ends_sequence (embed : Turn p.State ι ν α → Turn m.State ι ν ο)
    (completed : α → Nat → Except (Failure ι) ο → Nat → Prop)
    (suspends : ∀ t q, t.resumed = .suspend q → (embed t).resumed = .suspend q ∧
      ∀ r, (m.resume (embed t).state (some r)).Alike (embed (p.resume t.state (some r))))
    (completes : ∀ t a c res n, t.resumed = .complete a →
      (m.Ends w (embed t) c res n ↔ completed a c res n))
    (fails : ∀ t e, t.resumed = .fail e → (embed t).resumed = .fail e)
    {t : Turn p.State ι ν α} {c n : Nat} {res : Except (Failure ι) ο} :
    m.Ends w (embed t) c res n ↔
      (∃ a k, p.Ends w t c (.ok a) k ∧ completed a k res n) ∨
        ∃ e, p.Ends w t c (.error e) n ∧ res = .error e := by
  rw [ends_phase embed completed (fun e k res n => res = .error e ∧ n = k) suspends completes
    fun t e c res n h => ends_iff_of_fail (fails t e h)]
  refine or_congr Iff.rfl (exists_congr fun e => ?_)
  exact exists_place_iff

/-- A phase at whose end the dialogue ends as well, with a result that may be different. -/
theorem ends_translate (embed : Turn p.State ι ν α → Turn m.State ι ν ο)
    (change : Except (Failure ι) α → Except (Failure ι) ο)
    (suspends : ∀ t q, t.resumed = .suspend q → (embed t).resumed = .suspend q ∧
      ∀ r, (m.resume (embed t).state (some r)).Alike (embed (p.resume t.state (some r))))
    (ends : ∀ t x, t.resumed = .ofResult x → (embed t).resumed = .ofResult (change x))
    {t : Turn p.State ι ν α} {c n : Nat} {res : Except (Failure ι) ο} :
    m.Ends w (embed t) c res n ↔ ∃ x, p.Ends w t c x n ∧ res = change x := by
  rw [ends_phase embed (fun a k res n => res = change (.ok a) ∧ n = k)
    (fun e k res n => res = change (.error e) ∧ n = k) suspends
    (fun t a c res n h => ends_iff_of_result (ends t (.ok a) h))
    (fun t e c res n h => ends_iff_of_result (ends t (.error e) h))]
  constructor
  · rintro (⟨a, k, ha, hres, rfl⟩ | ⟨e, k, he, hres, rfl⟩)
    · exact ⟨_, ha, hres⟩
    · exact ⟨_, he, hres⟩
  · rintro ⟨a | e, hx, hres⟩
    · exact .inr ⟨_, n, hx, hres, rfl⟩
    · exact .inl ⟨_, n, hx, hres, rfl⟩

end Machine

end ResumableParsing

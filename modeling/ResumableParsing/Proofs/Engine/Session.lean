/-
# Sessions as dialogues

The window of an engine holds the stream from where the session began.  What a session is answered
from the window is what the setting of the session responds, so that a session that is answered
again and again follows the dialogue of its computation.
-/
import ResumableParsing.Engine.Session
import ResumableParsing.Proofs.Dialogue

namespace ResumableParsing

variable {ι ν ο : Type}

/-! ## Windows of a stream -/

namespace Window

/-- What is retained of a stream from an offset on. -/
def of (xs : List ι) (k : Nat) : Window ι := ⟨k, xs.drop k⟩

@[simp] theorem start_of (xs : List ι) (k : Nat) : (of xs k).start = k := rfl

@[simp] theorem items_of (xs : List ι) (k : Nat) : (of xs k).items = xs.drop k := rfl

/-- In the window stands what stands in the stream. -/
theorem get?_of {xs : List ι} {k c : Nat} (h : k ≤ c) : (of xs k).get? c = xs[c]? := by
  rw [get?, if_neg (by simpa using h), items_of, start_of, List.getElem?_drop,
    Nat.add_sub_cancel' h]

/-- The window goes up to the end of the stream. -/
theorem stop_of {xs : List ι} {k : Nat} (h : k ≤ xs.length) : (of xs k).stop = xs.length := by
  rw [stop, start_of, items_of, List.length_drop, Nat.add_sub_cancel' h]

/-- Items that are fed are added to the stream. -/
theorem append_of {xs : List ι} {k : Nat} (h : k ≤ xs.length) (ys : List ι) :
    (of xs k).append ys = of (xs ++ ys) k := by
  rw [append, items_of, start_of, of, List.drop_append_of_le_length h]

/-- To discard items is to start the window further on. -/
theorem discardBefore_of {xs : List ι} {k c : Nat} (hk : k ≤ c) (hc : c ≤ xs.length) :
    (of xs k).discardBefore c = of xs c := by
  have hcount : min (c - k) (xs.drop k).length = c - k := by
    rw [List.length_drop]
    omega
  rw [discardBefore, items_of, start_of, hcount, List.drop_drop, Nat.add_sub_cancel' hk, of]

/-- A slice of the window is one of the stream. -/
theorem slice_of {xs : List ι} {k lo : Nat} (h : k ≤ lo) (hi : Nat) :
    (of xs k).slice lo hi = (xs.drop lo).take (hi - lo) := by
  rw [slice, items_of, start_of, List.drop_drop, Nat.add_sub_cancel' h, Nat.max_eq_left h]

/-- A slice of what has arrived does not depend on what arrives later. -/
theorem slice_append_of {xs : List ι} {k lo hi : Nat} (hk : k ≤ lo) (hlo : lo ≤ xs.length)
    (hhi : hi ≤ xs.length) (ys : List ι) :
    (of (xs ++ ys) k).slice lo hi = (of xs k).slice lo hi := by
  have hle : hi - lo ≤ (xs.drop lo).length := by
    rw [List.length_drop]
    omega
  rw [slice_of hk, slice_of hk, List.drop_append_of_le_length hlo,
    List.take_append_of_le_length hle]

end Window

/-- A movement over what has arrived does not depend on what arrives later. -/
theorem movement_append_of {xs : List ι} {k here there : Nat}
    (hhere : k ≤ here ∧ here ≤ xs.length) (hthere : k ≤ there ∧ there ≤ xs.length) (ys : List ι) :
    movement (ο := ο) (.of (xs ++ ys) k) here there = movement (.of xs k) here there := by
  unfold movement
  rw [Window.slice_append_of hthere.1 hthere.2 hhere.2,
    Window.slice_append_of hhere.1 hhere.2 hthere.2]

/-- A cursor that stays meets nothing. -/
@[simp] theorem movement_self (w : Window ι) (c : Nat) :
    movement w c c = ([] : List (Event ι ο)) := by
  rw [movement, if_neg (Nat.lt_irrefl c), Window.slice,
    Nat.sub_eq_zero_of_le (Nat.le_max_left c w.start), List.take_zero, List.map_nil]

/-- A cursor that goes past an item consumes it. -/
theorem movement_succ {xs : List ι} {k c : Nat} {x : ι} (hk : k ≤ c) (hx : xs[c]? = some x) :
    movement (.of xs k) c (c + 1) = ([.consumed x] : List (Event ι ο)) := by
  obtain ⟨hc, rfl⟩ := List.getElem?_eq_some_iff.mp hx
  rw [movement, if_neg (by omega), Window.slice_of hk, List.drop_eq_getElem_cons hc,
    Nat.add_sub_cancel_left]
  rfl

/-! ## Answers -/

namespace Session

variable {m : Machine ι ν ο}

/-- The setting of a session. -/
def setting (s : Session m) (items : List ι) (ended : Bool) : Setting ι :=
  ⟨items, ended, s.id, s.start⟩

variable {s : Session m} {items : List ι} {ended : Bool}

/-- A look is answered with what stands at the cursor, if this is known. -/
theorem answer_peek (hc : s.start ≤ s.cursor) (hq : s.pending = some .peek) :
    s.answer (ο := ο) (.of items s.start) ended =
      match (s.setting items ended).look s.cursor with
      | some (some x) => .ready s.cursor (some (.item x)) []
      | some none => .ready s.cursor (some .endOfInput) []
      | none => .starved := by
  simp only [answer, hq, Window.get?_of hc, Setting.look, setting]
  cases items[s.cursor]? <;> cases ended <;> rfl

/-- An item is handed out and the cursor goes past it. -/
theorem answer_consume (hc : s.start ≤ s.cursor) (hq : s.pending = some .consume) :
    s.answer (ο := ο) (.of items s.start) ended =
      match (s.setting items ended).look s.cursor with
      | some (some x) => .ready (s.cursor + 1) (some (.item x)) [.consumed x]
      | some none => .ready s.cursor (some .endOfInput) []
      | none => .starved := by
  simp only [answer, hq, Window.get?_of hc, Setting.look, setting]
  cases items[s.cursor]? <;> cases ended <;> rfl

/-- A return is answered if the token is of this session and of a place in its window. -/
theorem answer_rollback (hc : s.start ≤ items.length) {t : Token}
    (hq : s.pending = some (.rollback t)) :
    s.answer (ο := ο) (.of items s.start) ended =
      if t.session ≠ s.id then .refused (.foreignSnapshot t.session s.id)
      else if t.offset < s.start ∨ items.length < t.offset then
        .refused (.staleSnapshot t.offset s.start items.length)
      else .ready t.offset (some (.token t)) (movement (.of items s.start) s.cursor t.offset) := by
  simp only [answer, hq, restore, Window.stop_of hc]

/-- A session is resumed with what its setting responds, and told how the cursor moves. -/
theorem answer_of_respond (hc : (s.setting items ended).Within s.cursor) {q : Request}
    (hq : s.pending = some q) {c : Nat} {r : Response ι}
    (h : (s.setting items ended).respond s.cursor q = some (c, r)) :
    s.answer (ο := ο) (.of items s.start) ended =
      .ready c (some r) (movement (.of items s.start) s.cursor c) := by
  have hlo : s.start ≤ s.cursor := hc.1
  have hle : s.start ≤ items.length := Nat.le_trans hlo hc.2
  cases q with
  | peek =>
    obtain ⟨o, hl, ho⟩ := Option.map_eq_some_iff.mp h
    rw [answer_peek hlo hq, hl]
    cases o <;> cases ho <;> rw [movement_self]
  | consume =>
    obtain ⟨o, hl, ho⟩ := Option.map_eq_some_iff.mp h
    rw [answer_consume hlo hq, hl]
    cases o with
    | none => cases ho; rw [movement_self]
    | some x =>
      cases ho
      have hx : items[s.cursor]? = some x := Setting.look_eq_some_some.mp hl
      rw [movement_succ hlo hx]
  | snapshot =>
    cases h
    simp only [answer, hq, movement_self]
    rfl
  | rollback t =>
    simp only [Setting.respond] at h
    split at h
    · rename_i ht
      cases h
      -- the token is of this session and stands for a place that is retained
      obtain ⟨hid, hmin, hmax⟩ := ht
      have hsession : ¬ t.session ≠ s.id := not_not_intro hid
      have hoffset : ¬ (t.offset < s.start ∨ items.length < t.offset) :=
        not_or.mpr ⟨Nat.not_lt_of_le hmin, Nat.not_lt_of_le hmax⟩
      rw [answer_rollback hle hq, if_neg hsession, if_neg hoffset]
    · cases h

/-- Where its setting does not respond, a session is starved of an item or refused a token. -/
theorem answer_of_not_respond (hc : (s.setting items ended).Within s.cursor) {q : Request}
    (hq : s.pending = some q) (h : (s.setting items ended).respond s.cursor q = none) :
    s.answer (ο := ο) (.of items s.start) ended = .starved ∨
      ∃ t u, q = .rollback t ∧ s.answer (ο := ο) (.of items s.start) ended = .refused u := by
  have hlo : s.start ≤ s.cursor := hc.1
  have hle : s.start ≤ items.length := Nat.le_trans hlo hc.2
  cases q with
  | peek =>
    have hl : (s.setting items ended).look s.cursor = none := Option.map_eq_none_iff.mp h
    rw [answer_peek hlo hq, hl]
    exact .inl rfl
  | consume =>
    have hl : (s.setting items ended).look s.cursor = none := Option.map_eq_none_iff.mp h
    rw [answer_consume hlo hq, hl]
    exact .inl rfl
  | snapshot => cases h
  | rollback t =>
    right
    simp only [Setting.respond] at h
    split at h
    · cases h
    · rename_i ht
      rw [answer_rollback hle hq]
      by_cases hsession : t.session = s.id
      · have hoffset : t.offset < s.start ∨ items.length < t.offset := by
          have hout : ¬ (s.start ≤ t.offset ∧ t.offset ≤ items.length) :=
            fun hin => ht ⟨hsession, hin⟩
          omega
        rw [if_neg (not_not_intro hsession), if_pos hoffset]
        exact ⟨t, _, rfl, rfl⟩
      · rw [if_pos hsession]
        exact ⟨t, _, rfl, rfl⟩

/-- A session is resumed just when its setting responds. -/
theorem answer_eq_ready_iff (hc : (s.setting items ended).Within s.cursor) {q : Request}
    (hq : s.pending = some q) {c : Nat} {r : Option (Response ι)} {ev : List (Event ι ο)} :
    s.answer (.of items s.start) ended = .ready c r ev ↔
      ∃ r', (s.setting items ended).respond s.cursor q = some (c, r') ∧ r = some r' ∧
        ev = movement (.of items s.start) s.cursor c := by
  cases h : (s.setting items ended).respond s.cursor q with
  | none =>
    rcases answer_of_not_respond (ο := ο) hc hq h with ha | ⟨t, u, -, ha⟩ <;> simp [ha]
  | some a =>
    rw [answer_of_respond hc hq h]
    constructor
    · rintro ⟨⟩
      exact ⟨a.2, rfl, rfl, rfl⟩
    · rintro ⟨r', ⟨⟩, rfl, rfl⟩
      rfl

/-! ## Where a session stands -/

/-- A session that was started and not resumed yet. -/
def fresh (m : Machine ι ν ο) (id start : Nat) : Session m := ⟨id, start, start, none, m.init⟩

/-- A session whose cursor is at a place, where a fresh computation is about to be resumed. -/
def begun (m : Machine ι ν ο) (id start c : Nat) : Session m := ⟨id, start, c, none, m.init⟩

/-- The session after a resumption in which its computation asked something. -/
def waitingOn (s : Session m) (cursor : Nat) (q : Request) (t : Turn m.State ι ν ο) : Session m :=
  { s with cursor := cursor, pending := some q, state := t.state }

/-- Where a session stands in the dialogue of its computation after some answers. -/
inductive Stands (s : Session m) (items : List ι) (ended : Bool) :
    List (Option (Response ι)) → Prop
  /-- The computation was not resumed yet. -/
  | fresh (eq : s = .fresh m s.id s.start) : s.Stands items ended []
  /-- The computation waits on its last request. -/
  | waiting {told : List (Option (Response ι))} {t : Turn m.State ι ν ο} {q : Request}
      (leads : m.Leads (s.setting items ended) told t s.cursor) (asks : t.resumed = .suspend q)
      (eq : s = s.waitingOn s.cursor q t) : s.Stands items ended told

variable {told : List (Option (Response ι))}

/-- The cursor is between the beginning of the session and the end of what has arrived. -/
theorem Stands.within (h : s.Stands items ended told) (hs : s.start ≤ items.length) :
    (s.setting items ended).Within s.cursor := by
  cases h with
  | fresh eq =>
    rw [eq]
    exact ⟨Nat.le_refl _, hs⟩
  | waiting leads => exact leads.within hs

/-- A session stands where it stood when more of the stream arrives. -/
theorem Stands.extend (h : s.Stands items false told) (xs : List ι) (ended : Bool) :
    s.Stands (items ++ xs) ended told := by
  cases h with
  | fresh eq => exact .fresh eq
  | waiting leads asks eq => exact .waiting (leads.extend rfl xs ended) asks eq

/-- A session that is resumed goes on with the dialogue. -/
theorem Stands.resume (h : s.Stands items ended told) (hs : s.start ≤ items.length) {c : Nat}
    {r : Option (Response ι)} {ev : List (Event ι ο)}
    (ha : s.answer (.of items s.start) ended = .ready c r ev) :
    m.Leads (s.setting items ended) (told ++ [r]) (m.resume s.state r) c ∧
      ev = movement (.of items s.start) s.cursor c := by
  cases h with
  | fresh eq =>
    rw [eq] at ha ⊢
    cases ha
    exact ⟨.start, (movement_self _ _).symm⟩
  | waiting leads asks eq =>
    have hq : s.pending = some _ := congrArg Session.pending eq
    have hstate : s.state = _ := congrArg Session.state eq
    obtain ⟨r', hr, rfl, rfl⟩ := (answer_eq_ready_iff (leads.within hs) hq).mp ha
    rw [hstate]
    exact ⟨.answer leads asks hr, rfl⟩

/-! ## The end of a session -/

/-- Answered from the window again and again, the session comes to the result with the cursor at the
last place. -/
inductive Ends (w : Window ι) (finished : Bool) :
    Session m → Except (Failure ι) ο → Nat → Prop
  /-- A resumption completes. -/
  | complete {s : Session m} {c : Nat} {r : Option (Response ι)} {ev : List (Event ι ο)} {o : ο}
      (answered : s.answer w finished = .ready c r ev)
      (ends : (m.resume s.state r).resumed = .complete o) : Ends w finished s (.ok o) c
  /-- A resumption fails. -/
  | fail {s : Session m} {c : Nat} {r : Option (Response ι)} {ev : List (Event ι ο)}
      {e : Failure ι} (answered : s.answer w finished = .ready c r ev)
      (ends : (m.resume s.state r).resumed = .fail e) : Ends w finished s (.error e) c
  /-- A resumption asks something else, and the session goes on. -/
  | suspend {s : Session m} {c n : Nat} {r : Option (Response ι)} {ev : List (Event ι ο)}
      {q : Request} {res : Except (Failure ι) ο} (answered : s.answer w finished = .ready c r ev)
      (asks : (m.resume s.state r).resumed = .suspend q)
      (after : Ends w finished (s.waitingOn c q (m.resume s.state r)) res n) :
      Ends w finished s res n

section Ends

variable {w : Window ι} {finished : Bool} {c n : Nat} {r : Option (Response ι)}
  {ev : List (Event ι ο)} {res : Except (Failure ι) ο}

/-- A session that ended with a resumption has come to its result. -/
theorem ends_iff_of_result (answered : s.answer w finished = .ready c r ev)
    {x : Except (Failure ι) ο} (h : (m.resume s.state r).resumed = .ofResult x) :
    s.Ends w finished res n ↔ res = x ∧ n = c := by
  constructor
  · rintro (⟨answered', h'⟩ | ⟨answered', h'⟩ | ⟨answered', h', -⟩) <;>
      rw [answered] at answered' <;> cases answered' <;> rw [h] at h' <;> cases x <;> cases h' <;>
      exact ⟨rfl, rfl⟩
  · rintro ⟨rfl, rfl⟩
    cases res with
    | ok o => exact .complete answered h
    | error e => exact .fail answered h

/-- A session that asks something else goes on. -/
theorem ends_iff_of_suspend (answered : s.answer w finished = .ready c r ev) {q : Request}
    (h : (m.resume s.state r).resumed = .suspend q) :
    s.Ends w finished res n ↔
      (s.waitingOn c q (m.resume s.state r)).Ends w finished res n := by
  constructor
  · rintro (⟨answered', h'⟩ | ⟨answered', h'⟩ | ⟨answered', h', after⟩) <;>
      rw [answered] at answered' <;> cases answered' <;> rw [h] at h' <;> cases h'
    exact after
  · exact .suspend answered h

end Ends

/-- From a turn that asks something on, a session comes to what the dialogue of its computation
comes to. -/
theorem ends_iff_of_waiting (hc : (s.setting items ended).Within s.cursor)
    {t : Turn m.State ι ν ο} {q : Request} (asks : t.resumed = .suspend q)
    (eq : s = s.waitingOn s.cursor q t) {n : Nat} {res : Except (Failure ι) ο} :
    s.Ends (.of items s.start) ended res n ↔
      m.Ends (s.setting items ended) t s.cursor res n := by
  constructor
  · -- the induction is on the course of the session, which the dialogue follows
    intro h
    generalize hw : Window.of items s.start = w at h
    induction h generalizing t q with
    | complete answered ends =>
      subst hw
      obtain ⟨r', hr, rfl, -⟩ := (answer_eq_ready_iff hc (congrArg Session.pending eq)).mp answered
      rw [congrArg Session.state eq] at ends
      exact .answer asks hr (.complete ends)
    | fail answered ends =>
      subst hw
      obtain ⟨r', hr, rfl, -⟩ := (answer_eq_ready_iff hc (congrArg Session.pending eq)).mp answered
      rw [congrArg Session.state eq] at ends
      exact .answer asks hr (.fail ends)
    | suspend answered asks' _ ih =>
      subst hw
      obtain ⟨r', hr, rfl, -⟩ := (answer_eq_ready_iff hc (congrArg Session.pending eq)).mp answered
      have hstate := congrArg Session.state eq
      have after := ih (hc.respond hr) asks' rfl rfl
      rw [hstate] at after
      exact .answer asks hr after
  · -- the induction is on the dialogue, and the session is resumed with every answer
    intro h
    generalize hw : s.setting items ended = w at h
    generalize hk : s.cursor = c at h
    induction h generalizing s q with
    | complete ends => rw [asks] at ends; cases ends
    | fail ends => rw [asks] at ends; cases ends
    | @answer t q' c c' n r res asks' answered after ih =>
      obtain rfl : q = q' := Resumed.suspend.inj (asks.symm.trans asks')
      subst hw hk
      have hready : s.answer (ο := ο) (.of items s.start) ended = _ :=
        answer_of_respond hc (congrArg Session.pending eq) answered
      have hstate : s.state = t.state := congrArg Session.state eq
      cases ht : (m.resume t.state (some r)).resumed with
      | suspend q' =>
        rw [ends_iff_of_suspend hready (by rw [hstate, ht])]
        exact ih (s := s.waitingOn c' q' (m.resume s.state (some r))) (hc.respond answered) ht
          (by rw [hstate]; rfl) rfl rfl
      | complete o =>
        rw [ends_iff_of_result (x := .ok o) hready (by rw [hstate, ht]; rfl)]
        exact (Machine.ends_iff_of_complete ht).mp after
      | fail e =>
        rw [ends_iff_of_result (x := .error e) hready (by rw [hstate, ht]; rfl)]
        exact (Machine.ends_iff_of_fail ht).mp after

/-- A computation that is started in the middle of a session comes to what its dialogue does. -/
theorem ends_begun_iff {id start c n : Nat}
    (hc : (⟨items, ended, id, start⟩ : Setting ι).Within c) {res : Except (Failure ι) ο} :
    (begun m id start c).Ends (.of items start) ended res n ↔
      m.Yields ⟨items, ended, id, start⟩ c res n := by
  have answered : (begun m id start c).answer (ο := ο) (.of items start) ended =
    .ready c none [] := rfl
  show _ ↔ m.Ends _ (m.resume m.init none) c res n
  cases ht : (m.resume m.init none).resumed with
  | suspend q =>
    rw [ends_iff_of_suspend answered ht]
    exact ends_iff_of_waiting (s := (begun m id start c).waitingOn c q (m.resume m.init none))
      hc ht rfl
  | complete o =>
    rw [ends_iff_of_result (x := .ok o) answered ht, Machine.ends_iff_of_complete ht]
  | fail e =>
    rw [ends_iff_of_result (x := .error e) answered ht, Machine.ends_iff_of_fail ht]

/-- A session comes to what a fresh computation yields where the session began. -/
theorem ends_fresh_iff {id start n : Nat} (hs : start ≤ items.length)
    {res : Except (Failure ι) ο} :
    (fresh m id start).Ends (.of items start) ended res n ↔
      m.Yields ⟨items, ended, id, start⟩ start res n :=
  ends_begun_iff ⟨Nat.le_refl _, hs⟩

end Session

end ResumableParsing

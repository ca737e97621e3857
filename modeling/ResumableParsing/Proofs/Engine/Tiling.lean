/-
# Outputs tile the stream

Every output takes a share of the stream: the items from where its session began to where the cursor
was when the session completed.  The shares lie one behind the other and end where the committed
items do, so that no item is lost, taken twice or skipped.  Only the first share can be empty, and
only if there was nothing to take.

`Divided` says how the shares hang together with a history, and every move keeps it.  What remains
when nothing can be done is described by `Engine.Sound.rests`: either nothing is left, or a session
waits for the item behind the last one.
-/
import Mathlib.Logic.ExistsUnique
import ResumableParsing.Proofs.Engine.Schedule

namespace ResumableParsing

variable {ι ν ο : Type}

/-! ## Shares -/

/-- An output and the part of the stream that it takes. -/
structure Share (ο : Type) where
  /-- The number of the session that put it out. -/
  session : Nat
  /-- The offset at which the session began. -/
  start : Nat
  /-- The offset of the cursor when the session completed. -/
  stop : Nat
  /-- How many items were retained when the session completed. -/
  retained : Nat
  /-- The output. -/
  output : ο

namespace Share

/-- The shares lie one behind the other from an offset up to another. -/
def Tile : Nat → List (Share ο) → Nat → Prop
  | lo, [], hi => lo = hi
  | lo, t :: ts, hi => t.start = lo ∧ t.start ≤ t.stop ∧ Tile t.stop ts hi

/-- One more share begins where those before it end. -/
theorem tile_concat {lo hi : Nat} {ts : List (Share ο)} {t : Share ο} :
    Tile lo (ts ++ [t]) hi ↔ Tile lo ts t.start ∧ t.start ≤ t.stop ∧ t.stop = hi := by
  induction ts generalizing lo with
  | nil =>
    simp only [List.nil_append, Tile]
    constructor
    · rintro ⟨hlo, hle, hhi⟩
      exact ⟨hlo.symm, hle, hhi⟩
    · rintro ⟨hlo, hle, hhi⟩
      exact ⟨hlo.symm, hle, hhi⟩
  | cons s ts ih =>
    simp only [List.cons_append, Tile, ih]
    constructor
    · rintro ⟨hlo, hle, hts, ht⟩
      exact ⟨⟨hlo, hle, hts⟩, ht⟩
    · rintro ⟨⟨hlo, hle, hts⟩, ht⟩
      exact ⟨hlo, hle, hts, ht⟩

/-- A share among others begins behind the first offset. -/
theorem Tile.le_start {lo hi : Nat} {ts : List (Share ο)} (h : Tile lo ts hi) {k : Nat}
    {t : Share ο} (ht : ts[k]? = some t) : lo ≤ t.start := by
  induction ts generalizing lo k with
  | nil => cases ht
  | cons s ts ih =>
    obtain ⟨hlo, hle, hts⟩ := h
    cases k with
    | zero =>
      obtain rfl : s = t := Option.some.inj ht
      exact Nat.le_of_eq hlo.symm
    | succ k =>
      have hstart : s.stop ≤ t.start := ih hts ht
      omega

/-- Every offset between the ends belongs to one share and to no other. -/
theorem Tile.existsUnique {lo hi : Nat} {ts : List (Share ο)} (h : Tile lo ts hi) {i : Nat}
    (hlo : lo ≤ i) (hhi : i < hi) :
    ∃! k : Nat, ∃ t : Share ο, ts[k]? = some t ∧ t.start ≤ i ∧ i < t.stop := by
  induction ts generalizing lo with
  | nil =>
    have hends : lo = hi := h
    omega
  | cons t ts ih =>
    obtain ⟨hstart, hle, hts⟩ := h
    by_cases hi' : i < t.stop
    · -- the shares behind the first begin behind the offset
      refine ⟨0, ⟨t, rfl, by omega, hi'⟩, ?_⟩
      rintro k ⟨s, hs, hsi, -⟩
      cases k with
      | zero => rfl
      | succ k =>
        have hstop : t.stop ≤ s.start := hts.le_start hs
        omega
    · obtain ⟨k, ⟨s, hs, hsi⟩, honly⟩ := ih hts (Nat.not_lt.mp hi')
      refine ⟨k + 1, ⟨s, hs, hsi⟩, ?_⟩
      rintro j ⟨s', hs', hsi'⟩
      cases j with
      | zero =>
        obtain rfl : t = s' := Option.some.inj hs'
        exact absurd hsi'.2 hi'
      | succ j => rw [honly j ⟨s', hs', hsi'⟩]

/-- Shares that take something are no more than there are items between the ends. -/
theorem Tile.length_le {lo hi : Nat} {ts : List (Share ο)} (h : Tile lo ts hi)
    (hpos : ∀ t ∈ ts, t.start < t.stop) : lo + ts.length ≤ hi := by
  induction ts generalizing lo with
  | nil => exact Nat.le_of_eq h
  | cons t ts ih =>
    obtain ⟨hstart, -, hts⟩ := h
    obtain ⟨ht, hpos⟩ := List.forall_mem_cons.mp hpos
    have hlen : t.stop + ts.length ≤ hi := ih hts hpos
    rw [List.length_cons]
    omega

/-- The share number `k` was put out by the session of that number, and took something unless it is
the first and there was nothing to take. -/
def Fair (k : Nat) (t : Share ο) : Prop :=
  t.session = k ∧ (t.start < t.stop ∨ k = 0 ∧ t.start = t.stop ∧ t.retained = 0)

/-- One more share has the number of those before it. -/
theorem fair_concat {ts : List (Share ο)} {t : Share ο}
    (hfair : ∀ (k : Nat) (s : Share ο), ts[k]? = some s → s.Fair k) (ht : t.Fair ts.length)
    (k : Nat) (s : Share ο) (hs : (ts ++ [t])[k]? = some s) : s.Fair k := by
  by_cases hk : k < ts.length
  · rw [List.getElem?_append_left hk] at hs
    exact hfair k s hs
  · rw [List.getElem?_append_right (Nat.not_lt.mp hk), List.getElem?_singleton] at hs
    split at hs
    · obtain rfl : t = s := Option.some.inj hs
      obtain rfl : k = ts.length := by omega
      exact ht
    · cases hs

/-- There is at most one share that takes nothing. -/
theorem Tile.length_le_succ {lo hi : Nat} {ts : List (Share ο)} (h : Tile lo ts hi)
    (hfair : ∀ (k : Nat) (t : Share ο), ts[k]? = some t → t.Fair k) : lo + ts.length ≤ hi + 1 := by
  cases ts with
  | nil =>
    have hends : lo = hi := h
    simp [hends]
  | cons t ts =>
    obtain ⟨hstart, hle, hts⟩ := h
    have hpos : ∀ s ∈ ts, s.start < s.stop := by
      intro s hs
      obtain ⟨k, hk⟩ := List.mem_iff_getElem?.mp hs
      rcases (hfair (k + 1) s hk).2 with hlt | ⟨hzero, -⟩
      · exact hlt
      · cases hzero
    have hlen : t.stop + ts.length ≤ hi := hts.length_le hpos
    rw [List.length_cons]
    omega

end Share

/-! ## The shares of a history -/

namespace Engine

variable {m : Machine ι ν ο}

/-- The share of the output that the next step puts out, if it does. -/
def share? (e : Engine m) : Option (Share ο) :=
  match e.resumption, e.step.verdict with
  | some (s, c, _), .output o => some ⟨s.id, s.start, c, e.buffered, o⟩
  | _, _ => none

/-- The number of the session under way, or of the next one. -/
def number (e : Engine m) : Nat :=
  match e.session with
  | some s => s.id
  | none => e.nextSession

theorem id_of_openSession {e : Engine m} {s : Session m} (hs : e.openSession = some s) :
    s.id = e.number := by
  rcases openSession_eq_some hs with hs | ⟨hnone, -, rfl⟩
  · rw [number, hs]
  · rw [number, hnone]
    rfl

end Engine

namespace History

variable {m : Machine ι ν ο} {h : History m} {ts : List (Share ο)}

/-- The shares of the outputs that moves lead to, in order. -/
def shares (h : History m) : List (Move ι) → List (Share ο)
  | [] => []
  | .work :: moves => h.engine.share?.toList ++ (h.move .work).shares moves
  | x :: moves => (h.move x).shares moves

/-- The shares are those of the outputs that were delivered, and tile what is committed. -/
structure Divided (h : History m) (ts : List (Share ο)) : Prop where
  /-- Each output has its share. -/
  outputs : h.delivered.filterMap Except.toOption = ts.map Share.output
  /-- The shares lie one behind the other up to what is committed. -/
  tile : Share.Tile 0 ts h.engine.committed
  /-- Only the first share can be empty. -/
  fair : ∀ (k : Nat) (t : Share ο), ts[k]? = some t → t.Fair k
  /-- There are as many shares as sessions before the one under way. -/
  number : h.engine.aborted = false → h.engine.number = ts.length
  /-- Only the first session can be under way without input. -/
  input : ∀ s, h.engine.session = some s → 0 < s.id → h.engine.committed < h.fed.length

theorem divided_fresh (m : Machine ι ν ο) (limit : Option Nat) :
    (fresh m limit).Divided ([] : List (Share ο)) where
  outputs := rfl
  tile := rfl
  fair := nofun
  number := fun _ => rfl
  input := nofun

/-- Only the first session is resumed without input. -/
theorem Divided.committed_lt (hd : h.Divided ts) (hh : h.Sound) {s : Session m}
    (hs : h.engine.openSession = some s) (hpos : 0 < s.id) :
    h.engine.committed < h.fed.length := by
  rcases Engine.openSession_eq_some hs with hactive | ⟨-, hmay, rfl⟩
  · exact hd.input s hactive hpos
  · -- a later session starts only if something is retained
    have hnonempty : h.engine.window.items ≠ [] := fun hnil => hmay ⟨hpos, hnil⟩
    have hne : h.engine.committed ≠ h.fed.length := by
      rwa [ne_eq, ← hh.engine.items_eq_nil_iff]
    have hle : h.engine.committed ≤ h.fed.length := hh.engine.committed_le
    omega

/-- A move that puts out nothing keeps the shares, if it keeps what is committed. -/
theorem Divided.keep {h' : History m} (hd : h.Divided ts)
    (hdelivered : h'.delivered.filterMap Except.toOption =
      h.delivered.filterMap Except.toOption)
    (hcommitted : h'.engine.committed = h.engine.committed)
    (hnumber : h'.engine.aborted = false → h'.engine.number = ts.length)
    (hinput : ∀ s, h'.engine.session = some s → 0 < s.id →
      h'.engine.committed < h'.fed.length) : h'.Divided ts where
  outputs := hdelivered.trans hd.outputs
  tile := by
    rw [hcommitted]
    exact hd.tile
  fair := hd.fair
  number := hnumber
  input := hinput

/-- A move that ends the engine keeps the shares, if it puts out nothing. -/
theorem Divided.keep_of_ended {h' : History m} (hd : h.Divided ts)
    (hdelivered : h'.delivered.filterMap Except.toOption =
      h.delivered.filterMap Except.toOption)
    (hcommitted : h'.engine.committed = h.engine.committed)
    (haborted : h'.engine.aborted = true) (hsession : h'.engine.session = none) :
    h'.Divided ts := by
  refine hd.keep hdelivered hcommitted (fun hrunning => ?_) fun s hs => ?_
  · rw [haborted] at hrunning
    cases hrunning
  · rw [hsession] at hs
    cases hs

theorem Divided.feed (hd : h.Divided ts) (xs : List ι) :
    (h.move (.feed xs)).Divided ts := by
  rcases h.engine.feed_cases xs with ⟨hrefused, -⟩ | ⟨⟨ha, hf⟩, heq⟩
  · rw [move_feed_of_refused hrefused]
    exact hd
  · have hfed : (h.move (.feed xs)).fed = h.fed ++ xs := fed_move_feed ha hf xs
    have hengine : (h.move (.feed xs)).engine = (h.engine.feed xs).1 := rfl
    rcases heq with heq | ⟨x, heq⟩
    · refine hd.keep rfl ?_ ?_ ?_ <;> rw [hengine, heq]
      · rfl
      · exact hd.number
      · intro s hs hpos
        have hlt : h.engine.committed < h.fed.length := hd.input s hs hpos
        rw [hfed, List.length_append]
        exact Nat.lt_add_right _ hlt
    · refine hd.keep_of_ended rfl ?_ ?_ ?_ <;> rw [hengine, heq] <;> rfl

theorem Divided.finish (hd : h.Divided ts) : (h.move .finish).Divided ts := by
  have hengine : (h.move .finish).engine = h.engine.finish.1 := rfl
  refine hd.keep rfl ?_ ?_ ?_ <;> rw [hengine] <;> unfold Engine.finish
  · split <;> rfl
  · split <;> exact hd.number
  · split <;> exact hd.input

/-- A session that completes has taken something, unless it is the first one and nothing was
there. -/
theorem Divided.takes (hd : h.Divided ts) (hh : h.Sound) {s : Session m} {c : Nat}
    (hs : h.engine.openSession = some s) (hid : s.id = ts.length) (hle : s.start ≤ c)
    (progress : c = s.start → c = h.fed.length) :
    s.start < c ∨ ts.length = 0 ∧ s.start = c ∧ h.engine.buffered = 0 := by
  by_cases hmoved : s.start < c
  · exact .inl hmoved
  · have hstart : s.start = h.engine.committed := (hh.engine.opens hs).start
    have hstill : c = s.start := by omega
    have hall : h.engine.committed = h.fed.length := by rw [← hstart, ← hstill, progress hstill]
    have hfirst : ¬ 0 < s.id := fun hpos => Nat.ne_of_lt (hd.committed_lt hh hs hpos) hall
    have hnone : h.engine.window.items = [] := hh.engine.items_eq_nil_iff.mpr hall
    exact .inr ⟨by omega, hstill.symm, List.length_eq_zero_iff.mpr hnone⟩

/-- A step that delivers an error puts out nothing and ends the engine. -/
theorem Divided.work_of_error (hd : h.Divided ts) {e : Engine m} {ev : List (Event ι ο)}
    {notes : List ν} {x : ParseError ι} (eq : h.engine.step = ⟨e.abort, ev, notes, .error x⟩)
    (hcommitted : e.committed = h.engine.committed) : (h.move .work).Divided ts := by
  have hengine : (h.move .work).engine = e.abort := congrArg Advance.engine eq
  have hnothing : (h.move .work).delivered.filterMap Except.toOption =
      h.delivered.filterMap Except.toOption := by
    have hdelivered : (h.move .work).delivered =
        h.delivered ++ h.engine.step.verdict.delivery := rfl
    simp [hdelivered, eq, Verdict.delivery, Except.toOption]
  refine hd.keep_of_ended hnothing ?_ ?_ ?_ <;> rw [hengine]
  · exact hcommitted
  · rfl
  · rfl

/-- A step adds the share of its output, if it has one. -/
theorem Divided.work (hd : h.Divided ts) (hh : h.Sound) :
    (h.move .work).Divided (ts ++ h.engine.share?.toList) := by
  have hengine : (h.move .work).engine = h.engine.step.engine := rfl
  have hdelivered : (h.move .work).delivered =
      h.delivered ++ h.engine.step.verdict.delivery := rfl
  cases hh.engine.stepped with
  | idle stays eq =>
    have hsame : h.move .work = h := hh.move_work_of_settled (by rw [Settled, eq])
    rw [hsame, Engine.share?, stays, Option.toList_none, List.append_nil]
    exact hd
  | refused stays _ _ eq =>
    rw [Engine.share?, stays, Option.toList_none, List.append_nil]
    exact hd.work_of_error eq rfl
  | failed resumes _ eq | unproductive resumes _ _ eq =>
    rw [Engine.share?, resumes, eq, Option.toList_none, List.append_nil]
    exact hd.work_of_error eq rfl
  | @suspended s c r q resumes asks eq =>
    obtain ⟨haborted, hs, -⟩ := Engine.resumption_eq_some resumes
    rw [Engine.share?, resumes, eq, Option.toList_none, List.append_nil]
    refine hd.keep ?_ ?_ ?_ ?_
    · simp [hdelivered, eq, Verdict.delivery]
    · rw [hengine, eq]
      rfl
    · intro _
      rw [hengine, eq, ← hd.number haborted, ← Engine.id_of_openSession hs]
      rfl
    · rw [hengine, eq]
      rintro _ ⟨⟩ hpos
      exact hd.committed_lt hh hs hpos
  | @completed s c r o resumes completes asked progress eq =>
    obtain ⟨haborted, hs, -⟩ := Engine.resumption_eq_some resumes
    have hstart : s.start = h.engine.committed := (hh.engine.opens hs).start
    have hid : s.id = ts.length := by rw [Engine.id_of_openSession hs, hd.number haborted]
    have hwithin := hh.engine.resumption_within resumes
    have hshare : h.engine.share? = some ⟨s.id, s.start, c, h.engine.buffered, o⟩ := by
      rw [Engine.share?, resumes, eq]
    rw [hshare, Option.toList_some]
    constructor
    · simp [hdelivered, eq, Verdict.delivery, Except.toOption, hd.outputs]
    · have hcommitted : (h.move .work).engine.committed = c := by
        rw [hengine, eq]
        rfl
      rw [hcommitted]
      exact Share.tile_concat.mpr ⟨hstart ▸ hd.tile, hstart ▸ hwithin.1, rfl⟩
    · exact Share.fair_concat hd.fair ⟨hid, hd.takes hh hs hid (hstart ▸ hwithin.1) progress⟩
    · intro _
      rw [hengine, eq, List.length_append, List.length_singleton, ← hid]
      rfl
    · rw [hengine, eq]
      intro s hs
      cases hs

/-- The shares of a history after moves are those before and those that the moves add. -/
theorem Divided.after (hd : h.Divided ts) (hh : h.Sound) (moves : List (Move ι)) :
    (h.after moves).Divided (ts ++ h.shares moves) := by
  induction moves generalizing h ts with
  | nil =>
    rw [shares, List.append_nil]
    exact hd
  | cons x moves ih =>
    cases x with
    | work =>
      rw [shares, ← List.append_assoc]
      exact ih (hd.work hh) hh.work
    | feed xs => exact ih (hd.feed xs) (hh.feed xs)
    | finish => exact ih hd.finish hh.finish
    | configure limit => exact ih { hd with } (hh.configure limit)

end History

/-! ## Where an engine rests -/

/-- A session that is starved waits for the item behind the last one, and more items may arrive. -/
theorem Session.cursor_of_starved {m : Machine ι ν ο} {s : Session m} {items : List ι}
    {ended : Bool} (hc : (s.setting items ended).Within s.cursor)
    (ha : s.answer (ο := ο) (.of items s.start) ended = .starved) :
    s.cursor = items.length ∧ ended = false := by
  have hle : s.start ≤ items.length := Nat.le_trans hc.1 hc.2
  have hlook (hl : (s.setting items ended).look s.cursor = none) :
      s.cursor = items.length ∧ ended = false := by
    unfold Setting.look at hl
    split at hl
    · cases hl
    · rename_i hx
      have hend : items.length ≤ s.cursor := List.getElem?_eq_none_iff.mp hx
      refine ⟨Nat.le_antisymm hc.2 hend, ?_⟩
      cases ended with
      | false => rfl
      | true => cases hl
  cases hq : s.pending with
  | none =>
    rw [Session.answer, hq] at ha
    cases ha
  | some q =>
    cases q with
    | peek =>
      rw [Session.answer_peek hc.1 hq] at ha
      split at ha
      · cases ha
      · cases ha
      · exact hlook ‹_›
    | consume =>
      rw [Session.answer_consume hc.1 hq] at ha
      split at ha
      · cases ha
      · cases ha
      · exact hlook ‹_›
    | snapshot =>
      rw [Session.answer, hq] at ha
      cases ha
    | rollback t =>
      rw [Session.answer_rollback hle hq] at ha
      split at ha
      · cases ha
      · split at ha <;> cases ha

/-- Where nothing can be done and no error was met, nothing is left, or a session waits for the item
behind the last one. -/
theorem Engine.Sound.rests {m : Machine ι ν ο} {e : Engine m} {fed : List ι} (h : e.Sound fed)
    (hidle : e.step.verdict = .idle) (ha : e.aborted = false) :
    e.buffered = 0 ∧ e.session = none ∨
      ∃ s, e.session = some s ∧ (s.answer e.window e.finished : Answer ι ο) = .starved ∧
        s.cursor = e.committed + e.buffered ∧ e.finished = false := by
  have hrunning : ¬ e.aborted := by simp [ha]
  have hstop : e.committed + e.buffered = fed.length := h.stop
  cases hs : e.openSession with
  | none =>
    left
    unfold openSession at hs
    split at hs
    · cases hs
    · split at hs
      · rename_i hnone hmay
        exact ⟨List.length_eq_zero_iff.mpr hmay.2, hnone⟩
      · cases hs
  | some s =>
    right
    have hstart : s.start = e.committed := (h.opens hs).start
    obtain ⟨told, hstands⟩ := (h.opens hs).stands
    have hstep := Engine.step_of_openSession hrunning hs
    cases hanswer : (s.answer e.window e.finished : Answer ι ο) with
    | starved =>
      have hactive : e.session = some s := (h.active hs (by simp [hanswer])).1
      have hend : s.cursor = fed.length ∧ e.finished = false := by
        have hanswer' := hanswer
        rw [h.window, ← hstart] at hanswer'
        exact Session.cursor_of_starved (hstands.within (hstart ▸ h.committed_le)) hanswer'
      exact ⟨s, hactive, hanswer, hend.1.trans hstop.symm, hend.2⟩
    | refused u =>
      rw [hstep, hanswer] at hidle
      cases hidle
    | ready c r ev =>
      -- a session that is resumed gives the step something to say
      exfalso
      have hr : e.resumption = some (s, c, r) := by simp [resumption, ha, hs, hanswer]
      cases h.stepped with
      | idle stays | refused stays =>
        rw [hr] at stays
        cases stays
      | suspended _ _ eq | failed _ _ eq | unproductive _ _ _ eq | completed _ _ _ _ eq =>
        rw [eq] at hidle
        cases hidle

namespace History

variable {m : Machine ι ν ο} {h : History m}

/-- Where asking for a delivery finds none, nothing can be done. -/
theorem Sound.settled_of_next {budget : Nat} (hh : h.Sound)
    (hidle : (h.engine.next budget).verdict = .idle) :
    (h.engine.next budget).engine.step.verdict = .idle := by
  induction budget generalizing h with
  | zero => cases hidle
  | succ budget ih =>
    unfold Engine.next at hidle ⊢
    cases hv : h.engine.step.verdict with
    | running =>
      simp only [hv] at hidle ⊢
      exact ih hh.work hidle
    | idle =>
      simp only [hv]
      rw [(hh.step_of_settled hv).2]
      exact hv
    | output | error =>
      simp only [hv] at hidle
      cases hidle

/-- Where all was delivered without a limit, an engine that has ended has delivered an error. -/
theorem Sound.exists_error_of_aborted (hh : h.Sound) (ha : h.engine.aborted = false) {k : Nat}
    (hk : (h.works k).engine.aborted = true) : ∃ x, .error x ∈ (h.works k).delivered := by
  induction k with
  | zero =>
    rw [show h.works 0 = h from rfl, ha] at hk
    cases hk
  | succ k ih =>
    have hlast : h.works (k + 1) = (h.works k).move .work := h.works_add k 1
    cases hb : (h.works k).engine.aborted with
    | true =>
      rw [hlast, move_work_of_aborted hb]
      exact ih hb
    | false =>
      rw [hlast] at hk ⊢
      have hengine : ((h.works k).move .work).engine = (h.works k).engine.step.engine := rfl
      have hdelivered : ((h.works k).move .work).delivered =
          (h.works k).delivered ++ (h.works k).engine.step.verdict.delivery := rfl
      rw [hengine] at hk
      rw [hdelivered]
      cases (hh.works k).engine.stepped with
      | idle _ eq =>
        rw [eq, hb] at hk
        cases hk
      | suspended resumes _ eq | completed resumes _ _ _ eq =>
        rw [eq] at hk
        exact absurd (hb.symm.trans hk) Bool.false_ne_true
      | refused _ _ _ eq | failed _ _ eq | unproductive _ _ _ eq =>
        rw [eq]
        exact ⟨_, List.mem_append_right _ (List.mem_singleton_self _)⟩

end History

/-- Outputs that are gathered are all that was delivered. -/
theorem gather_eq_ok {ε α : Type} {l : List (Except ε α)} {as : List α} (h : gather l = .ok as) :
    l = as.map .ok := by
  induction l generalizing as with
  | nil =>
    cases h
    rfl
  | cons a l ih =>
    cases a with
    | error e => cases h
    | ok a =>
      unfold gather at h
      cases hl : gather l with
      | error e =>
        rw [hl] at h
        cases h
      | ok as' =>
        rw [hl] at h
        cases h
        rw [ih hl, List.map_cons]

namespace History

variable {m : Machine ι ν ο}

/-- Where nothing can be done on a whole input and only outputs were delivered, all of it is
committed. -/
theorem committed_of_gather {xs : List ι} {outputs : List ο} {k : Nat}
    (hsettled : ((whole m xs).works k).Settled)
    (hall : ((whole m xs).works k).delivered = outputs.map .ok) :
    ((whole m xs).works k).engine.committed = xs.length := by
  have hw : (whole m xs).Sound := sound_whole m xs
  -- an engine that has ended would have delivered an error
  have ha : ((whole m xs).works k).engine.aborted = false := by
    apply Bool.eq_false_iff.mpr
    intro ha
    obtain ⟨x, hx⟩ := hw.exists_error_of_aborted rfl ha
    rw [hall] at hx
    simp at hx
  have hfed : ((whole m xs).works k).fed = xs := fed_works _ k
  have hsound := (hw.works k).engine
  rcases hsound.rests hsettled ha with ⟨hnone, -⟩ | ⟨s, -, -, -, hf⟩
  · have hstop : ((whole m xs).works k).engine.committed +
        ((whole m xs).works k).engine.buffered = ((whole m xs).works k).fed.length :=
      hsound.stop
    rw [hfed] at hstop
    omega
  · rw [(hw.keeps_works k).2] at hf
    cases hf

/-- However an engine is called, and at any moment: the outputs that were delivered have shares of
the stream that lie one behind the other from its beginning up to what is committed.  Only the first
share can be empty, if nothing was retained then, so that each committed item belongs to one share
and no other.  Where asking for a delivery finds none and no error was met, nothing is left or a
session waits for the item behind the last one; after the end of the input nothing is left.  A whole
input that is parsed is committed to its end by the outputs. -/
theorem sessions_tile_stream (m : Machine ι ν ο) (limit : Option Nat) (moves : List (Move ι)) :
    let h := (fresh m limit).after moves
    let ts := (fresh m limit).shares moves
    (h.delivered.filterMap Except.toOption = ts.map Share.output ∧
      Share.Tile 0 ts h.engine.committed ∧
      (∀ (k : Nat) (t : Share ο), ts[k]? = some t → t.session = k ∧
        (t.start < t.stop ∨ k = 0 ∧ t.start = t.stop ∧ t.retained = 0)) ∧
      (∀ i < h.engine.committed,
        ∃! k : Nat, ∃ t : Share ο, ts[k]? = some t ∧ t.start ≤ i ∧ i < t.stop) ∧
      h.engine.committed ≤ h.fed.length ∧ ts.length ≤ h.fed.length + 1) ∧
    (∀ budget, (h.engine.next budget).verdict = .idle →
      let e := (h.engine.next budget).engine
      e.aborted = false →
        (e.buffered = 0 ∧ e.session = none ∨
          ∃ s, e.session = some s ∧ (s.answer e.window e.finished : Answer ι ο) = .starved ∧
            s.cursor = e.committed + e.buffered) ∧
        (e.finished = true → e.buffered = 0 ∧ e.session = none)) ∧
    ∀ budget xs outputs notes, parseAll m budget xs = some (.ok outputs, notes) →
      ∃ k, let whole := [.feed xs, .finish] ++ List.replicate k .work
        outputs = ((fresh m none).shares whole).map Share.output ∧
        ((fresh m none).after whole).engine.committed = xs.length := by
  intro h ts
  have hh : h.Sound := (sound_fresh m limit).after moves
  have hd : h.Divided ts := (divided_fresh m limit).after (sound_fresh m limit) moves
  have hle : h.engine.committed ≤ h.fed.length := hh.engine.committed_le
  refine ⟨⟨hd.outputs, hd.tile, hd.fair, fun i hi => hd.tile.existsUnique (Nat.zero_le i) hi, hle,
    ?_⟩, ?_, fun budget xs outputs notes hparse => ?_⟩
  · have hlen : 0 + ts.length ≤ h.engine.committed + 1 := hd.tile.length_le_succ hd.fair
    omega
  · intro budget hidle e ha
    obtain ⟨k, hk, -⟩ := h.adds_next budget
    have he : e.Sound h.fed := by
      have hworks := (hh.works k).engine
      rwa [hk.engine, fed_works] at hworks
    rcases he.rests (hh.settled_of_next hidle) ha with hnone | ⟨s, hs, hstarved, hcursor, hf⟩
    · exact ⟨.inl hnone, fun _ => hnone⟩
    · exact ⟨.inr ⟨s, hs, hstarved, hcursor⟩, fun hf' => by simp [hf] at hf'⟩
  · obtain ⟨k, hsettled, hgather, -⟩ := parseAll_eq_some_iff.mp ⟨budget, hparse⟩
    have hd := (divided_fresh m none).after (sound_fresh m none)
      ([.feed xs, .finish] ++ List.replicate k .work)
    rw [List.nil_append, after_append, ← whole, ← works] at hd
    have hall : ((whole m xs).works k).delivered = outputs.map .ok := gather_eq_ok hgather
    refine ⟨k, ?_, ?_⟩
    · have houtputs := hd.outputs
      rw [hall, List.filterMap_map] at houtputs
      simpa [Function.comp_def, Except.toOption] using houtputs
    · rw [after_append, ← whole, ← works]
      exact committed_of_gather hsettled hall

end History

end ResumableParsing

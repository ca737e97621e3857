/-
# The window of an engine

However an engine is called, its window is the part of the stream that no output has taken: it
begins at the number of committed items and reaches to the end of what was fed.  A session lies in
the window, a step that commits does so up to the cursor of the session that completes, and no other
move commits anything.  So whatever is cut out of the window or let go is inside it, although the
operations on windows would put up with any offsets.

The numbers of sessions are given out in order, which `started_after` says of all moves at once; the
limit is kept by `Bounded`.
-/
import ResumableParsing.Proofs.Engine.Schedule

namespace ResumableParsing

variable {ι ν ο : Type}

/-! ## Steps that commit -/

namespace Engine

variable {m : Machine ι ν ο} {e : Engine m} {fed : List ι}

/-- A step leaves the window as it is and puts out nothing, or a session completes, and the window
begins where its cursor is. -/
theorem Stepped.commits {a : Advance m} (h : e.Stepped fed a) :
    a.engine.window = e.window ∧ (∀ o, a.verdict ≠ .output o) ∨
      ∃ s c r o, e.resumption = some (s, c, r) ∧ (m.resume s.state r).resumed = .complete o ∧
        a.verdict = .output o ∧ a.engine.window = .of fed c := by
  cases h with
  | idle _ eq | suspended _ _ eq => exact .inl (eq ▸ ⟨rfl, nofun⟩)
  | refused _ _ _ eq | failed _ _ eq | unproductive _ _ _ eq => exact .inl (eq ▸ ⟨rfl, nofun⟩)
  | completed resumes completes _ _ eq =>
    exact .inr ⟨_, _, _, _, resumes, completes, by rw [eq], by rw [eq]⟩

/-- Items that arrive are not committed. -/
theorem committed_feed (e : Engine m) (xs : List ι) : (e.feed xs).1.committed = e.committed := by
  rcases e.feed_cases xs with ⟨-, x, heq⟩ | ⟨-, heq | ⟨x, heq⟩⟩ <;> rw [heq] <;> rfl

/-- A session starts only with work. -/
theorem nextSession_feed (e : Engine m) (xs : List ι) :
    (e.feed xs).1.nextSession = e.nextSession := by
  rcases e.feed_cases xs with ⟨-, x, heq⟩ | ⟨-, heq | ⟨x, heq⟩⟩ <;> rw [heq]
  rfl

theorem nextSession_finish (e : Engine m) : e.finish.1.nextSession = e.nextSession := by
  unfold finish
  split <;> rfl

/-- Declaring the end of the input leaves the window as it is. -/
theorem window_finish (e : Engine m) : e.finish.1.window = e.window := by
  unfold finish
  split <;> rfl

/-- What is committed and what is retained is what was fed. -/
theorem Sound.committed_add_buffered (h : e.Sound fed) :
    e.committed + e.buffered = fed.length := h.stop

/-- The cursor of the session under way is in the window. -/
theorem Sound.session_within (h : e.Sound fed) {s : Session m} (hs : e.session = some s) :
    s.start = e.committed ∧ s.start ≤ s.cursor ∧ s.cursor ≤ fed.length := by
  obtain ⟨told, hstands⟩ := (h.waits s hs).2
  have hstart : s.start = e.committed := h.start s hs
  have hle : s.start ≤ fed.length := hstart ▸ h.committed_le
  exact ⟨hstart, hstands.within hle⟩

/-! ## Cutting the window -/

/-- Where a session is resumed, the cursor goes from one place of the window to another. -/
theorem Sound.resumption_in_window (h : e.Sound fed) {s : Session m} {c : Nat}
    {r : Option (Response ι)} (hr : e.resumption = some (s, c, r)) :
    e.window.start ≤ min s.cursor c ∧ max s.cursor c ≤ e.window.stop := by
  obtain ⟨-, hs, -⟩ := resumption_eq_some hr
  have hopens := h.opens hs
  obtain ⟨told, hstands⟩ := hopens.stands
  have hle : s.start ≤ fed.length := hopens.start ▸ h.committed_le
  have hcursor : s.start ≤ s.cursor ∧ s.cursor ≤ fed.length := hstands.within hle
  have hwithin : e.committed ≤ c ∧ c ≤ fed.length := h.resumption_within hr
  have hstart : s.start = e.window.start := hopens.start
  rw [h.stop]
  exact ⟨Nat.le_min.mpr ⟨hstart ▸ hcursor.1, hwithin.1⟩, Nat.max_le.mpr ⟨hcursor.2, hwithin.2⟩⟩

/-- A slice between two places of the window is that part of the stream. -/
theorem Sound.slice_eq (h : e.Sound fed) {lo hi : Nat} (hlo : e.window.start ≤ lo)
    (hhi : hi ≤ e.window.stop) :
    e.window.slice lo hi = (fed.drop lo).take (hi - lo) ∧
      (e.window.slice lo hi).length = hi - lo := by
  refine ⟨?_, Window.length_slice hlo hhi⟩
  have hcommitted : e.committed ≤ lo := hlo
  rw [h.window, Window.slice_of hcommitted]

/-! ## The numbers of sessions -/

/-- The number of the session that the next step starts, if it starts one. -/
def starts (e : Engine m) : Option Nat :=
  if e.aborted ∨ e.session.isSome then none else e.openSession.map Session.id

/-- The session that a step resumes has the number before that of the next session. -/
theorem Sound.range_of_resumption (h : e.Sound fed) {s : Session m} {c : Nat}
    {r : Option (Response ι)} (hr : e.resumption = some (s, c, r)) :
    List.range (s.id + 1) = List.range e.nextSession ++ e.starts.toList := by
  obtain ⟨ha, hs, -⟩ := resumption_eq_some hr
  rcases openSession_eq_some hs with hactive | ⟨hnone, -, rfl⟩
  · have hstarts : e.starts = none := if_pos (.inr (by simp [hactive]))
    rw [h.number s hactive, hstarts, Option.toList_none, List.append_nil]
  · have hstarts : e.starts = some e.nextSession := by
      simp [starts, ha, hnone, hs, Session.fresh]
    rw [hstarts, Option.toList_some, ← List.range_succ]
    rfl

/-- A step that resumes nothing starts nothing. -/
theorem starts_of_stays (hr : e.resumption = none) : e.starts = none := by
  unfold starts
  split
  · rfl
  · rename_i hno
    obtain ⟨ha, hnone⟩ := not_or.mp hno
    cases hs : e.openSession with
    | none => rfl
    | some s =>
      rcases openSession_eq_some hs with hactive | ⟨-, -, rfl⟩
      · simp [hactive] at hnone
      · -- a session that was just started is resumed in any case
        have hready : e.resumption =
            some (.fresh m e.nextSession e.committed, e.committed, none) := by
          simp [resumption, ha, hs, Session.answer, Session.fresh]
        rw [hready] at hr
        cases hr

/-- A step gives out the number of the session that it starts. -/
theorem Sound.nextSession_step (h : e.Sound fed) :
    List.range e.nextSession ++ e.starts.toList = List.range e.step.engine.nextSession := by
  cases h.stepped with
  | idle stays eq | refused stays _ _ eq =>
    rw [starts_of_stays stays, eq]
    exact List.append_nil _
  | suspended resumes _ eq | failed resumes _ eq | unproductive resumes _ _ eq
  | completed resumes _ _ _ eq =>
    rw [← h.range_of_resumption resumes, eq]
    rfl

/-! ## The limit -/

theorem exceededLimit_eq_none_iff {L retained : Nat} :
    exceededLimit (some L) retained = none ↔ retained ≤ L := by
  simp [exceededLimit]

/-- The limit is `L`, and the engine has ended or retains no more than that. -/
def Bounded (e : Engine m) (L : Nat) : Prop :=
  e.limit = some L ∧ (e.aborted = false → e.buffered ≤ L)

theorem Bounded.feed {L : Nat} (hb : e.Bounded L) (xs : List ι) : (e.feed xs).1.Bounded L := by
  obtain ⟨hlimit, hle⟩ := hb
  unfold Engine.feed
  by_cases ha : e.aborted
  · rw [if_pos ha]
    exact ⟨hlimit, hle⟩
  by_cases hf : e.finished
  · rw [if_neg ha, if_pos hf]
    exact ⟨hlimit, hle⟩
  rw [if_neg ha, if_neg hf]
  dsimp only
  split
  · exact ⟨hlimit, nofun⟩
  · -- the items were counted when they had arrived
    rename_i hfits
    rw [hlimit, exceededLimit_eq_none_iff] at hfits
    exact ⟨hlimit, fun _ => hfits⟩

theorem Bounded.finish {L : Nat} (hb : e.Bounded L) : e.finish.1.Bounded L := by
  unfold Engine.finish
  split <;> exact hb

theorem Bounded.step {L : Nat} (hb : e.Bounded L) (h : e.Sound fed) :
    e.step.engine.Bounded L := by
  refine ⟨h.stepped.keeps.1.trans hb.1, fun ha => ?_⟩
  have hrunning : e.aborted = false := by
    cases he : e.aborted with
    | false => rfl
    | true =>
      have hstep : e.step = ⟨e, [], [], .idle⟩ := if_pos he
      rw [hstep, he] at ha
      cases ha
  have hle : e.buffered ≤ L := hb.2 hrunning
  rcases h.stepped.commits with ⟨hsame, -⟩ | ⟨s, c, r, o, hr, -, -, hwindow⟩
  · rw [buffered, hsame]
    exact hle
  · -- what is retained later is retained now
    have hwithin : e.committed ≤ c ∧ c ≤ fed.length := h.resumption_within hr
    have hstop : e.committed + e.buffered = fed.length := h.committed_add_buffered
    rw [buffered, hwindow, Window.items_of, List.length_drop]
    omega

end Engine

/-! ## Windows of histories -/

namespace History

variable {m : Machine ι ν ο} {h : History m}

/-- The numbers of the sessions that moves start, in order. -/
def started (h : History m) : List (Move ι) → List Nat
  | [] => []
  | .work :: moves => h.engine.starts.toList ++ (h.move .work).started moves
  | x :: moves => (h.move x).started moves

/-- The numbers that were given out are those of the sessions that were started, in order. -/
theorem Sound.started_after (hh : h.Sound) (moves : List (Move ι)) :
    List.range h.engine.nextSession ++ h.started moves =
      List.range (h.after moves).engine.nextSession := by
  induction moves generalizing h with
  | nil => exact List.append_nil _
  | cons x moves ih =>
    have hrest := ih (hh.move x)
    cases x with
    | work =>
      rw [started, ← List.append_assoc, hh.engine.nextSession_step]
      exact hrest
    | feed xs =>
      have hsame : (h.move (.feed xs)).engine.nextSession = h.engine.nextSession :=
        h.engine.nextSession_feed xs
      rwa [hsame] at hrest
    | finish =>
      have hsame : (h.move .finish).engine.nextSession = h.engine.nextSession :=
        h.engine.nextSession_finish
      rwa [hsame] at hrest
    | configure limit => exact hrest

/-- A move commits nothing and puts out nothing, or a session completes, its output is put out and
the items before its cursor are committed. -/
theorem Sound.commits (hh : h.Sound) (x : Move ι) :
    (h.move x).engine.committed = h.engine.committed ∧
        (h.move x).delivered.filterMap Except.toOption =
          h.delivered.filterMap Except.toOption ∨
      ∃ s c r o, x = .work ∧ h.engine.resumption = some (s, c, r) ∧
        (m.resume s.state r).resumed = .complete o ∧
        (h.move x).delivered = h.delivered ++ [.ok o] ∧ (h.move x).engine.committed = c := by
  cases x with
  | feed xs => exact .inl ⟨h.engine.committed_feed xs, rfl⟩
  | finish => exact .inl ⟨congrArg Window.start h.engine.window_finish, rfl⟩
  | configure limit => exact .inl ⟨rfl, rfl⟩
  | work =>
    have hdelivered : (h.move .work).delivered =
        h.delivered ++ h.engine.step.verdict.delivery := rfl
    rcases hh.engine.stepped.commits with ⟨hsame, hnone⟩ | ⟨s, c, r, o, hr, hc, hv, hwindow⟩
    · refine .inl ⟨congrArg Window.start hsame, ?_⟩
      rw [hdelivered, List.filterMap_append]
      cases hv : h.engine.step.verdict with
      | output o => exact absurd hv (hnone o)
      | running | idle | error => exact List.append_nil _
    · refine .inr ⟨s, c, r, o, rfl, hr, hc, ?_, congrArg Window.start hwindow⟩
      rw [hdelivered, hv]
      rfl

/-- What is committed stays committed. -/
theorem Sound.committed_le_after (hh : h.Sound) (moves : List (Move ι)) :
    h.engine.committed ≤ (h.after moves).engine.committed := by
  induction moves generalizing h with
  | nil => exact Nat.le_refl _
  | cons x moves ih =>
    refine Nat.le_trans ?_ (ih (hh.move x))
    rcases hh.commits x with ⟨hsame, -⟩ | ⟨s, c, r, o, -, hr, -, -, hc⟩
    · exact Nat.le_of_eq hsame.symm
    · rw [hc]
      exact (hh.engine.resumption_within hr).1

/-- A limit that is not replaced by another is kept. -/
theorem Sound.bounded_after {L : Nat} (hh : h.Sound) (hb : h.engine.Bounded L)
    {moves : List (Move ι)} (hlimit : ∀ l, .configure l ∈ moves → l = some L) :
    (h.after moves).engine.Bounded L := by
  induction moves generalizing h with
  | nil => exact hb
  | cons x moves ih =>
    refine ih (hh.move x) ?_ fun l hl => hlimit l (List.mem_cons_of_mem x hl)
    cases x with
    | feed xs => exact hb.feed xs
    | finish => exact hb.finish
    | configure l =>
      have hl : l = some L := hlimit l List.mem_cons_self
      exact ⟨hl, hb.2⟩
    | work => exact hb.step hh.engine

/-- However an engine is called, and at any moment: the retained items are the stream without what
is committed.  The session under way began at the first of them and its cursor is among them or
behind the last; its number is the last that was given out, and none is given out twice.  What is
committed stays so, and more is committed only with an output, up to the cursor of the session that
completes.  Whatever is cut out of the window or let go is inside it.  An engine whose limit is not
replaced by another retains no more than that, unless it has ended. -/
theorem window_is_uncommitted (m : Machine ι ν ο) (limit : Option Nat) (moves : List (Move ι)) :
    let h := (fresh m limit).after moves
    let e := h.engine
    (e.committed + e.buffered = h.fed.length ∧ e.window.items = h.fed.drop e.committed) ∧
    ((∀ s, e.session = some s → s.start = e.committed ∧ s.start ≤ s.cursor ∧
        s.cursor ≤ h.fed.length ∧ ((fresh m limit).started moves).getLast? = some s.id) ∧
      ((fresh m limit).started moves).Nodup) ∧
    ((∀ moves', e.committed ≤ (h.after moves').engine.committed) ∧
      ∀ x, (h.move x).engine.committed = e.committed ∧
          (h.move x).delivered.filterMap Except.toOption =
            h.delivered.filterMap Except.toOption ∨
        ∃ s c r o, x = .work ∧ e.resumption = some (s, c, r) ∧
          (m.resume s.state r).resumed = .complete o ∧
          (h.move x).delivered = h.delivered ++ [.ok o] ∧ (h.move x).engine.committed = c) ∧
    (∀ s c r, e.resumption = some (s, c, r) →
      let lo := min s.cursor c
      let hi := max s.cursor c
      e.window.start ≤ lo ∧ hi ≤ e.window.stop ∧
        e.window.slice lo hi = (h.fed.drop lo).take (hi - lo) ∧
        (e.window.slice lo hi).length = hi - lo ∧
        e.window.discardBefore c = ⟨c, h.fed.drop c⟩) ∧
    (∀ L, limit = some L → (∀ l, .configure l ∈ moves → l = some L) → e.aborted = false →
      e.buffered ≤ L) ∧
    ∀ budget calls, ∃ moves', let h' := (fresh m limit).after moves'
      (fresh m limit).Follows budget calls h' ∧
        (((Engine.fresh m limit).runSchedule budget calls).map CallReport.engine).getLastD
          (Engine.fresh m limit) = h'.engine := by
  intro h e
  have hh : h.Sound := (sound_fresh m limit).after moves
  have hnumbers : (fresh m limit).started moves = List.range e.nextSession :=
    (sound_fresh m limit).started_after moves
  refine ⟨⟨hh.engine.committed_add_buffered, ?_⟩, ⟨fun s hs => ?_, ?_⟩,
    ⟨hh.committed_le_after, hh.commits⟩, fun s c r hr => ?_, fun L hL hlimit => ?_,
    fun budget calls => ?_⟩
  · exact congrArg Window.items hh.engine.window
  · obtain ⟨hstart, hlo, hhi⟩ := hh.engine.session_within hs
    have hid : e.nextSession = s.id + 1 := (hh.engine.number s hs).symm
    refine ⟨hstart, hlo, hhi, ?_⟩
    rw [hnumbers, hid, List.range_succ, List.getLast?_concat]
  · rw [hnumbers]
    exact List.nodup_range
  · obtain ⟨hlo, hhi⟩ := hh.engine.resumption_in_window hr
    obtain ⟨hslice, hlength⟩ := hh.engine.slice_eq hlo hhi
    obtain ⟨hcommitted, hle⟩ := hh.engine.resumption_within hr
    refine ⟨hlo, hhi, hslice, hlength, ?_⟩
    rw [hh.engine.window, Window.discardBefore_of hcommitted hle]
    rfl
  · have hfresh : (fresh m limit).engine.Bounded L := ⟨hL, fun _ => Nat.zero_le L⟩
    exact ((sound_fresh m limit).bounded_after hfresh hlimit).2
  · obtain ⟨h', hfollows⟩ := (sound_fresh m limit).exists_follows budget calls
    obtain ⟨moves', rfl⟩ := hfollows.exists_moves
    obtain ⟨_, hadds, -⟩ := hfollows.adds
    exact ⟨moves', hfollows, hadds.engine.symm⟩

end History

end ResumableParsing

/-
# A stream in pieces

Let a stream be fed piece by piece, and let all the work be done after each piece that can be done.
What is delivered is what the whole stream delivers at once, and an error that a piece brings about
is one that every longer beginning of the stream brings about.

This holds for two kinds of machines.  For those that never complete before anything was fed the
engine to which the whole stream is fed is ahead of the one to which the pieces are fed.  The others
may put out something before anything is fed, but if such a machine does so in every session then
the first item that is fed stops it, no matter in which session it finds the machine.
-/
import ResumableParsing.Proofs.Descent.Adequacy
import ResumableParsing.Proofs.Descent.Displacement
import ResumableParsing.Proofs.Engine.Streaming
import ResumableParsing.Proofs.Engine.Tiling

namespace ResumableParsing

variable {ρ : Type → Type} {ι ν ο α : Type}

/-! ## Gathering -/

/-- What was delivered first is gathered first. -/
theorem gather_append_of_ok {ε : Type} {l : List (Except ε α)} {as : List α}
    (h : gather l = .ok as) (l' : List (Except ε α)) :
    gather (l ++ l') = (gather l').map (as ++ ·) := by
  obtain rfl := gather_eq_ok h
  clear h
  induction as with
  | nil => cases h : gather l' <;> simp [h, Except.map]
  | cons a as ih =>
    show (gather (as.map .ok ++ l')).map (a :: ·) = _
    rw [ih]
    cases gather l' <;> rfl

/-- An error that is gathered was delivered. -/
theorem mem_of_gather_error {ε : Type} {l : List (Except ε α)} {e : ε}
    (h : gather l = .error e) : .error e ∈ l := by
  induction l with
  | nil => cases h
  | cons x l ih =>
    cases x with
    | error e' =>
      cases h
      exact List.mem_cons_self
    | ok a =>
      unfold gather at h
      cases hl : gather l with
      | error e' =>
        rw [hl] at h
        cases h
        exact List.mem_cons_of_mem _ (ih hl)
      | ok as =>
        rw [hl] at h
        cases h

namespace History

variable {m : Machine ι ν ο} {h h' w : History m}

/-! ## All that can be done -/

/-- All the work that can be done leads to these outputs, or to this error. -/
def Delivers (h : History m) (res : Except (ParseError ι) (List ο)) : Prop :=
  ∃ k, (h.works k).Settled ∧ gather (h.works k).delivered = res

/-- There is only one result when all is done. -/
theorem Sound.delivers_unique (hh : h.Sound) {res res' : Except (ParseError ι) (List ο)}
    (hres : h.Delivers res) (hres' : h.Delivers res') : res = res' := by
  obtain ⟨j, hj, rfl⟩ := hres
  obtain ⟨k, hk, rfl⟩ := hres'
  rw [hh.works_unique hj hk]

/-- An error that was delivered ends the engine. -/
theorem Sound.aborted_of_gather (hh : h.Sound) {e : ParseError ι}
    (he : gather h.delivered = .error e) : h.engine.aborted = true :=
  (hh.error e (mem_of_gather_error he)).1

/-- After an error nothing more is delivered. -/
theorem delivers_of_aborted (ha : h.engine.aborted = true)
    {res : Except (ParseError ι) (List ο)} (hres : gather h.delivered = res) : h.Delivers res :=
  ⟨0, settled_of_aborted ha, hres⟩

/-- To declare the end changes nothing after an error. -/
theorem move_finish_of_aborted (ha : h.engine.aborted = true) : h.move .finish = h := by
  show ({ h with engine := h.engine.finish.1 } : History m) = h
  rw [Engine.finish_of_ended (.inl ha)]

/-- Feeding is no error. -/
theorem Flows.running_feed (hf : h.Flows) (ha : h.engine.aborted = false) (xs : List ι) :
    (h.move (.feed xs)).engine.aborted = false := by
  rw [hf.engine_feed ha]
  exact ha

/-- Feeding nothing changes nothing. -/
theorem Flows.move_feed_nil (hf : h.Flows) : h.move (.feed []) = h := by
  cases ha : h.engine.aborted with
  | true => exact move_feed_of_refused (.inl ha) []
  | false =>
    have hengine : (h.move (.feed [])).engine = h.engine := by
      rw [hf.engine_feed ha, Window.append, List.append_nil]
    have hfed : (h.move (.feed [])).fed = h.fed := by
      rw [fed_move_feed ha hf.unfinished, List.append_nil]
    show ({ h with engine := (h.move (.feed [])).engine, fed := (h.move (.feed [])).fed } :
      History m) = h
    rw [hengine, hfed]

/-! ## Pieces -/

/-- Each piece is fed, and after each all is done that can be done. -/
inductive Paced : History m → List (List ι) → History m → Prop
  /-- No piece is left. -/
  | nil (h : History m) : Paced h [] h
  /-- A piece is fed and all is done, and then the rest. -/
  | cons {h h' : History m} {xs : List ι} {pieces : List (List ι)} {k : Nat}
      (settled : ((h.move (.feed xs)).works k).Settled)
      (rest : Paced ((h.move (.feed xs)).works k) pieces h') : Paced h (xs :: pieces) h'

variable {pieces : List (List ι)} {rest : List ι} {ended : Bool}
  {res : Except (ParseError ι) (List ο)}

/-- After an error nothing is changed by any piece. -/
theorem Paced.eq_of_aborted (hp : h.Paced pieces h') (ha : h.engine.aborted = true) : h' = h := by
  induction hp with
  | nil h => rfl
  | @cons h h' xs pieces k settled rest ih =>
    rw [move_feed_of_refused (.inl ha), works_of_aborted ha] at ih
    exact ih ha

/-- After the end all pieces pass without anything happening. -/
theorem paced_of_aborted (ha : h.engine.aborted = true) (pieces : List (List ι)) :
    h.Paced pieces h := by
  induction pieces with
  | nil => exact .nil h
  | cons xs pieces ih =>
    have hsame : (h.move (.feed xs)).works 0 = h := move_feed_of_refused (.inl ha) xs
    refine .cons (k := 0) ?_ ?_ <;> rw [hsame]
    · exact settled_of_aborted ha
    · exact ih

/-- After each piece more may be fed. -/
theorem Paced.flows (hp : h.Paced pieces h') (hf : h.Flows) : h'.Flows := by
  induction hp with
  | nil h => exact hf
  | cons settled rest ih => exact ih ((hf.feed _).works _)

/-! ## Machines that do not complete before anything was fed -/

/-- No session ever completes as long as nothing was fed. -/
def Unhurried (h : History m) : Prop := ∀ k, h.Patient k

/-- Whoever never completes does not do so later. -/
theorem Unhurried.works (hu : h.Unhurried) (j : Nat) : (h.works j).Unhurried :=
  fun k => (hu (j + k)).works

/-- When something was fed, there is nothing more to wait for. -/
theorem Unhurried.feed (hu : h.Unhurried) (hf : h.Flows) (xs : List ι) :
    (h.move (.feed xs)).Unhurried := by
  cases ha : h.engine.aborted with
  | true =>
    rw [move_feed_of_refused (.inl ha)]
    exact hu
  | false =>
    cases xs with
    | nil =>
      rw [hf.move_feed_nil]
      exact hu
    | cons x xs =>
      -- now something was fed
      intro k hfed
      rw [fed_move_feed ha hf.unfinished] at hfed
      exact absurd hfed (List.append_ne_nil_of_right_ne_nil _ (List.cons_ne_nil x xs))

/-- Pieces go on in step with the whole stream. -/
theorem Ahead.paced (ha : h.Ahead (pieces.flatten ++ rest) w ended) (hm : m.Faithful)
    (hf : h.Flows) (hu : h.Unhurried) (hp : h.Paced pieces h') :
    ∃ j, h'.Ahead rest (w.works j) ended := by
  induction hp generalizing w with
  | nil h => exact ⟨0, ha⟩
  | @cons h h' xs pieces k settled _ ih =>
    rw [List.flatten_cons, List.append_assoc] at ha
    obtain ⟨j, hj⟩ := (ha.feed hf).works hm (hf.feed xs) (hu.feed hf xs k)
    obtain ⟨j', hj'⟩ := ih hj ((hf.feed xs).works k) ((hu.feed hf xs).works k)
    refine ⟨j + j', ?_⟩
    rwa [works_add]

/-- The work after each piece comes to an end if that on the whole stream does. -/
theorem Ahead.exists_paced (ha : h.Ahead (pieces.flatten ++ rest) w ended) (hm : m.Faithful)
    (hf : h.Flows) (hu : h.Unhurried) (hw : w.Sound) {n : Nat} (hn : (w.works n).Settled) :
    ∃ h', h.Paced pieces h' := by
  induction pieces generalizing h w with
  | nil => exact ⟨h, .nil h⟩
  | cons xs pieces ih =>
    rw [List.flatten_cons, List.append_assoc] at ha
    have hfed := ha.feed hf
    have hsettled : ((h.move (.feed xs)).works n).Settled :=
      hfed.settled hm (hf.feed xs) (hu.feed hf xs (n + 1)) hn
    obtain ⟨j, hj⟩ := hfed.works hm (hf.feed xs) (hu.feed hf xs n)
    have hn' : ((w.works j).works n).Settled := by
      rw [← works_add]
      exact hw.settled_mono (Nat.le_add_left n j) hn
    obtain ⟨h', hh'⟩ := ih hj ((hf.feed xs).works n) ((hu.feed hf xs).works n) (hw.works j) hn'
    exact ⟨h', .cons hsettled hh'⟩

/-- What is delivered when the end of the stream is declared is what the whole stream delivers. -/
theorem Ahead.finish_delivers_iff {j : Nat} (ha : h.Ahead [] (w.works j)) (hw : w.Sound) :
    (h.move .finish).Delivers res ↔ w.Delivers res := by
  have hlevel : ∀ k, ((h.move .finish).works k).Level (w.works (j + k)) := by
    intro k
    rw [works_add]
    exact ha.finish.works k
  constructor
  · rintro ⟨k, hk, rfl⟩
    exact ⟨j + k, (hlevel k).settled_iff.mpr hk, by rw [(hlevel k).delivered]⟩
  · rintro ⟨n, hn, rfl⟩
    have hlater : (w.works (j + n)).Settled := hw.settled_mono (Nat.le_add_left n j) hn
    refine ⟨n, (hlevel n).settled_iff.mp hlater, ?_⟩
    rw [← (hlevel n).delivered, hw.works_unique hlater hn]

section Unhurried

variable (hm : m.Faithful) (hu : (fresh m none).Unhurried)
include hm hu

/-- Fed in pieces the stream has the result that it has as a whole. -/
theorem Unhurried.paced_finish_iff :
    (∃ h', (fresh m none).Paced pieces h' ∧ (h'.move .finish).Delivers res) ↔
      (whole m pieces.flatten).Delivers res := by
  have hw : (whole m pieces.flatten).Sound := sound_whole m _
  have hflows : (fresh m none).Flows := flows_fresh m
  have hahead : (fresh m none).Ahead (pieces.flatten ++ []) (whole m pieces.flatten) := by
    rw [List.append_nil]
    exact ahead_fresh m _
  constructor
  · rintro ⟨h', hp, hres⟩
    obtain ⟨j, hj⟩ := hahead.paced hm hflows hu hp
    exact (hj.finish_delivers_iff hw).mp hres
  · intro hres
    obtain ⟨n, hn, -⟩ := id hres
    obtain ⟨h', hp⟩ := hahead.exists_paced hm hflows hu hw hn
    obtain ⟨j, hj⟩ := hahead.paced hm hflows hu hp
    exact ⟨h', hp, (hj.finish_delivers_iff hw).mpr hres⟩

/-- An error behind some pieces is the result of every stream that begins with them. -/
theorem Unhurried.delivers_of_paced {e : ParseError ι} (hp : (fresh m none).Paced pieces h')
    (he : gather h'.delivered = .error e) (rest : List ι) :
    ((fresh m none).move (.feed (pieces.flatten ++ rest))).Delivers (.error e) := by
  have hflows : (fresh m none).Flows := flows_fresh m
  obtain ⟨j, hj⟩ := (ahead_fresh_feed m _).paced hm hflows hu hp
  have ha : h'.engine.aborted = true := (hp.flows hflows).sound.aborted_of_gather he
  exact ⟨j, settled_of_aborted (hj.aborted.trans ha), by rw [hj.delivered, he]⟩

/-- If a stream has a result, each of its pieces comes to an end of what can be done. -/
theorem Unhurried.exists_paced {rest : List ι}
    (hres : ((fresh m none).move (.feed (pieces.flatten ++ rest))).Delivers res) :
    ∃ h', (fresh m none).Paced pieces h' := by
  obtain ⟨n, hn, -⟩ := hres
  exact (ahead_fresh_feed m _).exists_paced hm (flows_fresh m) hu
    ((flows_fresh m).feed _).sound hn

end Unhurried

/-! ## Machines that complete before anything was fed -/

end History

/-- A session at the beginning of the stream always completes there. -/
structure Machine.Hasty (m : Machine ι ν ο) : Prop where
  /-- The computation asks something. -/
  asks : ∃ q, m.start.resumed = .suspend q
  /-- Whatever has arrived, it completes where it began. -/
  completes : ∃ o, ∀ items ended id, m.Yields ⟨items, ended, id, 0⟩ 0 (.ok o) 0

namespace History

variable {m : Machine ι ν ο} {h h' : History m} {pieces : List (List ι)} {rest : List ι}
  {res : Except (ParseError ι) (List ο)}

/-- Nothing is committed, no session is under way, and only outputs were delivered. -/
structure Blank (h : History m) : Prop where
  /-- The history is sound. -/
  sound : h.Sound
  /-- No error has ended the engine. -/
  running : h.engine.aborted = false
  /-- No session is under way. -/
  session : h.engine.session = none
  /-- Nothing is committed. -/
  committed : h.engine.committed = 0
  /-- Only outputs were delivered. -/
  delivered : ∃ outputs, gather h.delivered = .ok outputs

/-- A fresh history is blank. -/
theorem blank_fresh (m : Machine ι ν ο) (limit : Option Nat) : (fresh m limit).Blank :=
  ⟨sound_fresh m limit, rfl, rfl, rfl, [], rfl⟩

/-- Feeding commits nothing and starts no session. -/
theorem Blank.feed (hb : h.Blank) (hf : h.Flows) (xs : List ι) : (h.move (.feed xs)).Blank := by
  have hengine := hf.engine_feed hb.running xs
  refine ⟨hb.sound.feed xs, hf.running_feed hb.running xs, ?_, ?_, hb.delivered⟩ <;> rw [hengine]
  · exact hb.session
  · exact hb.committed

/-- The history of a whole input is blank before anything is done. -/
theorem blank_whole (m : Machine ι ν ο) (xs : List ι) : (whole m xs).Blank :=
  ⟨sound_whole m xs, rfl, rfl, rfl, [], rfl⟩

/-- A session that may start is at the beginning of the stream. -/
theorem Blank.runs (hb : h.Blank)
    (hmay : ¬ (0 < h.engine.nextSession ∧ h.engine.window.items = [])) :
    h.engine.Runs (.fresh m h.engine.nextSession 0) (.of h.fed 0) h.engine.finished where
  running := hb.running
  opens := by
    have hstart : h.engine.window.start = 0 := hb.committed
    rw [Engine.openSession, hb.session]
    show (if _ then none else some _) = _
    rw [if_neg hmay, hstart]
    rfl
  window := by rw [hb.sound.engine.window, hb.committed]
  finished := rfl

/-- A session that may start and would complete where it began makes no progress if something was
fed; otherwise it puts out something and leaves the history blank. -/
theorem Blank.works_of_yields (hb : h.Blank)
    (hmay : ¬ (0 < h.engine.nextSession ∧ h.engine.window.items = []))
    (hasks : ∃ q, m.start.resumed = .suspend q) {o : ο}
    (hyields : m.Yields ⟨h.fed, h.engine.finished, h.engine.nextSession, 0⟩ 0 (.ok o) 0) :
    ∃ k, (h.fed ≠ [] → (h.works k).Settled ∧
        (h.works k).delivered = h.delivered ++ [.error (.usage (.noProgress 0))]) ∧
      (h.fed = [] → (h.works k).Blank ∧ 0 < (h.works k).engine.nextSession ∧
        (h.works k).delivered = h.delivered ++ [.ok o]) := by
  obtain ⟨outputs, houtputs⟩ := hb.delivered
  have hends := (Session.ends_fresh_iff (Nat.zero_le h.fed.length)).mpr hyields
  obtain ⟨budget, hprogress, hstill⟩ := (hb.runs hmay).next_of_still hends fun _ => hasks
  obtain ⟨k, hk, -⟩ := h.adds_next budget
  have hstop : (Window.of h.fed 0).stop = h.fed.length := Window.stop_of (Nat.zero_le _)
  rw [hstop] at hprogress hstill
  refine ⟨k, fun hfed => ?_, fun hfed => ?_⟩
  · have hdelivered : (h.works k).delivered =
        h.delivered ++ [.error (.usage (.noProgress 0))] := by
      rw [hk.delivered, hprogress (List.length_pos_iff.mpr hfed)]
      rfl
    have herror : .error (.usage (.noProgress 0)) ∈ (h.works k).delivered := by
      rw [hdelivered]
      exact List.mem_append_right _ (List.mem_singleton.mpr rfl)
    exact ⟨settled_of_aborted ((hb.sound.works k).error _ herror).1, hdelivered⟩
  · obtain ⟨houtput, hrunning, hsession, hnumber⟩ :=
      hstill (Nat.le_of_eq (List.length_eq_zero_iff.mpr hfed))
    rw [← hk.engine] at hrunning hsession hnumber
    have hdelivered : (h.works k).delivered = h.delivered ++ [.ok o] := by
      rw [hk.delivered, houtput]
      rfl
    have hcommitted : (h.works k).engine.committed ≤ (h.works k).fed.length :=
      (hb.sound.works k).engine.committed_le
    rw [fed_works, hfed] at hcommitted
    refine ⟨⟨hb.sound.works k, hrunning, hsession, Nat.le_zero.mp hcommitted, outputs ++ [o], ?_⟩,
      hnumber, hdelivered⟩
    rw [hdelivered, gather_append_of_ok houtputs]
    rfl

/-- No further session starts without input. -/
theorem Blank.settled (hb : h.Blank) (hnext : 0 < h.engine.nextSession) (hfed : h.fed = []) :
    h.Settled := by
  have hitems : h.engine.window.items = [] := by
    rw [hb.sound.engine.window, hfed]
    exact List.drop_nil
  have hopens : h.engine.openSession = none := by
    rw [Engine.openSession, hb.session]
    exact if_pos ⟨hnext, hitems⟩
  rw [Settled, Engine.step, if_neg (by simp [hb.running]), hopens]

section Hasty

variable (hm : m.Hasty)
include hm

/-- A session that may start makes no progress if something was fed, and otherwise puts out
something and leaves the history blank. -/
theorem Blank.works_of_hasty (hb : h.Blank)
    (hmay : ¬ (0 < h.engine.nextSession ∧ h.engine.window.items = [])) :
    ∃ k, (h.fed ≠ [] → (h.works k).Settled ∧
        gather (h.works k).delivered = .error (.usage (.noProgress 0))) ∧
      (h.fed = [] → (h.works k).Blank ∧ 0 < (h.works k).engine.nextSession) := by
  obtain ⟨o, ho⟩ := hm.completes
  obtain ⟨outputs, houtputs⟩ := hb.delivered
  obtain ⟨k, hstops, hgoes⟩ := hb.works_of_yields hmay hm.asks (ho h.fed _ _)
  refine ⟨k, fun hfed => ?_, fun hfed => ?_⟩
  · obtain ⟨hsettled, hdelivered⟩ := hstops hfed
    refine ⟨hsettled, ?_⟩
    rw [hdelivered, gather_append_of_ok houtputs]
    rfl
  · obtain ⟨hblank, hnext, -⟩ := hgoes hfed
    exact ⟨hblank, hnext⟩

/-- What was fed stops a hasty machine. -/
theorem Blank.delivers_of_hasty (hb : h.Blank) (hfed : h.fed ≠ []) :
    h.Delivers (.error (.usage (.noProgress 0))) := by
  have hitems : h.engine.window.items ≠ [] := by
    rw [hb.sound.engine.window, hb.committed]
    exact hfed
  obtain ⟨k, hstops, -⟩ := hb.works_of_hasty hm fun hmay => hitems hmay.2
  exact ⟨k, hstops hfed⟩

/-- A session that completes at once takes nothing of what was fed, and this is an error. -/
theorem Blank.feed_delivers_of_hasty (hb : h.Blank) (hf : h.Flows) {xs : List ι} (hxs : xs ≠ []) :
    (h.move (.feed xs)).Delivers (.error (.usage (.noProgress 0))) := by
  have hfed : (h.move (.feed xs)).fed ≠ [] := by
    rw [fed_move_feed hb.running hf.unfinished]
    exact List.append_ne_nil_of_right_ne_nil _ hxs
  exact (hb.feed hf xs).delivers_of_hasty hm hfed

/-- As long as nothing was fed a hasty machine comes to where nothing can be done, and the history
is blank again. -/
theorem Blank.settles_of_hasty (hb : h.Blank) (hfed : h.fed = []) :
    ∃ k, (h.works k).Settled ∧ (h.works k).Blank := by
  by_cases hnext : 0 < h.engine.nextSession
  · exact ⟨0, hb.settled hnext hfed, hb⟩
  · obtain ⟨k, -, hblank⟩ := hb.works_of_hasty hm fun hmay => hnext hmay.1
    obtain ⟨hb', hnext'⟩ := hblank hfed
    exact ⟨k, hb'.settled hnext' (by rw [fed_works, hfed]), hb'⟩

/-- Empty pieces leave a hasty machine where it began, and the first item stops it. -/
theorem Blank.paced_of_hasty (hb : h.Blank) (hf : h.Flows) (hfed : h.fed = [])
    (hp : h.Paced pieces h') :
    if pieces.flatten = [] then h'.Blank
    else gather h'.delivered = .error (.usage (.noProgress 0)) := by
  induction hp with
  | nil h =>
    rw [List.flatten_nil, if_pos rfl]
    exact hb
  | @cons h h' xs pieces k settled rest ih =>
    cases xs with
    | nil =>
      rw [hf.move_feed_nil] at settled rest ih
      obtain ⟨n, hn, hblank⟩ := hb.settles_of_hasty hm hfed
      rw [hb.sound.works_unique hn settled] at hblank
      exact ih hblank (hf.works k) (by rw [fed_works, hfed])
    | cons x xs =>
      obtain ⟨n, hn, hgather⟩ := hb.feed_delivers_of_hasty hm hf (List.cons_ne_nil x xs)
      have hsound := (hf.feed (x :: xs)).sound
      rw [hsound.works_unique hn settled] at hgather
      have hnil : ((x :: xs) :: pieces).flatten ≠ [] := List.cons_ne_nil x _
      rw [if_neg hnil, rest.eq_of_aborted ((hsound.works k).aborted_of_gather hgather)]
      exact hgather

/-- A hasty machine always comes to where nothing can be done. -/
theorem Blank.exists_paced_of_hasty (hb : h.Blank) (hf : h.Flows) (hfed : h.fed = [])
    (pieces : List (List ι)) : ∃ h', h.Paced pieces h' := by
  induction pieces generalizing h with
  | nil => exact ⟨h, .nil h⟩
  | cons xs pieces ih =>
    cases xs with
    | nil =>
      have hsame := hf.move_feed_nil
      obtain ⟨n, hn, hblank⟩ := hb.settles_of_hasty hm hfed
      obtain ⟨h', hh'⟩ := ih hblank (hf.works n) (by rw [fed_works, hfed])
      exact ⟨h', .cons (by rwa [hsame]) (by rwa [hsame])⟩
    | cons x xs =>
      obtain ⟨n, hn, hgather⟩ := hb.feed_delivers_of_hasty hm hf (List.cons_ne_nil x xs)
      have ha := ((hf.feed (x :: xs)).sound.works n).aborted_of_gather hgather
      exact ⟨_, .cons hn (paced_of_aborted ha pieces)⟩

end Hasty

/-! ## Machines of both kinds -/

section Paced

variable (hm : m.Faithful) (hpace : (fresh m none).Unhurried ∨ m.Hasty)
include hm hpace

/-- Pieces, of which none is empty if nothing is fed at all, deliver what the whole stream delivers
when it ends. -/
theorem paced_finish_iff (hpieces : pieces.flatten = [] → pieces = []) :
    (∃ h', (fresh m none).Paced pieces h' ∧ (h'.move .finish).Delivers res) ↔
      (whole m pieces.flatten).Delivers res := by
  rcases hpace with hu | hhasty
  · exact hu.paced_finish_iff hm
  have hflows : (fresh m none).Flows := flows_fresh m
  have hblank : (fresh m none).Blank := blank_fresh m none
  by_cases hnil : pieces.flatten = []
  · -- nothing is fed, so there is no piece
    have hwhole : whole m [] = (fresh m none).move .finish :=
      congrArg (fun h => h.move .finish) hflows.move_feed_nil
    obtain rfl := hpieces hnil
    rw [List.flatten_nil, hwhole]
    constructor
    · rintro ⟨h', ⟨⟩, hres⟩
      exact hres
    · exact fun hres => ⟨_, .nil _, hres⟩
  · -- the first item stops both
    have hw : (whole m pieces.flatten).Delivers (.error (.usage (.noProgress 0))) :=
      (blank_whole m _).delivers_of_hasty hhasty hnil
    have hstops {h' : History m} (hp : (fresh m none).Paced pieces h') :
        (h'.move .finish).Delivers (.error (.usage (.noProgress 0))) := by
      have hgather := hblank.paced_of_hasty hhasty hflows rfl hp
      rw [if_neg hnil] at hgather
      have ha := (hp.flows hflows).sound.aborted_of_gather hgather
      rw [move_finish_of_aborted ha]
      exact delivers_of_aborted ha hgather
    constructor
    · rintro ⟨h', hp, hres⟩
      rwa [(hp.flows hflows).sound.finish.delivers_unique hres (hstops hp)]
    · intro hres
      obtain ⟨h', hp⟩ := hblank.exists_paced_of_hasty hhasty hflows rfl pieces
      rw [(sound_whole m _).delivers_unique hres hw]
      exact ⟨h', hp, hstops hp⟩

/-- An error that pieces bring about is one that every longer beginning of the stream brings
about. -/
theorem delivers_of_paced {e : ParseError ι} (hp : (fresh m none).Paced pieces h')
    (he : gather h'.delivered = .error e) (rest : List ι) :
    ((fresh m none).move (.feed (pieces.flatten ++ rest))).Delivers (.error e) := by
  rcases hpace with hu | hhasty
  · exact hu.delivers_of_paced hm hp he rest
  have hflows : (fresh m none).Flows := flows_fresh m
  have hgather := (blank_fresh m none).paced_of_hasty hhasty hflows rfl hp
  by_cases hnil : pieces.flatten = []
  · -- without an item there is no error
    rw [if_pos hnil] at hgather
    obtain ⟨outputs, houtputs⟩ := hgather.delivered
    rw [houtputs] at he
    cases he
  · rw [if_neg hnil, he] at hgather
    rw [hgather]
    exact (blank_fresh m none).feed_delivers_of_hasty hhasty hflows
      (List.append_ne_nil_of_left_ne_nil hnil rest)

/-- The work after each piece comes to an end if that on a longer beginning of the stream does. -/
theorem exists_paced {rest : List ι}
    (hres : ((fresh m none).move (.feed (pieces.flatten ++ rest))).Delivers res) :
    ∃ h', (fresh m none).Paced pieces h' := by
  rcases hpace with hu | hhasty
  · exact hu.exists_paced hm hres
  · exact (blank_fresh m none).exists_paced_of_hasty hhasty (flows_fresh m) rfl pieces

end Paced

end History

/-! ## What completes before anything was fed -/

/-- A movement completes nothing. -/
theorem completed_not_mem_movement (w : Window ι) (here there : Nat) (o : ο) :
    .completed o ∉ movement w here there := by
  unfold movement
  split <;> simp

/-- As long as nothing was fed, only the first session completes, where it began and after it asked
something. -/
theorem History.yields_of_completed {m : Machine ι ν ο} {k : Nat} {o : ο}
    (ho : .completed o ∈ ((fresh m none).works k).engine.step.events) :
    (∃ q, m.start.resumed = .suspend q) ∧ m.Yields ⟨[], false, 0, 0⟩ 0 (.ok o) 0 := by
  have hf := (flows_fresh m).works k
  have hdivided := (divided_fresh m none).after (sound_fresh m none) (List.replicate k .work)
  have hfed : ((fresh m none).works k).fed = [] := fed_works _ k
  change ((fresh m none).works k).Divided _ at hdivided
  generalize (fresh m none).works k = h at hf hfed ho hdivided
  cases hf.sound.engine.stepped with
  | idle _ eq | refused _ _ _ eq =>
    rw [eq] at ho
    cases ho
  | suspended _ _ eq | failed _ _ eq | unproductive _ _ _ eq =>
    rw [eq] at ho
    exact absurd ho (completed_not_mem_movement _ _ _ o)
  | @completed s c r o' resumes completes asked _ eq =>
    obtain rfl : o = o' := by
      rw [eq] at ho
      rcases List.mem_append.mp ho with ho | ho
      · exact absurd ho (completed_not_mem_movement _ _ _ o)
      · cases List.mem_singleton.mp ho
        rfl
    obtain ⟨told, hleads⟩ := hf.sound.engine.leads resumes
    obtain ⟨-, hopen, -⟩ := Engine.resumption_eq_some resumes
    have hopens := hf.sound.engine.opens hopen
    have hwithin := hf.sound.engine.resumption_within resumes
    have hstart : s.start = 0 := by
      have hle := hf.sound.engine.committed_le
      rw [hfed] at hle
      exact hopens.start.trans (Nat.le_zero.mp hle)
    have hend : c = 0 := by
      rw [hfed] at hwithin
      exact Nat.le_zero.mp hwithin.2
    have hid : s.id = 0 := by
      refine Nat.eq_zero_of_not_pos fun hpos => ?_
      have hlt := hdivided.committed_lt hf.sound hopen hpos
      rw [hfed] at hlt
      exact Nat.not_lt_zero _ hlt
    have hyields := hleads.yields (.complete completes)
    rw [Session.setting, hfed, hf.unfinished, hstart, hend, hid] at hyields
    refine ⟨?_, hyields⟩
    obtain ⟨told, hstands⟩ := hopens.stands
    cases hstands with
    | fresh eq => exact absurd (congrArg Session.pending eq) asked
    | waiting leads asks eq => exact leads.start_asks ⟨_, asks⟩

/-- The parser of a grammar without tokens is of one of the two kinds: what completes a session
before anything was fed completes every session at the beginning of the stream. -/
theorem Grammar.unhurried_or_hasty {rules : RuleBook ρ ι ν} (hrules : rules.Tokenless)
    {g : Grammar ρ ι ν α} (hg : g.Tokenless) (depth : Nat) :
    (History.fresh (g.parser rules depth) none).Unhurried ∨ (g.parser rules depth).Hasty := by
  by_cases hu : (History.fresh (g.parser rules depth) none).Unhurried
  · exact .inl hu
  right
  simp only [History.Unhurried, History.Patient, not_forall, not_not] at hu
  obtain ⟨k, -, i, -, o, ho⟩ := hu
  obtain ⟨hasks, hyields⟩ := History.yields_of_completed ho
  refine ⟨hasks, o, fun items ended id => ?_⟩
  -- more input does not disturb the session, and its number does not matter
  have hmore := hyields.extend rfl items ended
  have hw : Setting.Displaced ⟨items, ended, id, 0⟩ ⟨items, ended, 0, 0⟩ 0 :=
    ⟨rfl, Nat.zero_le _, rfl⟩
  exact (parser_yields_displaced hw hrules depth hg (Nat.le_refl 0)
    ⟨Nat.le_refl 0, Nat.zero_le _⟩).mpr ⟨0, hmore, rfl⟩

end ResumableParsing

/-
# Direct style for one computation after another

What machines yield that run other machines: changed outputs and failures, pairs, lists, relays.
Each statement says what the whole yields in terms of what its parts yield; from it follows that the
whole realizes the composed descent if the parts realize theirs.
-/
import Mathlib.Data.List.Forall2
import ResumableParsing.Proofs.Descent.Basic

namespace ResumableParsing

variable {ι ν α β κ : Type}

namespace Machine

variable {w : Setting ι} {c n : Nat}

/-! ## Changing results -/

/-- The machine comes to what the one inside comes to, with its output changed. -/
theorem yields_map {p : Machine ι ν α} {f : α → β} {res : Except (Failure ι) β} :
    (p.map f).Yields w c res n ↔ ∃ x, p.Yields w c x n ∧ res = x.map f := by
  refine ends_translate (m := p.map f) (p := p)
    (fun t => ⟨t.state, mapOutput f t.resumed, t.notes⟩) (Except.map f)
    (fun t q h => ⟨?_, fun r => ⟨rfl, rfl⟩⟩) (fun t x h => ?_)
  · show mapOutput f t.resumed = _
    rw [h]
    rfl
  · show mapOutput f t.resumed = _
    rw [h]
    cases x <;> rfl

/-- The machine comes to what the one inside comes to, with its failure changed. -/
theorem yields_changeFailure {p : Machine ι ν α} {f : Failure ι → Failure ι}
    {res : Except (Failure ι) α} :
    (p.changeFailure f).Yields w c res n ↔ ∃ x, p.Yields w c x n ∧ res = x.mapError f := by
  refine ends_translate (m := p.changeFailure f) (p := p)
    (fun t => ⟨t.state, mapFailure f t.resumed, t.notes⟩) (Except.mapError f)
    (fun t q h => ⟨?_, fun r => ⟨rfl, rfl⟩⟩) (fun t x h => ?_)
  · show mapFailure f t.resumed = _
    rw [h]
    rfl
  · show mapFailure f t.resumed = _
    rw [h]
    cases x <;> rfl

/-- A tap changes nothing but the notes. -/
theorem yields_tap {p : Machine ι ν α} {mark : Option (Response ι) → Resumed ι α → ν}
    {res : Except (Failure ι) α} : (p.tap mark).Yields w c res n ↔ p.Yields w c res n := by
  have h : (p.tap mark).Ends w p.start c res n ↔ ∃ x, p.Ends w p.start c x n ∧ res = id x :=
    ends_translate (m := p.tap mark) (p := p) (fun t => t) id
      (fun t q h => ⟨h, fun r => ⟨rfl, rfl⟩⟩) (fun t x h => h)
  -- the two machines begin alike, but the tap has noted something
  have hstart : (p.tap mark).start.Alike p.start := ⟨rfl, rfl⟩
  rw [Yields, ends_congr hstart, h]
  simp [Yields]

/-- It makes no difference when a machine is built. -/
theorem yields_deferred {build : Unit → Machine ι ν α} {res : Except (Failure ι) α} :
    (deferred build).Yields w c res n ↔ (build ()).Yields w c res n := by
  have h : (deferred build).Ends w ((build ()).start.within some) c res n ↔
      ∃ x, (build ()).Ends w (build ()).start c x n ∧ res = id x :=
    ends_translate (m := deferred build) (p := build ()) (Turn.within some) id
      (fun t q h => ⟨h, fun r => ⟨rfl, rfl⟩⟩) (fun t x h => h)
  rw [Yields]
  refine h.trans ?_
  simp [Yields]

/-! ## Relays -/

/-- What follows the end of the first machine of a relay. -/
def Next.Follows (next : κ → Machine ι ν β) (w : Setting ι) :
    Next κ ι β → Nat → Except (Failure ι) β → Nat → Prop
  | .start k, c, res, n => (next k).Yields w c res n
  | .complete b, c, res, n => res = .ok b ∧ n = c
  | .fail e, c, res, n => res = .error e ∧ n = c

section Relay

variable (p : Machine ι ν α) (completed : α → Next κ ι β) (failed : Failure ι → Next κ ι β)
  (next : κ → Machine ι ν β)

/-- What a relay makes of the end of its first machine. -/
def Next.turn (t : Turn p.State ι ν α) :
    Next κ ι β → Turn (p.relay completed failed next).State ι ν β
  | .start k => ((next k).start.within fun s => .inr ⟨k, s⟩).after t.notes
  | .complete b => ⟨.inl t.state, .complete b, t.notes⟩
  | .fail e => ⟨.inl t.state, .fail e, t.notes⟩

/-- A turn of the first machine of a relay, as it looks from outside. -/
def relayTurn (t : Turn p.State ι ν α) : Turn (p.relay completed failed next).State ι ν β :=
  match t.resumed with
  | .suspend q => ⟨.inl t.state, .suspend q, t.notes⟩
  | .complete a => (completed a).turn p completed failed next t
  | .fail e => (failed e).turn p completed failed next t

variable {p completed failed next} {res : Except (Failure ι) β}

/-- What follows an output is what the output calls for. -/
theorem relayTurn_of_complete {t : Turn p.State ι ν α} {a : α} (h : t.resumed = .complete a) :
    relayTurn p completed failed next t = (completed a).turn p completed failed next t := by
  rw [relayTurn, h]

/-- What follows a failure is what the failure calls for. -/
theorem relayTurn_of_fail {t : Turn p.State ι ν α} {e : Failure ι} (h : t.resumed = .fail e) :
    relayTurn p completed failed next t = (failed e).turn p completed failed next t := by
  rw [relayTurn, h]

/-- After the hand-over the relay is its second machine. -/
theorem ends_relay_second (k : κ) (t : Turn (next k).State ι ν β) :
    (p.relay completed failed next).Ends w (t.within fun s => .inr ⟨k, s⟩) c res n ↔
      (next k).Ends w t c res n := by
  have h : (p.relay completed failed next).Ends w (t.within fun s => .inr ⟨k, s⟩) c res n ↔
      ∃ x, (next k).Ends w t c x n ∧ res = id x :=
    ends_translate (m := p.relay completed failed next) (p := next k)
      (Turn.within fun s => .inr ⟨k, s⟩) id
      (fun t q h => ⟨h, fun r => ⟨rfl, rfl⟩⟩) (fun t x h => h)
  simpa using h

/-- A relay ends where the machine that takes over does, or at once. -/
theorem ends_next_turn (t : Turn p.State ι ν α) (f : Next κ ι β) :
    (p.relay completed failed next).Ends w (f.turn p completed failed next t) c res n ↔
      f.Follows next w c res n := by
  cases f with
  | start k => exact ends_after.trans (ends_relay_second k _)
  | complete b => exact ends_iff_of_complete rfl
  | fail e => exact ends_iff_of_fail rfl

/-- A relay yields what follows the end of its first machine. -/
theorem yields_relay :
    (p.relay completed failed next).Yields w c res n ↔
      (∃ a k, p.Yields w c (.ok a) k ∧ (completed a).Follows next w k res n) ∨
        ∃ e k, p.Yields w c (.error e) k ∧ (failed e).Follows next w k res n := by
  refine ends_phase (m := p.relay completed failed next) (p := p)
    (relayTurn p completed failed next) (fun a => (completed a).Follows next w)
    (fun e => (failed e).Follows next w)
    (fun t q h => ?_) (fun t a c res n h => ?_) (fun t e c res n h => ?_)
  · unfold relayTurn
    rw [h]
    exact ⟨rfl, fun r => ⟨rfl, rfl⟩⟩
  · rw [relayTurn_of_complete h]
    exact ends_next_turn t _
  · rw [relayTurn_of_fail h]
    exact ends_next_turn t _

/-- A dependent sequence yields what the machine built from the first output yields, or the failure
of the first machine. -/
theorem yields_bind {f : α → Machine ι ν β} :
    (p.bind f).Yields w c res n ↔
      (∃ a k, p.Yields w c (.ok a) k ∧ (f a).Yields w k res n) ∨
        ∃ e, p.Yields w c (.error e) n ∧ res = .error e := by
  refine yields_relay.trans (or_congr Iff.rfl (exists_congr fun e => ?_))
  exact exists_place_iff

end Relay

/-- Recovery by whatever machine `choose` picks for a recoverable failure. -/
theorem yields_recover {p : Machine ι ν α} (choose : Failure ι → κ) {next : κ → Machine ι ν α}
    {res : Except (Failure ι) α} :
    (p.relay .complete (fun e => if e.isFatal then .fail e else .start (choose e)) next).Yields
        w c res n ↔
      (∃ a, p.Yields w c (.ok a) n ∧ res = .ok a) ∨
        ∃ e k, p.Yields w c (.error e) k ∧
          if e.isFatal then res = .error e ∧ n = k
          else (next (choose e)).Yields w k res n := by
  refine yields_relay.trans (or_congr ?_ ?_)
  · exact exists_congr fun a => exists_place_iff
  · -- whether the second machine is started depends on the failure
    refine exists_congr fun e => exists_congr fun k => and_congr_right fun _ => ?_
    by_cases he : e.isFatal <;> simp [he, Next.Follows]

/-! ## Pairs -/

section Pair

variable {p : Machine ι ν α} {q : Machine ι ν β}

/-- A turn of the first machine of a pair, as it looks from outside. -/
def pairTurn (p : Machine ι ν α) (q : Machine ι ν β) (t : Turn p.State ι ν α) :
    Turn (p.pair q).State ι ν (α × β) :=
  match t.resumed with
  | .suspend r => ⟨.first t.state, .suspend r, t.notes⟩
  | .fail e => ⟨.first t.state, .fail e, t.notes⟩
  | .complete a => (pairSecond (some a) q.start).after t.notes

/-- A pair ends where its second machine does, with both outputs. -/
theorem ends_pair_second (a : α) (t : Turn q.State ι ν β) {res : Except (Failure ι) (α × β)} :
    (p.pair q).Ends w (pairSecond (some a) t) c res n ↔
      ∃ y, q.Ends w t c y n ∧ res = y.map (a, ·) := by
  refine ends_translate (m := p.pair q) (p := q) (pairSecond (some a)) (Except.map (a, ·))
    (fun t r h => ?_) (fun t y h => ?_)
  · unfold pairSecond
    rw [h]
    exact ⟨rfl, fun r => ⟨rfl, rfl⟩⟩
  · unfold pairSecond
    cases y <;> rw [h] <;> rfl

/-- A pair yields what its second machine yields from where the first ended, or the failure of the
first. -/
theorem yields_pair {res : Except (Failure ι) (α × β)} :
    (p.pair q).Yields w c res n ↔
      (∃ a k, p.Yields w c (.ok a) k ∧ ∃ y, q.Yields w k y n ∧ res = y.map (a, ·)) ∨
        ∃ e, p.Yields w c (.error e) n ∧ res = .error e := by
  refine ends_sequence (m := p.pair q) (p := p) (pairTurn p q)
    (fun a k res n => ∃ y, q.Yields w k y n ∧ res = y.map (a, ·))
    (fun t r h => ?_) (fun t a c res n h => ?_) (fun t e h => ?_)
  · unfold pairTurn
    rw [h]
    exact ⟨rfl, fun r => ⟨rfl, rfl⟩⟩
  · unfold pairTurn
    rw [h]
    exact ends_after.trans (ends_pair_second a _)
  · unfold pairTurn
    rw [h]

end Pair

/-! ## Lists -/

section Lists

variable {p : Machine ι ν α} {rest : Machine ι ν (List α)} {res : Except (Failure ι) (List α)}

/-- A turn of the head of a list, as it looks from outside. -/
def consTurn (p : Machine ι ν α) (rest : Machine ι ν (List α)) (t : Turn p.State ι ν α) :
    Turn (cons p rest).State ι ν (List α) :=
  match t.resumed with
  | .suspend q => ⟨.inl t.state, .suspend q, t.notes⟩
  | .fail e => ⟨.inl t.state, .fail e, t.notes⟩
  | .complete a => (consTail a rest.start).after t.notes

/-- A list ends where what is behind its first machine does, with all outputs. -/
theorem ends_cons_tail (a : α) (t : Turn rest.State ι ν (List α)) :
    (cons p rest).Ends w (consTail a t) c res n ↔
      ∃ y, rest.Ends w t c y n ∧ res = y.map (a :: ·) := by
  refine ends_translate (m := cons p rest) (p := rest) (consTail a) (Except.map (a :: ·))
    (fun t q h => ⟨?_, fun r => ⟨rfl, rfl⟩⟩) (fun t y h => ?_)
  · show mapOutput (a :: ·) t.resumed = _
    rw [h]
    rfl
  · show mapOutput (a :: ·) t.resumed = _
    rw [h]
    cases y <;> rfl

/-- Behind the first output of a list come the others, and a failure ends it. -/
theorem yields_cons :
    (cons p rest).Yields w c res n ↔
      (∃ a k, p.Yields w c (.ok a) k ∧ ∃ y, rest.Yields w k y n ∧ res = y.map (a :: ·)) ∨
        ∃ e, p.Yields w c (.error e) n ∧ res = .error e := by
  refine ends_sequence (m := cons p rest) (p := p) (consTurn p rest)
    (fun a k res n => ∃ y, rest.Yields w k y n ∧ res = y.map (a :: ·))
    (fun t r h => ?_) (fun t a c res n h => ?_) (fun t e h => ?_)
  · unfold consTurn
    rw [h]
    exact ⟨rfl, fun r => ⟨rfl, rfl⟩⟩
  · unfold consTurn
    rw [h]
    exact ends_after.trans (ends_cons_tail a _)
  · unfold consTurn
    rw [h]

/-- A turn of a machine that starts over, as it looks from outside. -/
def rewindingTurn (p : Machine ι ν α) (t : Turn p.State ι ν α) : Turn p.State ι ν α :=
  match t.resumed with
  | .complete a => ⟨p.init, .complete a, t.notes⟩
  | other => ⟨t.state, other, t.notes⟩

/-- Starting over after the output changes nothing before it. -/
theorem yields_rewinding {res : Except (Failure ι) α} :
    (rewinding p).Yields w c res n ↔ p.Yields w c res n := by
  have h : (rewinding p).Ends w (rewindingTurn p p.start) c res n ↔
      ∃ x, p.Ends w p.start c x n ∧ res = id x := by
    refine ends_translate (m := rewinding p) (p := p) (rewindingTurn p) id
      (fun t q h => ?_) (fun t x h => ?_)
    · unfold rewindingTurn
      rw [h]
      exact ⟨rfl, fun r => ⟨rfl, rfl⟩⟩
    · unfold rewindingTurn
      cases x <;> rw [h] <;> rfl
  refine Iff.trans h ?_
  simp [Yields]

end Lists

/-! ## Composed machines realize composed descents -/

section Realizes

variable {p : Machine ι ν α} {d : Descent ι α}

/-- A change of the output is that of the descent. -/
theorem Realizes.map (hp : p.Realizes w d) (f : α → β) : (p.map f).Realizes w (d.map f) where
  forward := hp.forward.map f
  yields_iff := by
    intro c n res hc
    rw [yields_map, Descent.map_eq_some_iff]
    exact exists_congr fun x => and_congr_left fun _ => hp.yields_iff hc

/-- A change of the failure is that of the descent. -/
theorem Realizes.changeFailure (hp : p.Realizes w d) (f : Failure ι → Failure ι) :
    (p.changeFailure f).Realizes w (d.changeFailure f) where
  forward := hp.forward.changeFailure f
  yields_iff := by
    intro c n res hc
    rw [yields_changeFailure, Descent.changeFailure_eq_some_iff]
    exact exists_congr fun x => and_congr_left fun _ => hp.yields_iff hc

/-- A tap takes no part. -/
theorem Realizes.tap (hp : p.Realizes w d) (mark : Option (Response ι) → Resumed ι α → ν) :
    (p.tap mark).Realizes w d where
  forward := hp.forward
  yields_iff := fun hc => yields_tap.trans (hp.yields_iff hc)

/-- A machine realizes the same, whenever it is built. -/
theorem Realizes.deferred {build : Unit → Machine ι ν α} (hp : (build ()).Realizes w d) :
    (deferred build).Realizes w d where
  forward := hp.forward
  yields_iff := fun hc => yields_deferred.trans (hp.yields_iff hc)

/-- What follows an output comes to what the next descent does, and a failure passes. -/
theorem Realizes.sequence_iff (hp : p.Realizes w d) {next : α → Descent ι β}
    {follows : α → Nat → Prop} {res : Except (Failure ι) β} (hc : w.Within c)
    (hnext : ∀ a k, w.Within k → (follows a k ↔ next a k = some (res, n))) :
    ((∃ a k, p.Yields w c (.ok a) k ∧ follows a k) ∨
        ∃ e, p.Yields w c (.error e) n ∧ res = .error e) ↔
      d.bind next c = some (res, n) := by
  rw [Descent.bind_eq_some_iff]
  refine or_congr (exists_congr fun a => exists_congr fun k => ?_) (exists_congr fun e => ?_)
  · rw [hp.yields_iff hc]
    exact and_congr_right fun ha => hnext a k (hp.forward.within hc ha)
  · rw [hp.yields_iff hc]

/-- Dependent machines realize dependent descents. -/
theorem Realizes.bind {f : α → Machine ι ν β} {g : α → Descent ι β} (hp : p.Realizes w d)
    (hf : ∀ a, (f a).Realizes w (g a)) : (p.bind f).Realizes w (d.bind g) where
  forward := hp.forward.bind fun a => (hf a).forward
  yields_iff := fun hc =>
    yields_bind.trans (hp.sequence_iff hc fun a _ hk => (hf a).yields_iff hk)

/-- Handlers realize what is done about failures. -/
theorem Realizes.rescue {f : Failure ι → Machine ι ν α} {g : Failure ι → Descent ι α}
    (hp : p.Realizes w d) (hf : ∀ e, (f e).Realizes w (g e)) :
    (p.rescue f).Realizes w (d.rescue g) where
  forward := hp.forward.rescue fun e => (hf e).forward
  yields_iff := by
    intro c n res hc
    refine (yields_recover id).trans ?_
    rw [Descent.rescue_eq_some_iff]
    refine or_congr (exists_congr fun a => ?_) (exists_congr fun e => exists_congr fun k => ?_)
    · rw [hp.yields_iff hc]
    · rw [hp.yields_iff hc]
      refine and_congr_right fun he => ?_
      by_cases hfatal : e.isFatal
      · rw [if_pos hfatal, if_pos hfatal]
      · rw [if_neg hfatal, if_neg hfatal]
        exact (hf e).yields_iff (hp.forward.within hc he)

/-- A fixed fallback is a handler that does not look at the failure. -/
theorem yields_recoverWith {q : Machine ι ν α} {res : Except (Failure ι) α} :
    (p.recoverWith q).Yields w c res n ↔ (p.rescue fun _ => q).Yields w c res n :=
  have hrescue : (p.rescue fun _ => q).Yields w c res n ↔ _ := yields_recover id
  (yields_recover fun _ => ()).trans hrescue.symm

/-- To fall back on a machine is to handle any recoverable failure in the same way. -/
theorem Realizes.recoverWith {q : Machine ι ν α} {d' : Descent ι α} (hp : p.Realizes w d)
    (hq : q.Realizes w d') : (p.recoverWith q).Realizes w (d.rescue fun _ => d') where
  forward := hp.forward.rescue fun _ => hq.forward
  yields_iff := fun hc => yields_recoverWith.trans ((hp.rescue fun _ => hq).yields_iff hc)

/-- A pair realizes one descent after another, with both outputs. -/
theorem Realizes.pair {q : Machine ι ν β} {d' : Descent ι β} (hp : p.Realizes w d)
    (hq : q.Realizes w d') : (p.pair q).Realizes w (d.bind fun a => d'.map (a, ·)) where
  forward := hp.forward.bind fun a => hq.forward.map _
  yields_iff := by
    intro c n res hc
    refine yields_pair.trans (hp.sequence_iff hc fun a k hk => ?_)
    rw [Descent.map_eq_some_iff]
    exact exists_congr fun y => and_congr_left fun _ => hq.yields_iff hk

/-- Pointwise, the machines of a list realize the descents of another list. -/
abbrev RealizeAll (w : Setting ι) : List (Machine ι ν α) → List (Descent ι α) → Prop :=
  List.Forall₂ (Realizes w)

/-- The machine that runs a list before it starts over. -/
theorem RealizeAll.foldr_cons {ps : List (Machine ι ν α)} {ds : List (Descent ι α)}
    (h : RealizeAll w ps ds) : (ps.foldr cons nil).Realizes w (Descent.all ds) := by
  -- the induction is on the two lists, which go along with one another
  induction h with
  | nil =>
    refine ⟨Descent.forward_pure [], fun _ => ?_⟩
    rw [Yields, ends_complete_iff rfl]
    simp [Descent.all, Descent.pure, eq_comm]
  | @cons p d ps ds hp _ ih =>
    refine ⟨hp.forward.bind fun a => ih.forward.map _, fun {c n res} hc => ?_⟩
    refine yields_cons.trans (hp.sequence_iff hc fun a k hk => ?_)
    rw [Descent.map_eq_some_iff]
    exact exists_congr fun y => and_congr_left fun _ => ih.yields_iff hk

/-- A list of machines realizes the descents in order. -/
theorem RealizeAll.all {ps : List (Machine ι ν α)} {ds : List (Descent ι α)}
    (h : RealizeAll w ps ds) : (all ps).Realizes w (Descent.all ds) where
  forward := h.foldr_cons.forward
  yields_iff := fun hc => yields_rewinding.trans (h.foldr_cons.yields_iff hc)

end Realizes

end Machine

end ResumableParsing

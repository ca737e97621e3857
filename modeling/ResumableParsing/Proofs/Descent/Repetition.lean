/-
# Direct style for repetition

In direct style a repetition makes its mandatory runs and then its optional ones.  A recoverable
failure of an optional run is undone; with a bound the runs stop when there is no more room, and
without one after a run that took nothing.  That the loop without a bound is a function at all is
due to the stream: every run but the last moves the cursor forward, so there are never more rounds
than items.
-/
import ResumableParsing.Machine.Repetition
import ResumableParsing.Proofs.Descent.Sequencing

namespace ResumableParsing

variable {ι ν α : Type}

/-! ## Repetition in direct style -/

namespace Descent

/-- A number of runs one after the other, none of which may fail. -/
def exactly (p : Descent ι α) : Nat → Descent ι (List α)
  | 0 => pure []
  | left + 1 => p.bind fun a => (exactly p left).map (a :: ·)

/-- An optional run and what goes on after it; a recoverable failure is undone and ends the runs. -/
def attempt (p : Descent ι α) (onward : Nat → Descent ι (List α)) : Descent ι (List α) := fun c =>
  match p c with
  | none => none
  | some (.ok a, k) => (onward c).map (a :: ·) k
  | some (.error e, k) => if e.isFatal then some (.error e, k) else some (.ok [], c)

/-- At most a number of optional runs. -/
def upTo (p : Descent ι α) : Nat → Descent ι (List α)
  | 0 => pure []
  | room + 1 => p.attempt fun _ => upTo p room

/-- Optional runs up to one that leaves the cursor where it was; nothing if there are more than the
number of rounds. -/
def untilStill (p : Descent ι α) : Nat → Descent ι (List α)
  | 0 => fun _ => none
  | rounds + 1 => p.attempt fun c k => if k = c then some (.ok [], k) else untilStill p rounds k

/-- Optional runs, as many as there is room for. -/
def optional (w : Setting ι) (p : Descent ι α) : Option Nat → Descent ι (List α)
  | some room => p.upTo room
  | none => p.untilStill (w.items.length + 1)

/-- The mandatory runs and then the optional ones. -/
def repetition (w : Setting ι) (p : Descent ι α) (min : Nat) (max : Option Nat) :
    Descent ι (List α) :=
  (p.exactly min).bind fun as => (p.optional w (max.map (· - min))).map (as ++ ·)

/-- An optional run succeeds, fails for good, or is taken back. -/
theorem attempt_eq_some_iff {p : Descent ι α} {onward : Nat → Descent ι (List α)} {c n : Nat}
    {res : Except (Failure ι) (List α)} :
    p.attempt onward c = some (res, n) ↔
      (∃ a k, p c = some (.ok a, k) ∧ (onward c).map (a :: ·) k = some (res, n)) ∨
        ∃ e k, p c = some (.error e, k) ∧
          if e.isFatal then res = .error e ∧ n = k else res = .ok [] ∧ n = c := by
  unfold attempt
  rcases p c with _ | ⟨_ | _, _⟩ <;> grind

/-- What an optional run leads to, behind outputs that were put out before. -/
theorem attempt_map_eq_some_iff {p : Descent ι α} {onward : Nat → Descent ι (List α)}
    {done : List α} {c n : Nat} {res : Except (Failure ι) (List α)} :
    (p.attempt onward).map (done.reverse ++ ·) c = some (res, n) ↔
      (∃ a k, p c = some (.ok a, k) ∧
        (onward c).map ((a :: done).reverse ++ ·) k = some (res, n)) ∨
        ∃ e k, p c = some (.error e, k) ∧
          if e.isFatal then res = .error e ∧ n = k else res = .ok done.reverse ∧ n = c := by
  have hmap (a : α) (k : Nat) : (onward c).map ((a :: done).reverse ++ ·) k =
      ((onward c).map (a :: ·)).map (done.reverse ++ ·) k := by
    simp [map_map]
  simp only [hmap, map_eq_some_iff (p := p.attempt onward), attempt_eq_some_iff]
  constructor
  · rintro ⟨x, ⟨a, k, ha, hk⟩ | ⟨e, k, he, hk⟩, rfl⟩
    · exact .inl ⟨a, k, ha, map_eq_some_iff.mpr ⟨x, hk, rfl⟩⟩
    · refine .inr ⟨e, k, he, ?_⟩
      split at hk <;> obtain ⟨rfl, rfl⟩ := hk
      · simp [*, Except.map]
      · simp [*, Except.map]
  · rintro (⟨a, k, ha, hk⟩ | ⟨e, k, he, hk⟩)
    · obtain ⟨x, hx, rfl⟩ := map_eq_some_iff.mp hk
      exact ⟨x, .inl ⟨a, k, ha, hx⟩, rfl⟩
    · split at hk <;> obtain ⟨rfl, rfl⟩ := hk
      · exact ⟨.error e, .inr ⟨e, n, he, by simp [*]⟩, rfl⟩
      · exact ⟨.ok [], .inr ⟨e, k, he, by simp [*]⟩, by simp [Except.map]⟩

variable {w : Setting ι} {p : Descent ι α}

/-- Runs that must succeed go forward one by one. -/
theorem forward_exactly (hp : p.Forward w) (left : Nat) : (p.exactly left).Forward w := by
  induction left with
  | zero => exact forward_pure []
  | succ left ih => exact hp.bind fun a => ih.map _

/-- An optional run that is taken back has moved nothing. -/
theorem Forward.attempt (hp : p.Forward w) {onward : Nat → Descent ι (List α)}
    (ho : ∀ c, (onward c).Forward w) : (p.attempt onward).Forward w := by
  intro c n res hc h
  rcases attempt_eq_some_iff.mp h with ⟨a, k, ha, hk⟩ | ⟨e, k, he, hk⟩
  · have hck : c ≤ k ∧ k ≤ w.items.length := hp hc ha
    have hkn : k ≤ n ∧ n ≤ w.items.length := (ho c).map _ hck.2 hk
    omega
  · split at hk
    · rw [hk.2]
      exact hp hc he
    · rw [hk.2]
      exact ⟨Nat.le_refl _, hc⟩

theorem forward_upTo (hp : p.Forward w) (room : Nat) : (p.upTo room).Forward w := by
  induction room with
  | zero => exact forward_pure []
  | succ room ih => exact hp.attempt fun _ => ih

theorem forward_untilStill (hp : p.Forward w) (rounds : Nat) :
    (p.untilStill rounds).Forward w := by
  induction rounds with
  | zero =>
    intro c n res _ h
    cases h
  | succ rounds ih =>
    refine hp.attempt fun c k n res hk h => ?_
    split at h
    · cases h
      exact ⟨Nat.le_refl _, hk⟩
    · exact ih hk h

/-- A repetition goes forward if its runs do. -/
theorem forward_repetition (hp : p.Forward w) (min : Nat) (max : Option Nat) :
    (p.repetition w min max).Forward w := by
  refine (forward_exactly hp min).bind fun as => Forward.map ?_ _
  unfold optional
  split
  · exact forward_upTo hp _
  · exact forward_untilStill hp _

end Descent

/-! ## The repetition of a machine -/

namespace Machine

open Repeating

variable {w : Setting ι} {p : Machine ι ν α} {d : Descent ι α} {min : Nat} {max : Option Nat}
  {c n : Nat} {res : Except (Failure ι) (List α)}

/-- While a run that must succeed is under way, the repetition does what the run does. -/
theorem ofMandatory_suspends (p : Machine ι ν α) (min : Nat) (max : Option Nat) (left : Nat)
    (done : List α) (t : Turn p.State ι ν α) (q : Request) (h : t.resumed = .suspend q) :
    let embed : Turn p.State ι ν α → Turn (p.repetition min max).State ι ν (List α) :=
      ofMandatory left done (demand p (max.map (· - min)) left)
    (embed t).resumed = .suspend q ∧ (embed t).notes = t.notes ∧
      ∀ r, (p.repetition min max).resume (embed t).state (some r) =
        embed (p.resume t.state (some r)) := by
  intro embed
  simp only [embed, ofMandatory, h]
  exact ⟨trivial, trivial, fun r => rfl⟩

/-- While an optional run is under way, the repetition does what the run does. -/
theorem ofOptional_suspends (p : Machine ι ν α) (min : Nat) (max : Option Nat)
    (room : Option Nat) (checkpoint : Token) (done : List α) (t : Turn p.State ι ν α) (q : Request)
    (h : t.resumed = .suspend q) :
    let embed : Turn p.State ι ν α → Turn (p.repetition min max).State ι ν (List α) :=
      ofOptional room checkpoint done
    (embed t).resumed = .suspend q ∧ (embed t).notes = t.notes ∧
      ∀ r, (p.repetition min max).resume (embed t).state (some r) =
        embed (p.resume t.state (some r)) := by
  intro embed
  simp only [embed, ofOptional, h]
  exact ⟨trivial, trivial, fun r => rfl⟩

/-- The token tells whether the run before has taken anything. -/
theorem resume_checking (room last : Option Nat) (done : List α) (checkpoint : Token) :
    (p.repetition min max).resume (.checking room last done) (some (.token checkpoint)) =
      if room = none ∧ last = some checkpoint.offset then finish done
      else ofOptional room checkpoint done p.start := rfl

/-- An optional run is followed by the next, or by the return to where it began. -/
theorem ends_attempt (hp : p.Realizes w d) (hc : w.Within c) (room : Option Nat) (done : List α) :
    (p.repetition min max).Ends w (ofOptional room ⟨w.session, c⟩ done p.start) c res n ↔
      (∃ a k, d c = some (.ok a, k) ∧ (p.repetition min max).Ends w
        (proceed (room.map (· - 1)) (some c) (a :: done)) k res n) ∨
        ∃ e k, d c = some (.error e, k) ∧
          if e.isFatal then res = .error e ∧ n = k else res = .ok done.reverse ∧ n = c := by
  refine Iff.trans (ends_phase (m := p.repetition min max) (p := p)
    (ofOptional room ⟨w.session, c⟩ done)
    (fun a k res n => (p.repetition min max).Ends w
      (proceed (room.map (· - 1)) (some c) (a :: done)) k res n)
    (fun e k res n =>
      if e.isFatal then res = .error e ∧ n = k else res = .ok done.reverse ∧ n = c)
    (fun t q h => ?_) (fun t a k res n h => ?_) (fun t e k res n h => ?_)) ?_
  · obtain ⟨hasks, -, hresume⟩ := ofOptional_suspends p min max room ⟨w.session, c⟩ done t q h
    exact ⟨hasks, fun r => .of_eq (hresume r)⟩
  · unfold ofOptional
    rw [h]
    exact ends_after
  · -- a recoverable failure is followed by the return, which is honoured, and then by the end
    unfold ofOptional
    rw [h]
    by_cases he : e.isFatal
    · simp only [if_pos he]
      exact ends_iff_of_fail rfl
    · simp only [if_neg he]
      exact (ends_iff_of_respond rfl (Setting.respond_rollback hc k)).trans
        (ends_iff_of_complete rfl)
  · refine or_congr (exists_congr fun a => ?_) (exists_congr fun e => ?_)
    · exact exists_congr fun k => and_congr_left fun _ => hp.yields_iff hc
    · exact exists_congr fun k => and_congr_left fun _ => hp.yields_iff hc

/-- A repetition that is complete puts out what it has gathered. -/
theorem ends_finish (done : List α) :
    (p.repetition min max).Ends w (finish done) c res n ↔ res = .ok done.reverse ∧ n = c :=
  ends_iff_of_complete rfl

/-- As long as there is room, the repetition takes a token and makes an optional run, unless the
last one began here. -/
theorem ends_proceed {room last : Option Nat} (hroom : room ≠ some 0) (done : List α) :
    (p.repetition min max).Ends w (proceed room last done) c res n ↔
      if room = none ∧ last = some c then res = .ok done.reverse ∧ n = c
      else (p.repetition min max).Ends w (ofOptional room ⟨w.session, c⟩ done p.start) c res n := by
  rw [proceed, if_neg hroom]
  refine (ends_iff_of_respond rfl (Setting.respond_snapshot w c)).trans ?_
  rw [resume_checking]
  by_cases h : room = none ∧ last = some c
  · rw [if_pos h, if_pos h, ends_finish]
  · rw [if_neg h, if_neg h]

/-- As long as there is room the repetition does what is done in direct style. -/
theorem ends_upTo (hp : p.Realizes w d) (hc : w.Within c) (room : Nat) (last : Option Nat)
    (done : List α) :
    (p.repetition min max).Ends w (proceed (some room) last done) c res n ↔
      (d.upTo room).map (done.reverse ++ ·) c = some (res, n) := by
  induction room generalizing last done c with
  | zero =>
    rw [proceed, if_pos rfl, ends_finish, Descent.map_eq_some_iff]
    simp [Descent.upTo, Descent.pure, Except.map, and_comm, eq_comm]
  | succ room ih =>
    rw [ends_proceed (by simp), if_neg (by simp), ends_attempt hp hc, Descent.upTo,
      Descent.attempt_map_eq_some_iff]
    refine or_congr (exists_congr fun a => exists_congr fun k => ?_) Iff.rfl
    exact and_congr_right fun ha => ih (hp.forward.within hc ha) _ _

/-- Without a bound on the runs it does so as long as there are more rounds than items. -/
theorem ends_untilStill (hp : p.Realizes w d) (hc : w.Within c) {rounds : Nat}
    (hrounds : w.items.length < c + rounds) {last : Option Nat} (hlast : last ≠ some c)
    (done : List α) :
    (p.repetition min max).Ends w (proceed none last done) c res n ↔
      (d.untilStill rounds).map (done.reverse ++ ·) c = some (res, n) := by
  -- every round but the last moves the cursor, so what is left of the stream bounds the rounds
  induction rounds generalizing last done c with
  | zero => exact absurd hc.2 (by omega)
  | succ rounds ih =>
    rw [ends_proceed (by simp), if_neg (by simpa using hlast), ends_attempt hp hc,
      Descent.untilStill, Descent.attempt_map_eq_some_iff]
    refine or_congr (exists_congr fun a => exists_congr fun k => ?_) Iff.rfl
    refine and_congr_right fun ha => ?_
    by_cases hk : k = c
    · -- the run took nothing, so the next one would begin where it began
      subst hk
      have hstill : (p.repetition min max).Ends w (proceed none (some k) (a :: done)) k res n ↔
          res = .ok (a :: done).reverse ∧ n = k := by
        rw [ends_proceed (by simp), if_pos ⟨rfl, rfl⟩]
      rw [Option.map_none, hstill, Descent.map_eq_some_iff]
      simp [Except.map, and_comm, eq_comm]
    · have hck := hp.forward hc.2 ha
      rw [Option.map_none, ih (hp.forward.within hc ha) (by omega) (by simpa using Ne.symm hk)]
      simp only [Descent.map, Descent.bind, if_neg hk]

/-- The mandatory runs come to what the machine comes to run after run, if the optional ones do. -/
theorem ends_demand (hp : p.Realizes w d) {f : Descent ι (List α)}
    (hf : ∀ {done c}, w.Within c →
      ((p.repetition min max).Ends w (proceed (max.map (· - min)) none done) c res n ↔
        f.map (done.reverse ++ ·) c = some (res, n)))
    (hc : w.Within c) (left : Nat) (done : List α) :
    (p.repetition min max).Ends w (demand p (max.map (· - min)) left done) c res n ↔
      ((d.exactly left).bind fun as => f.map (as ++ ·)).map (done.reverse ++ ·) c =
        some (res, n) := by
  induction left generalizing done c with
  | zero =>
    have hnone : (d.exactly 0).bind (fun as => f.map (as ++ ·)) = f.map ([] ++ ·) := rfl
    rw [demand, hnone, Descent.map_map]
    exact hf hc
  | succ left ih =>
    have hunfold : ((d.exactly (left + 1)).bind fun as => f.map (as ++ ·)).map (done.reverse ++ ·) =
        d.bind fun a =>
          ((d.exactly left).bind fun as => f.map (as ++ ·)).map ((a :: done).reverse ++ ·) := by
      simp [Descent.exactly, Descent.bind_bind, Descent.map_bind, Descent.bind_map, Descent.map_map]
    rw [demand, hunfold]
    refine Iff.trans (ends_sequence (m := p.repetition min max) (p := p)
      (ofMandatory left done (demand p (max.map (· - min)) left))
      (fun a k res n => (p.repetition min max).Ends w
        (demand p (max.map (· - min)) left (a :: done)) k res n)
      (fun t q h => ?_) (fun t a c res n h => ?_) (fun t e h => ?_)) ?_
    · obtain ⟨hasks, -, hresume⟩ := ofMandatory_suspends p min max left done t q h
      exact ⟨hasks, fun r => .of_eq (hresume r)⟩
    · unfold ofMandatory
      rw [h]
      exact ends_after
    · unfold ofMandatory
      rw [h]
    · exact hp.sequence_iff hc fun a k hk => ih hk (a :: done)

/-- The repetition of a machine comes to what the repetition of its descent does. -/
theorem Realizes.repetition (hp : p.Realizes w d) (min : Nat) (max : Option Nat) :
    (p.repetition min max).Realizes w (d.repetition w min max) where
  forward := Descent.forward_repetition hp.forward min max
  yields_iff := by
    intro c n res hc
    have hstart : (p.repetition min max).start = demand p (max.map (· - min)) min [] := by
      cases min <;> rfl
    have hoptional : ∀ {done c}, w.Within c →
        ((p.repetition min max).Ends w (proceed (max.map (· - min)) none done) c res n ↔
          (d.optional w (max.map (· - min))).map (done.reverse ++ ·) c = some (res, n)) := by
      intro done c hc
      cases max with
      | none =>
        have hrounds : w.items.length < c + (w.items.length + 1) := by omega
        exact ends_untilStill hp hc hrounds (by simp) done
      | some max => exact ends_upTo hp hc (max - min) none done
    rw [Yields, hstart, ends_demand hp hoptional hc]
    simp [Descent.repetition, Descent.bind_map, Descent.map_map]

end Machine

end ResumableParsing

/-
# The course of a dialogue

A course is a dialogue together with what it noted.  Requests are answered one after the other, and
what the turns noted is put together in order.  Since a machine is a function of the answers and a
setting knows at most one answer to a request, there is at most one course, so that to find one is
to know everything about the dialogue.

While a machine runs another one inside, the course of the inner one is the beginning of the course
of the outer one (`Course.phase`).  Nothing is asked of the inner machine: it may return to any
place that the session honours, also before the place where it began.
-/
import ResumableParsing.Proofs.Engine.Session

namespace ResumableParsing

variable {ι ν ο α : Type}

namespace Machine

variable {m : Machine ι ν ο} {p : Machine ι ν α} {w : Setting ι}

/-- From the turn and the place on, the dialogue notes the notes and comes to the result with the
cursor at the last place. -/
inductive Course (m : Machine ι ν ο) (w : Setting ι) :
    Turn m.State ι ν ο → Nat → List ν → Except (Failure ι) ο → Nat → Prop
  /-- A turn that completes ends the dialogue. -/
  | complete {t : Turn m.State ι ν ο} {c : Nat} {o : ο} (ends : t.resumed = .complete o) :
      m.Course w t c t.notes (.ok o) c
  /-- A turn that fails ends the dialogue. -/
  | fail {t : Turn m.State ι ν ο} {c : Nat} {e : Failure ι} (ends : t.resumed = .fail e) :
      m.Course w t c t.notes (.error e) c
  /-- After a turn that asks something the dialogue goes on with the answer. -/
  | answer {t : Turn m.State ι ν ο} {q : Request} {c c' n : Nat} {r : Response ι} {notes : List ν}
      {res : Except (Failure ι) ο} (asks : t.resumed = .suspend q)
      (answered : w.respond c q = some (c', r))
      (after : m.Course w (m.resume t.state (some r)) c' notes res n) :
      m.Course w t c (t.notes ++ notes) res n

/-- A fresh computation that starts at the place notes the notes and comes to the result. -/
def Runs (m : Machine ι ν ο) (w : Setting ι) (c : Nat) (notes : List ν)
    (res : Except (Failure ι) ο) (n : Nat) : Prop := m.Course w m.start c notes res n

/-! ## Turns -/

/-- What was noted before the turn is noted before everything else. -/
theorem Course.after {t : Turn m.State ι ν ο} {c n : Nat} {notes : List ν}
    {res : Except (Failure ι) ο} (h : m.Course w t c notes res n) (before : List ν) :
    m.Course w (t.after before) c (before ++ notes) res n := by
  cases h with
  | complete ends => exact .complete (t := t.after before) ends
  | fail ends => exact .fail (t := t.after before) ends
  | answer asks answered after =>
    rw [← List.append_assoc]
    exact .answer (t := t.after before) asks answered after

/-- A turn that notes nothing adds nothing to what is noted. -/
theorem Course.silent {t : Turn m.State ι ν ο} {q : Request} {c c' n : Nat} {r : Response ι}
    {notes : List ν} {res : Except (Failure ι) ο} (asks : t.resumed = .suspend q)
    (quiet : t.notes = []) (answered : w.respond c q = some (c', r))
    (after : m.Course w (m.resume t.state (some r)) c' notes res n) :
    m.Course w t c notes res n := by
  have hcourse := Course.answer asks answered after
  rwa [quiet, List.nil_append] at hcourse

/-! ## Dialogues and their courses -/

/-- A course is that of a dialogue. -/
theorem Course.ends {t : Turn m.State ι ν ο} {c n : Nat} {notes : List ν}
    {res : Except (Failure ι) ο} (h : m.Course w t c notes res n) : m.Ends w t c res n := by
  induction h with
  | complete ends => exact .complete ends
  | fail ends => exact .fail ends
  | answer asks answered _ ih => exact .answer asks answered ih

/-- Every dialogue that ends has a course. -/
theorem Ends.exists_course {t : Turn m.State ι ν ο} {c n : Nat} {res : Except (Failure ι) ο}
    (h : m.Ends w t c res n) : ∃ notes, m.Course w t c notes res n := by
  induction h with
  | complete ends => exact ⟨_, .complete ends⟩
  | fail ends => exact ⟨_, .fail ends⟩
  | answer asks answered _ ih =>
    obtain ⟨notes, hcourse⟩ := ih
    exact ⟨_, .answer asks answered hcourse⟩

/-- There is only one course from a turn and a place on. -/
theorem Course.unique {t : Turn m.State ι ν ο} {c n n' : Nat} {notes notes' : List ν}
    {res res' : Except (Failure ι) ο} (h : m.Course w t c notes res n)
    (h' : m.Course w t c notes' res' n') : notes' = notes ∧ res' = res ∧ n' = n := by
  induction h generalizing notes' with
  | complete ends =>
    rcases h' with h' | h' | ⟨h', -, -⟩ <;> rw [ends] at h' <;> cases h'
    exact ⟨rfl, rfl, rfl⟩
  | fail ends =>
    rcases h' with h' | h' | ⟨h', -, -⟩ <;> rw [ends] at h' <;> cases h'
    exact ⟨rfl, rfl, rfl⟩
  | answer asks answered _ ih =>
    rcases h' with h' | h' | ⟨h', answered', after'⟩ <;> rw [asks] at h' <;> cases h'
    rw [answered] at answered'
    cases answered'
    obtain ⟨rfl, hsame⟩ := ih after'
    exact ⟨rfl, hsame⟩

/-- A course that was found is the only one. -/
theorem Course.iff {t : Turn m.State ι ν ο} {c n n' : Nat} {notes notes' : List ν}
    {res res' : Except (Failure ι) ο} (h : m.Course w t c notes res n) :
    m.Course w t c notes' res' n' ↔ notes' = notes ∧ res' = res ∧ n' = n := by
  constructor
  · exact h.unique
  · rintro ⟨rfl, rfl, rfl⟩
    exact h

/-- The dialogue ends within the session. -/
theorem Runs.within {c n : Nat} {notes : List ν} {res : Except (Failure ι) ο}
    (h : m.Runs w c notes res n) (hc : w.Within c) : w.Within n :=
  h.ends.within hc

/-! ## Phases -/

/-- While the machine `m` runs the machine `p` inside, their turns correspond, as `embed` says.  The
course of `m` is then the course of `p` and behind it what follows the end of `p`. -/
theorem Course.phase {embed : Turn p.State ι ν α → Turn m.State ι ν ο}
    (suspends : ∀ t q, t.resumed = .suspend q → (embed t).resumed = .suspend q ∧
      (embed t).notes = t.notes ∧
      ∀ r, m.resume (embed t).state (some r) = embed (p.resume t.state (some r)))
    {t : Turn p.State ι ν α} {c k n : Nat} {notes notes' : List ν} {x : Except (Failure ι) α}
    {res : Except (Failure ι) ο} (course : p.Course w t c notes x k)
    (onward : ∀ t', t'.resumed = .ofResult x → m.Course w (embed t') k (t'.notes ++ notes') res n) :
    m.Course w (embed t) c (notes ++ notes') res n := by
  induction course with
  | complete ends => exact onward _ ends
  | fail ends => exact onward _ ends
  | answer asks answered _ ih =>
    obtain ⟨hasks, hnotes, hresume⟩ := suspends _ _ asks
    rw [List.append_assoc, ← hnotes]
    refine .answer hasks answered ?_
    rw [hresume]
    exact ih onward

end Machine

/-! ## Sessions that are under way -/

namespace Session

variable {m : Machine ι ν ο}

/-- What the runs of a computation come to is what a session comes to in which it is started. -/
theorem ends_begun_iff_runs {w : Setting ι} {c n : Nat} (hc : w.Within c)
    {res : Except (Failure ι) ο} :
    (begun m w.session w.start c).Ends (.of w.items w.start) w.ended res n ↔
      ∃ notes, m.Runs w c notes res n :=
  (ends_begun_iff hc).trans ⟨Machine.Ends.exists_course, fun ⟨_, h⟩ => h.ends⟩

end Session

end ResumableParsing

/-
# Equivalent machines

Two machines are equivalent if nobody who resumes their computations can tell them apart before
they end: resumed without an answer first, and then with the same answers, be they answers to what
was asked or not, the computations ask the same things, note the same things, and come to the same
output or failure.

To show that two machines are equivalent it is enough to relate their states so that related states
go on alike (`IsBisimulation`), and there always is such a relation (`isBisimulation_similar`).
What happens after an output or a failure does not count, and the states that remain need not be
related.
-/
import ResumableParsing.Proofs.Course.Basic

namespace ResumableParsing

variable {ι ν ο α σ τ : Type}

/-! ## Turns that agree -/

/-- Two turns that come to the same and note the same, and after which the computations stand in
related states, unless they have ended. -/
structure Turn.Agree (R : σ → τ → Prop) (t : Turn σ ι ν ο) (t' : Turn τ ι ν ο) : Prop where
  /-- They come to the same. -/
  resumed : t.resumed = t'.resumed
  /-- They note the same. -/
  notes : t.notes = t'.notes
  /-- If they ask something, the states are related. -/
  states : ∀ q, t.resumed = .suspend q → R t.state t'.state

namespace Turn

variable {R : σ → τ → Prop} {t : Turn σ ι ν ο} {t' : Turn τ ι ν ο}

/-- Turns that end with the same agree whatever their states. -/
theorem Agree.of_result {x : Except (Failure ι) ο} (ht : t.resumed = .ofResult x)
    (ht' : t'.resumed = .ofResult x) (hnotes : t.notes = t'.notes) : t.Agree R t' := by
  refine ⟨ht.trans ht'.symm, hnotes, fun q hq => ?_⟩
  rw [ht] at hq
  cases x <;> cases hq

theorem Agree.after (h : t.Agree R t') (notes : List ν) :
    (t.after notes).Agree R (t'.after notes) :=
  ⟨h.resumed, congrArg (notes ++ ·) h.notes, h.states⟩

/-- Turns agree from outside if the states around are related where those inside are. -/
theorem Agree.within {σ' τ' : Type} {R' : σ' → τ' → Prop} (h : t.Agree R t') {f : σ → σ'}
    {g : τ → τ'} (hR : ∀ s s', R s s' → R' (f s) (g s')) :
    (t.within f).Agree R' (t'.within g) :=
  ⟨h.resumed, h.notes, fun q hq => hR _ _ (h.states q hq)⟩

end Turn

namespace Machine

variable {p q m : Machine ι ν ο}

/-! ## Transcripts -/

/-- What the turns of a computation that is resumed with the answers come to and note, up to the
first output or failure. -/
def transcript (m : Machine ι ν ο) (s : m.State) :
    List (Option (Response ι)) → List (Resumed ι ο × List ν)
  | [] => []
  | r :: rs =>
    let t := m.resume s r
    (t.resumed, t.notes) ::
      match t.resumed with
      | .suspend _ => m.transcript t.state rs
      | _ => []

/-- Computations in the two states have the same transcripts. -/
def Similar (p q : Machine ι ν ο) (s : p.State) (s' : q.State) : Prop :=
  ∀ rs, p.transcript s rs = q.transcript s' rs

/-- Fresh computations have the same transcripts, if they are resumed without an answer first. -/
def Equivalent (p q : Machine ι ν ο) : Prop :=
  ∀ rs, p.transcript p.init (none :: rs) = q.transcript q.init (none :: rs)

/-- Turns that agree, and behind which the transcripts do, have the same transcripts. -/
theorem transcript_cons {s : p.State} {s' : q.State} {r r' : Option (Response ι)}
    {rs : List (Option (Response ι))}
    (h : (p.resume s r).Agree (fun s s' => p.transcript s rs = q.transcript s' rs)
      (q.resume s' r')) :
    p.transcript s (r :: rs) = q.transcript s' (r' :: rs) := by
  rw [transcript, transcript, ← h.resumed, ← h.notes]
  cases hasks : (p.resume s r).resumed with
  | suspend req => simp only [h.states req hasks]
  | complete o => rfl
  | fail e => rfl

/-- Two resumptions are followed by the same transcripts just if their turns agree and go on
alike. -/
theorem transcripts_eq_iff {s : p.State} {s' : q.State} {r r' : Option (Response ι)} :
    (∀ rs, p.transcript s (r :: rs) = q.transcript s' (r' :: rs)) ↔
      (p.resume s r).Agree (Similar p q) (q.resume s' r') := by
  constructor
  · intro h
    simp only [transcript, List.cons.injEq, Prod.mk.injEq] at h
    obtain ⟨hresumed, hnotes⟩ := (h []).1
    refine ⟨hresumed, hnotes, fun req hasks rs => ?_⟩
    have htail := (h rs).2
    rw [← hresumed, hasks] at htail
    exact htail
  · intro h rs
    exact transcript_cons ⟨h.resumed, h.notes, fun req hasks => h.states req hasks rs⟩

/-- Machines are equivalent just if their first turns agree and go on alike. -/
theorem equivalent_iff : p.Equivalent q ↔ p.start.Agree (Similar p q) q.start := transcripts_eq_iff

/-! ## Bisimulations -/

/-- Related states go on alike, whatever they are resumed with. -/
def IsBisimulation (p q : Machine ι ν ο) (R : p.State → q.State → Prop) : Prop :=
  ∀ s s' r, R s s' → (p.resume s r).Agree R (q.resume s' r)

/-- Having the same transcripts is a bisimulation. -/
theorem isBisimulation_similar : IsBisimulation p q (Similar p q) :=
  fun _ _ r hs => transcripts_eq_iff.mp fun rs => hs (r :: rs)

/-- Related states have the same transcripts. -/
theorem IsBisimulation.similar {R : p.State → q.State → Prop} (h : IsBisimulation p q R)
    {s : p.State} {s' : q.State} (hs : R s s') : Similar p q s s' := by
  intro rs
  induction rs generalizing s s' with
  | nil => rfl
  | cons r rs ih =>
    obtain ⟨hresumed, hnotes, hstates⟩ := h s s' r hs
    exact transcript_cons ⟨hresumed, hnotes, fun req hasks => ih (hstates req hasks)⟩

/-- Machines whose first turns agree up to a bisimulation are equivalent. -/
theorem IsBisimulation.equivalent {R : p.State → q.State → Prop} (h : IsBisimulation p q R)
    (hstart : p.start.Agree R q.start) : p.Equivalent q :=
  equivalent_iff.mpr
    ⟨hstart.resumed, hstart.notes, fun req hasks => h.similar (hstart.states req hasks)⟩

/-! ## Equivalence -/

theorem Equivalent.refl (p : Machine ι ν ο) : p.Equivalent p := fun _ => rfl

theorem Equivalent.symm (h : p.Equivalent q) : q.Equivalent p := fun rs => (h rs).symm

theorem Equivalent.trans (h : p.Equivalent q) (h' : q.Equivalent m) : p.Equivalent m :=
  fun rs => (h rs).trans (h' rs)

theorem Equivalent.of_eq (h : p = q) : p.Equivalent q := h ▸ .refl p

/-- Machines whose fresh computations end at once with the same result are equivalent. -/
theorem equivalent_of_result {x : Except (Failure ι) ο} (hp : p.start.resumed = .ofResult x)
    (hq : q.start.resumed = .ofResult x) (hnotes : p.start.notes = q.start.notes) :
    p.Equivalent q :=
  equivalent_iff.mpr (.of_result hp hq hnotes)

/-! ## Dialogues -/

/-- From turns that agree on, computations with the same transcripts have the same dialogues. -/
theorem Course.of_agree {w : Setting ι} {t : Turn p.State ι ν ο} {t' : Turn q.State ι ν ο}
    (h : t.Agree (Similar p q) t') {c n : Nat} {notes : List ν} {res : Except (Failure ι) ο}
    (hcourse : p.Course w t c notes res n) : q.Course w t' c notes res n := by
  induction hcourse generalizing t' with
  | complete ends =>
    rw [h.notes]
    exact .complete (h.resumed.symm.trans ends)
  | fail ends =>
    rw [h.notes]
    exact .fail (h.resumed.symm.trans ends)
  | answer asks answered _ ih =>
    rw [h.notes]
    refine .answer (h.resumed.symm.trans asks) answered (ih ?_)
    exact isBisimulation_similar _ _ _ (h.states _ asks)

/-- Equivalent machines run alike in every setting. -/
theorem Equivalent.runs_iff (h : p.Equivalent q) {w : Setting ι} {c n : Nat} {notes : List ν}
    {res : Except (Failure ι) ο} : p.Runs w c notes res n ↔ q.Runs w c notes res n :=
  ⟨Course.of_agree (equivalent_iff.mp h), Course.of_agree (equivalent_iff.mp h.symm)⟩

end Machine

end ResumableParsing

/-
# Recursive descent in direct style

A descent is a parser as a plain function: from a place in the stream it comes to an output or a
failure, together with the place where the cursor is then.  It comes to nothing where it needs an
item that has not arrived.  Machines realize descents: `Realizes` says that the dialogues of a
machine come to just what the descent says, and that the cursor only moves forward.

Here are the basic descents and the machines that ask the stream one thing.
-/
import ResumableParsing.Machine.Deferred
import ResumableParsing.Machine.Handling
import ResumableParsing.Machine.Inquiry
import ResumableParsing.Proofs.Dialogue

namespace ResumableParsing

variable {ι ν ο α β κ : Type}

/-! ## Descents -/

/-- A parser in direct style: what it comes to from a place, and the place where it leaves the
cursor. -/
abbrev Descent (ι α : Type) : Type := Nat → Option (Except (Failure ι) α × Nat)

namespace Descent

/-- Put out a value and stay. -/
def pure (a : α) : Descent ι α := fun c => some (.ok a, c)

/-- Go on with what the output calls for, from where the cursor is; a failure passes. -/
def bind (p : Descent ι α) (f : α → Descent ι β) : Descent ι β := fun c =>
  match p c with
  | none => none
  | some (.ok a, k) => f a k
  | some (.error e, k) => some (.error e, k)

/-- Change the output. -/
def map (p : Descent ι α) (f : α → β) : Descent ι β := p.bind fun a => pure (f a)

/-- All in order, with the list of the outputs. -/
def all : List (Descent ι α) → Descent ι (List α)
  | [] => pure []
  | p :: ps => p.bind fun a => (all ps).map (a :: ·)

/-- Go on with what a recoverable failure calls for, from where the cursor is. -/
def rescue (p : Descent ι α) (handler : Failure ι → Descent ι α) : Descent ι α := fun c =>
  match p c with
  | none => none
  | some (.ok a, k) => some (.ok a, k)
  | some (.error e, k) => if e.isFatal then some (.error e, k) else handler e k

/-- Change the failure. -/
def changeFailure (p : Descent ι α) (f : Failure ι → Failure ι) : Descent ι α := fun c =>
  (p c).map fun (x, k) => (x.mapError f, k)

/-- Take the item at the cursor if it is accepted. -/
def satisfy (w : Setting ι) (expected : String) (accepts : ι → Bool) : Descent ι ι := fun c =>
  (w.look c).map fun
    | some x => if accepts x then (.ok x, c + 1) else (.error (.unexpected x expected), c)
    | none => (.error (.endOfInput expected), c)

/-- Make sure that nothing is left. -/
def endOfInput (w : Setting ι) : Descent ι Unit := fun c =>
  (w.look c).map fun
    | some x => (.error (.unexpected x "end of input"), c)
    | none => (.ok (), c)

/-- Ask one thing. -/
def ask (w : Setting ι) : Inquiry ι α → Descent ι α
  | .peek, c => (w.look c).map fun
    | some x => (.ok x, c)
    | none => (.error (.endOfInput "any item"), c)
  | .peekOrEnd, c => (w.look c).map fun o => (.ok o, c)
  | .consume, c => (w.look c).map fun
    | some x => (.ok x, c + 1)
    | none => (.error (.endOfInput "any item"), c)
  | .consumeOrEnd, c => (w.look c).map fun
    | some x => (.ok (some x), c + 1)
    | none => (.ok none, c)
  | .snapshot, c => some (.ok ⟨w.session, c⟩, c)
  | .rollback _, _ => none

/-! ## Laws of sequencing -/

/-- Two changes of the output are one. -/
theorem map_map (p : Descent ι α) (f : α → β) (g : β → κ) :
    (p.map f).map g = p.map fun a => g (f a) := by
  funext c
  unfold map bind pure
  rcases p c with _ | ⟨_ | _, _⟩ <;> rfl

/-- What follows is given the changed output. -/
theorem map_bind (p : Descent ι α) (f : α → β) (g : β → Descent ι κ) :
    (p.map f).bind g = p.bind fun a => g (f a) := by
  funext c
  unfold map bind pure
  rcases p c with _ | ⟨_ | _, _⟩ <;> rfl

/-- It does not matter which two of three descents are put together first. -/
theorem bind_bind (p : Descent ι α) (f : α → Descent ι β) (g : β → Descent ι κ) :
    (p.bind f).bind g = p.bind fun a => (f a).bind g := by
  funext c
  unfold bind
  rcases p c with _ | ⟨_ | _, _⟩ <;> rfl

/-- A change of the last output belongs to the last descent. -/
theorem bind_map (p : Descent ι α) (f : α → Descent ι β) (g : β → κ) :
    (p.bind f).map g = p.bind fun a => (f a).map g :=
  bind_bind p f fun b => pure (g b)

/-! ## What a composed descent comes to -/

/-- What follows an end: after an output the next descent, after a failure nothing. -/
theorem bind_eq_some_iff {p : Descent ι α} {f : α → Descent ι β} {c n : Nat}
    {res : Except (Failure ι) β} :
    p.bind f c = some (res, n) ↔
      (∃ a k, p c = some (.ok a, k) ∧ f a k = some (res, n)) ∨
        ∃ e, p c = some (.error e, n) ∧ res = .error e := by
  unfold bind
  rcases p c with _ | ⟨_ | _, _⟩ <;> grind

/-- A change of the output keeps the end and any failure. -/
theorem map_eq_some_iff {p : Descent ι α} {f : α → β} {c n : Nat} {res : Except (Failure ι) β} :
    p.map f c = some (res, n) ↔ ∃ x, p c = some (x, n) ∧ res = x.map f := by
  unfold map bind pure
  rcases p c with _ | ⟨_ | _, _⟩ <;> simp [Except.map] <;> grind

/-- Handled is a recoverable failure, where it arose. -/
theorem rescue_eq_some_iff {p : Descent ι α} {handler : Failure ι → Descent ι α} {c n : Nat}
    {res : Except (Failure ι) α} :
    p.rescue handler c = some (res, n) ↔
      (∃ a, p c = some (.ok a, n) ∧ res = .ok a) ∨
        ∃ e k, p c = some (.error e, k) ∧
          if e.isFatal then res = .error e ∧ n = k else handler e k = some (res, n) := by
  unfold rescue
  rcases p c with _ | ⟨_ | _, _⟩ <;> grind

/-- A change of the failure keeps the end and any output. -/
theorem changeFailure_eq_some_iff {p : Descent ι α} {f : Failure ι → Failure ι} {c n : Nat}
    {res : Except (Failure ι) α} :
    p.changeFailure f c = some (res, n) ↔ ∃ x, p c = some (x, n) ∧ res = x.mapError f := by
  unfold changeFailure
  rcases p c with _ | ⟨_, _⟩ <;> grind

/-! ## Moving forward -/

/-- The cursor never moves back, and stays in the stream. -/
def Forward (w : Setting ι) (d : Descent ι α) : Prop :=
  ∀ ⦃c n : Nat⦄ ⦃res : Except (Failure ι) α⦄, c ≤ w.items.length → d c = some (res, n) →
    c ≤ n ∧ n ≤ w.items.length

section Forward

variable {w : Setting ι}

/-- A descent that starts in what is known of the input ends there. -/
theorem Forward.within {d : Descent ι α} (hd : d.Forward w) {c n : Nat}
    {res : Except (Failure ι) α} (hc : w.Within c) (h : d c = some (res, n)) : w.Within n := by
  have hn := hd hc.2 h
  exact ⟨Nat.le_trans hc.1 hn.1, hn.2⟩

theorem forward_pure (a : α) : (pure a : Descent ι α).Forward w := by
  intro c n res hc h
  cases h
  exact ⟨Nat.le_refl _, hc⟩

/-- One step forward after another is a step forward. -/
theorem Forward.bind {p : Descent ι α} {f : α → Descent ι β} (hp : p.Forward w)
    (hf : ∀ a, (f a).Forward w) : (p.bind f).Forward w := by
  intro c n res hc h
  rcases bind_eq_some_iff.mp h with ⟨a, k, ha, hk⟩ | ⟨e, he, -⟩
  · have hck : c ≤ k ∧ k ≤ w.items.length := hp hc ha
    have hkn : k ≤ n ∧ n ≤ w.items.length := hf a hck.2 hk
    omega
  · exact hp hc he

/-- A change of the output moves nothing. -/
theorem Forward.map {p : Descent ι α} (hp : p.Forward w) (f : α → β) : (p.map f).Forward w :=
  hp.bind fun a => forward_pure (f a)

/-- A handler goes on where the failure arose. -/
theorem Forward.rescue {p : Descent ι α} {handler : Failure ι → Descent ι α} (hp : p.Forward w)
    (hh : ∀ e, (handler e).Forward w) : (p.rescue handler).Forward w := by
  intro c n res hc h
  rcases rescue_eq_some_iff.mp h with ⟨a, ha, -⟩ | ⟨e, k, he, hk⟩
  · exact hp hc ha
  · have hck : c ≤ k ∧ k ≤ w.items.length := hp hc he
    split at hk
    · rw [hk.2]
      exact hck
    · have hkn : k ≤ n ∧ n ≤ w.items.length := hh e hck.2 hk
      omega

/-- A change of the failure moves nothing. -/
theorem Forward.changeFailure {p : Descent ι α} (hp : p.Forward w)
    (f : Failure ι → Failure ι) : (p.changeFailure f).Forward w := by
  intro c n res hc h
  obtain ⟨x, hx, -⟩ := changeFailure_eq_some_iff.mp h
  exact hp hc hx

/-- Looking at the cursor and taking at most the item that is there moves forward. -/
theorem forward_look {next : Nat → Option ι → Except (Failure ι) α × Nat}
    (hnone : ∀ c, (next c none).2 = c)
    (hsome : ∀ c x, (next c (some x)).2 = c ∨ (next c (some x)).2 = c + 1) :
    Forward w fun c => (w.look c).map (next c) := by
  intro c n res hc h
  obtain ⟨o, hl, ho⟩ := Option.map_eq_some_iff.mp h
  cases o with
  | none =>
    have hn := hnone c
    rw [ho] at hn
    subst hn
    exact ⟨Nat.le_refl _, hc⟩
  | some x =>
    -- there is an item at the cursor, so the place behind it is in the stream
    have hlt := (List.getElem?_eq_some_iff.mp (Setting.look_eq_some_some.mp hl)).1
    have hn := hsome c x
    rw [ho] at hn
    simp only at hn
    omega

/-- A test of an item goes past the item or stays. -/
theorem forward_satisfy (expected : String) (accepts : ι → Bool) :
    (satisfy w expected accepts).Forward w := by
  apply forward_look
  · intro c
    rfl
  · intro c x
    by_cases hx : accepts x
    · right
      simp [hx]
    · left
      simp [hx]

/-- A test for the end stays where it is. -/
theorem forward_endOfInput : (endOfInput w).Forward w := by
  apply forward_look
  · intro c
    rfl
  · intro c x
    left
    rfl

/-- An inquiry takes at most the item at the cursor. -/
theorem forward_ask (q : Inquiry ι α) : (ask w q).Forward w := by
  cases q with
  | peek => exact forward_look (fun _ => rfl) fun _ _ => .inl rfl
  | peekOrEnd => exact forward_look (fun _ => rfl) fun _ _ => .inl rfl
  | consume => exact forward_look (fun _ => rfl) fun _ _ => .inr rfl
  | consumeOrEnd => exact forward_look (fun _ => rfl) fun _ _ => .inr rfl
  | snapshot =>
    intro c n res hc h
    cases h
    exact ⟨Nat.le_refl _, hc⟩
  | rollback t =>
    intro c n res _ h
    cases h

end Forward

end Descent

/-! ## Machines that realize descents -/

/-- The dialogues of the machine come to just what the descent says, and the descent moves
forward. -/
structure Machine.Realizes (w : Setting ι) (m : Machine ι ν α) (d : Descent ι α) : Prop where
  /-- The descent moves forward. -/
  forward : d.Forward w
  /-- Both come to the same. -/
  yields_iff : ∀ {c n : Nat} {res : Except (Failure ι) α}, w.Within c →
    (m.Yields w c res n ↔ d c = some (res, n))

namespace Machine

variable {w : Setting ι}

/-! ### Asking one thing -/

/-- A turn that looks at the cursor comes to what is made of the item, or of the end. -/
theorem ends_peek_iff {m : Machine ι ν α} {t : Turn m.State ι ν α} (h : t.resumed = .suspend .peek)
    {c n : Nat} {res : Except (Failure ι) α} {next : Option ι → Except (Failure ι) α × Nat}
    (hsome : ∀ x, w.look c = some (some x) →
      (m.Ends w (m.resume t.state (some (.item x))) c res n ↔ (res, n) = next (some x)))
    (hnone : m.Ends w (m.resume t.state (some .endOfInput)) c res n ↔ (res, n) = next none) :
    m.Ends w t c res n ↔ (w.look c).map next = some (res, n) := by
  rw [ends_iff_of_peek h, hnone]
  rcases hl : w.look c with _ | _ | x
  · simp
  · simp [eq_comm]
  · simp [hsome x hl, eq_comm]

/-- A turn that takes the item at the cursor comes to what is made of the item, or of the end. -/
theorem ends_consume_iff {m : Machine ι ν α} {t : Turn m.State ι ν α}
    (h : t.resumed = .suspend .consume) {c n : Nat} {res : Except (Failure ι) α}
    {next : Option ι → Except (Failure ι) α × Nat}
    (hsome : ∀ x, w.look c = some (some x) →
      (m.Ends w (m.resume t.state (some (.item x))) (c + 1) res n ↔ (res, n) = next (some x)))
    (hnone : m.Ends w (m.resume t.state (some .endOfInput)) c res n ↔ (res, n) = next none) :
    m.Ends w t c res n ↔ (w.look c).map next = some (res, n) := by
  rw [ends_iff_of_consume h, hnone]
  rcases hl : w.look c with _ | _ | x
  · simp
  · simp [eq_comm]
  · simp [hsome x hl, eq_comm]

/-- A turn that completes is the end, where the cursor is. -/
theorem ends_complete_iff {m : Machine ι ν α} {t : Turn m.State ι ν α} {a : α}
    (h : t.resumed = .complete a) {c n : Nat} {res : Except (Failure ι) α} :
    m.Ends w t c res n ↔ (res, n) = (.ok a, c) := by
  rw [ends_iff_of_complete h, Prod.mk.injEq]

/-- A turn that fails is the end, where the cursor is. -/
theorem ends_fail_iff {m : Machine ι ν α} {t : Turn m.State ι ν α} {e : Failure ι}
    (h : t.resumed = .fail e) {c n : Nat} {res : Except (Failure ι) α} :
    m.Ends w t c res n ↔ (res, n) = (.error e, c) := by
  rw [ends_iff_of_fail h, Prod.mk.injEq]

/-- A test of an item looks at it, and takes it if it is accepted. -/
theorem realizes_satisfy (expected : String) (accepts : ι → Bool) :
    (satisfy expected accepts : Machine ι ν ι).Realizes w (.satisfy w expected accepts) where
  forward := Descent.forward_satisfy expected accepts
  yields_iff := by
    intro c n res hc
    refine ends_peek_iff rfl (fun x hl => ?_) (ends_fail_iff rfl)
    show _ ↔ (res, n) = if accepts x then _ else _
    by_cases hx : accepts x
    · -- the item that was seen is the one that is taken
      have hr : w.respond c .consume = some (c + 1, .item x) := by simp [Setting.respond, hl]
      rw [ends_iff_of_respond (by simp [satisfy, start, hx]) hr, if_pos hx]
      exact ends_complete_iff (by simp [satisfy, start, hx])
    · rw [if_neg hx]
      exact ends_fail_iff (by simp [satisfy, start, hx])

/-- A test for the end looks at the cursor once. -/
theorem realizes_endOfInput :
    (endOfInput : Machine ι ν Unit).Realizes w (.endOfInput w) where
  forward := Descent.forward_endOfInput
  yields_iff := by
    intro c n res hc
    exact ends_peek_iff rfl (fun x _ => ends_fail_iff rfl) (ends_complete_iff rfl)

/-- An inquiry that is no return does what its request says. -/
theorem realizes_ask (q : Inquiry ι α) (hq : ∀ t, q.request ≠ .rollback t) :
    (ask q : Machine ι ν α).Realizes w (.ask w q) where
  forward := Descent.forward_ask q
  yields_iff := by
    intro c n res hc
    cases q with
    | peek => exact ends_peek_iff rfl (fun x _ => ends_complete_iff rfl) (ends_fail_iff rfl)
    | peekOrEnd =>
      exact ends_peek_iff rfl (fun x _ => ends_complete_iff rfl) (ends_complete_iff rfl)
    | consume => exact ends_consume_iff rfl (fun x _ => ends_complete_iff rfl) (ends_fail_iff rfl)
    | consumeOrEnd =>
      exact ends_consume_iff rfl (fun x _ => ends_complete_iff rfl) (ends_complete_iff rfl)
    | snapshot =>
      rw [Yields, ends_iff_of_respond rfl (Setting.respond_snapshot w c), ends_complete_iff rfl]
      simp [Descent.ask, eq_comm]
    | rollback t => exact absurd rfl (hq t)

/-- A value is put out without a question. -/
theorem realizes_pure (a : α) : (pure a : Machine ι ν α).Realizes w (.pure a) where
  forward := Descent.forward_pure a
  yields_iff := by
    intro c n res hc
    rw [Yields, ends_complete_iff rfl]
    simp [Descent.pure, eq_comm]

/-- A machine that looks at the cursor forever comes to nothing. -/
theorem not_yields_stalled {c n : Nat} {res : Except (Failure ι) α} :
    ¬ (stalled : Machine ι ν α).Yields w c res n := by
  intro h
  unfold Yields at h
  -- whatever it is answered, the machine comes back to the turn in which it began
  generalize ht : (stalled : Machine ι ν α).start = t at h
  induction h with
  | complete ends => subst ht; cases ends
  | fail ends => subst ht; cases ends
  | answer _ _ _ ih => exact ih rfl

end Machine

end ResumableParsing

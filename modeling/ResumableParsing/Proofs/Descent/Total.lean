/-
# Descents that always come to something

Where the stream has ended, a look at the cursor is always answered, and every construction comes to
something if its parts do.  Only a repetition without a bound needs an argument: each of its runs
but the last moves the cursor forward, since no part moves it back, so what is left of the stream
bounds the number of runs.  A rule that calls itself is the one way to come to nothing, so a grammar
that calls no rules always comes to something.
-/
import ResumableParsing.Proofs.Descent.Grammar

namespace ResumableParsing

variable {ρ : Type → Type} {ι ν α β : Type}

namespace Descent

/-- The descent comes to something from every place in the stream. -/
def Total (w : Setting ι) (d : Descent ι α) : Prop :=
  ∀ ⦃c : Nat⦄, c ≤ w.items.length → ∃ res n, d c = some (res, n)

variable {w : Setting ι}

/-! ## Looking at the cursor -/

/-- Where the stream has ended, a look is answered. -/
theorem exists_look (hw : w.ended = true) (c : Nat) : ∃ o, w.look c = some o := by
  unfold Setting.look
  cases w.items[c]? with
  | none => exact ⟨none, if_pos hw⟩
  | some x => exact ⟨some x, rfl⟩

/-- A descent that looks at the cursor and makes something of what it sees. -/
theorem total_look (hw : w.ended = true) (next : Nat → Option ι → Except (Failure ι) α × Nat) :
    Total w fun c => (w.look c).map (next c) := by
  intro c _
  obtain ⟨o, ho⟩ := exists_look hw c
  exact ⟨(next c o).1, (next c o).2, congrArg (Option.map (next c)) ho⟩

/-- Where the input is known to its end, there is always something to see. -/
theorem total_satisfy (hw : w.ended = true) (expected : String) (accepts : ι → Bool) :
    (satisfy w expected accepts).Total w :=
  total_look hw _

/-- Where the input is known to its end, the end can be told. -/
theorem total_endOfInput (hw : w.ended = true) : (endOfInput w).Total w :=
  total_look hw _

/-- An inquiry that is no return is always answered. -/
theorem total_ask (hw : w.ended = true) {q : Inquiry ι α} (hq : ∀ t, q.request ≠ .rollback t) :
    (ask w q).Total w := by
  cases q with
  | peek | peekOrEnd | consume | consumeOrEnd => exact total_look hw _
  | snapshot => exact fun c _ => ⟨_, _, rfl⟩
  | rollback t => exact absurd rfl (hq t)

/-! ## One after the other -/

/-- Whoever asks nothing waits for nothing. -/
theorem total_pure (a : α) : (pure a : Descent ι α).Total w := fun c _ => ⟨.ok a, c, rfl⟩

variable {p : Descent ι α}

/-- The second descent is total from the place where the first one ended. -/
theorem Total.bind {f : α → Descent ι β} (hp : p.Total w) (hforward : p.Forward w)
    (hf : ∀ a, (f a).Total w) : (p.bind f).Total w := by
  intro c hc
  obtain ⟨res, k, hk⟩ := hp hc
  cases res with
  | ok a =>
    obtain ⟨res, n, hn⟩ := hf a (hforward hc hk).2
    exact ⟨res, n, bind_eq_some_iff.mpr (.inl ⟨a, k, hk, hn⟩)⟩
  | error e => exact ⟨.error e, k, bind_eq_some_iff.mpr (.inr ⟨e, hk, rfl⟩)⟩

/-- A change of the output takes no part. -/
theorem Total.map (hp : p.Total w) (f : α → β) : (p.map f).Total w := by
  intro c hc
  obtain ⟨res, n, hn⟩ := hp hc
  exact ⟨res.map f, n, map_eq_some_iff.mpr ⟨res, hn, rfl⟩⟩

/-- A list of descents comes to an end if each of them does. -/
theorem total_all {ps : List (Descent ι α)} (hps : ∀ p ∈ ps, p.Total w)
    (hforward : ∀ p ∈ ps, p.Forward w) : (all ps).Total w := by
  induction ps with
  | nil => exact total_pure []
  | cons p ps ih =>
    have hrest : (all ps).Total w := ih (fun q hq => hps q (List.mem_cons_of_mem p hq))
      (fun q hq => hforward q (List.mem_cons_of_mem p hq))
    exact (hps p List.mem_cons_self).bind (hforward p List.mem_cons_self) fun a => hrest.map _

/-- The handler is total from the place where the failure arose. -/
theorem Total.rescue {handler : Failure ι → Descent ι α} (hp : p.Total w)
    (hforward : p.Forward w) (hh : ∀ e, (handler e).Total w) : (p.rescue handler).Total w := by
  intro c hc
  obtain ⟨res, k, hk⟩ := hp hc
  cases res with
  | ok a => exact ⟨.ok a, k, rescue_eq_some_iff.mpr (.inl ⟨a, hk, rfl⟩)⟩
  | error e =>
    by_cases he : e.isFatal
    · exact ⟨.error e, k, rescue_eq_some_iff.mpr (.inr ⟨e, k, hk, by rw [if_pos he]; trivial⟩)⟩
    · obtain ⟨res, n, hn⟩ := hh e (hforward hc hk).2
      exact ⟨res, n, rescue_eq_some_iff.mpr (.inr ⟨e, k, hk, by rwa [if_neg he]⟩)⟩

/-- A change of the failure takes no part. -/
theorem Total.changeFailure (hp : p.Total w) (f : Failure ι → Failure ι) :
    (p.changeFailure f).Total w := by
  intro c hc
  obtain ⟨res, n, hn⟩ := hp hc
  exact ⟨res.mapError f, n, changeFailure_eq_some_iff.mpr ⟨res, hn, rfl⟩⟩

/-! ## Ordered choice -/

/-- Each alternative comes to an end, and there are finitely many. -/
theorem exists_firstOf {ps : List (Descent ι α)} (hps : ∀ p ∈ ps, p.Total w) {c : Nat}
    (hc : c ≤ w.items.length) (failed : List (Failure ι × Nat)) :
    ∃ res n, firstOf c failed ps = some (res, n) := by
  induction ps generalizing failed with
  | nil => exact ⟨_, _, rfl⟩
  | cons p ps ih =>
    obtain ⟨res, k, hk⟩ := hps p List.mem_cons_self hc
    cases res with
    | ok a => exact ⟨.ok a, k, firstOf_cons_eq_some_iff.mpr (.inl ⟨a, hk, rfl⟩)⟩
    | error e =>
      by_cases he : e.isFatal
      · exact ⟨.error e, k,
          firstOf_cons_eq_some_iff.mpr (.inr ⟨e, k, hk, by rw [if_pos he]; trivial⟩)⟩
      · obtain ⟨res, n, hn⟩ := ih (fun q hq => hps q (List.mem_cons_of_mem p hq)) _
        exact ⟨res, n, firstOf_cons_eq_some_iff.mpr (.inr ⟨e, k, hk, by rwa [if_neg he]⟩)⟩

/-- A choice comes to an end if each of its alternatives does. -/
theorem total_choice {ps : List (Descent ι α)} (hps : ∀ p ∈ ps, p.Total w) :
    (choice ps).Total w := fun _ hc => exists_firstOf hps hc []

/-! ## Repetition -/

/-- An optional run comes to something if what goes on after it does. -/
theorem exists_attempt {onward : Nat → Descent ι (List α)} (hp : p.Total w) {c : Nat}
    (hc : c ≤ w.items.length)
    (ho : ∀ a k, p c = some (.ok a, k) → ∃ res n, onward c k = some (res, n)) :
    ∃ res n, p.attempt onward c = some (res, n) := by
  obtain ⟨res, k, hk⟩ := hp hc
  cases res with
  | ok a =>
    obtain ⟨res, n, hn⟩ := ho a k hk
    exact ⟨res.map (a :: ·), n, attempt_eq_some_iff.mpr
      (.inl ⟨a, k, hk, map_eq_some_iff.mpr ⟨res, hn, rfl⟩⟩)⟩
  | error e =>
    by_cases he : e.isFatal
    · exact ⟨.error e, k, attempt_eq_some_iff.mpr (.inr ⟨e, k, hk, by rw [if_pos he]; trivial⟩)⟩
    · exact ⟨.ok [], c, attempt_eq_some_iff.mpr (.inr ⟨e, k, hk, by rw [if_neg he]; trivial⟩)⟩

/-- A given number of runs comes to an end if each run does. -/
theorem total_exactly (hp : p.Total w) (hforward : p.Forward w) (left : Nat) :
    (p.exactly left).Total w := by
  induction left with
  | zero => exact total_pure []
  | succ left ih => exact hp.bind hforward fun a => ih.map _

/-- A bounded number of runs comes to an end if each run does. -/
theorem total_upTo (hp : p.Total w) (hforward : p.Forward w) (room : Nat) :
    (p.upTo room).Total w := by
  induction room with
  | zero => exact total_pure []
  | succ room ih => exact fun c hc => exists_attempt hp hc fun a k hk => ih (hforward hc hk).2

/-- With more rounds than there are items left, the runs come to an end: each but the last moves the
cursor forward. -/
theorem exists_untilStill (hp : p.Total w) (hforward : p.Forward w) {rounds c : Nat}
    (hc : c ≤ w.items.length) (hrounds : w.items.length < c + rounds) :
    ∃ res n, p.untilStill rounds c = some (res, n) := by
  induction rounds generalizing c with
  | zero => exact absurd hc (by omega)
  | succ rounds ih =>
    refine exists_attempt hp hc fun a k hk => ?_
    by_cases hstill : k = c
    · exact ⟨.ok [], k, if_pos hstill⟩
    · have hck : c ≤ k ∧ k ≤ w.items.length := hforward hc hk
      obtain ⟨res, n, hn⟩ := ih hck.2 (by omega)
      exact ⟨res, n, (if_neg hstill).trans hn⟩

/-- A repetition without a bound comes to an end since a run that takes nothing is the last. -/
theorem total_repetition (hp : p.Total w) (hforward : p.Forward w) (min : Nat)
    (max : Option Nat) : (p.repetition w min max).Total w := by
  refine (total_exactly hp hforward min).bind (forward_exactly hforward min) fun as => ?_
  refine Total.map ?_ _
  unfold optional
  split
  · exact total_upTo hp hforward _
  · exact fun c hc => exists_untilStill hp hforward hc (by omega)

end Descent

/-! ## Grammars that call no rules -/

namespace Grammar

variable {w : Setting ι}

/-- Without rules a grammar moves forward by its constructions alone. -/
theorem forward_evaluate {called : (α : Type) → Empty → Descent ι α}
    {g : Grammar (fun _ => Empty) ι ν α} (hg : g.Plain) : (g.evaluate w called).Forward w := by
  have hrealizes : (g.machine fun _ rule => rule.elim).Realizes w (g.evaluate w called) :=
    machine_realizes (fun _ rule => rule.elim) hg
  exact hrealizes.forward

/-- Where the stream has ended, a plain grammar that calls no rules always comes to something. -/
theorem total_evaluate (hw : w.ended = true) {called : (α : Type) → Empty → Descent ι α}
    {g : Grammar (fun _ => Empty) ι ν α} (hg : g.Plain) : (g.evaluate w called).Total w := by
  -- one case for each construction, which comes to something if its parts do
  induction g with
  | satisfy expected accepts => exact Descent.total_satisfy hw expected accepts
  | endOfInput => exact Descent.total_endOfInput hw
  | ask q => exact Descent.total_ask hw hg
  | pure a => exact Descent.total_pure a
  | map p f ih => exact (ih hg).map f
  | pair p q ihp ihq => exact (ihp hg.1).bind (forward_evaluate hg.1) fun a => (ihq hg.2).map _
  | all ps ih =>
    refine Descent.total_all (List.forall_mem_ofFn_iff.mpr fun i => ih i (hg i))
      (List.forall_mem_ofFn_iff.mpr fun i => forward_evaluate (hg i))
  | choice ps ih => exact Descent.total_choice (List.forall_mem_ofFn_iff.mpr fun i => ih i (hg i))
  | repetition p min max ih =>
    exact Descent.total_repetition (ih hg) (forward_evaluate hg) min max
  | bind p f ihp ihf =>
    exact (ihp hg.1).bind (forward_evaluate hg.1) fun a => ihf a (hg.2 a)
  | rescue p handler ihp ihh =>
    exact (ihp hg.1).rescue (forward_evaluate hg.1) fun e => ihh e (hg.2 e)
  | recoverWith p q ihp ihq =>
    exact (ihp hg.1).rescue (forward_evaluate hg.1) fun _ => ihq hg.2
  | fatal p ih => exact (ih hg).changeFailure _
  | label p construct ih => exact (ih hg).changeFailure _
  | call rule => exact nomatch rule
  | tap p mark ih => exact ih hg
  | custom m => exact hg.elim

end Grammar

end ResumableParsing

/-
# What a failure blames

A failure may gather others, at any depth; those that gather none are its leaves.  In direct style
every leaf of a failure describes what stands where the descent ended: the item that was not
expected, or the end of the input.  This is a property of each construction, and it rests on the
choice between alternatives going to the place where the failures that it reports arose.
-/
import ResumableParsing.Proofs.Descent.Grammar
import ResumableParsing.Proofs.Engine.History

namespace ResumableParsing

variable {ρ : Type → Type} {ι ν ο α β : Type}

/-! ## Leaves of a failure -/

mutual

/-- The failures that are gathered in a failure at any depth, in order; a failure that gathers none
stands for itself. -/
def Failure.leaves : Failure ι → List (Failure ι)
  | ⟨.aggregate members, _, _⟩ => Failure.leavesOf members
  | f => [f]
termination_by structural f => f

/-- The leaves of the failures in a list. -/
def Failure.leavesOf : List (Failure ι) → List (Failure ι)
  | [] => []
  | f :: fs => f.leaves ++ Failure.leavesOf fs
termination_by structural fs => fs

end

namespace Failure

/-- The leaves of a list are those of its failures, one after another. -/
theorem leavesOf_eq_flatMap (fs : List (Failure ι)) : leavesOf fs = fs.flatMap leaves := by
  induction fs with
  | nil => rfl
  | cons f fs ih => rw [leavesOf, ih, List.flatMap_cons]

/-- An aggregate has the leaves of its failures. -/
@[simp] theorem leaves_aggregate (fs : List (Failure ι)) :
    (aggregate fs).leaves = fs.flatMap leaves := leavesOf_eq_flatMap fs

/-- What is so of the leaves of every gathered failure is so of the leaves of their gathering. -/
theorem forall_leaves_aggregate {P : Failure ι → Prop} {fs : List (Failure ι)}
    (h : ∀ f ∈ fs, ∀ g ∈ f.leaves, P g) : ∀ g ∈ (aggregate fs).leaves, P g := by
  intro g hg
  rw [leaves_aggregate, List.mem_flatMap] at hg
  obtain ⟨f, hf, hg⟩ := hg
  exact h f hf g hg

/-- The causes of the leaves depend on the cause of the failure only. -/
theorem forall_leaves_congr {P : Cause ι → Prop} {f f' : Failure ι} (h : f'.cause = f.cause)
    (hf : ∀ g ∈ f.leaves, P g.cause) : ∀ g ∈ f'.leaves, P g.cause := by
  obtain ⟨cause, severity, context⟩ := f
  obtain ⟨_, severity', context'⟩ := f'
  cases h
  -- what is gathered is not touched; otherwise the failure is its own only leaf
  cases cause with
  | aggregate members => exact hf
  | unexpected | endOfInput | message | protocol =>
    intro g hg
    cases List.mem_singleton.mp hg
    exact hf ⟨_, severity, context⟩ List.mem_cons_self

end Failure

/-! ## Blame -/

/-- The cause says what stands at the place. -/
def Cause.Describes (w : Setting ι) (n : Nat) : Cause ι → Prop
  | .unexpected x _ => w.look n = some (some x)
  | .endOfInput _ => w.look n = some none
  | _ => False

/-- Every leaf of the failure says what stands at the place. -/
def Failure.Blames (w : Setting ι) (n : Nat) (f : Failure ι) : Prop :=
  ∀ g ∈ f.leaves, g.cause.Describes w n

namespace Failure

variable {w : Setting ι} {n : Nat}

/-- An item that was not expected is blamed where it stands. -/
theorem blames_unexpected {x : ι} (h : w.look n = some (some x)) (expected : String) :
    (unexpected x expected).Blames w n := by
  intro g hg
  cases List.mem_singleton.mp hg
  exact h

/-- The end of the input is blamed where it is. -/
theorem blames_endOfInput (h : w.look n = some none) (expected : String) :
    (endOfInput expected : Failure ι).Blames w n := by
  intro g hg
  cases List.mem_singleton.mp hg
  exact h

/-- An aggregate blames a place if each of its failures does. -/
theorem blames_aggregate {fs : List (Failure ι)} (h : ∀ f ∈ fs, f.Blames w n) :
    (aggregate fs).Blames w n := forall_leaves_aggregate h

/-- What a failure blames depends on its cause only. -/
theorem blames_congr {f f' : Failure ι} (h : f'.cause = f.cause) (hf : f.Blames w n) :
    f'.Blames w n := forall_leaves_congr h hf

end Failure

/-! ## Blame in direct style -/

namespace Descent

/-- Failures blame what stands where the descent leaves the cursor. -/
def Accountable (w : Setting ι) (d : Descent ι α) : Prop :=
  ∀ ⦃c n : Nat⦄ ⦃e : Failure ι⦄, d c = some (.error e, n) → e.Blames w n

variable {w : Setting ι} {p : Descent ι α}

theorem accountable_pure (a : α) : (pure a : Descent ι α).Accountable w := by
  intro c n e h
  cases h

/-- A failure that looking at the cursor leads to, and that leaves the cursor there. -/
theorem accountable_look {next : Nat → Option ι → Except (Failure ι) α × Nat}
    (h : ∀ c o e n, w.look c = some o → next c o = (.error e, n) → e.Blames w n) :
    Accountable w fun c => (w.look c).map (next c) := by
  intro c n e he
  obtain ⟨o, hl, ho⟩ := Option.map_eq_some_iff.mp he
  exact h c o e n hl ho

/-- A test of an item fails where the item or the end stands, and takes nothing. -/
theorem accountable_satisfy (expected : String) (accepts : ι → Bool) :
    (satisfy w expected accepts).Accountable w := by
  refine accountable_look fun c o e n hl ho => ?_
  cases o with
  | none =>
    cases ho
    exact Failure.blames_endOfInput hl expected
  | some x =>
    by_cases hx : accepts x
    · simp [hx] at ho
    · simp only [if_neg hx] at ho
      cases ho
      exact Failure.blames_unexpected hl expected

/-- A test for the end fails where an item stands. -/
theorem accountable_endOfInput : (endOfInput w).Accountable w := by
  refine accountable_look fun c o e n hl ho => ?_
  cases o with
  | none => cases ho
  | some x =>
    cases ho
    exact Failure.blames_unexpected hl _

/-- An inquiry fails at most at the end of the input. -/
theorem accountable_ask (q : Inquiry ι α) : (ask w q).Accountable w := by
  cases q with
  | peek | consume =>
    refine accountable_look fun c o e n hl ho => ?_
    cases o with
    | none =>
      cases ho
      exact Failure.blames_endOfInput hl _
    | some x => cases ho
  | peekOrEnd => exact accountable_look fun c o e n _ ho => nomatch ho
  | consumeOrEnd =>
    refine accountable_look fun c o e n _ ho => ?_
    cases o <;> cases ho
  | snapshot =>
    intro c n e h
    cases h
  | rollback t =>
    intro c n e h
    cases h

/-- Whichever descent fails, it does so where the whole ends. -/
theorem Accountable.bind {f : α → Descent ι β} (hp : p.Accountable w)
    (hf : ∀ a, (f a).Accountable w) : (p.bind f).Accountable w := by
  intro c n e h
  rcases bind_eq_some_iff.mp h with ⟨a, k, -, hk⟩ | ⟨e', he, ⟨⟩⟩
  · exact hf a hk
  · exact hp he

/-- A change of the output changes no failure. -/
theorem Accountable.map (hp : p.Accountable w) (f : α → β) : (p.map f).Accountable w :=
  hp.bind fun a => accountable_pure (f a)

/-- A list of descents ends with the first one that fails. -/
theorem accountable_all {ps : List (Descent ι α)} (h : ∀ p ∈ ps, p.Accountable w) :
    (all ps).Accountable w := by
  induction ps with
  | nil => exact accountable_pure []
  | cons p ps ih =>
    have hps : (all ps).Accountable w := ih fun q hq => h q (List.mem_cons_of_mem p hq)
    exact (h p List.mem_cons_self).bind fun a => hps.map _

/-- What is blamed in the end is blamed by the handler, or by a fatal failure. -/
theorem Accountable.rescue {f : Failure ι → Descent ι α} (hp : p.Accountable w)
    (hf : ∀ e, (f e).Accountable w) : (p.rescue f).Accountable w := by
  intro c n e h
  rcases rescue_eq_some_iff.mp h with ⟨a, -, ⟨⟩⟩ | ⟨e', k, he, hk⟩
  split at hk
  · obtain ⟨⟨⟩, rfl⟩ := hk
    exact hp he
  · exact hf e' hk

/-- Severity and context blame nothing. -/
theorem Accountable.changeFailure (hp : p.Accountable w) {f : Failure ι → Failure ι}
    (hf : ∀ e, (f e).cause = e.cause) : (p.changeFailure f).Accountable w := by
  intro c n e h
  obtain ⟨x, hx, he⟩ := changeFailure_eq_some_iff.mp h
  cases x with
  | ok a => cases he
  | error e' =>
    cases he
    exact Failure.blames_congr (hf e') (hp hx)

/-- Failures put together blame the place that each of them blames. -/
theorem blames_together {fs : List (Failure ι)} {n : Nat} (h : ∀ f ∈ fs, f.Blames w n) :
    (together fs).Blames w n := by
  unfold together
  split
  · exact h _ List.mem_cons_self
  · exact Failure.blames_aggregate h

/-- When all alternatives have failed, the failures that are reported arose where the cursor is. -/
theorem blames_giveUp {failed : List (Failure ι × Nat)} (h : ∀ f ∈ failed, f.1.Blames w f.2)
    {c n : Nat} {e : Failure ι}
    (he : (giveUp c failed : Except (Failure ι) α × Nat) = (.error e, n)) : e.Blames w n := by
  have hfurthest : ∀ f ∈ failuresAt failed (reach failed), f.Blames w (reach failed) := by
    intro f hf
    obtain ⟨⟨f, k⟩, hk, rfl⟩ := List.mem_map.mp hf
    obtain ⟨hmem, hreach⟩ := List.mem_filter.mp hk
    have hk : k = reach failed := by simpa using hreach
    exact hk ▸ h (f, k) hmem
  cases he
  -- without alternatives there is no failure to report, and the cursor stays
  cases failed with
  | nil => exact blames_together (by simp [failuresAt])
  | cons f failed => exact blames_together hfurthest

/-- The failures that are put together in the end arose at the place that the choice goes to. -/
theorem blames_firstOf {ps : List (Descent ι α)} (hps : ∀ p ∈ ps, p.Accountable w)
    {failed : List (Failure ι × Nat)} (hfailed : ∀ f ∈ failed, f.1.Blames w f.2) {c n : Nat}
    {e : Failure ι} (h : firstOf c failed ps = some (.error e, n)) : e.Blames w n := by
  induction ps generalizing failed with
  | nil => exact blames_giveUp hfailed (Option.some.inj h)
  | cons p ps ih =>
    have hp : p.Accountable w := hps p List.mem_cons_self
    rcases firstOf_cons_eq_some_iff.mp h with ⟨a, -, ⟨⟩⟩ | ⟨e', k, he, hk⟩
    split at hk
    · obtain ⟨⟨⟩, rfl⟩ := hk
      exact hp he
    · refine ih (fun q hq => hps q (List.mem_cons_of_mem p hq)) ?_ hk
      exact List.forall_mem_append.mpr ⟨hfailed, List.forall_mem_singleton.mpr (hp he)⟩

/-- A choice goes to the furthest place that its alternatives came to, and blames it. -/
theorem accountable_choice {ps : List (Descent ι α)} (hps : ∀ p ∈ ps, p.Accountable w) :
    (choice ps).Accountable w := fun _ _ _ h => blames_firstOf hps (by simp) h

/-- An optional run that fails is taken back, unless its failure is fatal. -/
theorem Accountable.attempt (hp : p.Accountable w) {f : Nat → Descent ι (List α)}
    (hf : ∀ c, (f c).Accountable w) : (p.attempt f).Accountable w := by
  intro c n e h
  rcases attempt_eq_some_iff.mp h with ⟨a, k, -, hk⟩ | ⟨e', k, he, hk⟩
  · exact (hf c).map _ hk
  · split at hk
    · obtain ⟨⟨⟩, rfl⟩ := hk
      exact hp he
    · cases hk.1

/-- Runs that must succeed end with the first one that fails. -/
theorem accountable_exactly (hp : p.Accountable w) (left : Nat) :
    (p.exactly left).Accountable w := by
  induction left with
  | zero => exact accountable_pure []
  | succ left ih => exact hp.bind fun a => ih.map _

/-- Of runs that may fail only a fatal failure is reported. -/
theorem accountable_upTo (hp : p.Accountable w) (room : Nat) : (p.upTo room).Accountable w := by
  induction room with
  | zero => exact accountable_pure []
  | succ room ih => exact hp.attempt fun _ => ih

/-- Of runs without a bound on their number only a fatal failure is reported, too. -/
theorem accountable_untilStill (hp : p.Accountable w) (rounds : Nat) :
    (p.untilStill rounds).Accountable w := by
  induction rounds with
  | zero => exact fun _ _ _ h => nomatch h
  | succ rounds ih =>
    refine hp.attempt fun c k n e h => ?_
    split at h
    · cases h
    · exact ih h

/-- A repetition blames what one of its runs blames. -/
theorem Accountable.repetition (hp : p.Accountable w) (min : Nat) (max : Option Nat) :
    (p.repetition w min max).Accountable w := by
  refine (accountable_exactly hp min).bind fun as => Accountable.map ?_ _
  unfold optional
  split
  · exact accountable_upTo hp _
  · exact accountable_untilStill hp _

end Descent

namespace Grammar

variable {w : Setting ι}

/-- A grammar is accountable if its rules are, by one lemma for each construction. -/
theorem evaluate_accountable {called : (α : Type) → ρ α → Descent ι α}
    (h : ∀ α rule, (called α rule).Accountable w) (g : Grammar ρ ι ν α) :
    (g.evaluate w called).Accountable w := by
  induction g with
  | satisfy expected accepts => exact Descent.accountable_satisfy expected accepts
  | endOfInput => exact Descent.accountable_endOfInput
  | ask q => exact Descent.accountable_ask q
  | pure a => exact Descent.accountable_pure a
  | map p f ih => exact ih.map f
  | pair p q ihp ihq => exact ihp.bind fun a => ihq.map _
  | all ps ih => exact Descent.accountable_all (by simpa using ih)
  | choice ps ih => exact Descent.accountable_choice (by simpa using ih)
  | repetition p min max ih => exact ih.repetition min max
  | bind p f ihp ihf => exact ihp.bind ihf
  | rescue p handler ihp ihh => exact ihp.rescue ihh
  | recoverWith p q ihp ihq => exact ihp.rescue fun _ => ihq
  | fatal p ih => exact ih.changeFailure fun _ => rfl
  | label p construct ih => exact ih.changeFailure fun e => e.cause_withContext _
  | call rule => exact h _ rule
  | tap p mark ih => exact ih
  | custom m => exact fun _ _ _ h => nomatch h

/-- However deep rules are unfolded, they are accountable. -/
theorem ruleDescent_accountable (rules : RuleBook ρ ι ν) (depth : Nat) (α : Type) (rule : ρ α) :
    (ruleDescent w rules depth α rule).Accountable w := by
  induction depth generalizing α with
  | zero => exact fun _ _ _ h => nomatch h
  | succ depth ih => exact evaluate_accountable (fun α rule => ih α rule) _

/-- A failure of a grammar blames what stands where the cursor is left. -/
theorem descend_accountable (rules : RuleBook ρ ι ν) (depth : Nat) (g : Grammar ρ ι ν α) :
    (g.descend w rules depth).Accountable w :=
  evaluate_accountable (ruleDescent_accountable rules depth) g

/-- However an engine for a plain grammar is called: every leaf of a failure that it delivers either
names the item that stands at the offset of the failure, or says that the input ended, and then the
offset is the end of the input, which was declared. -/
theorem delivered_failure_describes {rules : RuleBook ρ ι ν} (hrules : rules.Plain)
    {g : Grammar ρ ι ν α} (hg : g.Plain) (depth : Nat) (limit : Option Nat)
    (moves : List (Move ι)) :
    let h := (History.fresh (g.parser rules depth) limit).after moves
    ∀ f n, .error (.failure f n) ∈ h.delivered → ∀ leaf ∈ f.leaves,
      (∃ x expected, leaf.cause = .unexpected x expected ∧ h.fed[n]? = some x) ∨
        ∃ expected, leaf.cause = .endOfInput expected ∧ n = h.fed.length ∧
          h.engine.finished = true := by
  intro h f n hf leaf hleaf
  have hh : h.Sound := (History.sound_fresh _ limit).after moves
  have hj : h.Justified :=
    (History.justified_fresh _ limit).after (History.sound_fresh _ limit) moves
  -- the failure is what a fresh computation yields, and so what the descent comes to
  obtain ⟨id, start, hstart, hyields⟩ := hj f n hf
  have hrealizes := parser_realizes (w := ⟨h.fed, h.engine.finished, id, start⟩) hrules depth hg
  have hdescend := (hrealizes.yields_iff ⟨Nat.le_refl start, hstart⟩).mp hyields
  have hn : n ≤ h.fed.length := (hrealizes.forward hstart hdescend).2
  have hdescribes := descend_accountable rules depth g hdescend leaf hleaf
  cases hcause : leaf.cause with
  | unexpected x expected =>
    rw [hcause] at hdescribes
    exact .inl ⟨x, expected, rfl, Setting.look_eq_some_some.mp hdescribes⟩
  | endOfInput expected =>
    rw [hcause] at hdescribes
    obtain ⟨hend, hfinished⟩ := Setting.look_eq_some_none.mp hdescribes
    exact .inr ⟨expected, rfl, Nat.le_antisymm hn hend, hfinished⟩
  | aggregate | message | protocol =>
    rw [hcause] at hdescribes
    exact hdescribes.elim

/-- What is neither of two words is blamed, by both readings, on the letter where they failed. -/
theorem neither_word_describes :
    let h := (History.fresh (twoWords.parser noRules 0) none).after
      ([.feed ['a', 'x'], .work, .finish] ++ List.replicate 12 .work)
    let f : Failure Char := .aggregate [.unexpected 'x' "b", .unexpected 'x' "c"]
    h.delivered = [.error (.failure f 1)] ∧ ∀ leaf ∈ f.leaves,
      (∃ x expected, leaf.cause = .unexpected x expected ∧ h.fed[1]? = some x) ∨
        ∃ expected, leaf.cause = .endOfInput expected ∧ 1 = h.fed.length ∧
          h.engine.finished = true := by
  intro h f
  have hdelivered : h.delivered = [.error (.failure f 1)] := rfl
  have hmem : .error (.failure f 1) ∈ h.delivered := by
    rw [hdelivered]
    exact List.mem_singleton_self _
  exact ⟨hdelivered, delivered_failure_describes plain_noRules plain_twoWords 0 none _ f 1 hmem⟩

end Grammar

end ResumableParsing

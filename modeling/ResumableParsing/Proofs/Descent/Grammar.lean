/-
# Direct style for grammars

A grammar is read in direct style by recursion on its structure, over descents for its rules; a rule
is read by unfolding its calls to a given depth.  The parser of a plain grammar, that is one without
machines made by hand and without returns to a token, realizes this reading.
-/
import Mathlib.Data.List.OfFn
import ResumableParsing.Grammar.Derived
import ResumableParsing.Proofs.Descent.Approximation

namespace ResumableParsing

variable {ρ : Type → Type} {ι ν α : Type}

/-- Families that are related member by member make related lists. -/
theorem forall₂_ofFn {β γ : Type*} {R : β → γ → Prop} {n : Nat} {f : Fin n → β} {g : Fin n → γ}
    (h : ∀ i, R (f i) (g i)) : List.Forall₂ R (List.ofFn f) (List.ofFn g) := by
  refine List.forall₂_of_length_eq_of_get (by simp) fun i hi hi' => ?_
  simpa using h ⟨i, by simpa using hi⟩

namespace Grammar

/-! ## Plain grammars -/

/-- No machine made by hand and no return to a token occurs in the grammar, nor in what its
continuations build. -/
def Plain : {α : Type} → Grammar ρ ι ν α → Prop
  | _, satisfy _ _ => True
  | _, endOfInput => True
  | _, ask q => ∀ t, q.request ≠ .rollback t
  | _, pure _ => True
  | _, map p _ => p.Plain
  | _, pair p q => p.Plain ∧ q.Plain
  | _, all ps => ∀ i, (ps i).Plain
  | _, choice ps => ∀ i, (ps i).Plain
  | _, repetition p _ _ => p.Plain
  | _, bind p f => p.Plain ∧ ∀ a, (f a).Plain
  | _, rescue p handler => p.Plain ∧ ∀ e, (handler e).Plain
  | _, recoverWith p q => p.Plain ∧ q.Plain
  | _, fatal p => p.Plain
  | _, label p _ => p.Plain
  | _, call _ => True
  | _, tap p _ => p.Plain
  | _, custom _ => False

end Grammar

/-- Every rule of the book is plain. -/
def RuleBook.Plain (rules : RuleBook ρ ι ν) : Prop := ∀ α rule, (rules α rule).Plain

namespace Grammar

/-! ## Reading a grammar -/

/-- The descent of a grammar, over descents for the rules that it calls. -/
def evaluate (w : Setting ι) (called : (α : Type) → ρ α → Descent ι α) : {α : Type} →
    Grammar ρ ι ν α → Descent ι α
  | _, satisfy expected accepts => .satisfy w expected accepts
  | _, endOfInput => .endOfInput w
  | _, ask q => .ask w q
  | _, pure a => .pure a
  | _, map p f => (p.evaluate w called).map f
  | _, pair p q => (p.evaluate w called).bind fun a => (q.evaluate w called).map (a, ·)
  | _, all ps => .all (List.ofFn fun i => (ps i).evaluate w called)
  | _, choice ps => .choice (List.ofFn fun i => (ps i).evaluate w called)
  | _, repetition p min max => (p.evaluate w called).repetition w min max
  | _, bind p f => (p.evaluate w called).bind fun a => (f a).evaluate w called
  | _, rescue p handler => (p.evaluate w called).rescue fun e => (handler e).evaluate w called
  | _, recoverWith p q => (p.evaluate w called).rescue fun _ => q.evaluate w called
  | _, fatal p => (p.evaluate w called).changeFailure Failure.toFatal
  | _, label p construct => (p.evaluate w called).changeFailure (·.whileParsing construct)
  | _, call rule => called _ rule
  | _, tap p _ => p.evaluate w called
  | _, custom _ => fun _ => none

/-- The descent of a rule whose calls are unfolded to the given depth. -/
def ruleDescent (w : Setting ι) (rules : RuleBook ρ ι ν) : Nat → (α : Type) → ρ α → Descent ι α
  | 0, _, _ => fun _ => none
  | depth + 1, α, rule => (rules α rule).evaluate w (ruleDescent w rules depth)

/-- The descent that a grammar describes under a rule book, with calls unfolded to the given
depth. -/
def descend (w : Setting ι) (rules : RuleBook ρ ι ν) (depth : Nat) (g : Grammar ρ ι ν α) :
    Descent ι α := g.evaluate w (ruleDescent w rules depth)

/-! ## Parsers realize descents -/

variable {w : Setting ι}

/-- A grammar's machine realizes how the grammar is read if the machines of its rules do. -/
theorem machine_realizes {machines : (α : Type) → ρ α → Machine ι ν α}
    {descents : (α : Type) → ρ α → Descent ι α}
    (h : ∀ α rule, (machines α rule).Realizes w (descents α rule)) {g : Grammar ρ ι ν α}
    (hg : g.Plain) : (g.machine machines).Realizes w (g.evaluate w descents) := by
  -- one case for each construction, which realizes what its parts realize
  induction g with
  | satisfy expected accepts => exact Machine.realizes_satisfy expected accepts
  | endOfInput => exact Machine.realizes_endOfInput
  | ask q => exact Machine.realizes_ask q hg
  | pure a => exact Machine.realizes_pure a
  | map p f ih => exact (ih hg).map f
  | pair p q ihp ihq => exact (ihp hg.1).pair (ihq hg.2)
  | all ps ih => exact Machine.RealizeAll.all (forall₂_ofFn fun i => ih i (hg i))
  | choice ps ih => exact Machine.RealizeAll.choice (forall₂_ofFn fun i => ih i (hg i))
  | repetition p min max ih => exact (ih hg).repetition min max
  | bind p f ihp ihf => exact (ihp hg.1).bind fun a => ihf a (hg.2 a)
  | rescue p handler ihp ihh => exact (ihp hg.1).rescue fun e => ihh e (hg.2 e)
  | recoverWith p q ihp ihq => exact (ihp hg.1).recoverWith (ihq hg.2)
  | fatal p ih => exact (ih hg).changeFailure _
  | label p construct ih => exact (ih hg).changeFailure _
  | call rule => exact (h _ rule).deferred
  | tap p mark ih => exact (ih hg).tap mark
  | custom m => exact hg.elim

/-- A machine that looks forever realizes what comes to nothing. -/
theorem stalled_realizes : (Machine.stalled : Machine ι ν α).Realizes w (fun _ => none) := by
  constructor
  · intro c n res _ h
    cases h
  · intro c n res _
    exact iff_of_false Machine.not_yields_stalled nofun

/-- However deep rules are unfolded, their machines realize how they are read. -/
theorem ruleMachine_realizes {rules : RuleBook ρ ι ν} (hrules : rules.Plain) (depth : Nat)
    (α : Type) (rule : ρ α) :
    (ruleMachine rules depth α rule).Realizes w (ruleDescent w rules depth α rule) := by
  induction depth generalizing α with
  | zero => exact stalled_realizes
  | succ depth ih => exact machine_realizes (fun α rule => ih α rule) (hrules α rule)

/-- The parser of a plain grammar realizes its descent. -/
theorem parser_realizes {rules : RuleBook ρ ι ν} (hrules : rules.Plain) (depth : Nat)
    {g : Grammar ρ ι ν α} (hg : g.Plain) :
    (g.parser rules depth).Realizes w (g.descend w rules depth) :=
  machine_realizes (ruleMachine_realizes hrules depth) hg

/-! ## Deeper unfoldings -/

/-- A grammar over rules that are unfolded deeper comes to the same where it came to something. -/
theorem evaluate_approximates {called called' : (α : Type) → ρ α → Descent ι α}
    (h : ∀ α rule, (called α rule).Approximates (called' α rule)) (g : Grammar ρ ι ν α) :
    (g.evaluate w called).Approximates (g.evaluate w called') := by
  induction g with
  | satisfy | endOfInput | ask | pure | custom => exact .refl _
  | map p f ih => exact ih.map f
  | pair p q ihp ihq => exact ihp.bind fun a => ihq.map _
  | all ps ih => exact Descent.approximates_all (forall₂_ofFn ih)
  | choice ps ih => exact Descent.approximates_choice (forall₂_ofFn ih)
  | repetition p min max ih => exact ih.repetition w min max
  | bind p f ihp ihf => exact ihp.bind ihf
  | rescue p handler ihp ihh => exact ihp.rescue ihh
  | recoverWith p q ihp ihq => exact ihp.rescue fun _ => ihq
  | fatal p ih => exact ih.changeFailure _
  | label p construct ih => exact ih.changeFailure _
  | call rule => exact h _ rule
  | tap p mark ih => exact ih

/-- A deeper unfolding approximates better. -/
theorem ruleDescent_approximates (rules : RuleBook ρ ι ν) {depth depth' : Nat}
    (h : depth ≤ depth') (α : Type) (rule : ρ α) :
    (ruleDescent w rules depth α rule).Approximates (ruleDescent w rules depth' α rule) := by
  induction depth generalizing α depth' with
  | zero => exact Descent.approximates_of_nothing _
  | succ depth ih =>
    cases depth' with
    | zero => exact absurd h (by omega)
    | succ depth' =>
      exact evaluate_approximates (fun α rule => ih (Nat.le_of_succ_le_succ h) α rule) _

/-- What a grammar comes to at some depth it comes to at every greater depth. -/
theorem descend_approximates (rules : RuleBook ρ ι ν) {depth depth' : Nat} (h : depth ≤ depth')
    (g : Grammar ρ ι ν α) : (g.descend w rules depth).Approximates (g.descend w rules depth') :=
  evaluate_approximates (ruleDescent_approximates rules h) g

/-! ## Two words -/

/-- The book without rules. -/
def noRules : RuleBook (fun _ => Empty) ι ν := fun _ rule => nomatch rule

theorem plain_noRules : (noRules : RuleBook _ ι ν).Plain := fun _ rule => nomatch rule

/-- Exactly the given letter. -/
def letter (x : Char) : Grammar (fun _ => Empty) Char Unit Char := satisfy x.toString (· == x)

/-- Two words that begin alike, so that the second is read after a return. -/
def twoWords : Grammar (fun _ => Empty) Char Unit (Char × Char) :=
  orElse ((letter 'a').pair (letter 'b')) ((letter 'a').pair (letter 'c'))

theorem plain_twoWords : twoWords.Plain := by
  intro i
  cases i using Fin.cases with
  | zero => exact ⟨trivial, trivial⟩
  | succ i =>
    cases i using Fin.cases with
    | zero => exact ⟨trivial, trivial⟩
    | succ i => exact i.elim0

end Grammar

end ResumableParsing

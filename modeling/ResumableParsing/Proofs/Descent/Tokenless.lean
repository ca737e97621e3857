/-
# Grammars without tokens

A computation sees the number of its session, and the offsets of the stream, only in tokens.  A
grammar that neither captures the cursor nor returns to a token, and uses no machine made by hand,
has no use for either.
-/
import ResumableParsing.Proofs.Descent.Grammar

namespace ResumableParsing

variable {ρ : Type → Type} {ι ν α : Type}

namespace Grammar

/-! ## Grammars that do not handle tokens -/

/-- No machine made by hand, no capture of the cursor and no return to a token occurs in the
grammar, nor in what its continuations build. -/
def Tokenless : {α : Type} → Grammar ρ ι ν α → Prop
  | _, satisfy _ _ => True
  | _, endOfInput => True
  | _, ask q => q.request ≠ .snapshot ∧ ∀ t, q.request ≠ .rollback t
  | _, pure _ => True
  | _, map p _ => p.Tokenless
  | _, pair p q => p.Tokenless ∧ q.Tokenless
  | _, all ps => ∀ i, (ps i).Tokenless
  | _, choice ps => ∀ i, (ps i).Tokenless
  | _, repetition p _ _ => p.Tokenless
  | _, bind p f => p.Tokenless ∧ ∀ a, (f a).Tokenless
  | _, rescue p handler => p.Tokenless ∧ ∀ e, (handler e).Tokenless
  | _, recoverWith p q => p.Tokenless ∧ q.Tokenless
  | _, fatal p => p.Tokenless
  | _, label p _ => p.Tokenless
  | _, call _ => True
  | _, tap p _ => p.Tokenless
  | _, custom _ => False

/-- A grammar without tokens returns to none. -/
theorem Tokenless.plain {g : Grammar ρ ι ν α} (hg : g.Tokenless) : g.Plain := by
  induction g with
  | satisfy | endOfInput | pure | call => trivial
  | ask q => exact hg.2
  | map p f ih => exact ih hg
  | pair p q ihp ihq => exact ⟨ihp hg.1, ihq hg.2⟩
  | all ps ih => exact fun i => ih i (hg i)
  | choice ps ih => exact fun i => ih i (hg i)
  | repetition p min max ih => exact ih hg
  | bind p f ihp ihf => exact ⟨ihp hg.1, fun a => ihf a (hg.2 a)⟩
  | rescue p handler ihp ihh => exact ⟨ihp hg.1, fun e => ihh e (hg.2 e)⟩
  | recoverWith p q ihp ihq => exact ⟨ihp hg.1, ihq hg.2⟩
  | fatal p ih => exact ih hg
  | label p construct ih => exact ih hg
  | tap p mark ih => exact ih hg
  | custom m => exact hg.elim

end Grammar

/-- Every rule of the book is tokenless. -/
def RuleBook.Tokenless (rules : RuleBook ρ ι ν) : Prop := ∀ α rule, (rules α rule).Tokenless

/-- Rules that do not handle tokens return to none. -/
theorem RuleBook.Tokenless.plain {rules : RuleBook ρ ι ν} (h : rules.Tokenless) : rules.Plain :=
  fun α rule => (h α rule).plain

namespace Grammar

theorem tokenless_noRules : (noRules : RuleBook _ ι ν).Tokenless := fun _ rule => nomatch rule

/-- Two words are parsed without tokens. -/
theorem tokenless_twoWords : twoWords.Tokenless := by
  intro i
  cases i using Fin.cases with
  | zero => exact ⟨trivial, trivial⟩
  | succ i =>
    cases i using Fin.cases with
    | zero => exact ⟨trivial, trivial⟩
    | succ i => exact i.elim0

end Grammar

end ResumableParsing

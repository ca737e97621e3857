/-
# Wrong answers

A choice and a repetition ask for tokens themselves, and insist on them as the machines do that run
in between.  From the constructions together it follows that a wrong answer to the parser of a
grammar is noticed at once.

Only a call beyond the depth to which calls are unfolded takes any answer, and looks at the cursor
again, forever.  `Exceeds` says which rules may come to such a call; a computation in which it is
waiting never moves.
-/
import Mathlib.Data.List.OfFn
import ResumableParsing.Proofs.Insistence.Basic

namespace ResumableParsing

variable {ι ν α σ : Type}

namespace Machine

variable {idle : Prop} {p : Machine ι ν α}

/-! ## Choice -/

section Choice

variable {ps : List (Machine ι ν α)}
  {kind : (i : Fin ps.length) → (ps.get i).State → Request → Prop}

/-- A choice waits for tokens, and where the alternative waits that runs. -/
inductive Choosing.Waits (ps : List (Machine ι ν α))
    (kind : (i : Fin ps.length) → (ps.get i).State → Request → Prop) :
    ChoosingFrom ps → Request → Prop
  /-- The token of the beginning was asked for. -/
  | opening : Waits ps kind .opening .snapshot
  /-- An alternative waits. -/
  | running {initial : Token} {best : Option (Furthest ι)} {i : Fin ps.length}
      {s : (ps.get i).State} {q : Request} (hs : kind i s q) :
      Waits ps kind (.running initial best i s) q
  /-- The token of the place was asked for that an alternative got to. -/
  | measuring {initial : Token} {best : Option (Furthest ι)} {i : Fin ps.length} {e : Failure ι} :
      Waits ps kind (.measuring initial best i e) .snapshot
  /-- A return to the beginning was asked for. -/
  | returning {initial : Token} {best : Furthest ι} {i : Fin ps.length} :
      Waits ps kind (.returning initial best i) (.rollback initial)
  /-- A return to the furthest place was asked for. -/
  | settling {best : Furthest ι} : Waits ps kind (.settling best) (.rollback best.token)

/-- A choice asks what its alternative asks, or measures how far a failed one came. -/
theorem keeps_alternativeTurn (initial : Token) (best : Option (Furthest ι)) (i : Fin ps.length)
    {t : Turn (ps.get i).State ι ν α} (h : t.Keeps (kind i)) :
    (alternativeTurn ps initial best i t).Keeps (Choosing.Waits ps kind) := by
  unfold alternativeTurn Choosing.ofTurn
  cases h with
  | suspend state => exact .suspend (.running state)
  | complete => exact .complete
  | @fail _ e =>
    by_cases he : e.isFatal
    · simp only [if_pos he]
      exact .fail
    · simp only [if_neg he]
      exact .suspend .measuring

/-- As long as an alternative asks something, the choice runs it. -/
theorem alternativeTurn_of_suspend (initial : Token) (best : Option (Furthest ι))
    (i : Fin ps.length) {t : Turn (ps.get i).State ι ν α} {q : Request}
    (h : t.resumed = .suspend q) :
    (alternativeTurn ps initial best i t).resumed = .suspend q ∧
      (alternativeTurn ps initial best i t).state = .running initial best i t.state := by
  unfold alternativeTurn Choosing.ofTurn
  rw [h]
  exact ⟨rfl, rfl⟩

/-- Each alternative of a choice runs inside it, and a violation is not an alternative that failed.
-/
theorem context_choice (initial : Token) (best : Option (Furthest ι)) (i : Fin ps.length) :
    (choice ps).Context (ps.get i) fun s => .running initial best i s where
  asks h := alternativeTurn_of_suspend initial best i h
  violates := fun ⟨e, he, hviolation⟩ =>
    ⟨e, (escapes_alternativeTurn he hviolation.1).fails, hviolation⟩

/-- A choice takes nothing but a token where it asked for one. -/
theorem insists_choice (h : ∀ p ∈ ps, p.Insists idle) : (choice ps).Insists idle := by
  have hget (i : Fin ps.length) : (ps.get i).Insists idle := h _ (List.get_mem ps i)
  choose kind hkind using hget
  have hstart (initial : Token) (best : Option (Furthest ι)) (i : Fin ps.length) :
      (alternativeTurn ps initial best i (ps.get i).start).Keeps (Choosing.Waits ps kind) :=
    keeps_alternativeTurn initial best i (hkind i).start
  refine ⟨Choosing.Waits ps kind, ?_, @fun s q r hs hr => ?_, @fun s q r hs hr => ?_⟩
  · show (if ps.isEmpty then _ else _ : Turn (ChoosingFrom ps) ι ν α).Keeps _
    split
    · exact .fail
    · exact .suspend .opening
  · cases hs with
    | opening =>
      obtain ⟨initial, hinitial⟩ := exists_of_expectToken (.inl rfl) (r := some r) hr
      simp only [choice, chooseFrom, hinitial]
      split
      · exact hstart initial none _
      · exact .fail
    | running hs => exact keeps_alternativeTurn _ _ _ ((hkind _).answer hs hr)
    | measuring =>
      obtain ⟨reached, hreached⟩ := exists_of_expectToken (.inl rfl) (r := some r) hr
      simp only [choice, chooseFrom, hreached]
      split
      · exact .suspend .returning
      · exact .suspend .settling
    | returning =>
      obtain ⟨k, hk⟩ := exists_of_expectToken (.inr ⟨_, rfl⟩) (r := some r) hr
      simp only [choice, chooseFrom, hk]
      exact hstart _ _ _
    | settling =>
      obtain ⟨k, hk⟩ := exists_of_expectToken (.inr ⟨_, rfl⟩) (r := some r) hr
      simp only [choice, chooseFrom, hk]
      exact .fail
  · cases hs with
    | running hs => exact (context_choice _ _ _).rejects ((hkind _).rejects hs hr)
    | opening | measuring =>
      obtain ⟨f, hf, hviolation⟩ := isViolation_of_expectToken (.inl rfl) hr
      refine .inl ⟨f, ?_, hviolation⟩
      simp only [choice, chooseFrom, hf]
      rfl
    | returning | settling =>
      obtain ⟨f, hf, hviolation⟩ := isViolation_of_expectToken (.inr ⟨_, rfl⟩) hr
      refine .inl ⟨f, ?_, hviolation⟩
      simp only [choice, chooseFrom, hf]
      rfl

end Choice

/-! ## Repetition -/

section Repetition

open Repeating

variable {kind : σ → Request → Prop}

/-- A repetition waits for tokens, and where the run waits that is under way. -/
inductive Repeating.Waits (kind : σ → Request → Prop) : Repeating α σ → Request → Prop
  /-- A run that must succeed waits. -/
  | mandatory {left : Nat} {done : List α} {s : σ} {q : Request} (hs : kind s q) :
      Waits kind (.mandatory left done s) q
  /-- The token before an optional run was asked for. -/
  | checking {room last : Option Nat} {done : List α} :
      Waits kind (.checking room last done) .snapshot
  /-- An optional run waits. -/
  | optional {room : Option Nat} {checkpoint : Token} {done : List α} {s : σ} {q : Request}
      (hs : kind s q) : Waits kind (.optional room checkpoint done s) q
  /-- A return to where a failed run began was asked for. -/
  | returning {done : List α} {k : Token} : Waits kind (.returning done) (.rollback k)

/-- Before an optional run a repetition asks for a checkpoint. -/
theorem keeps_proceed (room last : Option Nat) (done : List α) :
    (proceed (ι := ι) (ν := ν) room last done).Keeps (Repeating.Waits kind) := by
  unfold proceed
  split
  · exact .complete
  · exact .suspend .checking

/-- A repetition asks what its run asks, or what goes on behind it. -/
theorem keeps_ofMandatory (left : Nat) (done : List α)
    {onward : List α → Turn (Repeating α σ) ι ν (List α)}
    (honward : ∀ done, (onward done).Keeps (Repeating.Waits kind)) {t : Turn σ ι ν α}
    (h : t.Keeps kind) : (ofMandatory left done onward t).Keeps (Repeating.Waits kind) := by
  cases h with
  | suspend state => exact .suspend (.mandatory state)
  | complete => exact (honward _).after _
  | fail => exact .fail

/-- Runs that start at once end with one that asks something, or with what comes behind them. -/
theorem keeps_demand {kind : p.State → Request → Prop} (h : p.start.Keeps kind) (room : Option Nat)
    (left : Nat) (done : List α) : (demand p room left done).Keeps (Repeating.Waits kind) := by
  induction left generalizing done with
  | zero => exact keeps_proceed room none done
  | succ left ih => exact keeps_ofMandatory left done ih h

/-- A repetition asks what its optional run asks, returns to the checkpoint or asks for the next
one. -/
theorem keeps_ofOptional (room : Option Nat) (checkpoint : Token) (done : List α)
    {t : Turn σ ι ν α} (h : t.Keeps kind) :
    (ofOptional room checkpoint done t).Keeps (Repeating.Waits kind) := by
  unfold ofOptional
  cases h with
  | suspend state => exact .suspend (.optional state)
  | complete => exact (keeps_proceed _ _ _).after _
  | @fail _ e =>
    by_cases he : e.isFatal
    · simp only [if_pos he]
      exact .fail
    · simp only [if_neg he]
      exact .suspend .returning

/-- A run that must succeed runs inside the repetition. -/
theorem context_repetition_mandatory (min : Nat) (max : Option Nat) (left : Nat) (done : List α) :
    (p.repetition min max).Context p (.mandatory left done) where
  asks {s r _} h := by
    show (ofMandatory left done _ (p.resume s r)).resumed = _ ∧
      (ofMandatory left done _ (p.resume s r)).state = _
    unfold ofMandatory
    rw [h]
    exact ⟨rfl, rfl⟩
  violates := fun ⟨e, he, hviolation⟩ => ⟨e, (escapes_ofMandatory he).fails, hviolation⟩

/-- An optional run runs inside the repetition, and a violation does not end it. -/
theorem context_repetition_optional (min : Nat) (max : Option Nat) (room : Option Nat)
    (checkpoint : Token) (done : List α) :
    (p.repetition min max).Context p (.optional room checkpoint done) where
  asks {s r _} h := by
    show (ofOptional room checkpoint done (p.resume s r)).resumed = _ ∧
      (ofOptional room checkpoint done (p.resume s r)).state = _
    unfold ofOptional
    rw [h]
    exact ⟨rfl, rfl⟩
  violates := fun ⟨e, he, hviolation⟩ =>
    ⟨e, (escapes_ofOptional he hviolation.1).fails, hviolation⟩

/-- A repetition takes nothing but a token where it asked for one. -/
theorem Insists.repetition (h : p.Insists idle) (min : Nat) (max : Option Nat) :
    (p.repetition min max).Insists idle := by
  obtain ⟨kind, h⟩ := h
  refine ⟨Repeating.Waits kind, ?_, @fun s q r hs hr => ?_, @fun s q r hs hr => ?_⟩
  · cases min with
    | zero => exact keeps_proceed _ none []
    | succ left => exact keeps_ofMandatory left [] (keeps_demand h.start _ left) h.start
  · cases hs with
    | mandatory hs => exact keeps_ofMandatory _ _ (keeps_demand h.start _ _) (h.answer hs hr)
    | @checking room last done =>
      obtain ⟨checkpoint, hcheckpoint⟩ := exists_of_expectToken (.inl rfl) (r := some r) hr
      simp only [Machine.repetition, hcheckpoint]
      split
      · exact .complete
      · exact keeps_ofOptional room checkpoint done h.start
    | optional hs => exact keeps_ofOptional _ _ _ (h.answer hs hr)
    | returning =>
      obtain ⟨k, hk⟩ := exists_of_expectToken (.inr ⟨_, rfl⟩) (r := some r) hr
      simp only [Machine.repetition, hk]
      exact .complete
  · cases hs with
    | mandatory hs => exact (context_repetition_mandatory min max _ _).rejects (h.rejects hs hr)
    | optional hs => exact (context_repetition_optional min max _ _ _).rejects (h.rejects hs hr)
    | checking =>
      obtain ⟨f, hf, hviolation⟩ := isViolation_of_expectToken (.inl rfl) hr
      refine .inl ⟨f, ?_, hviolation⟩
      simp only [Machine.repetition, hf]
      rfl
    | returning =>
      obtain ⟨f, hf, hviolation⟩ := isViolation_of_expectToken (.inr ⟨_, rfl⟩) hr
      refine .inl ⟨f, ?_, hviolation⟩
      simp only [Machine.repetition, hf]
      rfl

end Repetition

end Machine

/-! ## Grammars -/

namespace Grammar

variable {ρ : Type → Type}

/-- The grammar, or a continuation of it, calls a rule of the kind. -/
def Calls (kind : (α : Type) → ρ α → Prop) : {α : Type} → Grammar ρ ι ν α → Prop
  | _, satisfy _ _ => False
  | _, endOfInput => False
  | _, ask _ => False
  | _, pure _ => False
  | _, map p _ => p.Calls kind
  | _, pair p q => p.Calls kind ∨ q.Calls kind
  | _, all ps => ∃ i, (ps i).Calls kind
  | _, choice ps => ∃ i, (ps i).Calls kind
  | _, repetition p _ _ => p.Calls kind
  | _, bind p f => p.Calls kind ∨ ∃ a, (f a).Calls kind
  | _, rescue p handler => p.Calls kind ∨ ∃ e, (handler e).Calls kind
  | _, recoverWith p q => p.Calls kind ∨ q.Calls kind
  | _, fatal p => p.Calls kind
  | _, label p _ => p.Calls kind
  | _, call rule => kind _ rule
  | _, tap p _ => p.Calls kind
  | _, custom _ => False

end Grammar

/-- To run the rule one may have to unfold calls within calls to more than the depth. -/
def RuleBook.Exceeds {ρ : Type → Type} (rules : RuleBook ρ ι ν) : Nat → (α : Type) → ρ α → Prop
  | 0, _, _ => True
  | depth + 1, α, rule => (rules α rule).Calls (rules.Exceeds depth)

namespace Grammar

variable {ρ : Type → Type} {idle : Prop}

/-- A grammar insists if the rules do that it calls. -/
theorem machine_insists {machines : (α : Type) → ρ α → Machine ι ν α}
    {kind : (α : Type) → ρ α → Prop}
    (h : ∀ α rule, (kind α rule → idle) → (machines α rule).Insists idle) {g : Grammar ρ ι ν α}
    (hg : g.Composed) (hcalls : g.Calls kind → idle) : (g.machine machines).Insists idle := by
  -- one case for each construction; what a part calls the whole calls
  induction g with
  | satisfy expected accepts => exact Machine.insists_satisfy expected accepts
  | endOfInput => exact Machine.insists_endOfInput
  | ask q => exact Machine.insists_ask q
  | pure a => exact Machine.insists_pure a
  | map p f ih => exact (ih hg hcalls).map f
  | pair p q ihp ihq =>
    exact (ihp hg.1 fun hp => hcalls (.inl hp)).pair (ihq hg.2 fun hq => hcalls (.inr hq))
  | all ps ih =>
    refine Machine.insists_all (List.forall_mem_ofFn_iff.mpr fun i => ?_)
    exact ih i (hg i) fun hi => hcalls ⟨i, hi⟩
  | choice ps ih =>
    refine Machine.insists_choice (List.forall_mem_ofFn_iff.mpr fun i => ?_)
    exact ih i (hg i) fun hi => hcalls ⟨i, hi⟩
  | repetition p min max ih => exact (ih hg hcalls).repetition min max
  | bind p f ihp ihf =>
    exact (ihp hg.1 fun hp => hcalls (.inl hp)).bind fun a =>
      ihf a (hg.2 a) fun ha => hcalls (.inr ⟨a, ha⟩)
  | rescue p handler ihp ihh =>
    exact (ihp hg.1 fun hp => hcalls (.inl hp)).rescue fun e =>
      ihh e (hg.2 e) fun he => hcalls (.inr ⟨e, he⟩)
  | recoverWith p q ihp ihq =>
    exact (ihp hg.1 fun hp => hcalls (.inl hp)).recoverWith (ihq hg.2 fun hq => hcalls (.inr hq))
  | fatal p ih => exact (ih hg hcalls).changeFailure (fun _ _ => rfl) fun _ => rfl
  | label p construct ih =>
    exact (ih hg hcalls).changeFailure (fun e he => (e.isFatal_withContext _).trans he)
      fun e => e.cause_withContext _
  | call rule => exact (h _ rule hcalls).deferred
  | tap p mark ih => exact (ih hg hcalls).tap mark
  | custom m => exact hg.elim

/-- The machine of a rule insists, except where it is the one that looks forever since rules are not
unfolded that deep. -/
theorem ruleMachine_insists {rules : RuleBook ρ ι ν} (hrules : rules.Composed) (depth : Nat)
    (α : Type) (rule : ρ α) (h : rules.Exceeds depth α rule → idle) :
    (ruleMachine rules depth α rule).Insists idle := by
  induction depth generalizing α with
  | zero => exact Machine.insists_stalled (h trivial)
  | succ depth ih => exact machine_insists (fun α rule => ih α rule) (hrules α rule) h

/-- While an exchange with the parser of a grammar is kept to, a computation that waits on a request
insists on an answer of the kind that it asked for.  Resumed with any other answer, or with none, it
comes to a fatal failure in the same resumption, whose cause is that the exchange was not kept to,
whatever runs around the machine that was waiting.  If calls in the grammar may be nested deeper
than they are unfolded, this holds wherever it is not such a call that is waiting, that is, wherever
some answers lead to something else than looks at the cursor. -/
theorem wrong_answer_violates {rules : RuleBook ρ ι ν} (hrules : rules.Composed) (depth : Nat)
    {g : Grammar ρ ι ν α} (hg : g.Composed) {t : Turn (g.parser rules depth).State ι ν α}
    (ht : (g.parser rules depth).Exchanges t) {q : Request} (asks : t.resumed = .suspend q)
    (hmoves : g.Calls (rules.Exceeds depth) → (g.parser rules depth).Moves t.state)
    {r : Option (Response ι)} (wrong : ¬ (Standing.waiting q).Admits r) :
    ∃ f, ((g.parser rules depth).resume t.state r).resumed = .fail f ∧ f.isFatal = true ∧
      ∃ detail, f.cause = .protocol detail := by
  have hinsists : (g.parser rules depth).Insists (g.Calls (rules.Exceeds depth)) :=
    machine_insists (ruleMachine_insists hrules depth) hg id
  rcases hinsists.rejects ht asks wrong with hviolates | ⟨hcalls, hstays⟩
  · exact hviolates
  · exact absurd (hmoves hcalls) hstays

/-- The name of a list, the only rule of its book. -/
inductive ListRule : Type → Type where
  /-- The list. -/
  | list : ListRule (List Char)

/-- A list is a letter and another list, or else it is empty. -/
def listRules : RuleBook ListRule Char String
  | _, .list =>
    recoverWith (map (pair (satisfy "a" (· == 'a')) (call .list)) fun x => x.1 :: x.2) (pure [])

/-- Lists as long as there are any, as the only alternative of a choice. -/
def lists : Grammar ListRule Char String (List (List Char)) :=
  choice fun _ : Fin 1 => rescue (repetition (call .list) 0 none) fun _ => pure []

/-- The letter of the first list is looked for, and a token is no letter. -/
theorem token_violates_lists :
    let m := lists.parser listRules 1
    let k : Token := ⟨0, 0⟩
    let t := m.resume (m.resume m.start.state (some (.token k))).state (some (.token k))
    listRules.Composed ∧ lists.Composed ∧ m.Exchanges t ∧ t.resumed = .suspend .peek ∧
      m.Moves t.state ∧ ∃ f, (m.resume t.state (some (.token k))).resumed = .fail f ∧
        f.isFatal = true ∧ ∃ detail, f.cause = .protocol detail := by
  intro m k t
  have hrules : listRules.Composed := by
    rintro _ ⟨⟩
    exact ⟨⟨trivial, trivial⟩, trivial⟩
  have hlists : lists.Composed := fun _ => ⟨trivial, fun _ => trivial⟩
  have ht : m.Exchanges t := .answer (.answer .start rfl trivial) rfl trivial
  have hmoves : m.Moves t.state := by
    -- at the end of the input the list is empty, and the next one is tried
    refine .now (r := some .endOfInput) ?_
    show Resumed.suspend .snapshot ≠ .suspend .peek
    nofun
  exact ⟨hrules, hlists, ht, rfl, hmoves,
    wrong_answer_violates hrules 1 hlists ht rfl (fun _ => hmoves) id⟩

end Grammar

end ResumableParsing

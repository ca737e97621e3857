/-
# Watched grammars

A choice and a repetition ask for tokens themselves, and run other machines in between.  Each of
these is started afresh, is resumed only while it waits, and is told only what it asked for.  From
the constructions together it follows that the parser of a grammar mirrors its watched one.
-/
import ResumableParsing.Proofs.Watch.Basic

namespace ResumableParsing

variable {ι ν κ α β σ τ : Type}

namespace Machine

variable {p : Machine ι ν α} {p' : Machine ι (Remark ι) α}

/-! ## Choice -/

/-- The failures that got furthest tell of the input. -/
def Furthest.Tells (g : Furthest ι) : Prop := ∀ e ∈ g.failures, e.Tells

/-- The record of the furthest failures tells of the input if each of them does. -/
theorem tells_record {best : Option (Furthest ι)} (hbest : ∀ g ∈ best, Furthest.Tells g)
    (reached : Token) {e : Failure ι} (he : e.Tells) :
    Furthest.Tells (Furthest.record best reached e) := by
  have halone : ∀ f ∈ [e], f.Tells := List.forall_mem_singleton.mpr he
  unfold Furthest.record
  cases best with
  | none => exact halone
  | some g =>
    have hg : Furthest.Tells g := hbest g rfl
    dsimp only
    split
    · exact List.forall_mem_append.mpr ⟨hg, halone⟩
    · split
      · exact hg
      · exact halone

/-- What a choice fails with in the end tells of the input if what it recorded does. -/
theorem tells_failure {g : Furthest ι} (h : Furthest.Tells g) : g.failure.Tells := by
  unfold Furthest.failure
  split
  · rename_i e heq
    exact h e (by simp [heq])
  · exact Failure.tells_aggregate h

section Choice

variable {ps : List (Machine ι ν α)} {ps' : List (Machine ι (Remark ι) α)}

/-- The states of two choices: they have come equally far, what is recorded tells of the input, and
the same alternative runs. -/
inductive Choosing.Mirrors (ps : List (Machine ι ν α)) (ps' : List (Machine ι (Remark ι) α)) :
    ChoosingFrom ps → ChoosingFrom ps' → Standing → Prop
  /-- Nothing was asked yet. -/
  | start : Mirrors ps ps' .start .start .fresh
  /-- The token of the beginning was asked for. -/
  | opening : Mirrors ps ps' .opening .opening (.waiting .snapshot)
  /-- An alternative runs. -/
  | running {initial : Token} {best : Option (Furthest ι)} {i : Fin ps.length}
      {i' : Fin ps'.length} {s : (ps.get i).State} {s' : (ps'.get i').State} {st : Standing}
      (hi : i'.val = i.val) (hbest : ∀ g ∈ best, Furthest.Tells g)
      (hs : (ps.get i).Mirrors (ps'.get i') s s' st) :
      Mirrors ps ps' (.running initial best i s) (.running initial best i' s') st
  /-- The token of the place was asked for that an alternative got to. -/
  | measuring {initial : Token} {best : Option (Furthest ι)} {i : Fin ps.length}
      {i' : Fin ps'.length} {e : Failure ι} (hi : i'.val = i.val)
      (hbest : ∀ g ∈ best, Furthest.Tells g) (he : e.Tells) :
      Mirrors ps ps' (.measuring initial best i e) (.measuring initial best i' e)
        (.waiting .snapshot)
  /-- A return to the beginning was asked for. -/
  | returning {initial : Token} {best : Furthest ι} {i : Fin ps.length} {i' : Fin ps'.length}
      (hi : i'.val = i.val) (hbest : Furthest.Tells best) :
      Mirrors ps ps' (.returning initial best i) (.returning initial best i')
        (.waiting (.rollback initial))
  /-- A return to the furthest place was asked for. -/
  | settling {best : Furthest ι} (hbest : Furthest.Tells best) :
      Mirrors ps ps' (.settling best) (.settling best) (.waiting (.rollback best.token))

/-- Two choices that run the same alternative go on alike after it. -/
theorem mirrors_alternativeTurn {initial : Token} {best : Option (Furthest ι)}
    (hbest : ∀ g ∈ best, Furthest.Tells g) {i : Fin ps.length} {i' : Fin ps'.length}
    (hi : i'.val = i.val) {t : Turn (ps.get i).State ι ν α}
    {t' : Turn (ps'.get i').State ι (Remark ι) α}
    (h : t.Mirrors ((ps.get i).Mirrors (ps'.get i')) t') :
    (alternativeTurn ps initial best i t).Mirrors (Choosing.Mirrors ps ps')
      (alternativeTurn ps' initial best i' t') := by
  unfold alternativeTurn Choosing.ofTurn
  cases h with
  | suspend state notes => exact .suspend (.running hi hbest state) notes
  | complete notes => exact .complete notes
  | @fail _ _ e _ _ failure notes =>
    by_cases he : e.isFatal
    · simp only [if_pos he]
      exact .fail failure notes
    · simp only [if_neg he]
      exact .suspend (.measuring hi hbest failure) notes

/-- An answer to a request for a token holds one. -/
theorem exists_of_expectToken {q : Request} (hq : q = .snapshot ∨ ∃ k, q = .rollback k)
    {r : Option (Response ι)} (hr : (Standing.waiting q).Admits r) :
    ∃ k, expectToken r = .ok k := by
  rcases hq with rfl | ⟨k, rfl⟩ <;> rcases r with _ | _ | _ | k' <;>
    first | exact hr.elim | exact ⟨k', rfl⟩

/-- A choice asks for tokens itself, and between its questions the alternatives run, each from its
beginning to its end. -/
theorem mirrored_choice (h : List.Forall₂ Mirrored ps ps') :
    (choice ps).Mirrored (choice ps') := by
  have hlen : ps.length = ps'.length := h.length_eq
  have hstart (i : Fin ps.length) (i' : Fin ps'.length) (hi : i'.val = i.val) :
      (ps.get i).start.Mirrors ((ps.get i).Mirrors (ps'.get i')) (ps'.get i').start := by
    obtain ⟨i', hi'⟩ := i'
    obtain rfl : i' = i.val := hi
    exact (h.get i.isLt hi').start
  refine ⟨Choosing.Mirrors ps ps', .start, fun s s' st r hs hr => ?_⟩
  cases hs with
  | start =>
    simp only [choice, chooseFrom]
    cases h with
    | nil =>
      exact .fail (Failure.tells_aggregate (List.forall_mem_nil _)) (List.forall_mem_nil _)
    | cons => exact .suspend .opening (List.forall_mem_nil _)
  | opening =>
    obtain ⟨initial, hinitial⟩ := exists_of_expectToken (.inl rfl) hr
    simp only [choice, chooseFrom, hinitial]
    by_cases hpos : 0 < ps.length
    · rw [dif_pos hpos, dif_pos (hlen ▸ hpos)]
      have hnone : ∀ g ∈ (none : Option (Furthest ι)), Furthest.Tells g := by simp
      have hzero : (⟨0, hlen ▸ hpos⟩ : Fin ps'.length).val = (⟨0, hpos⟩ : Fin ps.length).val := rfl
      exact mirrors_alternativeTurn hnone hzero (hstart _ _ hzero)
    · rw [dif_neg hpos, dif_neg (hlen ▸ hpos)]
      exact .fail (Failure.tells_aggregate (List.forall_mem_nil _)) (List.forall_mem_nil _)
  | running hi hbest hs => exact mirrors_alternativeTurn hbest hi (Mirrors.resume hs hr)
  | @measuring initial best i i' e hi hbest he =>
    obtain ⟨reached, hreached⟩ := exists_of_expectToken (.inl rfl) hr
    have hrecord := tells_record hbest reached he
    simp only [choice, chooseFrom, hreached]
    by_cases hmore : i.val + 1 < ps.length
    · have hmore' : i'.val + 1 < ps'.length := by omega
      rw [dif_pos hmore, dif_pos hmore']
      exact .suspend (.returning (congrArg (· + 1) hi) hrecord) (List.forall_mem_nil _)
    · have hmore' : ¬ i'.val + 1 < ps'.length := by omega
      rw [dif_neg hmore, dif_neg hmore']
      exact .suspend (.settling hrecord) (List.forall_mem_nil _)
  | returning hi hbest =>
    obtain ⟨k, hk⟩ := exists_of_expectToken (.inr ⟨_, rfl⟩) hr
    simp only [choice, chooseFrom, hk]
    exact mirrors_alternativeTurn (fun g hg => Option.some.inj hg ▸ hbest) hi (hstart _ _ hi)
  | settling hbest =>
    obtain ⟨k, hk⟩ := exists_of_expectToken (.inr ⟨_, rfl⟩) hr
    simp only [choice, chooseFrom, hk]
    exact .fail (tells_failure hbest) (List.forall_mem_nil _)

end Choice

/-! ## Repetition -/

section Repetition

open Repeating

/-- The states of two repetitions: they have come equally far with the same outputs, and in both a
run is under way or in none. -/
inductive Repeating.Mirrors (running : σ → τ → Standing → Prop) :
    Repeating α σ → Repeating α τ → Standing → Prop
  /-- Nothing was resumed yet. -/
  | start : Mirrors running .start .start .fresh
  /-- A run that must succeed is under way. -/
  | mandatory {left : Nat} {done : List α} {s : σ} {s' : τ} {st : Standing}
      (hs : running s s' st) :
      Mirrors running (.mandatory left done s) (.mandatory left done s') st
  /-- The token before an optional run was asked for. -/
  | checking {room last : Option Nat} {done : List α} :
      Mirrors running (.checking room last done) (.checking room last done) (.waiting .snapshot)
  /-- An optional run is under way. -/
  | optional {room : Option Nat} {checkpoint : Token} {done : List α} {s : σ} {s' : τ}
      {st : Standing} (hs : running s s' st) :
      Mirrors running (.optional room checkpoint done s) (.optional room checkpoint done s') st
  /-- A return to where a failed run began was asked for. -/
  | returning {done : List α} {k : Token} :
      Mirrors running (.returning done) (.returning done) (.waiting (.rollback k))

/-- Both repetitions ask for a checkpoint or complete. -/
theorem mirrors_proceed (running : σ → τ → Standing → Prop) (room last : Option Nat)
    (done : List α) :
    (proceed (ι := ι) (ν := ν) room last done).Mirrors (Repeating.Mirrors running)
      (proceed room last done) := by
  unfold proceed
  split
  · exact .complete nofun
  · exact .suspend .checking nofun

/-- After a run that must succeed both repetitions go on alike. -/
theorem mirrors_ofMandatory {running : σ → τ → Standing → Prop} (left : Nat) (done : List α)
    {onward : List α → Turn (Repeating α σ) ι ν (List α)}
    {onward' : List α → Turn (Repeating α τ) ι (Remark ι) (List α)}
    (honward : ∀ done, (onward done).Mirrors (Repeating.Mirrors running) (onward' done))
    {t : Turn σ ι ν α} {t' : Turn τ ι (Remark ι) α} (h : t.Mirrors running t') :
    (ofMandatory left done onward t).Mirrors (Repeating.Mirrors running)
      (ofMandatory left done onward' t') := by
  cases h with
  | suspend state notes => exact .suspend (.mandatory state) notes
  | complete notes => exact (honward _).after _ notes
  | fail failure notes => exact .fail failure notes

/-- Runs that start at once start in both repetitions. -/
theorem mirrors_demand (h : p.Mirrored p') (room : Option Nat) (left : Nat) (done : List α) :
    (demand p room left done).Mirrors (Repeating.Mirrors (p.Mirrors p'))
      (demand p' room left done) := by
  induction left generalizing done with
  | zero => exact mirrors_proceed _ room none done
  | succ left ih => exact mirrors_ofMandatory left done ih h.start

/-- After an optional run both repetitions go on alike. -/
theorem mirrors_ofOptional {running : σ → τ → Standing → Prop} (room : Option Nat)
    (checkpoint : Token) (done : List α) {t : Turn σ ι ν α} {t' : Turn τ ι (Remark ι) α}
    (h : t.Mirrors running t') :
    (ofOptional room checkpoint done t).Mirrors (Repeating.Mirrors running)
      (ofOptional room checkpoint done t') := by
  unfold ofOptional
  cases h with
  | suspend state notes => exact .suspend (.optional state) notes
  | complete notes => exact (mirrors_proceed _ _ _ _).after _ notes
  | @fail _ _ e _ _ failure notes =>
    by_cases he : e.isFatal
    · simp only [if_pos he]
      exact .fail failure notes
    · simp only [if_neg he]
      exact .suspend .returning notes

/-- Each run of a repetition is fresh, and what was told before it is not told to it. -/
theorem Mirrors.repetition (h : p.Mirrored p') (min : Nat) (max : Option Nat) :
    (p.repetition min max).Mirrored (p'.repetition min max) := by
  refine ⟨Repeating.Mirrors (p.Mirrors p'), .start, fun s s' st r hs hr => ?_⟩
  cases hs with
  | start =>
    cases min with
    | zero => exact mirrors_proceed _ _ none []
    | succ left => exact mirrors_ofMandatory left [] (mirrors_demand h _ left) (Mirrors.resume h hr)
  | mandatory hs => exact mirrors_ofMandatory _ _ (mirrors_demand h _ _) (Mirrors.resume hs hr)
  | @checking room last done =>
    obtain ⟨checkpoint, hcheckpoint⟩ := exists_of_expectToken (.inl rfl) hr
    simp only [Machine.repetition, hcheckpoint]
    split
    · exact .complete (List.forall_mem_nil _)
    · exact mirrors_ofOptional room checkpoint done h.start
  | optional hs => exact mirrors_ofOptional _ _ _ (Mirrors.resume hs hr)
  | returning =>
    obtain ⟨k, hk⟩ := exists_of_expectToken (.inr ⟨_, rfl⟩) hr
    simp only [Machine.repetition, hk]
    exact .complete (List.forall_mem_nil _)

end Repetition

end Machine

/-! ## Grammars -/

namespace Grammar

variable {ρ : Type → Type}

/-- The machine of a grammar in which the machine of every construction is watched. -/
def watchedMachine (called : (α : Type) → ρ α → Machine ι (Remark ι) α) : {α : Type} →
    Grammar ρ ι ν α → Machine ι (Remark ι) α
  | _, satisfy expected accepts => (Machine.satisfy expected accepts).watch
  | _, endOfInput => Machine.endOfInput.watch
  | _, ask q => (Machine.ask q).watch
  | _, pure a => (Machine.pure a).watch
  | _, map p f => ((p.watchedMachine called).map f).watch
  | _, pair p q => ((p.watchedMachine called).pair (q.watchedMachine called)).watch
  | _, all ps => (Machine.all (List.ofFn fun i => (ps i).watchedMachine called)).watch
  | _, choice ps => (Machine.choice (List.ofFn fun i => (ps i).watchedMachine called)).watch
  | _, repetition p min max => ((p.watchedMachine called).repetition min max).watch
  | _, bind p f => ((p.watchedMachine called).bind fun a => (f a).watchedMachine called).watch
  | _, rescue p handler =>
    ((p.watchedMachine called).rescue fun e => (handler e).watchedMachine called).watch
  | _, recoverWith p q =>
    ((p.watchedMachine called).recoverWith (q.watchedMachine called)).watch
  | _, fatal p => (p.watchedMachine called).fatal.watch
  | _, label p construct => ((p.watchedMachine called).label construct).watch
  | _, call rule => (Machine.deferred fun _ => called _ rule).watch
  | _, tap p _ => (p.watchedMachine called).watch
  | _, custom m => m.silent.watch

/-- The watched machine of a rule whose calls are unfolded to the given depth. -/
def watchedRule (rules : RuleBook ρ ι ν) : Nat → (α : Type) → ρ α → Machine ι (Remark ι) α
  | 0, _, _ => Machine.stalled.watch
  | depth + 1, α, rule => (rules α rule).watchedMachine (watchedRule rules depth)

/-- The parser that a grammar describes, with the machine of every construction watched. -/
def watchedParser (rules : RuleBook ρ ι ν) (depth : Nat) (g : Grammar ρ ι ν α) :
    Machine ι (Remark ι) α :=
  g.watchedMachine (watchedRule rules depth)

/-- No machine made by hand occurs in the grammar, nor in what its continuations build. -/
def Composed : {α : Type} → Grammar ρ ι ν α → Prop
  | _, satisfy _ _ => True
  | _, endOfInput => True
  | _, ask _ => True
  | _, pure _ => True
  | _, map p _ => p.Composed
  | _, pair p q => p.Composed ∧ q.Composed
  | _, all ps => ∀ i, (ps i).Composed
  | _, choice ps => ∀ i, (ps i).Composed
  | _, repetition p _ _ => p.Composed
  | _, bind p f => p.Composed ∧ ∀ a, (f a).Composed
  | _, rescue p handler => p.Composed ∧ ∀ e, (handler e).Composed
  | _, recoverWith p q => p.Composed ∧ q.Composed
  | _, fatal p => p.Composed
  | _, label p _ => p.Composed
  | _, call _ => True
  | _, tap p _ => p.Composed
  | _, custom _ => False

/-- Without machines made by hand a grammar may still return to tokens. -/
theorem Plain.composed {g : Grammar ρ ι ν α} (hg : g.Plain) : g.Composed := by
  induction g with
  | satisfy | endOfInput | ask | pure | call => trivial
  | map _ _ ih | repetition _ _ _ ih | fatal _ ih | label _ _ ih | tap _ _ ih => exact ih hg
  | pair _ _ ihp ihq | recoverWith _ _ ihp ihq => exact ⟨ihp hg.1, ihq hg.2⟩
  | all _ ih | choice _ ih => exact fun i => ih i (hg i)
  | bind _ _ ihp ihf | rescue _ _ ihp ihf => exact ⟨ihp hg.1, fun a => ihf a (hg.2 a)⟩
  | custom => exact hg.elim

/-- A grammar's machine is in step with the watched one if the machines of its rules are. -/
theorem machine_mirrored {machines : (α : Type) → ρ α → Machine ι ν α}
    {watched : (α : Type) → ρ α → Machine ι (Remark ι) α}
    (h : ∀ α rule, (machines α rule).Mirrored (watched α rule)) {g : Grammar ρ ι ν α}
    (hg : g.Composed) : (g.machine machines).Mirrored (g.watchedMachine watched) := by
  -- one case for each construction, which is watched around its watched parts
  induction g with
  | satisfy expected accepts => exact (Machine.mirrored_satisfy expected accepts).watch
  | endOfInput => exact Machine.mirrored_endOfInput.watch
  | ask q => exact (Machine.mirrored_ask q).watch
  | pure a => exact (Machine.mirrored_pure a).watch
  | map p f ih => exact ((ih hg).map f).watch
  | pair p q ihp ihq => exact ((ihp hg.1).pair (ihq hg.2)).watch
  | all ps ih => exact (Machine.mirrored_all (forall₂_ofFn fun i => ih i (hg i))).watch
  | choice ps ih => exact (Machine.mirrored_choice (forall₂_ofFn fun i => ih i (hg i))).watch
  | repetition p min max ih => exact ((ih hg).repetition min max).watch
  | bind p f ihp ihf => exact ((ihp hg.1).bind fun a => ihf a (hg.2 a)).watch
  | rescue p handler ihp ihh => exact ((ihp hg.1).rescue fun e => ihh e (hg.2 e)).watch
  | recoverWith p q ihp ihq => exact ((ihp hg.1).recoverWith (ihq hg.2)).watch
  | fatal p ih => exact ((ih hg).changeFailure (f := Failure.toFatal) fun _ => rfl).watch
  | label p construct ih =>
    exact ((ih hg).changeFailure (f := (·.whileParsing construct))
      fun e => e.cause_withContext _).watch
  | call rule => exact (h _ rule).deferred.watch
  | tap p mark ih => exact ((ih hg).tap mark).watch
  | custom m => exact hg.elim

end Grammar

/-- No rule of the book uses a machine made by hand. -/
def RuleBook.Composed {ρ : Type → Type} (rules : RuleBook ρ ι ν) : Prop :=
  ∀ α rule, (rules α rule).Composed

/-- Plain rules use no machines made by hand. -/
theorem RuleBook.Plain.composed {ρ : Type → Type} {rules : RuleBook ρ ι ν} (h : rules.Plain) :
    rules.Composed := fun α rule => (h α rule).composed

namespace Grammar

variable {ρ : Type → Type}

/-- However deep rules are unfolded, their machines are in step with the watched ones. -/
theorem ruleMachine_mirrored {rules : RuleBook ρ ι ν} (hrules : rules.Composed) (depth : Nat)
    (α : Type) (rule : ρ α) :
    (ruleMachine rules depth α rule).Mirrored (watchedRule rules depth α rule) := by
  induction depth generalizing α with
  | zero => exact Machine.mirrored_stalled.watch
  | succ depth ih => exact machine_mirrored (fun α rule => ih α rule) (hrules α rule)

/-- The parser of a grammar without machines made by hand mirrors its watched one. -/
theorem parser_mirrored {rules : RuleBook ρ ι ν} (hrules : rules.Composed) (depth : Nat)
    {g : Grammar ρ ι ν α} (hg : g.Composed) :
    (g.parser rules depth).Mirrored (g.watchedParser rules depth) :=
  machine_mirrored (ruleMachine_mirrored hrules depth) hg

end Grammar

end ResumableParsing

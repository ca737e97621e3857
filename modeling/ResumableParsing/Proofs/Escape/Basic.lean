/-
# Fatal failures escape

When a computation is resumed it may resume computations inside it, and these may resume others.
`Resumes` says which machines a machine resumes directly, in which state and with which answer, and
`Reaches` follows this inwards through any number of machines.  If one of the machines that are
reached comes to a fatal failure, every machine around it comes to that failure in the same
resumption: its cause stays, it remains fatal, and it is put into the context of the innermost label
around it unless it has one.  Nothing is resumed after it, and an engine ends where the cursor is.
-/
import ResumableParsing.Proofs.Descent.Choice
import ResumableParsing.Proofs.Descent.Repetition
import ResumableParsing.Proofs.Engine.Step

namespace ResumableParsing

variable {ι ν α β κ σ τ : Type}

namespace Machine

/-! ## Machines that resume others -/

/-- Resumed in a state with an answer, the first machine resumes the second in a state with an
answer; in between there may be a label. -/
inductive Resumes : {α β : Type} → (m : Machine ι ν β) → m.State → Option (Response ι) →
    Option String → (p : Machine ι ν α) → p.State → Option (Response ι) → Prop where
  /-- A machine whose output is changed. -/
  | map {α β : Type} (p : Machine ι ν α) (f : α → β) (s : p.State) (r : Option (Response ι)) :
      Resumes (p.map f) s r none p s r
  /-- A machine whose failures are made fatal. -/
  | fatal {α : Type} (p : Machine ι ν α) (s : p.State) (r : Option (Response ι)) :
      Resumes p.fatal s r none p s r
  /-- A machine whose failures are told what was being parsed. -/
  | label {α : Type} (p : Machine ι ν α) (construct : String) (s : p.State)
      (r : Option (Response ι)) : Resumes (p.label construct) s r (some construct) p s r
  /-- A machine that is built when it is needed. -/
  | deferred {α : Type} (build : Unit → Machine ι ν α) (s : Option (build ()).State)
      (r : Option (Response ι)) :
      Resumes (deferred build) s r none (build ()) (s.getD (build ()).init) r
  /-- The first machine of a pair. -/
  | first {α β : Type} (p : Machine ι ν α) (q : Machine ι ν β) (s : p.State)
      (r : Option (Response ι)) : Resumes (p.pair q) (.first s) r none p s r
  /-- The second machine of a pair, once the first has completed. -/
  | secondStarts {α β : Type} (p : Machine ι ν α) (q : Machine ι ν β) {s : p.State}
      {r : Option (Response ι)} {a : α} (completes : (p.resume s r).resumed = .complete a) :
      Resumes (p.pair q) (.first s) r none q q.init none
  /-- The second machine of a pair. -/
  | second {α β : Type} (p : Machine ι ν α) (q : Machine ι ν β) (a : Option α) (s : q.State)
      (r : Option (Response ι)) : Resumes (p.pair q) (.second a s) r none q s r
  /-- The first machine of a list. -/
  | head {α : Type} (p : Machine ι ν α) (rest : Machine ι ν (List α)) (s : p.State)
      (r : Option (Response ι)) : Resumes (p.cons rest) (.inl s) r none p s r
  /-- The machines behind it, once it has completed. -/
  | tailStarts {α : Type} (p : Machine ι ν α) (rest : Machine ι ν (List α)) {s : p.State}
      {r : Option (Response ι)} {a : α} (completes : (p.resume s r).resumed = .complete a) :
      Resumes (p.cons rest) (.inl s) r none rest rest.init none
  /-- The machines behind it. -/
  | tail {α : Type} (p : Machine ι ν α) (rest : Machine ι ν (List α)) (a : α) (s : rest.State)
      (r : Option (Response ι)) : Resumes (p.cons rest) (.inr (a, s)) r none rest s r
  /-- The whole list, which starts over once it has completed. -/
  | rewinding {α : Type} (p : Machine ι ν α) (s : p.State) (r : Option (Response ι)) :
      Resumes p.rewinding s r none p s r
  /-- The machine whose output is asked what goes on. -/
  | leader {α β : Type} (p : Machine ι ν α) (f : α → Machine ι ν β) (s : p.State)
      (r : Option (Response ι)) : Resumes (p.bind f) (.inl s) r none p s r
  /-- The machine that goes on, once the first has completed. -/
  | followerStarts {α β : Type} (p : Machine ι ν α) (f : α → Machine ι ν β) {s : p.State}
      {r : Option (Response ι)} {a : α} (completes : (p.resume s r).resumed = .complete a) :
      Resumes (p.bind f) (.inl s) r none (f a) (f a).init none
  /-- The machine that goes on. -/
  | follower {α β : Type} (p : Machine ι ν α) (f : α → Machine ι ν β) (a : α) (s : (f a).State)
      (r : Option (Response ι)) : Resumes (p.bind f) (.inr ⟨a, s⟩) r none (f a) s r
  /-- A machine whose recoverable failures are handled. -/
  | guarded {α : Type} (p : Machine ι ν α) (handler : Failure ι → Machine ι ν α) (s : p.State)
      (r : Option (Response ι)) : Resumes (p.rescue handler) (.inl s) r none p s r
  /-- The machine built from a recoverable failure. -/
  | handlerStarts {α : Type} (p : Machine ι ν α) (handler : Failure ι → Machine ι ν α)
      {s : p.State} {r : Option (Response ι)} {e : Failure ι}
      (fails : (p.resume s r).resumed = .fail e) (recoverable : e.isFatal = false) :
      Resumes (p.rescue handler) (.inl s) r none (handler e) (handler e).init none
  /-- The machine that handles a failure. -/
  | handler {α : Type} (p : Machine ι ν α) (handler : Failure ι → Machine ι ν α) (e : Failure ι)
      (s : (handler e).State) (r : Option (Response ι)) :
      Resumes (p.rescue handler) (.inr ⟨e, s⟩) r none (handler e) s r
  /-- A machine with another one to fall back on. -/
  | preferred {α : Type} (p q : Machine ι ν α) (s : p.State) (r : Option (Response ι)) :
      Resumes (p.recoverWith q) (.inl s) r none p s r
  /-- The machine to fall back on, once the first has failed recoverably. -/
  | fallbackStarts {α : Type} (p q : Machine ι ν α) {s : p.State} {r : Option (Response ι)}
      {e : Failure ι} (fails : (p.resume s r).resumed = .fail e)
      (recoverable : e.isFatal = false) :
      Resumes (p.recoverWith q) (.inl s) r none q q.init none
  /-- The machine that has been fallen back on. -/
  | fallback {α : Type} (p q : Machine ι ν α) (s : q.State) (r : Option (Response ι)) :
      Resumes (p.recoverWith q) (.inr ⟨(), s⟩) r none q s r
  /-- The first alternative of a choice, once the place of the choice is known. -/
  | opens {α : Type} {ps : List (Machine ι ν α)} (h : 0 < ps.length) {r : Option (Response ι)}
      {initial : Token} (told : (expectToken r : Except (Failure ι) Token) = .ok initial) :
      Resumes (choice ps) .opening r none (ps.get ⟨0, h⟩) (ps.get ⟨0, h⟩).init none
  /-- An alternative of a choice. -/
  | alternative {α : Type} (ps : List (Machine ι ν α)) (initial : Token)
      (best : Option (Furthest ι)) (i : Fin ps.length) (s : (ps.get i).State)
      (r : Option (Response ι)) :
      Resumes (choice ps) (.running initial best i s) r none (ps.get i) s r
  /-- The next alternative of a choice, once the cursor is back. -/
  | alternativeStarts {α : Type} (ps : List (Machine ι ν α)) (initial : Token)
      (best : Furthest ι) (i : Fin ps.length) {r : Option (Response ι)} {t : Token}
      (told : (expectToken r : Except (Failure ι) Token) = .ok t) :
      Resumes (choice ps) (.returning initial best i) r none (ps.get i) (ps.get i).init none
  /-- The first run of a repetition that must succeed. -/
  | demands {α : Type} (p : Machine ι ν α) (left : Nat) (max : Option Nat)
      (r : Option (Response ι)) : Resumes (p.repetition (left + 1) max) .start r none p p.init r
  /-- A further run that must succeed, when the first has completed at once. -/
  | demandsMore {α : Type} (p : Machine ι ν α) (left : Nat) (max : Option Nat)
      {r : Option (Response ι)} {a : α} (completes : (p.resume p.init r).resumed = .complete a) :
      Resumes (p.repetition (left + 2) max) .start r none p p.init none
  /-- A run that must succeed. -/
  | mandatory {α : Type} (p : Machine ι ν α) (min : Nat) (max : Option Nat) (left : Nat)
      (done : List α) (s : p.State) (r : Option (Response ι)) :
      Resumes (p.repetition min max) (.mandatory left done s) r none p s r
  /-- A further run that must succeed. -/
  | mandatoryStarts {α : Type} (p : Machine ι ν α) (min : Nat) (max : Option Nat) (left : Nat)
      (done : List α) {s : p.State} {r : Option (Response ι)} {a : α}
      (completes : (p.resume s r).resumed = .complete a) :
      Resumes (p.repetition min max) (.mandatory (left + 1) done s) r none p p.init none
  /-- An optional run of a repetition, once its checkpoint is known and is not the last one. -/
  | optionalStarts {α : Type} (p : Machine ι ν α) (min : Nat) (max : Option Nat)
      {room last : Option Nat} (done : List α) {r : Option (Response ι)} {checkpoint : Token}
      (told : (expectToken r : Except (Failure ι) Token) = .ok checkpoint)
      (goes : ¬ (room = none ∧ last = some checkpoint.offset)) :
      Resumes (p.repetition min max) (.checking room last done) r none p p.init none
  /-- An optional run. -/
  | optional {α : Type} (p : Machine ι ν α) (min : Nat) (max : Option Nat) (room : Option Nat)
      (checkpoint : Token) (done : List α) (s : p.State) (r : Option (Response ι)) :
      Resumes (p.repetition min max) (.optional room checkpoint done s) r none p s r

/-- Resumed in a state with an answer, the first machine comes to resume the last one in a state
with an answer, through any number of machines; the labels in between are listed from the inside. -/
inductive Reaches : {α β : Type} → (m : Machine ι ν β) → m.State → Option (Response ι) →
    List String → (p : Machine ι ν α) → p.State → Option (Response ι) → Prop where
  /-- The machine itself. -/
  | here {α : Type} (m : Machine ι ν α) (s : m.State) (r : Option (Response ι)) :
      Reaches m s r [] m s r
  /-- A machine that is reached by one that is resumed. -/
  | inside {α β κ : Type} {m : Machine ι ν κ} {p : Machine ι ν β} {q : Machine ι ν α} {S : m.State}
      {s : p.State} {s' : q.State} {R r r' : Option (Response ι)} {label : Option String}
      {labels : List String} (resumes : Resumes m S R label p s r)
      (reaches : Reaches p s r labels q s' r') :
      Reaches m S R (labels ++ label.toList) q s' r'

end Machine

/-! ## The way out of a fatal failure -/

namespace Failure

/-- The failure in a context, unless it has one. -/
def inContext (f : Failure ι) (context : Option String) : Failure ι :=
  { f with context := f.context.or context }

@[simp] theorem inContext_none (f : Failure ι) : f.inContext none = f := by
  obtain ⟨cause, severity, context⟩ := f
  rw [inContext, Option.or_none]

/-- Of two contexts the inner one counts. -/
theorem inContext_inContext (f : Failure ι) (c d : Option String) :
    (f.inContext c).inContext d = f.inContext (c.or d) := by
  simp only [inContext, Option.or_assoc]

@[simp] theorem isFatal_inContext (f : Failure ι) (c : Option String) :
    (f.inContext c).isFatal = f.isFatal := rfl

/-- A fatal failure cannot be made more fatal. -/
theorem toFatal_of_isFatal {f : Failure ι} (h : f.isFatal = true) : f.toFatal = f := by
  obtain ⟨cause, severity, context⟩ := f
  obtain rfl : severity = .fatal := of_decide_eq_true h
  rfl

/-- A label puts a failure into a context that says what was being parsed. -/
theorem whileParsing_eq (f : Failure ι) (construct : String) :
    f.whileParsing construct = f.inContext (some ("while parsing " ++ construct)) := by
  obtain ⟨cause, severity, context⟩ := f
  cases context <;> rfl

end Failure

/-- The turn comes to the failure and notes nothing more. -/
structure Turn.Escapes (t : Turn σ ι ν α) (f : Failure ι) (notes : List ν) : Prop where
  /-- The turn fails. -/
  fails : t.resumed = .fail f
  /-- Nothing is noted behind what was noted when the failure arose. -/
  notes : notes <:+ t.notes

/-- What was noted before the turn stands before its notes. -/
theorem Turn.Escapes.after {t : Turn σ ι ν α} {f : Failure ι} {notes : List ν}
    (h : t.Escapes f notes) (before : List ν) : (t.after before).Escapes f notes :=
  ⟨h.fails, h.notes.trans (List.suffix_append _ _)⟩

/-- It does not matter in which state the turn leaves the machine. -/
theorem Turn.Escapes.within {t : Turn σ ι ν α} {f : Failure ι} {notes : List ν}
    (h : t.Escapes f notes) (embed : σ → τ) : (t.within embed).Escapes f notes :=
  ⟨h.fails, h.notes⟩

namespace Machine

/-! ### Turns of machines that run others -/

section Turns

variable {f : Failure ι}

/-- The changed failure comes out. -/
theorem escapes_changeFailure {p : Machine ι ν α} {change : Failure ι → Failure ι} {s : p.State}
    {r : Option (Response ι)} (hf : (p.resume s r).resumed = .fail f) :
    ((p.changeFailure change).resume s r).Escapes (change f) (p.resume s r).notes := by
  refine ⟨?_, List.suffix_rfl⟩
  show mapFailure change _ = _
  rw [hf]
  rfl

/-- An output is changed, a failure is not. -/
theorem escapes_map {p : Machine ι ν α} {g : α → β} {s : p.State} {r : Option (Response ι)}
    (hf : (p.resume s r).resumed = .fail f) :
    ((p.map g).resume s r).Escapes f (p.resume s r).notes := by
  refine ⟨?_, List.suffix_rfl⟩
  show mapOutput g _ = _
  rw [hf]
  rfl

/-- The second machine of a pair fails. -/
theorem escapes_pairSecond {a : Option α} {t : Turn τ ι ν β} (hf : t.resumed = .fail f) :
    (pairSecond a t : Turn (Pairing σ α τ) ι ν (α × β)).Escapes f t.notes := by
  unfold pairSecond
  rw [hf]
  exact ⟨rfl, List.suffix_rfl⟩

/-- The first machine of a pair fails, and the second does not start. -/
theorem escapes_pairTurn {p : Machine ι ν α} {q : Machine ι ν β} {t : Turn p.State ι ν α}
    (hf : t.resumed = .fail f) : (pairTurn p q t).Escapes f t.notes := by
  unfold pairTurn
  rw [hf]
  exact ⟨rfl, List.suffix_rfl⟩

/-- The second machine of a pair fails as soon as it starts. -/
theorem escapes_pairTurn_of_complete {p : Machine ι ν α} {q : Machine ι ν β}
    {t : Turn p.State ι ν α} {a : α} (completes : t.resumed = .complete a)
    (hf : q.start.resumed = .fail f) : (pairTurn p q t).Escapes f q.start.notes := by
  unfold pairTurn
  rw [completes]
  exact (escapes_pairSecond hf).after t.notes

theorem escapes_consTail {a : α} {t : Turn τ ι ν (List α)} (hf : t.resumed = .fail f) :
    (consTail a t : Turn (σ ⊕ α × τ) ι ν (List α)).Escapes f t.notes := by
  refine ⟨?_, List.suffix_rfl⟩
  show mapOutput (a :: ·) t.resumed = _
  rw [hf]
  rfl

/-- The first machine of a list fails, and nothing behind it starts. -/
theorem escapes_consTurn {p : Machine ι ν α} {rest : Machine ι ν (List α)}
    {t : Turn p.State ι ν α} (hf : t.resumed = .fail f) :
    (consTurn p rest t).Escapes f t.notes := by
  unfold consTurn
  rw [hf]
  exact ⟨rfl, List.suffix_rfl⟩

/-- What is behind the first machine of a list fails as soon as it starts. -/
theorem escapes_consTurn_of_complete {p : Machine ι ν α} {rest : Machine ι ν (List α)}
    {t : Turn p.State ι ν α} {a : α} (completes : t.resumed = .complete a)
    (hf : rest.start.resumed = .fail f) : (consTurn p rest t).Escapes f rest.start.notes := by
  unfold consTurn
  rw [completes]
  exact (escapes_consTail hf).after t.notes

/-- A list starts over once it has completed, not when it fails. -/
theorem escapes_rewindingTurn {p : Machine ι ν α} {t : Turn p.State ι ν α}
    (hf : t.resumed = .fail f) : (rewindingTurn p t).Escapes f t.notes := by
  unfold rewindingTurn
  rw [hf]
  exact ⟨rfl, List.suffix_rfl⟩

section Relays

variable {p : Machine ι ν α} {completed : α → Next κ ι β} {failed : Failure ι → Next κ ι β}
  {next : κ → Machine ι ν β} {s : p.State} {r : Option (Response ι)} {k : κ}

/-- The first machine of a relay fails, and the failure calls for no machine. -/
theorem escapes_relay (hf : (p.resume s r).resumed = .fail f) (passes : failed f = .fail f) :
    ((p.relay completed failed next).resume (.inl s) r).Escapes f (p.resume s r).notes := by
  show (relayTurn p completed failed next (p.resume s r)).Escapes f (p.resume s r).notes
  rw [relayTurn_of_fail hf, passes]
  exact ⟨rfl, List.suffix_rfl⟩

/-- The machine that takes over fails in the turn in which the one before it ended. -/
theorem escapes_start {t : Turn p.State ι ν α} (hf : (next k).start.resumed = .fail f) :
    ((Next.start k).turn p completed failed next t).Escapes f (next k).start.notes := by
  have hstart : (next k).start.Escapes f (next k).start.notes := ⟨hf, List.suffix_rfl⟩
  exact (hstart.within _).after t.notes

/-- The machine that an output calls for fails as soon as it starts. -/
theorem escapes_relay_of_complete {a : α} (completes : (p.resume s r).resumed = .complete a)
    (calls : completed a = .start k) (hf : (next k).start.resumed = .fail f) :
    ((p.relay completed failed next).resume (.inl s) r).Escapes f (next k).start.notes := by
  show (relayTurn p completed failed next (p.resume s r)).Escapes f (next k).start.notes
  rw [relayTurn_of_complete completes, calls]
  exact escapes_start hf

/-- The machine that a failure calls for fails as soon as it starts. -/
theorem escapes_relay_of_fail {e : Failure ι} (fails : (p.resume s r).resumed = .fail e)
    (calls : failed e = .start k) (hf : (next k).start.resumed = .fail f) :
    ((p.relay completed failed next).resume (.inl s) r).Escapes f (next k).start.notes := by
  show (relayTurn p completed failed next (p.resume s r)).Escapes f (next k).start.notes
  rw [relayTurn_of_fail fails, calls]
  exact escapes_start hf

/-- The machine that has taken over fails. -/
theorem escapes_relay_next {s : (next k).State} (hf : ((next k).resume s r).resumed = .fail f) :
    ((p.relay completed failed next).resume (.inr ⟨k, s⟩) r).Escapes f
      ((next k).resume s r).notes := by
  have hnext : ((next k).resume s r).Escapes f ((next k).resume s r).notes :=
    ⟨hf, List.suffix_rfl⟩
  exact hnext.within fun s => (.inr ⟨k, s⟩ : (p.relay completed failed next).State)

end Relays

/-- An alternative fails fatally, and the choice tries no other. -/
theorem escapes_alternativeTurn {ps : List (Machine ι ν α)} {initial : Token}
    {best : Option (Furthest ι)} {i : Fin ps.length} {t : Turn (ps.get i).State ι ν α}
    (hf : t.resumed = .fail f) (hfatal : f.isFatal = true) :
    (alternativeTurn ps initial best i t).Escapes f t.notes := by
  unfold alternativeTurn Choosing.ofTurn
  simp only [hf, if_pos hfatal]
  exact ⟨rfl, List.suffix_rfl⟩

/-- The first alternative of a choice fails as soon as it starts. -/
theorem escapes_choice_opening {ps : List (Machine ι ν α)} (h : 0 < ps.length)
    {r : Option (Response ι)} {initial : Token}
    (told : (expectToken r : Except (Failure ι) Token) = .ok initial)
    (hf : (ps.get ⟨0, h⟩).start.resumed = .fail f) (hfatal : f.isFatal = true) :
    ((choice ps).resume .opening r).Escapes f (ps.get ⟨0, h⟩).start.notes := by
  have hturn : (choice ps).resume .opening r =
      alternativeTurn ps initial none ⟨0, h⟩ (ps.get ⟨0, h⟩).start := by
    show chooseFrom ps .opening r = _
    rw [chooseFrom, told]
    exact dif_pos h
  rw [hturn]
  exact escapes_alternativeTurn hf hfatal

/-- A further alternative of a choice fails as soon as it starts. -/
theorem escapes_choice_returning {ps : List (Machine ι ν α)} {initial : Token}
    {best : Furthest ι} {i : Fin ps.length} {r : Option (Response ι)} {t : Token}
    (told : (expectToken r : Except (Failure ι) Token) = .ok t)
    (hf : (ps.get i).start.resumed = .fail f) (hfatal : f.isFatal = true) :
    ((choice ps).resume (.returning initial best i) r).Escapes f (ps.get i).start.notes := by
  have hturn : (choice ps).resume (.returning initial best i) r =
      alternativeTurn ps initial (some best) i (ps.get i).start := by
    show chooseFrom ps (.returning initial best i) r = _
    rw [chooseFrom, told]
    rfl
  rw [hturn]
  exact escapes_alternativeTurn hf hfatal

/-- A run that must succeed fails, and the repetition with it. -/
theorem escapes_ofMandatory {left : Nat} {done : List α}
    {onward : List α → Turn (Repeating α σ) ι ν (List α)} {t : Turn σ ι ν α}
    (hf : t.resumed = .fail f) : (Repeating.ofMandatory left done onward t).Escapes f t.notes := by
  unfold Repeating.ofMandatory
  rw [hf]
  exact ⟨rfl, List.suffix_rfl⟩

/-- A run that must succeed fails in the turn in which the one before it ended. -/
theorem escapes_demand {p : Machine ι ν α} {room : Option Nat} {left left' : Nat} {done : List α}
    {t : Turn p.State ι ν α} {a : α} (completes : t.resumed = .complete a)
    (hf : p.start.resumed = .fail f) :
    (Repeating.ofMandatory left' done (Repeating.demand p room (left + 1)) t).Escapes f
      p.start.notes := by
  unfold Repeating.ofMandatory
  rw [completes]
  have hdemand : (Repeating.demand p room (left + 1) (a :: done)).Escapes f p.start.notes :=
    escapes_ofMandatory hf
  exact hdemand.after t.notes

/-- An optional run fails fatally, and this does not end the repetition as a recoverable failure
would. -/
theorem escapes_ofOptional {room : Option Nat} {checkpoint : Token} {done : List α}
    {t : Turn σ ι ν α} (hf : t.resumed = .fail f) (hfatal : f.isFatal = true) :
    (Repeating.ofOptional room checkpoint done t).Escapes f t.notes := by
  unfold Repeating.ofOptional
  simp only [hf, if_pos hfatal]
  exact ⟨rfl, List.suffix_rfl⟩

/-- An optional run of a repetition fails as soon as it starts. -/
theorem escapes_repetition_checking {p : Machine ι ν α} {min : Nat} {max room last : Option Nat}
    {done : List α} {r : Option (Response ι)} {checkpoint : Token}
    (told : (expectToken r : Except (Failure ι) Token) = .ok checkpoint)
    (goes : ¬ (room = none ∧ last = some checkpoint.offset)) (hf : p.start.resumed = .fail f)
    (hfatal : f.isFatal = true) :
    ((p.repetition min max).resume (.checking room last done) r).Escapes f p.start.notes := by
  have hturn : (p.repetition min max).resume (.checking room last done) r =
      Repeating.ofOptional room checkpoint done p.start := by
    simp only [repetition, told, if_neg goes]
  rw [hturn]
  exact escapes_ofOptional hf hfatal

end Turns

/-! ### From a machine to those around it -/

/-- The context of a label. -/
def labelContext (label : Option String) : Option String := label.map ("while parsing " ++ ·)

/-- Unless there is a label, a machine that resumes one that fails fatally fails with it as it
is. -/
theorem Resumes.escapes_of_none {m : Machine ι ν β} {n : Machine ι ν α} {S : m.State} {s : n.State}
    {R r : Option (Response ι)} (h : Resumes m S R none n s r) {f : Failure ι}
    (hf : (n.resume s r).resumed = .fail f) (hfatal : f.isFatal = true) :
    (m.resume S R).Escapes f (n.resume s r).notes := by
  -- one case for each way in which a machine is resumed
  cases h with
  | fatal =>
    rw [← f.toFatal_of_isFatal hfatal]
    exact escapes_changeFailure hf
  | map => exact escapes_map hf
  | deferred => exact Turn.Escapes.within ⟨hf, List.suffix_rfl⟩ some
  | first => exact escapes_pairTurn hf
  | secondStarts p q completes => exact escapes_pairTurn_of_complete completes hf
  | second => exact escapes_pairSecond hf
  | head => exact escapes_consTurn hf
  | tailStarts p rest completes => exact escapes_consTurn_of_complete completes hf
  | tail => exact escapes_consTail hf
  | rewinding => exact escapes_rewindingTurn hf
  | leader => exact escapes_relay hf rfl
  | followerStarts p g completes => exact escapes_relay_of_complete completes rfl hf
  | follower => exact escapes_relay_next hf
  -- only a recoverable failure has a handler started
  | guarded => exact escapes_relay hf (if_pos hfatal)
  | handlerStarts p handler fails recoverable =>
    exact escapes_relay_of_fail fails (if_neg (ne_true_of_eq_false recoverable)) hf
  | handler => exact escapes_relay_next hf
  | preferred => exact escapes_relay hf (if_pos hfatal)
  | fallbackStarts p q fails recoverable =>
    exact escapes_relay_of_fail fails (if_neg (ne_true_of_eq_false recoverable)) hf
  | fallback => exact escapes_relay_next hf
  | opens h told => exact escapes_choice_opening h told hf hfatal
  | alternative => exact escapes_alternativeTurn hf hfatal
  | alternativeStarts ps initial best i told => exact escapes_choice_returning told hf hfatal
  | demands => exact escapes_ofMandatory hf
  | demandsMore p left max completes => exact escapes_demand completes hf
  | mandatory => exact escapes_ofMandatory hf
  | mandatoryStarts p min max left done completes => exact escapes_demand completes hf
  | optionalStarts p min max done told goes => exact escapes_repetition_checking told goes hf hfatal
  | optional => exact escapes_ofOptional hf hfatal

/-- A machine that resumes one that fails fatally fails with it, in the context of the label if
there is one in between. -/
theorem Resumes.escapes {m : Machine ι ν β} {n : Machine ι ν α} {S : m.State} {s : n.State}
    {R r : Option (Response ι)} {label : Option String} (h : Resumes m S R label n s r)
    {f : Failure ι} (hf : (n.resume s r).resumed = .fail f) (hfatal : f.isFatal = true) :
    (m.resume S R).Escapes (f.inContext (labelContext label)) (n.resume s r).notes := by
  cases label with
  | none =>
    have hkeeps : f.inContext (labelContext none) = f := f.inContext_none
    rw [hkeeps]
    exact h.escapes_of_none hf hfatal
  | some construct =>
    have hcontext : f.inContext (labelContext (some construct)) = f.whileParsing construct :=
      (f.whileParsing_eq construct).symm
    rw [hcontext]
    cases h
    exact escapes_changeFailure hf

/-- Of the labels on the way, a further one is asked only if there was none before. -/
theorem labelContext_head? (labels : List String) (label : Option String) :
    (labelContext labels.head?).or (labelContext label) =
      labelContext (labels ++ label.toList).head? := by
  rw [labelContext, labelContext, labelContext, ← Option.map_or, List.head?_append]
  cases label <;> rfl

/-- Every machine that reaches one that fails fatally fails with it, in the context of the innermost
label in between. -/
theorem Reaches.escapes {m : Machine ι ν β} {n : Machine ι ν α} {S : m.State} {s : n.State}
    {R r : Option (Response ι)} {labels : List String} (h : Reaches m S R labels n s r)
    {f : Failure ι} (hf : (n.resume s r).resumed = .fail f) (hfatal : f.isFatal = true) :
    (m.resume S R).Escapes (f.inContext (labelContext labels.head?)) (n.resume s r).notes := by
  -- the induction is on the way inwards; the failure takes it outwards
  induction h with
  | here m s r =>
    have hkeeps : f.inContext (labelContext none) = f := f.inContext_none
    rw [List.head?_nil, hkeeps]
    exact ⟨hf, List.suffix_rfl⟩
  | inside resumes reaches ih =>
    have hinner := ih hf
    have houter := resumes.escapes hinner.fails hfatal
    rw [Failure.inContext_inContext, labelContext_head?] at houter
    exact ⟨houter.fails, hinner.notes.trans houter.notes⟩

end Machine

/-! ## The end of the engine -/

namespace Engine

variable {m : Machine ι ν β}

/-- A failure of the session's computation ends the engine, with the cursor where it is. -/
theorem step_of_fail {e : Engine m} (running : e.aborted = false) {s : Session m}
    (opens : e.openSession = some s) {c : Nat} {r : Option (Response ι)} {ev : List (Event ι β)}
    (answered : s.answer e.window e.finished = .ready c r ev) {f : Failure ι}
    (fails : (m.resume s.state r).resumed = .fail f) :
    e.step = ⟨(e.opened s).abort, ev, (m.resume s.state r).notes, .error (.failure f c)⟩ := by
  rw [step_of_openSession (by simp [running]) opens, answered]
  simp only [Engine.resume, fails]

end Engine

/-! ## Fatal failures -/

namespace Machine

/-- Whenever a machine that is reached comes to a fatal failure, the outermost machine comes to it
in the same resumption, in the context that the failure has, or else of the innermost label in
between.  Nothing is noted after it, so no machine that notes its resumptions is resumed after it,
and an engine that resumes the outermost machine ends with the failure where the cursor is. -/
theorem fatal_failure_escapes {m : Machine ι ν β} {n : Machine ι ν α} {S : m.State} {s : n.State}
    {R r : Option (Response ι)} {labels : List String} (h : Reaches m S R labels n s r)
    {f : Failure ι} (hf : (n.resume s r).resumed = .fail f) (hfatal : f.isFatal = true) :
    ∃ f' : Failure ι, f'.isFatal = true ∧ f'.cause = f.cause ∧
      f'.context = f.context.or (labels.head?.map ("while parsing " ++ ·)) ∧
      (m.resume S R).resumed = .fail f' ∧ (n.resume s r).notes <:+ (m.resume S R).notes ∧
      ∀ (e : Engine m) (session : Session m) (c : Nat) (ev : List (Event ι β)),
        e.aborted = false → e.openSession = some session → session.state = S →
        session.answer e.window e.finished = .ready c R ev →
        e.step = ⟨(e.opened session).abort, ev, (m.resume S R).notes, .error (.failure f' c)⟩ := by
  have hescapes := h.escapes hf hfatal
  refine ⟨f.inContext (labelContext labels.head?), (f.isFatal_inContext _).trans hfatal, rfl, rfl,
    hescapes.fails, hescapes.notes, ?_⟩
  rintro e session c ev running opens rfl answered
  exact Engine.step_of_fail running opens answered hescapes.fails

/-- A letter `a`, whose absence is fatal. -/
def letter : Machine Char Unit Char := (satisfy "a" (· == 'a')).fatal

/-- Any number of letters. -/
def letters : Machine Char Unit (List Char) := (letter.repetition 0 none).label "letters"

/-- Letters or nothing.  Around them stand a handler of failures and a machine to fall back on,
which put out no letters. -/
def leniently : Machine Char Unit (List Char) :=
  ((choice [letters, nil]).rescue fun _ => nil).recoverWith nil

/-- In a choice between letters and nothing, another letter that is missing is neither the end of
the letters nor left to the second alternative, and neither the handler nor the machine to fall back
on is started. -/
theorem letters_fail_at_once :
    ∃ f : Failure Char, f.isFatal = true ∧ f.cause = .unexpected 'b' "a" ∧
      f.context = some "while parsing letters" ∧
      (leniently.resume (.inl (.inl (.running ⟨0, 0⟩ none ⟨0, Nat.two_pos⟩
        (.optional none ⟨0, 0⟩ [] .looked)))) (some (.item 'b'))).resumed = .fail f := by
  have hrun : Reaches (letter.repetition 0 none) (.optional none ⟨0, 0⟩ [] .looked)
      (some (.item 'b')) [] letter .looked (some (.item 'b')) :=
    .inside (.optional letter 0 none none ⟨0, 0⟩ [] .looked _) (.here letter .looked _)
  have hletters : Reaches letters (.optional none ⟨0, 0⟩ [] .looked) (some (.item 'b'))
      ["letters"] letter .looked (some (.item 'b')) :=
    .inside (.label (letter.repetition 0 none) "letters" _ _) hrun
  have hchoice := Reaches.inside
    (Resumes.alternative [letters, nil] ⟨0, 0⟩ none ⟨0, Nat.two_pos⟩ _ _) hletters
  have hhandled := Reaches.inside (Resumes.guarded _ (fun _ => nil) _ _) hchoice
  have hlenient := Reaches.inside (Resumes.preferred _ nil _ _) hhandled
  obtain ⟨f, hfatal, hcause, hcontext, hfails, -⟩ := fatal_failure_escapes hlenient rfl rfl
  exact ⟨f, hfatal, hcause, hcontext, hfails⟩

end Machine

end ResumableParsing

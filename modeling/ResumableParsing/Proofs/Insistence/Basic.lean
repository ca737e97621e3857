/-
# Machines that insist on their answers

A computation that waits on a request insists on an answer of the kind that it asked for.  Told
anything else it fails fatally, in the same resumption, and says that the exchange was not kept to.
Whoever waits innermost notices; the machines around it let fatal failures pass, and none of them
takes the answer for itself.

`Guards` says this of a machine and of a description of the states in which it waits.  A machine
that runs others inside waits where they wait (`Context`), or asks something itself, so that there
is one lemma for each construction.
-/
import ResumableParsing.Proofs.Escape.Basic
import ResumableParsing.Proofs.Watch.Grammar

namespace ResumableParsing

variable {ι ν α β κ σ τ : Type}

/-! ## Violations -/

/-- The failure is fatal and says that a computation was not answered as it asked. -/
def Failure.IsViolation (f : Failure ι) : Prop :=
  f.isFatal = true ∧ ∃ detail, f.cause = .protocol detail

/-- What is raised for a wrong answer is a violation. -/
theorem Failure.isViolation_violation (detail : String) :
    (violation detail : Failure ι).IsViolation := ⟨rfl, detail, rfl⟩

/-- The context of a failure does not matter, so a label does not hide a violation. -/
theorem Failure.IsViolation.congr {e e' : Failure ι} (h : e.IsViolation)
    (hfatal : e'.isFatal = true) (hcause : e'.cause = e.cause) : e'.IsViolation :=
  ⟨hfatal, hcause ▸ h.2⟩

/-- The turn comes to a violation. -/
def Turn.Violates (t : Turn σ ι ν α) : Prop := ∃ f, t.resumed = .fail f ∧ f.IsViolation

/-- Whatever does not hold a token violates a request for one. -/
theorem isViolation_of_expectToken {q : Request} (hq : q = .snapshot ∨ ∃ k, q = .rollback k)
    {r : Option (Response ι)} (hr : ¬ (Standing.waiting q).Admits r) :
    ∃ f, expectToken r = .error f ∧ f.IsViolation := by
  refine ⟨.violation "expected a snapshot token", ?_, Failure.isViolation_violation _⟩
  rcases hq with rfl | ⟨k, rfl⟩ <;> rcases r with _ | _ | _ | t <;>
    first | rfl | exact absurd trivial hr

/-- If the turn asks something, it does so in a state of the kind. -/
inductive Turn.Keeps (kind : σ → Request → Prop) : Turn σ ι ν α → Prop
  /-- The turn asks something. -/
  | suspend {s : σ} {q : Request} {notes : List ν} (state : kind s q) :
      Keeps kind ⟨s, .suspend q, notes⟩
  /-- The turn completes. -/
  | complete {s : σ} {a : α} {notes : List ν} : Keeps kind ⟨s, .complete a, notes⟩
  /-- The turn fails. -/
  | fail {s : σ} {e : Failure ι} {notes : List ν} : Keeps kind ⟨s, .fail e, notes⟩

namespace Turn.Keeps

variable {kind : σ → Request → Prop} {kind' : τ → Request → Prop} {t : Turn σ ι ν α}

/-- Whoever sees the request knows the state. -/
theorem of_suspend (h : t.Keeps kind) {q : Request} (asks : t.resumed = .suspend q) :
    kind t.state q := by
  cases h with
  | suspend state =>
    cases asks
    exact state
  | complete => cases asks
  | fail => cases asks

/-- Only a turn that asks something has to be looked at. -/
theorem of_asks (h : ∀ q, t.resumed = .suspend q → kind t.state q) : t.Keeps kind := by
  obtain ⟨s, resumed, notes⟩ := t
  cases resumed with
  | suspend q => exact .suspend (h q rfl)
  | complete => exact .complete
  | fail => exact .fail

theorem after (h : t.Keeps kind) (before : List ν) : (t.after before).Keeps kind := by
  cases h with
  | suspend state => exact .suspend state
  | complete => exact .complete
  | fail => exact .fail

/-- The state goes into that of the machine around, and so does what is known of it. -/
theorem within {embed : σ → τ} (h : t.Keeps kind) (hkind : ∀ s q, kind s q → kind' (embed s) q) :
    (t.within embed).Keeps kind' := by
  cases h with
  | suspend state => exact .suspend (hkind _ _ state)
  | complete => exact .complete
  | fail => exact .fail

end Turn.Keeps

namespace Machine

/-! ## Machines that insist on their answers -/

/-- Some answers lead the computation to something else than a look at the cursor. -/
inductive Moves (m : Machine ι ν α) : m.State → Prop
  /-- The next resumption comes to something else. -/
  | now {s : m.State} {r : Option (Response ι)} (h : (m.resume s r).resumed ≠ .suspend .peek) :
      m.Moves s
  /-- A later one does. -/
  | later {s : m.State} {r : Option (Response ι)} (h : m.Moves (m.resume s r).state) : m.Moves s

/-- Told this, the computation comes to a violation, unless it cannot be moved and `idle` holds. -/
def Rejects (idle : Prop) (m : Machine ι ν α) (s : m.State) (r : Option (Response ι)) : Prop :=
  (m.resume s r).Violates ∨ idle ∧ ¬ m.Moves s

/-- In the states of the kind the computation waits on a request: every exchange keeps to these
states as long as it is answered as it asks, and a wrong answer in any of them is rejected. -/
structure Guards (idle : Prop) (m : Machine ι ν α) (kind : m.State → Request → Prop) : Prop where
  /-- The first request is made in a state of the kind. -/
  start : m.start.Keeps kind
  /-- So is the next one, if this one is answered properly. -/
  answer : ∀ {s q r}, kind s q → q.Expects r → (m.resume s (some r)).Keeps kind
  /-- Anything else is rejected. -/
  rejects : ∀ {s q r}, kind s q → ¬ (Standing.waiting q).Admits r → m.Rejects idle s r

/-- Whenever the computation waits in a proper exchange, it rejects wrong answers. -/
def Insists (idle : Prop) (m : Machine ι ν α) : Prop := ∃ kind, m.Guards idle kind

/-- The turns of exchanges in which each request is answered with an answer of its kind. -/
inductive Exchanges (m : Machine ι ν α) : Turn m.State ι ν α → Prop
  /-- The first resumption. -/
  | start : m.Exchanges m.start
  /-- A resumption with an answer of the kind that was asked for. -/
  | answer {t : Turn m.State ι ν α} {q : Request} {r : Response ι} (before : m.Exchanges t)
      (asks : t.resumed = .suspend q) (expected : q.Expects r) :
      m.Exchanges (m.resume t.state (some r))

variable {idle : Prop} {m : Machine ι ν β} {p : Machine ι ν α} {q : Machine ι ν β}

/-- In a proper exchange a guarded machine never leaves the states in which it waits. -/
theorem Guards.keeps {kind : m.State → Request → Prop} (h : m.Guards idle kind)
    {t : Turn m.State ι ν β} (ht : m.Exchanges t) : t.Keeps kind := by
  induction ht with
  | start => exact h.start
  | answer _ asks expected ih => exact h.answer (ih.of_suspend asks) expected

/-- Whatever the exchange was, the next answer is of the kind asked for or rejected. -/
theorem Insists.rejects (h : m.Insists idle) {t : Turn m.State ι ν β} (ht : m.Exchanges t)
    {q : Request} (asks : t.resumed = .suspend q) {r : Option (Response ι)}
    (wrong : ¬ (Standing.waiting q).Admits r) : m.Rejects idle t.state r := by
  obtain ⟨kind, hkind⟩ := h
  exact hkind.rejects ((hkind.keeps ht).of_suspend asks) wrong

/-! ## A machine inside another one -/

/-- While `p` runs inside `m`, whose states are then those that `embed` says, `m` asks what `p` asks
and comes to a violation when `p` does. -/
structure Context (m : Machine ι ν β) (p : Machine ι ν α) (embed : p.State → m.State) : Prop where
  /-- What is asked inside is asked outside. -/
  asks : ∀ {s r q}, (p.resume s r).resumed = .suspend q →
    (m.resume (embed s) r).resumed = .suspend q ∧
      (m.resume (embed s) r).state = embed (p.resume s r).state
  /-- A violation inside is one outside. -/
  violates : ∀ {s r}, (p.resume s r).Violates → (m.resume (embed s) r).Violates

namespace Context

variable {embed : p.State → m.State}

/-- What never moves inside never moves outside. -/
theorem moves_inv (h : m.Context p embed) {s : p.State} (hm : m.Moves (embed s)) : p.Moves s := by
  generalize hS : embed s = S at hm
  induction hm generalizing s with
  | @now S r hnow =>
    subst hS
    exact .now fun hpeek => hnow (h.asks hpeek).1
  | @later S r _ ih =>
    subst hS
    by_cases hpeek : (p.resume s r).resumed = .suspend .peek
    · exact .later (ih (h.asks hpeek).2.symm)
    · exact .now hpeek

/-- What is rejected inside is rejected outside. -/
theorem rejects (h : m.Context p embed) {s : p.State} {r : Option (Response ι)}
    (hp : p.Rejects idle s r) : m.Rejects idle (embed s) r := by
  rcases hp with hviolates | ⟨hidle, hmoves⟩
  · exact .inl (h.violates hviolates)
  · exact .inr ⟨hidle, fun hm => hmoves (h.moves_inv hm)⟩

end Context

/-! ## Machines that ask or wait -/

/-- What a test of an item waits on. -/
inductive Testing.Waits : Testing → Request → Prop
  /-- The item at the cursor was asked for. -/
  | looked : Waits .looked .peek
  /-- The item is taken. -/
  | taken : Waits .taken .consume

/-- A test of an item waits twice: for a look at the item, and for the item. -/
theorem insists_satisfy (expected : String) (accepts : ι → Bool) :
    (satisfy (ν := ν) expected accepts).Insists idle := by
  refine ⟨Testing.Waits, .suspend .looked, ?_, ?_⟩
  · intro s q r hs hr
    cases hs with
    | looked =>
      cases r with
      | item x =>
        show (if accepts x then _ else _ : Turn Testing ι ν ι).Keeps _
        split
        · exact .suspend .taken
        · exact .fail
      | endOfInput => exact .fail
      | token t => exact hr.elim
    | taken =>
      cases r with
      | item x => exact .complete
      | endOfInput => exact .fail
      | token t => exact hr.elim
  · intro s q r hs hr
    refine .inl ⟨.violation "expected an item", ?_, Failure.isViolation_violation _⟩
    cases hs <;> rcases r with _ | _ | _ | t <;> first | rfl | exact absurd trivial hr

/-- A computation that asks once waits on its request. -/
inductive Asked (q : Request) : Bool → Request → Prop
  /-- The request was made. -/
  | intro : Asked q true q

/-- A test for the end of the input insists on a look at the cursor. -/
theorem insists_endOfInput : (endOfInput (ι := ι) (ν := ν)).Insists idle := by
  refine ⟨Asked .peek, .suspend .intro, ?_, ?_⟩
  · rintro _ _ r ⟨⟩ hr
    cases r with
    | item x => exact .fail
    | endOfInput => exact .complete
    | token t => exact hr.elim
  · rintro _ _ r ⟨⟩ hr
    refine .inl ⟨.violation "expected an item", ?_, Failure.isViolation_violation _⟩
    rcases r with _ | _ | _ | t <;> first | rfl | exact absurd trivial hr

/-- An inquiry reads nothing from an answer of another kind. -/
theorem isViolation_of_read (q : Inquiry ι α) {r : Response ι} (hr : ¬ q.request.Expects r) :
    ∃ f, q.read r = .error f ∧ f.IsViolation := by
  cases q <;> cases r <;>
    first
    | exact absurd trivial hr
    | exact ⟨_, rfl, Failure.isViolation_violation _⟩

/-- An inquiry insists on what it can read. -/
theorem insists_ask (q : Inquiry ι α) : (ask (ν := ν) q).Insists idle := by
  refine ⟨Asked q.request, .suspend .intro, ?_, ?_⟩
  · rintro _ _ r ⟨⟩ hr
    simp only [ask]
    cases q.read r with
    | ok a => exact .complete
    | error f => exact .fail
  · rintro _ _ r ⟨⟩ hr
    cases r with
    | none => exact .inl ⟨_, rfl, Failure.isViolation_violation _⟩
    | some r =>
      obtain ⟨f, hf, hviolation⟩ := isViolation_of_read q hr
      refine .inl ⟨f, ?_, hviolation⟩
      simp only [ask, hf]

/-- A machine that asks nothing never waits. -/
theorem insists_pure (a : α) : (pure (ι := ι) (ν := ν) a).Insists idle :=
  ⟨fun _ _ => False, .complete, fun h => h.elim, fun h => h.elim⟩

/-- A machine that looks forever takes any answer. -/
theorem insists_stalled (h : idle) : (stalled : Machine ι ν α).Insists idle := by
  refine ⟨fun _ _ => True, .suspend trivial, fun _ _ => .suspend trivial, fun _ _ => .inr ⟨h, ?_⟩⟩
  intro hm
  induction hm with
  | now hnow => exact hnow rfl
  | later _ ih => exact ih

/-! ## Machines around one machine -/

/-- A machine that changes the turns of another one insists if the change keeps what is asked, asks
nothing itself and lets violations pass. -/
theorem Insists.reshape (hp : p.Insists idle)
    (change : Option (Response ι) → Turn p.State ι ν α → Turn p.State ι ν β)
    (asks : ∀ {r t q}, (change r t).resumed = .suspend q ↔ t.resumed = .suspend q)
    (state : ∀ {r t q}, t.resumed = .suspend q → (change r t).state = t.state)
    (violates : ∀ {r t}, t.Violates → (change r t).Violates) :
    (⟨p.State, p.init, fun s r => change r (p.resume s r)⟩ : Machine ι ν β).Insists idle := by
  obtain ⟨kind, hp⟩ := hp
  have hcontext : Context ⟨p.State, p.init, fun s r => change r (p.resume s r)⟩ p id :=
    ⟨fun h => ⟨asks.mpr h, state h⟩, violates⟩
  have hturn {r : Option (Response ι)} {t : Turn p.State ι ν α} (h : t.Keeps kind) :
      (change r t).Keeps kind := by
    refine .of_asks fun q hq => ?_
    rw [state (asks.mp hq)]
    exact h.of_suspend (asks.mp hq)
  exact ⟨kind, hturn hp.start, fun hs hr => hturn (hp.answer hs hr),
    fun hs hr => hcontext.rejects (hp.rejects hs hr)⟩

/-- An output is changed, a request is not. -/
theorem Insists.map (hp : p.Insists idle) (f : α → β) : (p.map f).Insists idle := by
  refine hp.reshape (fun _ t => ⟨t.state, mapOutput f t.resumed, t.notes⟩)
    ⟨suspend_of_mapOutput, fun h => ?_⟩ (fun _ => rfl) ?_
  · rw [h]
    rfl
  · rintro _ t ⟨e, he, hviolation⟩
    exact ⟨e, by rw [he]; rfl, hviolation⟩

/-- A change that lets failures be fatal and keeps their cause lets violations pass. -/
theorem Insists.changeFailure (hp : p.Insists idle) {f : Failure ι → Failure ι}
    (hfatal : ∀ e, e.isFatal = true → (f e).isFatal = true)
    (hcause : ∀ e, (f e).cause = e.cause) : (p.changeFailure f).Insists idle := by
  refine hp.reshape (fun _ t => ⟨t.state, mapFailure f t.resumed, t.notes⟩)
    ⟨suspend_of_mapFailure, fun h => ?_⟩ (fun _ => rfl) ?_
  · rw [h]
    rfl
  · rintro _ t ⟨e, he, hviolation⟩
    exact ⟨f e, by rw [he]; rfl, hviolation.congr (hfatal e hviolation.1) (hcause e)⟩

/-- A tap looks on and changes neither what is asked nor what is told. -/
theorem Insists.tap (hp : p.Insists idle) (mark : Option (Response ι) → Resumed ι α → ν) :
    (p.tap mark).Insists idle :=
  hp.reshape (fun r t => ⟨t.state, t.resumed, t.notes ++ [mark r t.resumed]⟩) Iff.rfl
    (fun _ => rfl) fun h => h

/-- A list starts over only once it has completed. -/
theorem Insists.rewinding (hp : p.Insists idle) : p.rewinding.Insists idle := by
  refine hp.reshape (fun _ => rewindingTurn p) ?_ ?_ ?_
  · intro _ t q
    unfold rewindingTurn
    cases t.resumed <;> rfl
  · intro _ t q h
    unfold rewindingTurn
    rw [h]
  · rintro _ t ⟨e, he, hviolation⟩
    exact ⟨e, (escapes_rewindingTurn he).fails, hviolation⟩

/-- A machine that was built waits where it was left. -/
theorem Insists.deferred {build : Unit → Machine ι ν α} (h : (build ()).Insists idle) :
    (deferred build).Insists idle := by
  obtain ⟨kind, h⟩ := h
  have hcontext : (Machine.deferred build).Context (build ()) some :=
    ⟨fun h => ⟨h, rfl⟩, fun h => h⟩
  have hturn {t : Turn (build ()).State ι ν α} (ht : t.Keeps kind) :
      (t.within some).Keeps fun S q => ∃ s, S = some s ∧ kind s q :=
    ht.within fun s _ hs => ⟨s, rfl, hs⟩
  refine ⟨fun S q => ∃ s, S = some s ∧ kind s q, hturn h.start, ?_, ?_⟩
  · rintro _ q r ⟨s, rfl, hs⟩ hr
    exact hturn (h.answer hs hr)
  · rintro _ q r ⟨s, rfl, hs⟩ hr
    exact hcontext.rejects (h.rejects hs hr)

/-! ## One machine after another -/

/-- A pair waits where its first machine waits, or its second one with the output of the first. -/
inductive Pairing.Waits (first : σ → Request → Prop) (second : τ → Request → Prop) :
    Pairing σ α τ → Request → Prop
  /-- The first machine waits. -/
  | first {s : σ} {q : Request} (h : first s q) : Waits first second (.first s) q
  /-- The second machine waits. -/
  | second (a : α) {s : τ} {q : Request} (h : second s q) :
      Waits first second (.second (some a) s) q

/-- The second machine asks while the output of the first is kept. -/
theorem keeps_pairSecond (first : σ → Request → Prop) {second : τ → Request → Prop} (a : α)
    {t : Turn τ ι ν β} (h : t.Keeps second) :
    (pairSecond (some a) t).Keeps (Pairing.Waits first second) := by
  cases h with
  | suspend state => exact .suspend (.second a state)
  | complete => exact .complete
  | fail => exact .fail

/-- If the first machine completes, the second starts in the same turn and may ask. -/
theorem keeps_pairTurn {first : p.State → Request → Prop} {second : q.State → Request → Prop}
    (hq : q.start.Keeps second) {t : Turn p.State ι ν α} (h : t.Keeps first) :
    (pairTurn p q t).Keeps (Pairing.Waits first second) := by
  cases h with
  | suspend state => exact .suspend (.first state)
  | complete => exact (keeps_pairSecond first _ hq).after _
  | fail => exact .fail

/-- The first machine of a pair runs inside it. -/
theorem context_pair_first : (p.pair q).Context p .first where
  asks {s r _} h := by
    show (pairTurn p q (p.resume s r)).resumed = _ ∧ (pairTurn p q (p.resume s r)).state = _
    unfold pairTurn
    rw [h]
    exact ⟨rfl, rfl⟩
  violates := fun ⟨e, he, hviolation⟩ => ⟨e, (escapes_pairTurn he).fails, hviolation⟩

/-- The second machine of a pair runs inside it, beside the output of the first. -/
theorem context_pair_second (a : α) : (p.pair q).Context q (.second (some a)) where
  asks {s r _} h := by
    show (pairSecond (some a) (q.resume s r)).resumed = _ ∧
      (pairSecond (some a) (q.resume s r)).state = _
    unfold pairSecond
    rw [h]
    exact ⟨rfl, rfl⟩
  violates := fun ⟨e, he, hviolation⟩ => ⟨e, (escapes_pairSecond he).fails, hviolation⟩

/-- A pair waits where its first machine waits, and then where the second does. -/
theorem Insists.pair (hp : p.Insists idle) (hq : q.Insists idle) : (p.pair q).Insists idle := by
  obtain ⟨first, hp⟩ := hp
  obtain ⟨second, hq⟩ := hq
  refine ⟨Pairing.Waits first second, keeps_pairTurn hq.start hp.start, fun hs hr => ?_,
    fun hs hr => ?_⟩
  · cases hs with
    | first hs => exact keeps_pairTurn hq.start (hp.answer hs hr)
    | second a hs => exact keeps_pairSecond first a (hq.answer hs hr)
  · cases hs with
    | first hs => exact context_pair_first.rejects (hp.rejects hs hr)
    | second a hs => exact (context_pair_second a).rejects (hq.rejects hs hr)

/-- Two machines one of which runs wait where that one waits. -/
inductive EitherWaits (first : σ → Request → Prop) (second : τ → Request → Prop) :
    σ ⊕ τ → Request → Prop
  /-- The first machine waits. -/
  | first {s : σ} {q : Request} (h : first s q) : EitherWaits first second (.inl s) q
  /-- The second machine waits. -/
  | second {s : τ} {q : Request} (h : second s q) : EitherWaits first second (.inr s) q

theorem insists_nil : (nil : Machine ι ν (List α)).Insists idle :=
  ⟨fun _ _ => False, .complete, fun h => h.elim, fun h => h.elim⟩

section Cons

variable {rest : Machine ι ν (List α)}

/-- What is behind the first machine of a list asks while the first output is kept. -/
theorem keeps_consTail (first : σ → Request → Prop) {second : τ → Request → Prop} (a : α)
    {t : Turn τ ι ν (List α)} (h : t.Keeps second) :
    (consTail a t).Keeps (EitherWaits first fun s q => second s.2 q) := by
  cases h with
  | suspend state => exact .suspend (.second state)
  | complete => exact .complete
  | fail => exact .fail

/-- If the first machine completes, what is behind it starts in the same turn. -/
theorem keeps_consTurn {first : p.State → Request → Prop} {second : rest.State → Request → Prop}
    (hrest : rest.start.Keeps second) {t : Turn p.State ι ν α} (h : t.Keeps first) :
    (consTurn p rest t).Keeps (EitherWaits first fun s q => second s.2 q) := by
  cases h with
  | suspend state => exact .suspend (.first state)
  | complete => exact (keeps_consTail first _ hrest).after _
  | fail => exact .fail

/-- The first machine of a list runs inside it. -/
theorem context_cons_head : (p.cons rest).Context p .inl where
  asks {s r _} h := by
    show (consTurn p rest (p.resume s r)).resumed = _ ∧ (consTurn p rest (p.resume s r)).state = _
    unfold consTurn
    rw [h]
    exact ⟨rfl, rfl⟩
  violates := fun ⟨e, he, hviolation⟩ => ⟨e, (escapes_consTurn he).fails, hviolation⟩

/-- What is behind the first machine runs inside the list. -/
theorem context_cons_tail (a : α) : (p.cons rest).Context rest fun s => .inr (a, s) where
  asks {s r _} h := by
    refine ⟨?_, rfl⟩
    show mapOutput (a :: ·) (rest.resume s r).resumed = _
    rw [h]
    rfl
  violates := fun ⟨e, he, hviolation⟩ => ⟨e, (escapes_consTail he).fails, hviolation⟩

/-- A list waits where its first machine waits, and then where those behind it do. -/
theorem Insists.cons (hp : p.Insists idle) (hrest : rest.Insists idle) :
    (p.cons rest).Insists idle := by
  obtain ⟨first, hp⟩ := hp
  obtain ⟨second, hrest⟩ := hrest
  refine ⟨EitherWaits first fun s q => second s.2 q, keeps_consTurn hrest.start hp.start,
    fun hs hr => ?_, fun hs hr => ?_⟩
  · cases hs with
    | first hs => exact keeps_consTurn hrest.start (hp.answer hs hr)
    | second hs => exact keeps_consTail first _ (hrest.answer hs hr)
  · cases hs with
    | first hs => exact context_cons_head.rejects (hp.rejects hs hr)
    | second hs => exact (context_cons_tail _).rejects (hrest.rejects hs hr)

end Cons

/-- A list insists if each of its machines does. -/
theorem insists_all {ps : List (Machine ι ν α)} (h : ∀ p ∈ ps, p.Insists idle) :
    (all ps).Insists idle := by
  have hfold : (ps.foldr Machine.cons nil).Insists idle := by
    induction ps with
    | nil => exact insists_nil
    | cons p ps ih =>
      rw [List.forall_mem_cons] at h
      exact h.1.cons (ih h.2)
  exact hfold.rewinding

section Relay

variable {completed : α → Next κ ι β} {failed : Failure ι → Next κ ι β} {next : κ → Machine ι ν β}
  {first : p.State → Request → Prop} {second : (k : κ) → (next k).State → Request → Prop}

/-- The machine that takes over asks in its own states. -/
theorem keeps_takenOver {k : κ} {t : Turn (next k).State ι ν β} (h : t.Keeps (second k)) :
    (t.within fun s => Sum.inr (⟨k, s⟩ : (k : κ) × (next k).State)).Keeps
      (EitherWaits first fun s q => second s.1 s.2 q) :=
  h.within fun _ _ hs => .second hs

/-- Whatever follows the first machine, only a machine that takes over can ask something. -/
theorem keeps_nextTurn (hnext : ∀ k, (next k).start.Keeps (second k)) (n : Next κ ι β)
    (t : Turn p.State ι ν α) :
    (n.turn p completed failed next t).Keeps (EitherWaits first fun s q => second s.1 s.2 q) := by
  cases n with
  | start k => exact (keeps_takenOver (hnext k)).after _
  | complete b => exact .complete
  | fail e => exact .fail

/-- A relay asks what its first machine asks, or the one that takes over. -/
theorem keeps_relayTurn (hnext : ∀ k, (next k).start.Keeps (second k)) {t : Turn p.State ι ν α}
    (h : t.Keeps first) :
    (relayTurn p completed failed next t).Keeps
      (EitherWaits first fun s q => second s.1 s.2 q) := by
  cases h with
  | suspend state => exact .suspend (.first state)
  | complete => exact keeps_nextTurn hnext _ _
  | fail => exact keeps_nextTurn hnext _ _

/-- The first machine of a relay runs inside it if no fatal failure is handled. -/
theorem context_relay_first (passes : ∀ e, e.isFatal = true → failed e = .fail e) :
    (p.relay completed failed next).Context p .inl where
  asks {s r _} h := by
    show (relayTurn p completed failed next (p.resume s r)).resumed = _ ∧
      (relayTurn p completed failed next (p.resume s r)).state = _
    unfold relayTurn
    rw [h]
    exact ⟨rfl, rfl⟩
  violates := fun ⟨e, he, hviolation⟩ =>
    ⟨e, (escapes_relay he (passes e hviolation.1)).fails, hviolation⟩

/-- The machine that has taken over runs inside the relay. -/
theorem context_relay_next (k : κ) :
    (p.relay completed failed next).Context (next k) fun s => .inr ⟨k, s⟩ :=
  ⟨fun h => ⟨h, rfl⟩, fun h => h⟩

/-- No handler is given a violation, since it is fatal. -/
theorem Insists.relay (hp : p.Insists idle) (hnext : ∀ k, (next k).Insists idle)
    (passes : ∀ e, e.isFatal = true → failed e = .fail e) :
    (p.relay completed failed next).Insists idle := by
  obtain ⟨first, hp⟩ := hp
  choose second hnext using hnext
  have hstart (k : κ) : (next k).start.Keeps (second k) := (hnext k).start
  refine ⟨EitherWaits first fun s q => second s.1 s.2 q, keeps_relayTurn hstart hp.start,
    fun hs hr => ?_, fun hs hr => ?_⟩
  · cases hs with
    | first hs => exact keeps_relayTurn hstart (hp.answer hs hr)
    | second hs => exact keeps_takenOver ((hnext _).answer hs hr)
  · cases hs with
    | first hs => exact (context_relay_first passes).rejects (hp.rejects hs hr)
    | second hs => exact (context_relay_next _).rejects ((hnext _).rejects hs hr)

end Relay

/-- A machine and the one built from its output insist, one after the other. -/
theorem Insists.bind {f : α → Machine ι ν β} (hp : p.Insists idle)
    (hf : ∀ a, (f a).Insists idle) : (p.bind f).Insists idle :=
  hp.relay hf fun _ _ => rfl

/-- A handler never sees a violation, which is fatal. -/
theorem Insists.rescue {handler : Failure ι → Machine ι ν α} (hp : p.Insists idle)
    (hhandler : ∀ e, (handler e).Insists idle) : (p.rescue handler).Insists idle :=
  hp.relay hhandler fun _ he => if_pos he

/-- A violation is not fallen back from. -/
theorem Insists.recoverWith {p q : Machine ι ν α} (hp : p.Insists idle) (hq : q.Insists idle) :
    (p.recoverWith q).Insists idle :=
  hp.relay (fun _ => hq) fun _ he => if_pos he

end Machine

end ResumableParsing

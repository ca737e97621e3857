/-
# The algebra of machines

Machines obey the laws that their combinators promise: dependent sequencing is a monad, recovery is
one on failures, and pairs, lists and changed outputs are dependent sequences.  Most laws are about
relays, which hand over from one machine to the next: one relay may be put for another if the
machines that they hand over to are equivalent (`relay_congr`), and it does not matter in which
order relays are put together (`relay_assoc`).  The hand-over itself is where a law could fail,
since the next machine must start without an answer within the same turn.
-/
import ResumableParsing.Grammar.Derived
import ResumableParsing.Proofs.Laws.Basic
import ResumableParsing.Proofs.Descent.Sequencing

namespace ResumableParsing

variable {ι ν α β γ κ κ' σ : Type}

namespace Machine

/-! ## Changed outputs and failures -/

/-- Machines with the same states that are resumed alike are the same. -/
theorem eq_of_resume {init : σ} {f g : σ → Option (Response ι) → Turn σ ι ν α}
    (h : ∀ s r, f s r = g s r) : Machine.mk σ init f = Machine.mk σ init g :=
  congrArg (Machine.mk σ init) (funext fun s => funext fun r => h s r)

/-- To change the output twice is to change it once. -/
theorem map_map (p : Machine ι ν α) (f : α → β) (g : β → γ) : (p.map f).map g = p.map (g ∘ f) := by
  refine eq_of_resume fun s r => ?_
  simp only [map]
  cases (p.resume s r).resumed <;> rfl

/-- To change nothing of the output is to leave the machine as it is. -/
theorem map_id (p : Machine ι ν α) : p.map id = p := by
  refine eq_of_resume fun s r => ?_
  rcases p.resume s r with ⟨s', _ | _ | _, notes⟩ <;> rfl

/-- To change the failure twice is to change it once. -/
theorem changeFailure_changeFailure (p : Machine ι ν α) (f g : Failure ι → Failure ι) :
    (p.changeFailure f).changeFailure g = p.changeFailure (g ∘ f) := by
  refine eq_of_resume fun s r => ?_
  simp only [changeFailure]
  cases (p.resume s r).resumed <;> rfl

/-- A failure is made fatal once and for all. -/
theorem fatal_fatal (p : Machine ι ν α) : p.fatal.fatal = p.fatal :=
  changeFailure_changeFailure p _ _

/-- Of two labels the inner one is told. -/
theorem label_label (p : Machine ι ν α) (a b : String) : (p.label a).label b = p.label a := by
  have hinner : (Failure.whileParsing · b) ∘ (Failure.whileParsing (ι := ι) · a) =
      (Failure.whileParsing · a) := funext fun e => Failure.withContext_withContext e _ _
  exact (changeFailure_changeFailure p _ _).trans (congrArg p.changeFailure hinner)

/-- It does not matter whether failures are made fatal before or after they are labelled. -/
theorem label_fatal (p : Machine ι ν α) (a : String) : p.fatal.label a = (p.label a).fatal := by
  have hcomm : (Failure.whileParsing · a) ∘ Failure.toFatal =
      Failure.toFatal ∘ (Failure.whileParsing (ι := ι) · a) :=
    funext fun e => Failure.withContext_toFatal e _
  exact (changeFailure_changeFailure p _ _).trans
    ((congrArg p.changeFailure hcomm).trans (changeFailure_changeFailure p _ _).symm)

/-- A deferred machine is the machine that is built. -/
theorem deferred_equivalent (build : Unit → Machine ι ν α) :
    (deferred build).Equivalent (build ()) := by
  have hbisim : IsBisimulation (deferred build) (build ()) fun s s' => s = some s' := by
    rintro _ s' r rfl
    exact ⟨rfl, rfl, fun _ _ => rfl⟩
  exact hbisim.equivalent ⟨rfl, rfl, fun _ _ => rfl⟩

/-! ## Relays -/

/-- What follows the ends of the first machines is the same but for the machines that take over,
which are equivalent. -/
inductive Next.Same (next : κ → Machine ι ν β) (next' : κ' → Machine ι ν β) :
    Next κ ι β → Next κ' ι β → Prop
  /-- Equivalent machines take over. -/
  | start {k : κ} {k' : κ'} (h : (next k).Equivalent (next' k')) :
      Same next next' (.start k) (.start k')
  /-- Both relays complete. -/
  | complete (b : β) : Same next next' (.complete b) (.complete b)
  /-- Both relays fail. -/
  | fail (e : Failure ι) : Same next next' (.fail e) (.fail e)

/-- Two relays are in the same phase, in states that go on alike. -/
inductive Relayed (p p' : Machine ι ν α) (next : κ → Machine ι ν β) (next' : κ' → Machine ι ν β) :
    p.State ⊕ (k : κ) × (next k).State → p'.State ⊕ (k : κ') × (next' k).State → Prop
  /-- The first machines run. -/
  | first {s : p.State} {s' : p'.State} (h : Similar p p' s s') :
      Relayed p p' next next' (.inl s) (.inl s')
  /-- The machines that took over run. -/
  | second {k : κ} {k' : κ'} {s : (next k).State} {s' : (next' k').State}
      (h : Similar (next k) (next' k') s s') :
      Relayed p p' next next' (.inr ⟨k, s⟩) (.inr ⟨k', s'⟩)

section Congruence

variable {p p' : Machine ι ν α} {completed : α → Next κ ι β} {failed : Failure ι → Next κ ι β}
  {next : κ → Machine ι ν β} {completed' : α → Next κ' ι β} {failed' : Failure ι → Next κ' ι β}
  {next' : κ' → Machine ι ν β}

/-- Once other machines have taken over, the relays agree as long as these do. -/
theorem agree_relay_second {k : κ} {k' : κ'} {t : Turn (next k).State ι ν β}
    {t' : Turn (next' k').State ι ν β} (h : t.Agree (Similar (next k) (next' k')) t') :
    (t.within fun s => .inr ⟨k, s⟩).Agree (Relayed p p' next next')
      (t'.within fun s => .inr ⟨k', s⟩) :=
  h.within fun _ _ hs => .second hs

/-- What follows the same end is the same, whether a machine takes over or none does. -/
theorem agree_next_turn {t : Turn p.State ι ν α} {t' : Turn p'.State ι ν α}
    (hnotes : t.notes = t'.notes) {f : Next κ ι β} {f' : Next κ' ι β}
    (h : Next.Same next next' f f') :
    (f.turn p completed failed next t).Agree (Relayed p p' next next')
      (f'.turn p' completed' failed' next' t') := by
  cases h with
  | start h =>
    simp only [Next.turn, hnotes]
    exact (agree_relay_second (equivalent_iff.mp h)).after _
  | complete b => exact .of_result (x := .ok b) rfl rfl hnotes
  | fail e => exact .of_result (x := .error e) rfl rfl hnotes

/-- Relays agree in the turn of their first machines, also if that is the last of these. -/
theorem agree_relayTurn (hc : ∀ a, Next.Same next next' (completed a) (completed' a))
    (hf : ∀ e, Next.Same next next' (failed e) (failed' e)) {t : Turn p.State ι ν α}
    {t' : Turn p'.State ι ν α} (h : t.Agree (Similar p p') t') :
    (relayTurn p completed failed next t).Agree (Relayed p p' next next')
      (relayTurn p' completed' failed' next' t') := by
  unfold relayTurn
  rw [← h.resumed]
  cases ht : t.resumed with
  | suspend q => exact ⟨rfl, h.notes, fun _ _ => .first (h.states q ht)⟩
  | complete a => exact agree_next_turn h.notes (hc a)
  | fail e => exact agree_next_turn h.notes (hf e)

/-- Relays are equivalent if their first machines are, and what follows the ends of these. -/
theorem relay_congr (hp : p.Equivalent p')
    (hc : ∀ a, Next.Same next next' (completed a) (completed' a))
    (hf : ∀ e, Next.Same next next' (failed e) (failed' e)) :
    (p.relay completed failed next).Equivalent (p'.relay completed' failed' next') := by
  have hbisim : IsBisimulation (p.relay completed failed next) (p'.relay completed' failed' next')
      (Relayed p p' next next') := by
    intro s s' r hs
    cases hs with
    | first h => exact agree_relayTurn hc hf (isBisimulation_similar _ _ r h)
    | second h => exact agree_relay_second (isBisimulation_similar _ _ r h)
  exact hbisim.equivalent (agree_relayTurn hc hf (equivalent_iff.mp hp))

end Congruence

/-! ### Relays of relays -/

/-- What follows an end of the first machine follows it as well if the relay is relayed: a machine
that takes over does so, and an end of the relay passes. -/
inductive Next.Passes (completed : β → Next κ' ι γ) (failed : Failure ι → Next κ' ι γ) :
    Next κ ι β → Next κ ι γ → Prop
  /-- The machine takes over. -/
  | start (k : κ) : Passes completed failed (.start k) (.start k)
  /-- The relay completes, and so does what relays it. -/
  | complete {b : β} {c : γ} (h : completed b = .complete c) :
      Passes completed failed (.complete b) (.complete c)
  /-- The relay fails, and so does what relays it. -/
  | fail {e : Failure ι} (h : failed e = .fail e) : Passes completed failed (.fail e) (.fail e)

section Associativity

variable (p : Machine ι ν α) (completed₁ : α → Next κ ι β) (failed₁ : Failure ι → Next κ ι β)
  (next₁ : κ → Machine ι ν β) (completed₂ : β → Next κ' ι γ) (failed₂ : Failure ι → Next κ' ι γ)
  (next₂ : κ' → Machine ι ν γ)

/-- A relay of a relay and a relay to relays run the same machine. -/
inductive Reassociated :
    ((p.relay completed₁ failed₁ next₁).relay completed₂ failed₂ next₂).State →
      p.State ⊕ (k : κ) × ((next₁ k).relay completed₂ failed₂ next₂).State → Prop
  /-- The first machine runs. -/
  | first (s : p.State) : Reassociated (.inl (.inl s)) (.inl s)
  /-- The second machine runs. -/
  | second (k : κ) (s : (next₁ k).State) : Reassociated (.inl (.inr ⟨k, s⟩)) (.inr ⟨k, .inl s⟩)
  /-- The third machine runs. -/
  | third (k : κ) (l : κ') (s : (next₂ l).State) :
      Reassociated (.inr ⟨l, s⟩) (.inr ⟨k, .inr ⟨l, s⟩⟩)

variable {p completed₁ failed₁ next₁ completed₂ failed₂ next₂} {completed : α → Next κ ι γ}
  {failed : Failure ι → Next κ ι γ}

/-- What was noted before a turn is noted before what the relay makes of it. -/
theorem relayTurn_after (ns : List ν) (t : Turn p.State ι ν α) :
    relayTurn p completed₁ failed₁ next₁ (t.after ns) =
      (relayTurn p completed₁ failed₁ next₁ t).after ns := by
  have hturn (f : Next κ ι β) : f.turn p completed₁ failed₁ next₁ (t.after ns) =
      (f.turn p completed₁ failed₁ next₁ t).after ns := by
    cases f with
    | start k => simp [Next.turn, Turn.after]
    | complete b => rfl
    | fail e => rfl
  obtain ⟨s, q | a | e, notes⟩ := t
  · rfl
  · exact hturn (completed₁ a)
  · exact hturn (failed₁ e)

/-- When the second of three machines takes its turn, it stands at the end of the inner relay on the
left, and at the beginning of the one on the right. -/
theorem agree_relay_of_second (k : κ) (t : Turn (next₁ k).State ι ν β) :
    (relayTurn (p.relay completed₁ failed₁ next₁) completed₂ failed₂ next₂
        (t.within fun s => .inr ⟨k, s⟩)).Agree
      (Reassociated p completed₁ failed₁ next₁ completed₂ failed₂ next₂)
      ((relayTurn (next₁ k) completed₂ failed₂ next₂ t).within fun s => .inr ⟨k, s⟩) := by
  have hturn (f : Next κ' ι γ) :
      (f.turn (p.relay completed₁ failed₁ next₁) completed₂ failed₂ next₂
          (t.within fun s => .inr ⟨k, s⟩)).Agree
        (Reassociated p completed₁ failed₁ next₁ completed₂ failed₂ next₂)
        ((f.turn (next₁ k) completed₂ failed₂ next₂ t).within fun s => .inr ⟨k, s⟩) := by
    cases f with
    | start l => exact ⟨rfl, rfl, fun _ _ => .third k l _⟩
    | complete c => exact ⟨rfl, rfl, nofun⟩
    | fail e => exact ⟨rfl, rfl, nofun⟩
  obtain ⟨s, q | b | e, notes⟩ := t
  · exact ⟨rfl, rfl, fun _ _ => .second k s⟩
  · exact hturn (completed₂ b)
  · exact hturn (failed₂ e)

/-- When the first of three machines takes its turn, it does not matter which two are relayed first.
-/
theorem agree_relay_of_first
    (hc : ∀ a, Next.Passes completed₂ failed₂ (completed₁ a) (completed a))
    (hf : ∀ e, Next.Passes completed₂ failed₂ (failed₁ e) (failed e)) (t : Turn p.State ι ν α) :
    (relayTurn (p.relay completed₁ failed₁ next₁) completed₂ failed₂ next₂
        (relayTurn p completed₁ failed₁ next₁ t)).Agree
      (Reassociated p completed₁ failed₁ next₁ completed₂ failed₂ next₂)
      (relayTurn p completed failed (fun k => (next₁ k).relay completed₂ failed₂ next₂) t) := by
  have hturn {f : Next κ ι β} {f' : Next κ ι γ} (h : Next.Passes completed₂ failed₂ f f') :
      (relayTurn (p.relay completed₁ failed₁ next₁) completed₂ failed₂ next₂
          (f.turn p completed₁ failed₁ next₁ t)).Agree
        (Reassociated p completed₁ failed₁ next₁ completed₂ failed₂ next₂)
        (f'.turn p completed failed (fun k => (next₁ k).relay completed₂ failed₂ next₂) t) := by
    cases h with
    | start k =>
      rw [Next.turn, relayTurn_after]
      exact (agree_relay_of_second k _).after t.notes
    | complete h =>
      rw [relayTurn_of_complete rfl, h]
      exact ⟨rfl, rfl, nofun⟩
    | fail h =>
      rw [relayTurn_of_fail rfl, h]
      exact ⟨rfl, rfl, nofun⟩
  obtain ⟨s, q | a | e, notes⟩ := t
  · exact ⟨rfl, rfl, fun _ _ => .first s⟩
  · exact hturn (hc a)
  · exact hturn (hf e)

/-- It does not matter whether a relay is relayed or the machines are that take over. -/
theorem relay_assoc (hc : ∀ a, Next.Passes completed₂ failed₂ (completed₁ a) (completed a))
    (hf : ∀ e, Next.Passes completed₂ failed₂ (failed₁ e) (failed e)) :
    ((p.relay completed₁ failed₁ next₁).relay completed₂ failed₂ next₂).Equivalent
      (p.relay completed failed fun k => (next₁ k).relay completed₂ failed₂ next₂) := by
  have hbisim : IsBisimulation ((p.relay completed₁ failed₁ next₁).relay completed₂ failed₂ next₂)
      (p.relay completed failed fun k => (next₁ k).relay completed₂ failed₂ next₂)
      (Reassociated p completed₁ failed₁ next₁ completed₂ failed₂ next₂) := by
    intro s s' r hs
    cases hs with
    | first s => exact agree_relay_of_first hc hf _
    | second k s => exact agree_relay_of_second k _
    | third k l s => exact ⟨rfl, rfl, fun _ _ => .third k l _⟩
  exact hbisim.equivalent (agree_relay_of_first hc hf _)

end Associativity

/-! ## Dependent sequences -/

/-- In a dependent sequence one machine may be put for another, and one continuation too. -/
theorem Equivalent.bind {p p' : Machine ι ν α} (hp : p.Equivalent p') {f f' : α → Machine ι ν β}
    (hf : ∀ a, (f a).Equivalent (f' a)) : (p.bind f).Equivalent (p'.bind f') :=
  relay_congr hp (fun a => .start (hf a)) fun e => .fail e

/-- A value is handed on at once. -/
theorem pure_bind (a : α) (f : α → Machine ι ν β) : ((pure a).bind f).Equivalent (f a) := by
  have hbisim : IsBisimulation ((pure a).bind f) (f a) fun s s' => s = .inr ⟨a, s'⟩ := by
    rintro _ s' r rfl
    exact ⟨rfl, rfl, fun _ _ => rfl⟩
  exact hbisim.equivalent ⟨rfl, rfl, fun _ _ => rfl⟩

/-- It does not matter how three dependent machines are bracketed. -/
theorem bind_assoc (p : Machine ι ν α) (f : α → Machine ι ν β) (g : β → Machine ι ν γ) :
    ((p.bind f).bind g).Equivalent (p.bind fun a => (f a).bind g) :=
  relay_assoc (fun a => .start a) fun _ => .fail rfl

/-- To change the output is to put out the changed value. -/
theorem map_equivalent (p : Machine ι ν α) (f : α → β) :
    (p.map f).Equivalent (p.bind fun a => pure (f a)) := by
  have hturn (t : Turn p.State ι ν α) :
      Turn.Agree (fun s s' => s' = .inl s) ⟨t.state, mapOutput f t.resumed, t.notes⟩
        (relayTurn p .start .fail (fun a => pure (f a)) t) := by
    obtain ⟨s, q | a | e, notes⟩ := t
    · exact ⟨rfl, rfl, fun _ _ => rfl⟩
    · exact ⟨rfl, (List.append_nil notes).symm, nofun⟩
    · exact ⟨rfl, rfl, nofun⟩
  have hbisim : IsBisimulation (p.map f) (p.bind fun a => pure (f a)) fun s s' => s' = .inl s := by
    rintro s _ r rfl
    exact hturn _
  exact hbisim.equivalent (hturn _)

/-- To put out what was put out adds nothing. -/
theorem bind_pure (p : Machine ι ν α) : (p.bind pure).Equivalent p :=
  (map_equivalent p id).symm.trans (.of_eq (map_id p))

/-- Equivalent machines stay so if their outputs are changed alike. -/
theorem Equivalent.map {p p' : Machine ι ν α} (hp : p.Equivalent p') (f : α → β) :
    (p.map f).Equivalent (p'.map f) :=
  (map_equivalent p f).trans ((hp.bind fun _ => .refl _).trans (map_equivalent p' f).symm)

/-! ## Recovery -/

/-- A handler of what a handler fails with handles what the first machine fails with as well. -/
theorem rescue_assoc (p : Machine ι ν α) (f g : Failure ι → Machine ι ν α) :
    ((p.rescue f).rescue g).Equivalent (p.rescue fun e => (f e).rescue g) := by
  refine relay_assoc (fun _ => .complete rfl) fun e => ?_
  by_cases he : e.isFatal
  · rw [if_pos he]
    exact .fail (if_pos he)
  · rw [if_neg he]
    exact .start e

/-- Recovery by one machine is recovery that does not look at the failure. -/
theorem recoverWith_equivalent (p q : Machine ι ν α) :
    (p.recoverWith q).Equivalent (p.rescue fun _ => q) := by
  refine relay_congr (.refl p) (fun a => .complete a) fun e => ?_
  by_cases he : e.isFatal
  · rw [if_pos he, if_pos he]
    exact .fail e
  · rw [if_neg he, if_neg he]
    exact .start (.refl q)

/-! ## Pairs and lists -/

/-- A pair and a dependent sequence run the same machine. -/
inductive PairBound (p : Machine ι ν α) (q : Machine ι ν β) :
    (p.pair q).State → p.State ⊕ (_ : α) × q.State → Prop
  /-- The first machine runs. -/
  | first (s : p.State) : PairBound p q (.first s) (.inl s)
  /-- The second machine runs. -/
  | second (a : α) (s : q.State) : PairBound p q (.second (some a) s) (.inr ⟨a, s⟩)

/-- A pair puts out what its second machine does behind the output of the first. -/
theorem pair_equivalent (p : Machine ι ν α) (q : Machine ι ν β) :
    (p.pair q).Equivalent (p.bind fun a => q.map (a, ·)) := by
  have hsecond (a : α) (t : Turn q.State ι ν β) : Turn.Agree (PairBound p q) (pairSecond (some a) t)
      (Turn.within (fun s => .inr ⟨a, s⟩) ⟨t.state, mapOutput (a, ·) t.resumed, t.notes⟩) := by
    obtain ⟨s, r | b | e, notes⟩ := t
    · exact ⟨rfl, rfl, fun _ _ => .second a s⟩
    · exact ⟨rfl, rfl, nofun⟩
    · exact ⟨rfl, rfl, nofun⟩
  have hfirst (t : Turn p.State ι ν α) : Turn.Agree (PairBound p q) (pairTurn p q t)
      (relayTurn p .start .fail (fun a => q.map (a, ·)) t) := by
    obtain ⟨s, r | a | e, notes⟩ := t
    · exact ⟨rfl, rfl, fun _ _ => .first s⟩
    · exact (hsecond a q.start).after notes
    · exact ⟨rfl, rfl, nofun⟩
  have hbisim : IsBisimulation (p.pair q) (p.bind fun a => q.map (a, ·)) (PairBound p q) := by
    intro s s' r hs
    cases hs with
    | first s => exact hfirst _
    | second a s => exact hsecond a _
  exact hbisim.equivalent (hfirst _)

/-- The machines of a list and a dependent sequence run the same machine. -/
inductive ConsBound (p : Machine ι ν α) (rest : Machine ι ν (List α)) :
    (cons p rest).State → p.State ⊕ (_ : α) × rest.State → Prop
  /-- The first machine runs. -/
  | first (s : p.State) : ConsBound p rest (.inl s) (.inl s)
  /-- The machines behind it run. -/
  | second (a : α) (s : rest.State) : ConsBound p rest (.inr (a, s)) (.inr ⟨a, s⟩)

/-- A list is a dependent sequence in which the output of the first machine stands before the
others. -/
theorem cons_equivalent (p : Machine ι ν α) (rest : Machine ι ν (List α)) :
    (cons p rest).Equivalent (p.bind fun a => rest.map (a :: ·)) := by
  have hfirst (t : Turn p.State ι ν α) : Turn.Agree (ConsBound p rest) (consTurn p rest t)
      (relayTurn p .start .fail (fun a => rest.map (a :: ·)) t) := by
    obtain ⟨s, r | a | e, notes⟩ := t
    · exact ⟨rfl, rfl, fun _ _ => .first s⟩
    · exact ⟨rfl, rfl, fun _ _ => .second a _⟩
    · exact ⟨rfl, rfl, nofun⟩
  have hbisim : IsBisimulation (cons p rest) (p.bind fun a => rest.map (a :: ·))
      (ConsBound p rest) := by
    intro s s' r hs
    cases hs with
    | first s => exact hfirst _
    | second a s => exact ⟨rfl, rfl, fun _ _ => .second a _⟩
  exact hbisim.equivalent (hfirst _)

/-- To start over after an output changes nothing before it. -/
theorem rewinding_equivalent (p : Machine ι ν α) : p.rewinding.Equivalent p := by
  have hturn (t : Turn p.State ι ν α) : (rewindingTurn p t).Agree Eq t := by
    obtain ⟨s, q | a | e, notes⟩ := t
    · exact ⟨rfl, rfl, fun _ _ => rfl⟩
    · exact ⟨rfl, rfl, nofun⟩
    · exact ⟨rfl, rfl, nofun⟩
  have hbisim : IsBisimulation p.rewinding p Eq := by
    rintro s _ r rfl
    exact hturn _
  exact hbisim.equivalent (hturn _)

/-- Nothing in order is the empty list at once. -/
theorem all_nil : (all ([] : List (Machine ι ν α))).Equivalent (pure []) :=
  equivalent_of_result (x := .ok []) rfl rfl rfl

/-- Machines in order are the first one and then the others. -/
theorem all_cons (p : Machine ι ν α) (ps : List (Machine ι ν α)) :
    (all (p :: ps)).Equivalent (p.bind fun a => (all ps).map (a :: ·)) := by
  refine (rewinding_equivalent _).trans ((cons_equivalent p _).trans ?_)
  exact Equivalent.bind (.refl p) fun a => (rewinding_equivalent _).symm.map _

/-! ## Sequences -/

/-- Run machines in order, and then the machine that is built from the list of the outputs. -/
def inOrder : List (Machine ι ν α) → (List α → Machine ι ν β) → Machine ι ν β
  | [], g => g []
  | p :: ps, g => p.bind fun a => inOrder ps fun as => g (a :: as)

/-- A change of the output may be left to what follows. -/
theorem map_bind (p : Machine ι ν α) (f : α → β) (g : β → Machine ι ν γ) :
    ((p.map f).bind g).Equivalent (p.bind fun a => g (f a)) :=
  ((map_equivalent p f).bind fun _ => .refl _).trans
    ((bind_assoc p _ g).trans (Equivalent.bind (.refl p) fun a => pure_bind (f a) g))

/-- Machines in order with something behind them may be written out one after another. -/
theorem all_bind (ps : List (Machine ι ν α)) (g : List α → Machine ι ν β) :
    ((all ps).bind g).Equivalent (inOrder ps g) := by
  induction ps generalizing g with
  | nil => exact (all_nil.bind fun _ => .refl _).trans (pure_bind [] g)
  | cons p ps ih =>
    have hassoc : ((all (p :: ps)).bind g).Equivalent
        (p.bind fun a => ((all ps).map (a :: ·)).bind g) :=
      ((all_cons p ps).bind fun _ => .refl _).trans (bind_assoc p _ g)
    exact hassoc.trans (Equivalent.bind (.refl p) fun a => (map_bind _ _ g).trans (ih _))

/-- Machines in order are dependent machines whose outputs are gathered. -/
theorem all_equivalent (ps : List (Machine ι ν α)) : (all ps).Equivalent (inOrder ps pure) :=
  (bind_pure _).symm.trans (all_bind ps pure)

/-- A pair with something behind it is two machines and then what is behind them. -/
theorem pair_bind (p : Machine ι ν α) (q : Machine ι ν β) (g : α × β → Machine ι ν γ) :
    ((p.pair q).bind g).Equivalent (p.bind fun a => q.bind fun b => g (a, b)) :=
  ((pair_equivalent p q).bind fun _ => .refl _).trans
    ((bind_assoc p _ g).trans (Equivalent.bind (.refl p) fun _ => map_bind q _ g))

end Machine

namespace Grammar

open Machine

variable {ρ : Type → Type} (rules : RuleBook ρ ι ν) (depth : Nat)

/-- Three in order are a list in order, if their outputs are packed. -/
theorem sequence₃_equivalent (p q r : Grammar ρ ι ν α) :
    (((sequence₃ p q r).map fun (a, b, c) => [a, b, c]).parser rules depth).Equivalent
      ((allOf [p, q, r]).parser rules depth) := by
  let ps := [p, q, r].map (parser rules depth)
  have hall : ((allOf [p, q, r]).parser rules depth).Equivalent (inOrder ps .pure) :=
    all_equivalent ps
  refine Equivalent.trans ?_ hall.symm
  -- the outputs are packed twice, first into a triple and then into a list
  refine Equivalent.trans (.of_eq (Machine.map_map _ _ _)) ((map_equivalent _ _).trans ?_)
  exact (pair_bind _ _ _).trans (pair_bind _ _ _)

/-- Four in order are a list in order, if their outputs are packed. -/
theorem sequence₄_equivalent (p q r s : Grammar ρ ι ν α) :
    (((sequence₄ p q r s).map fun (a, b, c, d) => [a, b, c, d]).parser rules depth).Equivalent
      ((allOf [p, q, r, s]).parser rules depth) := by
  let ps := [p, q, r, s].map (parser rules depth)
  have hall : ((allOf [p, q, r, s]).parser rules depth).Equivalent (inOrder ps .pure) :=
    all_equivalent ps
  refine Equivalent.trans ?_ hall.symm
  refine Equivalent.trans (.of_eq (Machine.map_map _ _ _)) ((map_equivalent _ _).trans ?_)
  exact (pair_bind _ _ _).trans ((pair_bind _ _ _).trans (pair_bind _ _ _))

end Grammar

/-- The laws of the combinators, for all machines and functions.  Each equivalence is about all that
can be observed of a computation: what it asks, what it notes, and how it ends, whatever it is
answered. -/
theorem combinator_laws :
    (∀ {α β : Type} (a : α) (f : α → Machine ι ν β),
      ((Machine.pure a).bind f).Equivalent (f a)) ∧
    (∀ {α : Type} (p : Machine ι ν α), (p.bind .pure).Equivalent p) ∧
    (∀ {α β γ : Type} (p : Machine ι ν α) (f : α → Machine ι ν β) (g : β → Machine ι ν γ),
      ((p.bind f).bind g).Equivalent (p.bind fun a => (f a).bind g)) ∧
    (∀ {α : Type} (p : Machine ι ν α) (f g : Failure ι → Machine ι ν α),
      ((p.rescue f).rescue g).Equivalent (p.rescue fun e => (f e).rescue g)) ∧
    (∀ {α : Type} (p q : Machine ι ν α), (p.recoverWith q).Equivalent (p.rescue fun _ => q)) ∧
    (∀ {α β : Type} (p : Machine ι ν α) (q : Machine ι ν β),
      (p.pair q).Equivalent (p.bind fun a => q.map fun b => (a, b))) ∧
    (∀ {ρ : Type → Type} (rules : RuleBook ρ ι ν) (depth : Nat) {α : Type}
      (p q r s : Grammar ρ ι ν α),
      (((p.sequence₃ q r).map fun (a, b, c) => [a, b, c]).parser rules depth).Equivalent
          ((Grammar.allOf [p, q, r]).parser rules depth) ∧
        (((p.sequence₄ q r s).map fun (a, b, c, d) => [a, b, c, d]).parser rules depth).Equivalent
          ((Grammar.allOf [p, q, r, s]).parser rules depth)) ∧
    (∀ {α β γ : Type} (p : Machine ι ν α) (f : α → β) (g : β → γ),
      ((p.map f).map g).Equivalent (p.map fun a => g (f a))) ∧
    (∀ {α : Type} (build : Unit → Machine ι ν α),
      (Machine.deferred build).Equivalent (build ())) ∧
    ∀ {α : Type} (p : Machine ι ν α) (a b : String),
      p.fatal.fatal.Equivalent p.fatal ∧ (p.fatal.label a).Equivalent (p.label a).fatal ∧
        ((p.label a).label b).Equivalent (p.label a) := by
  refine ⟨Machine.pure_bind, Machine.bind_pure, Machine.bind_assoc, Machine.rescue_assoc,
    Machine.recoverWith_equivalent, Machine.pair_equivalent,
    fun rules depth _ p q r s => ⟨?_, ?_⟩, fun p f g => ?_, Machine.deferred_equivalent,
    fun p a b => ⟨?_, ?_, ?_⟩⟩
  · exact Grammar.sequence₃_equivalent rules depth p q r
  · exact Grammar.sequence₄_equivalent rules depth p q r s
  · exact .of_eq (p.map_map f g)
  · exact .of_eq p.fatal_fatal
  · exact .of_eq (p.label_fatal a)
  · exact .of_eq (p.label_label a b)

end ResumableParsing

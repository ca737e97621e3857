/-
# The custody of tokens

A computation may keep the tokens that it is handed and return to them later.  Machines that make up
no tokens of their own return to no others, whatever they are answered.  The machines of plain
grammars are of this kind, since a machine that runs others inside hands on to them what it is told.

What a computation in some state may still do is described by all its replays.  It is enough to know
of each state something that every turn preserves: which tokens are kept there, and that the machine
that runs inside is of the same kind.
-/
import ResumableParsing.Proofs.Descent.Grammar

namespace ResumableParsing

variable {ι ν ο α β σ τ : Type} {trusted : Token → Prop}

/-! ## Turns -/

/-- An answer that hands out no token but a trusted one. -/
def Trusts (trusted : Token → Prop) (r : Option (Response ι)) : Prop :=
  ∀ k, r = some (.token k) → trusted k

/-- A token that is read from the answer was handed out by it. -/
theorem Trusts.of_expectToken {r : Option (Response ι)} (hr : Trusts trusted r) {k : Token}
    (h : expectToken r = .ok k) : trusted k := by
  rcases r with _ | _ | _ | k'
  · cases h
  · cases h
  · cases h
  · cases h
    exact hr k rfl

/-- A turn that returns to no token but a trusted one, and leaves a state of the given kind. -/
structure Turn.Heeds (trusted : Token → Prop) (kind : σ → Prop) (t : Turn σ ι ν ο) : Prop where
  /-- The token that the turn returns to, if any, is trusted. -/
  returns : ∀ k, t.resumed = .suspend (.rollback k) → trusted k
  /-- The state is of the kind. -/
  state : kind t.state

namespace Turn

variable {kind : σ → Prop} {t : Turn σ ι ν α}

/-- A return that is passed on to the outside is one to a trusted token. -/
theorem Heeds.passes (h : t.Heeds trusted kind) {q : Request} (asks : t.resumed = .suspend q)
    {k : Token} (hk : (.suspend q : Resumed ι β) = .suspend (.rollback k)) : trusted k :=
  h.returns k (asks.trans (congrArg _ (Resumed.suspend.inj hk)))

/-- Notes do not matter. -/
theorem Heeds.after (h : t.Heeds trusted kind) (ns : List ν) : (t.after ns).Heeds trusted kind :=
  ⟨h.returns, h.state⟩

end Turn

/-! ## Machines -/

namespace Machine

variable {m : Machine ι ν ο} {p : Machine ι ν α} {q : Machine ι ν β}

/-- A computation that is told trusted tokens only returns to trusted tokens only. -/
def Heeds (m : Machine ι ν ο) (trusted : Token → Prop) (s : m.State) : Prop :=
  ∀ rs, (∀ r ∈ rs, Trusts trusted r) → ∀ t ∈ m.replay s rs, ∀ k,
    t.resumed = .suspend (.rollback k) → trusted k

/-- A state keeps what it promises through every turn with trusted tokens. -/
theorem Heeds.resume {s : m.State} (h : m.Heeds trusted s) {r : Option (Response ι)}
    (hr : Trusts trusted r) : (m.resume s r).Heeds trusted (m.Heeds trusted) where
  returns := h [r] (List.forall_mem_singleton.mpr hr) _ (List.mem_singleton.mpr rfl)
  state rs hrs t ht :=
    h (r :: rs) (List.forall_mem_cons.mpr ⟨hr, hrs⟩) t (List.mem_cons_of_mem _ ht)

/-- The first turn is told nothing, and so nothing that is not trusted. -/
theorem Heeds.start (h : m.Heeds trusted m.init) : m.start.Heeds trusted (m.Heeds trusted) :=
  h.resume nofun

/-- It is enough to know of each state something that every turn preserves. -/
theorem heeds_of_invariant (kind : m.State → Prop)
    (step : ∀ s r, kind s → Trusts trusted r → (m.resume s r).Heeds trusted kind) {s : m.State}
    (h : kind s) : m.Heeds trusted s := by
  intro rs hrs
  induction rs generalizing s with
  | nil => exact fun t ht => absurd ht List.not_mem_nil
  | cons r rs ih =>
    obtain ⟨hr, hrs⟩ := List.forall_mem_cons.mp hrs
    have hturn := step s r h hr
    exact List.forall_mem_cons.mpr ⟨hturn.returns, ih hturn.state hrs⟩

/-- A machine that never returns uses no tokens at all. -/
theorem heeds_of_never (h : ∀ s r k, (m.resume s r).resumed ≠ .suspend (.rollback k))
    {s : m.State} : m.Heeds trusted s :=
  heeds_of_invariant (fun _ => True) (fun s r _ _ => ⟨fun k hk => absurd hk (h s r k), trivial⟩)
    trivial

/-! ## Leaves -/

/-- A test of an item never returns. -/
theorem heeds_satisfy (expected : String) (accepts : ι → Bool) (s : Testing) :
    (satisfy (ν := ν) expected accepts).Heeds trusted s := by
  refine heeds_of_never fun s r k h => ?_
  cases s with
  | start => cases h
  | looked =>
    rcases r with _ | x | _ | t
    · cases h
    · cases hx : accepts x <;> simp [satisfy, hx] at h
    · cases h
    · cases h
  | taken => rcases r with _ | _ | _ | _ <;> cases h

theorem heeds_endOfInput (s : Bool) : (endOfInput (ι := ι) (ν := ν)).Heeds trusted s := by
  refine heeds_of_never fun s r k h => ?_
  cases s with
  | false => cases h
  | true => rcases r with _ | _ | _ | _ <;> cases h

/-- An inquiry that is no return makes none. -/
theorem heeds_ask (q : Inquiry ι α) (hq : ∀ k, q.request ≠ .rollback k) (s : Bool) :
    (ask (ν := ν) q).Heeds trusted s := by
  refine heeds_of_never fun s r k h => ?_
  cases s with
  | false => exact hq k (Resumed.suspend.inj h)
  | true =>
    cases r with
    | none => cases h
    | some r => cases hr : q.read r <;> simp [ask, hr] at h

theorem heeds_pure (a : α) (s : Bool) : (pure (ι := ι) (ν := ν) a).Heeds trusted s := by
  refine heeds_of_never fun s r k h => ?_
  cases s <;> cases h

/-- Looking forever needs no tokens. -/
theorem heeds_stalled : (stalled : Machine ι ν α).Heeds trusted () :=
  heeds_of_never fun s r k h => by cases h

/-! ## Machines around one machine -/

/-- A change of the output makes no requests. -/
theorem suspend_of_mapOutput {f : α → β} {x : Resumed ι α} {r : Request}
    (h : mapOutput f x = .suspend r) : x = .suspend r := by
  cases x <;> cases h
  rfl

/-- A change of the failure makes no requests. -/
theorem suspend_of_mapFailure {f : Failure ι → Failure ι} {x : Resumed ι α} {r : Request}
    (h : mapFailure f x = .suspend r) : x = .suspend r := by
  cases x <;> cases h
  rfl

/-- The tokens are those of the machine inside. -/
theorem Heeds.map {s : p.State} (h : p.Heeds trusted s) (f : α → β) :
    (p.map f).Heeds trusted s := by
  refine heeds_of_invariant (m := p.map f) (p.Heeds trusted) (fun s r hs hr => ?_) h
  have hturn := hs.resume hr
  exact ⟨fun k hk => hturn.returns k (suspend_of_mapOutput hk), hturn.state⟩

/-- A failure holds no token that is returned to. -/
theorem Heeds.changeFailure {s : p.State} (h : p.Heeds trusted s) (f : Failure ι → Failure ι) :
    (p.changeFailure f).Heeds trusted s := by
  refine heeds_of_invariant (m := p.changeFailure f) (p.Heeds trusted) (fun s r hs hr => ?_) h
  have hturn := hs.resume hr
  exact ⟨fun k hk => hturn.returns k (suspend_of_mapFailure hk), hturn.state⟩

theorem Heeds.tap {s : p.State} (h : p.Heeds trusted s)
    (mark : Option (Response ι) → Resumed ι α → ν) : (p.tap mark).Heeds trusted s :=
  heeds_of_invariant (m := p.tap mark) (p.Heeds trusted)
    (fun _ _ hs hr => ⟨(hs.resume hr).returns, (hs.resume hr).state⟩) h

/-- Before it is built, a machine holds no tokens. -/
theorem Heeds.deferred {build : Unit → Machine ι ν α}
    (h : (build ()).Heeds trusted (build ()).init) : (deferred build).Heeds trusted none :=
  heeds_of_invariant (m := Machine.deferred build)
    (fun s => (build ()).Heeds trusted (s.getD (build ()).init))
    (fun _ _ hs hr => ⟨(Heeds.resume hs hr).returns, (Heeds.resume hs hr).state⟩) h

/-- Starting over, a list forgets what it kept. -/
theorem Heeds.rewinding (h : p.Heeds trusted p.init) : p.rewinding.Heeds trusted p.init := by
  refine heeds_of_invariant (m := p.rewinding) (p.Heeds trusted) (fun s r hs hr => ?_) h
  have hturn := hs.resume hr
  show (rewindingTurn p (p.resume s r)).Heeds trusted _
  unfold rewindingTurn
  cases ht : (p.resume s r).resumed with
  | suspend q => exact ⟨fun _ => hturn.passes ht, hturn.state⟩
  | complete a => exact ⟨nofun, h⟩
  | fail e => exact ⟨nofun, hturn.state⟩

/-! ## One machine after another -/

/-- What is known of a pair when it is known of its machines, by which of them runs. -/
def Pairing.Each (first : σ → Prop) (second : τ → Prop) : Pairing σ α τ → Prop
  | .first s => first s
  | .second _ s => second s

/-- In the second half of a pair only the second machine keeps tokens. -/
theorem heeds_pairSecond (first : σ → Prop) {t : Turn q.State ι ν β}
    (h : t.Heeds trusted (q.Heeds trusted)) (a : Option α) :
    (pairSecond (σ := σ) a t).Heeds trusted (Pairing.Each first (q.Heeds trusted)) := by
  unfold pairSecond
  cases ht : t.resumed with
  | suspend r => exact ⟨fun _ => h.passes ht, h.state⟩
  | complete b => cases a <;> exact ⟨nofun, h.state⟩
  | fail e => exact ⟨nofun, h.state⟩

/-- A pair returns where one of its machines does. -/
theorem Heeds.pair (hp : p.Heeds trusted p.init) (hq : q.Heeds trusted q.init) :
    (p.pair q).Heeds trusted (.first p.init) := by
  refine heeds_of_invariant (m := p.pair q)
    (Pairing.Each (p.Heeds trusted) (q.Heeds trusted)) (fun s r hs hr => ?_) hp
  cases s with
  | first s =>
    have hturn := Heeds.resume (m := p) hs hr
    show (pairTurn p q (p.resume s r)).Heeds trusted _
    unfold pairTurn
    cases ht : (p.resume s r).resumed with
    | suspend _ => exact ⟨fun _ => hturn.passes ht, hturn.state⟩
    | complete a => exact (heeds_pairSecond _ hq.start _).after _
    | fail e => exact ⟨nofun, hturn.state⟩
  | second a s => exact heeds_pairSecond _ (Heeds.resume (m := q) hs hr) a

theorem heeds_nil : (nil : Machine ι ν (List α)).Heeds trusted () :=
  heeds_of_never fun s r k h => by cases h

/-- Behind the first machine of a list only the machines there keep tokens. -/
theorem heeds_consTail {rest : Machine ι ν (List α)} {t : Turn rest.State ι ν (List α)}
    (h : t.Heeds trusted (rest.Heeds trusted)) (first : σ → Prop) (a : α) :
    (consTail (σ := σ) a t).Heeds trusted (Sum.elim first fun s => rest.Heeds trusted s.2) :=
  ⟨fun k hk => h.returns k (suspend_of_mapOutput hk), h.state⟩

/-- A list returns where its first machine or one behind it does. -/
theorem Heeds.cons {rest : Machine ι ν (List α)} (hp : p.Heeds trusted p.init)
    (hrest : rest.Heeds trusted rest.init) : (p.cons rest).Heeds trusted (.inl p.init) := by
  refine heeds_of_invariant (m := p.cons rest)
    (Sum.elim (p.Heeds trusted) fun s => rest.Heeds trusted s.2) (fun s r hs hr => ?_) hp
  cases s with
  | inl s =>
    have hturn := Heeds.resume (m := p) hs hr
    show (consTurn p rest (p.resume s r)).Heeds trusted _
    unfold consTurn
    cases ht : (p.resume s r).resumed with
    | suspend _ => exact ⟨fun _ => hturn.passes ht, hturn.state⟩
    | complete a => exact (heeds_consTail hrest.start _ a).after _
    | fail e => exact ⟨nofun, hturn.state⟩
  | inr s => exact heeds_consTail (Heeds.resume (m := rest) hs hr) _ s.1

/-- A list of machines returns where one of them does. -/
theorem heeds_all {ps : List (Machine ι ν α)} (h : ∀ p ∈ ps, p.Heeds trusted p.init) :
    (all ps).Heeds trusted (all ps).init := by
  have hfold : (ps.foldr Machine.cons nil).Heeds trusted (ps.foldr Machine.cons nil).init := by
    induction ps with
    | nil => exact heeds_nil
    | cons p ps ih =>
      obtain ⟨hp, hps⟩ := List.forall_mem_cons.mp h
      exact hp.cons (ih hps)
  exact hfold.rewinding

/-- A relay returns where its first machine or the one that takes over does. -/
theorem Heeds.relay {κ : Type} {completed : α → Next κ ι β} {failed : Failure ι → Next κ ι β}
    {next : κ → Machine ι ν β} (hp : p.Heeds trusted p.init)
    (hnext : ∀ k, (next k).Heeds trusted (next k).init) :
    (p.relay completed failed next).Heeds trusted (.inl p.init) := by
  refine heeds_of_invariant (m := p.relay completed failed next)
    (Sum.elim (p.Heeds trusted) fun s => (next s.1).Heeds trusted s.2)
    (fun s r hs hr => ?_) hp
  cases s with
  | inl s =>
    have hturn := Heeds.resume (m := p) hs hr
    have hfollow (n : Next κ ι β) :
        (n.turn p completed failed next (p.resume s r)).Heeds trusted
          (Sum.elim (p.Heeds trusted) fun s => (next s.1).Heeds trusted s.2) := by
      cases n with
      | start k => exact ⟨(hnext k).start.returns, (hnext k).start.state⟩
      | complete b => exact ⟨nofun, hturn.state⟩
      | fail e => exact ⟨nofun, hturn.state⟩
    show (relayTurn p completed failed next (p.resume s r)).Heeds trusted _
    unfold relayTurn
    cases ht : (p.resume s r).resumed with
    | suspend _ => exact ⟨fun _ => hturn.passes ht, hturn.state⟩
    | complete a => exact hfollow _
    | fail e => exact hfollow _
  | inr s =>
    have hturn := Heeds.resume (m := next s.1) hs hr
    exact ⟨hturn.returns, hturn.state⟩

/-! ## Choice -/

/-- What is known of a choice: the tokens that it keeps are trusted, and so is what the running
alternative does. -/
def Choosing.Keeps (trusted : Token → Prop) {n : Nat} {run : Fin n → Type}
    (running : ∀ i, run i → Prop) : Choosing ι run → Prop
  | .start => True
  | .opening => True
  | .running initial best i s =>
    trusted initial ∧ (∀ g ∈ best, trusted g.token) ∧ running i s
  | .measuring initial best _ _ => trusted initial ∧ ∀ g ∈ best, trusted g.token
  | .returning initial best _ => trusted initial ∧ trusted best.token
  | .settling _ => True
  | .ended => True

/-- The furthest place is one that was measured. -/
theorem trusted_record {best : Option (Furthest ι)} {reached : Token}
    (hbest : ∀ g ∈ best, trusted g.token) (hreached : trusted reached) (e : Failure ι) :
    trusted (Furthest.record best reached e).token := by
  unfold Furthest.record
  cases best with
  | none => exact hreached
  | some g =>
    have hg : trusted g.token := hbest g rfl
    dsimp only
    split
    · exact hg
    · split
      · exact hg
      · exact hreached

/-- An alternative that fails leaves its choice with trusted tokens, wherever the choice goes then.
-/
theorem heeds_alternativeTurn {ps : List (Machine ι ν α)} {initial : Token}
    (hinitial : trusted initial) {best : Option (Furthest ι)}
    (hbest : ∀ g ∈ best, trusted g.token) (i : Fin ps.length) {t : Turn (ps.get i).State ι ν α}
    (h : t.Heeds trusted ((ps.get i).Heeds trusted)) :
    (alternativeTurn ps initial best i t).Heeds trusted
      (Choosing.Keeps trusted fun i => (ps.get i).Heeds trusted) := by
  unfold alternativeTurn Choosing.ofTurn
  cases ht : t.resumed with
  | suspend _ => exact ⟨fun _ => h.passes ht, hinitial, hbest, h.state⟩
  | complete a => exact ⟨nofun, trivial⟩
  | fail e =>
    by_cases he : e.isFatal
    · simp only [if_pos he]
      exact ⟨nofun, trivial⟩
    · simp only [if_neg he]
      exact ⟨nofun, hinitial, hbest⟩

/-- A choice returns to where it began and to the furthest place, for both of which it holds a token
that it was handed. -/
theorem heeds_choice {ps : List (Machine ι ν α)} (h : ∀ p ∈ ps, p.Heeds trusted p.init) :
    (choice ps).Heeds trusted (choice ps).init := by
  have hstart (i : Fin ps.length) := Heeds.start (h _ (ps.get_mem i))
  refine heeds_of_invariant (m := choice ps)
    (Choosing.Keeps trusted fun i => (ps.get i).Heeds trusted) (fun s r hs hr => ?_) trivial
  cases s with
  | start =>
    simp only [choice, chooseFrom]
    split
    · exact ⟨nofun, trivial⟩
    · exact ⟨nofun, trivial⟩
  | opening =>
    simp only [choice, chooseFrom]
    split
    · exact ⟨nofun, trivial⟩
    · rename_i initial hinitial
      split
      · exact heeds_alternativeTurn (hr.of_expectToken hinitial) (fun g hg => by cases hg) _
          (hstart _)
      · exact ⟨nofun, trivial⟩
  | running initial best i s =>
    obtain ⟨hinitial, hbest, hs⟩ := hs
    exact heeds_alternativeTurn hinitial hbest i (Heeds.resume (m := ps.get i) hs hr)
  | measuring initial best i e =>
    obtain ⟨hinitial, hbest⟩ := hs
    simp only [choice, chooseFrom]
    split
    · exact ⟨nofun, trivial⟩
    · rename_i reached hreached
      have hrecord := trusted_record hbest (hr.of_expectToken hreached) e
      -- the choice returns to where it began, or at last to the furthest place
      split
      · exact ⟨fun k hk => by cases hk; exact hinitial, hinitial, hrecord⟩
      · exact ⟨fun k hk => by cases hk; exact hrecord, trivial⟩
  | returning initial best i =>
    obtain ⟨hinitial, hbest⟩ := hs
    simp only [choice, chooseFrom]
    split
    · exact ⟨nofun, trivial⟩
    · exact heeds_alternativeTurn hinitial (fun g hg => Option.some.inj hg ▸ hbest) i (hstart i)
  | settling best =>
    simp only [choice, chooseFrom]
    split
    · exact ⟨nofun, trivial⟩
    · exact ⟨nofun, trivial⟩
  | ended => exact ⟨nofun, trivial⟩

/-! ## Repetition -/

/-- What is known of a repetition: the checkpoint that it keeps is trusted, and so is what the run
that is under way does. -/
def Repeating.Keeps (trusted : Token → Prop) (running : σ → Prop) : Repeating α σ → Prop
  | .start => True
  | .mandatory _ _ s => running s
  | .checking _ _ _ => True
  | .optional _ checkpoint _ s => trusted checkpoint ∧ running s
  | .returning _ => True
  | .ended => True

section Repetition

open Repeating

/-- A repetition keeps no checkpoint that it was not handed. -/
theorem heeds_proceed (room last : Option Nat) (done : List α) :
    (proceed (ι := ι) (ν := ν) room last done).Heeds trusted
      (Repeating.Keeps trusted (p.Heeds trusted)) := by
  unfold proceed
  split
  · exact ⟨nofun, trivial⟩
  · exact ⟨nofun, trivial⟩

/-- A run that must succeed has no checkpoint to return to. -/
theorem heeds_ofMandatory (left : Nat) (done : List α)
    {onward : List α → Turn (Repeating α p.State) ι ν (List α)}
    (honward : ∀ done, (onward done).Heeds trusted (Repeating.Keeps trusted (p.Heeds trusted)))
    {t : Turn p.State ι ν α} (h : t.Heeds trusted (p.Heeds trusted)) :
    (ofMandatory left done onward t).Heeds trusted
      (Repeating.Keeps trusted (p.Heeds trusted)) := by
  unfold ofMandatory
  cases ht : t.resumed with
  | suspend _ => exact ⟨fun _ => h.passes ht, h.state⟩
  | complete a => exact (honward _).after _
  | fail e => exact ⟨nofun, trivial⟩

/-- Several runs that start at once return where one of them does. -/
theorem heeds_demand (h : p.Heeds trusted p.init) (room : Option Nat) (left : Nat)
    (done : List α) :
    (demand p room left done).Heeds trusted (Repeating.Keeps trusted (p.Heeds trusted)) := by
  induction left generalizing done with
  | zero => exact heeds_proceed room none done
  | succ left ih => exact heeds_ofMandatory left done ih h.start

/-- When an optional run fails, the return is to the checkpoint before it. -/
theorem heeds_ofOptional (room : Option Nat) {checkpoint : Token}
    (hcheckpoint : trusted checkpoint) (done : List α) {t : Turn p.State ι ν α}
    (h : t.Heeds trusted (p.Heeds trusted)) :
    (ofOptional room checkpoint done t).Heeds trusted
      (Repeating.Keeps trusted (p.Heeds trusted)) := by
  unfold ofOptional
  cases ht : t.resumed with
  | suspend _ => exact ⟨fun _ => h.passes ht, hcheckpoint, h.state⟩
  | complete a => exact (heeds_proceed _ _ _).after _
  | fail e =>
    by_cases he : e.isFatal
    · simp only [if_pos he]
      exact ⟨nofun, trivial⟩
    · simp only [if_neg he]
      exact ⟨fun k hk => by cases hk; exact hcheckpoint, trivial⟩

/-- A repetition returns only to a checkpoint that it was handed. -/
theorem Heeds.repetition (h : p.Heeds trusted p.init) (min : Nat) (max : Option Nat) :
    (p.repetition min max).Heeds trusted .start := by
  refine heeds_of_invariant (m := p.repetition min max)
    (Repeating.Keeps trusted (p.Heeds trusted)) (fun s r hs hr => ?_) trivial
  cases s with
  | start =>
    cases min with
    | zero => exact heeds_proceed _ none []
    | succ left => exact heeds_ofMandatory left [] (heeds_demand h _ left) (h.resume hr)
  | mandatory left done s =>
    exact heeds_ofMandatory left done (heeds_demand h _ left) (Heeds.resume (m := p) hs hr)
  | checking room last done =>
    simp only [Machine.repetition]
    split
    · exact ⟨nofun, trivial⟩
    · rename_i checkpoint hcheckpoint
      split
      · exact ⟨nofun, trivial⟩
      · exact heeds_ofOptional room (hr.of_expectToken hcheckpoint) done h.start
  | optional room checkpoint done s =>
    obtain ⟨hcheckpoint, hs⟩ := hs
    exact heeds_ofOptional room hcheckpoint done (Heeds.resume (m := p) hs hr)
  | returning done =>
    simp only [Machine.repetition]
    split
    · exact ⟨nofun, trivial⟩
    · exact ⟨nofun, trivial⟩
  | ended => exact ⟨nofun, trivial⟩

end Repetition

/-! ## Sessions -/

/-- Whatever was told since the start, if all of it is trusted the computation can still be held to
trusted tokens. -/
theorem Leads.heeds (h : m.Heeds trusted m.init) {w : Setting ι}
    {told : List (Option (Response ι))} {t : Turn m.State ι ν ο} {c : Nat}
    (hleads : m.Leads w told t c) (htold : ∀ r ∈ told, Trusts trusted r) :
    t.Heeds trusted (m.Heeds trusted) := by
  induction hleads with
  | start => exact h.start
  | answer _ _ _ ih =>
    obtain ⟨htold, hr⟩ := List.forall_mem_append.mp htold
    exact (ih htold).state.resume (hr _ (List.mem_singleton.mpr rfl))

/-- The computations of the machine return only to tokens that they were handed in the same
session. -/
def Faithful (m : Machine ι ν ο) : Prop :=
  ∀ (w : Setting ι) told t c k, w.start ≤ w.items.length → m.Leads w told t c →
    t.resumed = .suspend (.rollback k) → some (.token k) ∈ told

/-- A computation that can be held to any trusted tokens can be held to those that it was told. -/
theorem faithful_of_heeds (h : ∀ trusted, m.Heeds trusted m.init) : m.Faithful := by
  intro w told t c k _ hleads asks
  have htold : ∀ r ∈ told, Trusts (fun k => some (.token k) ∈ told) r := by
    rintro r hr k rfl
    exact hr
  exact (hleads.heeds (h _) htold).returns k asks

end Machine

/-! ## Grammars -/

namespace Grammar

variable {ρ : Type → Type}

/-- The machine of a plain grammar can be held to any trusted tokens if those of the rules can. -/
theorem machine_heeds {machines : (α : Type) → ρ α → Machine ι ν α}
    (h : ∀ α rule, (machines α rule).Heeds trusted (machines α rule).init) {g : Grammar ρ ι ν α}
    (hg : g.Plain) : (g.machine machines).Heeds trusted (g.machine machines).init := by
  induction g with
  | satisfy expected accepts => exact Machine.heeds_satisfy expected accepts _
  | endOfInput => exact Machine.heeds_endOfInput _
  | ask q => exact Machine.heeds_ask q hg _
  | pure a => exact Machine.heeds_pure a _
  | map p f ih => exact (ih hg).map f
  | pair p q ihp ihq => exact (ihp hg.1).pair (ihq hg.2)
  | all ps ih => exact Machine.heeds_all (List.forall_mem_ofFn_iff.mpr fun i => ih i (hg i))
  | choice ps ih => exact Machine.heeds_choice (List.forall_mem_ofFn_iff.mpr fun i => ih i (hg i))
  | repetition p min max ih => exact (ih hg).repetition min max
  | bind p f ihp ihf => exact (ihp hg.1).relay fun a => ihf a (hg.2 a)
  | rescue p handler ihp ihh => exact (ihp hg.1).relay fun e => ihh e (hg.2 e)
  | recoverWith p q ihp ihq => exact (ihp hg.1).relay fun _ => ihq hg.2
  | fatal p ih => exact (ih hg).changeFailure _
  | label p construct ih => exact (ih hg).changeFailure _
  | call rule => exact (h _ rule).deferred
  | tap p mark ih => exact (ih hg).tap mark
  | custom m => exact hg.elim

/-- However deep rules are unfolded, their machines can be held to any trusted tokens. -/
theorem ruleMachine_heeds {rules : RuleBook ρ ι ν} (hrules : rules.Plain) (depth : Nat)
    (α : Type) (rule : ρ α) :
    (ruleMachine rules depth α rule).Heeds trusted (ruleMachine rules depth α rule).init := by
  induction depth generalizing α with
  | zero => exact Machine.heeds_stalled
  | succ depth ih => exact machine_heeds (fun α rule => ih α rule) (hrules α rule)

/-- The parser of a plain grammar uses only the tokens that it is handed. -/
theorem parser_faithful {rules : RuleBook ρ ι ν} (hrules : rules.Plain) (depth : Nat)
    {g : Grammar ρ ι ν α} (hg : g.Plain) : (g.parser rules depth).Faithful :=
  Machine.faithful_of_heeds fun _ => machine_heeds (ruleMachine_heeds hrules depth) hg

end Grammar

end ResumableParsing

/-
# What is reached in a grammar

Whatever a resumption of a grammar's machine notes, unless it is tapped, is noted by a machine made
by hand or by the machine of a rule, and that machine is reached.  Since such a machine may note
each of its resumptions, no resumption of it is missed by `Reaches`.  There is one lemma for each
construction.
-/
import Mathlib.Data.List.OfFn
import ResumableParsing.Grammar.Basic
import ResumableParsing.Proofs.Escape.Basic

namespace ResumableParsing

variable {ρ : Type → Type} {ι ν α β κ σ τ : Type}

namespace Machine

/-! ## Machines whose notes are those of others -/

/-- Whatever the machine notes is noted by a machine of a kind that it reaches. -/
def Relays (kind : (α : Type) → Machine ι ν α → Prop) (m : Machine ι ν β) : Prop :=
  ∀ (S : m.State) (R : Option (Response ι)), ∀ x ∈ (m.resume S R).notes,
    ∃ (α : Type) (n : Machine ι ν α) (s : n.State) (r : Option (Response ι)) (labels : List String),
      kind α n ∧ Reaches m S R labels n s r ∧ x ∈ (n.resume s r).notes

/-- In a resumption of the first machine the second one is resumed and notes something. -/
def Hears (m : Machine ι ν β) (S : m.State) (R : Option (Response ι)) (x : ν)
    (p : Machine ι ν α) : Prop :=
  ∃ label s r, Resumes m S R label p s r ∧ x ∈ (p.resume s r).notes

variable {kind : (α : Type) → Machine ι ν α → Prop}

/-- A machine of the kind is reached where it stands. -/
theorem relays_of_kind {m : Machine ι ν α} (h : kind α m) : m.Relays kind :=
  fun S R _ hx => ⟨α, m, S, R, [], h, .here m S R, hx⟩

/-- A machine that notes nothing has nothing to relay. -/
theorem relays_of_silent {m : Machine ι ν α} (h : ∀ S R, (m.resume S R).notes = []) :
    m.Relays kind := by
  intro S R x hx
  rw [h S R] at hx
  cases hx

/-- A machine relays if whatever it notes is noted by a part of it that does. -/
theorem relays_of_hears {m : Machine ι ν β}
    (h : ∀ S R, ∀ x ∈ (m.resume S R).notes, ∃ (α : Type) (p : Machine ι ν α),
      p.Relays kind ∧ m.Hears S R x p) : m.Relays kind := by
  intro S R x hx
  obtain ⟨_, p, hp, label, s, r, hresumes, hnoted⟩ := h S R x hx
  obtain ⟨α, n, s', r', labels, hn, hreaches, hx'⟩ := hp s r x hnoted
  exact ⟨α, n, s', r', labels ++ label.toList, hn, .inside hresumes hreaches, hx'⟩

/-! ## Machines that ask or wait -/

/-- A test of an item notes nothing. -/
theorem relays_satisfy (expected : String) (accepts : ι → Bool) :
    (satisfy (ν := ν) expected accepts).Relays kind := by
  refine relays_of_silent fun S R => ?_
  -- only an item at the cursor is tested
  rcases S with _ | _ | _ <;> rcases R with _ | x | _ | _ <;> try rfl
  show (if accepts x then _ else _ : Turn Testing ι ν ι).notes = []
  split <;> rfl

theorem relays_endOfInput : (endOfInput : Machine ι ν Unit).Relays kind := by
  refine relays_of_silent fun S R => ?_
  rcases S with _ | _ <;> rcases R with _ | _ | _ | _ <;> rfl

/-- A question notes nothing. -/
theorem relays_ask (q : Inquiry ι α) : (ask (ν := ν) q).Relays kind := by
  refine relays_of_silent fun S R => ?_
  rcases S with _ | _ <;> rcases R with _ | r <;> try rfl
  simp only [ask]
  split <;> rfl

theorem relays_pure (a : α) : (pure (ι := ι) (ν := ν) a).Relays kind := by
  refine relays_of_silent fun S R => ?_
  rcases S with _ | _ <;> rfl

/-! ## Machines that run one other -/

variable {p : Machine ι ν α}

/-- The machine whose output is changed is resumed in each turn. -/
theorem Relays.map (hp : p.Relays kind) (f : α → β) : (p.map f).Relays kind :=
  relays_of_hears fun S R _ hx => ⟨α, p, hp, none, S, R, .map p f S R, hx⟩

theorem Relays.fatal (hp : p.Relays kind) : p.fatal.Relays kind :=
  relays_of_hears fun S R _ hx => ⟨α, p, hp, none, S, R, .fatal p S R, hx⟩

/-- The machine inside a label is resumed in each turn, and the label stands in between. -/
theorem Relays.label (hp : p.Relays kind) (construct : String) :
    (p.label construct).Relays kind :=
  relays_of_hears fun S R _ hx =>
    ⟨α, p, hp, some construct, S, R, .label p construct S R, hx⟩

/-- A machine that is built when it is needed is resumed in each turn. -/
theorem Relays.deferred {build : Unit → Machine ι ν α} (hp : (build ()).Relays kind) :
    (deferred build).Relays kind :=
  relays_of_hears fun S R _ hx =>
    ⟨α, build (), hp, none, S.getD (build ()).init, R, .deferred build S R, hx⟩

/-- A list that starts over is resumed in each turn. -/
theorem Relays.rewinding (hp : p.Relays kind) : p.rewinding.Relays kind := by
  refine relays_of_hears fun S R x hx => ⟨α, p, hp, none, S, R, .rewinding p S R, ?_⟩
  have hnotes : (p.rewinding.resume S R).notes = (p.resume S R).notes := by
    simp only [Machine.rewinding]
    split <;> rfl
  rwa [← hnotes]

/-! ## Machines that run several -/

/-- A pair notes what its second machine notes. -/
theorem notes_pairSecond (a : Option α) (t : Turn τ ι ν β) :
    (pairSecond a t : Turn (Pairing σ α τ) ι ν (α × β)).notes = t.notes := by
  unfold pairSecond
  split <;> rfl

/-- In one turn both machines of a pair may be resumed, the second when the first completes. -/
theorem Relays.pair {q : Machine ι ν β} (hp : p.Relays kind) (hq : q.Relays kind) :
    (p.pair q).Relays kind := by
  refine relays_of_hears fun S R x hx => ?_
  cases S with
  | first s =>
    have hturn : (p.pair q).resume (.first s) R = pairTurn p q (p.resume s R) := rfl
    rw [hturn, pairTurn] at hx
    have hfirst (hx : x ∈ (p.resume s R).notes) : ∃ (α : Type) (n : Machine ι ν α),
        n.Relays kind ∧ (p.pair q).Hears (.first s) R x n :=
      ⟨α, p, hp, none, s, R, .first p q s R, hx⟩
    split at hx
    · exact hfirst hx
    · exact hfirst hx
    · next a completes =>
      rcases List.mem_append.mp hx with hx | hx
      · exact hfirst hx
      · have hnoted : x ∈ q.start.notes := by rwa [← notes_pairSecond (some a) q.start]
        exact ⟨β, q, hq, none, q.init, none, .secondStarts p q completes, hnoted⟩
  | second a s =>
    have hnoted : x ∈ (q.resume s R).notes := by rwa [← notes_pairSecond a (q.resume s R)]
    exact ⟨β, q, hq, none, s, R, .second p q a s R, hnoted⟩

theorem relays_nil : (nil : Machine ι ν (List α)).Relays kind := relays_of_silent fun _ _ => rfl

/-- In one turn the first machine of a list may be resumed and then what is behind it. -/
theorem Relays.cons {rest : Machine ι ν (List α)} (hp : p.Relays kind)
    (hrest : rest.Relays kind) : (p.cons rest).Relays kind := by
  refine relays_of_hears fun S R x hx => ?_
  cases S with
  | inl s =>
    have hturn : (p.cons rest).resume (.inl s) R = consTurn p rest (p.resume s R) := rfl
    rw [hturn, consTurn] at hx
    have hhead (hx : x ∈ (p.resume s R).notes) : ∃ (α : Type) (n : Machine ι ν α),
        n.Relays kind ∧ (p.cons rest).Hears (.inl s) R x n :=
      ⟨α, p, hp, none, s, R, .head p rest s R, hx⟩
    split at hx
    · exact hhead hx
    · exact hhead hx
    · next a completes =>
      rcases List.mem_append.mp hx with hx | hx
      · exact hhead hx
      · exact ⟨List α, rest, hrest, none, rest.init, none, .tailStarts p rest completes, hx⟩
  | inr s =>
    obtain ⟨a, s⟩ := s
    exact ⟨List α, rest, hrest, none, s, R, .tail p rest a s R, hx⟩

/-- All machines of a list are reached. -/
theorem relays_all {ps : List (Machine ι ν α)} (hps : ∀ p ∈ ps, p.Relays kind) :
    (all ps).Relays kind := by
  refine Relays.rewinding ?_
  induction ps with
  | nil => exact relays_nil
  | cons p ps ih =>
    exact (hps p List.mem_cons_self).cons (ih fun q hq => hps q (List.mem_cons_of_mem p hq))

/-- What follows the end of the first machine of a relay is noted by the machine that takes over. -/
theorem mem_notes_next {completed : α → Next κ ι β} {failed : Failure ι → Next κ ι β}
    {next : κ → Machine ι ν β} {t : Turn p.State ι ν α} {n : Next κ ι β} {x : ν}
    (hx : x ∈ (n.turn p completed failed next t).notes) :
    x ∈ t.notes ∨ ∃ k, n = .start k ∧ x ∈ (next k).start.notes := by
  cases n with
  | start k =>
    rcases List.mem_append.mp hx with hx | hx
    · exact .inl hx
    · exact .inr ⟨k, rfl, hx⟩
  | complete b => exact .inl hx
  | fail e => exact .inl hx

/-- A relay relays if the machines that it resumes do, and all of them are reached. -/
theorem Relays.relay {completed : α → Next κ ι β} {failed : Failure ι → Next κ ι β}
    {next : κ → Machine ι ν β} (hp : p.Relays kind) (hnext : ∀ k, (next k).Relays kind)
    (leads : ∀ s r, Resumes (p.relay completed failed next) (.inl s) r none p s r)
    (follows : ∀ s r a k, (p.resume s r).resumed = .complete a → completed a = .start k →
      Resumes (p.relay completed failed next) (.inl s) r none (next k) (next k).init none)
    (handles : ∀ s r e k, (p.resume s r).resumed = .fail e → failed e = .start k →
      Resumes (p.relay completed failed next) (.inl s) r none (next k) (next k).init none)
    (goesOn : ∀ k s r,
      Resumes (p.relay completed failed next) (.inr ⟨k, s⟩) r none (next k) s r) :
    (p.relay completed failed next).Relays kind := by
  refine relays_of_hears fun S R x hx => ?_
  cases S with
  | inl s =>
    have hleader (hx : x ∈ (p.resume s R).notes) : ∃ (α : Type) (n : Machine ι ν α),
        n.Relays kind ∧ (p.relay completed failed next).Hears (.inl s) R x n :=
      ⟨α, p, hp, none, s, R, leads s R, hx⟩
    have hturn : (p.relay completed failed next).resume (.inl s) R =
        relayTurn p completed failed next (p.resume s R) := rfl
    rw [hturn, relayTurn] at hx
    split at hx
    · exact hleader hx
    · next a completes =>
      rcases mem_notes_next hx with hx | ⟨k, calls, hx⟩
      · exact hleader hx
      · exact ⟨β, next k, hnext k, none, (next k).init, none, follows s R a k completes calls, hx⟩
    · next e fails =>
      rcases mem_notes_next hx with hx | ⟨k, calls, hx⟩
      · exact hleader hx
      · exact ⟨β, next k, hnext k, none, (next k).init, none, handles s R e k fails calls, hx⟩
  | inr s =>
    obtain ⟨k, s⟩ := s
    exact ⟨β, next k, hnext k, none, s, R, goesOn k s R, hx⟩

/-- An output calls for a machine and a failure does not. -/
theorem Relays.bind {f : α → Machine ι ν β} (hp : p.Relays kind)
    (hf : ∀ a, (f a).Relays kind) : (p.bind f).Relays kind := by
  refine hp.relay hf (.leader p f) ?_ nofun (.follower p f)
  rintro s r a _ completes ⟨⟩
  exact .followerStarts p f completes

/-- Only a recoverable failure calls for a machine. -/
theorem recoverable_of_start {e : Failure ι} {k k' : κ}
    (h : (if e.isFatal then .fail e else .start k : Next κ ι α) = .start k') :
    e.isFatal = false ∧ k = k' := by
  split at h
  · cases h
  · next hrecoverable =>
    cases h
    exact ⟨eq_false_of_ne_true hrecoverable, rfl⟩

/-- The machine and, after a recoverable failure, its handler are reached. -/
theorem Relays.rescue {handler : Failure ι → Machine ι ν α} (hp : p.Relays kind)
    (hh : ∀ e, (handler e).Relays kind) : (p.rescue handler).Relays kind := by
  refine hp.relay hh (.guarded p handler) nofun ?_ (.handler p handler)
  intro s r e k fails calls
  obtain ⟨recoverable, rfl⟩ := recoverable_of_start calls
  exact .handlerStarts p handler fails recoverable

/-- The machine and, after a recoverable failure, the one to fall back on are reached. -/
theorem Relays.recoverWith {q : Machine ι ν α} (hp : p.Relays kind) (hq : q.Relays kind) :
    (p.recoverWith q).Relays kind := by
  refine hp.relay (fun _ => hq) (.preferred p q) nofun ?_ fun _ => .fallback p q
  intro s r e k fails calls
  exact .fallbackStarts p q fails (recoverable_of_start calls).1

/-! ## Choices and repetitions -/

/-- A choice notes what its alternative notes. -/
theorem notes_alternativeTurn (ps : List (Machine ι ν α)) (initial : Token)
    (best : Option (Furthest ι)) (i : Fin ps.length) (t : Turn (ps.get i).State ι ν α) :
    (alternativeTurn ps initial best i t).notes = t.notes := by
  unfold alternativeTurn Choosing.ofTurn
  split
  · rfl
  · rfl
  · split <;> rfl

/-- Every alternative of a choice is reached. -/
theorem relays_choice {ps : List (Machine ι ν α)} (hps : ∀ p ∈ ps, p.Relays kind) :
    (choice ps).Relays kind := by
  refine relays_of_hears fun S R x hx => ?_
  have hturn : (choice ps).resume S R = chooseFrom ps S R := rfl
  have hpart (i : Fin ps.length) : (ps.get i).Relays kind := hps _ (List.get_mem ps i)
  -- the choice notes something only where an alternative is resumed
  rw [hturn] at hx
  cases S with
  | start =>
    rw [chooseFrom] at hx
    split at hx <;> cases hx
  | opening =>
    rw [chooseFrom] at hx
    split at hx
    · cases hx
    · next initial told =>
      split at hx
      · next h =>
        have hnoted : x ∈ (ps.get ⟨0, h⟩).start.notes := by
          rwa [← notes_alternativeTurn ps initial none ⟨0, h⟩ (ps.get ⟨0, h⟩).start]
        exact ⟨α, ps.get ⟨0, h⟩, hpart ⟨0, h⟩, none, _, none, .opens h told, hnoted⟩
      · cases hx
  | running initial best i s =>
    have hnoted : x ∈ ((ps.get i).resume s R).notes := by
      rwa [← notes_alternativeTurn ps initial best i ((ps.get i).resume s R)]
    exact ⟨α, ps.get i, hpart i, none, s, R, .alternative ps initial best i s R, hnoted⟩
  | measuring initial best i e =>
    rw [chooseFrom] at hx
    split at hx
    · cases hx
    · dsimp only at hx
      split at hx <;> cases hx
  | returning initial best i =>
    rw [chooseFrom] at hx
    split at hx
    · cases hx
    · next t told =>
      have hnoted : x ∈ (ps.get i).start.notes := by
        rwa [← notes_alternativeTurn ps initial (some best) i (ps.get i).start]
      exact ⟨α, ps.get i, hpart i, none, _, none, .alternativeStarts ps initial best i told, hnoted⟩
  | settling best =>
    rw [chooseFrom] at hx
    split at hx <;> cases hx
  | ended => cases hx

/-- Going on to the next optional run, a repetition only asks for a checkpoint. -/
theorem notes_proceed (room last : Option Nat) (done : List α) :
    (Repeating.proceed room last done : Turn (Repeating α σ) ι ν (List α)).notes = [] := by
  unfold Repeating.proceed
  split <;> rfl

/-- In the turn of a run that must succeed, that run notes something or what goes on behind it. -/
theorem mem_notes_ofMandatory {left : Nat} {done : List α}
    {onward : List α → Turn (Repeating α σ) ι ν (List α)} {t : Turn σ ι ν α} {x : ν}
    (hx : x ∈ (Repeating.ofMandatory left done onward t).notes) :
    x ∈ t.notes ∨ ∃ a, t.resumed = .complete a ∧ x ∈ (onward (a :: done)).notes := by
  unfold Repeating.ofMandatory at hx
  split at hx
  · exact .inl hx
  · exact .inl hx
  · next a completes => exact (List.mem_append.mp hx).imp_right fun hx => ⟨a, completes, hx⟩

/-- Each of several runs that start at once is the same first turn. -/
theorem mem_notes_demand {room : Option Nat} {left : Nat} {done : List α} {x : ν}
    (hx : x ∈ (Repeating.demand p room left done).notes) : 0 < left ∧ x ∈ p.start.notes := by
  induction left generalizing done with
  | zero =>
    have hnone := notes_proceed (σ := p.State) (ι := ι) (ν := ν) room none done
    rw [Repeating.demand, hnone] at hx
    cases hx
  | succ left ih =>
    refine ⟨left.succ_pos, ?_⟩
    rcases mem_notes_ofMandatory hx with hx | ⟨a, -, hx⟩
    · exact hx
    · exact (ih hx).2

/-- In the turn of an optional run, only that run notes something. -/
theorem notes_ofOptional (room : Option Nat) (checkpoint : Token) (done : List α)
    (t : Turn σ ι ν α) : (Repeating.ofOptional room checkpoint done t).notes = t.notes := by
  unfold Repeating.ofOptional
  split
  · rfl
  · rw [Turn.notes_after, notes_proceed, List.append_nil]
  · split <;> rfl

/-- Each run of a repetition is reached, also when several start at once. -/
theorem Relays.repetition (hp : p.Relays kind) (min : Nat) (max : Option Nat) :
    (p.repetition min max).Relays kind := by
  refine relays_of_hears fun S R x hx => ?_
  cases S with
  | start =>
    cases min with
    | zero =>
      have hnone := notes_proceed (σ := p.State) (ι := ι) (ν := ν) (max.map (· - 0)) none
        ([] : List α)
      have hx' : x ∈ (Repeating.proceed (max.map (· - 0)) none [] :
        Turn (Repeating α p.State) ι ν (List α)).notes := hx
      rw [hnone] at hx'
      cases hx'
    | succ left =>
      rcases mem_notes_ofMandatory hx with hx | ⟨a, completes, hx⟩
      · exact ⟨α, p, hp, none, p.init, R, .demands p left max R, hx⟩
      · obtain ⟨hleft, hstart⟩ := mem_notes_demand hx
        obtain ⟨left, rfl⟩ := Nat.exists_eq_add_one.mpr hleft
        exact ⟨α, p, hp, none, p.init, none, .demandsMore p left max completes, hstart⟩
  | mandatory left done s =>
    rcases mem_notes_ofMandatory hx with hx | ⟨a, completes, hx⟩
    · exact ⟨α, p, hp, none, s, R, .mandatory p min max left done s R, hx⟩
    · obtain ⟨hleft, hstart⟩ := mem_notes_demand hx
      obtain ⟨left, rfl⟩ := Nat.exists_eq_add_one.mpr hleft
      exact ⟨α, p, hp, none, p.init, none, .mandatoryStarts p min max left done completes, hstart⟩
  | checking room last done =>
    simp only [Machine.repetition] at hx
    split at hx
    · cases hx
    · next checkpoint told =>
      split at hx
      · cases hx
      · next goes =>
        rw [notes_ofOptional] at hx
        exact ⟨α, p, hp, none, p.init, none, .optionalStarts p min max done told goes, hx⟩
  | optional room checkpoint done s =>
    have hnoted : x ∈ (p.resume s R).notes := by
      rwa [← notes_ofOptional room checkpoint done (p.resume s R)]
    exact ⟨α, p, hp, none, s, R, .optional p min max room checkpoint done s R, hnoted⟩
  | returning done =>
    simp only [Machine.repetition] at hx
    split at hx <;> cases hx
  | ended => cases hx

end Machine

/-! ## Grammars -/

namespace Grammar

/-- Nothing in the grammar is tapped, and machines made by hand are of a kind. -/
def Untapped (kind : (α : Type) → Machine ι ν α → Prop) : {α : Type} → Grammar ρ ι ν α → Prop
  | _, satisfy _ _ => True
  | _, endOfInput => True
  | _, ask _ => True
  | _, pure _ => True
  | _, map p _ => p.Untapped kind
  | _, pair p q => p.Untapped kind ∧ q.Untapped kind
  | _, all ps => ∀ i, (ps i).Untapped kind
  | _, choice ps => ∀ i, (ps i).Untapped kind
  | _, repetition p _ _ => p.Untapped kind
  | _, bind p f => p.Untapped kind ∧ ∀ a, (f a).Untapped kind
  | _, rescue p handler => p.Untapped kind ∧ ∀ e, (handler e).Untapped kind
  | _, recoverWith p q => p.Untapped kind ∧ q.Untapped kind
  | _, fatal p => p.Untapped kind
  | _, label p _ => p.Untapped kind
  | _, call _ => True
  | _, tap _ _ => False
  | α, custom m => kind α m

variable {kind : (α : Type) → Machine ι ν α → Prop}

/-- A grammar's machine relays if the machines of its rules do. -/
theorem machine_relays {machines : (α : Type) → ρ α → Machine ι ν α}
    (h : ∀ α rule, (machines α rule).Relays kind) {g : Grammar ρ ι ν α} (hg : g.Untapped kind) :
    (g.machine machines).Relays kind := by
  induction g with
  | satisfy expected accepts => exact Machine.relays_satisfy expected accepts
  | endOfInput => exact Machine.relays_endOfInput
  | ask q => exact Machine.relays_ask q
  | pure a => exact Machine.relays_pure a
  | map p f ih => exact (ih hg).map f
  | pair p q ihp ihq => exact (ihp hg.1).pair (ihq hg.2)
  | all ps ih => exact Machine.relays_all (List.forall_mem_ofFn_iff.mpr fun i => ih i (hg i))
  | choice ps ih => exact Machine.relays_choice (List.forall_mem_ofFn_iff.mpr fun i => ih i (hg i))
  | repetition p min max ih => exact (ih hg).repetition min max
  | bind p f ihp ihf => exact (ihp hg.1).bind fun a => ihf a (hg.2 a)
  | rescue p handler ihp ihh => exact (ihp hg.1).rescue fun e => ihh e (hg.2 e)
  | recoverWith p q ihp ihq => exact (ihp hg.1).recoverWith (ihq hg.2)
  | fatal p ih => exact (ih hg).fatal
  | label p construct ih => exact (ih hg).label construct
  | call rule => exact (h _ rule).deferred
  | tap p mark => exact hg.elim
  | custom m => exact Machine.relays_of_kind hg

/-- However deep rules are unfolded, their machines relay. -/
theorem ruleMachine_relays {rules : RuleBook ρ ι ν}
    (hrules : ∀ α rule, (rules α rule).Untapped kind) (depth : Nat) (α : Type) (rule : ρ α) :
    (ruleMachine rules depth α rule).Relays kind := by
  induction depth generalizing α with
  | zero => exact Machine.relays_of_silent fun _ _ => rfl
  | succ depth ih => exact machine_relays (fun α rule => ih α rule) (hrules α rule)

/-- Whatever is noted in a resumption of a parser is noted by a machine made by hand; if that
machine fails fatally, the parser fails with it. -/
theorem parser_hears {rules : RuleBook ρ ι ν} (hrules : ∀ α rule, (rules α rule).Untapped kind)
    (depth : Nat) {g : Grammar ρ ι ν α} (hg : g.Untapped kind) (S : (g.parser rules depth).State)
    (R : Option (Response ι)) {x : ν} (hx : x ∈ ((g.parser rules depth).resume S R).notes) :
    ∃ (β : Type) (n : Machine ι ν β) (s : n.State) (r : Option (Response ι)) (labels : List String),
      kind β n ∧ x ∈ (n.resume s r).notes ∧ ∀ f : Failure ι, (n.resume s r).resumed = .fail f →
        f.isFatal = true → ((g.parser rules depth).resume S R).Escapes
          (f.inContext (Machine.labelContext labels.head?)) (n.resume s r).notes := by
  obtain ⟨β, n, s, r, labels, hn, hreaches, hx⟩ :=
    machine_relays (ruleMachine_relays hrules depth) hg S R x hx
  exact ⟨β, n, s, r, labels, hn, hx, fun f hf hfatal => hreaches.escapes hf hfatal⟩

end Grammar

end ResumableParsing

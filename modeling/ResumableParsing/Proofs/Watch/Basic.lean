/-
# Watched machines

A machine can be watched from outside: at each resumption one remarks where the exchange with the
computation stood, what it was resumed with, and the failure that it came to, if any.  In a watched
grammar the machine of every construction is watched, so that the remarks tell what went on between
each machine and those that run inside it.

`Mirrors` relates a computation to one that is watched.  As long as the answers are of the kind that
was asked for, both come to the same, every remark is proper and every failure tells of the input.
There is one lemma for each construction: it mirrors if its parts do.  So a machine that runs others
inside resumes each of them properly, because it is resumed properly itself.
-/
import ResumableParsing.Proofs.Custody
import ResumableParsing.Proofs.Descent.Blame

namespace ResumableParsing

variable {ι ν κ α β σ σ' τ τ' : Type}

/-! ## Where an exchange stands -/

/-- The answers of the kind that a request asks for. -/
def Request.Expects : Request → Response ι → Prop
  | .peek, .item _ | .peek, .endOfInput => True
  | .consume, .item _ | .consume, .endOfInput => True
  | .snapshot, .token _ | .rollback _, .token _ => True
  | _, _ => False

/-- Where the exchange with a computation stands. -/
inductive Standing where
  /-- The computation was not resumed yet. -/
  | fresh
  /-- The computation waits on a request. -/
  | waiting (q : Request)
  /-- The computation has completed or failed. -/
  | over

/-- A fresh computation is resumed without an answer and a waiting one with an answer of the kind
that it asked for; one that has ended is not resumed. -/
def Standing.Admits : Standing → Option (Response ι) → Prop
  | .fresh, none => True
  | .waiting q, some r => q.Expects r
  | _, _ => False

/-- Where the exchange stands after a resumption. -/
def Resumed.standing : Resumed ι α → Standing
  | .suspend q => .waiting q
  | .complete _ | .fail _ => .over

/-- The failure that a resumption came to. -/
def Resumed.failure? : Resumed ι α → Option (Failure ι)
  | .fail f => some f
  | .suspend _ | .complete _ => none

/-! ## Failures that tell of the input -/

/-- The cause is something about the input. -/
def Cause.Tells : Cause ι → Prop
  | .unexpected _ _ | .endOfInput _ => True
  | _ => False

/-- Every leaf of the failure tells of the input. -/
def Failure.Tells (f : Failure ι) : Prop := ∀ g ∈ f.leaves, g.cause.Tells

/-- A failure with such a cause is E1001 or E1002. -/
theorem Cause.Tells.code {f : Failure ι} (h : f.cause.Tells) :
    f.code = .e1001 ∨ f.code = .e1002 := by
  unfold Failure.code
  cases hc : f.cause with
  | unexpected | endOfInput => simp
  | aggregate | message | protocol =>
    rw [hc] at h
    exact h.elim

namespace Failure

/-- An item that was not expected tells of the input. -/
theorem tells_unexpected (x : ι) (expected : String) : (unexpected x expected).Tells := by
  intro g hg
  cases List.mem_singleton.mp hg
  trivial

/-- An end that was not expected tells of the input. -/
theorem tells_endOfInput (expected : String) : (endOfInput expected : Failure ι).Tells := by
  intro g hg
  cases List.mem_singleton.mp hg
  trivial

/-- An aggregate tells of the input if each of its failures does. -/
theorem tells_aggregate {fs : List (Failure ι)} (h : ∀ f ∈ fs, f.Tells) :
    (aggregate fs).Tells := forall_leaves_aggregate h

/-- Whether a failure tells of the input depends on its cause only. -/
theorem tells_congr {f f' : Failure ι} (h : f'.cause = f.cause) (hf : f.Tells) : f'.Tells :=
  forall_leaves_congr h hf

/-- A failure that tells of the input has one of three codes. -/
theorem Tells.code {f : Failure ι} (h : f.Tells) :
    f.code = .e1001 ∨ f.code = .e1002 ∨ f.code = .e1003 := by
  obtain ⟨cause, severity, context⟩ := f
  cases cause with
  | unexpected | endOfInput | aggregate => simp [Failure.code]
  | message | protocol => exact (h _ (List.mem_singleton_self _)).elim

end Failure

/-! ## Watching -/

/-- What is remarked at a resumption. -/
structure Remark (ι : Type) where
  /-- Where the exchange stood before the resumption. -/
  standing : Standing
  /-- What the computation was resumed with. -/
  answer : Option (Response ι)
  /-- The failure that the resumption came to. -/
  failure : Option (Failure ι)

/-- The resumption was one that the standing admits, and a failure tells of the input. -/
def Remark.Proper (x : Remark ι) : Prop :=
  x.standing.Admits x.answer ∧ ∀ f, x.failure = some f → f.Tells

namespace Machine

/-- Remark every resumption after what was remarked inside. -/
def watch (p : Machine ι (Remark ι) α) : Machine ι (Remark ι) α where
  State := p.State × Standing
  init := (p.init, .fresh)
  resume s r :=
    let t := p.resume s.1 r
    ⟨(t.state, t.resumed.standing), t.resumed, t.notes ++ [⟨s.2, r, t.resumed.failure?⟩]⟩

/-- Note nothing. -/
def silent (p : Machine ι ν α) : Machine ι κ α where
  State := p.State
  init := p.init
  resume s r :=
    let t := p.resume s r
    ⟨t.state, t.resumed, []⟩

end Machine

/-! ## Turns -/

/-- Two turns that come to the same, of which the second is watched: what it remarks is proper, a
failure tells of the input, and the states of computations that wait are related. -/
inductive Turn.Mirrors (kind : σ → τ → Standing → Prop) :
    Turn σ ι ν α → Turn τ ι (Remark ι) α → Prop
  /-- Both wait on a request. -/
  | suspend {s : σ} {s' : τ} {q : Request} {ns : List ν} {ns' : List (Remark ι)}
      (state : kind s s' (.waiting q)) (notes : ∀ x ∈ ns', x.Proper) :
      Mirrors kind ⟨s, .suspend q, ns⟩ ⟨s', .suspend q, ns'⟩
  /-- Both complete. -/
  | complete {s : σ} {s' : τ} {a : α} {ns : List ν} {ns' : List (Remark ι)}
      (notes : ∀ x ∈ ns', x.Proper) : Mirrors kind ⟨s, .complete a, ns⟩ ⟨s', .complete a, ns'⟩
  /-- Both fail. -/
  | fail {s : σ} {s' : τ} {f : Failure ι} {ns : List ν} {ns' : List (Remark ι)}
      (failure : f.Tells) (notes : ∀ x ∈ ns', x.Proper) :
      Mirrors kind ⟨s, .fail f, ns⟩ ⟨s', .fail f, ns'⟩

namespace Turn.Mirrors

variable {kind kind' : σ → τ → Standing → Prop} {t : Turn σ ι ν α} {t' : Turn τ ι (Remark ι) α}

/-- States of one kind may be seen as states of a wider one. -/
theorem mono (h : t.Mirrors kind t') (hkind : ∀ s s' st, kind s s' st → kind' s s' st) :
    t.Mirrors kind' t' := by
  cases h with
  | suspend state notes => exact .suspend (hkind _ _ _ state) notes
  | complete notes => exact .complete notes
  | fail failure notes => exact .fail failure notes

/-- What was remarked before the turn is proper as well. -/
theorem after (h : t.Mirrors kind t') (ns : List ν) {ns' : List (Remark ι)}
    (hns : ∀ x ∈ ns', x.Proper) : (t.after ns).Mirrors kind (t'.after ns') := by
  cases h with
  | suspend state notes => exact .suspend state (List.forall_mem_append.mpr ⟨hns, notes⟩)
  | complete notes => exact .complete (List.forall_mem_append.mpr ⟨hns, notes⟩)
  | fail failure notes => exact .fail failure (List.forall_mem_append.mpr ⟨hns, notes⟩)

/-- The states of a machine that runs the one of the turn inside are related if those inside are. -/
theorem within {embed : σ → σ'} {embed' : τ → τ'} {kind' : σ' → τ' → Standing → Prop}
    (h : t.Mirrors kind t') (hkind : ∀ s s' st, kind s s' st → kind' (embed s) (embed' s') st) :
    (t.within embed).Mirrors kind' (t'.within embed') := by
  cases h with
  | suspend state notes => exact .suspend (hkind _ _ _ state) notes
  | complete notes => exact .complete notes
  | fail failure notes => exact .fail failure notes

end Turn.Mirrors

/-! ## Machines -/

namespace Machine

/-- Resumed with what their standing admits, again and again, both computations come to the same;
the second is watched, and its remarks are proper. -/
def Mirrors (p : Machine ι ν α) (p' : Machine ι (Remark ι) α) (s : p.State) (s' : p'.State)
    (st : Standing) : Prop :=
  ∃ kind : p.State → p'.State → Standing → Prop, kind s s' st ∧
    ∀ s s' st r, kind s s' st → st.Admits r → (p.resume s r).Mirrors kind (p'.resume s' r)

/-- Fresh computations of the machines mirror each other. -/
abbrev Mirrored (p : Machine ι ν α) (p' : Machine ι (Remark ι) α) : Prop :=
  p.Mirrors p' p.init p'.init .fresh

variable {p : Machine ι ν α} {p' : Machine ι (Remark ι) α} {q : Machine ι ν β}
  {q' : Machine ι (Remark ι) β}

/-- Resumed with what the standing admits, both computations go on alike. -/
theorem Mirrors.resume {s : p.State} {s' : p'.State} {st : Standing} (h : p.Mirrors p' s s' st)
    {r : Option (Response ι)} (hr : st.Admits r) :
    (p.resume s r).Mirrors (p.Mirrors p') (p'.resume s' r) := by
  obtain ⟨kind, hs, step⟩ := h
  exact (step s s' st r hs hr).mono fun _ _ _ hkind => ⟨kind, hkind, step⟩

/-- Both computations start alike. -/
theorem Mirrors.start (h : p.Mirrored p') : p.start.Mirrors (p.Mirrors p') p'.start :=
  Mirrors.resume h trivial

/-! ## Leaves -/

/-- Where the exchange with a test of an item stands. -/
inductive Testing.Stands : Testing → Standing → Prop
  /-- Nothing was asked yet. -/
  | start : Stands .start .fresh
  /-- The item at the cursor was asked for. -/
  | looked : Stands .looked (.waiting .peek)
  /-- The item is taken. -/
  | taken : Stands .taken (.waiting .consume)

/-- A test of an item fails for what it was told of the input, and for nothing else. -/
theorem mirrored_satisfy (expected : String) (accepts : ι → Bool) :
    (satisfy (ν := ν) expected accepts).Mirrored (satisfy expected accepts) := by
  refine ⟨fun s s' st => s = s' ∧ Testing.Stands s st, ⟨rfl, .start⟩, ?_⟩
  rintro s _ st r ⟨rfl, hs⟩ hr
  cases hs with
  | start => exact .suspend ⟨rfl, .looked⟩ nofun
  | looked =>
    rcases r with _ | x | _ | t
    · exact hr.elim
    · simp only [satisfy]
      split
      · exact .suspend ⟨rfl, .taken⟩ nofun
      · exact .fail (Failure.tells_unexpected x expected) nofun
    · exact .fail (Failure.tells_endOfInput expected) nofun
    · exact hr.elim
  | taken =>
    rcases r with _ | x | _ | t
    · exact hr.elim
    · exact .complete nofun
    · exact .fail (Failure.tells_endOfInput expected) nofun
    · exact hr.elim

/-- Where the exchange with a computation stands that asks once. -/
inductive Asking (q : Request) : Bool → Standing → Prop
  /-- Nothing was asked yet. -/
  | start : Asking q false .fresh
  /-- The request was made. -/
  | asked : Asking q true (.waiting q)

/-- A test for the end of the input fails only where there is an item. -/
theorem mirrored_endOfInput :
    (endOfInput (ι := ι) (ν := ν)).Mirrored endOfInput := by
  refine ⟨fun s s' st => s = s' ∧ Asking .peek s st, ⟨rfl, .start⟩, ?_⟩
  rintro s _ st r ⟨rfl, hs⟩ hr
  cases hs with
  | start => exact .suspend ⟨rfl, .asked⟩ nofun
  | asked =>
    rcases r with _ | x | _ | t
    · exact hr.elim
    · exact .fail (Failure.tells_unexpected x _) nofun
    · exact .complete nofun
    · exact hr.elim

/-- An inquiry that is answered with what it asks for fails only at the end of the input. -/
theorem tells_of_read {q : Inquiry ι α} {r : Response ι} (hr : q.request.Expects r)
    {f : Failure ι} (hf : q.read r = .error f) : f.Tells := by
  cases q <;> cases r <;> first | exact hr.elim | cases hf
  all_goals exact Failure.tells_endOfInput _

/-- An inquiry can be watched. -/
theorem mirrored_ask (q : Inquiry ι α) : (ask (ν := ν) q).Mirrored (ask q) := by
  refine ⟨fun s s' st => s = s' ∧ Asking q.request s st, ⟨rfl, .start⟩, ?_⟩
  rintro s _ st r ⟨rfl, hs⟩ hr
  cases hs with
  | start => exact .suspend ⟨rfl, .asked⟩ nofun
  | asked =>
    cases r with
    | none => exact hr.elim
    | some r =>
      simp only [ask]
      cases ha : q.read r with
      | ok a => exact .complete nofun
      | error f => exact .fail (tells_of_read hr ha) nofun

theorem mirrored_pure (a : α) : (pure (ι := ι) (ν := ν) a).Mirrored (pure a) := by
  refine ⟨fun s s' st => s = false ∧ s' = false ∧ st = .fresh, ⟨rfl, rfl, rfl⟩, ?_⟩
  rintro _ _ _ r ⟨rfl, rfl, rfl⟩ hr
  exact .complete nofun

/-- Two machines that look forever are in step. -/
theorem mirrored_stalled : (stalled : Machine ι ν α).Mirrored stalled :=
  ⟨fun _ _ _ => True, trivial, fun _ _ _ _ _ _ => .suspend trivial nofun⟩

/-! ## Machines around one machine -/

/-- The output is changed in both machines alike. -/
theorem Mirrors.map (h : p.Mirrored p') (f : α → β) : (p.map f).Mirrored (p'.map f) := by
  refine ⟨p.Mirrors p', h, fun s s' st r hs hr => ?_⟩
  have hturn := Mirrors.resume hs hr
  simp only [Machine.map]
  generalize p.resume s r = t, p'.resume s' r = t' at hturn
  cases hturn with
  | suspend state notes => exact .suspend state notes
  | complete notes => exact .complete notes
  | fail failure notes => exact .fail failure notes

/-- A change that keeps the cause of a failure keeps what it tells. -/
theorem Mirrors.changeFailure (h : p.Mirrored p') {f : Failure ι → Failure ι}
    (hf : ∀ e, (f e).cause = e.cause) : (p.changeFailure f).Mirrored (p'.changeFailure f) := by
  refine ⟨p.Mirrors p', h, fun s s' st r hs hr => ?_⟩
  have hturn := Mirrors.resume hs hr
  simp only [Machine.changeFailure]
  generalize p.resume s r = t, p'.resume s' r = t' at hturn
  cases hturn with
  | suspend state notes => exact .suspend state notes
  | complete notes => exact .complete notes
  | fail failure notes => exact .fail (Failure.tells_congr (hf _) failure) notes

/-- What one notes oneself is not remarked. -/
theorem Mirrors.tap (h : p.Mirrored p') (mark : Option (Response ι) → Resumed ι α → ν) :
    (p.tap mark).Mirrored p' := by
  refine ⟨p.Mirrors p', h, fun s s' st r hs hr => ?_⟩
  have hturn := Mirrors.resume hs hr
  simp only [Machine.tap]
  generalize p.resume s r = t, p'.resume s' r = t' at hturn
  cases hturn with
  | suspend state notes => exact .suspend state notes
  | complete notes => exact .complete notes
  | fail failure notes => exact .fail failure notes

/-- A machine that is resumed properly can be watched. -/
theorem Mirrors.watch (h : p.Mirrored p') : p.Mirrored p'.watch := by
  refine ⟨fun s s' st => s'.2 = st ∧ p.Mirrors p' s s'.1 st, ⟨rfl, h⟩, ?_⟩
  rintro s ⟨s', _⟩ st r ⟨rfl, hs⟩ hr
  have hturn := Mirrors.resume hs hr
  simp only [Machine.watch]
  generalize p.resume s r = t, p'.resume s' r = t' at hturn
  cases hturn with
  | suspend state notes =>
    refine .suspend ⟨rfl, state⟩ (List.forall_mem_append.mpr ⟨notes, ?_⟩)
    exact List.forall_mem_singleton.mpr ⟨hr, nofun⟩
  | complete notes =>
    refine .complete (List.forall_mem_append.mpr ⟨notes, ?_⟩)
    exact List.forall_mem_singleton.mpr ⟨hr, nofun⟩
  | fail failure notes =>
    refine .fail failure (List.forall_mem_append.mpr ⟨notes, ?_⟩)
    exact List.forall_mem_singleton.mpr ⟨hr, by rintro _ ⟨⟩; exact failure⟩

/-- What is built when it is needed is in step from then on. -/
theorem Mirrors.deferred {build : Unit → Machine ι ν α} {build' : Unit → Machine ι (Remark ι) α}
    (h : (build ()).Mirrored (build' ())) : (deferred build).Mirrored (deferred build') := by
  refine ⟨fun s s' st => (build ()).Mirrors (build' ()) (s.getD (build ()).init)
    (s'.getD (build' ()).init) st, h, fun s s' st r hs hr => ?_⟩
  exact (Mirrors.resume hs hr).within fun _ _ _ hkind => hkind

/-- A computation that has completed is not resumed, so that starting over is not seen. -/
theorem Mirrors.rewinding (h : p.Mirrored p') : p.rewinding.Mirrored p'.rewinding := by
  refine ⟨p.Mirrors p', h, fun s s' st r hs hr => ?_⟩
  have hturn := Mirrors.resume hs hr
  simp only [Machine.rewinding]
  generalize p.resume s r = t, p'.resume s' r = t' at hturn
  cases hturn with
  | suspend state notes => exact .suspend state notes
  | complete notes => exact .complete notes
  | fail failure notes => exact .fail failure notes

/-! ## One machine after another -/

/-- The states of two pairs: in both the first machine runs, or in both the second, with the same
output of the first, which was not given away yet. -/
inductive Pairing.Mirrors (first : σ → σ' → Standing → Prop) (second : τ → τ' → Standing → Prop) :
    Pairing σ α τ → Pairing σ' α τ' → Standing → Prop
  /-- The first machine runs. -/
  | first {s : σ} {s' : σ'} {st : Standing} (h : first s s' st) :
      Mirrors first second (.first s) (.first s') st
  /-- The second machine runs. -/
  | second (a : α) {s : τ} {s' : τ'} {st : Standing} (h : second s s' st) :
      Mirrors first second (.second (some a) s) (.second (some a) s') st

/-- In both pairs the second machine runs beside the same output. -/
theorem mirrors_pairSecond (first : σ → σ' → Standing → Prop) {second : τ → τ' → Standing → Prop}
    (a : α) {t : Turn τ ι ν β} {t' : Turn τ' ι (Remark ι) β} (h : t.Mirrors second t') :
    (pairSecond (some a) t).Mirrors (Pairing.Mirrors first second) (pairSecond (some a) t') := by
  cases h with
  | suspend state notes => exact .suspend (.second a state) notes
  | complete notes => exact .complete notes
  | fail failure notes => exact .fail failure notes

/-- Both first machines complete in the same turn and with the same output, so both second ones
start. -/
theorem mirrors_pairTurn (hq : q.Mirrored q') {t : Turn p.State ι ν α}
    {t' : Turn p'.State ι (Remark ι) α} (h : t.Mirrors (p.Mirrors p') t') :
    (pairTurn p q t).Mirrors (Pairing.Mirrors (p.Mirrors p') (q.Mirrors q'))
      (pairTurn p' q' t') := by
  cases h with
  | suspend state notes => exact .suspend (.first state) notes
  | complete notes => exact (mirrors_pairSecond _ _ hq.start).after _ notes
  | fail failure notes => exact .fail failure notes

/-- Pairs of machines in step are in step. -/
theorem Mirrors.pair (hp : p.Mirrored p') (hq : q.Mirrored q') :
    (p.pair q).Mirrored (p'.pair q') := by
  refine ⟨Pairing.Mirrors (p.Mirrors p') (q.Mirrors q'), .first hp, fun s s' st r hs hr => ?_⟩
  cases hs with
  | first hs => exact mirrors_pairTurn hq (Mirrors.resume hs hr)
  | second a hs => exact mirrors_pairSecond _ a (Mirrors.resume hs hr)

/-- The states of two machines that run one machine and then another: in both the first runs, or in
both the second. -/
inductive Running (first : σ → σ' → Standing → Prop) (second : τ → τ' → Standing → Prop) :
    σ ⊕ τ → σ' ⊕ τ' → Standing → Prop
  /-- The first machine runs. -/
  | first {s : σ} {s' : σ'} {st : Standing} (h : first s s' st) :
      Running first second (.inl s) (.inl s') st
  /-- The second machine runs. -/
  | second {s : τ} {s' : τ'} {st : Standing} (h : second s s' st) :
      Running first second (.inr s) (.inr s') st

theorem mirrored_nil : (nil : Machine ι ν (List α)).Mirrored nil :=
  ⟨fun _ _ _ => True, trivial, fun _ _ _ _ _ _ => .complete nofun⟩

section Cons

variable {rest : Machine ι ν (List α)} {rest' : Machine ι (Remark ι) (List α)}

/-- The same output comes before the machines behind the head. -/
def Behind (second : τ → τ' → Standing → Prop) (s : α × τ) (s' : α × τ') (st : Standing) : Prop :=
  s.1 = s'.1 ∧ second s.2 s'.2 st

/-- In both lists what is behind the first machine runs beside the same output. -/
theorem mirrors_consTail (first : σ → σ' → Standing → Prop) {second : τ → τ' → Standing → Prop}
    (a : α) {t : Turn τ ι ν (List α)} {t' : Turn τ' ι (Remark ι) (List α)}
    (h : t.Mirrors second t') :
    (consTail a t).Mirrors (Running first (Behind second)) (consTail a t') := by
  cases h with
  | suspend state notes => exact .suspend (.second ⟨rfl, state⟩) notes
  | complete notes => exact .complete notes
  | fail failure notes => exact .fail failure notes

/-- Both first machines of a list complete in the same turn, so what is behind them starts. -/
theorem mirrors_consTurn (hrest : rest.Mirrored rest') {t : Turn p.State ι ν α}
    {t' : Turn p'.State ι (Remark ι) α} (h : t.Mirrors (p.Mirrors p') t') :
    (consTurn p rest t).Mirrors (Running (p.Mirrors p') (Behind (rest.Mirrors rest')))
      (consTurn p' rest' t') := by
  cases h with
  | suspend state notes => exact .suspend (.first state) notes
  | complete notes => exact (mirrors_consTail _ _ hrest.start).after _ notes
  | fail failure notes => exact .fail failure notes

/-- Lists of machines in step are in step. -/
theorem Mirrors.cons (hp : p.Mirrored p') (hrest : rest.Mirrored rest') :
    (p.cons rest).Mirrored (p'.cons rest') := by
  refine ⟨Running (p.Mirrors p') (Behind (rest.Mirrors rest')), .first hp,
    fun s s' st r hs hr => ?_⟩
  cases hs with
  | first hs => exact mirrors_consTurn hrest (Mirrors.resume hs hr)
  | @second s s' _ hs =>
    obtain ⟨a, s⟩ := s
    obtain ⟨a', s'⟩ := s'
    obtain ⟨rfl, hs⟩ := hs
    exact mirrors_consTail _ _ (Mirrors.resume hs hr)

end Cons

/-- The machines of two lists are in step one by one, and so are the lists. -/
theorem mirrored_all {ps : List (Machine ι ν α)} {ps' : List (Machine ι (Remark ι) α)}
    (h : List.Forall₂ Mirrored ps ps') : (all ps).Mirrored (all ps') := by
  have hfold : (ps.foldr Machine.cons nil).Mirrored (ps'.foldr Machine.cons nil) := by
    induction h with
    | nil => exact mirrored_nil
    | cons hp _ ih => exact Mirrors.cons hp ih
  exact hfold.rewinding

section Relay

variable {completed : α → Next κ ι β} {failed : Failure ι → Next κ ι β}
  {next : κ → Machine ι ν β} {next' : κ → Machine ι (Remark ι) β}

/-- The same machine has taken over. -/
inductive TakenOver (next : κ → Machine ι ν β) (next' : κ → Machine ι (Remark ι) β) :
    (k : κ) × (next k).State → (k : κ) × (next' k).State → Standing → Prop
  /-- The states of the machine mirror each other. -/
  | intro {k : κ} {s : (next k).State} {s' : (next' k).State} {st : Standing}
      (h : (next k).Mirrors (next' k) s s' st) : TakenOver next next' ⟨k, s⟩ ⟨k, s'⟩ st

/-- Once another machine has taken over, it alone is resumed. -/
theorem mirrors_takenOver (first : σ → σ' → Standing → Prop) {k : κ}
    {t : Turn (next k).State ι ν β} {t' : Turn (next' k).State ι (Remark ι) β}
    (h : t.Mirrors ((next k).Mirrors (next' k)) t') :
    (t.within fun s => Sum.inr (⟨k, s⟩ : (k : κ) × (next k).State)).Mirrors
      (Running first (TakenOver next next'))
      (t'.within fun s => Sum.inr (⟨k, s⟩ : (k : κ) × (next' k).State)) :=
  h.within fun _ _ _ hkind => .second ⟨hkind⟩

/-- The same machine takes over on both sides. -/
theorem mirrors_nextTurn (hnext : ∀ k, (next k).Mirrored (next' k)) {n : Next κ ι β}
    (hn : ∀ e, n = .fail e → e.Tells) {t : Turn p.State ι ν α} {t' : Turn p'.State ι (Remark ι) α}
    (hnotes : ∀ x ∈ t'.notes, x.Proper) :
    (n.turn p completed failed next t).Mirrors
      (Running (p.Mirrors p') (TakenOver next next'))
      (n.turn p' completed failed next' t') := by
  cases n with
  | start k => exact (mirrors_takenOver _ (hnext k).start).after _ hnotes
  | complete b => exact .complete hnotes
  | fail e => exact .fail (hn e rfl) hnotes

/-- Relays go the same way, and what they fail with tells of the input if what they handle does. -/
theorem mirrors_relayTurn (hnext : ∀ k, (next k).Mirrored (next' k))
    (hcompleted : ∀ a e, completed a = .fail e → e.Tells)
    (hfailed : ∀ f e, f.Tells → failed f = .fail e → e.Tells) {t : Turn p.State ι ν α}
    {t' : Turn p'.State ι (Remark ι) α} (h : t.Mirrors (p.Mirrors p') t') :
    (relayTurn p completed failed next t).Mirrors
      (Running (p.Mirrors p') (TakenOver next next'))
      (relayTurn p' completed failed next' t') := by
  cases h with
  | suspend state notes => exact .suspend (.first state) notes
  | complete notes => exact mirrors_nextTurn hnext (hcompleted _) notes
  | fail failure notes => exact mirrors_nextTurn hnext (fun e => hfailed _ e failure) notes

/-- The machine that takes over is fresh, and the one that has ended is not resumed again. -/
theorem Mirrors.relay (hp : p.Mirrored p') (hnext : ∀ k, (next k).Mirrored (next' k))
    (hcompleted : ∀ a e, completed a = .fail e → e.Tells)
    (hfailed : ∀ f e, f.Tells → failed f = .fail e → e.Tells) :
    (p.relay completed failed next).Mirrored (p'.relay completed failed next') := by
  refine ⟨Running (p.Mirrors p') (TakenOver next next'), .first hp, fun s s' st r hs hr => ?_⟩
  cases hs with
  | first hs => exact mirrors_relayTurn hnext hcompleted hfailed (Mirrors.resume hs hr)
  | second hs =>
    obtain ⟨hs⟩ := hs
    exact mirrors_takenOver _ (Mirrors.resume hs hr)

end Relay

/-- The machines built from the same output are in step. -/
theorem Mirrors.bind (hp : p.Mirrored p') {f : α → Machine ι ν β}
    {f' : α → Machine ι (Remark ι) β} (hf : ∀ a, (f a).Mirrored (f' a)) :
    (p.bind f).Mirrored (p'.bind f') :=
  hp.relay hf nofun (by rintro e _ he ⟨⟩; exact he)

/-- What is handed on to a handler or passes it by is what the first machine came to. -/
theorem tells_of_handled {e e' : Failure ι} (he : e.Tells) {k : κ}
    (h : (if e.isFatal then .fail e else .start k : Next κ ι α) = .fail e') : e'.Tells := by
  split at h
  · cases h
    exact he
  · cases h

/-- The handlers are told the same failure, and a fatal one passes both. -/
theorem Mirrors.rescue (hp : p.Mirrored p') {handler : Failure ι → Machine ι ν α}
    {handler' : Failure ι → Machine ι (Remark ι) α}
    (hhandler : ∀ e, (handler e).Mirrored (handler' e)) :
    (p.rescue handler).Mirrored (p'.rescue handler') :=
  hp.relay hhandler nofun fun _ _ he h => tells_of_handled he h

/-- Both fall back in the same turn or neither does. -/
theorem Mirrors.recoverWith {q : Machine ι ν α} {q' : Machine ι (Remark ι) α}
    (hp : p.Mirrored p') (hq : q.Mirrored q') : (p.recoverWith q).Mirrored (p'.recoverWith q') :=
  hp.relay (fun _ => hq) nofun fun _ _ he h => tells_of_handled he h

end Machine

end ResumableParsing

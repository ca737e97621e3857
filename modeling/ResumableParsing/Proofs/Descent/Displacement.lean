/-
# Displaced descents

A descent addresses the stream by offsets, but what it comes to depends only on what it finds from
its cursor on.  When the first items of a stream are taken away, a descent comes to the same from
the same item, with all places displaced by the number of those items.  The number of the session
and the place where it began do not matter either, if no token is captured.

Every construction passes this from its parts to the whole.  The bound on the rounds of a repetition
is the one number that is not displaced, since it counts the items of the whole stream; but any two
bounds that are large enough are as good as one another.
-/
import ResumableParsing.Proofs.Descent.Tokenless

namespace ResumableParsing

variable {ρ : Type → Type} {ι ν α β : Type}

/-! ## Displaced settings -/

/-- The second setting is the first one without the first `k` items, perhaps in another session. -/
structure Setting.Displaced (w w' : Setting ι) (k : Nat) : Prop where
  /-- The first items are taken away. -/
  items : w'.items = w.items.drop k
  /-- They were there. -/
  le : k ≤ w.items.length
  /-- Both streams end, or neither does. -/
  ended : w'.ended = w.ended

namespace Setting.Displaced

variable {w w' : Setting ι} {k : Nat}

/-- The items that are taken away are missing in the number of items. -/
theorem length (hw : w.Displaced w' k) : w'.items.length + k = w.items.length := by
  have hle : k ≤ w.items.length := hw.le
  rw [hw.items, List.length_drop]
  omega

/-- What stands at a place is what stands at the displaced one. -/
theorem look_eq (hw : w.Displaced w' k) (c : Nat) : w.look (c + k) = w'.look c := by
  unfold Setting.look
  rw [hw.items, hw.ended, List.getElem?_drop, Nat.add_comm k c]

end Setting.Displaced

/-! ## Displaced descents -/

namespace Descent

/-- From the displaced place the first descent comes to what the second comes to, at the displaced
place; and the second moves forward. -/
structure Displaced (w' : Setting ι) (k : Nat) (d d' : Descent ι α) : Prop where
  /-- The cursor is not moved back. -/
  forward : d'.Forward w'
  /-- Both come to the same. -/
  eq : ∀ ⦃c : Nat⦄, c ≤ w'.items.length → d (c + k) = (d' c).map fun x => (x.1, x.2 + k)

variable {w w' : Setting ι} {k : Nat} {p p' : Descent ι α}

/-- A descent that comes to nothing is displaced from itself. -/
theorem displaced_of_nothing : Displaced w' k (fun _ => none : Descent ι α) fun _ => none where
  forward := fun _ _ _ _ h => nomatch h
  eq := fun _ _ => rfl

/-! ### Looking at the cursor -/

/-- What is made of the item at the cursor is made of it at the displaced place. -/
theorem displaced_look (hw : w.Displaced w' k)
    {next : Nat → Option ι → Except (Failure ι) α × Nat}
    (hforward : Forward w' fun c => (w'.look c).map (next c))
    (hnext : ∀ c o, next (c + k) o = ((next c o).1, (next c o).2 + k)) :
    Displaced w' k (fun c => (w.look c).map (next c)) fun c => (w'.look c).map (next c) where
  forward := hforward
  eq := by
    intro c _
    rw [hw.look_eq, Option.map_map]
    exact congrArg (fun f => (w'.look c).map f) (funext (hnext c))

/-- A test sees the same item in the displaced place. -/
theorem displaced_satisfy (hw : w.Displaced w' k) (expected : String) (accepts : ι → Bool) :
    Displaced w' k (satisfy w expected accepts) (satisfy w' expected accepts) := by
  refine displaced_look hw (forward_satisfy expected accepts) fun c o => ?_
  cases o with
  | none => rfl
  | some x =>
    dsimp only
    split
    · rw [Nat.add_right_comm]
    · rfl

/-- The end of the input is displaced with the items. -/
theorem displaced_endOfInput (hw : w.Displaced w' k) :
    Displaced w' k (endOfInput w) (endOfInput w') :=
  displaced_look hw forward_endOfInput fun _ o => by cases o <;> rfl

/-- An inquiry finds the same in the displaced place; only a token would tell the place. -/
theorem displaced_ask (hw : w.Displaced w' k) {q : Inquiry ι α} (hq : q.request ≠ .snapshot) :
    Displaced w' k (ask w q) (ask w' q) := by
  have hforward : (ask w' q).Forward w' := forward_ask q
  cases q with
  | peek => exact displaced_look hw hforward fun _ o => by cases o <;> rfl
  | peekOrEnd => exact displaced_look hw hforward fun _ o => by cases o <;> rfl
  | consume =>
    refine displaced_look hw hforward fun c o => ?_
    cases o with
    | none => rfl
    | some x => rw [Nat.add_right_comm]
  | consumeOrEnd =>
    refine displaced_look hw hforward fun c o => ?_
    cases o with
    | none => rfl
    | some x => rw [Nat.add_right_comm]
  | snapshot => exact absurd rfl hq
  | rollback t => exact displaced_of_nothing

/-! ### One after the other -/

/-- Whoever asks nothing does not notice. -/
theorem displaced_pure (a : α) : Displaced w' k (pure a : Descent ι α) (pure a) where
  forward := forward_pure a
  eq := fun _ _ => rfl

/-- The second descent starts in the displaced place, in which the first one ended. -/
theorem Displaced.bind {f f' : α → Descent ι β} (hp : Displaced w' k p p')
    (hf : ∀ a, Displaced w' k (f a) (f' a)) : Displaced w' k (p.bind f) (p'.bind f') where
  forward := hp.forward.bind fun a => (hf a).forward
  eq := by
    intro c hc
    unfold Descent.bind
    rw [hp.eq hc]
    cases hres : p' c with
    | none => rfl
    | some x =>
      obtain ⟨res, n⟩ := x
      cases res with
      | ok a => exact (hf a).eq (hp.forward hc hres).2
      | error e => rfl

/-- The output is the same, and so is what is made of it. -/
theorem Displaced.map (hp : Displaced w' k p p') (f : α → β) :
    Displaced w' k (p.map f) (p'.map f) :=
  hp.bind fun a => displaced_pure (f a)

/-- A list of descents is displaced one by one. -/
theorem displaced_all {ps ps' : List (Descent ι α)}
    (h : List.Forall₂ (Displaced w' k) ps ps') : Displaced w' k (all ps) (all ps') := by
  induction h with
  | nil => exact displaced_pure []
  | cons hp _ ih => exact hp.bind fun a => ih.map _

/-- The handler is told the same failure in the displaced place. -/
theorem Displaced.rescue {f f' : Failure ι → Descent ι α} (hp : Displaced w' k p p')
    (hf : ∀ e, Displaced w' k (f e) (f' e)) : Displaced w' k (p.rescue f) (p'.rescue f') where
  forward := hp.forward.rescue fun e => (hf e).forward
  eq := by
    intro c hc
    unfold Descent.rescue
    rw [hp.eq hc]
    cases hres : p' c with
    | none => rfl
    | some x =>
      obtain ⟨res, n⟩ := x
      cases res with
      | ok a => rfl
      | error e =>
        by_cases he : e.isFatal
        · simp only [Option.map_some, if_pos he]
        · simp only [Option.map_some, if_neg he]
          exact (hf e).eq (hp.forward hc hres).2

/-- The failure is the same, and so is what is made of it. -/
theorem Displaced.changeFailure (hp : Displaced w' k p p') (f : Failure ι → Failure ι) :
    Displaced w' k (p.changeFailure f) (p'.changeFailure f) where
  forward := hp.forward.changeFailure f
  eq := by
    intro c hc
    unfold Descent.changeFailure
    rw [hp.eq hc, Option.map_map, Option.map_map]
    rfl

/-! ### Ordered choice -/

/-- The same failures at displaced places. -/
def displaceAll (k : Nat) (failed : List (Failure ι × Nat)) : List (Failure ι × Nat) :=
  failed.map fun f => (f.1, f.2 + k)

/-- The furthest of displaced places is the furthest one displaced. -/
theorem reach_displaceAll {failed : List (Failure ι × Nat)} (h : failed ≠ []) :
    reach (displaceAll k failed) = reach failed + k := by
  induction failed with
  | nil => exact absurd rfl h
  | cons f failed ih =>
    have hcons : reach (f :: failed) = max f.2 (reach failed) := rfl
    have hcons' : reach (displaceAll k (f :: failed)) =
        max (f.2 + k) (reach (displaceAll k failed)) := rfl
    rw [hcons, hcons']
    by_cases hnil : failed = []
    · rw [hnil]
      show max (f.2 + k) 0 = max f.2 0 + k
      omega
    · rw [ih hnil]
      omega

/-- In a displaced place there are the failures that were in it before. -/
theorem failuresAt_displaceAll (failed : List (Failure ι × Nat)) (n : Nat) :
    failuresAt (displaceAll k failed) (n + k) = failuresAt failed n := by
  simp [failuresAt, displaceAll, List.filter_map, Function.comp_def]

/-- A choice that has given up has done so at the displaced place. -/
theorem giveUp_displaceAll (c : Nat) (failed : List (Failure ι × Nat)) :
    (giveUp (c + k) (displaceAll k failed) : Except (Failure ι) α × Nat) =
      ((giveUp c failed).1, (giveUp c failed : Except (Failure ι) α × Nat).2 + k) := by
  cases failed with
  | nil => rfl
  | cons f failed =>
    unfold giveUp
    rw [reach_displaceAll (List.cons_ne_nil f failed), failuresAt_displaceAll]
    rfl

/-- The next alternative starts in the displaced place, and the record of the places so far is
displaced. -/
theorem displaced_firstOf {ps ps' : List (Descent ι α)}
    (h : List.Forall₂ (Displaced w' k) ps ps') {c : Nat} (hc : c ≤ w'.items.length)
    (failed : List (Failure ι × Nat)) :
    firstOf (c + k) (displaceAll k failed) ps =
      (firstOf c failed ps').map fun x => (x.1, x.2 + k) := by
  induction h generalizing failed with
  | nil => exact congrArg some (giveUp_displaceAll c failed)
  | @cons p p' ps ps' hp _ ih =>
    unfold firstOf
    rw [hp.eq hc]
    cases p' c with
    | none => rfl
    | some x =>
      obtain ⟨res, n⟩ := x
      cases res with
      | ok a => rfl
      | error e =>
        by_cases he : e.isFatal
        · simp only [Option.map_some, if_pos he]
        · simp only [Option.map_some, if_neg he]
          have hrest := ih (failed ++ [(e, n)])
          rw [displaceAll, List.map_append] at hrest
          exact hrest

/-- A choice is displaced if each of its alternatives is. -/
theorem displaced_choice {ps ps' : List (Descent ι α)}
    (h : List.Forall₂ (Displaced w' k) ps ps') : Displaced w' k (choice ps) (choice ps') where
  forward := by
    apply forward_choice
    induction h with
    | nil => exact nofun
    | cons hp _ ih => exact List.forall_mem_cons.mpr ⟨hp.forward, ih⟩
  eq := fun _ hc => displaced_firstOf h hc []

/-! ### Repetition -/

/-- What follows an optional run is told the displaced place of its end. -/
theorem Displaced.attempt {f f' : Nat → Descent ι (List α)} (hp : Displaced w' k p p')
    (hf : ∀ c, Displaced w' k (f (c + k)) (f' c)) :
    Displaced w' k (p.attempt f) (p'.attempt f') where
  forward := hp.forward.attempt fun c => (hf c).forward
  eq := by
    intro c hc
    unfold Descent.attempt
    rw [hp.eq hc]
    cases hres : p' c with
    | none => rfl
    | some x =>
      obtain ⟨res, n⟩ := x
      cases res with
      | ok a => exact ((hf c).map _).eq (hp.forward hc hres).2
      | error e =>
        by_cases he : e.isFatal
        · simp only [Option.map_some, if_pos he]
        · simp only [Option.map_some, if_neg he]

/-- Runs that must succeed are displaced one by one. -/
theorem displaced_exactly (hp : Displaced w' k p p') (left : Nat) :
    Displaced w' k (p.exactly left) (p'.exactly left) := by
  induction left with
  | zero => exact displaced_pure []
  | succ left ih => exact hp.bind fun a => ih.map _

/-- A bounded number of runs is displaced one by one. -/
theorem displaced_upTo (hp : Displaced w' k p p') (room : Nat) :
    Displaced w' k (p.upTo room) (p'.upTo room) := by
  induction room with
  | zero => exact displaced_pure []
  | succ room ih => exact hp.attempt fun _ => ih

/-- Runs that go on until one takes nothing are displaced, since that does not depend on the
place. -/
theorem displaced_untilStill (hp : Displaced w' k p p') (rounds : Nat) :
    Displaced w' k (p.untilStill rounds) (p'.untilStill rounds) := by
  induction rounds with
  | zero => exact displaced_of_nothing
  | succ rounds ih =>
    refine hp.attempt fun c => ⟨?_, fun n hn => ?_⟩
    · intro n n' res hn h
      dsimp only at h
      split at h
      · cases h
        exact ⟨Nat.le_refl _, hn⟩
      · exact ih.forward hn h
    · by_cases hstill : n = c
      · rw [if_pos hstill, if_pos (by rw [hstill])]
        rfl
      · rw [if_neg hstill, if_neg (by omega)]
        exact ih.eq hn

/-- Two bounds on the rounds that both exceed what is left of the stream are as good as one
another, since every round but the last moves the cursor forward. -/
theorem untilStill_eq_of_lt (hp : p.Forward w) {rounds rounds' c : Nat}
    (hc : c ≤ w.items.length) (h : w.items.length < c + rounds)
    (h' : w.items.length < c + rounds') : p.untilStill rounds c = p.untilStill rounds' c := by
  induction rounds generalizing rounds' c with
  | zero => exact absurd hc (by omega)
  | succ rounds ih =>
    cases rounds' with
    | zero => exact absurd hc (by omega)
    | succ rounds' =>
      unfold untilStill attempt
      cases hres : p c with
      | none => rfl
      | some x =>
        obtain ⟨res, n⟩ := x
        cases res with
        | error e => rfl
        | ok a =>
          have hn : c ≤ n ∧ n ≤ w.items.length := hp hc hres
          dsimp only [Descent.map, Descent.bind]
          by_cases hstill : n = c
          · rw [if_pos hstill, if_pos hstill]
          · have hrest : p.untilStill rounds n = p.untilStill rounds' n :=
              ih hn.2 (by omega) (by omega)
            rw [if_neg hstill, if_neg hstill, hrest]

/-- A repetition is displaced, although the bound on its rounds is not. -/
theorem Displaced.repetition (hp : Displaced w' k p p') (hw : w.Displaced w' k) (min : Nat)
    (max : Option Nat) : Displaced w' k (p.repetition w min max) (p'.repetition w' min max) := by
  refine (displaced_exactly hp min).bind fun as => Displaced.map ?_ _
  cases max with
  | some max => exact displaced_upTo hp _
  | none =>
    have hrounds := displaced_untilStill hp (w.items.length + 1)
    refine ⟨forward_untilStill hp.forward _, fun c hc => ?_⟩
    -- the bound for the longer stream is also large enough for the shorter one
    have hlength := hw.length
    have hsame : p'.untilStill (w'.items.length + 1) c = p'.untilStill (w.items.length + 1) c :=
      untilStill_eq_of_lt hp.forward hc (by omega) (by omega)
    show p.untilStill (w.items.length + 1) (c + k) =
      (p'.untilStill (w'.items.length + 1) c).map _
    rw [hsame]
    exact hrounds.eq hc

end Descent

/-! ## Grammars without tokens -/

namespace Grammar

variable {w w' : Setting ι} {k : Nat}

/-- A grammar without tokens is displaced if its rules are. -/
theorem evaluate_displaced (hw : w.Displaced w' k)
    {called called' : (α : Type) → ρ α → Descent ι α}
    (h : ∀ α rule, Descent.Displaced w' k (called α rule) (called' α rule))
    {g : Grammar ρ ι ν α} (hg : g.Tokenless) :
    Descent.Displaced w' k (g.evaluate w called) (g.evaluate w' called') := by
  -- one case for each construction, which is displaced if its parts are
  induction g with
  | satisfy expected accepts => exact Descent.displaced_satisfy hw expected accepts
  | endOfInput => exact Descent.displaced_endOfInput hw
  | ask q => exact Descent.displaced_ask hw hg.1
  | pure a => exact Descent.displaced_pure a
  | map p f ih => exact (ih hg).map f
  | pair p q ihp ihq => exact (ihp hg.1).bind fun a => (ihq hg.2).map _
  | all ps ih => exact Descent.displaced_all (forall₂_ofFn fun i => ih i (hg i))
  | choice ps ih => exact Descent.displaced_choice (forall₂_ofFn fun i => ih i (hg i))
  | repetition p min max ih => exact (ih hg).repetition hw min max
  | bind p f ihp ihf => exact (ihp hg.1).bind fun a => ihf a (hg.2 a)
  | rescue p handler ihp ihh => exact (ihp hg.1).rescue fun e => ihh e (hg.2 e)
  | recoverWith p q ihp ihq => exact (ihp hg.1).rescue fun _ => ihq hg.2
  | fatal p ih => exact (ih hg).changeFailure _
  | label p construct ih => exact (ih hg).changeFailure _
  | call rule => exact h _ rule
  | tap p mark ih => exact ih hg
  | custom m => exact hg.elim

/-- Rules that use no tokens are displaced however deep they are unfolded. -/
theorem ruleDescent_displaced (hw : w.Displaced w' k) {rules : RuleBook ρ ι ν}
    (hrules : rules.Tokenless) (depth : Nat) (α : Type) (rule : ρ α) :
    Descent.Displaced w' k (ruleDescent w rules depth α rule)
      (ruleDescent w' rules depth α rule) := by
  induction depth generalizing α with
  | zero => exact Descent.displaced_of_nothing
  | succ depth ih => exact evaluate_displaced hw (fun α rule => ih α rule) (hrules α rule)

/-- A grammar without tokens, over rules without tokens, is displaced. -/
theorem descend_displaced (hw : w.Displaced w' k) {rules : RuleBook ρ ι ν}
    (hrules : rules.Tokenless) (depth : Nat) {g : Grammar ρ ι ν α} (hg : g.Tokenless) :
    Descent.Displaced w' k (g.descend w rules depth) (g.descend w' rules depth) :=
  evaluate_displaced hw (ruleDescent_displaced hw hrules depth) hg

/-- The parser of a grammar without tokens comes to the same when the first items of the stream are
taken away, at the place that is displaced by their number. -/
theorem parser_yields_displaced (hw : w.Displaced w' k) {rules : RuleBook ρ ι ν}
    (hrules : rules.Tokenless) (depth : Nat) {g : Grammar ρ ι ν α} (hg : g.Tokenless) {c n : Nat}
    {res : Except (Failure ι) α} (hstart : w.start ≤ c + k) (hc : w'.Within c) :
    (g.parser rules depth).Yields w (c + k) res n ↔
      ∃ n', (g.parser rules depth).Yields w' c res n' ∧ n = n' + k := by
  have hwithin : w.Within (c + k) := ⟨hstart, hw.length ▸ Nat.add_le_add_right hc.2 k⟩
  have heq := (descend_displaced hw hrules depth hg).eq hc.2
  have hrealizes := parser_realizes (w := w') hrules.plain depth hg.plain
  rw [(parser_realizes hrules.plain depth hg.plain).yields_iff hwithin, heq]
  constructor
  · intro h
    obtain ⟨x, hx, hn⟩ := Option.map_eq_some_iff.mp h
    cases hn
    exact ⟨x.2, (hrealizes.yields_iff hc).mpr hx, rfl⟩
  · rintro ⟨n', hyields, rfl⟩
    rw [(hrealizes.yields_iff hc).mp hyields]
    rfl

end Grammar

end ResumableParsing

/-
# Sessions are independent of one another

What a session leaves behind is where the next one begins, and nothing else.  So for a machine whose
results depend only on what it finds from its cursor on, such as the parser of a grammar without
tokens, the sessions behind the first are those of a fresh engine to which only the rest of the
stream arrives: they deliver the same, with the offsets of errors displaced by the number of the
items that the first session has taken.

The two engines number their sessions differently.  Only the first session may start where nothing
is left, so the numbers make no difference as long as there is input or neither session is the
first.
-/
import ResumableParsing.Proofs.Custody
import ResumableParsing.Proofs.Descent.Displacement
import ResumableParsing.Proofs.Engine.Sessions

namespace ResumableParsing

variable {ρ : Type → Type} {ι ν ο : Type}

/-! ## Displaced deliveries -/

/-- The same error, with its offset displaced. -/
def ParseError.displace (k : Nat) : ParseError ι → ParseError ι
  | failure f offset => failure f (offset + k)
  | usage (.noProgress offset) => usage (.noProgress (offset + k))
  | x => x

/-- The same output, or the same error with its offset displaced. -/
def Engine.Delivery.displace (k : Nat) (d : Engine.Delivery ι ο) : Engine.Delivery ι ο :=
  d.mapError (ParseError.displace k)

/-- What the machine yields depends only on what it finds from its cursor on. -/
def Machine.Portable (m : Machine ι ν ο) : Prop :=
  ∀ ⦃w w' : Setting ι⦄ ⦃k c n : Nat⦄ ⦃res : Except (Failure ι) ο⦄, w.Displaced w' k →
    w.start ≤ c + k → w'.Within c →
      (m.Yields w (c + k) res n ↔ ∃ n', m.Yields w' c res n' ∧ n = n' + k)

namespace Machine

variable {m : Machine ι ν ο} {xs : List ι} {k c id id' : Nat} {ds : List (Engine.Delivery ι ο)}

/-! ### Where sessions may start -/

/-- Two sessions may start alike: there is input for both, or neither is the first. -/
def Alike (xs : List ι) (c id id' : Nat) : Prop := c < xs.length ∨ 0 < id ∧ 0 < id'

/-- Later sessions start alike. -/
theorem alike_succ (xs : List ι) (c id id' : Nat) : Alike xs c (id + 1) (id' + 1) :=
  .inr ⟨Nat.succ_pos id, Nat.succ_pos id'⟩

theorem length_drop_add (hk : k ≤ xs.length) : (xs.drop k).length + k = xs.length := by
  rw [List.length_drop]
  omega

/-- Over a stream a session may start just when the other may over the rest. -/
theorem Alike.may_iff (h : Alike (xs.drop k) c id id') (hk : k ≤ xs.length) :
    id = 0 ∨ c + k < xs.length ↔ id' = 0 ∨ c < (xs.drop k).length := by
  have hlength := length_drop_add hk
  unfold Alike at h
  omega

/-! ### What sessions deliver -/

/-- A fresh computation yields the same over a stream and over the rest of it. -/
theorem Portable.yields_iff (hm : m.Portable) (hk : k ≤ xs.length) (hc : c ≤ (xs.drop k).length)
    {n : Nat} {res : Except (Failure ι) ο} :
    m.Yields ⟨xs, true, id, c + k⟩ (c + k) res n ↔
      ∃ n', m.Yields ⟨xs.drop k, true, id', c⟩ c res n' ∧ n = n' + k :=
  hm ⟨rfl, hk, rfl⟩ (Nat.le_refl _) ⟨Nat.le_refl _, hc⟩

/-- What the sessions deliver over the rest of a stream they deliver, displaced, over the stream. -/
theorem Sessions.displaced (hs : m.Sessions (xs.drop k) id' c ds) (hm : m.Portable)
    (hk : k ≤ xs.length) (hc : c ≤ (xs.drop k).length) (ha : Alike (xs.drop k) c id id') :
    m.Sessions xs id (c + k) (ds.map (Engine.Delivery.displace k)) := by
  have hlength := length_drop_add hk
  induction hs generalizing id with
  | exhausted later =>
    rw [hlength]
    rcases ha with hlt | ⟨hid, -⟩
    · omega
    · exact .exhausted hid
  | silent may completes => exact .silent ((ha.may_iff hk).mpr may) completes
  | failure may yields =>
    exact .failure ((ha.may_iff hk).mpr may) ((hm.yields_iff hk hc).mpr ⟨_, yields, rfl⟩)
  | still left asks yields =>
    exact .still (by omega) asks ((hm.yields_iff hk hc).mpr ⟨_, yields, rfl⟩)
  | @output id' c n o ds may asks yields progress rest ih =>
    have hn : n ≤ (xs.drop k).length := (yields.within ⟨Nat.le_refl c, hc⟩).2
    exact .output ((ha.may_iff hk).mpr may) asks ((hm.yields_iff hk hc).mpr ⟨n, yields, rfl⟩)
      (by omega) (ih hn (alike_succ _ n id id'))

/-- What the sessions deliver over a stream is what they deliver over the rest of it, displaced. -/
theorem Sessions.exists_displaced (hs : m.Sessions xs id (c + k) ds) (hm : m.Portable)
    (hk : k ≤ xs.length) (hc : c ≤ (xs.drop k).length) (ha : Alike (xs.drop k) c id id') :
    ∃ ds', m.Sessions (xs.drop k) id' c ds' ∧ ds = ds'.map (Engine.Delivery.displace k) := by
  have hlength := length_drop_add hk
  generalize hplace : c + k = place at hs
  induction hs generalizing id' c with
  | exhausted later =>
    obtain rfl : c = (xs.drop k).length := by omega
    rcases ha with hlt | ⟨-, hid'⟩
    · omega
    · exact ⟨[], .exhausted hid', rfl⟩
  | silent may completes =>
    subst hplace
    exact ⟨_, .silent ((ha.may_iff hk).mp may) completes, rfl⟩
  | failure may yields =>
    subst hplace
    obtain ⟨n', hyields, rfl⟩ := (hm.yields_iff hk hc).mp yields
    exact ⟨_, .failure ((ha.may_iff hk).mp may) hyields, rfl⟩
  | still left asks yields =>
    subst hplace
    obtain ⟨n', hyields, hn⟩ := (hm.yields_iff hk hc).mp yields
    obtain rfl : c = n' := by omega
    exact ⟨_, .still (by omega) asks hyields, rfl⟩
  | @output id place n o ds may asks yields progress rest ih =>
    subst hplace
    obtain ⟨n', hyields, rfl⟩ := (hm.yields_iff hk hc).mp yields
    have hn : n' ≤ (xs.drop k).length := (hyields.within ⟨Nat.le_refl c, hc⟩).2
    obtain ⟨ds', hds', rfl⟩ := ih hn (alike_succ _ n' id id') rfl
    exact ⟨_, .output ((ha.may_iff hk).mp may) asks hyields (by omega) hds', rfl⟩

/-- Over a stream the sessions deliver what they deliver over the rest of it, displaced. -/
theorem Portable.sessions_iff (hm : m.Portable) (hk : k ≤ xs.length) (hc : c ≤ (xs.drop k).length)
    (ha : Alike (xs.drop k) c id id') :
    m.Sessions xs id (c + k) ds ↔
      ∃ ds', m.Sessions (xs.drop k) id' c ds' ∧ ds = ds'.map (Engine.Delivery.displace k) := by
  constructor
  · intro hs
    exact hs.exists_displaced hm hk hc ha
  · rintro ⟨ds', hds', rfl⟩
    exact hds'.displaced hm hk hc ha

end Machine

/-! ## Behind the first output -/

namespace Engine

variable {m : Machine ι ν ο}

/-- After an output the engine can go on, and no session is under way. -/
theorem Sound.rests_after_output {e : Engine m} {fed : List ι} (h : e.Sound fed) {budget : Nat}
    {o : ο} (ho : (e.next budget).verdict = .output o) :
    (e.next budget).engine.aborted = false ∧ (e.next budget).engine.session = none := by
  induction budget generalizing e with
  | zero => cases ho
  | succ budget ih =>
    cases hv : e.step.verdict with
    | running =>
      simp only [next, hv] at ho ⊢
      exact ih h.step ho
    | idle | error =>
      simp only [next, hv] at ho
      cases ho
    | output o' =>
      simp only [next, hv]
      cases h.stepped with
      | idle _ eq | refused _ _ _ eq | suspended _ _ eq | failed _ _ eq | unproductive _ _ _ eq =>
        rw [eq] at hv
        cases hv
      | completed resumes _ _ _ eq =>
        rw [eq]
        exact ⟨(resumption_eq_some resumes).1, rfl⟩

end Engine

namespace History

variable {m : Machine ι ν ο} {h : History m}

/-- After an output, if the input has ended, the next session begins at what is committed. -/
theorem Sound.between_of_next (hh : h.Sound) (hfinished : h.engine.finished = true) {budget : Nat}
    {o : ο} (ho : (h.engine.next budget).verdict = .output o) :
    ∃ k id, (h.works k).Between id (h.engine.next budget).engine.committed ∧
      (h.works k).delivered = h.delivered ++ [.ok o] := by
  obtain ⟨k, hadds, -⟩ := h.adds_next budget
  obtain ⟨hrunning, hnone⟩ := hh.engine.rests_after_output ho
  rw [← hadds.engine] at hrunning hnone
  refine ⟨k, (h.works k).engine.nextSession, ⟨hh.works k, hrunning, ?_, hnone, rfl, ?_⟩, ?_⟩
  · rw [(hh.keeps_works k).2, hfinished]
  · rw [hadds.engine]
  · rw [hadds.delivered, ho]
    rfl

/-- If the first session over a stream puts out something and leaves something, what is delivered
over the stream is this output and what a fresh engine delivers over the rest, displaced. -/
theorem drain_after_output (hm : m.Faithful) (hportable : m.Portable) {xs : List ι} {b k : Nat}
    {o : ο} (ho : ((whole m xs).engine.next b).verdict = .output o)
    (hcommitted : ((whole m xs).engine.next b).engine.committed = k) (hk : k < xs.length)
    (ds : List (Engine.Delivery ι ο)) :
    (∃ budget, ((whole m xs).engine.drain budget).settled = true ∧
        ((whole m xs).engine.drain budget).delivered = ds) ↔
      ∃ ds', (∃ budget, ((whole m (xs.drop k)).engine.drain budget).settled = true ∧
          ((whole m (xs.drop k)).engine.drain budget).delivered = ds') ∧
        ds = .ok o :: ds'.map (Engine.Delivery.displace k) := by
  have hw : (whole m xs).Sound := sound_whole m xs
  obtain ⟨j, id, hb, hdelivered⟩ := hw.between_of_next rfl ho
  rw [hcommitted] at hb
  have hrest (es : List (Engine.Delivery ι ο)) : m.Sessions xs id k es ↔
      ∃ ds', m.Sessions (xs.drop k) 0 0 ds' ∧ es = ds'.map (Engine.Delivery.displace k) := by
    -- something is left, so the numbers of the two sessions make no difference
    have halike : Machine.Alike (xs.drop k) 0 id 0 := by
      left
      rw [List.length_drop]
      omega
    have hiff : m.Sessions xs id (0 + k) es ↔ _ :=
      hportable.sessions_iff (Nat.le_of_lt hk) (Nat.zero_le _) halike
    rwa [Nat.zero_add] at hiff
  rw [hw.drain_iff_of_between hm hb hdelivered]
  constructor
  · rintro ⟨es, hes, rfl⟩
    obtain ⟨ds', hds', rfl⟩ := (hrest es).mp hes
    exact ⟨ds', (drain_whole_iff hm).mpr hds', rfl⟩
  · rintro ⟨ds', hds', rfl⟩
    exact ⟨_, (hrest _).mpr ⟨ds', (drain_whole_iff hm).mp hds', rfl⟩, rfl⟩

end History

/-! ## Grammars without tokens -/

/-- An engine to which a whole input was fed. -/
def Engine.loaded (m : Machine ι ν ο) (xs : List ι) : Engine m :=
  ((Engine.fresh m none).drive xs false).1

namespace Grammar

theorem parser_portable {rules : RuleBook ρ ι ν} (hrules : rules.Tokenless) (depth : Nat)
    {g : Grammar ρ ι ν ο} (hg : g.Tokenless) : (g.parser rules depth).Portable :=
  fun _ _ _ _ _ _ hw hstart hc => parser_yields_displaced hw hrules depth hg hstart hc

/-- Sessions of the parser of a grammar without tokens are independent of one another.  If the first
session over a whole input puts out something and takes `k` items, but not all of them, then all
that is delivered is this output and what a fresh engine delivers over the input without its first
`k` items, with every offset of an error displaced by `k`; and the one engine comes to an end just
when the other does. -/
theorem sessions_independent {rules : RuleBook ρ ι ν} (hrules : rules.Tokenless)
    {g : Grammar ρ ι ν ο} (hg : g.Tokenless) (depth : Nat) {xs : List ι} {b k : Nat} {o : ο}
    (ho : ((Engine.loaded (g.parser rules depth) xs).next b).verdict = .output o)
    (hcommitted : ((Engine.loaded (g.parser rules depth) xs).next b).engine.committed = k)
    (hk : k < xs.length) (ds : List (Engine.Delivery ι ο)) :
    (∃ budget, ((Engine.loaded (g.parser rules depth) xs).drain budget).settled = true ∧
        ((Engine.loaded (g.parser rules depth) xs).drain budget).delivered = ds) ↔
      ∃ ds', (∃ budget,
          ((Engine.loaded (g.parser rules depth) (xs.drop k)).drain budget).settled = true ∧
          ((Engine.loaded (g.parser rules depth) (xs.drop k)).drain budget).delivered = ds') ∧
        ds = .ok o :: ds'.map (Engine.Delivery.displace k) :=
  History.drain_after_output (parser_faithful hrules.plain depth hg.plain)
    (parser_portable hrules depth hg) ho hcommitted hk ds

/-- The second of two records is spoiled, and the failure lies behind the first record. -/
theorem second_record_spoiled :
    let p := twoWords.parser noRules 0
    let f : Failure Char := .aggregate [.unexpected 'x' "b", .unexpected 'x' "c"]
    ((Engine.loaded p ['a', 'c', 'a', 'x']).next 20).verdict = .output ('a', 'c') ∧
      ((Engine.loaded p ['a', 'c', 'a', 'x']).next 20).engine.committed = 2 ∧
      ((Engine.loaded p ['a', 'x']).drain 20).settled = true ∧
      ((Engine.loaded p ['a', 'x']).drain 20).delivered = [.error (.failure f 1)] ∧
      ∃ budget, ((Engine.loaded p ['a', 'c', 'a', 'x']).drain budget).settled = true ∧
        ((Engine.loaded p ['a', 'c', 'a', 'x']).drain budget).delivered =
          [.ok ('a', 'c'), .error (.failure f 3)] := by
  intro p f
  have ho : ((Engine.loaded (twoWords.parser noRules 0) ['a', 'c', 'a', 'x']).next 20).verdict =
      .output ('a', 'c') := rfl
  have hcommitted : ((Engine.loaded (twoWords.parser noRules 0)
      ['a', 'c', 'a', 'x']).next 20).engine.committed = 2 := by decide +kernel
  have hsettled : ((Engine.loaded (twoWords.parser noRules 0) ['a', 'x']).drain 20).settled =
      true := rfl
  have hdelivered : ((Engine.loaded (twoWords.parser noRules 0) ['a', 'x']).drain 20).delivered =
      [.error (.failure f 1)] := rfl
  have hall := sessions_independent tokenless_noRules tokenless_twoWords 0 ho hcommitted
    (by decide) [.ok ('a', 'c'), .error (.failure f 3)]
  exact ⟨ho, hcommitted, hsettled, hdelivered, hall.mpr ⟨_, ⟨20, hsettled, hdelivered⟩, rfl⟩⟩

end Grammar

end ResumableParsing

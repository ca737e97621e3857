/-
# An empty piece before the stream

The first session may start before anything is fed, and no later one may start without input.  A
machine that asks something and completes without an item therefore puts out something when an empty
piece is fed before the stream; if the stream is there at once, the same session makes no progress
and ends the engine.  For every other machine an empty piece before the stream goes unnoticed.
-/
import ResumableParsing.Proofs.Engine.Pieces

namespace ResumableParsing

variable {ρ : Type → Type} {ι ν ο α : Type} {m : Machine ι ν ο}

/-- The first session asks something and completes before anything has arrived, though more may
follow. -/
def Machine.Premature (m : Machine ι ν ο) : Prop :=
  (∃ q, m.start.resumed = .suspend q) ∧ ∃ o, m.Yields ⟨[], false, 0, 0⟩ 0 (.ok o) 0

namespace History

variable {h : History m}

/-! ## Calls that take all -/

/-- What a call delivers that takes all is what is delivered when nothing can be done any more. -/
theorem Serves.delivered_eq {budget k n : Nat} {r : CallReport m}
    (hk : h.Serves budget none k r) (hh : h.Sound) (hr : r.outcome ≠ .exhausted)
    (hn : (h.works n).Settled) : (h.works n).delivered = h.delivered ++ r.outcome.delivered := by
  obtain ⟨delivered, hadds, hdelivered⟩ := hk.reports
  rw [hh.works_unique hn (hk.settles rfl hr).2, hadds.delivered, hdelivered hr]

/-- Feeding nothing to a fresh engine is only work. -/
theorem serves_empty_piece (m : Machine ι ν ο) (budget : Nat) :
    ∃ k, (fresh m none).Serves budget none k
      ((Engine.fresh m none).makeCall budget ⟨.feed [], none⟩) := by
  have hserves := (flows_fresh m).serves (c := ⟨.feed [], none⟩) (.inl trivial) budget
  have hmoves : (fresh m none).after (Call.feed []).moves = fresh m none :=
    (flows_fresh m).move_feed_nil
  rw [hmoves] at hserves
  exact hserves

/-! ## Machines that wait for the stream -/

/-- A session that completes on an empty piece completes before anything has arrived. -/
theorem premature_of_completed {budget : Nat} {o : ο}
    (ho : .completed o ∈ ((Engine.fresh m none).makeCall budget ⟨.feed [], none⟩).events) :
    m.Premature := by
  obtain ⟨k, hk⟩ := serves_empty_piece m budget
  obtain ⟨_, hadds, -⟩ := hk.reports
  have hevents : (fresh m none).events ++
      ((Engine.fresh m none).makeCall budget ⟨.feed [], none⟩).events =
        (fresh m none).events ++
          (List.range k).flatMap fun i => ((fresh m none).works i).engine.step.events := by
    rw [← hadds.events, events_works]
  rw [List.append_cancel_left hevents] at ho
  obtain ⟨i, -, ho⟩ := List.mem_flatMap.mp ho
  obtain ⟨hasks, hyields⟩ := yields_of_completed ho
  exact ⟨hasks, o, hyields⟩

/-! ## Machines that do not wait -/

/-- On an empty piece the first session delivers its output, and no other session starts. -/
theorem empty_piece_of_premature (hm : m.Premature) {budget : Nat}
    (hr : ((Engine.fresh m none).makeCall budget ⟨.feed [], none⟩).outcome ≠ .exhausted) :
    ∃ o, ((Engine.fresh m none).makeCall budget ⟨.feed [], none⟩).outcome.delivered =
      [.ok o] := by
  obtain ⟨hasks, o, hyields⟩ := hm
  have hblank : (fresh m none).Blank := blank_fresh m none
  obtain ⟨n, -, hgoes⟩ := hblank.works_of_yields (fun hmay => Nat.lt_irrefl 0 hmay.1) hasks hyields
  obtain ⟨hblank', hnext, hdelivered⟩ := hgoes rfl
  have hsettled : ((fresh m none).works n).Settled := hblank'.settled hnext (fed_works _ n)
  obtain ⟨k, hk⟩ := serves_empty_piece m budget
  exact ⟨o, (hk.delivered_eq hblank.sound hr hsettled).symm.trans hdelivered⟩

/-- When the stream is there at once, the first session makes no progress. -/
theorem whole_of_premature (hm : m.Premature) {xs : List ι} (hxs : xs ≠ []) {budget : Nat}
    (hr : ((Engine.fresh m none).makeCall budget ⟨.drive xs false, none⟩).outcome ≠ .exhausted) :
    ((Engine.fresh m none).makeCall budget ⟨.drive xs false, none⟩).outcome.delivered =
      [.error (.usage (.noProgress 0))] := by
  obtain ⟨hasks, o, hyields⟩ := hm
  have hblank : (whole m xs).Blank := blank_whole m xs
  -- what has arrived meanwhile does not disturb the session
  have hmore : m.Yields ⟨xs, true, 0, 0⟩ 0 (.ok o) 0 := hyields.extend rfl xs true
  obtain ⟨n, hstops, -⟩ := hblank.works_of_yields (fun hmay => Nat.lt_irrefl 0 hmay.1) hasks hmore
  obtain ⟨hsettled, hdelivered⟩ := hstops hxs
  obtain ⟨k, hk⟩ := (flows_fresh m).serves (c := ⟨.drive xs false, none⟩) (.inr trivial) budget
  exact (hk.delivered_eq hblank.sound hr hsettled).symm.trans hdelivered

end History

/-! ## When an empty piece is noticed -/

/-- An empty piece before the stream goes unnoticed unless the first session completes before
anything has arrived.  If it does, the empty piece brings an output, which the whole stream does not
bring. -/
theorem Machine.Faithful.empty_piece_unnoticed_iff (hm : m.Faithful) {xs : List ι} (hxs : xs ≠ [])
    (budget b : Nat) :
    let atOnce : ScheduledCall ι := ⟨.drive xs false, none⟩
    let reports := (Engine.fresh m none).runSchedule budget [⟨.feed [], none⟩, atOnce]
    let whole := (Engine.fresh m none).makeCall b atOnce
    (∀ r ∈ reports, r.outcome ≠ .exhausted) → whole.outcome ≠ .exhausted →
      (reports.flatMap (·.outcome.delivered) = whole.outcome.delivered ↔ ¬ m.Premature) ∧
      (m.Premature → ∃ o later, reports.flatMap (·.outcome.delivered) = .ok o :: later ∧
        whole.outcome.delivered = [.error (.usage (.noProgress 0))]) := by
  intro atOnce reports whole hreports hwhole
  have hdiffer (hpremature : m.Premature) :
      ∃ o later, reports.flatMap (·.outcome.delivered) = .ok o :: later ∧
        whole.outcome.delivered = [.error (.usage (.noProgress 0))] := by
    obtain ⟨o, hearly⟩ :=
      History.empty_piece_of_premature hpremature (hreports _ List.mem_cons_self)
    exact ⟨o, _, congrArg (· ++ _) hearly, History.whole_of_premature hpremature hxs hwhole⟩
  refine ⟨⟨fun hsame hpremature => ?_, fun hwaits => ?_⟩, hdiffer⟩
  · obtain ⟨o, later, hsplit, hatOnce⟩ := hdiffer hpremature
    rw [hsplit, hatOnce] at hsame
    cases hsame
  · have hquiet : ∀ early, early <+: [(⟨.feed [], none⟩ : ScheduledCall ι)] →
        early.flatMap (·.call.items) = [] →
        ∀ r ∈ (Engine.fresh m none).runSchedule budget early, ∀ o, .completed o ∉ r.events := by
      intro early hearly _ r hr o ho
      rcases List.prefix_cons_iff.mp hearly with rfl | ⟨later, rfl, hlater⟩
      · cases hr
      · obtain rfl := List.prefix_nil.mp hlater
        cases List.mem_singleton.mp hr
        exact hwaits (History.premature_of_completed ho)
    have hstreaming := hm.streaming_invisible [⟨.feed [], none⟩]
      (List.forall_mem_singleton.mpr trivial) (.drive xs false) trivial budget hquiet
    have hitems : ([⟨.feed [], none⟩] ++ [atOnce] : List (ScheduledCall ι)).flatMap
        (·.call.items) = xs := List.append_nil xs
    dsimp only at hstreaming
    rw [hitems] at hstreaming
    exact ((hstreaming.2 b hwhole).2 hreports).1

namespace Grammar

/-- The parser of a plain grammar does not wait for the stream just when it asks something and the
descent of the grammar completes without an item. -/
theorem premature_iff {rules : RuleBook ρ ι ν} (hrules : rules.Plain) (depth : Nat)
    {g : Grammar ρ ι ν α} (hg : g.Plain) :
    (g.parser rules depth).Premature ↔
      (∃ q, (g.parser rules depth).start.resumed = .suspend q) ∧
        ∃ o, g.descend ⟨[], false, 0, 0⟩ rules depth 0 = some (.ok o, 0) := by
  have hrealizes := parser_realizes (w := ⟨[], false, 0, 0⟩) hrules depth hg
  exact and_congr_right fun _ => exists_congr fun o =>
    hrealizes.yields_iff ⟨Nat.le_refl 0, Nat.le_refl 0⟩

/-- Two words are waited for, so an empty piece before their letters goes unnoticed. -/
theorem empty_piece_before_words :
    ((Engine.fresh (twoWords.parser noRules 0) none).runSchedule 40
        [⟨.feed [], none⟩, ⟨.drive ['a', 'c', 'a', 'b'] false, none⟩]).flatMap
          (·.outcome.delivered) =
      ((Engine.fresh (twoWords.parser noRules 0) none).makeCall 40
        ⟨.drive ['a', 'c', 'a', 'b'] false, none⟩).outcome.delivered := by
  have hfaithful := parser_faithful plain_noRules 0 plain_twoWords
  have hwaits : ¬ (twoWords.parser noRules 0).Premature := by
    rw [premature_iff plain_noRules 0 plain_twoWords]
    rintro ⟨-, o, ho⟩
    cases ho
  have hletters : ['a', 'c', 'a', 'b'] ≠ [] := List.cons_ne_nil 'a' _
  have hunnoticed := hfaithful.empty_piece_unnoticed_iff hletters 40 40
    (List.forall_mem_cons.mpr ⟨nofun, List.forall_mem_singleton.mpr nofun⟩) nofun
  exact hunnoticed.1.mpr hwaits

/-- Nothing, or else a letter: the choice asks for a token, and then its first alternative completes
it. -/
def nothingOrLetter : Grammar (fun _ => Empty) Char Unit (Option Char) :=
  orElse (pure none) ((letter 'a').map some)

/-- An empty piece before a letter brings an output, and then what the letter alone brings. -/
theorem empty_piece_before_letter :
    ((Engine.fresh (nothingOrLetter.parser noRules 0) none).makeCall 10
        ⟨.drive ['a'] false, none⟩).outcome.delivered = [.error (.usage (.noProgress 0))] ∧
      ((Engine.fresh (nothingOrLetter.parser noRules 0) none).runSchedule 10
        [⟨.feed [], none⟩, ⟨.drive ['a'] false, none⟩]).flatMap (·.outcome.delivered) =
      .ok none :: ((Engine.fresh (nothingOrLetter.parser noRules 0) none).makeCall 10
        ⟨.drive ['a'] false, none⟩).outcome.delivered :=
  ⟨rfl, rfl⟩

end Grammar

end ResumableParsing

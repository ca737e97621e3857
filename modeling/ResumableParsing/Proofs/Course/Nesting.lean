/-
# A choice within a choice

A choice may stand among the alternatives of another one.  The inner choice ends where the furthest
of its alternatives ended, so the outer one measures it by them, and to write its alternatives into
the outer choice changes nothing but how the failures are gathered: what the inner choice puts
together is then told one by one.

Everything about the two choices follows from what decides them: a choice runs as one of its
alternatives does that is decided, or all of them fail (`runs_choice_iff`).
-/
import ResumableParsing.Proofs.Course.Choice
import ResumableParsing.Proofs.Descent.Blame

namespace ResumableParsing

variable {ι ν α : Type}

/-! ## Failures that are gathered -/

/-- To put failures together is to put their leaves together. -/
@[simp] theorem leaves_together (es : List (Failure ι)) :
    (together es).leaves = es.flatMap Failure.leaves := by
  match es with
  | [] => exact Failure.leaves_aggregate []
  | [e] => exact (List.flatMap_singleton Failure.leaves e).symm
  | e :: e' :: es => exact Failure.leaves_aggregate (e :: e' :: es)

/-- What gathers recoverable failures is one itself. -/
theorem isFatal_together {es : List (Failure ι)} (h : ∀ e ∈ es, e.isFatal = false) :
    (together es).isFatal = false := by
  match es with
  | [] => exact Failure.isFatal_ofCause _
  | [e] => exact h e List.mem_cons_self
  | e :: e' :: es => exact Failure.isFatal_ofCause _

/-- The furthest of all places is the furthest of some or of the others. -/
theorem reach_append (failed failed' : List (Failure ι × Nat)) :
    reach (failed ++ failed') = max (reach failed) (reach failed') := by
  unfold reach
  induction failed with
  | nil => simp
  | cons f failed ih =>
    rw [List.cons_append, List.map_cons, List.foldr_cons, ih, List.map_cons, List.foldr_cons]
    omega

/-- The failures of a place are kept in order. -/
theorem failuresAt_append (failed failed' : List (Failure ι × Nat)) (k : Nat) :
    failuresAt (failed ++ failed') k = failuresAt failed k ++ failuresAt failed' k := by
  unfold failuresAt
  rw [List.filter_append, List.map_append]

/-- The leaves of the failures that got to a place, in order. -/
def leavesAt (failed : List (Failure ι × Nat)) (k : Nat) : List (Failure ι) :=
  (failuresAt failed k).flatMap Failure.leaves

/-- The leaves of the failures of a place are kept in order. -/
theorem leavesAt_append (failed failed' : List (Failure ι × Nat)) (k : Nat) :
    leavesAt (failed ++ failed') k = leavesAt failed k ++ leavesAt failed' k := by
  unfold leavesAt
  rw [failuresAt_append, List.flatMap_append]

/-- What a choice that gave up makes of its failures. -/
def summary (failed : List (Failure ι × Nat)) : Failure ι × Nat :=
  (together (failuresAt failed (reach failed)), reach failed)

/-- A summary stands at the furthest place of what it sums up. -/
theorem reach_summary (failed : List (Failure ι × Nat)) :
    reach [summary failed] = reach failed := by
  show max (reach failed) 0 = reach failed
  omega

/-- No place behind the furthest matters, and there the summary has the leaves of all. -/
theorem leavesAt_summary {failed : List (Failure ι × Nat)} {k : Nat} (h : reach failed ≤ k) :
    leavesAt [summary failed] k = leavesAt failed k := by
  unfold leavesAt
  by_cases hk : reach failed = k
  · have halone : failuresAt [summary failed] k = [(summary failed).1] := by
      simp [failuresAt, summary, hk]
    rw [halone, List.flatMap_singleton, ← hk]
    exact leaves_together _
  · have hlt : reach failed < k := by omega
    rw [failuresAt_eq_nil hlt, failuresAt_eq_nil ((reach_summary failed).trans_lt hlt)]

/-- Failures between others may be summed up. -/
theorem summary_congr (before failed after : List (Failure ι × Nat)) :
    (summary (before ++ ([summary failed] ++ after))).2 =
        (summary (before ++ (failed ++ after))).2 ∧
      (summary (before ++ ([summary failed] ++ after))).1.leaves =
        (summary (before ++ (failed ++ after))).1.leaves := by
  have hreach : reach (before ++ ([summary failed] ++ after)) =
      reach (before ++ (failed ++ after)) := by
    rw [reach_append, reach_append, reach_summary, ← reach_append, ← reach_append]
  have hle : reach failed ≤ reach (before ++ (failed ++ after)) := by
    rw [reach_append, reach_append]
    omega
  refine ⟨hreach, ?_⟩
  show (together _).leaves = (together _).leaves
  rw [leaves_together, leaves_together, hreach]
  show leavesAt _ _ = leavesAt _ _
  rw [leavesAt_append, leavesAt_append, leavesAt_summary hle, ← leavesAt_append, ← leavesAt_append]

namespace Machine

variable {w : Setting ι} {ps qs : List (Machine ι ν α)} {p : Machine ι ν α} {c n : Nat}
  {res : Except (Failure ι) α} {failed : List (Failure ι × Nat)} {notes noted : List ν}

/-! ## Alternatives in a row -/

/-- An output and a fatal failure decide a choice. -/
def Decisive (res : Except (Failure ι) α) : Prop := ∀ f, res = .error f → f.isFatal = true

/-- A fatal failure would have ended the choice. -/
theorem AllFail.recoverable (h : AllFail w c ps failed noted) :
    ∀ f ∈ failed, f.1.isFatal = false := by
  induction h with
  | nil => nofun
  | cons _ recoverable _ ih => exact List.forall_mem_cons.mpr ⟨recoverable, ih⟩

/-- What sums up failures of alternatives does not decide a choice around them. -/
theorem AllFail.isFatal_summary (h : AllFail w c ps failed noted) :
    (summary failed).1.isFatal = false := by
  refine isFatal_together fun e he => ?_
  obtain ⟨f, hf, rfl⟩ := List.mem_map.mp he
  exact h.recoverable f (List.mem_filter.mp hf).1

/-- If two rows of alternatives fail, so does the row of both. -/
theorem AllFail.append {failed' : List (Failure ι × Nat)} {noted' : List ν}
    (h : AllFail w c ps failed noted) (h' : AllFail w c qs failed' noted') :
    AllFail w c (ps ++ qs) (failed ++ failed') (noted ++ noted') := by
  induction h with
  | nil => exact h'
  | cons run recoverable _ ih =>
    rw [List.append_assoc]
    exact .cons run recoverable ih

/-- A row of one alternative fails as that alternative does. -/
theorem allFail_singleton_iff :
    AllFail w c [p] failed noted ↔
      ∃ f k, p.Runs w c noted (.error f) k ∧ f.isFatal = false ∧ failed = [(f, k)] := by
  constructor
  · intro h
    cases h with
    | @cons _ _ f k _ notes _ run recoverable rest =>
      cases rest
      rw [List.append_nil]
      exact ⟨f, k, run, recoverable, rfl⟩
  · rintro ⟨f, k, run, recoverable, rfl⟩
    rw [← List.append_nil noted]
    exact .cons run recoverable .nil

/-- No alternative decides a choice that has none. -/
theorem not_decided_nil : ¬ Decided w c ([] : List (Machine ι ν α)) notes res n := by
  rintro ⟨before, p, after, -, -, -, h, -⟩
  exact List.cons_ne_nil p after (List.append_eq_nil_iff.mp h.symm).2

/-- The first machine decides, or it fails and those behind it are decided. -/
theorem decided_cons_iff :
    Decided w c (p :: ps) notes res n ↔
      (p.Runs w c notes res n ∧ Decisive res) ∨
        ∃ failed noted notes', AllFail w c [p] failed noted ∧ Decided w c ps notes' res n ∧
          notes = noted ++ notes' := by
  constructor
  · rintro ⟨before, q, after, failed, noted, notes', hps, hbefore, run, hdecisive, rfl⟩
    cases hbefore with
    | nil =>
      obtain ⟨rfl, rfl⟩ := List.cons.inj hps
      exact .inl ⟨run, hdecisive⟩
    | @cons _ before f k failed first noted run' recoverable rest =>
      obtain ⟨rfl, rfl⟩ := List.cons.inj hps
      rw [List.append_assoc]
      exact .inr ⟨_, first, _, allFail_singleton_iff.mpr ⟨f, k, run', recoverable, rfl⟩,
        ⟨before, q, after, failed, noted, notes', rfl, rest, run, hdecisive, rfl⟩, rfl⟩
  · rintro (⟨run, hdecisive⟩ | ⟨failed, noted, notes', hp, hps, rfl⟩)
    · exact ⟨[], p, ps, [], [], notes, rfl, .nil, run, hdecisive, rfl⟩
    · obtain ⟨f, k, run, recoverable, rfl⟩ := allFail_singleton_iff.mp hp
      exact hps.cons run recoverable

/-- The first machines are decided, or they fail and those behind them are decided. -/
theorem decided_append_iff :
    Decided w c (ps ++ qs) notes res n ↔
      Decided w c ps notes res n ∨
        ∃ failed noted notes', AllFail w c ps failed noted ∧ Decided w c qs notes' res n ∧
          notes = noted ++ notes' := by
  induction ps generalizing notes with
  | nil =>
    constructor
    · intro h
      exact .inr ⟨[], [], notes, .nil, h, rfl⟩
    · rintro (h | ⟨_, _, _, hnil, h, rfl⟩)
      · exact absurd h not_decided_nil
      · cases hnil
        exact h
  | cons p ps ih =>
    rw [List.cons_append, decided_cons_iff, decided_cons_iff]
    constructor
    · rintro (h | ⟨failed, noted, notes', hp, hrest, rfl⟩)
      · exact .inl (.inl h)
      · rcases ih.mp hrest with h | ⟨failed', noted', notes', hps, hqs, rfl⟩
        · exact .inl (.inr ⟨failed, noted, _, hp, h, rfl⟩)
        · exact .inr ⟨_, _, notes', hp.append hps, hqs, (List.append_assoc _ _ _).symm⟩
    · rintro ((h | ⟨failed, noted, notes', hp, h, rfl⟩) | ⟨failed, noted, notes', hps, hqs, rfl⟩)
      · exact .inl h
      · exact .inr ⟨failed, noted, notes', hp, ih.mpr (.inl h), rfl⟩
      · have hsplit : AllFail w c ([p] ++ ps) failed noted := hps
        obtain ⟨first, behind, noted₁, noted₂, hp, hbehind, rfl, rfl⟩ := hsplit.split
        exact .inr ⟨first, noted₁, _, hp, ih.mpr (.inr ⟨behind, noted₂, notes', hbehind, hqs, rfl⟩),
          List.append_assoc _ _ _⟩

/-! ## What decides a choice -/

/-- A choice runs as an alternative that is decided, or all alternatives fail and are summed up. -/
theorem runs_choice_iff (hc : w.Within c) (hps : ps ≠ []) :
    (choice ps).Runs w c notes res n ↔
      Decided w c ps notes res n ∨
        ∃ failed, AllFail w c ps failed notes ∧ res = .error (summary failed).1 ∧
          n = (summary failed).2 := by
  constructor
  · intro h
    rcases h.exists_decision hc with ⟨failed, noted, hall⟩ | ⟨noted, hdecided⟩
    · obtain ⟨rfl, rfl, rfl⟩ := Course.unique (hall.concludes hc hps) h
      exact .inr ⟨failed, hall, rfl, rfl⟩
    · obtain ⟨before, p, after, failed, noted, notes', rfl, hall, run, hdecisive, rfl⟩ := hdecided
      obtain ⟨rfl, -⟩ := Course.unique (hall.decided hc after run hdecisive) h
      exact .inl ⟨before, p, after, failed, noted, notes', rfl, hall, run, hdecisive, rfl⟩
  · rintro (⟨before, p, after, failed, noted, notes', rfl, hbefore, run, hdecisive, rfl⟩ |
      ⟨failed, hall, rfl, rfl⟩)
    · exact hbefore.decided hc after run hdecisive
    · exact hall.concludes hc hps

/-- An alternative decides a choice by an output or a fatal failure. -/
theorem Decided.decisive (h : Decided w c ps notes res n) : Decisive res := by
  obtain ⟨-, -, -, -, -, -, -, -, -, hdecisive, -⟩ := h
  exact hdecisive

/-- A choice comes to a decisive result just if its alternatives are decided. -/
theorem runs_choice_iff_of_decisive (hc : w.Within c) (hps : ps ≠ []) (hres : Decisive res) :
    (choice ps).Runs w c notes res n ↔ Decided w c ps notes res n := by
  rw [runs_choice_iff hc hps]
  constructor
  · rintro (h | ⟨failed, hall, rfl, -⟩)
    · exact h
    · have hfatal := hres _ rfl
      rw [hall.isFatal_summary] at hfatal
      cases hfatal
  · exact .inl

/-- A choice comes to a recoverable failure just if all alternatives fail, and it sums them up. -/
theorem runs_choice_iff_of_recoverable (hc : w.Within c) (hps : ps ≠ []) {f : Failure ι}
    (hf : f.isFatal = false) :
    (choice ps).Runs w c notes (.error f) n ↔
      ∃ failed, AllFail w c ps failed notes ∧ (f, n) = summary failed := by
  rw [runs_choice_iff hc hps]
  constructor
  · rintro (h | ⟨failed, hall, hres, rfl⟩)
    · have hfatal := h.decisive f rfl
      rw [hf] at hfatal
      cases hfatal
    · exact ⟨failed, hall, by rw [Except.error.inj hres]⟩
  · rintro ⟨failed, hall, hsummary⟩
    exact .inr ⟨failed, hall, by rw [← hsummary], by rw [← hsummary]⟩

/-- What a choice comes to recoverably is known by its leaves and its place. -/
theorem exists_recoverable_iff (hc : w.Within c) (hps : ps ≠ []) {leaves : List (Failure ι)} :
    (∃ f, f.isFatal = false ∧ f.leaves = leaves ∧ (choice ps).Runs w c notes (.error f) n) ↔
      ∃ failed, AllFail w c ps failed notes ∧ (summary failed).1.leaves = leaves ∧
        (summary failed).2 = n := by
  constructor
  · rintro ⟨f, hf, rfl, run⟩
    obtain ⟨failed, hall, hsummary⟩ := (runs_choice_iff_of_recoverable hc hps hf).mp run
    exact ⟨failed, hall, by rw [← hsummary], by rw [← hsummary]⟩
  · rintro ⟨failed, hall, rfl, rfl⟩
    have hf := hall.isFatal_summary
    exact ⟨_, hf, rfl, (runs_choice_iff_of_recoverable hc hps hf).mpr ⟨failed, hall, rfl⟩⟩

/-! ## The choice within -/

variable {xs ys zs : List (Machine ι ν α)}

/-- A choice alone is decided as its alternatives are. -/
theorem decided_choice_iff (hc : w.Within c) (hys : ys ≠ []) :
    Decided w c [choice ys] notes res n ↔ Decided w c ys notes res n := by
  rw [decided_cons_iff]
  constructor
  · rintro (⟨run, hres⟩ | ⟨_, _, _, -, hnil, -⟩)
    · exact (runs_choice_iff_of_decisive hc hys hres).mp run
    · exact absurd hnil not_decided_nil
  · intro h
    exact .inl ⟨(runs_choice_iff_of_decisive hc hys h.decisive).mpr h, h.decisive⟩

/-- A choice alone fails with the summary of its alternatives. -/
theorem allFail_choice_iff (hc : w.Within c) (hys : ys ≠ []) :
    AllFail w c [choice ys] failed noted ↔
      ∃ inner, AllFail w c ys inner noted ∧ failed = [summary inner] := by
  rw [allFail_singleton_iff]
  constructor
  · rintro ⟨f, k, run, hf, rfl⟩
    obtain ⟨inner, hall, hsummary⟩ := (runs_choice_iff_of_recoverable hc hys hf).mp run
    exact ⟨inner, hall, congrArg ([·]) hsummary⟩
  · rintro ⟨inner, hall, rfl⟩
    have hf := hall.isFatal_summary
    exact ⟨_, _, (runs_choice_iff_of_recoverable hc hys hf).mpr ⟨inner, hall, rfl⟩, hf, rfl⟩

/-- An alternative decides a choice just when it decides it after the choice within is resolved. -/
theorem decided_nested_iff (hc : w.Within c) (hys : ys ≠ []) :
    Decided w c (xs ++ ([choice ys] ++ zs)) notes res n ↔
      Decided w c (xs ++ (ys ++ zs)) notes res n := by
  have hinner {notes : List ν} :
      Decided w c ([choice ys] ++ zs) notes res n ↔ Decided w c (ys ++ zs) notes res n := by
    rw [decided_append_iff, decided_append_iff, decided_choice_iff hc hys]
    refine or_congr Iff.rfl ⟨?_, ?_⟩
    · rintro ⟨failed, noted, notes', hys', hzs, rfl⟩
      obtain ⟨inner, hall, -⟩ := (allFail_choice_iff hc hys).mp hys'
      exact ⟨inner, noted, notes', hall, hzs, rfl⟩
    · rintro ⟨inner, noted, notes', hall, hzs, rfl⟩
      exact ⟨_, noted, notes', (allFail_choice_iff hc hys).mpr ⟨inner, hall, rfl⟩, hzs, rfl⟩
  rw [decided_append_iff, decided_append_iff]
  simp only [hinner]

/-- If all alternatives of the nested choice fail, so do those of the flat one, and the other way
round; the inner ones are summed up among the failures of the nested choice. -/
theorem allFail_nested_iff (hc : w.Within c) (hys : ys ≠ []) :
    AllFail w c (xs ++ ([choice ys] ++ zs)) failed noted ↔
      ∃ before inner after, failed = before ++ ([summary inner] ++ after) ∧
        ∃ noted₁ noted₂ noted₃, AllFail w c xs before noted₁ ∧ AllFail w c ys inner noted₂ ∧
          AllFail w c zs after noted₃ ∧ noted = noted₁ ++ (noted₂ ++ noted₃) := by
  constructor
  · intro h
    obtain ⟨before, _, noted₁, _, hxs, hrest, rfl, rfl⟩ := h.split
    obtain ⟨_, after, noted₂, noted₃, hchoice, hzs, rfl, rfl⟩ := hrest.split
    obtain ⟨inner, hall, rfl⟩ := (allFail_choice_iff hc hys).mp hchoice
    exact ⟨before, inner, after, rfl, noted₁, noted₂, noted₃, hxs, hall, hzs, rfl⟩
  · rintro ⟨before, inner, after, rfl, noted₁, noted₂, noted₃, hxs, hall, hzs, rfl⟩
    exact hxs.append (((allFail_choice_iff hc hys).mpr ⟨inner, hall, rfl⟩).append hzs)

/-- A row of alternatives fails just when all its stretches do, one after another. -/
theorem allFail_flat_iff :
    AllFail w c (xs ++ (ys ++ zs)) failed noted ↔
      ∃ before inner after, failed = before ++ (inner ++ after) ∧
        ∃ noted₁ noted₂ noted₃, AllFail w c xs before noted₁ ∧ AllFail w c ys inner noted₂ ∧
          AllFail w c zs after noted₃ ∧ noted = noted₁ ++ (noted₂ ++ noted₃) := by
  constructor
  · intro h
    obtain ⟨before, _, noted₁, _, hxs, hrest, rfl, rfl⟩ := h.split
    obtain ⟨inner, after, noted₂, noted₃, hall, hzs, rfl, rfl⟩ := hrest.split
    exact ⟨before, inner, after, rfl, noted₁, noted₂, noted₃, hxs, hall, hzs, rfl⟩
  · rintro ⟨before, inner, after, rfl, noted₁, noted₂, noted₃, hxs, hall, hzs, rfl⟩
    exact hxs.append (hall.append hzs)

/-- A choice among the alternatives of another choice may be replaced by its own alternatives, of
which there is at least one, for any machines and wherever the choice is started.  Both choices
complete with the same outputs and fail fatally with the same failures, at the same places and with
the same notes.  If one fails recoverably, so does the other, at the same place, and when the
failures that gather others are taken apart, the same failures are left in the same order. -/
theorem nested_choice_flattens (hc : w.Within c) (xs zs : List (Machine ι ν α))
    (hys : ys ≠ []) :
    let nested := choice (xs ++ [choice ys] ++ zs)
    let flat := choice (xs ++ ys ++ zs)
    (∀ notes a n, nested.Runs w c notes (.ok a) n ↔ flat.Runs w c notes (.ok a) n) ∧
    (∀ notes f n, f.isFatal = true →
      (nested.Runs w c notes (.error f) n ↔ flat.Runs w c notes (.error f) n)) ∧
    (∀ notes leaves n,
      (∃ f, f.isFatal = false ∧ f.leaves = leaves ∧ nested.Runs w c notes (.error f) n) ↔
        ∃ f, f.isFatal = false ∧ f.leaves = leaves ∧ flat.Runs w c notes (.error f) n) ∧
    ∀ (m : Machine ι ν α) res n,
      (Session.begun m w.session w.start c).Ends (.of w.items w.start) w.ended res n ↔
        ∃ notes, m.Runs w c notes res n := by
  intro nested flat
  have hnested : xs ++ [choice ys] ++ zs = xs ++ ([choice ys] ++ zs) := List.append_assoc _ _ _
  have hflat : xs ++ ys ++ zs = xs ++ (ys ++ zs) := List.append_assoc _ _ _
  have hnested_ne : xs ++ ([choice ys] ++ zs) ≠ [] := by simp
  have hflat_ne : xs ++ (ys ++ zs) ≠ [] := by simp [hys]
  have hdecisive {notes : List ν} {res : Except (Failure ι) α} {n : Nat} (hres : Decisive res) :
      nested.Runs w c notes res n ↔ flat.Runs w c notes res n := by
    simp only [nested, flat, hnested, hflat]
    rw [runs_choice_iff_of_decisive hc hnested_ne hres,
      runs_choice_iff_of_decisive hc hflat_ne hres]
    exact decided_nested_iff hc hys
  refine ⟨fun notes a n => hdecisive nofun,
    fun notes f n hf => hdecisive fun _ h => Except.error.inj h ▸ hf, fun notes leaves n => ?_,
    fun m res n => Session.ends_begun_iff_runs hc⟩
  simp only [nested, flat, hnested, hflat]
  rw [exists_recoverable_iff hc hnested_ne, exists_recoverable_iff hc hflat_ne]
  constructor
  · rintro ⟨_, hall, hleaves, hplace⟩
    obtain ⟨before, inner, after, rfl, hparts⟩ := (allFail_nested_iff hc hys).mp hall
    obtain ⟨hplace', hleaves'⟩ := summary_congr before inner after
    exact ⟨_, allFail_flat_iff.mpr ⟨before, inner, after, rfl, hparts⟩, hleaves'.symm.trans hleaves,
      hplace'.symm.trans hplace⟩
  · rintro ⟨_, hall, hleaves, hplace⟩
    obtain ⟨before, inner, after, rfl, hparts⟩ := allFail_flat_iff.mp hall
    obtain ⟨hplace', hleaves'⟩ := summary_congr before inner after
    exact ⟨_, (allFail_nested_iff hc hys).mpr ⟨before, inner, after, rfl, hparts⟩,
      hleaves'.trans hleaves, hplace'.trans hplace⟩

/-- A choice between two words that is itself an alternative blames the two words together, also
when the alternatives around it got less far. -/
theorem nested_choice_of_words :
    let w : Setting Char := ⟨['a', 'b'], true, 0, 0⟩
    let words : List (Machine Char String (List Char)) := [spelled "ac", spelled "ad"]
    w.Within 0 ∧ words ≠ [] ∧ ∃ notes f, f.isFatal = false ∧
      f.leaves = [.unexpected 'b' "c", .unexpected 'b' "d"] ∧
      (choice ([spelled "x"] ++ [choice words] ++ [spelled "y"])).Runs w 0 notes (.error f) 1 := by
  intro w words
  have hw : w.Within 0 := ⟨Nat.le_refl _, Nat.zero_le _⟩
  have hwords : words ≠ [] := nofun
  have hx : (spelled "x").Runs w 0 ["x", "x"] (.error (.unexpected 'a' "x")) 0 :=
    .answer rfl rfl (.fail rfl)
  have hac : (spelled "ac").Runs w 0 ["ac", "ac", "ac", "ac"] (.error (.unexpected 'b' "c")) 1 :=
    .answer rfl rfl (.answer rfl rfl (.answer rfl rfl (.fail rfl)))
  have had : (spelled "ad").Runs w 0 ["ad", "ad", "ad", "ad"] (.error (.unexpected 'b' "d")) 1 :=
    .answer rfl rfl (.answer rfl rfl (.answer rfl rfl (.fail rfl)))
  have hy : (spelled "y").Runs w 0 ["y", "y"] (.error (.unexpected 'a' "y")) 0 :=
    .answer rfl rfl (.fail rfl)
  have hall := AllFail.cons hx rfl (.cons hac rfl (.cons had rfl (.cons hy rfl .nil)))
  have hflat := hall.concludes hw nofun
  exact ⟨hw, hwords, _, ((nested_choice_flattens hw [spelled "x"] [spelled "y"] hwords).2.2.1
    _ _ _).mpr ⟨_, rfl, rfl, hflat⟩⟩

end Machine

end ResumableParsing

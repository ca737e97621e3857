/-
# Patterns between signs

A pattern is to match whole texts.  For this it is written between the sign for the beginning of the
text with the opening of a group, and the end of a group with the sign for the end of the text, and
what is written so is compiled.  If the pattern is well-formed by itself, then the group that is
opened before it is the one that is closed behind it, and what is compiled is the pattern between
two conditions (`compile_of_wellFormed`).  Only a pattern that is nested almost too deeply, or that
ends with a comment, is refused between the signs although it is well-formed.

The converse fails.  A pattern may close the group that was opened before it and leave one open for
the parenthesis behind it.  It is then ill-formed by itself, and what is compiled need not be about
whole texts.  There is no other way to be accepted without being well-formed
(`closesEarly_of_compile`).

All this is proved from the documentation of the library, for any library that is so documented.
-/
import ResumableParsing.Item
import ResumableParsing.Proofs.Descent.Basic
import ResumableParsing.Proofs.Pattern.Standard

namespace ResumableParsing

variable {lib : RegexLibrary} {m : lib.Meaning} {source : String}

/-! ## Leaves -/

/-- A leaf takes the item at its place if it accepts it, and otherwise leaves it there and fails. -/
theorem Machine.yields_satisfy_iff {ι ν : Type} {w : Setting ι} {c n : Nat} (hc : w.Within c)
    {x : ι} (hx : w.look c = some (some x)) {expected : String} {accepts : ι → Bool}
    {res : Except (Failure ι) ι} :
    (satisfy expected accepts : Machine ι ν ι).Yields w c res n ↔
      accepts x = true ∧ res = .ok x ∧ n = c + 1 ∨
        ¬ accepts x = true ∧ res = .error (.unexpected x expected) ∧ n = c := by
  rw [(realizes_satisfy expected accepts).yields_iff hc, Descent.satisfy, hx]
  show some (if accepts x then _ else _) = _ ↔ _
  by_cases h : accepts x = true
  · simp [h, eq_comm]
  · simp [h, eq_comm]

/-- The leaf of a pattern takes the item at its place just if the text of the item is such a text.
Any other item it leaves there, and fails with the pattern as it was written. -/
def Pattern.Takes (p : Pattern lib) (source : String) (Such : List Char → Prop) : Prop :=
  ∀ (ι ν : Type) [Item ι] (w : Setting ι) (c : Nat) (x : ι), w.Within c →
    w.look c = some (some x) →
    let leaf : Machine ι ν ι := .satisfy p.expected fun x => p.accepts (Item.text x)
    ∀ res n, leaf.Yields w c res n ↔
      Such (Item.text x).toList ∧ res = .ok x ∧ n = c + 1 ∨
        ¬ Such (Item.text x).toList ∧ res = .error (.unexpected x ("/" ++ source ++ "/")) ∧ n = c

/-- A leaf takes the items of which the text is accepted. -/
theorem Pattern.takes_iff_of_accepts {p : Pattern lib} {Such : List Char → Prop}
    (hsource : p.source = source)
    (h : ∀ text, lib.isMatch p.compiled text = true ↔ Such text) : p.Takes source Such := by
  intro ι ν _ w c x hc hx leaf res n
  subst hsource
  rw [← h]
  exact Machine.yields_satisfy_iff hc hx

/-! ## Frames between the signs -/

/-- What is compiled between the signs, if the frame that is written so is well-formed and not
nested too deeply. -/
theorem compile_of_frame (hm : m.Documented) {f : Frame lib} (hf : f.WellFormed m)
    (hwritten : f.written = Pattern.anchored source.toList) (hdepth : f.depth m ≤ nestLimit)
    {Such : List Char → Prop} (hsuch : ∀ text, (∃ i j, f.Spans m text i j) ↔ Such text) :
    Pattern.compile lib source = .error .tooBig ∨
      ∃ p, Pattern.compile lib source = .ok p ∧ p.Takes source Such := by
  unfold Pattern.compile
  rw [← hwritten]
  rcases hm.frames f hf hdepth with h | ⟨r, hr, hdescribes⟩
  · exact .inl (by rw [h]; rfl)
  · refine .inr ⟨⟨source, r⟩, by rw [hr]; rfl, Pattern.takes_iff_of_accepts rfl fun text => ?_⟩
    simp only [hm.search, hdescribes.spans]
    exact hsuch text

/-! ## Patterns that are well-formed by themselves -/

/-- The frame of a pattern between the signs. -/
def wholeFrame (source : List Char) (r : lib.Compiled) : Frame lib :=
  [[.textStart, .group source r, .textEnd]]

/-- A pattern between the signs is written like its frame. -/
theorem written_wholeFrame (source : List Char) (r : lib.Compiled) :
    (wholeFrame source r).written = Pattern.anchored source := by
  simp [wholeFrame, Frame.written, sequenceWritten, Piece.written, Pattern.anchored]

/-- Between the signs a pattern is two levels deeper: a group, and a sequence with the signs. -/
theorem depth_wholeFrame (source : List Char) (r : lib.Compiled) :
    (wholeFrame source r).depth m = m.depth r + 2 := by
  simp [wholeFrame, Frame.depth, Piece.depth, depthOfParts]

/-- The frame of a pattern that may be enclosed in a group is well-formed. -/
theorem wellFormed_wholeFrame (hm : m.Documented) {source : List Char} {r : lib.Compiled}
    (hr : lib.compile source = .ok r) (henclosable : lib.Enclosable source) :
    (wholeFrame source r).WellFormed m where
  ne_nil := List.cons_ne_nil _ _
  pieces := by simp [wholeFrame, Piece.WellFormed, hr, henclosable]
  nodup := by simpa [wholeFrame, Frame.names, Piece.names] using hm.nodup hr

/-- Between the signs only the stretch is matched that is the whole text. -/
theorem exists_spans_wholeFrame {source : List Char} {r : lib.Compiled} (text : List Char) :
    (∃ i j, (wholeFrame source r).Spans m text i j) ↔ m.Spans r text 0 text.length := by
  constructor
  · rintro ⟨i, j, ps, hps, hspans⟩
    obtain rfl := List.mem_singleton.mp hps
    obtain ⟨_, ⟨rfl, rfl⟩, _, hinside, _, ⟨rfl, rfl⟩, -⟩ := hspans
    exact hinside
  · intro h
    refine ⟨0, text.length, _, List.mem_singleton.mpr rfl, 0, ⟨rfl, rfl⟩, text.length, h, ?_⟩
    exact ⟨text.length, ⟨rfl, rfl⟩, rfl, Nat.le_refl _⟩

/-- A pattern that is well-formed by itself is compiled to one that matches whole texts. -/
theorem compile_of_wellFormed (hm : m.Documented) {r : lib.Compiled}
    (hr : lib.compile source.toList = .ok r) (henclosable : lib.Enclosable source.toList)
    (hdepth : m.depth r + 2 ≤ nestLimit) :
    Pattern.compile lib source = .error .tooBig ∨
      ∃ p, Pattern.compile lib source = .ok p ∧
        p.Takes source fun text => m.Spans r text 0 text.length :=
  compile_of_frame hm (wellFormed_wholeFrame hm hr henclosable) (written_wholeFrame _ r)
    (by rwa [depth_wholeFrame]) exists_spans_wholeFrame

/-! ## Patterns that close a group that they did not open -/

/-- What stands before some closing parenthesis of the pattern is a pattern by itself. -/
def ClosesEarly (lib : RegexLibrary) (source : List Char) : Prop :=
  ∃ before behind, source = before ++ ')' :: behind ∧ lib.Enclosable before

/-- A pattern that closes a group before its end is ill-formed by itself. -/
theorem compile_of_closesEarly (hm : m.Documented) {source : List Char}
    (h : ClosesEarly lib source) : lib.compile source = .error .illFormed := by
  obtain ⟨before, behind, rfl, hbefore⟩ := h
  exact hm.unopened before behind hbefore

/-- Where the end of a group stands behind a text, a parenthesis is the one of that end, or else one
of the text. -/
theorem eq_or_exists_of_append_closing {source inside behind : List Char}
    (h : source ++ [')', '\\', 'z'] = inside ++ ')' :: behind) :
    inside = source ∨ ∃ behind', source = inside ++ ')' :: behind' := by
  rcases List.append_eq_append_iff.mp h with ⟨left, rfl, hleft⟩ | ⟨left, rfl, hleft⟩
  · -- the parenthesis is the first sign behind the text, since there is no other
    rcases left with _ | ⟨c, left⟩
    · exact .inl (List.append_nil _)
    · obtain ⟨-, hrest⟩ := List.cons.inj hleft
      have hmem : ')' ∈ ['\\', 'z'] := hrest ▸ List.mem_append_right left List.mem_cons_self
      simp at hmem
  · rcases left with _ | ⟨c, left⟩
    · exact .inl (List.append_nil _).symm
    · obtain ⟨rfl, -⟩ := List.cons.inj hleft
      exact .inr ⟨left, rfl⟩

/-- What is not ill-formed between the signs may be enclosed in a group, or else closes the group
before its end. -/
theorem enclosable_or_closesEarly (hm : m.Documented) {source : List Char}
    (h : lib.compile (Pattern.anchored source) ≠ .error .illFormed) :
    lib.Enclosable source ∨ ClosesEarly lib source := by
  have hanchored : Pattern.anchored source =
      sequenceWritten [(.textStart : Piece lib)] ++
        '(' :: '?' :: ':' :: (source ++ [')', '\\', 'z']) := by
    simp [Pattern.anchored, sequenceWritten, Piece.written]
  rw [hanchored] at h
  obtain ⟨inside, behind, heq, hinside⟩ := hm.opened _ _ (by simp [Piece.WellFormed]) h
  rcases eq_or_exists_of_append_closing heq with rfl | ⟨behind', rfl⟩
  · exact .inl hinside
  · exact .inr ⟨inside, behind', rfl, hinside⟩

/-- What is compiled between the signs is not ill-formed there. -/
theorem compile_anchored_ne {p : Pattern lib} (h : Pattern.compile lib source = .ok p) :
    lib.compile (Pattern.anchored source.toList) ≠ .error .illFormed := by
  intro hrefused
  rw [Pattern.compile, hrefused] at h
  cases h

/-- There is no other way to be accepted without being well-formed. -/
theorem closesEarly_of_compile (hm : m.Documented) {p : Pattern lib}
    (h : Pattern.compile lib source = .ok p) :
    lib.compile source.toList ≠ .error .illFormed ∨ ClosesEarly lib source.toList :=
  (enclosable_or_closesEarly hm (compile_anchored_ne h)).imp_left And.left

/-- A pattern that is well-formed by itself is refused if it ends with a comment, or if it is nested
too deeply once it is written between the signs. -/
theorem compile_ne_of_wellFormed (hm : m.Documented) {r : lib.Compiled}
    (hr : lib.compile source.toList = .ok r)
    (h : ¬ (lib.Enclosable source.toList ∧ m.depth r + 2 ≤ nestLimit)) (p : Pattern lib) :
    Pattern.compile lib source ≠ .ok p := by
  intro hp
  have hanchored := compile_anchored_ne hp
  rcases enclosable_or_closesEarly hm hanchored with henclosable | hcloses
  · refine hanchored ?_
    rw [← written_wholeFrame _ r]
    refine hm.nesting _ (wellFormed_wholeFrame hm hr henclosable) ?_
    rw [depth_wholeFrame]
    exact Nat.not_le.mp fun hle => h ⟨henclosable, hle⟩
  · rw [compile_of_closesEarly hm hcloses] at hr
    cases hr

/-! ## Patterns in halves -/

/-- The frame of a pattern that closes the group before it, has a bar, and opens another group. -/
def halvesFrame (x y : List Char) (rx ry : lib.Compiled) : Frame lib :=
  [[.textStart, .group x rx], [.group y ry, .textEnd]]

/-- A pattern in halves is written between the signs like its frame. -/
theorem written_halvesFrame (x y : List Char) (rx ry : lib.Compiled) :
    (halvesFrame x y rx ry).written =
      Pattern.anchored (x ++ [')', '|', '(', '?', ':'] ++ y) := by
  simp [halvesFrame, Frame.written, sequenceWritten, Piece.written, Pattern.anchored,
    List.intercalate]

/-- Between the signs each half is three levels deeper. -/
theorem depth_halvesFrame (x y : List Char) (rx ry : lib.Compiled) :
    (halvesFrame x y rx ry).depth m = max (m.depth rx) (m.depth ry) + 3 := by
  simp [halvesFrame, Frame.depth, Piece.depth, depthOfParts]

/-- The first half matches a beginning of the text, or the second half an end of it. -/
theorem exists_spans_halvesFrame (hm : m.Documented) {x y : List Char} {rx ry : lib.Compiled}
    (text : List Char) :
    (∃ i j, (halvesFrame x y rx ry).Spans m text i j) ↔
      (∃ j, m.Spans rx text 0 j) ∨ ∃ i, m.Spans ry text i text.length := by
  constructor
  · rintro ⟨i, j, ps, hps, hspans⟩
    rcases List.mem_cons.mp hps with rfl | hps
    · obtain ⟨_, ⟨rfl, rfl⟩, k, hinside, -⟩ := hspans
      exact .inl ⟨k, hinside⟩
    · obtain rfl := List.mem_singleton.mp hps
      obtain ⟨_, hinside, _, ⟨rfl, rfl⟩, -⟩ := hspans
      exact .inr ⟨i, hinside⟩
  · rintro (⟨j, h⟩ | ⟨i, h⟩)
    · exact ⟨0, j, _, List.mem_cons_self, 0, ⟨rfl, rfl⟩, j, h, rfl, (hm.within h).2⟩
    · refine ⟨i, text.length, _, List.mem_cons_of_mem _ (List.mem_singleton.mpr rfl), ?_⟩
      exact ⟨text.length, h, text.length, ⟨rfl, rfl⟩, rfl, Nat.le_refl _⟩

/-- The leaf of a pattern in halves takes the items of which a beginning matches the first half or
an end matches the second. -/
theorem compile_of_halves (hm : m.Documented) {x y : List Char} {rx ry : lib.Compiled}
    (hsource : source.toList = x ++ [')', '|', '(', '?', ':'] ++ y)
    (hx : lib.compile x = .ok rx ∧ lib.Enclosable x)
    (hy : lib.compile y = .ok ry ∧ lib.Enclosable y)
    (hnodup : (m.names rx ++ m.names ry).Nodup)
    (hdepth : max (m.depth rx) (m.depth ry) + 3 ≤ nestLimit) :
    Pattern.compile lib source = .error .tooBig ∨
      ∃ p, Pattern.compile lib source = .ok p ∧ p.Takes source fun text =>
        (∃ j, m.Spans rx text 0 j) ∨ ∃ i, m.Spans ry text i text.length := by
  have hwellFormed : (halvesFrame x y rx ry).WellFormed m :=
    { ne_nil := List.cons_ne_nil _ _
      pieces := by simp [halvesFrame, Piece.WellFormed, hx, hy]
      nodup := by simpa [halvesFrame, Frame.names, Piece.names] using hnodup }
  refine compile_of_frame hm hwellFormed ?_ ?_ (exists_spans_halvesFrame hm)
  · rw [written_halvesFrame, hsource]
  · rwa [depth_halvesFrame]

/-! ## All patterns -/

/-- What becomes of a pattern that is to match whole texts, with any library that does what is
documented.

A pattern that is well-formed by itself is compiled, unless that would be too big, and its leaf
takes the item at its place just if the pattern matches the whole text of the item, from its
beginning to its end.  It is refused only if it is nested so deeply that there is no room for two
levels more, or if it ends with a comment.

A pattern that is compiled is well-formed by itself, or it closes the group before its end.  In that
case it is ill-formed by itself.  If it does so between two halves with a bar, then the leaf takes
the items of which a beginning matches the first half or an end matches the second. -/
theorem pattern_matches_whole_text (hm : m.Documented) (source : String) :
    let s := source.toList
    (∀ r, lib.compile s = .ok r → lib.Enclosable s → m.depth r + 2 ≤ nestLimit →
      Pattern.compile lib source = .error .tooBig ∨
        ∃ p, Pattern.compile lib source = .ok p ∧
          p.Takes source fun text => m.Spans r text 0 text.length) ∧
    (∀ r, lib.compile s = .ok r → ¬ (lib.Enclosable s ∧ m.depth r + 2 ≤ nestLimit) →
      (∀ p, Pattern.compile lib source ≠ .ok p) ∧
        ('#' ∈ s ∧ 'x' ∈ s ∨ nestLimit < m.depth r + 2)) ∧
    (∀ p, Pattern.compile lib source = .ok p →
      lib.compile s ≠ .error .illFormed ∨ ClosesEarly lib s) ∧
    (ClosesEarly lib s → lib.compile s = .error .illFormed) ∧
    (∀ x y rx ry, s = x ++ [')', '|', '(', '?', ':'] ++ y →
      lib.compile x = .ok rx ∧ lib.Enclosable x → lib.compile y = .ok ry ∧ lib.Enclosable y →
      (m.names rx ++ m.names ry).Nodup → max (m.depth rx) (m.depth ry) + 3 ≤ nestLimit →
      Pattern.compile lib source = .error .tooBig ∨
        ∃ p, Pattern.compile lib source = .ok p ∧ p.Takes source fun text =>
          (∃ j, m.Spans rx text 0 j) ∨ ∃ i, m.Spans ry text i text.length) := by
  intro s
  refine ⟨fun r => compile_of_wellFormed hm, fun r hr h => ⟨compile_ne_of_wellFormed hm hr h, ?_⟩,
    fun p => closesEarly_of_compile hm, compile_of_closesEarly hm,
    fun x y rx ry => compile_of_halves hm⟩
  by_cases henclosable : lib.Enclosable s
  · exact .inr (Nat.not_le.mp fun hle => h ⟨henclosable, hle⟩)
  · exact .inl (hm.comments s (by rw [hr]; nofun) henclosable)

/-- Of two alternatives the second matches the whole text, although the first matches a part. -/
theorem second_alternative_matches :
    let w : Setting String := ⟨["ab"], true, 0, 0⟩
    RegexLibrary.standardMeaning.Documented ∧ w.Within 0 ∧ w.look 0 = some (some "ab") ∧
      ∃ p, Pattern.compile .standard "a|ab" = .ok p ∧
        (Machine.satisfy p.expected fun x => p.accepts (Item.text x) :
          Machine String String String).Yields w 0 (.ok "ab") 1 := by
  intro w
  have hw : w.Within 0 := ⟨Nat.le_refl _, Nat.zero_le _⟩
  have hne : RegexLibrary.standard.compile "a|ab".toList ≠ .error .illFormed := nofun
  rcases (pattern_matches_whole_text documented_standard "a|ab").1 _ rfl
    (RegexLibrary.enclosable_standard hne) (by decide) with h | ⟨p, hp, hleaf⟩
  · cases h
  · refine ⟨documented_standard, hw, rfl, p, hp,
      (hleaf String String w 0 "ab" hw rfl _ _).mpr (.inl ⟨?_, rfl, rfl⟩)⟩
    refine ⟨Nat.zero_le _, .inr (.inl ⟨1, ⟨rfl, 'a', rfl, rfl⟩, 2, ⟨rfl, 'b', rfl, rfl⟩, rfl⟩)⟩

/-- A pattern that closes the group before its end is accepted although it is ill-formed, and each
of its halves takes texts of which it describes only a part. -/
theorem pattern_in_halves :
    RegexLibrary.standard.compile "a)|(?:b".toList = .error .illFormed ∧
      ∃ p, Pattern.read? "a)|(?:b" = some p ∧ p.accepts "ax" = true ∧ p.accepts "xb" = true :=
  ⟨rfl, _, rfl, rfl, rfl⟩

end ResumableParsing

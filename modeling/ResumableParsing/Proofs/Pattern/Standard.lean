/-
# The library does what is documented

The reader and the matcher of regular expressions are a library as it is documented
(`documented_standard`).  Whatever is written in a frame is cut into lexemes and read piece by piece
(`ReadsAs`), and what is read matches what the pieces match, one after the other.
-/
import ResumableParsing.Proofs.Pattern.Documented
import ResumableParsing.Proofs.Pattern.Matching
import ResumableParsing.Proofs.Pattern.Reading

namespace ResumableParsing

namespace RegexLibrary

/-- What expressions mean that have been read. -/
def standardMeaning : standard.Meaning where
  depth := Nested.depth
  names _ := []
  Spans e text i j := i ≤ text.length ∧ e.value.Matches text i j

/-! ## What is compiled -/

/-- What is compiled is what is read, if it is not nested too deeply. -/
theorem compile_standard_eq_ok_iff {source : List Char} {e : Nested Expression} :
    standard.compile source = .ok e ↔ Expression.read? source = some e ∧ e.depth ≤ nestLimit := by
  show Expression.compile source = .ok e ↔ _
  unfold Expression.compile
  cases Expression.read? source with
  | none => simp
  | some e' =>
    dsimp only
    split
    · simp only [Except.ok.injEq, Option.some.injEq]
      exact ⟨fun h => ⟨h, h ▸ ‹_›⟩, And.left⟩
    · refine iff_of_false nofun ?_
      rintro ⟨⟨⟩, hle⟩
      contradiction

/-- Whatever is not read, or is nested too deeply, is ill-formed. -/
theorem compile_standard_ne_illFormed_iff {source : List Char} :
    standard.compile source ≠ .error .illFormed ↔
      ∃ e, Expression.read? source = some e ∧ e.depth ≤ nestLimit := by
  show Expression.compile source ≠ .error .illFormed ↔ _
  unfold Expression.compile
  cases Expression.read? source with
  | none => exact iff_of_false (fun h => h rfl) nofun
  | some e =>
    dsimp only
    split
    · exact iff_of_true nofun ⟨e, rfl, ‹_›⟩
    · refine iff_of_false (fun h => h rfl) ?_
      rintro ⟨_, ⟨⟩, hle⟩
      contradiction

/-- What is read with a parenthesis behind it is ill-formed. -/
theorem compile_standard_append_closing {source : List Char}
    (h : standard.compile source ≠ .error .illFormed) (behind : List Char) :
    standard.compile (source ++ ')' :: behind) = .error .illFormed := by
  obtain ⟨e, he, -⟩ := compile_standard_ne_illFormed_iff.mp h
  refine Classical.not_not.mp fun hne => ?_
  obtain ⟨e', he', -⟩ := compile_standard_ne_illFormed_iff.mp hne
  rw [Expression.read?_append_closing he] at he'
  cases he'

/-- There are no comments, so that any well-formed expression may be enclosed in a group. -/
theorem enclosable_standard {source : List Char}
    (h : standard.compile source ≠ .error .illFormed) : standard.Enclosable source :=
  ⟨h, compile_standard_append_closing h []⟩

end RegexLibrary

open RegexLibrary

/-! ## Reading frames -/

/-- However the text goes on, it is cut into lexemes of its own and those of what follows, and its
own lexemes do the same to every group that has no flags. -/
def ReadsAs (cs : List Char) (f : Group → Group) : Prop :=
  (∀ g, g.flags = .none → (f g).flags = .none) ∧
    ∃ ls, (∀ tail ls', Lexes (cs ++ tail) ls' ↔ ∃ ls'', ls' = ls ++ ls'' ∧ Lexes tail ls'') ∧
      ∀ g, g.flags = .none → ∀ rest outer,
        readGroup (ls ++ rest) g outer = readGroup rest (f g) outer

/-- If a lexeme is read, it is the first. -/
theorem lexes_iff_of_lexeme {cs rest : List Char} {l : Lexeme} (h : lexeme cs = some (l, rest))
    {ls : List Lexeme} : Lexes cs ls ↔ ∃ ls', ls = l :: ls' ∧ Lexes rest ls' := by
  constructor
  · rintro (_ | ⟨first, others⟩)
    · cases h
    · cases h.symm.trans first
      exact ⟨_, rfl, others⟩
  · rintro ⟨ls', rfl, hls'⟩
    exact .cons h hls'

namespace ReadsAs

/-- Nothing does nothing to a group. -/
theorem nil : ReadsAs [] id :=
  ⟨fun _ h => h, [], fun _ _ => by simp, fun _ _ _ _ => rfl⟩

/-- What follows is done behind. -/
theorem append {cs cs' : List Char} {f f' : Group → Group} (h : ReadsAs cs f)
    (h' : ReadsAs cs' f') : ReadsAs (cs ++ cs') (f' ∘ f) := by
  obtain ⟨hflags, ls, hlexes, hread⟩ := h
  obtain ⟨hflags', ls', hlexes', hread'⟩ := h'
  refine ⟨fun g hg => hflags' _ (hflags g hg), ls ++ ls', fun tail all => ?_,
    fun g hg rest outer => ?_⟩
  · rw [List.append_assoc, hlexes]
    constructor
    · rintro ⟨_, rfl, h⟩
      obtain ⟨ls'', rfl, hrest⟩ := (hlexes' _ _).mp h
      exact ⟨ls'', by rw [List.append_assoc], hrest⟩
    · rintro ⟨ls'', rfl, h⟩
      have hrest := (hlexes' tail _).mpr ⟨ls'', rfl, h⟩
      exact ⟨ls' ++ ls'', by rw [List.append_assoc], hrest⟩
  · rw [List.append_assoc, hread g hg, hread' _ (hflags g hg)]
    rfl

/-- A text that is a single lexeme, whatever follows. -/
theorem of_lexeme {cs : List Char} {l : Lexeme} (h : ∀ tail, lexeme (cs ++ tail) = some (l, tail))
    {f : Group → Group} (hflags : ∀ g, g.flags = .none → (f g).flags = .none)
    (hstep : ∀ g, g.flags = .none → ∀ outer, l.step g outer = some (f g, outer)) :
    ReadsAs cs f := by
  refine ⟨hflags, [l], fun tail ls' => lexes_iff_of_lexeme (h tail), fun g hg rest outer => ?_⟩
  rw [List.cons_append, readGroup, hstep g hg]
  rfl

/-- A bar begins the next alternative. -/
theorem bar : ReadsAs ['|'] Group.nextAlternative :=
  .of_lexeme (fun _ => rfl) (fun _ h => h) fun _ _ _ => rfl

end ReadsAs

/-- The expression of a piece. -/
def Piece.nested : Piece .standard → Nested Expression
  | textStart => ⟨.assert .textStart, 0⟩
  | textEnd => ⟨.assert .textEnd, 0⟩
  | group _ inner => ⟨Nested.value inner, Nested.depth inner + 1⟩

/-- The beginning of a group without flags is a lexeme. -/
theorem lexes_iff_opening {cs : List Char} {ls : List Lexeme} :
    Lexes ('(' :: '?' :: ':' :: cs) ls ↔ ∃ ls', ls = .opening [] :: ls' ∧ Lexes cs ls' :=
  lexes_iff_of_lexeme rfl

/-- The end of a group is a lexeme. -/
theorem lexes_iff_closing {cs : List Char} {ls : List Lexeme} :
    Lexes (')' :: cs) ls ↔ ∃ ls', ls = .closing :: ls' ∧ Lexes cs ls' :=
  lexes_iff_of_lexeme rfl

/-- A well-formed piece is pushed as a whole. -/
theorem Piece.readsAs {p : Piece .standard} (h : p.WellFormed) :
    ReadsAs p.written fun g => g.push p.nested := by
  cases p with
  | textStart => exact .of_lexeme (fun _ => rfl) (fun _ h => h) fun _ _ _ => rfl
  | textEnd => exact .of_lexeme (fun _ => rfl) (fun _ h => h) fun _ _ _ => rfl
  | group source inner =>
    obtain ⟨hread, -⟩ := compile_standard_eq_ok_iff.mp h.1
    obtain ⟨ls, hls, hread⟩ := Expression.read?_eq_some_iff.mp hread
    obtain ⟨g', rfl, hrest⟩ := exists_group_of_readGroup hread
    refine ⟨fun _ h => h, .opening [] :: ls ++ [.closing], fun tail all => ?_,
      fun g hg rest outer => ?_⟩
    · have hwritten : (group source g'.expression : Piece .standard).written ++ tail =
          '(' :: '?' :: ':' :: (source ++ ')' :: tail) := by
        simp [written]
      rw [hwritten, lexes_iff_opening]
      constructor
      · rintro ⟨_, rfl, h⟩
        obtain ⟨_, rfl, hclosing⟩ := hls.of_append h
        obtain ⟨ls', rfl, hrest⟩ := lexes_iff_closing.mp hclosing
        exact ⟨ls', by simp, hrest⟩
      · rintro ⟨ls', rfl, h⟩
        exact ⟨_, by simp, hls.append (lexes_iff_closing.mpr ⟨ls', rfl, h⟩)⟩
    · have hinside := hrest (.closing :: rest) (g :: outer)
      have hstart : (Lexeme.opening []).step g outer = some (Group.start .none, g :: outer) := by
        show some (Group.start g.flags, g :: outer) = _
        rw [hg]
      rw [List.append_assoc, List.cons_append, readGroup, hstart]
      exact hinside

/-- Pieces are pushed one after the other. -/
def pushAll (ps : List (Piece .standard)) (g : Group) : Group :=
  ps.foldl (fun g p => g.push p.nested) g

/-- A sequence of well-formed pieces is read piece by piece. -/
theorem readsAs_sequence {ps : List (Piece .standard)} (h : ∀ p ∈ ps, p.WellFormed) :
    ReadsAs (sequenceWritten ps) (pushAll ps) := by
  induction ps with
  | nil => exact .nil
  | cons p ps ih =>
    have hrest := ih fun q hq => h q (List.mem_cons_of_mem p hq)
    exact (Piece.readsAs (h p List.mem_cons_self)).append hrest

/-- The group that the alternatives of a frame make up. -/
def Frame.enter : Frame .standard → Group → Group
  | [], g => g
  | [ps], g => pushAll ps g
  | ps :: f, g => enter f (pushAll ps g).nextAlternative

/-- A well-formed frame is read alternative by alternative. -/
theorem Frame.readsAs {f : Frame .standard} (h : ∀ ps ∈ f, ∀ p ∈ ps, p.WellFormed) :
    ReadsAs f.written f.enter := by
  induction f with
  | nil => exact .nil
  | cons ps f ih =>
    have hfirst := readsAs_sequence (h ps List.mem_cons_self)
    have hrest := ih fun qs hqs => h qs (List.mem_cons_of_mem ps hqs)
    cases f with
    | nil =>
      have hwritten : Frame.written [ps] = sequenceWritten ps := by simp [written]
      rw [hwritten]
      exact hfirst
    | cons qs f =>
      have hwritten : Frame.written (ps :: qs :: f) =
          sequenceWritten ps ++ (['|'] ++ Frame.written (qs :: f)) := by
        simp [written, List.intercalate]
      rw [hwritten]
      exact hfirst.append (ReadsAs.bar.append hrest)

/-! ## What is read of a frame -/

/-- The expression of a sequence of pieces. -/
def sequenceNested (ps : List (Piece .standard)) : Nested Expression where
  value := .appendAll (ps.map fun p => p.nested.value)
  depth := depthOfParts (ps.map fun p => p.nested.depth)

/-- What was pushed last stands first. -/
theorem pieces_pushAll (ps : List (Piece .standard)) (g : Group) :
    (pushAll ps g).pieces =
      (ps.map fun p => ⟨some p.nested.value, p.nested.depth⟩).reverse ++ g.pieces := by
  induction ps generalizing g with
  | nil => rfl
  | cons p ps ih =>
    rw [pushAll, List.foldl_cons, ← pushAll, ih]
    simp [Group.push]

/-- Pushing pieces keeps the alternatives before. -/
theorem alternatives_pushAll (ps : List (Piece .standard)) (g : Group) :
    (pushAll ps g).alternatives = g.alternatives := by
  induction ps generalizing g with
  | nil => rfl
  | cons p ps ih => exact ih _

/-- The pieces that are pushed at the beginning of an alternative make it up. -/
theorem lastAlternative_pushAll (ps : List (Piece .standard)) {g : Group} (h : g.pieces = []) :
    (pushAll ps g).lastAlternative = sequenceNested ps := by
  simp [Group.lastAlternative, sequenceNested, pieces_pushAll, h, Function.comp_def,
    List.filterMap_map]

/-- The alternatives of a frame come behind those before. -/
theorem alternatives_enter {f : Frame .standard} (hf : f ≠ []) {g : Group} (h : g.pieces = []) :
    ((f.enter g).lastAlternative :: (f.enter g).alternatives).reverse =
      g.alternatives.reverse ++ f.map sequenceNested := by
  induction f generalizing g with
  | nil => exact absurd rfl hf
  | cons ps f ih =>
    cases f with
    | nil =>
      simp [Frame.enter, lastAlternative_pushAll ps h, alternatives_pushAll]
    | cons qs f =>
      have hrest := ih (List.cons_ne_nil qs f) (g := (pushAll ps g).nextAlternative) rfl
      refine hrest.trans ?_
      simp [Group.nextAlternative, lastAlternative_pushAll ps h, alternatives_pushAll]

/-- A frame is read as the choice between its alternatives. -/
theorem expression_enter {f : Frame .standard} (hf : f ≠ []) :
    (f.enter (Group.start .none)).expression =
      ⟨.eitherAll (f.map fun ps => (sequenceNested ps).value),
        depthOfParts (f.map fun ps => (sequenceNested ps).depth)⟩ := by
  have halternatives := alternatives_enter hf (g := Group.start .none) rfl
  simp only [Group.expression, halternatives]
  simp [Group.start, Function.comp_def]

/-- A piece is nested as deep as its expression. -/
theorem Piece.depth_eq (p : Piece .standard) : p.depth standardMeaning = p.nested.depth := by
  cases p <;> rfl

/-- What is read of a well-formed frame. -/
theorem read?_frame {f : Frame .standard} (h : f.WellFormed standardMeaning) :
    Expression.read? f.written =
      some ⟨.eitherAll (f.map fun ps => (sequenceNested ps).value), f.depth standardMeaning⟩ := by
  obtain ⟨-, ls, hlexes, hread⟩ := Frame.readsAs h.pieces
  have hls := (hlexes [] ls).mpr ⟨[], by simp, .nil⟩
  rw [List.append_nil] at hls
  have hstart := hread (Group.start .none) rfl [] []
  rw [List.append_nil] at hstart
  refine Expression.read?_eq_some_iff.mpr ⟨ls, hls, hstart.trans ?_⟩
  have hdepth : Piece.depth standardMeaning = fun p => p.nested.depth := funext Piece.depth_eq
  rw [readGroup, expression_enter h.ne_nil]
  simp only [Frame.depth, sequenceNested, hdepth]

/-- The expression of a piece matches what the piece does. -/
theorem Piece.spans_iff {text : List Char} {p : Piece .standard} {i j : Nat} :
    p.Spans standardMeaning text i j ↔ i ≤ text.length ∧ p.nested.value.Matches text i j := by
  have hstretch {e : Expression} {P : Prop} (hP : P → i ≤ text.length)
      (h : i ≤ text.length → (e.Matches text i j ↔ P)) :
      P ↔ i ≤ text.length ∧ e.Matches text i j :=
    ⟨fun hp => ⟨hP hp, (h (hP hp)).mpr hp⟩, fun hm => (h hm.1).mp hm.2⟩
  cases p with
  | textStart => exact hstretch (fun h => h.1 ▸ Nat.zero_le _) Expression.matches_textStart_iff
  | textEnd => exact hstretch (fun h => Nat.le_of_eq h.1) Expression.matches_textEnd_iff
  | group _ inner => exact Iff.rfl

/-- The expression of a sequence matches what its pieces match one after the other. -/
theorem sequenceSpans_iff {text : List Char} {ps : List (Piece .standard)} {i j : Nat} :
    SequenceSpans standardMeaning text ps i j ↔
      i ≤ text.length ∧ (sequenceNested ps).value.Matches text i j := by
  induction ps generalizing i with
  | nil =>
    show i = j ∧ j ≤ text.length ↔ i ≤ text.length ∧ i = j
    omega
  | cons p ps ih =>
    show (∃ k, p.Spans _ text i k ∧ SequenceSpans _ text ps k j) ↔
      i ≤ text.length ∧
        ∃ k, p.nested.value.Matches text i k ∧ (sequenceNested ps).value.Matches text k j
    simp only [ih, Piece.spans_iff]
    constructor
    · rintro ⟨k, ⟨hi, hfirst⟩, -, hrest⟩
      exact ⟨hi, k, hfirst, hrest⟩
    · rintro ⟨hi, k, hfirst, hrest⟩
      exact ⟨k, ⟨hi, hfirst⟩, hfirst.le_length hi, hrest⟩

/-! ## The documentation -/

/-- What is read of a well-formed frame is what the frame describes. -/
theorem describes_frame {f : Frame .standard} :
    standardMeaning.Describes f
      ⟨.eitherAll (f.map fun ps => (sequenceNested ps).value), f.depth standardMeaning⟩ where
  depth := rfl
  names := by
    have hnames (p : Piece .standard) : p.names standardMeaning = [] := by cases p <;> rfl
    have hsequence (ps : List (Piece .standard)) : ps.flatMap (Piece.names standardMeaning) = [] :=
      List.flatMap_eq_nil_iff.mpr fun p _ => hnames p
    exact (List.flatMap_eq_nil_iff.mpr fun ps _ => hsequence ps).symm
  spans text i j := by
    show i ≤ text.length ∧ (Expression.eitherAll _).Matches text i j ↔ _
    simp only [Expression.matches_eitherAll_iff, List.mem_map, Frame.Spans, sequenceSpans_iff]
    constructor
    · rintro ⟨hi, -, ⟨ps, hps, rfl⟩, h⟩
      exact ⟨ps, hps, hi, h⟩
    · rintro ⟨ps, hps, hi, h⟩
      exact ⟨hi, _, ⟨ps, hps, rfl⟩, h⟩

/-- Behind a sequence of pieces, a group that is opened is closed. -/
theorem exists_inside_of_opened {ps : List (Piece .standard)} (h : ∀ p ∈ ps, p.WellFormed)
    {rest : List Char}
    (hne : standard.compile (sequenceWritten ps ++ '(' :: '?' :: ':' :: rest) ≠
      .error .illFormed) :
    ∃ inside behind, rest = inside ++ ')' :: behind ∧ standard.Enclosable inside := by
  obtain ⟨e, he, hdepth⟩ := compile_standard_ne_illFormed_iff.mp hne
  obtain ⟨ls, hls, hread⟩ := Expression.read?_eq_some_iff.mp he
  obtain ⟨hflags, ls', hlexes, hpush⟩ := readsAs_sequence h
  obtain ⟨_, rfl, hopening⟩ := (hlexes _ _).mp hls
  obtain ⟨ls'', rfl, hrest⟩ := lexes_iff_opening.mp hopening
  -- the group that is opened is read with the pieces before it around
  have hstart : (pushAll ps (Group.start .none)).flags = .none := hflags _ rfl
  rw [hpush (Group.start .none) rfl, readGroup, Lexeme.step, hstart] at hread
  have hread : readGroup ls'' (Group.start .none) ([] ++ [_]) = some e := hread
  obtain ⟨inside, behind, ls₁, e', rfl, hinside, hread', hlt⟩ :=
    exists_inside_of_readGroup hrest (List.cons_ne_nil _ _) hread
  refine ⟨inside, behind, rfl, enclosable_standard ?_⟩
  refine compile_standard_ne_illFormed_iff.mpr ⟨e', ?_, by omega⟩
  exact Expression.read?_eq_some_iff.mpr ⟨ls₁, hinside, hread'⟩

/-- The reader and the matcher do what is documented. -/
theorem documented_standard : standardMeaning.Documented where
  search e text := by
    refine Expression.occursIn_iff.trans ?_
    exact exists_congr fun i => (exists_and_left).symm
  within h := ⟨h.2.le, h.2.le_length h.1⟩
  nodup _ := List.nodup_nil
  frames f h hdepth := .inr ⟨_, compile_standard_eq_ok_iff.mpr ⟨read?_frame h, hdepth⟩,
    describes_frame⟩
  nesting f h hdepth := by
    refine Classical.not_not.mp fun hne => ?_
    obtain ⟨e, he, hle⟩ := compile_standard_ne_illFormed_iff.mp hne
    rw [read?_frame h] at he
    cases he
    exact absurd hle (Nat.not_le.mpr hdepth)
  opened ps rest h hne := exists_inside_of_opened h hne
  unopened source behind h := compile_standard_append_closing h.1 behind
  comments source h hne := absurd (enclosable_standard h) hne

end ResumableParsing

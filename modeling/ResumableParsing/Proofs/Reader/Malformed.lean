/-
# Bytes that are no text

Bytes that are no text have one fault, behind the longest text that they begin with.  If what is
left there is the beginning of a character, all of it is truncated.  If it is not, something in it
is invalid: the longest beginning of a character, or a single byte where no character begins.  A
decoder finds this fault wherever the bytes are cut into chunks, and as long as it has not found it,
each byte that it was given is decoded or held back.
-/
import ResumableParsing.Proofs.Reader.Chunks

namespace ResumableParsing.Utf8

/-! ## The bytes of a string -/

/-- A character has the bytes that it has in a string. -/
theorem encodeChar_eq_utf8EncodeChar (c : Char) : encodeChar c = String.utf8EncodeChar c := by
  have hlt : c.toNat < 0x110000 := by
    rcases c.valid with h | h
    · exact Nat.lt_trans h (by decide)
    · exact h.2
  have hval : c.val.toNat = c.toNat := rfl
  simp only [encodeChar, String.utf8EncodeChar, hval]
  generalize c.toNat = n at hlt
  by_cases hsingle : n < 0x80
  · rw [if_pos hsingle, if_pos (by omega)]
  rw [if_neg hsingle, if_neg (c := n ≤ 127) (by omega)]
  by_cases hdouble : n < 0x800
  · rw [if_pos hdouble, if_pos (by omega), Nat.mod_eq_of_lt (b := 32) (by omega),
      Nat.add_comm (n / 64), Nat.add_comm (n % 64)]
  rw [if_neg hdouble, if_neg (c := n ≤ 2047) (by omega)]
  by_cases htriple : n < 0x10000
  · rw [if_pos htriple, if_pos (by omega), Nat.mod_eq_of_lt (b := 16) (by omega),
      Nat.add_comm (n / 4096), Nat.add_comm (n / 64 % 64), Nat.add_comm (n % 64)]
  · rw [if_neg htriple, if_neg (by omega), Nat.mod_eq_of_lt (b := 8) (by omega),
      Nat.add_comm (n / 262144), Nat.add_comm (n / 4096 % 64), Nat.add_comm (n / 64 % 64),
      Nat.add_comm (n % 64)]

/-! ## How far two portions are text -/

/-- Where nothing is left of the first portion, the second is read behind it. -/
theorem reach_append {s t : Option Sequence} {cs : List Char} {bs : List UInt8}
    (h : reach s bs = ⟨cs, t, []⟩) (more : List UInt8) :
    reach s (bs ++ more) = { reach t more with text := cs ++ (reach t more).text } := by
  induction bs generalizing s cs with
  | nil =>
    cases h
    rfl
  | cons b bs ih =>
    rw [reach] at h
    rw [List.cons_append, reach]
    split at h
    · next c hc =>
      simp only [Reach.mk.injEq] at h
      obtain ⟨rfl, hunfinished, hrest⟩ := h
      have hread : reach none bs = ⟨(reach none bs).text, t, []⟩ := by
        rw [← hunfinished, ← hrest]
      simp only [ih hread, List.cons_append]
    · exact ih h
    · cases h

/-- What is left of the first portion stays left, with all of the second. -/
theorem rest_reach_append {s : Option Sequence} {bs : List UInt8} (h : (reach s bs).rest ≠ [])
    (more : List UInt8) : (reach s (bs ++ more)).rest = (reach s bs).rest ++ more := by
  induction bs generalizing s with
  | nil => exact absurd rfl h
  | cons b bs ih =>
    rw [reach] at h
    rw [List.cons_append, reach, reach]
    split at h
    · exact ih h
    · exact ih h
    · rfl

theorem rest_reach_suffix (s : Option Sequence) (bs : List UInt8) : (reach s bs).rest <:+ bs := by
  induction bs generalizing s with
  | nil => exact List.suffix_rfl
  | cons b bs ih =>
    rw [reach]
    split
    · exact (ih none).trans (List.suffix_cons b bs)
    · exact (ih _).trans (List.suffix_cons b bs)
    · exact List.suffix_rfl

/-! ## What is held back -/

/-- What is held back is read as what it is. -/
theorem Holds.reach_eq {s : Option Sequence} {held : List UInt8} (h : Holds s held) :
    reach none held = ⟨[], s, []⟩ := by
  cases h with
  | nothing => rfl
  | first₂ hlo hhi => exact reach_cons_of_more (readByte_double hlo hhi) []
  | first₃ hhi => exact reach_cons_of_more (readByte_triple hhi) []
  | first₄ hhi => exact reach_cons_of_more (readByte_quadruple hhi) []
  | @second₃ v hlo hhi hvalid =>
    obtain ⟨w, x, hx, rfl⟩ : ∃ w x, x < 0x40 ∧ v = 0x40 * w + x :=
      ⟨v / 0x40, v % 0x40, by omega, by omega⟩
    rw [Nat.mul_add_div (by decide), Nat.div_eq_of_lt hx, Nat.add_zero, Nat.mul_add_mod,
      Nat.mod_eq_of_lt hx]
    calc
      _ = reach (some ⟨1, w, 2, least₃ w, greatest₃ w⟩) [(0x80 + x).toUInt8] :=
        reach_cons_of_more (readByte_triple (by omega)) _
      _ = _ := reach_cons_of_more (readByte_second₃ hx hlo hvalid) []
  | @second₄ v hlo hhi =>
    obtain ⟨w, x, hx, rfl⟩ : ∃ w x, x < 0x40 ∧ v = 0x40 * w + x :=
      ⟨v / 0x40, v % 0x40, by omega, by omega⟩
    rw [Nat.mul_add_div (by decide), Nat.div_eq_of_lt hx, Nat.add_zero, Nat.mul_add_mod,
      Nat.mod_eq_of_lt hx]
    calc
      _ = reach (some ⟨1, w, 3, least₄ w, greatest₄ w⟩) [(0x80 + x).toUInt8] :=
        reach_cons_of_more (readByte_quadruple (by omega)) _
      _ = _ := reach_cons_of_more (readByte_second₄ hx hlo hhi) []
  | @third₄ v hlo hhi =>
    obtain ⟨y, z, x, hz, hx, rfl⟩ :
        ∃ y z x, z < 0x40 ∧ x < 0x40 ∧ v = 0x40 * (0x40 * y + z) + x :=
      ⟨v / 0x1000, v / 0x40 % 0x40, v % 0x40, by omega, by omega, by omega⟩
    have hfirst : (0x40 * (0x40 * y + z) + x) / 0x1000 = y := by omega
    rw [hfirst, Nat.mul_add_div (by decide), Nat.div_eq_of_lt hx, Nat.add_zero, Nat.mul_add_mod,
      Nat.mod_eq_of_lt hz, Nat.mul_add_mod, Nat.mod_eq_of_lt hx]
    calc
      _ = reach (some ⟨1, y, 3, least₄ y, greatest₄ y⟩) [(0x80 + z).toUInt8, (0x80 + x).toUInt8] :=
        reach_cons_of_more (readByte_quadruple (by omega)) _
      _ = reach (some ⟨2, 0x40 * y + z, 2, 0x80, 0xBF⟩) [(0x80 + x).toUInt8] :=
        reach_cons_of_more (readByte_second₄ hz (by omega) (by omega)) _
      _ = _ := reach_cons_of_more (readByte_third₄ hx) []

/-- A chunk is read as if what is held back stood before it. -/
theorem Holds.scan_eq_scan_append {s : Option Sequence} {held : List UInt8} (h : Holds s held)
    (n : Nat) (bs : List UInt8) :
    Decoder.scan ⟨n, s⟩ bs = Decoder.scan ⟨n, none⟩ (held ++ bs) := by
  have hheld : Decoder.scan ⟨n, none⟩ held = .ok ([], ⟨n, s⟩) := by
    rw [nothing.scan_eq, h.reach_eq]
    rfl
  rw [Decoder.scan_append, hheld]
  cases hscan : Decoder.scan ⟨n, s⟩ bs <;> simp [Except.bind, Except.map, hscan]

/-! ## The beginnings of characters -/

/-- The bytes are the beginning of a character: there are some, and some are missing. -/
def Begins (bs : List UInt8) : Prop :=
  bs ≠ [] ∧ ∃ c more, more ≠ [] ∧ encodeChar c = bs ++ more

/-- The least byte that may come next does not lie above the greatest. -/
theorem Holds.bounds {s : Sequence} {held : List UInt8} (h : Holds (some s) held) :
    ¬ s.greatest < s.least := by
  have hfree : ¬ (0xBF : UInt8) < 0x80 := by decide
  cases h with
  | @first₃ v hhi =>
    show ¬ greatest₃ v < least₃ v
    rw [UInt8.lt_iff_toNat_lt, toNat_greatest₃, toNat_least₃]
    split <;> split <;> omega
  | @first₄ v hhi =>
    show ¬ greatest₄ v < least₄ v
    rw [UInt8.lt_iff_toNat_lt, toNat_greatest₄, toNat_least₄]
    split <;> split <;> omega
  | _ => exact hfree

/-- What is held back is the beginning of a character: that with the least bytes that may come. -/
theorem Holds.begins {s : Sequence} {held : List UInt8} (h : Holds (some s) held) :
    Begins held := by
  have hne : held ≠ [] := by cases h <;> exact List.cons_ne_nil _ _
  refine ⟨hne, ?_⟩
  induction hn : s.missing using Nat.strongRecOn generalizing s held with
  | _ n ih =>
    have hb := h.continues s.least
    have hin : ¬ (s.least < s.least ∨ s.greatest < s.least) := by
      rintro (hlt | hlt)
      · exact UInt8.lt_irrefl _ hlt
      · exact h.bounds hlt
    rw [readByte, Sequence.read, if_neg hin] at hb
    split at hb
    · exact ⟨_, [s.least], List.cons_ne_nil _ _, hb⟩
    · next hmissing =>
      obtain ⟨c, more, -, hc⟩ := ih (s.missing - 1) (by omega) hb (by simp) rfl
      exact ⟨c, s.least :: more, List.cons_ne_nil _ _, by rw [hc, List.append_assoc]; rfl⟩

/-- The beginning of a character is held back. -/
theorem Begins.reach_eq {bs : List UInt8} (h : Begins bs) :
    ∃ s, reach none bs = ⟨[], some s, []⟩ := by
  obtain ⟨hne, c, more, hmore, hc⟩ := h
  have hwhole : reach none (bs ++ more) = ⟨[c], none, []⟩ := by
    rw [← hc]
    have hencode := reach_encode [c]
    rwa [encode, List.flatMap_singleton] at hencode
  have hrest : (reach none bs).rest = [] := by
    by_contra hleft
    have happend := rest_reach_append hleft more
    rw [hwhole] at happend
    exact hleft (List.append_eq_nil_iff.mp happend.symm).1
  obtain ⟨held, hheld, hbs⟩ := Holds.nothing.reaches bs
  have hread : reach none bs = ⟨(reach none bs).text, (reach none bs).unfinished, []⟩ := by
    rw [← hrest]
  have happend := reach_append hread more
  rw [hwhole] at happend
  have htext : (reach none bs).text ++ (reach (reach none bs).unfinished more).text = [c] :=
    (congrArg Reach.text happend).symm
  rw [hrest, List.append_nil, List.nil_append] at hbs
  -- a character within these bytes would be the one that they begin, which is longer
  have hnone : (reach none bs).text = [] := by
    cases hread : (reach none bs).text with
    | nil => rfl
    | cons c' cs =>
      rw [hread, List.cons_append, List.cons_eq_cons] at htext
      have hlength : (encodeChar c).length ≤ bs.length := by
        rw [hbs, hread, htext.1, encode, List.flatMap_cons]
        simp only [List.length_append]
        omega
      have hmissing : 0 < more.length := List.length_pos_iff.mpr hmore
      rw [hc, List.length_append] at hlength
      omega
  rw [hnone] at hbs
  cases hunfinished : (reach none bs).unfinished with
  | none =>
    rw [hunfinished] at hheld
    cases hheld
    exact absurd hbs hne
  | some s => exact ⟨s, by rw [← hnone, ← hunfinished, ← hrest]⟩

/-! ## The one fault -/

/-- No text that the bytes begin with has more bytes. -/
def Longest (bs : List UInt8) (cs : List Char) : Prop :=
  ∀ cs', encode cs' <+: bs → (encode cs').length ≤ (encode cs).length

/-- The maximal ill-formed part of bytes: the longest beginning of a character that is there, or a
single byte where there is none. -/
def MaximalPart (bs part : List UInt8) : Prop :=
  part <+: bs ∧
    ((Begins part ∧ ∀ other, other <+: bs → Begins other → other.length ≤ part.length) ∨
      (part.length = 1 ∧ ∀ other, other <+: bs → ¬ Begins other))

/-- What is wrong with bytes, told by what they begin with. -/
inductive Describes (bs : List UInt8) : Fault → Prop where
  /-- The bytes behind the longest text are the beginning of a character. -/
  | truncated {cs : List Char} {rest : List UInt8} (hbs : bs = encode cs ++ rest)
      (hlongest : Longest bs cs) (hrest : Begins rest) :
      Describes bs ⟨.truncated, (encode cs).length, rest.length⟩
  /-- They are not, and their maximal ill-formed part is at fault. -/
  | invalid {cs : List Char} {rest part : List UInt8} (hbs : bs = encode cs ++ rest)
      (hlongest : Longest bs cs) (hrest : ¬ Begins rest) (hpart : MaximalPart rest part) :
      Describes bs ⟨.invalid, (encode cs).length, part.length⟩

theorem Holds.length_le_three {s : Option Sequence} {held : List UInt8} (h : Holds s held) :
    held.length ≤ 3 := by
  cases h <;> simp

/-- Behind the text there is what is held back, and that is all that can be read there. -/
theorem reach_behind (bs : List UInt8) :
    ∃ held, Holds (reach none bs).unfinished held ∧
      bs = encode (reach none bs).text ++ (held ++ (reach none bs).rest) ∧
      reach none (held ++ (reach none bs).rest) =
        ⟨[], (reach none bs).unfinished, (reach none bs).rest⟩ := by
  obtain ⟨held, hheld, hbs⟩ := Holds.nothing.reaches bs
  rw [List.nil_append, List.append_assoc] at hbs
  refine ⟨held, hheld, hbs, ?_⟩
  have hread := reach_encode_append (reach none bs).text (held ++ (reach none bs).rest)
  rw [← hbs] at hread
  have htext : (reach none (held ++ (reach none bs).rest)).text = [] :=
    List.self_eq_append_right.mp (congrArg Reach.text hread)
  rw [← htext, congrArg Reach.unfinished hread]
  nth_rewrite 5 [congrArg Reach.rest hread]
  rfl

theorem longest_reach (bs : List UInt8) : Longest bs (reach none bs).text := by
  intro cs' hcs'
  obtain ⟨cs, hcs⟩ := prefix_text_of_encode_prefix hcs'
  rw [← hcs, encode_append, List.length_append]
  exact Nat.le_add_right _ _

/-- No beginning of a character goes further than what is held back. -/
theorem length_le_of_begins {s : Option Sequence} {held rest part : List UInt8}
    (hreach : reach none (held ++ rest) = ⟨[], s, rest⟩) (hpart : part <+: held ++ rest)
    (hbegins : Begins part) : part.length ≤ held.length := by
  obtain ⟨more, hmore⟩ := hpart
  obtain ⟨t, ht⟩ := hbegins.reach_eq
  have hbehind : (reach (some t) more).rest = rest := by
    rw [← hmore, reach_append ht] at hreach
    exact congrArg Reach.rest hreach
  have hsuffix : rest.length ≤ more.length := by
    rw [← hbehind]
    exact (rest_reach_suffix _ _).length_le
  have hlength := congrArg List.length hmore
  rw [List.length_append, List.length_append] at hlength
  omega

/-- The fault that is found in bytes tells what is wrong with them. -/
theorem describes_of_fault {bs : List UInt8} {f : Fault} (h : fault bs = some f) :
    Describes bs f := by
  obtain ⟨held, hheld, hbs, hbehind⟩ := reach_behind bs
  have hlongest := longest_reach bs
  rw [fault_eq] at h
  split at h
  · cases h
  · next s hrest hunfinished =>
    cases h
    rw [hunfinished] at hheld
    rw [hrest, List.append_nil] at hbs
    have hlength : s.received = held.length := hheld.length_eq.symm
    rw [hlength]
    exact .truncated hbs hlongest hheld.begins
  · next b rest hrest =>
    cases h
    have hnot : ¬ Begins (held ++ (reach none bs).rest) := by
      intro hbegins
      obtain ⟨t, ht⟩ := hbegins.reach_eq
      rw [hbehind, hrest] at ht
      exact List.cons_ne_nil _ _ (congrArg Reach.rest ht)
    cases hunfinished : (reach none bs).unfinished with
    | none =>
      rw [hunfinished] at hheld
      cases hheld
      have hsingle : [b] <+: [] ++ (reach none bs).rest := by
        rw [hrest]
        exact ⟨rest, rfl⟩
      have hnowhere (other : List UInt8) (hother : other <+: [] ++ (reach none bs).rest) :
          ¬ Begins other := by
        intro hbegins
        have hle := length_le_of_begins hbehind hother hbegins
        exact hbegins.1 (List.length_eq_zero_iff.mp (Nat.le_zero.mp hle))
      exact .invalid hbs hlongest hnot ⟨hsingle, .inr ⟨rfl, hnowhere⟩⟩
    | some s =>
      rw [hunfinished] at hheld
      have hlength : max (receivedBytes (some s)) 1 = held.length := by
        rw [← hheld.length_eq]
        have hpos : 0 < held.length := List.length_pos_iff.mpr hheld.begins.1
        omega
      rw [hlength]
      exact .invalid hbs hlongest hnot ⟨List.prefix_append _ _,
        .inl ⟨hheld.begins, fun other => length_le_of_begins hbehind⟩⟩

/-- A maximal ill-formed part has a definite length. -/
theorem MaximalPart.length_unique {bs part part' : List UInt8} (h : MaximalPart bs part)
    (h' : MaximalPart bs part') : part.length = part'.length := by
  obtain ⟨hpart, ⟨hbegins, hmax⟩ | ⟨hone, hnot⟩⟩ := h
  · obtain ⟨hpart', ⟨hbegins', hmax'⟩ | ⟨-, hnot'⟩⟩ := h'
    · exact Nat.le_antisymm (hmax' part hpart hbegins) (hmax part' hpart' hbegins')
    · exact absurd hbegins (hnot' part hpart)
  · obtain ⟨hpart', ⟨hbegins', -⟩ | ⟨hone', -⟩⟩ := h'
    · exact absurd hbegins' (hnot part' hpart')
    · rw [hone, hone']

theorem MaximalPart.length_pos {bs part : List UInt8} (h : MaximalPart bs part) :
    0 < part.length := by
  obtain ⟨-, ⟨hbegins, -⟩ | ⟨hone, -⟩⟩ := h
  · exact List.length_pos_iff.mpr hbegins.1
  · rw [hone]
    exact Nat.one_pos

/-- Two longest texts leave the same. -/
theorem Longest.unique {bs : List UInt8} {cs cs' : List Char} {rest rest' : List UInt8}
    (h : Longest bs cs) (h' : Longest bs cs') (hbs : bs = encode cs ++ rest)
    (hbs' : bs = encode cs' ++ rest') : cs = cs' ∧ rest = rest' := by
  have hlength : (encode cs).length = (encode cs').length :=
    Nat.le_antisymm (h' cs ⟨rest, hbs.symm⟩) (h cs' ⟨rest', hbs'.symm⟩)
  obtain ⟨hcs, hrest⟩ := List.append_inj (hbs.symm.trans hbs') hlength
  exact ⟨encode_injective hcs, hrest⟩

/-- There is one fault that tells what is wrong. -/
theorem Describes.unique {bs : List UInt8} {f g : Fault} (hf : Describes bs f)
    (hg : Describes bs g) : f = g := by
  cases hf with
  | truncated hbs hlongest hrest =>
    cases hg with
    | truncated hbs' hlongest' hrest' =>
      obtain ⟨rfl, rfl⟩ := hlongest.unique hlongest' hbs hbs'
      rfl
    | invalid hbs' hlongest' hrest' hpart' =>
      obtain ⟨rfl, rfl⟩ := hlongest.unique hlongest' hbs hbs'
      exact absurd hrest hrest'
  | invalid hbs hlongest hrest hpart =>
    cases hg with
    | truncated hbs' hlongest' hrest' =>
      obtain ⟨rfl, rfl⟩ := hlongest.unique hlongest' hbs hbs'
      exact absurd hrest' hrest
    | invalid hbs' hlongest' hrest' hpart' =>
      obtain ⟨rfl, rfl⟩ := hlongest.unique hlongest' hbs hbs'
      rw [hpart.length_unique hpart']

/-- Something is left behind the longest text. -/
theorem Describes.not_text {bs : List UInt8} {f : Fault} (h : Describes bs f) :
    ¬ ∃ cs, bs = encode cs := by
  rintro ⟨whole, hwhole⟩
  have hnone {cs : List Char} {rest : List UInt8} (hbs : bs = encode cs ++ rest)
      (hlongest : Longest bs cs) : rest = [] := by
    have hle := hlongest whole ⟨[], by rw [List.append_nil, hwhole]⟩
    rw [← hwhole, hbs, List.length_append] at hle
    exact List.length_eq_zero_iff.mp (by omega)
  cases h with
  | truncated hbs hlongest hrest => exact hrest.1 (hnone hbs hlongest)
  | invalid hbs hlongest hrest hpart =>
    have hle := hpart.1.length_le
    rw [hnone hbs hlongest] at hle
    exact absurd hle (Nat.not_le.mpr hpart.length_pos)

/-- What is found in bytes is what is wrong with them. -/
theorem fault_eq_some_iff {bs : List UInt8} {f : Fault} : fault bs = some f ↔ Describes bs f := by
  constructor
  · exact describes_of_fault
  · intro h
    cases hfault : fault bs with
    | none => exact absurd (fault_eq_none_iff.mp hfault) h.not_text
    | some g => rw [(describes_of_fault hfault).unique h]

theorem Begins.length_le_three {bs : List UInt8} (h : Begins bs) : bs.length ≤ 3 := by
  obtain ⟨held, hheld, hbs, -⟩ := reach_behind bs
  obtain ⟨s, hs⟩ := h.reach_eq
  rw [hs] at hheld hbs
  have heq : bs = held := hbs.trans (List.append_nil held)
  rw [heq]
  exact hheld.length_le_three

/-- One byte is at fault, or two or three are. -/
theorem Describes.length_bounds {bs : List UInt8} {f : Fault} (h : Describes bs f) :
    1 ≤ f.length ∧ f.length ≤ 3 := by
  cases h with
  | truncated _ _ hrest => exact ⟨List.length_pos_iff.mpr hrest.1, hrest.length_le_three⟩
  | invalid _ _ _ hpart =>
    refine ⟨hpart.length_pos, ?_⟩
    obtain ⟨-, ⟨hbegins, -⟩ | ⟨hone, -⟩⟩ := hpart
    · exact hbegins.length_le_three
    · exact hone.trans_le (by decide)

/-! ## Decoding chunk by chunk -/

/-- What has come of bytes. -/
structure Decoding where
  /-- The decoder behind them. -/
  decoder : Decoder
  /-- The characters that were read. -/
  text : List Char
  /-- The faults that were found. -/
  faults : List Fault

/-- Decode chunks until one is at fault. -/
def Decoder.decodeAll : Decoder → List (List UInt8) → Decoding
  | d, [] => ⟨d, [], []⟩
  | d, bs :: chunks =>
    match d.decode bs with
    | (d, .error f) => ⟨d, [], [f]⟩
    | (d, .ok cs) => { d.decodeAll chunks with text := cs ++ (d.decodeAll chunks).text }

/-- Decode chunks until one is at fault, and then declare the end of the bytes. -/
def Decoder.run (d : Decoder) (chunks : List (List UInt8)) : Decoding :=
  let read := d.decodeAll chunks
  ⟨read.decoder.finish.1, read.text, read.faults ++ read.decoder.finish.2.toList⟩

theorem Decoder.decodeAll_cons_of_ok {d d' : Decoder} {bs : List UInt8} {cs : List Char}
    (h : d.scan bs = .ok (cs, d')) (chunks : List (List UInt8)) :
    d.decodeAll (bs :: chunks) =
      { d'.decodeAll chunks with text := cs ++ (d'.decodeAll chunks).text } := by
  simp only [decodeAll, decode, h]

theorem Decoder.decodeAll_cons_of_error {d : Decoder} {bs : List UInt8} {f : Fault}
    (h : d.scan bs = .error f) (chunks : List (List UInt8)) :
    d.decodeAll (bs :: chunks) = ⟨⟨d.decoded, none⟩, [], [f]⟩ := by
  simp only [decodeAll, decode, h]

/-- Chunks are read like all their bytes at once; behind a fault nothing is held back. -/
theorem Decoder.decodeAll_eq (d : Decoder) (chunks : List (List UInt8)) :
    match d.scan chunks.flatten with
    | .ok (cs, d') => d.decodeAll chunks = ⟨d', cs, []⟩
    | .error f =>
      (d.decodeAll chunks).faults = [f] ∧ (d.decodeAll chunks).decoder.unfinished = none := by
  induction chunks generalizing d with
  | nil => rfl
  | cons bs chunks ih =>
    rw [List.flatten_cons, scan_append]
    cases hscan : d.scan bs with
    | error f =>
      rw [decodeAll_cons_of_error hscan]
      exact ⟨rfl, rfl⟩
    | ok x =>
      obtain ⟨cs, d'⟩ := x
      have hrest := ih d'
      rw [decodeAll_cons_of_ok hscan]
      simp only [Except.bind]
      cases hscan' : d'.scan chunks.flatten with
      | error f =>
        rw [hscan'] at hrest
        exact hrest
      | ok y =>
        rw [hscan'] at hrest
        simp only [Except.map, hrest]

/-- The faults that are found in chunks are the one that is found in all their bytes. -/
theorem Decoder.faults_run (d : Decoder) (chunks : List (List UInt8)) :
    (d.run chunks).faults = (d.fault chunks.flatten).toList := by
  have hread := d.decodeAll_eq chunks
  rw [run, fault]
  cases hscan : d.scan chunks.flatten with
  | ok x =>
    rw [hscan] at hread
    rw [hread]
    exact List.nil_append _
  | error f =>
    rw [hscan] at hread
    simp only [hread.1, finish, hread.2]
    rfl

example : (Decoder.fresh.run [[0x61, 0xED], [], [0xA0, 0x80]]).faults = [⟨.invalid, 1, 1⟩] := by
  decide

/-- A decoder that has found no fault has decoded, or holds back, each byte. -/
theorem Decoder.decoded_add_pending {d : Decoder} {cs : List Char} {bs : List UInt8}
    (h : Decoder.fresh.scan bs = .ok (cs, d)) :
    d.decoded + d.pending = bs.length ∧ d.pending ≤ 3 := by
  obtain ⟨held, hheld, heq⟩ := Holds.of_scan (d := .fresh) .nothing h
  have hdecoded : d.decoded = (encode cs).length := by
    rw [fresh, Holds.nothing.scan_eq] at h
    split at h
    · cases h
      exact Nat.zero_add _
    · cases h
  rw [List.nil_append] at heq
  rw [pending, ← hheld.length_eq, hdecoded, heq, List.length_append]
  exact ⟨rfl, hheld.length_le_three⟩

/-- A text is read, and nothing is held back behind it. -/
theorem Decoder.run_of_text {chunks : List (List UInt8)} {cs : List Char}
    (h : chunks.flatten = encode cs) :
    Decoder.fresh.run chunks = ⟨⟨chunks.flatten.length, none⟩, cs, []⟩ := by
  have hscan : Decoder.fresh.scan chunks.flatten = .ok (cs, ⟨chunks.flatten.length, none⟩) := by
    rw [fresh, Holds.nothing.scan_eq, h, reach_encode]
    simp only [Nat.zero_add]
  have hread := Decoder.fresh.decodeAll_eq chunks
  rw [hscan] at hread
  rw [run, hread]
  rfl

/-- Bytes are decoded the same however they are cut into chunks. -/
theorem decoding_independent_of_chunks (bs : List UInt8) :
    (∀ cs, bs = encode cs → ∀ chunks : List (List UInt8), chunks.flatten = bs →
      (Decoder.fresh.run chunks).faults = [] ∧ (Decoder.fresh.run chunks).text = cs ∧
        (Decoder.fresh.run chunks).decoder.decoded = bs.length ∧
        (Decoder.fresh.run chunks).decoder.pending = 0) ∧
    ((¬ ∃ cs, bs = encode cs) → ∃ f, (∀ g, Describes bs g ↔ g = f) ∧
      1 ≤ f.length ∧ f.length ≤ 3 ∧
      ∀ chunks : List (List UInt8), chunks.flatten = bs →
        (Decoder.fresh.run chunks).faults = [f]) ∧
    ∀ chunks : List (List UInt8), chunks.flatten = bs →
      (Decoder.fresh.decodeAll chunks).faults = [] →
        (Decoder.fresh.decodeAll chunks).decoder.decoded +
            (Decoder.fresh.decodeAll chunks).decoder.pending = bs.length ∧
          (Decoder.fresh.decodeAll chunks).decoder.pending ≤ 3 := by
  refine ⟨?_, ?_, ?_⟩
  · rintro cs hcs chunks rfl
    rw [Decoder.run_of_text hcs]
    exact ⟨rfl, rfl, rfl, rfl⟩
  · intro hnot
    obtain ⟨f, hf⟩ := Option.ne_none_iff_exists'.mp (mt fault_eq_none_iff.mp hnot)
    have hdescribes := describes_of_fault hf
    refine ⟨f, fun g => ⟨fun hg => hg.unique hdescribes, fun h => h ▸ hdescribes⟩,
      hdescribes.length_bounds.1, hdescribes.length_bounds.2, ?_⟩
    rintro chunks rfl
    rw [Decoder.faults_run, ← fault, hf]
    rfl
  · rintro chunks rfl hnone
    have hread := Decoder.fresh.decodeAll_eq chunks
    cases hscan : Decoder.fresh.scan chunks.flatten with
    | ok x =>
      rw [hscan] at hread
      rw [hread]
      exact Decoder.decoded_add_pending hscan
    | error f =>
      rw [hscan] at hread
      rw [hread.1] at hnone
      cases hnone

end ResumableParsing.Utf8

/-
# Bytes that stand for characters

Reading the bytes of a character gives the character back, and a character is read only from its own
bytes.  What a decoder holds back is the beginning of a sequence: `Holds` says, for each kind of
sequence, which bytes these are and which bits they have contributed.  From these two facts follows
what a decoder makes of any bytes: it reads the longest text that they begin with, and it is at
fault just when they are no text.
-/
import Mathlib
import ResumableParsing.Reader.Utf8

namespace ResumableParsing.Utf8

/-! ## Bytes and bits -/

/-- A byte above `base` is `base` with some bits added. -/
theorem exists_toUInt8 (base : Nat) {b : UInt8} (hb : base ≤ b.toNat) :
    ∃ v, b.toNat = base + v ∧ b = (base + v).toUInt8 := by
  refine ⟨b.toNat - base, by omega, ?_⟩
  rw [Nat.add_sub_cancel' hb]
  exact (UInt8.ofNat_toNat).symm

/-! ## Reading the first byte -/

/-- The least byte that may follow the first of three bytes with these bits. -/
def least₃ (v : Nat) : UInt8 := if v = 0 then 0xA0 else 0x80

/-- The greatest byte that may follow the first of three bytes with these bits. -/
def greatest₃ (v : Nat) : UInt8 := if v = 0xD then 0x9F else 0xBF

/-- The second of three bytes is bounded below so that no character has a longer form than it needs.
-/
theorem toNat_least₃ (v : Nat) : (least₃ v).toNat = if v = 0 then 0xA0 else 0x80 := by
  rw [least₃]
  split <;> rfl

/-- The second of three bytes is bounded above so that there are no surrogates. -/
theorem toNat_greatest₃ (v : Nat) : (greatest₃ v).toNat = if v = 0xD then 0x9F else 0xBF := by
  rw [greatest₃]
  split <;> rfl

/-- The least byte that may follow the first of four bytes with these bits. -/
def least₄ (v : Nat) : UInt8 := if v = 0 then 0x90 else 0x80

/-- The greatest byte that may follow the first of four bytes with these bits. -/
def greatest₄ (v : Nat) : UInt8 := if v = 4 then 0x8F else 0xBF

/-- The second of four bytes is bounded below so that no character has a longer form than it needs.
-/
theorem toNat_least₄ (v : Nat) : (least₄ v).toNat = if v = 0 then 0x90 else 0x80 := by
  rw [least₄]
  split <;> rfl

/-- The second of four bytes is bounded above by the last character there is. -/
theorem toNat_greatest₄ (v : Nat) : (greatest₄ v).toNat = if v = 4 then 0x8F else 0xBF := by
  rw [greatest₄]
  split <;> rfl

/-- The second of three bytes is one that may follow. -/
theorem bounds₃ (v : Nat) : 0x80 ≤ (least₃ v).toNat ∧ (greatest₃ v).toNat ≤ 0xBF := by
  rw [toNat_least₃, toNat_greatest₃]
  constructor <;> split <;> omega

/-- The second of four bytes is one that may follow. -/
theorem bounds₄ (v : Nat) : 0x80 ≤ (least₄ v).toNat ∧ (greatest₄ v).toNat ≤ 0xBF := by
  rw [toNat_least₄, toNat_greatest₄]
  constructor <;> split <;> omega

/-- The first byte says by its range how many follow. -/
theorem readFirst_eq (b : UInt8) :
    readFirst b =
      if b.toNat < 0x80 then .char (Char.ofNat b.toNat)
      else if b.toNat < 0xC2 then .malformed
      else if b.toNat < 0xE0 then .more ⟨1, b.toNat - 0xC0, 1, 0x80, 0xBF⟩
      else if b.toNat < 0xF0 then
        .more ⟨1, b.toNat - 0xE0, 2, least₃ (b.toNat - 0xE0), greatest₃ (b.toNat - 0xE0)⟩
      else if b.toNat < 0xF5 then
        .more ⟨1, b.toNat - 0xF0, 3, least₄ (b.toNat - 0xF0), greatest₄ (b.toNat - 0xF0)⟩
      else .malformed := by
  simp only [readFirst, UInt8.lt_iff_toNat_lt, ← UInt8.toNat_inj, UInt8.reduceToNat]
  generalize b.toNat = n
  split
  · rfl
  split
  · rfl
  split
  · rfl
  split
  · subst n; rfl
  split
  · subst n; rfl
  split
  · rw [least₃, greatest₃, if_neg (by omega), if_neg (by omega)]
  split
  · subst n; rfl
  split
  · rw [if_pos (by omega), least₄, greatest₄, if_neg (by omega), if_neg (by omega)]
  split
  · subst n; rfl
  · rw [if_neg (by omega)]

/-- A byte below 0x80 is a character by itself. -/
theorem readByte_single {n : Nat} (hn : n < 0x80) :
    readByte none n.toUInt8 = .char (Char.ofNat n) := by
  rw [readByte, readFirst_eq, UInt8.toNat_ofNat_of_lt' (show n < 0x100 by omega), if_pos hn]

/-- A byte from 0xC2 to 0xDF has one byte behind it. -/
theorem readByte_double {v : Nat} (hlo : 2 ≤ v) (hhi : v < 0x20) :
    readByte none (0xC0 + v).toUInt8 = .more ⟨1, v, 1, 0x80, 0xBF⟩ := by
  rw [readByte, readFirst_eq, UInt8.toNat_ofNat_of_lt' (show 0xC0 + v < 0x100 by omega),
    if_neg (by omega), if_neg (by omega), if_pos (by omega), Nat.add_sub_cancel_left]

/-- A byte from 0xE0 to 0xEF has two bytes behind it. -/
theorem readByte_triple {v : Nat} (hv : v < 0x10) :
    readByte none (0xE0 + v).toUInt8 = .more ⟨1, v, 2, least₃ v, greatest₃ v⟩ := by
  rw [readByte, readFirst_eq, UInt8.toNat_ofNat_of_lt' (show 0xE0 + v < 0x100 by omega),
    if_neg (by omega), if_neg (by omega), if_neg (by omega), if_pos (by omega),
    Nat.add_sub_cancel_left]

/-- A byte from 0xF0 to 0xF4 has three bytes behind it. -/
theorem readByte_quadruple {v : Nat} (hv : v < 5) :
    readByte none (0xF0 + v).toUInt8 = .more ⟨1, v, 3, least₄ v, greatest₄ v⟩ := by
  rw [readByte, readFirst_eq, UInt8.toNat_ofNat_of_lt' (show 0xF0 + v < 0x100 by omega),
    if_neg (by omega), if_neg (by omega), if_neg (by omega), if_neg (by omega), if_pos (by omega),
    Nat.add_sub_cancel_left]

/-! ## Reading a further byte -/

/-- A byte between the bounds adds its bits, and completes the sequence if it is the last. -/
theorem Sequence.read_within {s : Sequence} {u : Nat} (hu : u < 0x40)
    (hlo : s.least.toNat ≤ 0x80 + u) (hhi : 0x80 + u ≤ s.greatest.toNat) :
    s.read (0x80 + u).toUInt8 =
      if s.missing ≤ 1 then .char (Char.ofNat (0x40 * s.bits + u))
      else .more ⟨s.received + 1, 0x40 * s.bits + u, s.missing - 1, 0x80, 0xBF⟩ := by
  have hb : (0x80 + u).toUInt8.toNat = 0x80 + u :=
    UInt8.toNat_ofNat_of_lt' (show 0x80 + u < 0x100 by omega)
  have hin : ¬ ((0x80 + u).toUInt8 < s.least ∨ s.greatest < (0x80 + u).toUInt8) := by
    rw [UInt8.lt_iff_toNat_lt, UInt8.lt_iff_toNat_lt, hb]
    omega
  rw [read, if_neg hin, hb, Nat.add_sub_cancel_left]

/-- The last byte of a sequence completes it. -/
theorem readByte_last {n v u : Nat} (hu : u < 0x40) :
    readByte (some ⟨n, v, 1, 0x80, 0xBF⟩) (0x80 + u).toUInt8 =
      .char (Char.ofNat (0x40 * v + u)) := by
  refine Sequence.read_within hu (Nat.le_add_right _ _) ?_
  show _ ≤ 0xBF
  omega

/-- The third of four bytes is any continuation. -/
theorem readByte_third₄ {v u : Nat} (hu : u < 0x40) :
    readByte (some ⟨2, v, 2, 0x80, 0xBF⟩) (0x80 + u).toUInt8 =
      .more ⟨3, 0x40 * v + u, 1, 0x80, 0xBF⟩ := by
  refine Sequence.read_within hu (Nat.le_add_right _ _) ?_
  show _ ≤ 0xBF
  omega

/-- The second of three bytes contributes what the character needs, and makes no half of a pair. -/
theorem readByte_second₃ {v u : Nat} (hu : u < 0x40) (hlo : 0x20 ≤ 0x40 * v + u)
    (hvalid : 0x40 * v + u < 0x360 ∨ 0x380 ≤ 0x40 * v + u) :
    readByte (some ⟨1, v, 2, least₃ v, greatest₃ v⟩) (0x80 + u).toUInt8 =
      .more ⟨2, 0x40 * v + u, 1, 0x80, 0xBF⟩ := by
  refine Sequence.read_within hu ?_ ?_
  · show (least₃ v).toNat ≤ _
    rw [toNat_least₃]
    split <;> omega
  · show _ ≤ (greatest₃ v).toNat
    rw [toNat_greatest₃]
    split <;> omega

/-- The second of four bytes contributes what the character needs, and no more than there is. -/
theorem readByte_second₄ {v u : Nat} (hu : u < 0x40) (hlo : 0x10 ≤ 0x40 * v + u)
    (hhi : 0x40 * v + u < 0x110) :
    readByte (some ⟨1, v, 3, least₄ v, greatest₄ v⟩) (0x80 + u).toUInt8 =
      .more ⟨2, 0x40 * v + u, 2, 0x80, 0xBF⟩ := by
  refine Sequence.read_within hu ?_ ?_
  · show (least₄ v).toNat ≤ _
    rw [toNat_least₄]
    split <;> omega
  · show _ ≤ (greatest₄ v).toNat
    rw [toNat_greatest₄]
    split <;> omega

/-- A byte either does not belong here, or lies between the bounds. -/
theorem Sequence.read_cases {s : Sequence} (hlo : 0x80 ≤ s.least.toNat)
    (hhi : s.greatest.toNat ≤ 0xBF) (b : UInt8) :
    s.read b = .malformed ∨ ∃ u, u < 0x40 ∧ s.least.toNat ≤ 0x80 + u ∧
      0x80 + u ≤ s.greatest.toNat ∧ b = (0x80 + u).toUInt8 := by
  by_cases hout : b < s.least ∨ s.greatest < b
  · exact .inl (if_pos hout)
  · rw [UInt8.lt_iff_toNat_lt, UInt8.lt_iff_toNat_lt] at hout
    obtain ⟨u, hu, rfl⟩ := exists_toUInt8 0x80 (b := b) (by omega)
    exact .inr ⟨u, by omega, by omega, by omega, rfl⟩

/-! ## The bytes of a character -/

/-- A character below 0x80 has one byte. -/
theorem encodeChar_single {n : Nat} (hn : n < 0x80) :
    encodeChar (Char.ofNat n) = [n.toUInt8] := by
  have hvalid : n.isValidChar := .inl (by omega)
  rw [encodeChar, Char.toNat_ofNat, if_pos hvalid, if_pos hn]

/-- A character from 0x80 to 0x7FF has two bytes. -/
theorem encodeChar_double {v u : Nat} (hlo : 2 ≤ v) (hhi : v < 0x20) (hu : u < 0x40) :
    encodeChar (Char.ofNat (0x40 * v + u)) = [(0xC0 + v).toUInt8, (0x80 + u).toUInt8] := by
  have hvalid : (0x40 * v + u).isValidChar := .inl (by omega)
  rw [encodeChar, Char.toNat_ofNat, if_pos hvalid, if_neg (by omega), if_pos (by omega),
    Nat.mul_add_div (by decide), Nat.div_eq_of_lt hu, Nat.add_zero, Nat.mul_add_mod,
    Nat.mod_eq_of_lt hu]

/-- A character from 0x800 to 0xFFFF has three bytes. -/
theorem encodeChar_triple {v u : Nat} (hlo : 0x20 ≤ v) (hhi : v < 0x400)
    (hvalid : v < 0x360 ∨ 0x380 ≤ v) (hu : u < 0x40) :
    encodeChar (Char.ofNat (0x40 * v + u)) =
      [(0xE0 + v / 0x40).toUInt8, (0x80 + v % 0x40).toUInt8, (0x80 + u).toUInt8] := by
  have hfirst : (0x40 * v + u) / 0x1000 = v / 0x40 := by omega
  have hn : (0x40 * v + u).isValidChar := by
    show _ ∨ _ ∧ _
    omega
  rw [encodeChar, Char.toNat_ofNat, if_pos hn, if_neg (by omega), if_neg (by omega),
    if_pos (by omega), hfirst, Nat.mul_add_div (by decide), Nat.div_eq_of_lt hu, Nat.add_zero,
    Nat.mul_add_mod, Nat.mod_eq_of_lt hu]

/-- A character from 0x10000 on has four bytes. -/
theorem encodeChar_quadruple {v u : Nat} (hlo : 0x400 ≤ v) (hhi : v < 0x4400) (hu : u < 0x40) :
    encodeChar (Char.ofNat (0x40 * v + u)) =
      [(0xF0 + v / 0x1000).toUInt8, (0x80 + v / 0x40 % 0x40).toUInt8, (0x80 + v % 0x40).toUInt8,
        (0x80 + u).toUInt8] := by
  have hfirst : (0x40 * v + u) / 0x40000 = v / 0x1000 := by omega
  have hsecond : (0x40 * v + u) / 0x1000 = v / 0x40 := by omega
  have hn : (0x40 * v + u).isValidChar := by
    show _ ∨ _ ∧ _
    omega
  rw [encodeChar, Char.toNat_ofNat, if_pos hn, if_neg (by omega), if_neg (by omega),
    if_neg (by omega), hfirst, hsecond, Nat.mul_add_div (by decide), Nat.div_eq_of_lt hu,
    Nat.add_zero, Nat.mul_add_mod, Nat.mod_eq_of_lt hu]

/-! ## The beginnings of sequences -/

/-- What is held back: the bytes of a sequence that is not complete, and the bits `v` that they have
contributed. -/
inductive Holds : Option Sequence → List UInt8 → Prop where
  /-- Nothing is held back between two sequences. -/
  | nothing : Holds none []
  /-- The first of two bytes. -/
  | first₂ {v : Nat} (hlo : 2 ≤ v) (hhi : v < 0x20) :
      Holds (some ⟨1, v, 1, 0x80, 0xBF⟩) [(0xC0 + v).toUInt8]
  /-- The first of three bytes. -/
  | first₃ {v : Nat} (hhi : v < 0x10) :
      Holds (some ⟨1, v, 2, least₃ v, greatest₃ v⟩) [(0xE0 + v).toUInt8]
  /-- The first of four bytes. -/
  | first₄ {v : Nat} (hhi : v < 5) :
      Holds (some ⟨1, v, 3, least₄ v, greatest₄ v⟩) [(0xF0 + v).toUInt8]
  /-- The first two of three bytes: neither more than the character needs, nor half of a pair. -/
  | second₃ {v : Nat} (hlo : 0x20 ≤ v) (hhi : v < 0x400) (hvalid : v < 0x360 ∨ 0x380 ≤ v) :
      Holds (some ⟨2, v, 1, 0x80, 0xBF⟩) [(0xE0 + v / 0x40).toUInt8, (0x80 + v % 0x40).toUInt8]
  /-- The first two of four bytes: not more than the character needs, and no more than there is. -/
  | second₄ {v : Nat} (hlo : 0x10 ≤ v) (hhi : v < 0x110) :
      Holds (some ⟨2, v, 2, 0x80, 0xBF⟩) [(0xF0 + v / 0x40).toUInt8, (0x80 + v % 0x40).toUInt8]
  /-- The first three of four bytes. -/
  | third₄ {v : Nat} (hlo : 0x400 ≤ v) (hhi : v < 0x4400) :
      Holds (some ⟨3, v, 1, 0x80, 0xBF⟩)
        [(0xF0 + v / 0x1000).toUInt8, (0x80 + v / 0x40 % 0x40).toUInt8, (0x80 + v % 0x40).toUInt8]

/-- What a byte makes of the bytes held back: with them it is a character, or is held back too. -/
def Continues (held : List UInt8) (b : UInt8) : Reading → Prop
  | .char c => encodeChar c = held ++ [b]
  | .more s => Holds (some s) (held ++ [b])
  | .malformed => True

/-- What was read of a first byte says which bytes may follow it. -/
theorem continues_first (b : UInt8) : Continues [] b (readFirst b) := by
  rw [readFirst_eq]
  split
  · next h => exact (encodeChar_single h).trans (congrArg (fun b => [b]) UInt8.ofNat_toNat)
  split
  · trivial
  split
  · obtain ⟨v, hv, rfl⟩ := exists_toUInt8 0xC0 (b := b) (by omega)
    rw [hv, Nat.add_sub_cancel_left]
    exact .first₂ (by omega) (by omega)
  split
  · obtain ⟨v, hv, rfl⟩ := exists_toUInt8 0xE0 (b := b) (by omega)
    rw [hv, Nat.add_sub_cancel_left]
    exact .first₃ (by omega)
  split
  · obtain ⟨v, hv, rfl⟩ := exists_toUInt8 0xF0 (b := b) (by omega)
    rw [hv, Nat.add_sub_cancel_left]
    exact .first₄ (by omega)
  · trivial

/-- It is enough to look at the bytes between the bounds. -/
theorem continues_read {s : Sequence} {held : List UInt8} {b : UInt8}
    (hlo : 0x80 ≤ s.least.toNat) (hhi : s.greatest.toNat ≤ 0xBF)
    (h : ∀ u, u < 0x40 → s.least.toNat ≤ 0x80 + u → 0x80 + u ≤ s.greatest.toNat →
      Continues held (0x80 + u).toUInt8
        (if s.missing ≤ 1 then .char (Char.ofNat (0x40 * s.bits + u))
          else .more ⟨s.received + 1, 0x40 * s.bits + u, s.missing - 1, 0x80, 0xBF⟩)) :
    Continues held b (s.read b) := by
  rcases s.read_cases hlo hhi b with hout | ⟨u, hu, hleast, hgreatest, rfl⟩
  · rw [hout]
    trivial
  · rw [Sequence.read_within hu hleast hgreatest]
    exact h u hu hleast hgreatest

/-- A sequence goes on as its bytes demand. -/
theorem Holds.continues {s : Option Sequence} {held : List UInt8} (h : Holds s held) (b : UInt8) :
    Continues held b (readByte s b) := by
  cases h with
  | nothing => exact continues_first b
  | @first₂ v hlo hhi =>
    apply continues_read (Nat.le_refl _) (Nat.le_refl _)
    intro u hu _ _
    exact encodeChar_double hlo hhi hu
  | @first₃ v hhi =>
    obtain ⟨hleast, hgreatest⟩ := bounds₃ v
    apply continues_read hleast hgreatest
    intro u hu hleast hgreatest
    rw [toNat_least₃] at hleast
    rw [toNat_greatest₃] at hgreatest
    have h : Holds _ _ := .second₃ (v := 0x40 * v + u) (by split at hleast <;> omega) (by omega)
      (by split at hgreatest <;> omega)
    rw [Nat.mul_add_div (by decide), Nat.div_eq_of_lt hu, Nat.add_zero, Nat.mul_add_mod,
      Nat.mod_eq_of_lt hu] at h
    exact h
  | @first₄ v hhi =>
    obtain ⟨hleast, hgreatest⟩ := bounds₄ v
    apply continues_read hleast hgreatest
    intro u hu hleast hgreatest
    rw [toNat_least₄] at hleast
    rw [toNat_greatest₄] at hgreatest
    have h : Holds _ _ := .second₄ (v := 0x40 * v + u) (by split at hleast <;> omega)
      (by split at hgreatest <;> omega)
    rw [Nat.mul_add_div (by decide), Nat.div_eq_of_lt hu, Nat.add_zero, Nat.mul_add_mod,
      Nat.mod_eq_of_lt hu] at h
    exact h
  | @second₃ v hlo hhi hvalid =>
    apply continues_read (Nat.le_refl _) (Nat.le_refl _)
    intro u hu _ _
    exact encodeChar_triple hlo hhi hvalid hu
  | @second₄ v hlo hhi =>
    apply continues_read (Nat.le_refl _) (Nat.le_refl _)
    intro u hu _ _
    have hfirst : (0x40 * v + u) / 0x1000 = v / 0x40 := by omega
    have h : Holds _ _ := .third₄ (v := 0x40 * v + u) (by omega) (by omega)
    rw [hfirst, Nat.mul_add_div (by decide), Nat.div_eq_of_lt hu, Nat.add_zero, Nat.mul_add_mod,
      Nat.mod_eq_of_lt hu] at h
    exact h
  | @third₄ v hlo hhi =>
    apply continues_read (Nat.le_refl _) (Nat.le_refl _)
    intro u hu _ _
    exact encodeChar_quadruple hlo hhi hu

/-- As many bytes are held as the sequence says. -/
theorem Holds.length_eq {s : Option Sequence} {held : List UInt8} (h : Holds s held) :
    held.length = receivedBytes s := by
  cases h <;> rfl

/-! ## How far bytes are text -/

/-- How far bytes can be read. -/
structure Reach where
  /-- The characters of the complete sequences. -/
  text : List Char
  /-- The sequence behind them that is not complete. -/
  unfinished : Option Sequence
  /-- The bytes behind it, of which the first does not belong there. -/
  rest : List UInt8

/-- Read bytes as far as they can be read. -/
def reach : Option Sequence → List UInt8 → Reach
  | s, [] => ⟨[], s, []⟩
  | s, b :: bs =>
    match readByte s b with
    | .char c => { reach none bs with text := c :: (reach none bs).text }
    | .more s => reach (some s) bs
    | .malformed => ⟨[], s, b :: bs⟩

/-- A byte that is not the last of its sequence is added to it. -/
theorem reach_cons_of_more {s : Option Sequence} {b : UInt8} {t : Sequence}
    (h : readByte s b = .more t) (bs : List UInt8) : reach s (b :: bs) = reach (some t) bs := by
  rw [reach, h]

/-- With the last byte of a sequence the text has one more character. -/
theorem reach_cons_of_char {s : Option Sequence} {b : UInt8} {c : Char}
    (h : readByte s b = .char c) (bs : List UInt8) :
    reach s (b :: bs) = { reach none bs with text := c :: (reach none bs).text } := by
  rw [reach, h]

/-- The bytes of a character are read as that character. -/
theorem reach_encodeChar_append (c : Char) (bs : List UInt8) :
    reach none (encodeChar c ++ bs) =
      { reach none bs with text := c :: (reach none bs).text } := by
  obtain ⟨n, hvalid, rfl⟩ : ∃ n : Nat, n.isValidChar ∧ c = Char.ofNat n :=
    ⟨c.toNat, c.valid, c.ofNat_toNat.symm⟩
  replace hvalid : n < 0xD800 ∨ 0xDFFF < n ∧ n < 0x110000 := hvalid
  by_cases hsingle : n < 0x80
  · rw [encodeChar_single hsingle]
    exact reach_cons_of_char (readByte_single hsingle) bs
  obtain ⟨v, u, hu, rfl⟩ : ∃ v u, u < 0x40 ∧ n = 0x40 * v + u :=
    ⟨n / 0x40, n % 0x40, by omega, by omega⟩
  by_cases hdouble : v < 0x20
  · rw [encodeChar_double (by omega) hdouble hu]
    calc
      _ = reach (some ⟨1, v, 1, 0x80, 0xBF⟩) ((0x80 + u).toUInt8 :: bs) :=
        reach_cons_of_more (readByte_double (by omega) hdouble) _
      _ = _ := reach_cons_of_char (readByte_last hu) bs
  obtain ⟨w, x, hx, rfl⟩ : ∃ w x, x < 0x40 ∧ v = 0x40 * w + x :=
    ⟨v / 0x40, v % 0x40, by omega, by omega⟩
  by_cases htriple : 0x40 * w + x < 0x400
  · rw [encodeChar_triple (by omega) htriple (by omega) hu, Nat.mul_add_div (by decide),
      Nat.div_eq_of_lt hx, Nat.add_zero, Nat.mul_add_mod, Nat.mod_eq_of_lt hx]
    calc
      _ = reach (some ⟨1, w, 2, least₃ w, greatest₃ w⟩)
            ((0x80 + x).toUInt8 :: (0x80 + u).toUInt8 :: bs) :=
        reach_cons_of_more (readByte_triple (by omega)) _
      _ = reach (some ⟨2, 0x40 * w + x, 1, 0x80, 0xBF⟩) ((0x80 + u).toUInt8 :: bs) :=
        reach_cons_of_more (readByte_second₃ hx (by omega) (by omega)) _
      _ = _ := reach_cons_of_char (readByte_last hu) bs
  · rw [encodeChar_quadruple (by omega) (by omega) hu, Nat.mul_add_div (by decide),
      Nat.div_eq_of_lt hx, Nat.add_zero, Nat.mul_add_mod, Nat.mod_eq_of_lt hx]
    obtain ⟨y, z, hz, rfl⟩ : ∃ y z, z < 0x40 ∧ w = 0x40 * y + z :=
      ⟨w / 0x40, w % 0x40, by omega, by omega⟩
    have hfirst : (0x40 * (0x40 * y + z) + x) / 0x1000 = y := by omega
    rw [hfirst, Nat.mul_add_mod, Nat.mod_eq_of_lt hz]
    calc
      _ = reach (some ⟨1, y, 3, least₄ y, greatest₄ y⟩)
            ((0x80 + z).toUInt8 :: (0x80 + x).toUInt8 :: (0x80 + u).toUInt8 :: bs) :=
        reach_cons_of_more (readByte_quadruple (by omega)) _
      _ = reach (some ⟨2, 0x40 * y + z, 2, 0x80, 0xBF⟩)
            ((0x80 + x).toUInt8 :: (0x80 + u).toUInt8 :: bs) :=
        reach_cons_of_more (readByte_second₄ hz (by omega) (by omega)) _
      _ = reach (some ⟨3, 0x40 * (0x40 * y + z) + x, 1, 0x80, 0xBF⟩) ((0x80 + u).toUInt8 :: bs) :=
        reach_cons_of_more (readByte_third₄ hx) _
      _ = _ := reach_cons_of_char (readByte_last hu) bs

/-- Texts one after the other have their bytes one after the other. -/
theorem encode_append (cs cs' : List Char) : encode (cs ++ cs') = encode cs ++ encode cs' :=
  List.flatMap_append

/-- The bytes of a text are read as that text. -/
theorem reach_encode_append (cs : List Char) (bs : List UInt8) :
    reach none (encode cs ++ bs) = { reach none bs with text := cs ++ (reach none bs).text } := by
  induction cs with
  | nil => rfl
  | cons c cs ih =>
    have hsplit : encode (c :: cs) ++ bs = encodeChar c ++ (encode cs ++ bs) :=
      List.append_assoc _ _ _
    rw [hsplit, reach_encodeChar_append, ih]
    rfl

/-- The bytes of a text are read as that text, and nothing is left. -/
theorem reach_encode (cs : List Char) : reach none (encode cs) = ⟨cs, none, []⟩ := by
  have h := reach_encode_append cs []
  rw [List.append_nil] at h
  rw [h]
  show (⟨cs ++ [], none, []⟩ : Reach) = _
  rw [List.append_nil]

/-- No two texts have the same bytes. -/
theorem encode_injective {cs cs' : List Char} (h : encode cs = encode cs') : cs = cs' := by
  have hreach : reach none (encode cs) = reach none (encode cs') := congrArg _ h
  rw [reach_encode, reach_encode] at hreach
  exact congrArg Reach.text hreach

/-- No text that the bytes begin with goes further. -/
theorem prefix_text_of_encode_prefix {cs : List Char} {bs : List UInt8} (h : encode cs <+: bs) :
    cs <+: (reach none bs).text := by
  obtain ⟨rest, rfl⟩ := h
  rw [reach_encode_append]
  exact List.prefix_append _ _

/-- Each byte read is a byte of the text, or is held back, or is left. -/
theorem Holds.reaches {s : Option Sequence} {held : List UInt8} (h : Holds s held)
    (bs : List UInt8) :
    ∃ held', Holds (reach s bs).unfinished held' ∧
      held ++ bs = encode (reach s bs).text ++ held' ++ (reach s bs).rest := by
  induction bs generalizing s held with
  | nil => exact ⟨held, h, rfl⟩
  | cons b bs ih =>
    have hb := h.continues b
    rw [reach]
    split
    · next c hc =>
      rw [hc] at hb
      obtain ⟨held', hheld', heq⟩ := ih .nothing
      refine ⟨held', hheld', ?_⟩
      calc
        held ++ b :: bs = encodeChar c ++ bs := by rw [hb, List.append_assoc]; rfl
        _ = encodeChar c ++ (encode (reach none bs).text ++ held' ++ (reach none bs).rest) := by
          rw [← heq]; rfl
        _ = _ := by simp only [encode, List.flatMap_cons, List.append_assoc]
    · next t ht =>
      rw [ht] at hb
      obtain ⟨held', hheld', heq⟩ := ih hb
      exact ⟨held', hheld', by rw [← heq, List.append_assoc]; rfl⟩
    · exact ⟨held, h, rfl⟩

/-- Bytes of which nothing is left are the bytes of the text that was read. -/
theorem eq_encode_of_reach {bs : List UInt8} (hunfinished : (reach none bs).unfinished = none)
    (hrest : (reach none bs).rest = []) : bs = encode (reach none bs).text := by
  obtain ⟨held, hheld, heq⟩ := Holds.nothing.reaches bs
  rw [hunfinished] at hheld
  cases hheld
  rw [hrest, List.append_nil, List.append_nil] at heq
  exact heq

/-! ## The fault of bytes -/

/-- A decoder reads bytes as far as they can be read, and counts the bytes of the text. -/
theorem Holds.scan_eq {s : Option Sequence} {held : List UInt8} (h : Holds s held) (n : Nat)
    (bs : List UInt8) :
    Decoder.scan ⟨n, s⟩ bs =
      match (reach s bs).rest with
      | [] => .ok ((reach s bs).text,
          ⟨n + (encode (reach s bs).text).length, (reach s bs).unfinished⟩)
      | _ :: _ => .error ⟨.invalid, n + (encode (reach s bs).text).length,
          max (receivedBytes (reach s bs).unfinished) 1⟩ := by
  induction bs generalizing s held n with
  | nil => rfl
  | cons b bs ih =>
    have hb := h.continues b
    rw [Decoder.scan, reach]
    split
    · next c hc =>
      rw [hc] at hb
      have hlength : (encodeChar c).length = receivedBytes s + 1 := by
        rw [hb, List.length_append, h.length_eq]
        rfl
      have hcount (cs : List Char) :
          n + (encode (c :: cs)).length = n + receivedBytes s + 1 + (encode cs).length := by
        rw [encode, List.flatMap_cons, List.length_append, hlength, ← encode]
        omega
      simp only [hc, hcount]
      rw [Decoder.pending, ih .nothing]
      split <;> rfl
    · next t ht =>
      rw [ht] at hb
      simp only [ht]
      exact ih hb n
    · next hm =>
      simp only [hm]
      rfl

/-- What is wrong with bytes, if with what a decoder holds back they are no text. -/
def Decoder.fault (d : Decoder) (bs : List UInt8) : Option Fault :=
  match d.scan bs with
  | .ok (_, d) => d.finish.2
  | .error f => some f

/-- What is wrong with bytes, if they are no text. -/
def fault (bs : List UInt8) : Option Fault := Decoder.fresh.fault bs

/-- The bytes that are left are invalid; if none are left, those held back are truncated. -/
theorem fault_eq (bs : List UInt8) :
    fault bs =
      match (reach none bs).rest, (reach none bs).unfinished with
      | [], none => none
      | [], some s => some ⟨.truncated, (encode (reach none bs).text).length, s.received⟩
      | _ :: _, s =>
        some ⟨.invalid, (encode (reach none bs).text).length, max (receivedBytes s) 1⟩ := by
  rw [fault, Decoder.fault, Decoder.fresh, Holds.nothing.scan_eq]
  rcases (reach none bs).rest with _ | _
  · rcases (reach none bs).unfinished with _ | s
    · rfl
    · exact congrArg (fun n => some (Fault.mk .truncated n s.received)) (Nat.zero_add _)
  · exact congrArg (fun n => some (Fault.mk .invalid n _)) (Nat.zero_add _)

/-- Bytes are at fault just when they are no text. -/
theorem fault_eq_none_iff {bs : List UInt8} : fault bs = none ↔ ∃ cs, bs = encode cs := by
  constructor
  · intro h
    rw [fault_eq] at h
    split at h
    · next hrest hunfinished => exact ⟨_, eq_encode_of_reach hunfinished hrest⟩
    · cases h
    · cases h
  · rintro ⟨cs, rfl⟩
    rw [fault_eq, reach_encode]

/-- A fault comes behind the longest text that the bytes begin with. -/
theorem offset_of_fault {bs : List UInt8} {f : Fault} (h : fault bs = some f) :
    f.offset = (encode (reach none bs).text).length := by
  rw [fault_eq] at h
  split at h
  · cases h
  · cases h
    rfl
  · cases h
    rfl

end ResumableParsing.Utf8

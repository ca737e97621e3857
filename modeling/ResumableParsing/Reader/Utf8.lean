/-
# Decoding bytes as they arrive

In UTF-8 a character is a sequence of one to four bytes, of which the first says how many follow
and, in a few cases, which second bytes are allowed.  A decoder takes the bytes in chunks that may
be cut anywhere: it remembers the sequence that is not complete, and counts the bytes of the
sequences that are.
-/

namespace ResumableParsing.Utf8

/-! ## Writing characters -/

/-- The bytes of a character. -/
def encodeChar (c : Char) : List UInt8 :=
  let n := c.toNat
  if n < 0x80 then [n.toUInt8]
  else if n < 0x800 then [(0xC0 + n / 0x40).toUInt8, (0x80 + n % 0x40).toUInt8]
  else if n < 0x10000 then
    [(0xE0 + n / 0x1000).toUInt8, (0x80 + n / 0x40 % 0x40).toUInt8, (0x80 + n % 0x40).toUInt8]
  else
    [(0xF0 + n / 0x40000).toUInt8, (0x80 + n / 0x1000 % 0x40).toUInt8,
      (0x80 + n / 0x40 % 0x40).toUInt8, (0x80 + n % 0x40).toUInt8]

/-- The bytes of a text. -/
def encode (cs : List Char) : List UInt8 := cs.flatMap encodeChar

/-! ## Reading sequences -/

/-- A sequence that is not complete. -/
structure Sequence where
  /-- How many of its bytes have arrived. -/
  received : Nat
  /-- The bits that they contribute to the character. -/
  bits : Nat
  /-- How many bytes are missing. -/
  missing : Nat
  /-- The least byte that may come next. -/
  least : UInt8
  /-- The greatest byte that may come next. -/
  greatest : UInt8
  deriving DecidableEq

/-- What a byte makes of the sequence before it. -/
inductive Reading where
  /-- The sequence is complete, and stands for a character. -/
  | char (c : Char)
  /-- The sequence goes on. -/
  | more (s : Sequence)
  /-- The byte does not belong here. -/
  | malformed

/-- Read the first byte of a sequence. -/
def readFirst (b : UInt8) : Reading :=
  if b < 0x80 then .char (Char.ofNat b.toNat)
  else if b < 0xC2 then .malformed
  else if b < 0xE0 then .more ⟨1, b.toNat - 0xC0, 1, 0x80, 0xBF⟩
  else if b = 0xE0 then .more ⟨1, 0, 2, 0xA0, 0xBF⟩
  else if b = 0xED then .more ⟨1, 0xD, 2, 0x80, 0x9F⟩
  else if b < 0xF0 then .more ⟨1, b.toNat - 0xE0, 2, 0x80, 0xBF⟩
  else if b = 0xF0 then .more ⟨1, 0, 3, 0x90, 0xBF⟩
  else if b < 0xF4 then .more ⟨1, b.toNat - 0xF0, 3, 0x80, 0xBF⟩
  else if b = 0xF4 then .more ⟨1, 4, 3, 0x80, 0x8F⟩
  else .malformed

/-- Read a further byte of a sequence. -/
def Sequence.read (s : Sequence) (b : UInt8) : Reading :=
  if b < s.least ∨ s.greatest < b then .malformed
  else
    let bits := 0x40 * s.bits + (b.toNat - 0x80)
    if s.missing ≤ 1 then .char (Char.ofNat bits)
    else .more ⟨s.received + 1, bits, s.missing - 1, 0x80, 0xBF⟩

/-- How many bytes of an incomplete sequence have arrived, if there is one. -/
def receivedBytes : Option Sequence → Nat
  | none => 0
  | some s => s.received

/-- Read a byte in or behind a sequence. -/
def readByte (s : Option Sequence) (b : UInt8) : Reading :=
  match s with
  | none => readFirst b
  | some s => s.read b

/-! ## Faults -/

/-- What is wrong with bytes that are no text. -/
inductive FaultKind where
  /-- They can neither begin nor continue a sequence. -/
  | invalid
  /-- The bytes ended inside a sequence. -/
  | truncated
  deriving DecidableEq

/-- Bytes that are no text. -/
structure Fault where
  /-- What is wrong with them. -/
  kind : FaultKind
  /-- How many bytes come before them. -/
  offset : Nat
  /-- How many there are. -/
  length : Nat
  deriving DecidableEq

/-- The name of a kind of fault. -/
def FaultKind.text : FaultKind → String
  | invalid => "invalid UTF-8"
  | truncated => "truncated UTF-8 sequence"

/-- The text of a fault. -/
def Fault.text (f : Fault) : String :=
  f.kind.text ++ " at byte " ++ toString f.offset ++ " (" ++ toString f.length ++ " bytes)"

/-! ## Decoders -/

/-- A decoder between two chunks. -/
structure Decoder where
  /-- The number of bytes in complete sequences. -/
  decoded : Nat
  /-- The sequence that is not complete. -/
  unfinished : Option Sequence

/-- A decoder that has read nothing. -/
def Decoder.fresh : Decoder := ⟨0, none⟩

/-- How many bytes are held back. -/
def Decoder.pending (d : Decoder) : Nat := receivedBytes d.unfinished

/-- Read bytes: the characters and the decoder behind them, or the first fault. -/
def Decoder.scan : Decoder → List UInt8 → Except Fault (List Char × Decoder)
  | d, [] => .ok ([], d)
  | d, b :: bs =>
    match readByte d.unfinished b with
    | .char c => (scan ⟨d.decoded + d.pending + 1, none⟩ bs).map fun (cs, d) => (c :: cs, d)
    | .more s => scan ⟨d.decoded, some s⟩ bs
    | .malformed => .error ⟨.invalid, d.decoded, max d.pending 1⟩

@[simp] theorem Decoder.scan_nil (d : Decoder) : d.scan [] = .ok ([], d) := rfl

/-- Bytes may be read in two portions: the second begins with the decoder that the first left. -/
theorem Decoder.scan_append (d : Decoder) (bs cs : List UInt8) :
    d.scan (bs ++ cs) = (d.scan bs).bind fun (xs, e) =>
      (e.scan cs).map fun (ys, f) => (xs ++ ys, f) := by
  induction bs generalizing d with
  | nil => cases h : d.scan cs <;> simp [Except.bind, Except.map, h]
  | cons b bs ih =>
    simp only [List.cons_append, scan]
    split
    · rw [ih]
      cases scan ⟨d.decoded + d.pending + 1, none⟩ bs with
      | error f => rfl
      | ok x => cases h : x.2.scan cs <;> simp [Except.bind, Except.map, h]
    · exact ih _
    · rfl

/-- Decode a chunk.  A fault leaves nothing of the chunk, and the decoder forgets what it held
back. -/
def Decoder.decode (d : Decoder) (bs : List UInt8) : Decoder × Except Fault (List Char) :=
  match d.scan bs with
  | .ok (cs, d) => (d, .ok cs)
  | .error f => (⟨d.decoded, none⟩, .error f)

/-- Declare the end of the bytes; a sequence that is not complete is a fault. -/
def Decoder.finish (d : Decoder) : Decoder × Option Fault :=
  match d.unfinished with
  | none => (d, none)
  | some s => (⟨d.decoded, none⟩, some ⟨.truncated, d.decoded, s.received⟩)

end ResumableParsing.Utf8

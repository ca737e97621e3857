/-
# Bytes that are held back

A decoder may keep the bytes of a sequence that is not complete, put them before the next chunk, and
read them again with it.  Such a decoder needs to know nothing of sequences: of the bytes before it,
it takes the longest text that they begin with, and looks at what is behind (`HeldDecoder`).  The
decoder that remembers how far a sequence has come finds the same texts and the same faults, and
counts the same bytes, whatever the chunks are (`Agrees.run`).
-/
import ResumableParsing.Proofs.Reader.Malformed

namespace ResumableParsing.Utf8

/-! ## Decoding over held bytes -/

/-- A decoder that keeps the bytes that it holds back. -/
structure HeldDecoder where
  /-- The number of bytes in complete sequences. -/
  decoded : Nat
  /-- The bytes of the sequence that is not complete. -/
  pending : List UInt8

namespace HeldDecoder

/-- A decoder that has read nothing. -/
def fresh : HeldDecoder := ⟨0, []⟩

/-- Decode a chunk, with what is held back before it.  What stands behind the longest text is held
back if it may go on, and a fault otherwise. -/
def decode (d : HeldDecoder) (chunk : List UInt8) : HeldDecoder × Except Fault (List Char) :=
  let bytes := d.pending ++ chunk
  let read := reach none bytes
  let length := (encode read.text).length
  match read.rest with
  | [] => (⟨d.decoded + length, bytes.drop length⟩, .ok read.text)
  | _ :: _ =>
    (⟨d.decoded, []⟩,
      .error ⟨.invalid, d.decoded + length, max (receivedBytes read.unfinished) 1⟩)

/-- Declare the end of the bytes; if some are held back, they are a fault. -/
def finish (d : HeldDecoder) : HeldDecoder × Option Fault :=
  if d.pending = [] then (d, none)
  else (⟨d.decoded, []⟩, some ⟨.truncated, d.decoded, d.pending.length⟩)

/-- Decode chunks until one is at fault: the decoder behind them, the text, and the faults. -/
def decodeAll : HeldDecoder → List (List UInt8) → HeldDecoder × List Char × List Fault
  | d, [] => (d, [], [])
  | d, bs :: chunks =>
    match d.decode bs with
    | (d, .error f) => (d, [], [f])
    | (d, .ok cs) => ((d.decodeAll chunks).1, cs ++ (d.decodeAll chunks).2.1,
        (d.decodeAll chunks).2.2)

/-- Decode chunks until one is at fault, and then declare the end of the bytes. -/
def run (d : HeldDecoder) (chunks : List (List UInt8)) : HeldDecoder × List Char × List Fault :=
  let read := d.decodeAll chunks
  (read.1.finish.1, read.2.1, read.2.2 ++ read.1.finish.2.toList)

end HeldDecoder

/-! ## Both decoders do the same -/

/-- The two decoders have decoded the same bytes and hold back the same. -/
structure Agrees (d : Decoder) (h : HeldDecoder) : Prop where
  decoded : d.decoded = h.decoded
  holds : Holds d.unfinished h.pending

namespace Agrees

variable {d : Decoder} {h : HeldDecoder}

/-- At the beginning nothing is held back. -/
theorem fresh : Agrees .fresh .fresh := ⟨rfl, .nothing⟩

/-- As many bytes are held back. -/
theorem pending (ha : Agrees d h) : d.pending = h.pending.length := ha.holds.length_eq.symm

/-- A chunk is read as if what is held back stood before it, so that the decoders find the same. -/
theorem decode (ha : Agrees d h) (chunk : List UInt8) :
    Agrees (d.decode chunk).1 (h.decode chunk).1 ∧ (d.decode chunk).2 = (h.decode chunk).2 := by
  obtain ⟨n, s⟩ := d
  obtain rfl : n = h.decoded := ha.decoded
  have hscan := ha.holds.scan_eq_scan_append h.decoded chunk
  rw [Holds.nothing.scan_eq] at hscan
  obtain ⟨held, hheld, hbytes⟩ := Holds.nothing.reaches (h.pending ++ chunk)
  simp only [Decoder.decode, HeldDecoder.decode]
  rcases hrest : (reach none (h.pending ++ chunk)).rest with _ | ⟨b, rest⟩
  · rw [hrest] at hscan
    rw [hscan]
    rw [hrest, List.append_nil, List.nil_append] at hbytes
    have hdrop : (h.pending ++ chunk).drop
        (encode (reach none (h.pending ++ chunk)).text).length = held := by
      generalize (reach none (h.pending ++ chunk)).text = text at hbytes ⊢
      rw [hbytes, List.drop_left]
    exact ⟨⟨rfl, by rw [hdrop]; exact hheld⟩, rfl⟩
  · rw [hrest] at hscan
    rw [hscan]
    exact ⟨⟨rfl, .nothing⟩, rfl⟩

/-- At the end the decoders find the same. -/
theorem finish (ha : Agrees d h) : Agrees d.finish.1 h.finish.1 ∧ d.finish.2 = h.finish.2 := by
  obtain ⟨n, s⟩ := d
  obtain rfl : n = h.decoded := ha.decoded
  have hholds : Holds s h.pending := ha.holds
  have hlength := hholds.length_eq
  cases s with
  | none =>
    have hnil : h.pending = [] := List.length_eq_zero_iff.mp hlength
    simp only [Decoder.finish, HeldDecoder.finish, if_pos hnil]
    exact ⟨ha, trivial⟩
  | some s =>
    have hne : h.pending ≠ [] := hholds.begins.1
    simp only [Decoder.finish, HeldDecoder.finish, if_neg hne]
    exact ⟨⟨rfl, .nothing⟩, by rw [hlength]; rfl⟩

/-- Whatever the chunks are, the decoders read the same text and find the same fault. -/
theorem decodeAll (ha : Agrees d h) (chunks : List (List UInt8)) :
    Agrees (d.decodeAll chunks).decoder (h.decodeAll chunks).1 ∧
      (d.decodeAll chunks).text = (h.decodeAll chunks).2.1 ∧
      (d.decodeAll chunks).faults = (h.decodeAll chunks).2.2 := by
  induction chunks generalizing d h with
  | nil => exact ⟨ha, rfl, rfl⟩
  | cons bs chunks ih =>
    obtain ⟨hagrees, hsame⟩ := ha.decode bs
    rw [Decoder.decodeAll, HeldDecoder.decodeAll]
    revert hagrees hsame
    rcases d.decode bs with ⟨d', _ | cs⟩ <;> rcases h.decode bs with ⟨h', _ | cs'⟩ <;>
      rintro hagrees ⟨⟩
    · exact ⟨hagrees, rfl, rfl⟩
    · obtain ⟨hall, htext, hfaults⟩ := ih hagrees
      exact ⟨hall, congrArg (cs ++ ·) htext, hfaults⟩

/-- Over a whole run the decoders read the same text, find the same faults, and count the same
bytes. -/
theorem run (ha : Agrees d h) (chunks : List (List UInt8)) :
    (d.run chunks).text = (h.run chunks).2.1 ∧ (d.run chunks).faults = (h.run chunks).2.2 ∧
      (d.run chunks).decoder.decoded = (h.run chunks).1.decoded ∧
      (d.run chunks).decoder.pending = (h.run chunks).1.pending.length := by
  obtain ⟨hagrees, htext, hfaults⟩ := ha.decodeAll chunks
  obtain ⟨hend, hfault⟩ := hagrees.finish
  refine ⟨htext, ?_, hend.decoded, hend.pending⟩
  simp only [Decoder.run, HeldDecoder.run, hfaults, hfault]

end Agrees

/-- The text before a fault in the same chunk is not handed out, but its bytes count. -/
example : (HeldDecoder.fresh.run [[0xC3], [0xA9, 0x80]]).2 = ([], [⟨.invalid, 2, 1⟩]) := by decide

end ResumableParsing.Utf8

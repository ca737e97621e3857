/-
# Bytes in chunks

A decoder that is given bytes in chunks reads the same as one that is given all bytes at once, up to
the chunk in which it finds a fault.  It finds one just when all the bytes are no text, and it is
the same fault.
-/
import ResumableParsing.Proofs.Reader.Utf8

namespace ResumableParsing.Utf8

/-- What is read of chunks: the texts of those before the first fault, and that fault.  When all the
chunks are read nothing may be held back. -/
def Decoder.texts : Decoder → List (List UInt8) → List (List Char) × Option Fault
  | d, [] => ([], d.finish.2)
  | d, bs :: chunks =>
    match d.decode bs with
    | (_, .error f) => ([], some f)
    | (d, .ok cs) => (cs :: (d.texts chunks).1, (d.texts chunks).2)

theorem Decoder.texts_cons_of_error {d : Decoder} {bs : List UInt8} {f : Fault}
    (h : d.scan bs = .error f) (chunks : List (List UInt8)) :
    d.texts (bs :: chunks) = ([], some f) := by
  simp only [texts, decode, h]

theorem Decoder.texts_cons_of_ok {d d' : Decoder} {bs : List UInt8} {cs : List Char}
    (h : d.scan bs = .ok (cs, d')) (chunks : List (List UInt8)) :
    d.texts (bs :: chunks) = (cs :: (d'.texts chunks).1, (d'.texts chunks).2) := by
  simp only [texts, decode, h]

/-- The fault that is found does not depend on the chunks. -/
theorem Decoder.fault_texts (d : Decoder) (chunks : List (List UInt8)) :
    (d.texts chunks).2 = d.fault chunks.flatten := by
  induction chunks generalizing d with
  | nil => rfl
  | cons bs chunks ih =>
    rw [List.flatten_cons, fault, scan_append]
    cases h : d.scan bs with
    | error f =>
      rw [texts_cons_of_error h]
      rfl
    | ok x =>
      rw [texts_cons_of_ok h]
      show (x.2.texts chunks).2 = _
      rw [ih, fault]
      cases h' : x.2.scan chunks.flatten <;> simp only [Except.bind, Except.map, h']

/-- The bytes that a decoder reads without a fault are bytes of the text, or are held back. -/
theorem Holds.of_scan {d d' : Decoder} {held bs : List UInt8} {cs : List Char}
    (h : Holds d.unfinished held) (hscan : d.scan bs = .ok (cs, d')) :
    ∃ held', Holds d'.unfinished held' ∧ held ++ bs = encode cs ++ held' := by
  have hscan' : Decoder.scan ⟨d.decoded, d.unfinished⟩ bs = .ok (cs, d') := hscan
  obtain ⟨held', hheld', heq⟩ := h.reaches bs
  rw [h.scan_eq] at hscan'
  cases hrest : (reach d.unfinished bs).rest with
  | nil =>
    rw [hrest] at hscan'
    cases hscan'
    rw [hrest, List.append_nil] at heq
    exact ⟨held', hheld', heq⟩
  | cons b rest =>
    rw [hrest] at hscan'
    cases hscan'

/-- The texts are what the bytes begin with, and all of them if no fault is found. -/
theorem Holds.texts {d : Decoder} {held : List UInt8} (h : Holds d.unfinished held)
    (chunks : List (List UInt8)) :
    ∃ rest, held ++ chunks.flatten = encode (d.texts chunks).1.flatten ++ rest ∧
      ((d.texts chunks).2 = none → rest = []) := by
  induction chunks generalizing d held with
  | nil =>
    refine ⟨held, List.append_nil held, fun hnone => ?_⟩
    cases hunfinished : d.unfinished with
    | none =>
      rw [hunfinished] at h
      cases h
      rfl
    | some s =>
      have hfinish : (d.texts []).2 = some ⟨.truncated, d.decoded, s.received⟩ := by
        simp only [Decoder.texts, Decoder.finish, hunfinished]
      rw [hfinish] at hnone
      cases hnone
  | cons bs chunks ih =>
    cases hscan : d.scan bs with
    | error f =>
      rw [Decoder.texts_cons_of_error hscan]
      exact ⟨_, rfl, nofun⟩
    | ok x =>
      rw [Decoder.texts_cons_of_ok hscan]
      obtain ⟨held', hheld', heq⟩ := h.of_scan hscan
      obtain ⟨rest, hrest, hall⟩ := ih hheld'
      refine ⟨rest, ?_, hall⟩
      calc
        held ++ (bs :: chunks).flatten = held ++ bs ++ chunks.flatten :=
          (List.append_assoc _ _ _).symm
        _ = encode x.1 ++ (held' ++ chunks.flatten) := by rw [heq, List.append_assoc]
        _ = encode (x.1 :: (x.2.texts chunks).1).flatten ++ rest := by
          rw [hrest, List.flatten_cons, encode_append, List.append_assoc]

/-- If the bytes are a text, that text is read. -/
theorem flatten_texts {chunks : List (List UInt8)} {cs : List Char}
    (h : chunks.flatten = encode cs) : (Decoder.fresh.texts chunks).1.flatten = cs := by
  have hfault : (Decoder.fresh.texts chunks).2 = none :=
    (Decoder.fault_texts _ _).trans (fault_eq_none_iff.mpr ⟨cs, h⟩)
  obtain ⟨rest, hrest, hall⟩ := Holds.texts (d := .fresh) .nothing chunks
  rw [hall hfault, List.append_nil, List.nil_append, h] at hrest
  exact (encode_injective hrest).symm

/-- No more is read than the longest text that the bytes begin with. -/
theorem flatten_texts_prefix (chunks : List (List UInt8)) :
    (Decoder.fresh.texts chunks).1.flatten <+: (reach none chunks.flatten).text := by
  obtain ⟨rest, hrest, -⟩ := Holds.texts (d := .fresh) .nothing chunks
  exact prefix_text_of_encode_prefix ⟨rest, hrest.symm⟩

end ResumableParsing.Utf8

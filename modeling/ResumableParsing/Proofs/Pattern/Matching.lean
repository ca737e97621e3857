/-
# What expressions match

An expression relates the place in a text where one of its stretches begins to the place where it
ends.  The relation is given by recursion on the expression and knows nothing of sets of positions.
That matching on sets of positions finds just the places that it relates is proved for each
construction: what a step carries sets of positions to is what a relation leads to (`Carries`).

A repetition without a bound adds what a step leads to until nothing new is found.  Every round but
the last adds a position, so that there are enough rounds for all positions of the text.
-/
import ResumableParsing.Pattern.Expression

namespace ResumableParsing

/-! ## Stretches -/

/-- A number of stretches, one after the other. -/
inductive Repeated (R : Nat → Nat → Prop) : Nat → Nat → Nat → Prop
  /-- No stretch ends where it begins. -/
  | none (i : Nat) : Repeated R 0 i i
  /-- The others begin where the first ends. -/
  | more {n i k j : Nat} (first : R i k) (others : Repeated R n k j) : Repeated R (n + 1) i j

/-- The character before a place, of which the beginning of the text has none of its own. -/
def charBefore (before : Option Char) (text : List Char) : Nat → Option Char
  | 0 => before
  | i + 1 => text[i]?

namespace Expression

/-- A stretch of the expression goes from the first place of the text to the second.  A repetition
whose `max` is below `min` has `min` stretches. -/
def Matches (text : List Char) : Expression → Nat → Nat → Prop
  | empty, i, j => i = j
  | oneOf k, i, j => i + 1 = j ∧ ∃ c, text[i]? = some c ∧ k.contains c = true
  | assert a, i, j => i = j ∧ a.holds (charBefore none text i) text[i]? = true
  | append a b, i, j => ∃ k, a.Matches text i k ∧ b.Matches text k j
  | either a b, i, j => a.Matches text i j ∨ b.Matches text i j
  | times a min max, i, j =>
    ∃ n, min ≤ n ∧ (∀ m, max = some m → n ≤ m ∨ n = min) ∧ Repeated (a.Matches text) n i j

end Expression

section Repeated

variable {R : Nat → Nat → Prop}

/-- No stretch at all ends where it begins. -/
theorem repeated_zero_iff {i j : Nat} : Repeated R 0 i j ↔ i = j := by
  constructor
  · rintro ⟨⟩
    rfl
  · rintro rfl
    exact .none i

/-- One stretch more comes before the others. -/
theorem repeated_succ_iff {n i j : Nat} :
    Repeated R (n + 1) i j ↔ ∃ k, R i k ∧ Repeated R n k j := by
  constructor
  · rintro ⟨⟩
    exact ⟨_, ‹_›, ‹_›⟩
  · rintro ⟨k, first, others⟩
    exact .more first others

/-- Some stretches and then some more. -/
theorem repeated_add_iff {m n i j : Nat} :
    Repeated R (m + n) i j ↔ ∃ k, Repeated R m i k ∧ Repeated R n k j := by
  induction m generalizing i with
  | zero => simp [repeated_zero_iff]
  | succ m ih =>
    rw [Nat.succ_add, repeated_succ_iff]
    constructor
    · rintro ⟨k, first, others⟩
      obtain ⟨l, hm, hn⟩ := ih.mp others
      exact ⟨l, .more first hm, hn⟩
    · rintro ⟨l, hm, hn⟩
      obtain ⟨k, first, others⟩ := repeated_succ_iff.mp hm
      exact ⟨k, first, ih.mpr ⟨l, others, hn⟩⟩

end Repeated

/-! ## Sets of positions -/

namespace Positions

/-- The position belongs to the set. -/
def Has (p : Positions) (i : Nat) : Prop := p[i]? = some true

/-- No position is beyond the set. -/
theorem Has.lt_length {p : Positions} {i : Nat} (h : p.Has i) : i < p.length :=
  (List.getElem?_eq_some_iff.mp h).1

/-- Sets for the same text have the same length, and so has their union. -/
theorem length_union {p q : Positions} (h : q.length = p.length) :
    (p.union q).length = p.length := by
  unfold union
  rw [List.length_zipWith]
  omega

/-- A position of the union is one of either set. -/
theorem has_union {p q : Positions} (h : q.length = p.length) {i : Nat} :
    (p.union q).Has i ↔ p.Has i ∨ q.Has i := by
  unfold Has union
  rw [List.getElem?_zipWith]
  by_cases hi : i < p.length
  · rw [List.getElem?_eq_getElem hi, List.getElem?_eq_getElem (h ▸ hi)]
    simp
  · rw [List.getElem?_eq_none (by omega), List.getElem?_eq_none (by omega)]
    simp

/-- The full set has every position of the text, and the one at its end. -/
theorem has_full {text : List Char} {i : Nat} : (full text).Has i ↔ i ≤ text.length := by
  unfold Has full
  rw [List.getElem?_replicate]
  split
  · exact iff_of_true rfl (by omega)
  · exact iff_of_false nofun (by omega)

/-- Where something is missing, there is a position that does not belong to the set. -/
theorem has_of_count {p : Positions} (h : p.count false = 0) {i : Nat} (hi : i < p.length) :
    p.Has i := by
  have hmem : p[i] ∈ p := List.getElem_mem hi
  have hnot : p[i] ≠ false := fun hfalse => List.count_eq_zero.mp h (hfalse ▸ hmem)
  unfold Has
  rw [List.getElem?_eq_getElem hi, eq_true_of_ne_false hnot]

/-- By a union no position is lost. -/
theorem count_union_le {p q : Positions} (h : q.length = p.length) :
    (p.union q).count false ≤ p.count false := by
  induction p generalizing q with
  | nil => exact Nat.le_refl 0
  | cons b p ih =>
    match q, h with
    | c :: q, h =>
      have hrest := ih (Nat.succ.inj h)
      show ((b || c) :: union p q).count false ≤ (b :: p).count false
      cases b <;> cases c <;> simp <;> omega

/-- What adds something leaves less to add. -/
theorem count_union_lt {p q : Positions} (h : q.length = p.length) (hne : p.union q ≠ p) :
    (p.union q).count false < p.count false := by
  induction p generalizing q with
  | nil => exact absurd rfl hne
  | cons b p ih =>
    match q, h with
    | c :: q, h =>
      have hlen : q.length = p.length := Nat.succ.inj h
      have hle := count_union_le hlen
      have hcons : union (b :: p) (c :: q) = (b || c) :: union p q := rfl
      rw [hcons] at hne ⊢
      by_cases hrest : union p q = p
      · -- only the first position can be new
        rw [hrest] at hne ⊢
        cases b <;> cases c <;> simp_all
      · have hlt := ih hlen hrest
        cases b <;> cases c <;> simp <;> omega

/-! ## Steps from set to set -/

/-- The step carries sets of `n` positions to those that the relation leads to from them. -/
def Carries (step : Positions → Positions) (R : Nat → Nat → Prop) (n : Nat) : Prop :=
  ∀ p : Positions, p.length = n →
    (step p).length = n ∧ ∀ j, (step p).Has j ↔ ∃ i, p.Has i ∧ R i j

variable {step : Positions → Positions} {R : Nat → Nat → Prop} {n : Nat}

/-- Step after step leads to where as many stretches end. -/
theorem Carries.iterate (h : Carries step R n) (k : Nat) :
    Carries (iterate step k) (Repeated R k) n := by
  induction k with
  | zero =>
    refine fun p hp => ⟨hp, fun j => ?_⟩
    simp [Positions.iterate, repeated_zero_iff]
  | succ k ih =>
    intro p hp
    obtain ⟨hlen, hstep⟩ := h p hp
    obtain ⟨hlen', hrest⟩ := ih (step p) hlen
    refine ⟨hlen', fun j => (hrest j).trans ?_⟩
    constructor
    · rintro ⟨l, hl, hj⟩
      obtain ⟨i, hi, hR⟩ := (hstep l).mp hl
      exact ⟨i, hi, .more hR hj⟩
    · rintro ⟨i, hi, hj⟩
      obtain ⟨l, hR, hj⟩ := repeated_succ_iff.mp hj
      exact ⟨l, (hstep l).mpr ⟨i, hi, hR⟩, hj⟩

/-- Nothing leads out of the set. -/
def Closed (R : Nat → Nat → Prop) (p : Positions) : Prop := ∀ i j, p.Has i → R i j → p.Has j

/-- A closed set is not left by any number of stretches. -/
theorem Closed.repeated {p : Positions} (h : p.Closed R) {k i j : Nat} (hi : p.Has i)
    (hj : Repeated R k i j) : p.Has j := by
  induction hj with
  | none => exact hi
  | more first _ ih => exact ih (h _ _ hi first)

/-- A set to which a step adds nothing is closed. -/
theorem Carries.closed (h : Carries step R n) {p : Positions} (hp : p.length = n)
    (hsame : p.union (step p) = p) : p.Closed R := by
  intro i j hi hR
  obtain ⟨hlen, hstep⟩ := h p hp
  have hj : (p.union (step p)).Has j :=
    (has_union (by rw [hlen, hp])).mpr (.inr ((hstep j).mpr ⟨i, hi, hR⟩))
  rwa [hsame] at hj

/-- A closure holds what up to the given number of steps lead to. -/
theorem Carries.closure (h : Carries step R n) (k : Nat) :
    Carries (closure step k) (fun i j => ∃ l ≤ k, Repeated R l i j) n := by
  induction k with
  | zero =>
    refine fun p hp => ⟨hp, fun j => ?_⟩
    simp [Positions.closure, repeated_zero_iff]
  | succ k ih =>
    intro p hp
    obtain ⟨hlen, hstep⟩ := h p hp
    have hsize : (step p).length = p.length := by rw [hlen, hp]
    simp only [Positions.closure]
    by_cases hsame : p.union (step p) = p
    · rw [if_pos hsame]
      refine ⟨hp, fun j => ⟨fun hj => ⟨j, hj, 0, Nat.zero_le _, .none j⟩, ?_⟩⟩
      rintro ⟨i, hi, l, -, hl⟩
      exact (h.closed hp hsame).repeated hi hl
    · rw [if_neg hsame]
      obtain ⟨hlen', hrest⟩ := ih (p.union (step p)) ((length_union hsize).trans hp)
      refine ⟨hlen', fun j => (hrest j).trans ?_⟩
      constructor
      · rintro ⟨i, hi, l, hle, hl⟩
        rcases (has_union hsize).mp hi with hi | hi
        · exact ⟨i, hi, l, by omega, hl⟩
        · obtain ⟨i', hi', hR⟩ := (hstep i).mp hi
          exact ⟨i', hi', l + 1, by omega, .more hR hl⟩
      · rintro ⟨i, hi, l, hle, hl⟩
        cases hl with
        | none => exact ⟨j, (has_union hsize).mpr (.inl hi), 0, Nat.zero_le _, .none j⟩
        | @more l _ i' _ first others =>
          have hi' : (step p).Has i' := (hstep i').mpr ⟨i, hi, first⟩
          exact ⟨i', (has_union hsize).mpr (.inr hi'), l, by omega, others⟩

/-- With as many rounds as there are positions to add, a closure is closed. -/
theorem Carries.closed_closure (h : Carries step R n) {k : Nat} {p : Positions} (hp : p.length = n)
    (hk : p.count false ≤ k) : (Positions.closure step k p).Closed R := by
  induction k generalizing p with
  | zero =>
    intro i j hi hR
    obtain ⟨hlen, hstep⟩ := h p hp
    have hj : (step p).Has j := (hstep j).mpr ⟨i, hi, hR⟩
    have hlt := hj.lt_length
    exact has_of_count (Nat.le_zero.mp hk) (by omega)
  | succ k ih =>
    obtain ⟨hlen, -⟩ := h p hp
    have hsize : (step p).length = p.length := by rw [hlen, hp]
    simp only [Positions.closure]
    by_cases hsame : p.union (step p) = p
    · rw [if_pos hsame]
      exact h.closed hp hsame
    · rw [if_neg hsame]
      have hlt := count_union_lt hsize hsame
      exact ih ((length_union hsize).trans hp) (by omega)

/-- With as many rounds as there are positions, a closure holds what any number of steps leads
to. -/
theorem Carries.closure_all (h : Carries step R n) :
    Carries (Positions.closure step n) (fun i j => ∃ l, Repeated R l i j) n := by
  intro p hp
  obtain ⟨hlen, hbounded⟩ := h.closure n p hp
  refine ⟨hlen, fun j => ⟨fun hj => ?_, ?_⟩⟩
  · obtain ⟨i, hi, l, -, hl⟩ := (hbounded j).mp hj
    exact ⟨i, hi, l, hl⟩
  · rintro ⟨i, hi, l, hl⟩
    have hcount : p.count false ≤ n := hp ▸ List.count_le_length
    have hi' := (hbounded i).mpr ⟨i, hi, 0, Nat.zero_le _, .none i⟩
    exact (h.closed_closure hp hcount).repeated hi' hl

end Positions

/-! ## Steps of expressions -/

namespace Positions

variable {step step' : Positions → Positions} {R R' : Nat → Nat → Prop} {n : Nat}

/-- Only the relation counts, not how it is put. -/
theorem Carries.congr (h : Carries step R n) (hR : ∀ i j, R i j ↔ R' i j) : Carries step R' n := by
  intro p hp
  obtain ⟨hlen, hstep⟩ := h p hp
  exact ⟨hlen, fun j => (hstep j).trans (exists_congr fun i => and_congr_right fun _ => hR i j)⟩

/-- One step after another leads to where two stretches end. -/
theorem Carries.andThen (h : Carries step R n) (h' : Carries step' R' n) :
    Carries (fun p => step' (step p)) (fun i j => ∃ k, R i k ∧ R' k j) n := by
  intro p hp
  obtain ⟨hlen, hstep⟩ := h p hp
  obtain ⟨hlen', hstep'⟩ := h' _ hlen
  refine ⟨hlen', fun j => (hstep' j).trans ?_⟩
  constructor
  · rintro ⟨k, hk, hkj⟩
    obtain ⟨i, hi, hik⟩ := (hstep k).mp hk
    exact ⟨i, hi, k, hik, hkj⟩
  · rintro ⟨i, hi, k, hik, hkj⟩
    exact ⟨k, (hstep k).mpr ⟨i, hi, hik⟩, hkj⟩

/-- Two steps beside one another lead to where either stretch ends. -/
theorem Carries.orElse (h : Carries step R n) (h' : Carries step' R' n) :
    Carries (fun p => (step p).union (step' p)) (fun i j => R i j ∨ R' i j) n := by
  intro p hp
  obtain ⟨hlen, hstep⟩ := h p hp
  obtain ⟨hlen', hstep'⟩ := h' p hp
  have hsize : (step' p).length = (step p).length := by rw [hlen, hlen']
  refine ⟨(length_union hsize).trans hlen, fun j => (has_union hsize).trans ?_⟩
  rw [hstep, hstep', ← exists_or]
  exact exists_congr fun i => and_or_left.symm

end Positions

open Positions in
/-- A class leads past one character of it. -/
theorem CharClass.carries_advance (k : CharClass) (text : List Char) :
    Carries (k.advance text)
      (fun i j => i + 1 = j ∧ ∃ c, text[i]? = some c ∧ k.contains c = true)
      (text.length + 1) := by
  intro p hp
  refine ⟨?_, fun j => ?_⟩
  · simp only [CharClass.advance, List.length_cons, List.length_zipWith]
    omega
  · cases j with
    | zero => exact iff_of_false nofun (by simp)
    | succ j =>
      show (List.zipWith _ text p)[j]? = some true ↔ _
      rw [List.getElem?_zipWith]
      constructor
      · intro h
        split at h
        · rename_i c b hc hb
          have hboth : b = true ∧ k.contains c = true := by simpa using h
          exact ⟨j, by rw [Has, hb, hboth.1], rfl, c, hc, hboth.2⟩
        · cases h
      · rintro ⟨i, hi, hij, c, hc, hk⟩
        obtain rfl : i = j := Nat.succ.inj hij
        rw [hc, show p[i]? = some true from hi]
        simp [hk]

namespace Assertion

/-- At each position the assertion is tested between the characters there. -/
theorem getElem?_positions (a : Assertion) (before : Option Char) (text : List Char) {i : Nat}
    (hi : i ≤ text.length) :
    (a.positions before text)[i]? = some (a.holds (charBefore before text i) text[i]?) := by
  induction text generalizing before i with
  | nil =>
    obtain rfl : i = 0 := Nat.le_zero.mp hi
    rfl
  | cons c text ih =>
    cases i with
    | zero => rfl
    | succ i =>
      have hcons := ih (some c) (Nat.le_of_succ_le_succ hi)
      cases i <;> exact hcons

/-- Each position is tested, the one at the end as well. -/
theorem length_positions (a : Assertion) (before : Option Char) (text : List Char) :
    (a.positions before text).length = text.length + 1 := by
  induction text generalizing before with
  | nil => rfl
  | cons c text ih => exact congrArg (· + 1) (ih (some c))

open Positions in
/-- An assertion stays where it holds. -/
theorem carries_positions (a : Assertion) (text : List Char) :
    Carries (List.zipWith and (a.positions none text))
      (fun i j => i = j ∧ a.holds (charBefore none text i) text[i]? = true)
      (text.length + 1) := by
  intro p hp
  have hlen := a.length_positions none text
  refine ⟨by rw [List.length_zipWith]; omega, fun j => ?_⟩
  unfold Has
  rw [List.getElem?_zipWith]
  by_cases hj : j ≤ text.length
  · have hjp : j < p.length := by omega
    have hget : p[j]? = some p[j] := List.getElem?_eq_getElem hjp
    rw [a.getElem?_positions none text hj, hget]
    constructor
    · intro h
      have hboth : a.holds (charBefore none text j) text[j]? = true ∧ p[j] = true := by
        simpa using h
      exact ⟨j, hget.trans (congrArg some hboth.2), rfl, hboth.1⟩
    · rintro ⟨i, hi, rfl, ha⟩
      have hpi : p[i] = true := Option.some.inj (hget.symm.trans hi)
      rw [ha, hpi]
      rfl
  · rw [List.getElem?_eq_none (by omega)]
    refine iff_of_false nofun ?_
    rintro ⟨i, hi, rfl, -⟩
    have hlt := Has.lt_length hi
    omega

end Assertion

/-! ## Expressions -/

/-- So many stretches and more, as far as there is room. -/
theorem exists_repeated_iff {R : Nat → Nat → Prop} {min i j : Nat} {room : Nat → Prop} :
    (∃ k, Repeated R min i k ∧ ∃ l, room l ∧ Repeated R l k j) ↔
      ∃ n, min ≤ n ∧ room (n - min) ∧ Repeated R n i j := by
  constructor
  · rintro ⟨k, hik, l, hl, hkj⟩
    refine ⟨min + l, Nat.le_add_right _ _, ?_, repeated_add_iff.mpr ⟨k, hik, hkj⟩⟩
    rwa [Nat.add_sub_cancel_left]
  · rintro ⟨n, hle, hn, hij⟩
    obtain ⟨l, rfl⟩ := Nat.exists_eq_add_of_le hle
    rw [Nat.add_sub_cancel_left] at hn
    obtain ⟨k, hik, hkj⟩ := repeated_add_iff.mp hij
    exact ⟨k, hik, l, hn, hkj⟩

namespace Expression

open Positions

/-- A repetition matches its least number of stretches, and then some more within the bound. -/
theorem matches_times_iff {text : List Char} {a : Expression} {min : Nat} {max : Option Nat}
    {i j : Nat} :
    (times a min max).Matches text i j ↔
      ∃ k, Repeated (a.Matches text) min i k ∧
        ∃ l, (∀ m, max = some m → l ≤ m - min) ∧ Repeated (a.Matches text) l k j := by
  rw [exists_repeated_iff, Matches]
  refine exists_congr fun n => and_congr_right fun hle => and_congr_left fun _ => ?_
  exact forall₂_congr fun m _ => by omega

/-- Matching on sets of positions finds the places where stretches of the expression end that begin
at the given places, and no others. -/
theorem carries_ends (text : List Char) (e : Expression) :
    Carries (e.ends text) (e.Matches text) (text.length + 1) := by
  induction e with
  | empty => exact fun p hp => ⟨hp, fun j => by simp [ends, Matches]⟩
  | oneOf k => exact k.carries_advance text
  | assert a => exact a.carries_positions text
  | append a b iha ihb => exact iha.andThen ihb
  | either a b iha ihb => exact iha.orElse ihb
  | times a min max ih =>
    -- the stretches that there must be, and then the others
    have hfirst := ih.iterate min
    cases max with
    | none =>
      refine (hfirst.andThen ih.closure_all).congr fun i j => ?_
      rw [matches_times_iff]
      simp
    | some m =>
      refine (hfirst.andThen (ih.closure (m - min))).congr fun i j => ?_
      rw [matches_times_iff]
      simp

/-- An expression occurs in a text just if one of its stretches lies in it. -/
theorem occursIn_iff {e : Expression} {text : List Char} :
    e.occursIn text = true ↔ ∃ i ≤ text.length, ∃ j, e.Matches text i j := by
  obtain ⟨-, hends⟩ := e.carries_ends text (full text) (List.length_replicate ..)
  unfold occursIn
  rw [List.any_eq_true]
  constructor
  · rintro ⟨b, hb, htrue⟩
    obtain ⟨j, hj⟩ := List.mem_iff_getElem?.mp hb
    obtain ⟨i, hi, hij⟩ := (hends j).mp (hj.trans (congrArg some htrue))
    exact ⟨i, has_full.mp hi, j, hij⟩
  · rintro ⟨i, hi, j, hij⟩
    have hj := (hends j).mpr ⟨i, has_full.mpr hi, hij⟩
    exact ⟨true, List.mem_of_getElem? hj, rfl⟩

/-! ## Where stretches lie -/

/-- A stretch does not end before it begins. -/
theorem Matches.le {text : List Char} {e : Expression} {i j : Nat} (h : e.Matches text i j) :
    i ≤ j := by
  induction e generalizing i j with
  | empty => exact Nat.le_of_eq h
  | oneOf k => exact h.1 ▸ Nat.le_succ i
  | assert a => exact Nat.le_of_eq h.1
  | append a b iha ihb =>
    obtain ⟨k, hik, hkj⟩ := h
    exact Nat.le_trans (iha hik) (ihb hkj)
  | either a b iha ihb => exact h.elim iha ihb
  | times a min max ih =>
    obtain ⟨n, -, -, hn⟩ := h
    induction hn with
    | none i => exact Nat.le_refl i
    | more first _ ihn => exact Nat.le_trans (ih first) ihn

/-- A stretch that begins in the text ends in it. -/
theorem Matches.le_length {text : List Char} {e : Expression} {i j : Nat} (h : e.Matches text i j)
    (hi : i ≤ text.length) : j ≤ text.length := by
  obtain ⟨hlen, hends⟩ := e.carries_ends text (Positions.full text) (List.length_replicate ..)
  have hlt := ((hends j).mpr ⟨i, Positions.has_full.mpr hi, h⟩).lt_length
  omega

/-- The beginning of the text is its first place. -/
theorem matches_textStart_iff {text : List Char} {i j : Nat} (hi : i ≤ text.length) :
    (assert .textStart).Matches text i j ↔ i = 0 ∧ j = 0 := by
  have hstart : Assertion.holds (charBefore none text i) text[i]? .textStart = true ↔ i = 0 := by
    cases i with
    | zero => exact iff_of_true rfl rfl
    | succ i =>
      show (text[i]?).isNone = true ↔ _
      rw [List.getElem?_eq_getElem (by omega)]
      simp
  rw [Matches, hstart]
  omega

/-- The end of the text is its last place. -/
theorem matches_textEnd_iff {text : List Char} {i j : Nat} (hi : i ≤ text.length) :
    (assert .textEnd).Matches text i j ↔ i = text.length ∧ j = text.length := by
  have hend : Assertion.holds (charBefore none text i) text[i]? .textEnd = true ↔
      i = text.length := by
    show (text[i]?).isNone = true ↔ _
    rw [Option.isNone_iff_eq_none, List.getElem?_eq_none_iff]
    omega
  rw [Matches, hend]
  omega

/-- Any of some expressions matches what one of them matches. -/
theorem matches_eitherAll_iff {text : List Char} {es : List Expression} {i j : Nat} :
    (eitherAll es).Matches text i j ↔ ∃ e ∈ es, e.Matches text i j := by
  induction es with
  | nil =>
    refine iff_of_false ?_ (by simp)
    rintro ⟨-, c, -, hc⟩
    cases hc
  | cons e es ih =>
    show e.Matches text i j ∨ (eitherAll es).Matches text i j ↔ _
    simp only [ih, List.mem_cons, exists_eq_or_imp]

end Expression

end ResumableParsing

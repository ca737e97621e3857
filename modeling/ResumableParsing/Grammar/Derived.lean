/-
# Derived grammars

Constructions that are made of others: leaves that compare items, sequences of three and four,
brackets, and the common repetitions.
-/
import ResumableParsing.Grammar.Basic
import ResumableParsing.Item

namespace ResumableParsing.Grammar

variable {ρ : Type → Type} {ι ν α β γ δ : Type}

/-! ## Leaves -/

/-- Exactly the given item. -/
def literal [DecidableEq ι] [Item ι] (x : ι) : Grammar ρ ι ν ι :=
  satisfy (Item.quoted x) fun y => y = x

/-- One of the given items. -/
def oneOf [DecidableEq ι] [Item ι] (xs : List ι) : Grammar ρ ι ν ι :=
  satisfy ("one of " ++ quotedList xs) fun y => xs.contains y

/-- Any item. -/
def any : Grammar ρ ι ν ι := satisfy "any item" fun _ => true

/-! ## Sequences -/

/-- Three in order. -/
def sequence₃ (p : Grammar ρ ι ν α) (q : Grammar ρ ι ν β) (r : Grammar ρ ι ν γ) :
    Grammar ρ ι ν (α × β × γ) :=
  ((p.pair q).pair r).map fun ((a, b), c) => (a, b, c)

/-- Four in order. -/
def sequence₄ (p : Grammar ρ ι ν α) (q : Grammar ρ ι ν β) (r : Grammar ρ ι ν γ)
    (s : Grammar ρ ι ν δ) : Grammar ρ ι ν (α × β × γ × δ) :=
  (((p.pair q).pair r).pair s).map fun (((a, b), c), d) => (a, b, c, d)

/-- A body between brackets; once the first bracket is read, no other way is tried. -/
def between (opening : Grammar ρ ι ν α) (body : Grammar ρ ι ν β) (closing : Grammar ρ ι ν γ) :
    Grammar ρ ι ν (α × β × γ) :=
  sequence₃ opening body.fatal closing.fatal

/-- Each grammar of a list in order. -/
def allOf (ps : List (Grammar ρ ι ν α)) : Grammar ρ ι ν (List α) := all ps.get

/-! ## Alternatives -/

/-- The first grammar of a list that does not fail. -/
def firstOf (ps : List (Grammar ρ ι ν α)) : Grammar ρ ι ν α := choice ps.get

/-- The first of two that does not fail. -/
def orElse (p q : Grammar ρ ι ν α) : Grammar ρ ι ν α := firstOf [p, q]

/-! ## Repetitions -/

/-- Any number of times. -/
def many (p : Grammar ρ ι ν α) : Grammar ρ ι ν (List α) := p.repetition 0 none

/-- At least the given number of times. -/
def atLeast (p : Grammar ρ ι ν α) (n : Nat) : Grammar ρ ι ν (List α) := p.repetition n none

/-- Once or not at all. -/
def optional (p : Grammar ρ ι ν α) : Grammar ρ ι ν (Option α) :=
  (p.repetition 0 (some 1)).map List.head?

end ResumableParsing.Grammar

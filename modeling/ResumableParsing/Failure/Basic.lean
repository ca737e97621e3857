/-
# Failures

What a computation reports when it cannot go on: a cause, whether a surrounding computation may
recover from it, and the construct that was being parsed.  A failure that gathers others holds them
in the order in which they arose.
-/

namespace ResumableParsing

/-! ## Causes and failures -/

/-- Whether a surrounding computation may take another way. -/
inductive Severity where
  /-- Another alternative may be tried. -/
  | recoverable
  /-- The whole parse ends. -/
  | fatal
  deriving DecidableEq

mutual

/-- Why a computation failed. -/
inductive Cause (ι : Type) where
  /-- The item at the cursor is not what was expected. -/
  | unexpected (found : ι) (expected : String)
  /-- The input ended where more was expected. -/
  | endOfInput (expected : String)
  /-- Several ways were tried and each failed. -/
  | aggregate (members : List (Failure ι))
  /-- A grammar gave its own account of what is wrong. -/
  | message (detail : String)
  /-- A computation was resumed with an answer it did not ask for. -/
  | protocol (detail : String)

/-- A cause together with its severity and the construct in which it arose. -/
structure Failure (ι : Type) where
  /-- Why the computation failed. -/
  cause : Cause ι
  /-- Whether recovery is allowed. -/
  severity : Severity
  /-- The construct that was being parsed, if it has a name. -/
  context : Option String

end

variable {ι : Type}

/-! ## Equality -/

mutual

/-- Equality of causes is decidable. -/
def Cause.decEq [DecidableEq ι] : (a b : Cause ι) → Decidable (a = b)
  | .unexpected x e, .unexpected y f => decidable_of_iff (x = y ∧ e = f) (by simp)
  | .endOfInput e, .endOfInput f => decidable_of_iff (e = f) (by simp)
  | .aggregate xs, .aggregate ys =>
    match Failure.decEqList xs ys with
    | isTrue h => isTrue (by rw [h])
    | isFalse h => isFalse (by simpa using h)
  | .message d, .message e => decidable_of_iff (d = e) (by simp)
  | .protocol d, .protocol e => decidable_of_iff (d = e) (by simp)
  | .unexpected .., .endOfInput .. | .unexpected .., .aggregate .. | .unexpected .., .message ..
  | .unexpected .., .protocol .. | .endOfInput .., .unexpected .. | .endOfInput .., .aggregate ..
  | .endOfInput .., .message .. | .endOfInput .., .protocol .. | .aggregate .., .unexpected ..
  | .aggregate .., .endOfInput .. | .aggregate .., .message .. | .aggregate .., .protocol ..
  | .message .., .unexpected .. | .message .., .endOfInput .. | .message .., .aggregate ..
  | .message .., .protocol .. | .protocol .., .unexpected .. | .protocol .., .endOfInput ..
  | .protocol .., .aggregate .. | .protocol .., .message .. => isFalse (by simp)

/-- Equality of failures is decidable. -/
def Failure.decEq [DecidableEq ι] : (a b : Failure ι) → Decidable (a = b)
  | ⟨c, s, x⟩, ⟨d, t, y⟩ =>
    match Cause.decEq c d with
    | isTrue h => decidable_of_iff (s = t ∧ x = y) (by simp [h])
    | isFalse h => isFalse (by simp [h])

/-- Equality of lists of failures is decidable. -/
def Failure.decEqList [DecidableEq ι] : (a b : List (Failure ι)) → Decidable (a = b)
  | [], [] => isTrue rfl
  | [], _ :: _ => isFalse (by simp)
  | _ :: _, [] => isFalse (by simp)
  | x :: xs, y :: ys =>
    match Failure.decEq x y, Failure.decEqList xs ys with
    | isTrue h, isTrue k => isTrue (by rw [h, k])
    | isFalse h, _ => isFalse (by simp [h])
    | _, isFalse k => isFalse (by simp [k])

end

instance [DecidableEq ι] : DecidableEq (Cause ι) := Cause.decEq

instance [DecidableEq ι] : DecidableEq (Failure ι) := Failure.decEq

namespace Failure

/-! ## Raising a failure -/

/-- A failure that has just arisen: recoverable, and in no named construct. -/
def ofCause (c : Cause ι) : Failure ι := ⟨c, .recoverable, none⟩

/-- The item at the cursor is not what was expected. -/
def unexpected (found : ι) (expected : String) : Failure ι := ofCause (.unexpected found expected)

/-- The input ended where more was expected. -/
def endOfInput (expected : String) : Failure ι := ofCause (.endOfInput expected)

/-- Every one of several ways failed. -/
def aggregate (members : List (Failure ι)) : Failure ι := ofCause (.aggregate members)

/-- A failure in the grammar's own words. -/
def message (detail : String) : Failure ι := ofCause (.message detail)

/-- A wrong answer is never recovered from. -/
def violation (detail : String) : Failure ι := ⟨.protocol detail, .fatal, none⟩

/-! ## Looking at a failure and changing it -/

/-- Whether the failure ends the whole parse. -/
def isFatal (f : Failure ι) : Bool := f.severity = .fatal

/-- The same failure, no longer to be recovered from. -/
def toFatal (f : Failure ι) : Failure ι := { f with severity := .fatal }

/-- The same failure, put into a context unless it has one already: the innermost context stays. -/
def withContext (f : Failure ι) (context : String) : Failure ι :=
  match f.context with
  | none => { f with context := some context }
  | some _ => f

/-- The same failure, told in which construct it arose unless it knows already. -/
def whileParsing (f : Failure ι) (construct : String) : Failure ι :=
  f.withContext ("while parsing " ++ construct)

/-- The failures that a failure stands for: those it gathers, or itself alone. -/
def alternatives (f : Failure ι) : List (Failure ι) :=
  match f.cause with
  | .aggregate members => members
  | _ => [f]

@[simp] theorem cause_ofCause (c : Cause ι) : (ofCause c).cause = c := rfl

/-- What is raised for a cause can be recovered from. -/
@[simp] theorem isFatal_ofCause (c : Cause ι) : (ofCause c).isFatal = false := by
  simp [isFatal, ofCause]

/-- A violation cannot be recovered from. -/
@[simp] theorem isFatal_violation (d : String) : (violation d : Failure ι).isFatal = true := by
  simp [isFatal, violation]

@[simp] theorem isFatal_toFatal (f : Failure ι) : f.toFatal.isFatal = true := by
  simp [isFatal, toFatal]

/-- A failure is made fatal once and for all. -/
@[simp] theorem toFatal_toFatal (f : Failure ι) : f.toFatal.toFatal = f.toFatal := rfl

/-- A context does not change whether a failure is fatal. -/
@[simp] theorem isFatal_withContext (f : Failure ι) (c : String) :
    (f.withContext c).isFatal = f.isFatal := by
  unfold withContext
  split <;> rfl

/-- A context does not change the cause. -/
@[simp] theorem cause_withContext (f : Failure ι) (c : String) :
    (f.withContext c).cause = f.cause := by
  unfold withContext
  split <;> rfl

/-- A failure that has a context keeps it. -/
@[simp] theorem context_withContext (f : Failure ι) (c : String) :
    (f.withContext c).context = some (f.context.getD c) := by
  unfold withContext
  split <;> simp_all

/-- Of two contexts the inner one stays. -/
@[simp] theorem withContext_withContext (f : Failure ι) (c d : String) :
    (f.withContext c).withContext d = f.withContext c := by
  cases h : f.context <;> simp [withContext, h]

/-- It does not matter whether a failure is made fatal before or after it is put into a context. -/
theorem withContext_toFatal (f : Failure ι) (c : String) :
    f.toFatal.withContext c = (f.withContext c).toFatal := by
  unfold withContext
  cases h : f.context <;> simp [toFatal, h]

end Failure

end ResumableParsing

/-
# What scripts mean

A script stands for a grammar, once its free names are given values.  Its parts are built when their
names have values: a continuation is built from the output that it goes on from.  A name without a
fitting value makes the grammar fail.
-/
import ResumableParsing.Grammar.Derived
import ResumableParsing.Script.Basic

namespace ResumableParsing

variable {ι : Type} [Item ι]

/-! ## Computations made by hand -/

/-- Fail in the same way at every resumption. -/
def Machine.failing {ν α : Type} (e : Failure ι) : Machine ι ν α where
  State := Unit
  init := ()
  resume _ _ := ⟨(), .fail e, []⟩

/-- A response as a value. -/
def Response.value : Response ι → Value ι
  | .item x => .item x
  | .endOfInput => .endOfInput
  | .token t => .token t

/-- Send the request that follows the answers so far, or put out the answers if none does. -/
def sendNext {ν : Type} (qs : List WrittenRequest) (answers : List (Value ι)) :
    Turn (List (Value ι)) ι ν (Value ι) :=
  match qs[answers.length]? with
  | none => ⟨answers, .complete (.list answers), []⟩
  | some (.plain q) => ⟨answers, .suspend q, []⟩
  | some (.backTo i) =>
    match answers[i]? with
    | some (.token t) => ⟨answers, .suspend (.rollback t), []⟩
    | _ => ⟨answers, .fail (.message "not a token"), []⟩

/-- Send the requests one after the other and put out the list of the answers.  A resumption without
an answer sends the last request again. -/
def Machine.written {ν : Type} (qs : List WrittenRequest) : Machine ι ν (Value ι) where
  State := List (Value ι)
  init := []
  resume answers r := sendNext qs (answers ++ (r.map Response.value).toList)

/-! ## Names -/

/-- The values of names, the innermost binding first. -/
abbrev Bindings (ι : Type) := List (String × Value ι)

/-- The names of rules; every rule puts out values. -/
inductive RuleName (ι : Type) : Type → Type where
  /-- The rule with the given name. -/
  | named (name : String) : RuleName ι (Value ι)

/-- The grammars of scripts. -/
abbrev ScriptGrammar (ι α : Type) := Grammar (RuleName ι) ι (Note ι) α

/-- The grammar of a script that uses a name without a fitting value. -/
def badSpec {α : Type} : ScriptGrammar ι α :=
  .custom (.failing (Failure.message "bad spec").toFatal)

/-! ## The grammar of a script -/

variable [DecidableEq ι]

namespace Script

mutual

/-- The grammar of a script, given the values of its free names. -/
def grammar (vars : Bindings ι) : Script ι → ScriptGrammar ι (Value ι)
  | literal x => (Grammar.literal x).map .item
  | oneOf xs => (Grammar.oneOf xs).map .item
  | any => Grammar.any.map .item
  | endOfInput => Grammar.endOfInput.map fun _ => .unit
  | satisfy expected test => (Grammar.satisfy expected test.passes).map .item
  | pattern p => (Grammar.satisfy p.expected fun x => p.accepts (Item.text x)).map .item
  | peek => (Grammar.ask .peek).map .item
  | peekOrEnd => (Grammar.ask .peekOrEnd).map Value.ofItem?
  | consume => (Grammar.ask .consume).map .item
  | consumeOrEnd => (Grammar.ask .consumeOrEnd).map Value.ofItem?
  | snapshot => (Grammar.ask .snapshot).map .token
  | rollback (.explicit t) => (Grammar.ask (.rollback t)).map .token
  | rollback (.bound name) =>
    match vars.lookup name with
    | some (.token t) => (Grammar.ask (.rollback t)).map .token
    | _ => badSpec
  | written qs => .custom (.written qs)
  | fail detail => .custom (.failing (.message detail))
  | failFatally detail => .custom (.failing (Failure.message detail).toFatal)
  | failAgain name =>
    match vars.lookup name with
    | some (.failure e) => .custom (.failing e)
    | _ => badSpec
  | failInWordsOf name =>
    match vars.lookup name with
    | some (.failure e) => .custom (.failing (.message e.text))
    | some v => .custom (.failing (.message v.key))
    | none => badSpec
  | pair p q => ((p.grammar vars).pair (q.grammar vars)).map fun (a, b) => .tuple [a, b]
  | sequence₃ p q r =>
    (Grammar.sequence₃ (p.grammar vars) (q.grammar vars) (r.grammar vars)).map
      fun (a, b, c) => .tuple [a, b, c]
  | sequence₄ p q r s =>
    (Grammar.sequence₄ (p.grammar vars) (q.grammar vars) (r.grammar vars) (s.grammar vars)).map
      fun (a, b, c, d) => .tuple [a, b, c, d]
  | all ps => (Grammar.allOf (grammars vars ps)).map .list
  | between opening body closing =>
    (Grammar.between (opening.grammar vars) (body.grammar vars) (closing.grammar vars)).map
      fun (a, b, c) => .tuple [a, b, c]
  | choice ps => Grammar.firstOf (grammars vars ps)
  | orElse p q => (p.grammar vars).orElse (q.grammar vars)
  | repetition p min max => ((p.grammar vars).repetition min max).map .list
  | many p => (p.grammar vars).many.map .list
  | atLeast p n => ((p.grammar vars).atLeast n).map .list
  | optional p => (p.grammar vars).optional.map Value.ofOption
  | map p f => (p.grammar vars).map f.apply
  | bind p name q => (p.grammar vars).bind fun v => q.grammar ((name, v) :: vars)
  | rescue p name q => (p.grammar vars).rescue fun e => q.grammar ((name, .failure e) :: vars)
  | recoverWith p q => (p.grammar vars).recoverWith (q.grammar vars)
  | fatal p => (p.grammar vars).fatal
  | label p construct => (p.grammar vars).label construct
  | call rule => .call (.named rule)
  | const d => .pure (.const d)
  | value name =>
    match vars.lookup name with
    | some v => .pure v
    | none => badSpec
  | same name =>
    match vars.lookup name with
    | some (.item x) => (Grammar.literal x).map .item
    | _ => badSpec
  | times name p =>
    match vars.lookup name with
    | some v =>
      let n := v.integer.toNat
      ((p.grammar vars).repetition n (some n)).map .list
    | none => badSpec
  | case name arms otherwise =>
    match vars.lookup name with
    | some v => armGrammar vars v.key (otherwise.grammar vars) arms
    | none => badSpec
  | spy name p => (p.grammar vars).tap (⟨name, ·, ·⟩)

/-- The grammars of scripts. -/
def grammars (vars : Bindings ι) : List (Script ι) → List (ScriptGrammar ι (Value ι))
  | [] => []
  | p :: ps => p.grammar vars :: grammars vars ps

/-- The grammar of the first arm with the given key, or else the one for no arm. -/
def armGrammar (vars : Bindings ι) (key : String) (otherwise : ScriptGrammar ι (Value ι)) :
    List (String × Script ι) → ScriptGrammar ι (Value ι)
  | [] => otherwise
  | (k, p) :: arms => if k = key then p.grammar vars else armGrammar vars key otherwise arms

end

/-! ## The parser of a script -/

/-- The rules of a script, by name. -/
abbrev Rules (ι : Type) := List (String × Script ι)

/-- What the rules stand for; the names of the caller mean nothing in a rule. -/
def Rules.book (rules : Rules ι) : RuleBook (RuleName ι) ι (Note ι)
  | _, .named name =>
    match rules.lookup name with
    | some p => p.grammar []
    | none => badSpec

/-- How deep calls of rules may be unfolded: deeper than any input can lead. -/
def callDepth : Nat := 1000000000000

/-- The parser of a script. -/
def parser (rules : Rules ι) (p : Script ι) : Machine ι (Note ι) (Value ι) :=
  (p.grammar []).parser rules.book callDepth

end Script

end ResumableParsing

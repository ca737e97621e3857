/-
# Parsing what a reader delivers

A reader delivers bytes in pieces, and may be interrupted or break.  A source reads it to the end,
decodes each piece and feeds the characters to an engine, and stops at the first thing that goes
wrong.
-/
import ResumableParsing.Engine.Basic
import ResumableParsing.Reader.Utf8

namespace ResumableParsing

variable {ν ο : Type}

/-! ## Readers -/

/-- The ways in which a read fails. -/
inductive ReadFailure where
  /-- The read was interrupted and may be tried again. -/
  | interrupted
  /-- The other end is gone. -/
  | brokenPipe
  /-- The bytes ended too early. -/
  | unexpectedEnd
  /-- Anything else. -/
  | other
  deriving DecidableEq

/-- The text of a failed read that brings none of its own. -/
def ReadFailure.text : ReadFailure → String
  | interrupted => "operation interrupted"
  | brokenPipe => "broken pipe"
  | unexpectedEnd => "unexpected end of file"
  | other => "other error"

/-- What a reader has to deliver next. -/
inductive Supply where
  /-- Bytes, which may take several reads. -/
  | bytes (bs : List UInt8)
  /-- One read that fails. -/
  | failure (kind : ReadFailure) (text : Option String)

/-- What one read comes to. -/
inductive Read where
  /-- Some bytes. -/
  | bytes (bs : List UInt8)
  /-- No bytes: the reader is at its end. -/
  | ended
  /-- A failure. -/
  | failed (kind : ReadFailure) (text : Option String)

/-- Cut a list into at most `n` pieces of the given size, the last of which may be shorter. -/
def pieces {α : Type} (size : Nat) : Nat → List α → List (List α)
  | 0, _ | _, [] => []
  | n + 1, xs => xs.take size :: pieces size n (xs.drop size)

/-- The reads of at most `size` bytes that it takes to receive what a reader has to deliver. -/
def reads (size : Nat) : List Supply → List Read
  | [] => []
  | .bytes [] :: rest => .ended :: reads size rest
  | .bytes bs :: rest => (pieces size bs.length bs).map .bytes ++ reads size rest
  | .failure kind text :: rest => .failed kind text :: reads size rest

/-! ## Sources -/

/-- How many bytes are read at once unless something else is wished for. -/
def defaultChunkSize : Nat := 8192

/-- How many bytes are read at once if `size` is wished for: at least one. -/
def effectiveChunkSize (size : Nat) : Nat := max size 1

/-- What can go wrong with a source. -/
inductive SourceError where
  /-- A read failed. -/
  | read (text : String)
  /-- The bytes are no text. -/
  | decode (f : Utf8.Fault)
  /-- The text cannot be parsed. -/
  | parse (e : ParseError Char)

/-- The text of what went wrong with a source. -/
def SourceError.text : SourceError → String
  | read text => "read failed: " ++ text
  | decode f => f.text
  | parse e => e.text

/-- A source that has been read: the engine afterwards, what happened meanwhile, and the outputs or
what went wrong; nothing if the budget of resumptions was used up. -/
structure SourceRun (m : Machine Char ν ο) where
  /-- The engine afterwards. -/
  engine : Engine m
  /-- The movements of the cursor and the outputs. -/
  events : List (Event Char ο)
  /-- What the computations noted. -/
  notes : List ν
  /-- The outputs, or what went wrong. -/
  result : Option (Except SourceError (List ο))

namespace SourceRun

variable {m : Machine Char ν ο}

/-- A source that ends before anything more happens. -/
def stopped (e : Engine m) (x : SourceError) : SourceRun m := ⟨e, [], [], some (.error x)⟩

/-- Drain an engine after a call, and if nothing goes wrong go on. -/
def drainThen (budget : Nat) (call : Engine m × Option (ParseError Char))
    (rest : Engine m → SourceRun m) : SourceRun m :=
  match call with
  | (e, some x) => stopped e (.parse x)
  | (e, none) =>
    let d := e.drain budget
    if !d.settled then ⟨d.engine, d.events, d.notes, none⟩
    else
      match gather d.delivered with
      | .error x => ⟨d.engine, d.events, d.notes, some (.error (.parse x))⟩
      | .ok outputs =>
        let r := rest d.engine
        ⟨r.engine, d.events ++ r.events, d.notes ++ r.notes,
          r.result.map fun result => result.map fun more => outputs ++ more⟩

end SourceRun

open SourceRun in
/-- The end of a source: no bytes may be held back, and the input is over. -/
def finishSource {m : Machine Char ν ο} (budget : Nat) (d : Utf8.Decoder) (e : Engine m) :
    SourceRun m :=
  match d.finish with
  | (_, some f) => stopped e (.decode f)
  | (_, none) => drainThen budget e.finish fun e => ⟨e, [], [], some (.ok [])⟩

open SourceRun in
/-- Feed what the reads bring to an engine. -/
def runReads {m : Machine Char ν ο} (budget : Nat) :
    Utf8.Decoder → Engine m → List Read → SourceRun m
  | d, e, [] | d, e, .ended :: _ => finishSource budget d e
  | d, e, .failed .interrupted _ :: rest => runReads budget d e rest
  | _, e, .failed kind text :: _ => stopped e (.read (text.getD kind.text))
  | d, e, .bytes bs :: rest =>
    match d.decode bs with
    | (_, .error f) => stopped e (.decode f)
    | (d, .ok cs) => drainThen budget (e.feed cs) fun e => runReads budget d e rest

/-- Read a source to its end and parse it with an engine; the wished-for size of the reads is raised
to one byte. -/
def runSource {m : Machine Char ν ο} (budget : Nat) (chunkSize : Nat) (e : Engine m)
    (supplies : List Supply) : SourceRun m :=
  runReads budget .fresh e (reads (effectiveChunkSize chunkSize) supplies)

end ResumableParsing

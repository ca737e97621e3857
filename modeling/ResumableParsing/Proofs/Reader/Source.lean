/-
# Reading a source is parsing its text

A source cuts characters wherever its reads end, its decoder holds the halves back, and its engine
is starved in the middle of sessions.  None of this shows: if the bytes are a text, reading them is
parsing that text; otherwise the source comes to the fault of the bytes, or to an error that the
text before the fault brings about.

Reads are first reduced to the chunks that they bring, chunks to the texts that are decoded from
them, and texts to pieces of a stream that are fed to an engine.
-/
import ResumableParsing.Reader.Source
import ResumableParsing.Proofs.Engine.Pieces
import ResumableParsing.Proofs.Reader.Chunks

namespace ResumableParsing

variable {ρ : Type → Type} {ν ο α : Type}

/-! ## What a reader delivers -/

/-- The bytes that a reader delivers before its end. -/
def Supply.delivered : List Supply → List UInt8
  | [] | .bytes [] :: _ => []
  | .bytes bs :: rest => bs ++ delivered rest
  | .failure _ _ :: rest => delivered rest

/-- Before the end of the reader no read fails, unless it is interrupted. -/
def Supply.Steady : List Supply → Prop
  | [] | .bytes [] :: _ => True
  | .bytes _ :: rest => Steady rest
  | .failure kind _ :: rest => kind = .interrupted ∧ Steady rest

/-- The chunks that reads bring before the end of the reader. -/
def Read.chunks : List Read → List (List UInt8)
  | [] | .ended :: _ => []
  | .bytes bs :: rest => bs :: chunks rest
  | .failed _ _ :: rest => chunks rest

theorem Read.chunks_map_bytes_append (css : List (List UInt8)) (rest : List Read) :
    chunks (css.map .bytes ++ rest) = css ++ chunks rest := by
  induction css with
  | nil => rfl
  | cons cs css ih => exact congrArg (cs :: ·) ih

/-- Nothing is lost when a list is cut into pieces. -/
theorem flatten_pieces {β : Type} {size : Nat} (hsize : 0 < size) {n : Nat} {xs : List β}
    (hn : xs.length ≤ n) : (pieces size n xs).flatten = xs := by
  induction n generalizing xs with
  | zero =>
    obtain rfl := List.eq_nil_of_length_eq_zero (Nat.le_zero.mp hn)
    rfl
  | succ n ih =>
    cases xs with
    | nil => rfl
    | cons x xs =>
      have hrest : ((x :: xs).drop size).length ≤ n := by
        rw [List.length_drop]
        simp only [List.length_cons] at hn ⊢
        omega
      rw [pieces, List.flatten_cons, ih hrest, List.take_append_drop]
      exact nofun

/-- No piece is empty. -/
theorem ne_nil_of_mem_pieces {β : Type} {size : Nat} (hsize : 0 < size) {n : Nat} {xs p : List β}
    (hp : p ∈ pieces size n xs) : p ≠ [] := by
  induction n generalizing xs with
  | zero => cases hp
  | succ n ih =>
    cases xs with
    | nil => cases hp
    | cons x xs =>
      rw [pieces] at hp
      · rcases List.mem_cons.mp hp with rfl | hp
        · obtain ⟨k, rfl⟩ := Nat.exists_eq_succ_of_ne_zero (Nat.ne_of_gt hsize)
          exact List.cons_ne_nil x _
        · exact ih hp
      · exact nofun

/-- The chunks are what the reader delivers, and none is empty. -/
theorem Read.chunks_reads {size : Nat} (hsize : 0 < size) (supplies : List Supply) :
    (chunks (reads size supplies)).flatten = Supply.delivered supplies ∧
      ∀ cs ∈ chunks (reads size supplies), cs ≠ [] := by
  induction supplies with
  | nil => exact ⟨rfl, nofun⟩
  | cons supply rest ih =>
    match supply with
    | .bytes [] => exact ⟨rfl, nofun⟩
    | .failure kind text => exact ih
    | .bytes (b :: bs) =>
      have hreads : chunks (reads size (.bytes (b :: bs) :: rest)) =
          pieces size (b :: bs).length (b :: bs) ++ chunks (reads size rest) :=
        chunks_map_bytes_append _ _
      rw [hreads, List.flatten_append, flatten_pieces hsize (Nat.le_refl _), ih.1]
      refine ⟨rfl, fun cs hcs => ?_⟩
      rcases List.mem_append.mp hcs with hcs | hcs
      · exact ne_nil_of_mem_pieces hsize hcs
      · exact ih.2 cs hcs

/-! ## What a source feeds -/

/-- The texts that a source feeds, by the wished-for size of its reads, and the fault that it
finds. -/
def Supply.texts (chunkSize : Nat) (supplies : List Supply) :
    List (List Char) × Option Utf8.Fault :=
  Utf8.Decoder.fresh.texts (Read.chunks (reads (effectiveChunkSize chunkSize) supplies))

theorem effectiveChunkSize_pos (chunkSize : Nat) : 0 < effectiveChunkSize chunkSize :=
  Nat.le_max_right chunkSize 1

theorem Read.flatten_chunks (chunkSize : Nat) (supplies : List Supply) :
    (chunks (reads (effectiveChunkSize chunkSize) supplies)).flatten = Supply.delivered supplies :=
  (chunks_reads (effectiveChunkSize_pos chunkSize) supplies).1

/-- The fault is that of the bytes. -/
theorem Supply.fault_texts (chunkSize : Nat) (supplies : List Supply) :
    (texts chunkSize supplies).2 = Utf8.fault (delivered supplies) := by
  rw [texts, Utf8.Decoder.fault_texts, Read.flatten_chunks]
  rfl

/-- If the bytes are a text, that text is fed. -/
theorem Supply.flatten_texts {supplies : List Supply} {text : List Char}
    (h : delivered supplies = Utf8.encode text) (chunkSize : Nat) :
    (texts chunkSize supplies).1.flatten = text := by
  apply Utf8.flatten_texts
  rw [Read.flatten_chunks, h]

/-- Of what the bytes begin with, no more is fed than the longest text. -/
theorem Supply.flatten_texts_prefix (chunkSize : Nat) (supplies : List Supply) :
    (texts chunkSize supplies).1.flatten <+: (Utf8.reach none (delivered supplies)).text := by
  rw [← Read.flatten_chunks chunkSize]
  exact Utf8.flatten_texts_prefix _

/-- Where there are no bytes, not even empty texts are fed. -/
theorem Supply.texts_eq_nil {supplies : List Supply} (h : delivered supplies = [])
    (chunkSize : Nat) : (texts chunkSize supplies).1 = [] := by
  have hnil : Read.chunks (reads (effectiveChunkSize chunkSize) supplies) = [] := by
    obtain ⟨hflatten, hnonempty⟩ :=
      Read.chunks_reads (effectiveChunkSize_pos chunkSize) supplies
    rw [h] at hflatten
    apply List.eq_nil_iff_forall_not_mem.mpr
    intro cs hcs
    exact hnonempty cs hcs (List.flatten_eq_nil_iff.mp hflatten cs hcs)
  rw [texts, hnil]
  rfl

section Reads

variable {m : Machine Char ν ο} {budget : Nat}

/-- What a source makes of chunks depends on what it makes of the reads that follow. -/
theorem runReads_map_bytes_append {rest rest' : List Read}
    (h : ∀ d (e : Engine m), runReads budget d e rest = runReads budget d e rest')
    (css : List (List UInt8)) (d : Utf8.Decoder) (e : Engine m) :
    runReads budget d e (css.map .bytes ++ rest) =
      runReads budget d e (css.map .bytes ++ rest') := by
  induction css generalizing d e with
  | nil => exact h d e
  | cons cs css ih =>
    simp only [List.map_cons, List.cons_append, runReads]
    split
    · rfl
    · simp only [ih]

/-- Interruptions do not matter: only the chunks do. -/
theorem runReads_eq_of_steady {size : Nat} {supplies : List Supply}
    (hsteady : Supply.Steady supplies) (d : Utf8.Decoder) (e : Engine m) :
    runReads budget d e (reads size supplies) =
      runReads budget d e ((Read.chunks (reads size supplies)).map .bytes) := by
  induction supplies generalizing d e with
  | nil => rfl
  | cons supply rest ih =>
    match supply with
    | .bytes [] => rfl
    | .failure kind text =>
      obtain ⟨rfl, hrest⟩ := hsteady
      exact ih hrest d e
    | .bytes (b :: bs) =>
      have hreads : reads size (.bytes (b :: bs) :: rest) =
          (pieces size (b :: bs).length (b :: bs)).map .bytes ++ reads size rest := rfl
      rw [hreads, Read.chunks_map_bytes_append, List.map_append]
      exact runReads_map_bytes_append (ih hsteady) _ d e

end Reads

/-! ## What a source comes to -/

/-- The result of a source after the outputs that came before it. -/
def SourceRun.resultAfter {m : Machine Char ν ο} (r : SourceRun m) (outputs : List ο) :
    Option (Except SourceError (List ο)) :=
  r.result.map fun result => result.map fun more => outputs ++ more

@[simp] theorem SourceRun.resultAfter_nil {m : Machine Char ν ο} (r : SourceRun m) :
    r.resultAfter [] = r.result := by
  unfold resultAfter
  rcases r.result with _ | _ | _ <;> rfl

namespace History

variable {m : Machine Char ν ο} {h h' : History m} {budget : Nat} {outputs : List ο}
  {x : Except SourceError (List ο)}

/-- What a source comes to when its texts are fed: an error of the engine, or else the fault, or
else what the engine delivers when the input ends. -/
def Closes (h : History m) (x : Except SourceError (List ο)) : Option Utf8.Fault → Prop
  | none => ∃ res, (h.move .finish).Delivers res ∧ x = res.mapError .parse
  | some f =>
    x = match gather h.delivered with
      | .ok _ => .error (.decode f)
      | .error e => .error (.parse e)

/-- An error of the engine comes first. -/
theorem closes_of_error {e : ParseError Char} (hh : h.Sound) (he : gather h.delivered = .error e)
    (fault : Option Utf8.Fault) : h.Closes (.error (.parse e)) fault := by
  cases fault with
  | none =>
    have ha : h.engine.aborted = true := hh.aborted_of_gather he
    refine ⟨.error e, ?_, rfl⟩
    rw [move_finish_of_aborted ha]
    exact delivers_of_aborted ha he
  | some f =>
    unfold Closes
    rw [he]

theorem closes_of_fault (houtputs : gather h.delivered = .ok outputs) (f : Utf8.Fault) :
    h.Closes (.error (.decode f)) (some f) := by
  unfold Closes
  rw [houtputs]

/-- An engine that has delivered no error takes what is fed. -/
theorem Flows.feed_eq (hf : h.Flows) (ha : h.engine.aborted = false) (cs : List Char) :
    h.engine.feed cs = ((h.move (.feed cs)).engine, none) := by
  have hfeed := Engine.feed_of_unlimited hf.unlimited ha hf.unfinished cs
  show _ = ((h.engine.feed cs).1, none)
  rw [hfeed]

/-- A chunk with a fault stops a source. -/
theorem runReads_cons_of_error {d : Utf8.Decoder} {bs : List UInt8} {f : Utf8.Fault}
    (hscan : d.scan bs = .error f) (e : Engine m) (rest : List Read) :
    runReads budget d e (.bytes bs :: rest) = .stopped e (.decode f) := by
  simp only [runReads, Utf8.Decoder.decode, hscan]

/-- The text of a chunk is fed, and all is done that can be done. -/
theorem Flows.runReads_cons_of_ok (hf : h.Flows) (ha : h.engine.aborted = false)
    {d d' : Utf8.Decoder} {bs : List UInt8} {cs : List Char} (hscan : d.scan bs = .ok (cs, d'))
    (rest : List Read) :
    runReads budget d h.engine (.bytes bs :: rest) =
      SourceRun.drainThen budget ((h.move (.feed cs)).engine, none) fun e =>
        runReads budget d' e rest := by
  simp only [runReads, Utf8.Decoder.decode, hscan]
  rw [hf.feed_eq ha]

theorem finish_eq (ha : h.engine.aborted = false) :
    h.engine.finish = ((h.move .finish).engine, none) := by
  show _ = (h.engine.finish.1, none)
  simp [Engine.finish, ha]

/-- If the budget suffices, all the work is done that can be done, and what follows goes on from
there. -/
theorem Sound.drainThen_eq (hh : h.Sound) (houtputs : gather h.delivered = .ok outputs) {k : Nat}
    (hk : (h.works k).Settled) (hs : (h.engine.drain budget).settled = true)
    (rest : Engine m → SourceRun m) :
    (SourceRun.drainThen budget (h.engine, none) rest).resultAfter outputs =
      match gather (h.works k).delivered with
      | .error e => some (.error (.parse e))
      | .ok outputs => (rest (h.works k).engine).resultAfter outputs := by
  have hadds := hh.adds_drain_of_settled hk hs
  rw [hadds.delivered, hadds.engine, gather_append_of_ok houtputs]
  simp only [SourceRun.drainThen, hs, SourceRun.resultAfter]
  cases gather (h.engine.drain budget).delivered with
  | error e => rfl
  | ok more =>
    simp only [Bool.not_true, Bool.false_eq_true, if_false, Except.map, Option.map_map]
    congr 1
    funext result
    cases result with
    | error x => rfl
    | ok last => exact congrArg Except.ok (List.append_assoc _ _ _).symm

/-- A result is an error of the engine, or what follows comes to it. -/
theorem Sound.exists_of_drainThen (hh : h.Sound) (houtputs : gather h.delivered = .ok outputs)
    {rest : Engine m → SourceRun m}
    (hx : (SourceRun.drainThen budget (h.engine, none) rest).resultAfter outputs = some x) :
    ∃ k, (h.works k).Settled ∧
      ((∃ e, gather (h.works k).delivered = .error e ∧ x = .error (.parse e)) ∨
        ∃ more, gather (h.works k).delivered = .ok more ∧
          (rest (h.works k).engine).resultAfter more = some x) := by
  cases hs : (h.engine.drain budget).settled with
  | false =>
    -- a budget that does not suffice leads to no result
    simp [SourceRun.drainThen, hs, SourceRun.resultAfter] at hx
  | true =>
    obtain ⟨k, hk⟩ := hh.exists_settled hs
    refine ⟨k, hk, ?_⟩
    rw [hh.drainThen_eq houtputs hk hs] at hx
    cases hg : gather (h.works k).delivered with
    | error e =>
      rw [hg] at hx
      exact .inl ⟨e, rfl, (Option.some.inj hx).symm⟩
    | ok more =>
      rw [hg] at hx
      exact .inr ⟨more, rfl, hx⟩

/-- Where only outputs were delivered, no error has ended the engine. -/
theorem Sound.running_of_gather (hh : h.Sound) (ha : h.engine.aborted = false) {k : Nat}
    (hk : gather (h.works k).delivered = .ok outputs) : (h.works k).engine.aborted = false := by
  apply Bool.eq_false_iff.mpr
  intro haborted
  obtain ⟨e, he⟩ := hh.exists_error_of_aborted ha haborted
  rw [gather_eq_ok hk] at he
  simp at he

/-- The end of a source closes the history. -/
theorem Sound.closes_of_finishSource (hh : h.Sound) (ha : h.engine.aborted = false)
    (houtputs : gather h.delivered = .ok outputs) {d : Utf8.Decoder}
    (hx : (finishSource budget d h.engine).resultAfter outputs = some x) :
    h.Closes x d.finish.2 := by
  unfold finishSource at hx
  rcases hd : d.finish with ⟨d', _ | f⟩ <;> simp only [hd] at hx
  · rw [finish_eq ha] at hx
    obtain ⟨k, hk, ⟨e, he, rfl⟩ | ⟨more, hmore, hlast⟩⟩ := hh.finish.exists_of_drainThen houtputs hx
    · exact ⟨.error e, ⟨k, hk, he⟩, rfl⟩
    · refine ⟨.ok more, ⟨k, hk, hmore⟩, ?_⟩
      rw [← Option.some.inj hlast]
      exact congrArg Except.ok (List.append_nil more)
  · obtain rfl := Option.some.inj hx
    exact closes_of_fault houtputs f

/-- What a source comes to by its chunks closes the history in which their texts were fed. -/
theorem Flows.closes_of_runReads (hf : h.Flows) (ha : h.engine.aborted = false)
    (houtputs : gather h.delivered = .ok outputs) {d : Utf8.Decoder}
    {chunks : List (List UInt8)}
    (hx : (runReads budget d h.engine (chunks.map .bytes)).resultAfter outputs = some x) :
    ∃ h', h.Paced (d.texts chunks).1 h' ∧ h'.Closes x (d.texts chunks).2 := by
  induction chunks generalizing h d outputs with
  | nil => exact ⟨h, .nil h, hf.sound.closes_of_finishSource ha houtputs hx⟩
  | cons bs chunks ih =>
    rw [List.map_cons] at hx
    cases hscan : d.scan bs with
    | error f =>
      rw [Utf8.Decoder.texts_cons_of_error hscan]
      rw [runReads_cons_of_error hscan] at hx
      obtain rfl := Option.some.inj hx
      exact ⟨h, .nil h, closes_of_fault houtputs f⟩
    | ok read =>
      obtain ⟨cs, d'⟩ := read
      rw [Utf8.Decoder.texts_cons_of_ok hscan]
      rw [hf.runReads_cons_of_ok ha hscan] at hx
      have hfed := (hf.feed cs).sound
      obtain ⟨k, hk, ⟨e, he, rfl⟩ | ⟨more, hmore, hrest⟩⟩ := hfed.exists_of_drainThen houtputs hx
      · -- an error of the engine ends the source, and the texts that follow do not matter
        have hsound := hfed.works k
        exact ⟨_, .cons hk (paced_of_aborted (hsound.aborted_of_gather he) _),
          closes_of_error hsound he _⟩
      · have hrunning := hfed.running_of_gather (hf.running_feed ha cs) hmore
        obtain ⟨h', hp, hcloses⟩ := ih ((hf.feed cs).works k) hrunning hmore hrest
        exact ⟨h', .cons hk hp, hcloses⟩

/-- A history that can be closed is closed by a source whose budget is large enough. -/
theorem Sound.exists_finishSource (hh : h.Sound) (ha : h.engine.aborted = false)
    (houtputs : gather h.delivered = .ok outputs) {d : Utf8.Decoder}
    (hcloses : h.Closes x d.finish.2) :
    ∃ least, ∀ budget, least ≤ budget →
      ∃ y, (finishSource budget d h.engine).resultAfter outputs = some y := by
  unfold finishSource
  rcases hd : d.finish with ⟨d', _ | f⟩ <;> simp only [hd] at hcloses ⊢
  · obtain ⟨res, ⟨k, hk, -⟩, -⟩ := hcloses
    refine ⟨k + 1, fun budget hle => ?_⟩
    rw [finish_eq ha, hh.finish.drainThen_eq houtputs hk (hh.finish.settled_drain hk hle)]
    cases gather ((h.move .finish).works k).delivered with
    | error e => exact ⟨_, rfl⟩
    | ok more => exact ⟨_, rfl⟩
  · exact ⟨0, fun _ _ => ⟨_, rfl⟩⟩

/-- If the work after each text comes to an end, so does the source, if its budget is large
enough. -/
theorem Flows.exists_runReads (hf : h.Flows) (ha : h.engine.aborted = false)
    (houtputs : gather h.delivered = .ok outputs) {d : Utf8.Decoder}
    {chunks : List (List UInt8)} (hp : h.Paced (d.texts chunks).1 h')
    (hcloses : h'.Closes x (d.texts chunks).2) :
    ∃ least, ∀ budget, least ≤ budget →
      ∃ y, (runReads budget d h.engine (chunks.map .bytes)).resultAfter outputs = some y := by
  induction chunks generalizing h d outputs with
  | nil =>
    cases hp
    exact hf.sound.exists_finishSource ha houtputs hcloses
  | cons bs chunks ih =>
    rw [List.map_cons]
    cases hscan : d.scan bs with
    | error f =>
      refine ⟨0, fun budget _ => ⟨.error (.decode f), ?_⟩⟩
      rw [runReads_cons_of_error hscan]
      rfl
    | ok read =>
      obtain ⟨cs, d'⟩ := read
      rw [Utf8.Decoder.texts_cons_of_ok hscan] at hp hcloses
      cases hp with
      | @cons _ _ _ _ k settled rest =>
        have hfed := hf.feed cs
        have hdrain {budget : Nat} (hlt : k < budget) :=
          hfed.sound.drainThen_eq houtputs settled (hfed.sound.settled_drain settled hlt)
            fun e => runReads budget d' e (chunks.map .bytes)
        simp only [hf.runReads_cons_of_ok ha hscan]
        cases hg : gather ((h.move (.feed cs)).works k).delivered with
        | error e =>
          refine ⟨k + 1, fun budget hle => ⟨.error (.parse e), ?_⟩⟩
          rw [hdrain hle, hg]
        | ok more =>
          have hrunning := hfed.sound.running_of_gather (hf.running_feed ha cs) hg
          obtain ⟨least, hleast⟩ := ih (hfed.works k) hrunning hg rest hcloses
          refine ⟨max (k + 1) least, fun budget hle => ?_⟩
          rw [hdrain (by omega), hg]
          exact hleast budget (by omega)

/-! ## Sources and texts -/

/-- What is delivered is what draining the engine delivers, if the budget is large enough. -/
theorem Sound.delivers_iff_drain (hh : h.Sound) (hnothing : h.delivered = [])
    {res : Except (ParseError Char) (List ο)} :
    h.Delivers res ↔ ∃ budget, (h.engine.drain budget).settled = true ∧
      gather (h.engine.drain budget).delivered = res := by
  have hdrain {budget k : Nat} (hk : (h.works k).Settled)
      (hs : (h.engine.drain budget).settled = true) :
      (h.engine.drain budget).delivered = (h.works k).delivered := by
    rw [(hh.adds_drain_of_settled hk hs).delivered, hnothing, List.nil_append]
  constructor
  · rintro ⟨k, hk, rfl⟩
    have hs := hh.settled_drain hk (Nat.lt_succ_self k)
    exact ⟨k + 1, hs, congrArg gather (hdrain hk hs)⟩
  · rintro ⟨budget, hs, rfl⟩
    obtain ⟨k, hk⟩ := hh.exists_settled hs
    exact ⟨k, hk, congrArg gather (hdrain hk hs).symm⟩

variable {supplies : List Supply} (hsteady : Supply.Steady supplies) (chunkSize : Nat)
include hsteady

/-- What a source comes to closes the history in which its texts were fed. -/
theorem closes_of_runSource
    (hx : (runSource budget chunkSize (Engine.fresh m none) supplies).result = some x) :
    ∃ h', (fresh m none).Paced (Supply.texts chunkSize supplies).1 h' ∧
      h'.Closes x (Supply.texts chunkSize supplies).2 := by
  rw [runSource, runReads_eq_of_steady hsteady, ← SourceRun.resultAfter_nil] at hx
  exact (flows_fresh m).closes_of_runReads rfl rfl hx

/-- A source comes to something if the work after each text comes to an end. -/
theorem exists_runSource (hp : (fresh m none).Paced (Supply.texts chunkSize supplies).1 h')
    (hcloses : h'.Closes x (Supply.texts chunkSize supplies).2) :
    ∃ budget y, (runSource budget chunkSize (Engine.fresh m none) supplies).result = some y := by
  obtain ⟨least, hleast⟩ := (flows_fresh m).exists_runReads rfl rfl hp hcloses
  obtain ⟨y, hy⟩ := hleast least (Nat.le_refl least)
  refine ⟨least, y, ?_⟩
  rw [runSource, runReads_eq_of_steady hsteady, ← SourceRun.resultAfter_nil]
  exact hy

variable (hm : m.Faithful) (hpace : (fresh m none).Unhurried ∨ m.Hasty)
include hm hpace

/-- Reading the bytes of a text delivers what the text delivers, and comes to an end just when the
work on the text does. -/
theorem runSource_of_text {text : List Char}
    (htext : Supply.delivered supplies = Utf8.encode text) :
    (∀ budget x, (runSource budget chunkSize (Engine.fresh m none) supplies).result = some x →
      ∃ res, (whole m text).Delivers res ∧ x = res.mapError .parse) ∧
    ∀ res, (whole m text).Delivers res → ∃ budget x,
      (runSource budget chunkSize (Engine.fresh m none) supplies).result = some x := by
  have hfault : (Supply.texts chunkSize supplies).2 = none := by
    rw [Supply.fault_texts]
    exact Utf8.fault_eq_none_iff.mpr ⟨text, htext⟩
  have hflatten : (Supply.texts chunkSize supplies).1.flatten = text :=
    Supply.flatten_texts htext chunkSize
  have hnil : (Supply.texts chunkSize supplies).1.flatten = [] →
      (Supply.texts chunkSize supplies).1 = [] := by
    intro hnil
    rw [hnil] at hflatten
    exact Supply.texts_eq_nil (htext.trans (congrArg Utf8.encode hflatten.symm)) chunkSize
  rw [← hflatten]
  refine ⟨fun budget x hx => ?_, fun res hres => ?_⟩
  · obtain ⟨h', hp, hcloses⟩ := closes_of_runSource hsteady chunkSize hx
    rw [hfault] at hcloses
    obtain ⟨res, hres, hx⟩ := hcloses
    exact ⟨res, (paced_finish_iff hm hpace hnil).mp ⟨h', hp, hres⟩, hx⟩
  · obtain ⟨h', hp, hres'⟩ := (paced_finish_iff hm hpace hnil).mpr hres
    have hcloses : h'.Closes (res.mapError .parse) (Supply.texts chunkSize supplies).2 := by
      rw [hfault]
      exact ⟨res, hres', rfl⟩
    exact exists_runSource hsteady chunkSize hp hcloses

/-- Reading bytes that are no text comes to their fault, or to an error that the longest text which
they begin with brings about; and it comes to an end if the work on that text does. -/
theorem runSource_of_fault {f : Utf8.Fault}
    (hf : Utf8.fault (Supply.delivered supplies) = some f) :
    let text := (Utf8.reach none (Supply.delivered supplies)).text
    (∀ budget x, (runSource budget chunkSize (Engine.fresh m none) supplies).result = some x →
      x = .error (.decode f) ∨ ∃ e, x = .error (.parse e) ∧
        ((fresh m none).move (.feed text)).Delivers (.error e)) ∧
    ∀ res, ((fresh m none).move (.feed text)).Delivers res → ∃ budget x,
      (runSource budget chunkSize (Engine.fresh m none) supplies).result = some x := by
  intro text
  have hfault : (Supply.texts chunkSize supplies).2 = some f :=
    (Supply.fault_texts chunkSize supplies).trans hf
  obtain ⟨rest, htext⟩ : (Supply.texts chunkSize supplies).1.flatten <+: text :=
    Supply.flatten_texts_prefix chunkSize supplies
  rw [← htext]
  refine ⟨fun budget x hx => ?_, fun res hres => ?_⟩
  · obtain ⟨h', hp, hcloses⟩ := closes_of_runSource hsteady chunkSize hx
    rw [hfault] at hcloses
    unfold Closes at hcloses
    cases he : gather h'.delivered with
    | ok outputs =>
      rw [he] at hcloses
      exact .inl hcloses
    | error e =>
      rw [he] at hcloses
      exact .inr ⟨e, hcloses, delivers_of_paced hm hpace hp he rest⟩
  · obtain ⟨h', hp⟩ := exists_paced hm hpace hres
    have hcloses : ∃ x, h'.Closes x (Supply.texts chunkSize supplies).2 := by
      rw [hfault]
      exact ⟨_, rfl⟩
    obtain ⟨x, hx⟩ := hcloses
    exact exists_runSource hsteady chunkSize hp hx

end History

/-- Reading a stream of bytes is parsing its text.  Let the grammar handle no tokens and use no
machine made by hand, and let no read fail unless it is interrupted.  If the bytes are a text, the
source comes to a result just when parsing the text does, and to the same.  Otherwise it comes to
the fault of the bytes, which comes behind the longest text that they begin with, or to the error to
which feeding that text comes while more may follow. -/
theorem Grammar.source_parses_text {rules : RuleBook ρ Char ν} (hrules : rules.Tokenless)
    {g : Grammar ρ Char ν α} (hg : g.Tokenless) (depth chunkSize : Nat) {supplies : List Supply}
    (hsteady : Supply.Steady supplies) :
    let m := g.parser rules depth
    let bytes := Supply.delivered supplies
    let run b := (runSource b chunkSize (Engine.fresh m none) supplies).result
    (∀ text, bytes = Utf8.encode text →
      ((∃ b x, run b = some x) ↔ ∃ b y, parseAll m b text = some y) ∧
      ∀ b b' x y, run b = some x → parseAll m b' text = some y → x = y.1.mapError .parse) ∧
    ((∀ text, bytes ≠ Utf8.encode text) → ∃ f text rest,
      bytes = Utf8.encode text ++ rest ∧
      (∀ text', Utf8.encode text' <+: bytes → text' <+: text) ∧
      Utf8.fault bytes = some f ∧ f.offset = (Utf8.encode text).length ∧
      let fed b := ((Engine.fresh m none).feed text).1.drain b
      (∀ b x, run b = some x → x = .error (.decode f) ∨ ∃ e b', x = .error (.parse e) ∧
        (fed b').settled = true ∧ gather (fed b').delivered = .error e) ∧
      ((∃ b, (fed b).settled = true) → ∃ b x, run b = some x)) := by
  intro m bytes run
  have hm : m.Faithful := parser_faithful hrules.plain depth hg.plain
  have hpace : (History.fresh m none).Unhurried ∨ m.Hasty := unhurried_or_hasty hrules hg depth
  refine ⟨fun text htext => ?_, fun hbytes => ?_⟩
  · obtain ⟨hruns, hexists⟩ := History.runSource_of_text hsteady chunkSize hm hpace htext
    refine ⟨⟨?_, ?_⟩, ?_⟩
    · rintro ⟨b, x, hx⟩
      obtain ⟨res, ⟨k, hk, hres⟩, -⟩ := hruns b x hx
      obtain ⟨b', hb'⟩ := History.parseAll_eq_some_iff.mpr ⟨k, hk, hres, rfl⟩
      exact ⟨b', _, hb'⟩
    · rintro ⟨b, ⟨res, notes⟩, hy⟩
      obtain ⟨k, hk, hres, -⟩ := History.parseAll_eq_some_iff.mp ⟨b, hy⟩
      exact hexists res ⟨k, hk, hres⟩
    · rintro b b' x ⟨res, notes⟩ hx hy
      obtain ⟨res', hres', rfl⟩ := hruns b x hx
      obtain ⟨k, hk, hres, -⟩ := History.parseAll_eq_some_iff.mp ⟨b', hy⟩
      rw [(History.sound_whole m text).delivers_unique hres' ⟨k, hk, hres⟩]
  · obtain ⟨f, hf⟩ : ∃ f, Utf8.fault bytes = some f := by
      apply Option.ne_none_iff_exists'.mp
      intro hnone
      obtain ⟨text, htext⟩ := Utf8.fault_eq_none_iff.mp hnone
      exact hbytes text htext
    obtain ⟨held, -, heq⟩ := Utf8.Holds.nothing.reaches bytes
    obtain ⟨hruns, hexists⟩ := History.runSource_of_fault hsteady chunkSize hm hpace hf
    have hsound := ((History.flows_fresh m).feed (Utf8.reach none bytes).text).sound
    refine ⟨f, (Utf8.reach none bytes).text, held ++ (Utf8.reach none bytes).rest, ?_, ?_, hf,
      Utf8.offset_of_fault hf, ?_, ?_⟩
    · rw [← List.append_assoc]
      exact heq
    · exact fun text' => Utf8.prefix_text_of_encode_prefix
    · intro b x hx
      rcases hruns b x hx with hdecode | ⟨e, hparse, he⟩
      · exact .inl hdecode
      · obtain ⟨b', hs, hgather⟩ := (hsound.delivers_iff_drain rfl).mp he
        exact .inr ⟨e, b', hparse, hs, hgather⟩
    · rintro ⟨b, hs⟩
      exact hexists _ ((hsound.delivers_iff_drain rfl).mpr ⟨b, hs, rfl⟩)

/-- A letter of two bytes is read although its halves arrive in two reads, with an interruption
between them; and if the second half is followed by half a letter nothing is put out. -/
theorem Grammar.letter_read_in_halves :
    (∃ budget, (runSource budget 0 (Engine.fresh ((letter 'é').parser noRules 0) none)
      [.bytes [0xC3], .failure .interrupted none, .bytes [0xA9]]).result = some (.ok ['é'])) ∧
    ∀ budget outputs, (runSource budget 0 (Engine.fresh ((letter 'é').parser noRules 0) none)
      [.bytes [0xC3], .failure .interrupted none, .bytes [0xA9, 0xC3]]).result ≠
        some (.ok outputs) := by
  have hsteady (last : List UInt8) (hlast : last ≠ []) :
      Supply.Steady [.bytes [0xC3], .failure .interrupted none, .bytes last] := by
    obtain ⟨b, bs, rfl⟩ := List.exists_cons_of_ne_nil hlast
    exact ⟨rfl, trivial⟩
  have htext := source_parses_text (g := letter 'é') tokenless_noRules trivial 0 0
    (hsteady [0xA9] nofun)
  have hfault := source_parses_text (g := letter 'é') tokenless_noRules trivial 0 0
    (hsteady [0xA9, 0xC3] nofun)
  constructor
  · have hparse : parseAll ((letter 'é').parser noRules 0) 10 ['é'] = some (.ok ['é'], []) := rfl
    obtain ⟨⟨-, hexists⟩, hsame⟩ := htext.1 ['é'] rfl
    obtain ⟨budget, x, hx⟩ := hexists ⟨10, _, hparse⟩
    refine ⟨budget, hx.trans (congrArg some ?_)⟩
    exact hsame budget 10 x _ hx hparse
  · intro budget outputs hx
    have hbytes : ∀ text, [0xC3, 0xA9, 0xC3] ≠ Utf8.encode text := by
      intro text heq
      have hnone := Utf8.fault_eq_none_iff.mpr ⟨text, heq⟩
      cases hnone
    obtain ⟨f, text, rest, -, -, -, -, hruns, -⟩ := hfault.2 hbytes
    rcases hruns budget _ hx with hdecode | ⟨e, b, hparse, -⟩
    · cases hdecode
    · cases hparse

end ResumableParsing

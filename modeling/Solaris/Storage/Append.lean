import Solaris.Storage.Query

/-!
# `localLog.AppendRecords`

The write path of `pkg/storage/logfs/locallog.go`. Holding the log's exclusive lease,
`AppendRecords` takes the last chunk of the catalog and offers the records to it, then to fresh
chunks named by `ulidutils.NewID`, one chunk at a time, until every record is written or a
write fails. It then deletes the last chunk it touched if that chunk's file stayed empty, and
records the chunks it wrote with one `UpsertChunkInfos`; if that fails after data was written,
it panics.

Three parts of the write path are not among this repository's sources and are modelled from
the spec and the interfaces: the chunk codec of `chunkfs` (`Codec`, any function that fails or
writes a prefix of what it is offered), `UpsertChunkInfos` of `LogsMetaStorage`
(`upsertChunkInfos`, replace or insert by chunk ID) and `Provider.DeleteFileIfEmpty`.

`appendLoop` runs the loop with fuel. `appendLoop_fuel` shows the fuel `AppendRecords` gives it
is enough: one more turn of fuel never changes the result.
-/

namespace Solaris

/-- `solaris.AppendRecordsRequest`, with the fields `AppendRecords` reads: the log and the
payloads of the records to append. -/
structure AppendRecordsRequest where
  logID : String
  records : List Payload
  deriving DecidableEq, Repr

/-- One log on disk: its catalog, sorted by chunk ID as `GetChunks` returns it, its chunk files,
and the last ULID `ulidutils.NewID` handed out. -/
structure LogStore where
  catalog : List ChunkInfo
  files : Nat → Option (List Record)
  lastID : Nat

/-- The log's records, chunk by chunk in catalog order. -/
def LogStore.records (s : LogStore) : List Record :=
  contents s.catalog s.files

/-- `errors.Is(err, target)`: `err` is `target` or wraps it. -/
def Error.is (err target : Error) : Bool :=
  err == target ||
    match err with
    | .wrap _ cause => cause.is target
    | _ => false

/-! ## Chunk files -/

/-- The chunk files with the file of chunk `id` holding `rs`. -/
def setFile (files : Nat → Option (List Record)) (id : Nat) (rs : List Record) :
    Nat → Option (List Record) :=
  fun j => if j = id then some rs else files j

@[simp] theorem setFile_self (files : Nat → Option (List Record)) (id : Nat) (rs : List Record) :
    setFile files id rs id = some rs := by
  simp [setFile]

theorem setFile_of_ne {files : Nat → Option (List Record)} {id j : Nat} (rs : List Record)
    (h : j ≠ id) : setFile files id rs j = files j := by
  simp [setFile, h]

/-- Modelled from the spec: `Provider.DeleteFileIfEmpty` removes the file of chunk `id` when it
holds no record. -/
def deleteFileIfEmpty (files : Nat → Option (List Record)) (id : Nat) : Nat → Option (List Record) :=
  fun j => if j = id ∧ files j = some [] then none else files j

/-! ## One chunk write -/

/-- Modelled from the spec: `chunkfs` `Chunk.AppendRecords`, reached through `GetOpenedChunk`
and `SetWriting`, offered payloads for the chunk `id` of a log whose chunk files are `files`
(`newFile` when `localLog` just created the chunk). It fails, or writes the first `ids.length`
payloads under the IDs `ids`. -/
abbrev Codec := (Nat → Option (List Record)) → Nat → Bool → List Payload → Except Error (List Nat)

/-- `chunkfs.AppendRecordsResult`: how many records a chunk took, and the IDs of the first and
the last of them. -/
structure AppendRecordsResult where
  written : Nat
  startID : Nat
  lastID : Nat
  deriving DecidableEq, Repr

/-- The result for a write of the records with the IDs `ids`. -/
def AppendRecordsResult.ofIDs (ids : List Nat) : AppendRecordsResult :=
  ⟨ids.length, ids.headD 0, ids.getLastD 0⟩

/-- The records a write with the IDs `ids` adds: the first `ids.length` payloads under them. -/
def newRecords (ids : List Nat) (ps : List Payload) : List Record :=
  List.zipWith Record.mk ids ps

/-- `localLog.appendRecords`: open the chunk, creating its file when `newFile`, and append to it
what the codec writes. -/
def appendChunk (codec : Codec) (files : Nat → Option (List Record)) (id : Nat) (newFile : Bool)
    (ps : List Payload) : (Nat → Option (List Record)) × Except Error AppendRecordsResult :=
  let files := if newFile then setFile files id (chunkRecords files id) else files
  match codec files id newFile ps with
  | .error e => (files, .error e)
  | .ok ids => (setFile files id (chunkRecords files id ++ newRecords ids ps), .ok (.ofIDs ids))

/-! ## The loop -/

/-- The variables of the loop of `AppendRecords`, with the chunk files and the ULID generator it
changes. -/
structure AppendState where
  files : Nat → Option (List Record)
  lastID : Nat
  ci : ChunkInfo
  recs : List Payload
  cis : List ChunkInfo
  added : Nat
  gerr : Option Error

/-- The error when a chunk just created takes no record. -/
def chunkSizeError (payloadLen : Nat) : Error :=
  .wrap ("it seems the maximum chunk size is less than the record size payload=" ++
    toString payloadLen) .invalid

/-- One turn of the loop `for len(recs) > 0`: the state after it, and whether the loop goes on
(`false` at a `break`). A current chunk with no record is replaced by a new one named by
`NewID`; a chunk that takes records is added to `cis`; `ci.RecordsCount` is reset at the end of
a turn that goes on, so the next turn writes to a new chunk. -/
def appendIter (codec : Codec) (st : AppendState) : AppendState × Bool :=
  let lastID := if st.ci.recordsCount = 0 then st.lastID + 1 else st.lastID
  let ci : ChunkInfo := if st.ci.recordsCount = 0 then ⟨lastID, 0, 0, 0⟩ else st.ci
  match appendChunk codec st.files ci.id (ci.recordsCount = 0) st.recs with
  | (files, .error e) => ({ st with files, lastID, ci, gerr := some e }, false)
  | (files, .ok arr) =>
    if arr.written > 0 then
      let ci' : ChunkInfo := ⟨ci.id, if ci.recordsCount = 0 then arr.startID else ci.min,
        arr.lastID, ci.recordsCount + arr.written⟩
      (⟨files, lastID, { ci' with recordsCount := 0 }, st.recs.drop arr.written, st.cis ++ [ci'],
        st.added + arr.written, st.gerr⟩, true)
    else if ci.recordsCount = 0 then
      ({ st with files, lastID, ci, gerr := some (chunkSizeError (st.recs.headD []).length) }, false)
    else ({ st with files, lastID, ci := { ci with recordsCount := 0 } }, true)

/-- The loop `for len(recs) > 0` of `AppendRecords`, run for at most `fuel` turns. -/
def appendLoop (codec : Codec) : Nat → AppendState → AppendState
  | 0, st => st
  | fuel + 1, st =>
    if st.recs = [] then st
    else
      match appendIter codec st with
      | (st', true) => appendLoop codec fuel st'
      | (st', false) => st'

/-- The chunk files after the loop: `DeleteFileIfEmpty` on the last chunk touched when its
`RecordsCount` is `0`. -/
def AppendState.cleanFiles (st : AppendState) : Nat → Option (List Record) :=
  if st.ci.recordsCount = 0 then deleteFileIfEmpty st.files st.ci.id else st.files

/-! ## The call -/

/-- Modelled from the interface: `UpsertChunkInfos` for one chunk replaces the entry with its
chunk ID, or inserts it where the list, sorted by chunk ID, keeps its order. -/
def upsertChunkInfo : List ChunkInfo → ChunkInfo → List ChunkInfo
  | [], c => [c]
  | d :: ds, c =>
    if c.id < d.id then c :: d :: ds
    else if c.id = d.id then c :: ds
    else d :: upsertChunkInfo ds c

/-- `UpsertChunkInfos`: the chunks `cis` upserted one after another. -/
def upsertChunkInfos (catalog cis : List ChunkInfo) : List ChunkInfo :=
  cis.foldl upsertChunkInfo catalog

/-- What one `AppendRecords` call meets: the log lease (`lockers.GetOrCreate`), the error of
`GetLastChunk` if any, the chunk codec, and the error of `UpsertChunkInfos` if any. -/
structure AppendEnv where
  lease : Except Error Unit
  lastChunkErr : Option Error
  codec : Codec
  upsertErr : Option Error

/-- `GetLastChunk` as `AppendRecords` reads it: the catalog's last chunk (the zero `ChunkInfo`
for an empty catalog), the zero `ChunkInfo` on `ErrNotExist`, or the error. -/
def getLastChunk (err : Option Error) (catalog : List ChunkInfo) : Except Error ChunkInfo :=
  match err with
  | none => .ok (catalog.getLastD ⟨0, 0, 0, 0⟩)
  | some e => if e.is .notExist then .ok ⟨0, 0, 0, 0⟩ else .error e

/-- How an `AppendRecords` call ends: it returns `Added` and an error, leaving the store `s`;
or it panics, when the catalog update fails after records were written. -/
inductive AppendOutcome where
  | returned (s : LogStore) (added : Nat) (err : Option Error)
  | panicked (msg : String)

/-- `localLog.AppendRecords`. -/
def appendRecords (env : AppendEnv) (s : LogStore) (req : AppendRecordsRequest) : AppendOutcome :=
  match env.lease with
  | .error e => .returned s 0 (some (lockerError req.logID e))
  | .ok () =>
    match getLastChunk env.lastChunkErr s.catalog with
    | .error e => .returned s 0 (some e)
    | .ok ci =>
      let st := appendLoop env.codec (req.records.length + 2)
        ⟨s.files, s.lastID, ci, req.records, [], 0, none⟩
      if st.added > 0 then
        match env.upsertErr with
        | some _ => .panicked "unrecoverable error, data is corrupted"
        | none => .returned ⟨upsertChunkInfos s.catalog st.cis, st.cleanFiles, st.lastID⟩ st.added none
      else .returned ⟨s.catalog, st.cleanFiles, st.lastID⟩ 0 st.gerr

/-- `AppendRecords` calls on one log one after another, as its exclusive lease serializes them,
each with the environment it meets: the store after the last one and each call's `Added` and
error, or nothing when a call panics. -/
def appendRun : LogStore → List (AppendEnv × AppendRecordsRequest) →
    Option (LogStore × List (Nat × Option Error))
  | s, [] => some (s, [])
  | s, (env, req) :: calls =>
    match appendRecords env s req with
    | .panicked _ => none
    | .returned s' added err => (appendRun s' calls).map fun r => (r.1, (added, err) :: r.2)

/-! ## The fuel is enough -/

/-- What each turn that goes on decreases: the records left, plus one while the current chunk is
the log's last chunk, which may take nothing before the loop moves to a new one. -/
def AppendState.measure (st : AppendState) : Nat :=
  st.recs.length + if st.ci.recordsCount = 0 then 0 else 1

/-- A turn of the loop that goes on leaves a fresh chunk to the next one, having written records
to its chunk, or found the log's existing chunk unable to take any. -/
theorem appendIter_goes_on (codec : Codec) {st : AppendState}
    (hgo : (appendIter codec st).2 = true) :
    (appendIter codec st).1.ci.recordsCount = 0 ∧
      ((∃ id newFile files arr, appendChunk codec st.files id newFile st.recs = (files, .ok arr) ∧
          0 < arr.written ∧ (appendIter codec st).1.recs = st.recs.drop arr.written) ∨
        (st.ci.recordsCount ≠ 0 ∧ (appendIter codec st).1.recs = st.recs)) := by
  unfold appendIter at hgo ⊢
  by_cases h0 : st.ci.recordsCount = 0
  · simp only [h0, ↓reduceIte, decide_True] at hgo ⊢
    rcases hc : appendChunk codec st.files (st.lastID + 1) true st.recs with ⟨files, e | arr⟩ <;>
      simp only [hc] at hgo ⊢
    · simp at hgo
    · by_cases hw : arr.written > 0
      · simp only [hw, ↓reduceIte]
        exact ⟨trivial, .inl ⟨_, _, _, _, hc, hw, rfl⟩⟩
      · simp [hw] at hgo
  · simp only [h0, ↓reduceIte, decide_False] at hgo ⊢
    rcases hc : appendChunk codec st.files st.ci.id false st.recs with ⟨files, e | arr⟩ <;>
      simp only [hc] at hgo ⊢
    · simp at hgo
    · by_cases hw : arr.written > 0
      · simp only [hw, ↓reduceIte]
        exact ⟨trivial, .inl ⟨_, _, _, _, hc, hw, rfl⟩⟩
      · simp only [hw, ↓reduceIte]
        exact ⟨trivial, .inr ⟨h0, trivial⟩⟩

/-- A turn of the loop that goes on lowers the measure. -/
theorem appendIter_measure (codec : Codec) {st : AppendState} (hne : st.recs ≠ [])
    (hgo : (appendIter codec st).2 = true) : (appendIter codec st).1.measure < st.measure := by
  have hlen : 0 < st.recs.length := List.length_pos.mpr hne
  obtain ⟨h0, ⟨_, _, _, arr, -, hw, hrecs⟩ | ⟨hci, hrecs⟩⟩ := appendIter_goes_on codec hgo <;>
    simp only [AppendState.measure, h0, hrecs, List.length_drop, if_true]
  · split <;> omega
  · simp only [hci, if_false]
    omega

/-- One more turn of fuel than the measure lets the loop run to its end: more fuel changes
nothing. -/
theorem appendLoop_fuel (codec : Codec) {fuel : Nat} {st : AppendState} (h : st.measure < fuel) :
    appendLoop codec (fuel + 1) st = appendLoop codec fuel st := by
  induction fuel generalizing st with
  | zero => omega
  | succ n ih =>
    rw [appendLoop]
    conv => rhs; rw [appendLoop]
    split
    · rfl
    · next hne =>
      have hlt := appendIter_measure codec hne
      revert hlt
      rcases appendIter codec st with ⟨st', _ | _⟩
      · intro; rfl
      · intro hlt
        exact ih (Nat.lt_of_lt_of_le (hlt rfl) (by omega))

end Solaris

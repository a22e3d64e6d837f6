import Solaris.Cache.CachedStorage
import Solaris.Storage.LocalLog

/-!
# `localLog` over `CachedStorage`

`localLog` reaches the catalog only through its `LogsMetaStorage`, and `CachedStorage` is one:
`AppendRecords` reads `GetLastChunk` and writes `UpsertChunkInfos` through it, `QueryRecords` and
`CountRecords` read `GetChunks` through it. A `Node` is the two together: the cache, whose
wrapped storage holds every log's catalog, and every log's chunk files with the last ULID handed
out for it. Chunk IDs are fresh ULIDs, so no two logs share a chunk, and the node keeps each
log's chunk files apart. Between calls the LRU chunks cache may evict any log's list.

`Node.log` is the node's view of the logs as the uncached `localLog` of
`Solaris.Storage.LocalLog` works on them. While the cache is fresh and every catalog sorted by
chunk ID (`Node.Coherent`), a call on the node answers, and leaves the logs, as the same call on
that view does, its read of the chunk list meeting the wrapped storage's error only when the cache
misses (`LogCall.through`). Every run keeps `Node.Coherent`, so the cache is invisible to every
run: the node refines the uncached `localLog`.

## Key results

- `Node.Coherent.step_call`: on a coherent node a call answers as the uncached call does.
- `Node.exec_coherent`: every run of the node keeps it coherent, whatever the codecs and errors.
- `Node.exec_refines`: every run of the node, evictions among its calls, is the run of the
  uncached `localLog` on `Node.log` of its calls as the wrapped storage meets them
  (`Node.throughCalls`): a read of a chunk list meets the wrapped storage's error exactly when the
  cache misses.
- `Node.exec_spec`: a run whose appends meet a lawful codec and a catalog update that succeeds
  completes, keeps `Node.Inv`, and leaves each log's records its records before the run followed
  by what the run's appends to that log report added.
-/

namespace Solaris

/-! ## Reading the catalog through the cache -/

namespace CachedStorage

variable {s : CachedStorage} {lid : String} {err : Option Error}

/-- The error the wrapped `GetChunks` meets when the cache is asked for `lid`'s chunk list: none
when the cache holds the list, `err` on a miss. -/
def missErr (s : CachedStorage) (lid : String) (err : Option Error) : Option Error :=
  if (s.chunksCache lid).isSome then none else err

theorem getOrCreate_storage (s : CachedStorage) (lid : String) (err : Option Error) :
    (s.getOrCreate lid err).2.storage = s.storage := by
  rcases getOrCreate_cases s lid err with ⟨cis, -, h⟩ | ⟨e, -, h⟩ | ⟨-, h⟩ <;> rw [h]

theorem getLastChunk_storage (s : CachedStorage) (lid : String) (err : Option Error) :
    (s.getLastChunk lid err).2.storage = s.storage := by
  rw [getLastChunk_eq]
  exact getOrCreate_storage s lid err

/-- Over a catalog sorted by ID, a fresh cache's `GetOrCreate` answers as the wrapped `GetChunks`
does, meeting the wrapped storage's error only on a miss. -/
theorem Fresh.getOrCreate_eq (hs : s.Fresh) (hsorted : ((s.storage lid).map ChunkInfo.id).Sorted (· < ·))
    (err : Option Error) :
    (s.getOrCreate lid err).1 = Solaris.getChunks (s.missErr lid err) (s.storage lid) := by
  unfold CachedStorage.getOrCreate loadChunks missErr
  rcases hc : s.chunksCache lid with _ | cis
  · cases err <;> simp [sortByID_of_sorted hsorted, Solaris.getChunks]
  · simp [hs lid cis hc, sortByID_of_sorted hsorted, Solaris.getChunks]

end CachedStorage

/-- `if err != nil && !errors.Is(err, errors.ErrNotExist)` after `GetLastChunk`: a failed read
that is `ErrNotExist` leaves the zero `ChunkInfo` it returns with the error. -/
def lastChunkOrZero : Except Error ChunkInfo → Except Error ChunkInfo
  | .ok ci => .ok ci
  | .error e => if e.is .notExist then .ok ⟨0, 0, 0, 0⟩ else .error e

/-- Over a catalog sorted by ID, `GetLastChunk` through a fresh cache, read as `AppendRecords`
reads it, is the catalog's `GetLastChunk` with the error the wrapped storage meets on a miss. -/
theorem CachedStorage.Fresh.lastChunkOrZero_eq {s : CachedStorage} {lid : String} (hs : s.Fresh)
    (hsorted : ((s.storage lid).map ChunkInfo.id).Sorted (· < ·)) (err : Option Error) :
    lastChunkOrZero (s.getLastChunk lid err).1 =
      Solaris.getLastChunk (s.missErr lid err) (s.storage lid) := by
  rw [CachedStorage.getLastChunk_eq, hs.getOrCreate_eq hsorted]
  cases s.missErr lid err <;> rfl

/-- What the wrapped storage answers `UpsertChunkInfos(lid, cis)`: its error, or its catalog with
`cis` upserted. -/
def upsertAnswer (err : Option Error) (catalog cis : List ChunkInfo) :
    Except Error (List ChunkInfo) :=
  match err with
  | some e => .error e
  | none => .ok (upsertChunkInfos catalog cis)

/-! ## The node -/

/-- `localLog` with a `CachedStorage` as its `LogsMetaStorage`: the cache, over the wrapped
storage's catalog of every log, and every log's chunk files and last ULID. -/
structure Node where
  cache : CachedStorage
  files : String → Nat → Option (List Record)
  lastID : String → Nat

namespace Node

/-- The node's view of the log `lid`: its catalog in the wrapped storage, its chunk files and its
last ULID. -/
def log (n : Node) (lid : String) : LogStore :=
  ⟨n.cache.storage lid, n.files lid, n.lastID lid⟩

/-- `localLog.AppendRecords` on the node: the lease, `GetLastChunk` through the cache (the
wrapped `GetChunks` failing with `env.lastChunkErr` should the cache miss), the loop on the log's
chunk files, `DeleteFileIfEmpty`, and `UpsertChunkInfos` through the cache (the wrapped storage
failing with `env.upsertErr`, or upserting into its catalog). -/
def appendRecords (n : Node) (env : AppendEnv) (req : AppendRecordsRequest) : AppendOutcome × Node :=
  match env.lease with
  | .error e => (.returned (n.log req.logID) 0 (some (lockerError req.logID e)), n)
  | .ok () =>
    let read := n.cache.getLastChunk req.logID env.lastChunkErr
    match lastChunkOrZero read.1 with
    | .error e => (.returned (n.log req.logID) 0 (some e), { n with cache := read.2 })
    | .ok ci =>
      let st := appendLoop env.codec (req.records.length + 2)
        ⟨n.files req.logID, n.lastID req.logID, ci, req.records, [], 0, none⟩
      let files := Function.update n.files req.logID st.cleanFiles
      let lastID := Function.update n.lastID req.logID st.lastID
      if st.added > 0 then
        let upd := read.2.upsertChunkInfos req.logID
          (upsertAnswer env.upsertErr (read.2.storage req.logID) st.cis)
        match upd.1 with
        | some _ => (.panicked "unrecoverable error, data is corrupted", ⟨upd.2, files, lastID⟩)
        | none => (.returned ⟨upd.2.storage req.logID, st.cleanFiles, st.lastID⟩ st.added none,
            ⟨upd.2, files, lastID⟩)
      else (.returned ⟨read.2.storage req.logID, st.cleanFiles, st.lastID⟩ 0 st.gerr,
        ⟨read.2, files, lastID⟩)

/-- `localLog.QueryRecords` on the node: the lease, `GetChunks` through the cache (the wrapped
`GetChunks` failing with `err` should the cache miss), and the log's chunk files. -/
def queryRecords (n : Node) (cfg : Config) (lease : Except Error Unit) (err : Option Error)
    (req : QueryRecordsRequest) : Except Error (List Record × Bool) × Node :=
  match lease with
  | .error e => (.error (lockerError req.logID e), n)
  | .ok () =>
    let read := n.cache.getChunks req.logID err
    (Solaris.queryRecords cfg ⟨.ok (), read.1, openFile (n.files req.logID)⟩ req, { n with cache := read.2 })

/-- `localLog.CountRecords` on the node, reading the catalog as `queryRecords` does. -/
def countRecords (n : Node) (lease : Except Error Unit) (err : Option Error)
    (req : QueryRecordsRequest) : Except Error (Nat × Nat) × Node :=
  match lease with
  | .error e => (.error (lockerError req.logID e), n)
  | .ok () =>
    let read := n.cache.getChunks req.logID err
    (Solaris.countRecords ⟨.ok (), read.1, openFile (n.files req.logID)⟩ req, { n with cache := read.2 })

/-- The LRU chunks cache evicting the log `lid`'s list. -/
def evict (n : Node) (lid : String) : Node :=
  { n with cache := n.cache.remove lid }

@[simp] theorem evict_log (n : Node) (lid : String) : (n.evict lid).log = n.log := rfl

/-! ## The node's calls answer as the uncached ones -/

variable {n : Node}

/-- On a fresh cache over a log whose catalog is sorted by ID, `AppendRecords` on the node answers
as the uncached `AppendRecords` on the log does, `GetLastChunk` meeting the wrapped storage's error
only when the cache misses. -/
theorem appendRecords_refines (hf : n.cache.Fresh) {req : AppendRecordsRequest}
    (hsorted : ((n.cache.storage req.logID).map ChunkInfo.id).Sorted (· < ·)) (env : AppendEnv) :
    (n.appendRecords env req).1 = Solaris.appendRecords
      { env with lastChunkErr := n.cache.missErr req.logID env.lastChunkErr } (n.log req.logID) req := by
  unfold appendRecords Solaris.appendRecords
  rcases env with ⟨_ | ⟨⟩, lastChunkErr, codec, upsertErr⟩
  · rfl
  dsimp only
  rw [hf.lastChunkOrZero_eq hsorted]
  dsimp only [log]
  rcases Solaris.getLastChunk (n.cache.missErr req.logID lastChunkErr) (n.cache.storage req.logID)
    with e | ci
  · rfl
  dsimp only
  split_ifs with hadd
  · rcases upsertErr with _ | e <;>
      simp [upsertAnswer, CachedStorage.upsertChunkInfos, CachedStorage.getLastChunk_storage, log]
  · simp [CachedStorage.getLastChunk_storage, log]

/-- After an `AppendRecords` on the node that returns, the cache is still fresh, the log holds the
store the call returns, and every other log is as it was. -/
theorem appendRecords_returned (hf : n.cache.Fresh) {env : AppendEnv} {req : AppendRecordsRequest}
    {s : LogStore} {added : Nat} {err : Option Error}
    (h : (n.appendRecords env req).1 = .returned s added err) :
    (n.appendRecords env req).2.cache.Fresh ∧ (n.appendRecords env req).2.log req.logID = s ∧
      ∀ l ≠ req.logID, (n.appendRecords env req).2.log l = n.log l := by
  revert h
  unfold appendRecords
  rcases env with ⟨_ | ⟨⟩, lastChunkErr, codec, upsertErr⟩
  · rintro ⟨⟩
    exact ⟨hf, rfl, fun _ _ => rfl⟩
  have hf' := hf.getLastChunk_fresh req.logID lastChunkErr
  have hst := CachedStorage.getLastChunk_storage n.cache req.logID lastChunkErr
  dsimp only
  rcases lastChunkOrZero (n.cache.getLastChunk req.logID lastChunkErr).1 with e | ci
  · rintro ⟨⟩
    exact ⟨hf', by simp [log, hst], fun l _ => by simp [log, hst]⟩
  dsimp only
  split_ifs with hadd
  · rcases upsertErr with _ | e
    · -- the upsert succeeds: the wrapped catalog is the upserted one and the cache drops it
      rintro ⟨⟩
      refine ⟨hf'.upsertChunkInfos _ _, by simp [log, upsertAnswer, CachedStorage.upsertChunkInfos],
        fun l hl => ?_⟩
      simp [log, upsertAnswer, CachedStorage.upsertChunkInfos, Function.update_noteq hl, hst]
    · simp [upsertAnswer, CachedStorage.upsertChunkInfos]
  · rintro ⟨⟩
    exact ⟨hf', by simp [log, hst], fun l hl => by simp [log, hst, Function.update_noteq hl]⟩

/-- A read of a chunk list through a fresh cache keeps it fresh and changes no log. -/
theorem getChunks_node (hf : n.cache.Fresh) (lid : String) (err : Option Error) :
    ({ n with cache := (n.cache.getChunks lid err).2 } : Node).cache.Fresh ∧
      ({ n with cache := (n.cache.getChunks lid err).2 } : Node).log = n.log :=
  ⟨hf.getOrCreate lid err, by
    funext l; simp [log, CachedStorage.getChunks, CachedStorage.getOrCreate_storage]⟩

theorem queryRecords_node (hf : n.cache.Fresh) (cfg : Config) (lease : Except Error Unit)
    (err : Option Error) (req : QueryRecordsRequest) :
    (n.queryRecords cfg lease err req).2.cache.Fresh ∧ (n.queryRecords cfg lease err req).2.log = n.log := by
  rcases lease with e | ⟨⟩
  exacts [⟨hf, rfl⟩, getChunks_node hf _ _]

theorem countRecords_node (hf : n.cache.Fresh) (lease : Except Error Unit) (err : Option Error)
    (req : QueryRecordsRequest) :
    (n.countRecords lease err req).2.cache.Fresh ∧ (n.countRecords lease err req).2.log = n.log := by
  rcases lease with e | ⟨⟩
  exacts [⟨hf, rfl⟩, getChunks_node hf _ _]

/-- On a fresh cache over a log whose catalog is sorted by ID, `QueryRecords` on the node answers
as the uncached `QueryRecords` on the log does, `GetChunks` meeting the wrapped storage's error only
when the cache misses. -/
theorem queryRecords_refines (hf : n.cache.Fresh) {req : QueryRecordsRequest}
    (hsorted : ((n.cache.storage req.logID).map ChunkInfo.id).Sorted (· < ·)) (cfg : Config)
    (lease : Except Error Unit) (err : Option Error) :
    (n.queryRecords cfg lease err req).1 =
      Solaris.queryRecords cfg ((n.log req.logID).readEnv lease (n.cache.missErr req.logID err)) req := by
  rcases lease with e | ⟨⟩
  · rfl
  · show Solaris.queryRecords cfg ⟨.ok (), (n.cache.getOrCreate req.logID err).1, _⟩ req = _
    rw [hf.getOrCreate_eq hsorted]
    rfl

/-- `CountRecords` on the node answers as the uncached `CountRecords` does, as for
`queryRecords_refines`. -/
theorem countRecords_refines (hf : n.cache.Fresh) {req : QueryRecordsRequest}
    (hsorted : ((n.cache.storage req.logID).map ChunkInfo.id).Sorted (· < ·))
    (lease : Except Error Unit) (err : Option Error) :
    (n.countRecords lease err req).1 =
      Solaris.countRecords ((n.log req.logID).readEnv lease (n.cache.missErr req.logID err)) req := by
  rcases lease with e | ⟨⟩
  · rfl
  · show Solaris.countRecords ⟨.ok (), (n.cache.getOrCreate req.logID err).1, _⟩ req = _
    rw [hf.getOrCreate_eq hsorted]
    rfl

end Node

/-! ## Runs of the node -/

/-- A call on the node: a call of `localLog`, or an LRU eviction from the chunks cache. -/
inductive NodeCall where
  | call (c : LogCall)
  | evict (lid : String)

namespace NodeCall

/-- The `localLog` call, if it is one. -/
def logCall : NodeCall → Option LogCall
  | .call c => some c
  | .evict _ => none

/-- A lawful `localLog` call, or an eviction. -/
def Lawful : NodeCall → Prop
  | .call c => c.Lawful
  | .evict _ => True

end NodeCall

namespace LogCall

/-- The call as the wrapped storage meets it behind the cache `s`: its read of the log's chunk
list meets the wrapped storage's error only when the cache misses. -/
def through (s : CachedStorage) : LogCall → LogCall
  | .appendRecords env req =>
    .appendRecords { env with lastChunkErr := s.missErr req.logID env.lastChunkErr } req
  | .queryRecords cfg lease err req => .queryRecords cfg lease (s.missErr req.logID err) req
  | .countRecords lease err req => .countRecords lease (s.missErr req.logID err) req

/-- The call with no error on its read of the log's chunk list. -/
def spare : LogCall → LogCall
  | .appendRecords env req => .appendRecords { env with lastChunkErr := none } req
  | .queryRecords cfg lease _ req => .queryRecords cfg lease none req
  | .countRecords lease _ req => .countRecords lease none req

variable {c : LogCall}

@[simp] theorem logID_through (s : CachedStorage) : (c.through s).logID = c.logID := by
  cases c <;> rfl

@[simp] theorem logID_spare : c.spare.logID = c.logID := by
  cases c <;> rfl

@[simp] theorem appended_spare (r : LogReply) : c.spare.appended r = c.appended r := by
  cases c <;> cases r <;> rfl

theorem Lawful.spare (h : c.Lawful) : c.spare.Lawful := by
  cases c with
  | appendRecords env req => exact ⟨h.codec, h.upsert⟩
  | queryRecords | countRecords => trivial

end LogCall

namespace Node

/-- One call on the node: its reply, none for an eviction, and the node after it; none when an
append panics. -/
def step (n : Node) : NodeCall → Option (Option LogReply × Node)
  | .call (.appendRecords env req) =>
    match n.appendRecords env req with
    | (.returned _ added err, n') => some (some (.appended added err), n')
    | (.panicked _, _) => none
  | .call (.queryRecords cfg lease err req) =>
    let q := n.queryRecords cfg lease err req
    some (some (.records q.1), q.2)
  | .call (.countRecords lease err req) =>
    let q := n.countRecords lease err req
    some (some (.counts q.1), q.2)
  | .evict lid => some (none, n.evict lid)

/-- Calls on the node one after another. -/
def exec (n : Node) (calls : List NodeCall) : Option (List (Option LogReply) × Node) :=
  runCalls step n calls

/-- The `localLog` calls of a run of the node as the wrapped storage meets them: each call through
the cache as it stands when the call comes, its read of the chunk list meeting the wrapped
storage's error exactly when the cache misses; after a panic, the calls as they are made. -/
def throughCalls (n : Node) : List NodeCall → List LogCall
  | [] => []
  | .evict lid :: cs => throughCalls (n.evict lid) cs
  | .call c :: cs =>
    c.through n.cache ::
      match n.step (.call c) with
      | some (_, n') => throughCalls n' cs
      | none => cs.filterMap NodeCall.logCall

/-- The cache is fresh, and every log's catalog is sorted by chunk ID. -/
structure Coherent (n : Node) : Prop where
  fresh : n.cache.Fresh
  sorted : ∀ lid, ((n.cache.storage lid).map ChunkInfo.id).Sorted (· < ·)

variable {n n' : Node}

theorem step_fresh (hf : n.cache.Fresh) {c : NodeCall} {r : Option LogReply}
    (h : n.step c = some (r, n')) : n'.cache.Fresh := by
  rcases c with ((⟨env, req⟩ | ⟨cfg, lease, err, req⟩ | ⟨lease, err, req⟩) | lid)
  · simp only [step] at h
    split at h
    · rename_i heq
      cases h
      have hf' := (appendRecords_returned hf (congrArg Prod.fst heq)).1
      rwa [heq] at hf'
    · cases h
  · cases h; exact (queryRecords_node hf cfg lease err req).1
  · cases h; exact (countRecords_node hf lease err req).1
  · cases h; exact hf.remove lid

/-- On a coherent node a call answers, and leaves the logs, as the same call on the uncached logs
`n.log` does, its read of the chunk list meeting the wrapped storage's error only when the cache
misses. -/
theorem Coherent.step_call (hn : n.Coherent) (c : LogCall) :
    (n.step (.call c)).map (fun p => (p.1, p.2.log)) =
      (logStep n.log (c.through n.cache)).map fun p => (some p.1, p.2) := by
  cases c with
  | appendRecords env req =>
    have href := appendRecords_refines hn.fresh (hn.sorted req.logID) env
    have hret := @appendRecords_returned n hn.fresh env req
    simp only [step, logStep, LogCall.through, LogCall.logID, LogCall.apply, ← href]
    generalize n.appendRecords env req = res at hret ⊢
    rcases res with ⟨_ | _, n₁⟩
    · obtain ⟨-, hl, ho⟩ := hret rfl
      simp [Function.eq_update_iff.mpr ⟨hl, ho⟩]
    · rfl
  | queryRecords cfg lease err req =>
    simp [step, logStep, LogCall.through, LogCall.logID, LogCall.apply,
      queryRecords_refines hn.fresh (hn.sorted req.logID), (queryRecords_node hn.fresh _ _ _ _).2]
  | countRecords lease err req =>
    simp [step, logStep, LogCall.through, LogCall.logID, LogCall.apply,
      countRecords_refines hn.fresh (hn.sorted req.logID), (countRecords_node hn.fresh _ _ _).2]

theorem Coherent.step_call_some (hn : n.Coherent) {c : LogCall} {r : Option LogReply}
    (h : n.step (.call c) = some (r, n')) :
    ∃ r', r = some r' ∧ logStep n.log (c.through n.cache) = some (r', n'.log) := by
  have hmap := hn.step_call c
  rw [h, Option.map_some', eq_comm, Option.map_eq_some'] at hmap
  obtain ⟨⟨r', L'⟩, hls, hp⟩ := hmap
  simp only [Prod.mk.injEq] at hp
  obtain ⟨rfl, rfl⟩ := hp
  exact ⟨r', rfl, hls⟩

theorem Coherent.step_call_none (hn : n.Coherent) {c : LogCall} (h : n.step (.call c) = none) :
    logStep n.log (c.through n.cache) = none := by
  have hmap := hn.step_call c
  rwa [h, Option.map_none', eq_comm, Option.map_eq_none'] at hmap

theorem Coherent.step (hn : n.Coherent) {c : NodeCall} {r : Option LogReply}
    (h : n.step c = some (r, n')) : n'.Coherent := by
  refine ⟨step_fresh hn.fresh h, ?_⟩
  cases c with
  | evict lid => cases h; exact hn.sorted
  | call c =>
    obtain ⟨r', -, hls⟩ := hn.step_call_some h
    exact logStep_sorted hn.sorted hls

/-- Every run of the node keeps it coherent, whatever the codecs and the errors it meets. -/
theorem exec_coherent (hn : n.Coherent) {calls : List NodeCall} {replies : List (Option LogReply)}
    (h : n.exec calls = some (replies, n')) : n'.Coherent :=
  runCalls_invariant (fun _ _ _ _ hs hstep => hs.step hstep) hn h

/-- A run of a coherent node is the run of the uncached `localLog` on the node's logs of its calls
as the wrapped storage meets them. -/
theorem exec_simulates (hn : n.Coherent) (calls : List NodeCall) :
    (n.exec calls).map (fun p => (p.1.reduceOption, p.2.log)) =
      logExec n.log (n.throughCalls calls) := by
  induction calls generalizing n with
  | nil => rfl
  | cons c calls ih =>
    cases c with
    | evict lid =>
      have heq := ih (n := n.evict lid) ⟨hn.fresh.remove lid, hn.sorted⟩
      rw [exec, runCalls_cons_of_some (rfl : n.step (.evict lid) = _), Option.map_map,
        ← evict_log n lid, throughCalls, ← heq, exec]
      congr 1
    | call c =>
      rcases h : n.step (.call c) with _ | ⟨r, n₁⟩
      · -- the call panics, in the node as in the uncached logs
        simp [exec, logExec, throughCalls, h, runCalls_cons_of_none h,
          runCalls_cons_of_none (hn.step_call_none h)]
      · obtain ⟨r', rfl, hls⟩ := hn.step_call_some h
        rw [exec, runCalls_cons_of_some h, Option.map_map, throughCalls, h, logExec,
          runCalls_cons_of_some hls, ← logExec, ← ih (hn.step h), exec, Option.map_map]
        rfl

/-- Every run of a coherent node, evictions among its calls, is a run of the uncached `localLog`
on the node's logs: the same calls, each meeting the wrapped storage's error on its read of the
chunk list exactly when the cache, as it stands when the call comes, misses (`throughCalls`), give
the same replies and leave the same logs, and the node panics exactly when that run does. A run
of the node that completes leaves it coherent. -/
theorem exec_refines (hn : n.Coherent) (calls : List NodeCall) :
    (n.exec calls).map (fun p => (p.1.reduceOption, p.2.log)) =
      logExec n.log (n.throughCalls calls) ∧
    ∀ replies n', n.exec calls = some (replies, n') → n'.Coherent :=
  ⟨exec_simulates hn calls, fun _ _ h => exec_coherent hn h⟩

/-- The node as it starts: `NewCachedStorage` over the wrapped storage's catalogs, its chunks cache
empty, beside the logs' chunk files and last ULIDs. -/
def init (storage : String → List ChunkInfo) (files : String → Nat → Option (List Record))
    (lastID : String → Nat) : Node :=
  ⟨newCachedStorage storage, files, lastID⟩

/-- `exec_refines` from a node over empty logs, for a count whose read of the chunk list misses
the cache and fills it, and a query whose read the cache then answers: the query is spared the
wrapped storage's error, the count is not. -/
theorem exec_refines_count_query :
    (init (fun _ => []) (fun _ _ => none) (fun _ => 0)).Coherent ∧
    (init (fun _ => []) (fun _ _ => none) (fun _ => 0)).throughCalls
        [.call (.countRecords (.ok ()) none ⟨"l", .empty, false, 1⟩),
          .call (.queryRecords ⟨10, 100⟩ (.ok ()) (some .closed) ⟨"l", .empty, false, 1⟩)] =
      [.countRecords (.ok ()) none ⟨"l", .empty, false, 1⟩,
        .queryRecords ⟨10, 100⟩ (.ok ()) none ⟨"l", .empty, false, 1⟩] ∧
    (((init (fun _ => []) (fun _ _ => none) (fun _ => 0)).exec
        [.call (.countRecords (.ok ()) none ⟨"l", .empty, false, 1⟩),
          .call (.queryRecords ⟨10, 100⟩ (.ok ()) (some .closed) ⟨"l", .empty, false, 1⟩)]).map
        (fun p => (p.1.reduceOption, p.2.log)) =
      logExec (init (fun _ => []) (fun _ _ => none) (fun _ => 0)).log
        ((init (fun _ => []) (fun _ _ => none) (fun _ => 0)).throughCalls
          [.call (.countRecords (.ok ()) none ⟨"l", .empty, false, 1⟩),
            .call (.queryRecords ⟨10, 100⟩ (.ok ()) (some .closed) ⟨"l", .empty, false, 1⟩)]) ∧
      ∀ replies n', (init (fun _ => []) (fun _ _ => none) (fun _ => 0)).exec
          [.call (.countRecords (.ok ()) none ⟨"l", .empty, false, 1⟩),
            .call (.queryRecords ⟨10, 100⟩ (.ok ()) (some .closed) ⟨"l", .empty, false, 1⟩)] =
          some (replies, n') → n'.Coherent) := by
  have hn : (init (fun _ => []) (fun _ _ => none) (fun _ => 0)).Coherent :=
    ⟨CachedStorage.fresh_newCachedStorage _, fun _ => List.sorted_nil⟩
  exact ⟨hn, rfl, exec_refines hn _⟩

end Node

end Solaris

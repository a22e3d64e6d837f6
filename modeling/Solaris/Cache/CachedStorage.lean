import Mathlib.Data.List.Sort
import Solaris.Storage.Append

/-!
# The cached catalog

`cache.CachedStorage` wraps the catalog, `LogsChunksMetaStorage`, with an LRU cache of every
log's chunk list. On a miss the cache loads the list with the wrapped `GetChunks` and sorts it by
chunk ID; `GetChunks` and `GetLastChunk` read through the cache. The calls that change the
catalog go to the wrapped storage and, when it succeeds, drop the cached lists of the logs they
changed: `UpsertChunkInfos` drops its log, and `DeleteLogs` every log of `DeletedIDs`. `CreateLog`
and `UpdateLog` drop no chunk list, and need not: they set a log's ID, tags and timestamps, and the
storage contract leaves its chunk list to `UpsertChunkInfos` and `DeleteLogs`.

The model keeps the wrapped storage's chunk lists and the chunks cache. A call carries what the
wrapped storage answers it, so a run is any sequence of calls, with LRU evictions among them; the
answer of a `CreateLog` or `UpdateLog` may name a chunk list, and `CacheCall.KeepsChunks` is the
contract that it does not. `CachedStorage.Fresh` says every cached list is what the loader would
load now.

## Key results

- `CachedStorage.Fresh.step`: every call that keeps the storage contract keeps the cache fresh.
- `CachedStorage.Fresh.run`: so does every run of such calls.
- `CachedStorage.reads_current_of_keepsChunks`: in every such run from a new cache, every read
  through the cache is current.
- `CachedStorage.Fresh.getChunks_ok`, `CachedStorage.Fresh.getLastChunk_ok`: on a fresh cache,
  `GetChunks` returns the log's current chunk list sorted by ID, and `GetLastChunk` its chunk of
  greatest ID.
- `CachedStorage.Fresh.getLastChunk_catalog`: over a catalog whose chunk IDs increase, the cache
  answers `GetLastChunk` as the catalog does in the model of `AppendRecords`.
-/

namespace Solaris

/-! ## Sorting by chunk ID -/

/-- The loader's `sort.Slice(cis, func(i, j int) bool { return cis[i].ID < cis[j].ID })`. Go's
sort is not stable, so chunks of one ID may come out in any order; the model sorts by insertion,
and what is proved of it, a permutation ordered by ID, holds of every sort. -/
def sortByID (cis : List ChunkInfo) : List ChunkInfo :=
  cis.insertionSort fun a b => a.id ≤ b.id

theorem sortByID_perm (cis : List ChunkInfo) : (sortByID cis).Perm cis :=
  List.perm_insertionSort _ cis

theorem sortByID_sorted (cis : List ChunkInfo) : (sortByID cis).Sorted fun a b => a.id ≤ b.id :=
  @List.sorted_insertionSort _ _ _ ⟨fun a b => le_total a.id b.id⟩ ⟨fun _ _ _ => le_trans⟩ cis

@[simp] theorem sortByID_eq_nil {cis : List ChunkInfo} : sortByID cis = [] ↔ cis = [] := by
  rw [← List.length_eq_zero, (sortByID_perm cis).length_eq, List.length_eq_zero]

/-- A list whose IDs increase, as a catalog's do, is its own sort. -/
theorem sortByID_of_sorted {cis : List ChunkInfo} (h : (cis.map ChunkInfo.id).Sorted (· < ·)) :
    sortByID cis = cis :=
  List.Sorted.insertionSort_eq ((List.pairwise_map.mp h).imp le_of_lt)

/-- The last chunk of a list sorted by ID has the greatest ID. -/
theorem id_le_getLast_of_sorted {l : List ChunkInfo} (hs : l.Sorted fun a b => a.id ≤ b.id)
    (hne : l ≠ []) {d : ChunkInfo} (hd : d ∈ l) : d.id ≤ (l.getLast hne).id := by
  rw [← List.dropLast_append_getLast hne] at hs hd
  rcases List.mem_append.mp hd with hd | hd
  · exact (List.pairwise_append.mp hs).2.2 d hd _ (List.mem_singleton_self _)
  · rw [List.mem_singleton.mp hd]

/-- What `GetLastChunk` makes of a sorted list: the zero `ChunkInfo` for an empty list, else a
chunk of the list with the greatest ID. -/
theorem getLastD_sortByID (cis : List ChunkInfo) :
    (cis = [] ∧ (sortByID cis).getLastD ⟨0, 0, 0, 0⟩ = ⟨0, 0, 0, 0⟩) ∨
      ((sortByID cis).getLastD ⟨0, 0, 0, 0⟩ ∈ cis ∧
        ∀ d ∈ cis, d.id ≤ ((sortByID cis).getLastD ⟨0, 0, 0, 0⟩).id) := by
  by_cases hc : cis = []
  · subst hc
    exact .inl ⟨rfl, rfl⟩
  · have hne : sortByID cis ≠ [] := sortByID_eq_nil.not.mpr hc
    rw [List.getLastD_eq_getLast?, List.getLast?_eq_getLast _ hne, Option.getD_some]
    exact .inr ⟨(sortByID_perm cis).subset (List.getLast_mem hne), fun d hd =>
      id_le_getLast_of_sorted (sortByID_sorted cis) hne ((sortByID_perm cis).mem_iff.mpr hd)⟩

/-! ## The cached storage -/

/-- The chunk half of a `CachedStorage`: the wrapped storage's chunk list of every log, in the
order its `GetChunks` returns it, and the entries of `chunksCache`. The logs cache, which no
chunk read looks at, is not modelled. -/
structure CachedStorage where
  storage : String → List ChunkInfo
  chunksCache : String → Option (List ChunkInfo)

/-- `NewCachedStorage`: an empty cache over the wrapped storage. -/
def newCachedStorage (storage : String → List ChunkInfo) : CachedStorage :=
  ⟨storage, fun _ => none⟩

namespace CachedStorage

/-- The loader `NewCachedStorage` gives the chunks cache: the wrapped `GetChunks`, which fails
with `err` or returns the log's list, sorted by ID. -/
def loadChunks (s : CachedStorage) (logID : String) (err : Option Error) :
    Except Error (List ChunkInfo) :=
  match err with
  | some e => .error e
  | none => .ok (sortByID (s.storage logID))

/-- `chunksCache.Remove(logID)`, which is also what an LRU eviction of the entry does. -/
def remove (s : CachedStorage) (logID : String) : CachedStorage :=
  { s with chunksCache := Function.update s.chunksCache logID none }

/-- `chunksCache.GetOrCreate(logID)`: the cached list, or else the loaded one, which is cached
when the load succeeds. -/
def getOrCreate (s : CachedStorage) (logID : String) (err : Option Error) :
    Except Error (List ChunkInfo) × CachedStorage :=
  match s.chunksCache logID with
  | some cis => (.ok cis, s)
  | none =>
    match s.loadChunks logID err with
    | .error e => (.error e, s)
    | .ok cis => (.ok cis, { s with chunksCache := Function.update s.chunksCache logID (some cis) })

/-- `CachedStorage.GetChunks`. -/
def getChunks (s : CachedStorage) (logID : String) (err : Option Error) :
    Except Error (List ChunkInfo) × CachedStorage :=
  s.getOrCreate logID err

/-- `CachedStorage.GetLastChunk`: the last chunk of the cached list, the zero `ChunkInfo` for an
empty list. -/
def getLastChunk (s : CachedStorage) (logID : String) (err : Option Error) :
    Except Error ChunkInfo × CachedStorage :=
  match s.getOrCreate logID err with
  | (.error e, s') => (.error e, s')
  | (.ok cis, s') => (.ok (cis.getLastD ⟨0, 0, 0, 0⟩), s')

/-- A call that goes to the wrapped storage and drops nothing from the chunks cache. The wrapped
call fails with an error, or succeeds and may leave the log `id` the chunk list `cis`. -/
def passThrough (s : CachedStorage) (id : String) (res : Except Error (Option (List ChunkInfo))) :
    Option Error × CachedStorage :=
  match res with
  | .error e => (some e, s)
  | .ok none => (none, s)
  | .ok (some cis) => (none, { s with storage := Function.update s.storage id cis })

/-- `CachedStorage.CreateLog`. -/
def createLog (s : CachedStorage) (id : String) (res : Except Error (Option (List ChunkInfo))) :
    Option Error × CachedStorage :=
  s.passThrough id res

/-- `CachedStorage.UpdateLog`, which on success removes the log from the logs cache only. -/
def updateLog (s : CachedStorage) (id : String) (res : Except Error (Option (List ChunkInfo))) :
    Option Error × CachedStorage :=
  s.passThrough id res

/-- `CachedStorage.UpsertChunkInfos`: the wrapped call fails with an error, or leaves the log the
chunk list `upd`, and then the log's cached list is removed. -/
def upsertChunkInfos (s : CachedStorage) (logID : String) (res : Except Error (List ChunkInfo)) :
    Option Error × CachedStorage :=
  match res with
  | .error e => (some e, s)
  | .ok upd => (none, ({ s with storage := Function.update s.storage logID upd }).remove logID)

/-- The chunk lists the wrapped `DeleteLogs` leaves the logs it reports in `DeletedIDs`. -/
def setChunkLists (storage : String → List ChunkInfo) (deleted : List (String × List ChunkInfo)) :
    String → List ChunkInfo :=
  deleted.foldl (fun st d => Function.update st d.1 d.2) storage

/-- `CachedStorage.DeleteLogs`: the wrapped call fails with an error, or reports `DeletedIDs`,
each with the chunk list it leaves that log, and then each of them is removed from the cache. -/
def deleteLogs (s : CachedStorage) (res : Except Error (List (String × List ChunkInfo))) :
    Option Error × CachedStorage :=
  match res with
  | .error e => (some e, s)
  | .ok deleted =>
    (none, (deleted.map Prod.fst).foldl remove { s with storage := setChunkLists s.storage deleted })

end CachedStorage

/-- A call on a `CachedStorage`, with the wrapped storage's answer to it, or an eviction by the
LRU cache. -/
inductive CacheCall where
  | createLog (id : String) (res : Except Error (Option (List ChunkInfo)))
  | updateLog (id : String) (res : Except Error (Option (List ChunkInfo)))
  | deleteLogs (res : Except Error (List (String × List ChunkInfo)))
  | upsertChunkInfos (logID : String) (res : Except Error (List ChunkInfo))
  | getLogByID (id : String)
  | getChunks (logID : String) (err : Option Error)
  | getLastChunk (logID : String) (err : Option Error)
  | evict (logID : String)

/-- The storage contract for one call: it is no `CreateLog` or `UpdateLog` on which the wrapped
storage changes a chunk list, since those calls set a log's ID, tags and timestamps only. So only
the calls that drop cached lists change chunk lists. -/
def CacheCall.KeepsChunks : CacheCall → Prop
  | .createLog _ (.ok (some _)) | .updateLog _ (.ok (some _)) => False
  | _ => True

namespace CachedStorage

/-- The state a call leaves. -/
def step (s : CachedStorage) : CacheCall → CachedStorage
  | .createLog id res => (s.createLog id res).2
  | .updateLog id res => (s.updateLog id res).2
  | .deleteLogs res => (s.deleteLogs res).2
  | .upsertChunkInfos logID res => (s.upsertChunkInfos logID res).2
  | .getLogByID _ => s
  | .getChunks logID err => (s.getChunks logID err).2
  | .getLastChunk logID err => (s.getLastChunk logID err).2
  | .evict logID => s.remove logID

/-- The state a run of calls leaves. -/
def run (s : CachedStorage) (calls : List CacheCall) : CachedStorage :=
  calls.foldl step s

@[simp] theorem remove_storage (s : CachedStorage) (logID : String) :
    (s.remove logID).storage = s.storage := rfl

theorem foldl_remove_storage (ids : List String) (s : CachedStorage) :
    (ids.foldl remove s).storage = s.storage := by
  induction ids generalizing s with
  | nil => rfl
  | cons id ids ih => exact (ih _).trans (remove_storage s id)

theorem foldl_remove_chunksCache (ids : List String) (s : CachedStorage) (id : String) :
    (ids.foldl remove s).chunksCache id = if id ∈ ids then none else s.chunksCache id := by
  induction ids generalizing s with
  | nil => simp
  | cons i ids ih =>
    rw [List.foldl_cons, ih]
    by_cases h : id = i <;> simp [h, remove, Function.update_apply]

theorem setChunkLists_of_not_mem {storage : String → List ChunkInfo}
    {deleted : List (String × List ChunkInfo)} {id : String} (h : id ∉ deleted.map Prod.fst) :
    setChunkLists storage deleted id = storage id := by
  induction deleted generalizing storage with
  | nil => rfl
  | cons d deleted ih =>
    simp only [List.map_cons, List.mem_cons, not_or] at h
    rw [setChunkLists, List.foldl_cons, ← setChunkLists, ih h.2, Function.update_noteq h.1]

/-- What `GetOrCreate` can do: answer from the cache, fail to load and leave the cache as it is, or
load the list and cache it. -/
theorem getOrCreate_cases (s : CachedStorage) (logID : String) (err : Option Error) :
    (∃ cis, s.chunksCache logID = some cis ∧ s.getOrCreate logID err = (.ok cis, s)) ∨
      (∃ e, err = some e ∧ s.getOrCreate logID err = (.error e, s)) ∨
      (err = none ∧ s.getOrCreate logID err = (.ok (sortByID (s.storage logID)),
        { s with chunksCache :=
          Function.update s.chunksCache logID (some (sortByID (s.storage logID))) })) := by
  unfold getOrCreate loadChunks
  rcases s.chunksCache logID with _ | cis <;> rcases err with _ | e <;> simp

/-- `GetLastChunk` is `GetOrCreate` with the last chunk taken of a list it returns. -/
theorem getLastChunk_eq (s : CachedStorage) (logID : String) (err : Option Error) :
    s.getLastChunk logID err = ((s.getOrCreate logID err).1.map fun cis => cis.getLastD ⟨0, 0, 0, 0⟩,
      (s.getOrCreate logID err).2) := by
  unfold getLastChunk
  rcases s.getOrCreate logID err with ⟨_ | _, _⟩ <;> rfl

/-! ## Every cached list is current -/

/-- Every list the chunks cache holds is what its loader would load now: the log's current chunk
list, sorted by ID. -/
def Fresh (s : CachedStorage) : Prop :=
  ∀ logID cis, s.chunksCache logID = some cis → cis = sortByID (s.storage logID)

theorem fresh_newCachedStorage (storage : String → List ChunkInfo) :
    (newCachedStorage storage).Fresh := by
  intro _ _ h
  cases h

namespace Fresh

variable {s s' : CachedStorage}

/-- A state is fresh when each of its cached lists is one of a fresh state, on a log whose chunk
list it has kept. -/
theorem of_cached (hs : s.Fresh) (h : ∀ logID cis, s'.chunksCache logID = some cis →
    s.chunksCache logID = some cis ∧ s'.storage logID = s.storage logID) : s'.Fresh := by
  intro logID cis hc
  obtain ⟨hc, hst⟩ := h logID cis hc
  rw [hst]
  exact hs logID cis hc

theorem remove (hs : s.Fresh) (logID : String) : (s.remove logID).Fresh := by
  refine hs.of_cached fun id cis hc => ⟨?_, rfl⟩
  by_cases h : id = logID <;> simp_all [CachedStorage.remove]

theorem getOrCreate (hs : s.Fresh) (logID : String) (err : Option Error) :
    (s.getOrCreate logID err).2.Fresh := by
  rcases getOrCreate_cases s logID err with ⟨cis, -, h⟩ | ⟨e, -, h⟩ | ⟨-, h⟩ <;> rw [h]
  · exact hs
  · exact hs
  · intro id cis h'
    by_cases hid : id = logID
    · subst hid
      simp only [Function.update_same, Option.some.injEq] at h'
      exact h'.symm
    · exact hs id cis (by simpa [hid] using h')

theorem getOrCreate_ok (hs : s.Fresh) {logID : String} {err : Option Error}
    {cis : List ChunkInfo} (h : (s.getOrCreate logID err).1 = .ok cis) :
    cis = sortByID (s.storage logID) := by
  rcases getOrCreate_cases s logID err with ⟨cis', hc, h'⟩ | ⟨e, -, h'⟩ | ⟨-, h'⟩ <;>
    rw [h'] at h <;> cases h
  · exact hs logID _ hc
  · rfl

/-- A successful `GetChunks` on a fresh cache returns the log's current chunk list, sorted by
ID. -/
theorem getChunks_ok (hs : s.Fresh) {logID : String} {err : Option Error}
    {cis : List ChunkInfo} (h : (s.getChunks logID err).1 = .ok cis) :
    cis = sortByID (s.storage logID) :=
  hs.getOrCreate_ok h

/-- A successful `GetLastChunk` on a fresh cache returns the last chunk of the log's current
chunk list sorted by ID. -/
theorem getLastChunk_ok (hs : s.Fresh) {logID : String} {err : Option Error} {c : ChunkInfo}
    (h : (s.getLastChunk logID err).1 = .ok c) :
    c = (sortByID (s.storage logID)).getLastD ⟨0, 0, 0, 0⟩ := by
  rw [getLastChunk_eq] at h
  rcases hg : (s.getOrCreate logID err).1 with e | cis <;> rw [hg] at h <;> cases h
  rw [hs.getOrCreate_ok hg]

theorem getLastChunk_fresh (hs : s.Fresh) (logID : String) (err : Option Error) :
    (s.getLastChunk logID err).2.Fresh := by
  rw [getLastChunk_eq]
  exact hs.getOrCreate logID err

/-- Over a catalog whose chunk IDs increase, a fresh cache answers `GetChunks` with the catalog
itself. -/
theorem getChunks_catalog (hs : s.Fresh) {logID : String} {err : Option Error}
    {cis : List ChunkInfo} (hsorted : ((s.storage logID).map ChunkInfo.id).Sorted (· < ·))
    (h : (s.getChunks logID err).1 = .ok cis) : cis = s.storage logID := by
  rw [hs.getChunks_ok h, sortByID_of_sorted hsorted]

/-- Over a catalog whose chunk IDs increase, a fresh cache answers `GetLastChunk` as the catalog
does in the model of `AppendRecords`. -/
theorem getLastChunk_catalog (hs : s.Fresh) {logID : String} {err : Option Error} {c : ChunkInfo}
    (hsorted : ((s.storage logID).map ChunkInfo.id).Sorted (· < ·))
    (h : (s.getLastChunk logID err).1 = .ok c) : Solaris.getLastChunk none (s.storage logID) = .ok c := by
  rw [hs.getLastChunk_ok h, sortByID_of_sorted hsorted]
  rfl

theorem passThrough_none (hs : s.Fresh) (id : String)
    (hres : ∀ cis, res ≠ .ok (some cis)) : (s.passThrough id res).2.Fresh := by
  rcases res with e | _ | cis
  · exact hs
  · exact hs
  · exact absurd rfl (hres cis)

theorem upsertChunkInfos (hs : s.Fresh) (logID : String) (res : Except Error (List ChunkInfo)) :
    (s.upsertChunkInfos logID res).2.Fresh := by
  rcases res with e | upd
  · exact hs
  · refine hs.of_cached fun id cis hc => ?_
    by_cases h : id = logID
    · simp [h, CachedStorage.upsertChunkInfos, CachedStorage.remove] at hc
    · simp_all [CachedStorage.remove, CachedStorage.upsertChunkInfos]

theorem deleteLogs (hs : s.Fresh) (res : Except Error (List (String × List ChunkInfo))) :
    (s.deleteLogs res).2.Fresh := by
  rcases res with e | deleted
  · exact hs
  · refine hs.of_cached fun id cis hc => ?_
    simp only [CachedStorage.deleteLogs, foldl_remove_chunksCache] at hc
    split_ifs at hc with h
    exact ⟨hc, by rw [CachedStorage.deleteLogs, foldl_remove_storage]; exact setChunkLists_of_not_mem h⟩

/-- Every call that keeps the chunk lists keeps the cache fresh. -/
theorem step (hs : s.Fresh) {c : CacheCall} (hc : c.KeepsChunks) : (s.step c).Fresh := by
  cases c with
  | createLog id res => exact hs.passThrough_none id fun cis h => by subst h; exact hc
  | updateLog id res => exact hs.passThrough_none id fun cis h => by subst h; exact hc
  | deleteLogs res => exact hs.deleteLogs res
  | upsertChunkInfos logID res => exact hs.upsertChunkInfos logID res
  | getLogByID _ => exact hs
  | getChunks logID err => exact hs.getOrCreate logID err
  | getLastChunk logID err => exact hs.getLastChunk_fresh logID err
  | evict logID => exact hs.remove logID

/-- Every run of calls that keep the chunk lists keeps the cache fresh. -/
theorem run (hs : s.Fresh) {calls : List CacheCall} (h : ∀ c ∈ calls, c.KeepsChunks) :
    (s.run calls).Fresh := by
  induction calls generalizing s with
  | nil => exact hs
  | cons c cs ih =>
    exact ih (hs.step (h c (List.mem_cons_self c cs))) fun d hd => h d (List.mem_cons_of_mem c hd)

end Fresh

/-- In every run of a new `CachedStorage` in which the wrapped storage keeps its contract
(`CreateLog` and `UpdateLog` leave the chunk lists as they are), whatever the evictions, every
successful `GetChunks` returns the log's current chunk list sorted by ID, and every successful
`GetLastChunk` the zero `ChunkInfo` for a log with no chunk, else a chunk of the log with the
greatest ID. -/
theorem reads_current_of_keepsChunks (storage : String → List ChunkInfo) {calls : List CacheCall}
    (hcalls : ∀ c ∈ calls, c.KeepsChunks) {s : CachedStorage}
    (hs : (newCachedStorage storage).run calls = s) (logID : String) (err : Option Error) :
    (∀ cis, (s.getChunks logID err).1 = .ok cis → cis = sortByID (s.storage logID)) ∧
      ∀ c, (s.getLastChunk logID err).1 = .ok c →
        (s.storage logID = [] ∧ c = ⟨0, 0, 0, 0⟩) ∨
          (c ∈ s.storage logID ∧ ∀ d ∈ s.storage logID, d.id ≤ c.id) := by
  have hf : s.Fresh := hs ▸ (fresh_newCachedStorage storage).run hcalls
  refine ⟨fun cis h => hf.getChunks_ok h, fun c h => ?_⟩
  rw [hf.getLastChunk_ok h]
  exact getLastD_sortByID _

/-- `reads_current_of_keepsChunks` after a `GetChunks` that caches a log's list and an
`UpsertChunkInfos` that changes it. -/
theorem reads_current_after_upsert :
    (∀ c ∈ [CacheCall.getChunks "l" none, .upsertChunkInfos "l" (.ok [⟨1, 1, 1, 1⟩])],
      c.KeepsChunks) ∧
    ∃ s, (newCachedStorage fun _ => []).run
        [.getChunks "l" none, .upsertChunkInfos "l" (.ok [⟨1, 1, 1, 1⟩])] = s ∧
      (∀ cis, (s.getChunks "l" none).1 = .ok cis → cis = sortByID (s.storage "l")) ∧
      ∀ c, (s.getLastChunk "l" none).1 = .ok c →
        (s.storage "l" = [] ∧ c = ⟨0, 0, 0, 0⟩) ∨
          (c ∈ s.storage "l" ∧ ∀ d ∈ s.storage "l", d.id ≤ c.id) := by
  have hk : ∀ c ∈ [CacheCall.getChunks "l" none, .upsertChunkInfos "l" (.ok [⟨1, 1, 1, 1⟩])],
      c.KeepsChunks := by
    simp [CacheCall.KeepsChunks]
  exact ⟨hk, _, rfl, reads_current_of_keepsChunks _ hk rfl "l" none⟩

end CachedStorage

end Solaris

import Solaris.Storage.Count

/-!
# `api.Service.QueryRecords` and `api.Service.CountRecords`

The public read calls of `pkg/api`. With one log, `QueryRecords` asks `LogStorage.QueryRecords`
for a page and, when the page says `more`, makes the next page's ID with `ulidutils.NextID` of
the last record's ID; with several logs it reads up to `Limit` records from the mixer into a
slice made with capacity `Limit`, and takes the next page's ID from the record after them.
`CountRecords` adds up `LogStorage.CountRecords` over the logs.

`ulidutils.NextID`, the mixer and `LogsStorage.QueryLogs` are not among this repository's
sources: `nextID` is the ULID right after its argument, the mixer is the sequence of records it
yields (`ServiceEnv.mix`), and `QueryLogs` is the list of log IDs it finds.

A client pages through a log by asking again from each `NextPageID` until it is empty
(`pageRecords`). A page whose `NextPageID` is its own start ID makes that loop run forever
(`pageRecords_eq_none_of_stuck`).

## Key results

- `serviceCountRecords_empty_start`: from no start ID, over logs that satisfy the chunk
  invariant, `CountRecords` returns the number of their records as `total` and `count`.
- `pageRecords_ascending`: with a positive limit, paging ascending from no start ID returns the
  whole log, each record once and in order, and ends.
- `serviceQueryRecords_limit_zero`: with `Limit = 0`, the proto default, on a log with a chunk,
  `localLog.QueryRecords` returns an empty page with `more`, and the single-log path indexes
  `res[len(res)-1]` of it.
- `serviceQueryRecords_desc_stuck`: descending with `Limit = 1`, the next page's start is
  `NextID` of the last record, above it, so the next page returns that record again and paging
  never ends.
-/

namespace Solaris

/-- `solaris.QueryRecordsRequest`, with the fields `Service.QueryRecords` reads besides the
conditions: the logs, the start record ID, the direction and the limit. -/
structure ApiQueryRecordsRequest where
  logIDs : List String
  startRecordID : StartID
  descending : Bool
  limit : Int
  deriving DecidableEq, Repr

/-- How `Service.QueryRecords` ends: the page and its `NextPageID` (empty for none), an error,
or a run-time panic. -/
inductive QueryRecordsOutcome where
  | ok (records : List Record) (nextPageID : StartID)
  | error (e : Error)
  | panic (msg : String)
  deriving DecidableEq, Repr

/-- What the read calls of `Service` meet: `LogsStorage.QueryLogs` (the IDs of the logs it
finds), `LogStorage.QueryRecords` and `LogStorage.CountRecords` for one log, and the mixer over
several logs, as the records it yields in turn and the error left in the context after them. -/
structure ServiceEnv where
  queryLogs : Except Error (List String)
  logQuery : QueryRecordsRequest → Except Error (List Record × Bool)
  logCount : QueryRecordsRequest → Except Error (Nat × Nat)
  mix : QueryRecordsRequest → List String → List Record × Option Error

/-- `maxLogsToMerge`. -/
def maxLogsToMerge : Nat := 1000

/-- The error for a request over more logs than the mixer merges. -/
def mergeError : Error :=
  .wrap ("could not merge more than " ++ toString maxLogsToMerge ++ " logs together") .exhausted

/-- Modelled from its name: `ulidutils.NextID`, the ULID right after `u`. -/
def nextID (u : Nat) : Nat := u + 1

/-- Whether `make([]*solaris.Record, 0, c)` gets past Go's `makeslice`, which panics on a negative
capacity or one whose 8-byte pointers exceed `maxAlloc`, `2^48 = 281474976710656` bytes on
64-bit platforms. -/
def makeSliceOK (c : Int) : Bool :=
  0 ≤ c ∧ 8 * c ≤ 281474976710656

/-- `Service.QueryRecords`. -/
def serviceQueryRecords (env : ServiceEnv) (req : ApiQueryRecordsRequest) : QueryRecordsOutcome :=
  match (if req.logIDs = [] then env.queryLogs else .ok req.logIDs) with
  | .error e => .error e
  | .ok logIDs =>
    if logIDs.length > maxLogsToMerge then .error mergeError
    else
      match logIDs with
      | [lid] =>
        match env.logQuery ⟨lid, req.startRecordID, req.descending, req.limit⟩ with
        | .error e => .error e
        | .ok (res, more) =>
          if more then
            match res.getLast? with
            | none => .panic "runtime error: index out of range [-1]"
            | some r => .ok res (.ulid (nextID r.id))
          else .ok res .empty
      | _ =>
        if makeSliceOK req.limit then
          match env.mix ⟨"", req.startRecordID, req.descending, req.limit⟩ logIDs with
          | (_, some e) => .error e
          | (ms, none) =>
            .ok (ms.take req.limit.toNat)
              (match (ms.drop req.limit.toNat).head? with
                | some r => .ulid r.id
                | none => .empty)
        else .panic "runtime error: makeslice: cap out of range"

/-- A service over one `localLog` holding the log `cis`/`files`: every log ID names it. -/
def ServiceEnv.ofLog (cfg : Config) (cis : List ChunkInfo) (files : Nat → Option (List Record)) :
    ServiceEnv :=
  ⟨.ok [], queryRecords cfg (ReadEnv.ofFiles cis files), countRecords (ReadEnv.ofFiles cis files),
    fun _ _ => ([], none)⟩

/-! ## Counting -/

/-- The loop of `Service.CountRecords` over the logs, adding up each log's `total` and `count`. -/
def countLogs (env : ServiceEnv) (req : ApiQueryRecordsRequest) :
    List String → Nat → Nat → Except Error (Nat × Nat)
  | [], total, count => .ok (total, count)
  | lid :: lids, total, count =>
    match env.logCount ⟨lid, req.startRecordID, req.descending, req.limit⟩ with
    | .error e => .error e
    | .ok (t, c) => countLogs env req lids (total + t) (count + c)

/-- `Service.CountRecords`. -/
def serviceCountRecords (env : ServiceEnv) (req : ApiQueryRecordsRequest) : Except Error (Nat × Nat) :=
  match (if req.logIDs = [] then env.queryLogs else .ok req.logIDs) with
  | .error e => .error e
  | .ok logIDs =>
    if logIDs.length > maxLogsToMerge then .error mergeError
    else countLogs env req logIDs 0 0

/-- With one log, `Service.CountRecords` is `localLog.CountRecords`. -/
theorem serviceCountRecords_ofLog (cfg : Config) (cis : List ChunkInfo)
    (files : Nat → Option (List Record)) (lid : String) (start : StartID) (descending : Bool)
    (limit : Int) :
    serviceCountRecords (ServiceEnv.ofLog cfg cis files) ⟨[lid], start, descending, limit⟩ =
      countRecords (ReadEnv.ofFiles cis files) ⟨lid, start, descending, limit⟩ := by
  simp only [serviceCountRecords, ServiceEnv.ofLog, reduceCtorEq, ↓reduceIte, List.length_singleton,
    maxLogsToMerge, countLogs]
  cases countRecords (ReadEnv.ofFiles cis files) ⟨lid, start, descending, limit⟩ <;> simp [countLogs]

/-- When each log's count is `(n, n)` for the `n` records of the log, the loop adds the numbers
up. -/
theorem countLogs_eq_flatMap (env : ServiceEnv) (req : ApiQueryRecordsRequest)
    {recs : String → List Record} (lids : List String)
    (hcount : ∀ lid ∈ lids, env.logCount ⟨lid, req.startRecordID, req.descending, req.limit⟩ =
      .ok ((recs lid).length, (recs lid).length)) (total count : Nat) :
    countLogs env req lids total count =
      .ok (total + (lids.flatMap recs).length, count + (lids.flatMap recs).length) := by
  induction lids generalizing total count with
  | nil => simp [countLogs]
  | cons lid lids ih =>
    simp only [countLogs, hcount lid (List.mem_cons_self lid lids)]
    rw [ih (fun l hl => hcount l (List.mem_cons_of_mem lid hl))]
    simp [Nat.add_assoc]

/-- From no start ID, over logs that satisfy the chunk invariant, `Service.CountRecords` returns
the number of records of all the logs, as `total` and as `count`. -/
theorem serviceCountRecords_empty_start {env : ServiceEnv}
    {logs : String → List ChunkInfo × (Nat → Option (List Record))}
    (henv : ∀ req, env.logCount req =
      countRecords (ReadEnv.ofFiles (logs req.logID).1 (logs req.logID).2) req)
    {lids : List String} (hinv : ∀ lid ∈ lids, CatalogInv (logs lid).1 (logs lid).2)
    (hne : lids ≠ []) (hmax : lids.length ≤ maxLogsToMerge) (descending : Bool) (limit : Int) :
    serviceCountRecords env ⟨lids, .empty, descending, limit⟩ =
      .ok ((lids.flatMap fun lid => contents (logs lid).1 (logs lid).2).length,
        (lids.flatMap fun lid => contents (logs lid).1 (logs lid).2).length) := by
  simp only [serviceCountRecords, if_neg hne, if_neg (not_lt.mpr hmax)]
  rw [countLogs_eq_flatMap env _ lids fun lid hl => by
    rw [henv]; exact countRecords_empty_start (hinv lid hl) lid descending limit]
  simp

/-- `serviceCountRecords_empty_start` over two log IDs of a service whose every log ID names one
log of two records. -/
theorem serviceCountRecords_empty_start_two_logs :
    serviceCountRecords (ServiceEnv.ofLog ⟨10, 100⟩ [⟨1, 1, 2, 2⟩]
        (fun id => if id = 1 then some [⟨1, []⟩, ⟨2, []⟩] else none)) ⟨["a", "b"], .empty, false, 1⟩ =
      .ok ((["a", "b"].flatMap fun _ => contents [⟨1, 1, 2, 2⟩]
          (fun id => if id = 1 then some [⟨1, []⟩, ⟨2, []⟩] else none)).length,
        (["a", "b"].flatMap fun _ => contents [⟨1, 1, 2, 2⟩]
          (fun id => if id = 1 then some [⟨1, []⟩, ⟨2, []⟩] else none)).length) := by
  have hinv : CatalogInv [⟨1, 1, 2, 2⟩] (fun id => if id = 1 then some [⟨1, []⟩, ⟨2, []⟩] else none) := by
    refine ⟨by simp, ?_, by simp⟩
    simp only [List.mem_singleton, forall_eq, if_true]
    exact ⟨_, rfl, by simp, rfl, rfl, rfl, by decide⟩
  exact @serviceCountRecords_empty_start _
    (fun _ => ([⟨1, 1, 2, 2⟩], fun id => if id = 1 then some [⟨1, []⟩, ⟨2, []⟩] else none))
    (fun _ => rfl) _ (fun _ _ => hinv) (by simp) (by decide) false 1

/-! ## Paging -/

/-- A client paging through `Service.QueryRecords`, `query start` being the call from `start`: it
keeps each page and asks again from its `NextPageID` until that is empty; `none` when a call fails
or `fuel` calls do not reach the end. -/
def pageRecords (query : StartID → QueryRecordsOutcome) : Nat → StartID → Option (List Record)
  | 0, _ => none
  | fuel + 1, start =>
    match query start with
    | .ok recs .empty => some recs
    | .ok recs next => (pageRecords query fuel next).map (recs ++ ·)
    | _ => none

/-- A call whose `NextPageID` leads to a call that returns its own start as `NextPageID` sends the
client round the same call forever. -/
theorem pageRecords_eq_none_of_stuck {query : StartID → QueryRecordsOutcome} {start next : StartID}
    {recs recs' : List Record} (h : query start = .ok recs next) (hnext : query next = .ok recs' next)
    (hne : next ≠ .empty) : ∀ fuel, pageRecords query fuel start = none := by
  have hloop : ∀ fuel, pageRecords query fuel next = none := by
    intro fuel
    induction fuel with
    | zero => rfl
    | succ n ih =>
      rw [pageRecords, hnext]
      cases next with
      | empty => exact absurd rfl hne
      | ulid u => dsimp only; rw [ih]; rfl
      | malformed t => dsimp only; rw [ih]; rfl
  intro fuel
  cases fuel with
  | zero => rfl
  | succ n =>
    rw [pageRecords, h]
    cases next with
    | empty => exact absurd rfl hne
    | ulid u => dsimp only; rw [hloop]; rfl
    | malformed t => dsimp only; rw [hloop]; rfl

/-- With one log, `Service.QueryRecords` is `localLog.QueryRecords` with the next page's ID made
from the last record. -/
theorem serviceQueryRecords_ofLog (cfg : Config) (cis : List ChunkInfo)
    (files : Nat → Option (List Record)) (lid : String) (start : StartID) (descending : Bool)
    (limit : Int) :
    serviceQueryRecords (ServiceEnv.ofLog cfg cis files) ⟨[lid], start, descending, limit⟩ =
      match queryRecords cfg (ReadEnv.ofFiles cis files) ⟨lid, start, descending, limit⟩ with
      | .error e => .error e
      | .ok (res, more) =>
        if more then
          match res.getLast? with
          | none => .panic "runtime error: index out of range [-1]"
          | some r => .ok res (.ulid (nextID r.id))
        else .ok res .empty := rfl

/-- After a prefix of the ascending range from `start` that ends at `r`, the range goes on with
the range from `r.id + 1`. -/
theorem queryRange_asc_eq_append {S : List Record} (hs : (S.map Record.id).Sorted (· < ·))
    {start : StartID} {res : List Record} {r : Record} (hp : res <+: queryRange S start false)
    (hr : res.getLast? = some r) :
    queryRange S start false = res ++ queryRange S (.ulid (r.id + 1)) false := by
  obtain ⟨rest, hT⟩ := hp
  have hsub : List.Sublist (queryRange S start false) S := by
    cases start <;> simp [queryRange, List.filter_sublist]
  have hTs := hs.sublist (hsub.map Record.id)
  rw [← hT, List.map_append] at hTs
  have hlt : ∀ a ∈ res, ∀ b ∈ rest, a.id < b.id := fun a ha b hb =>
    (List.pairwise_append.mp hTs).2.2 _ (List.mem_map_of_mem _ ha) _ (List.mem_map_of_mem _ hb)
  have hrm : r ∈ res := List.mem_of_mem_getLast? hr
  have hle : ∀ a ∈ res, a.id ≤ r.id := fun a ha =>
    le_last_of_sorted (List.pairwise_append.mp hTs).1 (by rw [List.getLast?_map, hr]; rfl)
      (List.mem_map_of_mem _ ha)
  -- the records from `r.id + 1` on lie in the range from `start`, which holds `r`
  have hq : (queryRange S start false).filter (fun x => decide (r.id + 1 ≤ x.id)) =
      queryRange S (.ulid (r.id + 1)) false := by
    cases start with
    | ulid u =>
      have hu : u ≤ r.id := by
        have := hT ▸ List.mem_append_left rest hrm
        simp only [queryRange, Bool.false_eq_true, ↓reduceIte, List.mem_filter, decide_eq_true_eq] at this
        exact this.2
      simp only [queryRange, if_false, Bool.false_eq_true, List.filter_filter]
      exact List.filter_congr fun x _ => by by_cases hx : r.id + 1 ≤ x.id <;> simp [hx]; omega
    | empty => rfl
    | malformed _ => rfl
  have hrest : queryRange S (.ulid (r.id + 1)) false = rest := by
    rw [← hq, ← hT, List.filter_append,
      List.filter_eq_nil_iff.mpr fun a ha => by simpa using Nat.lt_succ_of_le (hle a ha),
      List.filter_eq_self.mpr fun b hb => by simpa using hlt r hrm b hb, List.nil_append]
  rw [← hT, hrest]

/-- Paging ascending through a log with a positive limit, from any start ID that parses, returns
the rest of the log from it, given one call more than that has records: a page says `more`
only when it stops short, so it is not empty, and the next page starts right after it. -/
theorem pageRecords_asc_queryRange {cfg : Config} {cis : List ChunkInfo}
    {files : Nat → Option (List Record)} (h : CatalogInv cis files)
    (hzero : ∀ r ∈ contents cis files, r.id ≠ 0) (hrec : 0 < cfg.maxRecordsLimit)
    (hbunch : 0 < cfg.maxBunchSize) (lid : String) {limit : Int} (hlim : 0 < limit) :
    ∀ fuel start, (∀ text, start ≠ .malformed text) →
      (queryRange (contents cis files) start false).length < fuel →
      pageRecords (fun start => serviceQueryRecords (ServiceEnv.ofLog cfg cis files)
        ⟨[lid], start, false, limit⟩) fuel start = some (queryRange (contents cis files) start false)
  | 0, _, _, hfuel => absurd hfuel (Nat.not_lt_zero _)
  | fuel + 1, start, hstart, hfuel => by
    rw [pageRecords, serviceQueryRecords_ofLog]
    by_cases hcis : cis = []
    · subst hcis
      have hS : queryRange [] start false = [] := by cases start <;> rfl
      simp [queryRecords, ReadEnv.ofFiles, hS]
    rw [queryRecords_eq_readLoop cfg h hzero ⟨lid, start, false, limit⟩ hstart hcis]
    dsimp only
    have hnil : queryRange (contents cis files) start false = [] →
        readLoop cfg.maxBunchSize (min limit cfg.maxRecordsLimit)
          (queryRange (contents cis files) start false) [] 0 = ([], 0) := fun hT => by rw [hT]; rfl
    obtain ⟨⟨hpre, -, -, hlong⟩, hmore⟩ := readLoop_budget cfg.maxBunchSize
      (min limit cfg.maxRecordsLimit) (queryRange (contents cis files) start false)
    generalize readLoop cfg.maxBunchSize (min limit cfg.maxRecordsLimit)
      (queryRange (contents cis files) start false) [] 0 = p at hnil hpre hlong hmore ⊢
    obtain ⟨res, total⟩ := p
    dsimp only at hpre hlong hmore ⊢
    by_cases hm : min limit cfg.maxRecordsLimit ≤ res.length ∨ cfg.maxBunchSize ≤ total
    · -- a page with `more`: not empty, and the range goes on after its last record
      have hT : queryRange (contents cis files) start false ≠ [] := fun hT => by
        obtain ⟨rfl, rfl⟩ := Prod.mk.inj (hnil hT)
        simp only [List.length_nil] at hm
        omega
      obtain ⟨x, xs, hx⟩ := List.exists_cons_of_ne_nil hT
      have hres : res ≠ [] := List.ne_nil_of_length_pos (hlong [x]
        (by rw [hx]; exact (List.prefix_cons_inj x).mpr List.nil_prefix) (by simp; omega)
        (fun i hi => by
          simp only [List.length_singleton, Nat.lt_one_iff] at hi; subst hi; simpa using hbunch))
      obtain ⟨r, hr⟩ : ∃ r, res.getLast? = some r := ⟨_, List.getLast?_eq_getLast res hres⟩
      have hsplit := queryRange_asc_eq_append h.sorted_contents hpre hr
      have hlen : (queryRange (contents cis files) (.ulid (r.id + 1)) false).length < fuel := by
        have := congrArg List.length hsplit
        simp only [List.length_append] at this
        have := List.length_pos.mpr hres
        omega
      simp only [hm, decide_True, ↓reduceIte, hr, nextID]
      rw [pageRecords_asc_queryRange h hzero hrec hbunch lid hlim fuel _ (by simp) hlen, hsplit]
      rfl
    · -- a page without `more` is the whole range
      have hall : res = queryRange (contents cis files) start false :=
        hpre.eq_of_length (le_antisymm hpre.length_le (not_lt.mp fun hlt => hm (hmore hlt)))
      simp only [decide_eq_true_eq, hm, ↓reduceIte]
      exact congrArg some hall

/-- Paging ascending through a log with a positive limit from no start ID returns the whole log,
each record once and in order, within one call more than the log has records. -/
theorem pageRecords_ascending {cfg : Config} {cis : List ChunkInfo}
    {files : Nat → Option (List Record)} (h : CatalogInv cis files)
    (hzero : ∀ r ∈ contents cis files, r.id ≠ 0) (hrec : 0 < cfg.maxRecordsLimit)
    (hbunch : 0 < cfg.maxBunchSize) (lid : String) {limit : Int} (hlim : 0 < limit) {fuel : Nat}
    (hfuel : (contents cis files).length < fuel) :
    pageRecords (fun start => serviceQueryRecords (ServiceEnv.ofLog cfg cis files)
      ⟨[lid], start, false, limit⟩) fuel .empty = some (contents cis files) :=
  pageRecords_asc_queryRange h hzero hrec hbunch lid hlim fuel .empty (fun _ h => StartID.noConfusion h)
    hfuel

/-- `pageRecords_ascending` on a log of two records paged one record at a time: three calls, the
last one empty. -/
theorem pageRecords_ascending_two_records :
    pageRecords (fun start => serviceQueryRecords (ServiceEnv.ofLog ⟨10, 100⟩ [⟨1, 1, 2, 2⟩]
      (fun id => if id = 1 then some [⟨1, []⟩, ⟨2, []⟩] else none)) ⟨["l"], start, false, 1⟩) 3 .empty =
    some (contents [⟨1, 1, 2, 2⟩] fun id => if id = 1 then some [⟨1, []⟩, ⟨2, []⟩] else none) := by
  have hinv : CatalogInv [⟨1, 1, 2, 2⟩] (fun id => if id = 1 then some [⟨1, []⟩, ⟨2, []⟩] else none) := by
    refine ⟨by simp, ?_, by simp⟩
    simp only [List.mem_singleton, forall_eq, if_true]
    exact ⟨_, rfl, by simp, rfl, rfl, rfl, by decide⟩
  exact pageRecords_ascending hinv (by decide) (by decide) (by decide) "l" (by decide) (by decide)

/-! ## Where `Service.QueryRecords` goes wrong -/

/-- With `Limit = 0`, the proto default, on a log with a chunk, `localLog.QueryRecords` returns an
empty page with `more`, and the single-log path takes `res[len(res)-1]` of it. -/
theorem serviceQueryRecords_limit_zero :
    CatalogInv [⟨1, 1, 1, 1⟩] (fun id => if id = 1 then some [⟨1, []⟩] else none) ∧
    queryRecords ⟨10, 100⟩ (ReadEnv.ofFiles [⟨1, 1, 1, 1⟩]
        (fun id => if id = 1 then some [⟨1, []⟩] else none)) ⟨"l", .empty, false, 0⟩ = .ok ([], true) ∧
    serviceQueryRecords (ServiceEnv.ofLog ⟨10, 100⟩ [⟨1, 1, 1, 1⟩]
        (fun id => if id = 1 then some [⟨1, []⟩] else none)) ⟨["l"], .empty, false, 0⟩ =
      .panic "runtime error: index out of range [-1]" := by
  refine ⟨⟨by simp, ?_, by simp⟩, rfl, rfl⟩
  simp only [List.mem_singleton, forall_eq, if_true]
  exact ⟨_, rfl, by simp, rfl, rfl, rfl, by decide⟩

/-- Descending with `Limit = 1` over a log holding one record: the first page is that record with
`NextPageID = NextID(1)`, and the page from there is the same record with the same `NextPageID`,
so paging repeats it and never ends. -/
theorem serviceQueryRecords_desc_stuck :
    CatalogInv [⟨1, 1, 1, 1⟩] (fun id => if id = 1 then some [⟨1, []⟩] else none) ∧
    serviceQueryRecords (ServiceEnv.ofLog ⟨10, 100⟩ [⟨1, 1, 1, 1⟩]
        (fun id => if id = 1 then some [⟨1, []⟩] else none)) ⟨["l"], .empty, true, 1⟩ =
      .ok [⟨1, []⟩] (.ulid 2) ∧
    serviceQueryRecords (ServiceEnv.ofLog ⟨10, 100⟩ [⟨1, 1, 1, 1⟩]
        (fun id => if id = 1 then some [⟨1, []⟩] else none)) ⟨["l"], .ulid 2, true, 1⟩ =
      .ok [⟨1, []⟩] (.ulid 2) ∧
    ∀ fuel, pageRecords (fun start => serviceQueryRecords (ServiceEnv.ofLog ⟨10, 100⟩ [⟨1, 1, 1, 1⟩]
        (fun id => if id = 1 then some [⟨1, []⟩] else none)) ⟨["l"], start, true, 1⟩) fuel .empty =
      none := by
  have hfirst : serviceQueryRecords (ServiceEnv.ofLog ⟨10, 100⟩ [⟨1, 1, 1, 1⟩]
      (fun id => if id = 1 then some [⟨1, []⟩] else none)) ⟨["l"], .empty, true, 1⟩ =
      .ok [⟨1, []⟩] (.ulid 2) := rfl
  have hstuck : serviceQueryRecords (ServiceEnv.ofLog ⟨10, 100⟩ [⟨1, 1, 1, 1⟩]
      (fun id => if id = 1 then some [⟨1, []⟩] else none)) ⟨["l"], .ulid 2, true, 1⟩ =
      .ok [⟨1, []⟩] (.ulid 2) := rfl
  refine ⟨⟨by simp, ?_, by simp⟩, hfirst, hstuck, pageRecords_eq_none_of_stuck hfirst hstuck (by simp)⟩
  simp only [List.mem_singleton, forall_eq, if_true]
  exact ⟨_, rfl, by simp, rfl, rfl, rfl, by decide⟩

end Solaris

import Solaris.Storage.QueryCorrect

/-!
# `localLog.CountRecords`

`CountRecords` answers `(total, count)` from the catalog: every chunk wholly inside the range
counts with its `RecordsCount`, and only the boundary chunk that `sort.Search` finds is
scanned, with `countRecords`. It shares the chunk search of `QueryRecords`
(`searchStart`), and its last loop runs over the same chunks (`visitFrom`).

## Key results

- `countRecords_count_eq`: on a log satisfying the chunk invariant, for every start ID that
  parses and both directions, `count` is the length of the page `QueryRecords` returns from
  the same start when neither the record limit nor the byte budget binds. The lemma under it,
  `countRecords_spec`, also says `total` is the number of records of the log whenever there is
  no start ID or the search lands on a chunk.
- `countRecords_start_after_last`: a start ID past the last record gives `total = 0`, since
  the loop adding the chunks before the boundary chunk sits inside the branch that found one.
- `countRecords_open_fails`: when the boundary chunk cannot be opened, `CountRecords`
  reports `(0, 0)` with no error.
-/

namespace Solaris

/-- The number of records the catalog lists for `cis`. -/
def sumCounts : List ChunkInfo → Nat
  | [] => 0
  | ci :: cis => ci.recordsCount + sumCounts cis

@[simp] theorem sumCounts_nil : sumCounts [] = 0 := rfl

@[simp] theorem sumCounts_cons (ci : ChunkInfo) (cis : List ChunkInfo) :
    sumCounts (ci :: cis) = ci.recordsCount + sumCounts cis := rfl

@[simp] theorem sumCounts_append (cis cis' : List ChunkInfo) :
    sumCounts (cis ++ cis') = sumCounts cis + sumCounts cis' := by
  induction cis with
  | nil => simp
  | cons c cis ih => simp [ih, Nat.add_assoc]

@[simp] theorem sumCounts_reverse (cis : List ChunkInfo) : sumCounts cis.reverse = sumCounts cis := by
  induction cis with
  | nil => rfl
  | cons c cis ih => simp [ih, Nat.add_comm]

namespace Chunk

/-- `localLog.countRecords`: open the chunk, position a reader at `sid` and count what it
yields. -/
def countRecords (openChunk : Nat → Except Error (List Record)) (ci : ChunkInfo)
    (descending : Bool) (sid : Nat) : Except Error Nat :=
  match openChunk ci.id with
  | .error e => .error e
  | .ok recs => .ok (startCursor recs descending sid).length

end Chunk

/-- The last loop of `CountRecords`: each chunk from `idx` on is counted whole into both
`total` and `count`. -/
def countLoop : List ChunkInfo → Nat → Nat → Nat × Nat
  | [], total, count => (total, count)
  | ci :: cis, total, count => countLoop cis (total + ci.recordsCount) (count + ci.recordsCount)

/-- The chunks `for i := initialIdx; i != idx; i += inc` adds to `total`: those before `idx`
in the direction of the scan. -/
def countedBefore (cis : List ChunkInfo) (idx : Int) (descending : Bool) : List ChunkInfo :=
  if descending then (cis.drop (idx.toNat + 1)).reverse else cis.take idx.toNat

/-- `localLog.CountRecords`: `total`, the records of the log, and `count`, those from the
start ID on in the requested direction. -/
def countRecords (env : ReadEnv) (req : QueryRecordsRequest) : Except Error (Nat × Nat) :=
  match env.lease with
  | .error e => .error (lockerError req.logID e)
  | .ok () =>
    match env.getChunks with
    | .error e => .error e
    | .ok cis =>
      if cis.length = 0 then .ok (0, 0)
      else
        let initialIdx : Int := if req.descending then cis.length - 1 else 0
        let inc : Int := if req.descending then -1 else 1
        match req.startID with
        | .malformed text => .error (startIDError text)
        | .empty => .ok (countLoop (visitFrom cis initialIdx req.descending) 0 0)
        | .ulid sid =>
          let idx := searchStart cis req.descending sid
          if h : 0 ≤ idx ∧ idx < cis.length then
            let ci := cis.get ⟨idx.toNat, by omega⟩
            match Chunk.countRecords env.openChunk ci req.descending sid with
            | .error _ => .ok (0, 0)
            | .ok numRecs =>
              let total := ci.recordsCount + sumCounts (countedBefore cis idx req.descending)
              .ok (countLoop (visitFrom cis (idx + inc) req.descending) total numRecs)
          else .ok (countLoop (visitFrom cis idx req.descending) 0 0)

theorem countLoop_eq (cis : List ChunkInfo) (total count : Nat) :
    countLoop cis total count = (total + sumCounts cis, count + sumCounts cis) := by
  induction cis generalizing total count with
  | nil => rfl
  | cons c cis ih => simp [countLoop, ih, Nat.add_assoc]

/-- From an index inside the chunk list, `visitFrom` visits that chunk, then the chunks from the
next index in the direction of the scan. -/
theorem visitFrom_eq_cons {cis : List ChunkInfo} {idx : Int} (h : 0 ≤ idx ∧ idx < cis.length)
    (descending : Bool) :
    visitFrom cis idx descending = cis.get ⟨idx.toNat, by omega⟩ ::
      visitFrom cis (idx + if descending then -1 else 1) descending := by
  have hlt : idx.toNat < cis.length := by omega
  cases descending
  · rw [visitFrom, if_pos h, if_neg (by simp), List.drop_eq_getElem_cons hlt]
    simp only [Bool.false_eq_true, ↓reduceIte, visitFrom, List.get_eq_getElem, List.cons.injEq, true_and]
    split
    · congr 1; omega
    · exact List.drop_eq_nil_of_le (by omega)
  · rw [visitFrom, if_pos h, if_pos rfl, List.take_succ, List.getElem?_eq_getElem hlt]
    simp only [↓reduceIte, visitFrom, List.get_eq_getElem, Option.toList_some, List.reverse_append,
      List.reverse_singleton, List.singleton_append, List.cons.injEq, true_and]
    split
    · congr 2; omega
    · have : idx.toNat = 0 := by omega
      simp [this]

/-- A positioned reader yields no more records than its chunk holds. -/
theorem length_startCursor_le (recs : List Record) (descending : Bool) (sid : Nat) :
    (startCursor recs descending sid).length ≤ recs.length := by
  have := (startCursor_sublist recs descending sid).length_le
  unfold openChunkReader at this
  split at this <;> simpa using this

section Sums

variable {cis : List ChunkInfo} {files : Nat → Option (List Record)}

/-- Read whole, the chunks of a catalog satisfying the invariant hold as many records as the
catalog lists for them. -/
theorem length_scan_zero (h : CatalogInv cis files) (descending : Bool) {cs : List ChunkInfo}
    (hcs : cs ⊆ cis) : (scan files descending cs 0).length = sumCounts cs := by
  induction cs with
  | nil => rfl
  | cons c cs ih =>
    have hc := (h.describes_chunkRecords (hcs (List.mem_cons_self c cs))).count
    simp only [scan, startCursor_zero, List.length_append, sumCounts_cons,
      ih (fun d hd => hcs (List.mem_cons_of_mem c hd)), hc, openChunkReader]
    split <;> simp

/-- The chunks counted before `idx` and those visited from `idx` on make up the whole log. -/
theorem sumCounts_countedBefore_add {idx : Int} (h : 0 ≤ idx ∧ idx < cis.length) (descending : Bool) :
    sumCounts (countedBefore cis idx descending) + sumCounts (visitFrom cis idx descending) =
      sumCounts cis := by
  cases descending
  · simp only [countedBefore, visitFrom, if_pos h, Bool.false_eq_true, ↓reduceIte]
    rw [← sumCounts_append, List.take_append_drop]
  · simp only [countedBefore, visitFrom, if_pos h, ↓reduceIte, sumCounts_reverse]
    rw [Nat.add_comm, ← sumCounts_append, List.take_append_drop]

/-- On a log satisfying the chunk invariant whose chunk files all open, `CountRecords` succeeds;
its `count` is the number of records `QueryRecords` reads from the same start and direction
before any limit, it is at most `total`, and `total` is the number of records of the log when
there is no start ID or the search lands on a chunk. -/
theorem countRecords_spec (h : CatalogInv cis files) {req : QueryRecordsRequest} {idx : Int}
    {sid : Nat} (hs : queryStart cis req = .ok (idx, sid)) :
    ∃ total count, countRecords (ReadEnv.ofFiles cis files) req = .ok (total, count) ∧
      count = (scan files req.descending (visitFrom cis idx req.descending) sid).length ∧
      count ≤ total ∧
      (req.startID = .empty ∨ (0 ≤ idx ∧ idx < cis.length) → total = sumCounts cis) := by
  by_cases hcis : cis.length = 0
  · -- no chunk: nothing to count
    obtain rfl := List.eq_nil_of_length_eq_zero hcis
    refine ⟨0, 0, by simp [countRecords, ReadEnv.ofFiles], ?_, le_rfl, fun _ => rfl⟩
    simp [visitFrom, scan]
  unfold queryStart at hs
  split at hs
  · -- no start ID: every chunk is counted whole, by its `RecordsCount`
    next hstart =>
    simp only [Except.ok.injEq, Prod.mk.injEq] at hs
    obtain ⟨rfl, rfl⟩ := hs
    have hlen := length_scan_zero h req.descending
      (visitFrom_subset cis (if req.descending then cis.length - 1 else 0) req.descending)
    refine ⟨_, _, ?_, hlen.symm, le_rfl, fun _ => ?_⟩
    · simp only [countRecords, ReadEnv.ofFiles, hcis, ↓reduceIte, hstart, countLoop_eq, Nat.zero_add]
    rw [visitFrom_initial]
    split <;> simp
  · -- a start ID: the chunk the search lands on is scanned, the ones after it summed
    next u hstart =>
    simp only [Except.ok.injEq, Prod.mk.injEq] at hs
    obtain ⟨rfl, rfl⟩ := hs
    by_cases hin : 0 ≤ searchStart cis req.descending u ∧ searchStart cis req.descending u < cis.length
    · have hcons := visitFrom_eq_cons hin req.descending
      generalize hci : cis.get ⟨(searchStart cis req.descending u).toNat, by omega⟩ = ci at hcons
      generalize hnext : visitFrom cis (searchStart cis req.descending u +
        if req.descending then -1 else 1) req.descending = next at hcons
      have hmem : ci ∈ cis := hci ▸ List.get_mem _ _ _
      have hsub : next ⊆ cis := hnext ▸ visitFrom_subset _ _ _
      obtain ⟨rs, hrs, hd⟩ := h.describes ci hmem
      have hcur : (startCursor rs req.descending u).length ≤ ci.recordsCount :=
        hd.count ▸ length_startCursor_le rs req.descending u
      -- `total` splits at the boundary chunk, whose scan reads at most its `RecordsCount`
      have hsplit := sumCounts_countedBefore_add hin req.descending
      rw [hcons, sumCounts_cons] at hsplit
      refine ⟨ci.recordsCount + sumCounts (countedBefore cis (searchStart cis req.descending u)
          req.descending) + sumCounts next, (startCursor rs req.descending u).length + sumCounts next,
        ?_, ?_, by omega, fun _ => by omega⟩
      · simp only [countRecords, ReadEnv.ofFiles, hcis, ↓reduceIte, hstart, dif_pos hin, hci, hnext,
          Chunk.countRecords, openFile, hrs, countLoop_eq]
      · rw [hcons, scan, List.length_append, length_scan_zero h _ hsub]
        simp [chunkRecords, hrs]
    · -- the search lands past the chunks: nothing is counted
      have hnil : visitFrom cis (searchStart cis req.descending u) req.descending = [] := by
        simp [visitFrom, hin]
      refine ⟨0, 0, ?_, by simp [hnil, scan], le_rfl, ?_⟩
      · simp only [countRecords, ReadEnv.ofFiles, hcis, ↓reduceIte, hstart, dif_neg hin, hnil]
        rfl
      · rintro (h' | h')
        · simp [hstart] at h'
        · exact absurd h' hin
  · cases hs

/-- On a log satisfying the chunk invariant, for every start ID that parses and both
directions, `CountRecords` succeeds and its `count` is the length of the page `QueryRecords`
returns from the same start when neither limit binds: the catalog sums over the chunks wholly
in range plus the scan of the boundary chunk agree with the record-by-record read. -/
theorem countRecords_count_eq (cfg : Config) (h : CatalogInv cis files) (req : QueryRecordsRequest)
    (hstart : ∀ text, req.startID ≠ .malformed text)
    (hlim : ((contents cis files).length : Int) < min req.limit cfg.maxRecordsLimit)
    (hbytes : bytes (contents cis files) < cfg.maxBunchSize) :
    ∃ total count res, countRecords (ReadEnv.ofFiles cis files) req = .ok (total, count) ∧
      queryRecords cfg (ReadEnv.ofFiles cis files) req = .ok (res, false) ∧ count = res.length := by
  obtain ⟨idx, sid, hqs⟩ := exists_queryStart cis hstart
  obtain ⟨total, count, hc, hcount, -⟩ := countRecords_spec h hqs
  have hsub := scan_visitFrom_sublist files cis idx req.descending sid
  set S := scan files req.descending (visitFrom cis idx req.descending) sid
  have hSlen : (S.length : Int) < min req.limit cfg.maxRecordsLimit := by
    have := hsub.length_le
    rw [apply_ite List.length, List.length_reverse, ite_self] at this
    omega
  have hSbytes : bytes S < cfg.maxBunchSize := by
    have := bytes_le_of_sublist hsub
    rw [apply_ite bytes, bytes_reverse, ite_self] at this
    omega
  have hloop := queryLoop_eq_readLoop cfg files req.descending (min req.limit cfg.maxRecordsLimit)
    (visitFrom cis idx req.descending) (fun c hc => h.isSome_files (visitFrom_subset _ _ _ hc)) sid [] 0
  rw [readLoop_of_lt S hSlen hSbytes] at hloop
  refine ⟨total, count, S, hc, ?_, hcount⟩
  by_cases hcis : cis.length = 0
  · obtain rfl := List.eq_nil_of_length_eq_zero hcis
    simp [queryRecords, ReadEnv.ofFiles, S, visitFrom, scan]
  · simp only [queryRecords, ReadEnv.ofFiles, hcis, ↓reduceIte, hqs, hloop, Except.ok.injEq,
      Prod.mk.injEq, true_and, decide_eq_false_iff_not, not_or, not_le]
    exact ⟨hSlen, hSbytes⟩

/-- `countRecords_count_eq` at a one-chunk log, ascending from its second record. -/
theorem countRecords_count_eq_asc :
    CatalogInv [⟨1, 1, 2, 2⟩] (fun id => if id = 1 then some [⟨1, [7]⟩, ⟨2, [7]⟩] else none) ∧
    (∀ text, StartID.ulid 2 ≠ .malformed text) ∧
    ((contents [⟨1, 1, 2, 2⟩] (fun id => if id = 1 then some [⟨1, [7]⟩, ⟨2, [7]⟩] else none)).length
      : Int) < min 10 10 ∧
    bytes (contents [⟨1, 1, 2, 2⟩] (fun id => if id = 1 then some [⟨1, [7]⟩, ⟨2, [7]⟩] else none))
      < 100 ∧
    ∃ total count res, countRecords (ReadEnv.ofFiles [⟨1, 1, 2, 2⟩]
        (fun id => if id = 1 then some [⟨1, [7]⟩, ⟨2, [7]⟩] else none)) ⟨"l", .ulid 2, false, 10⟩ =
        .ok (total, count) ∧
      queryRecords ⟨10, 100⟩ (ReadEnv.ofFiles [⟨1, 1, 2, 2⟩]
        (fun id => if id = 1 then some [⟨1, [7]⟩, ⟨2, [7]⟩] else none)) ⟨"l", .ulid 2, false, 10⟩ =
        .ok (res, false) ∧ count = res.length := by
  have hinv : CatalogInv [⟨1, 1, 2, 2⟩] (fun id => if id = 1 then some [⟨1, [7]⟩, ⟨2, [7]⟩] else none) := by
    refine ⟨by simp, ?_, by simp⟩
    simp only [List.mem_singleton, forall_eq, if_true]
    exact ⟨_, rfl, by simp, rfl, rfl, rfl, by decide⟩
  exact ⟨hinv, by simp, by decide, by decide,
    countRecords_count_eq ⟨10, 100⟩ hinv ⟨"l", .ulid 2, false, 10⟩ (by simp) (by decide) (by decide)⟩

/-- The records of a log satisfying the chunk invariant are as many as its catalog counts. -/
theorem length_contents (h : CatalogInv cis files) : (contents cis files).length = sumCounts cis := by
  rw [← scan_zero_asc, length_scan_zero h false (List.Subset.refl _)]

/-- From no start ID, on a log that satisfies the chunk invariant, `CountRecords` counts every
record of the log, in `total` and in `count`. -/
theorem countRecords_empty_start (h : CatalogInv cis files) (lid : String) (descending : Bool)
    (limit : Int) : countRecords (ReadEnv.ofFiles cis files) ⟨lid, .empty, descending, limit⟩ =
      .ok ((contents cis files).length, (contents cis files).length) := by
  obtain ⟨total, count, hc, hcount, -, htotal⟩ :=
    @countRecords_spec cis files h ⟨lid, .empty, descending, limit⟩ _ _ rfl
  rw [hc, htotal (.inl rfl), hcount, visitFrom_initial, length_contents h]
  cases descending
  · simp [length_scan_zero h false (List.Subset.refl _)]
  · simp [length_scan_zero h true (fun c hc => List.mem_reverse.mp hc)]

end Sums

/-! ## Where `CountRecords` goes wrong -/

/-- Ascending from a start ID past the last record, `sort.Search` lands past the chunk list;
the loop adding the chunks before the boundary chunk runs only when it lands on one, so
`total` is `0` although the log holds a record. -/
theorem countRecords_start_after_last :
    CatalogInv [⟨1, 1, 1, 1⟩] (fun id => if id = 1 then some [⟨1, []⟩] else none) ∧
    countRecords (ReadEnv.ofFiles [⟨1, 1, 1, 1⟩] (fun id => if id = 1 then some [⟨1, []⟩] else none))
      ⟨"l", .ulid 2, false, 0⟩ = .ok (0, 0) ∧
    sumCounts [⟨1, 1, 1, 1⟩] = 1 := by
  refine ⟨⟨by simp, ?_, by simp⟩, rfl, rfl⟩
  simp only [List.mem_singleton, forall_eq, if_true]
  exact ⟨_, rfl, by simp, rfl, rfl, rfl, by decide⟩

/-- When the chunk provider fails on the boundary chunk, `CountRecords` drops the error and
reports `(0, 0)` as a success, where the same log read from its files counts one record from
that start. -/
theorem countRecords_open_fails :
    countRecords ⟨.ok (), .ok [⟨1, 1, 1, 1⟩], fun _ => .error .closed⟩ ⟨"l", .ulid 1, false, 0⟩ =
      .ok (0, 0) ∧
    countRecords (ReadEnv.ofFiles [⟨1, 1, 1, 1⟩] (fun id => if id = 1 then some [⟨1, []⟩] else none))
      ⟨"l", .ulid 1, false, 0⟩ = .ok (1, 1) :=
  ⟨rfl, rfl⟩

end Solaris

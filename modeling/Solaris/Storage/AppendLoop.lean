import Solaris.Storage.AppendCorrect

/-!
# The loop of `AppendRecords`: termination, chunk filling and cancellation

The loop `for len(recs) > 0` of `localLog.AppendRecords` makes no syntactic progress: a turn on
a full existing chunk writes nothing. `AppendLoopRuns` is the loop run to its end with no bound
on its turns, and `appendLoop_runs` shows the fuelled `appendLoop` that `AppendRecords` runs is
such a run, from every state with more fuel than its `measure`.

Under a codec that fills chunks to a capacity `C` (`Codec.Fills`), a call first tops up the
log's last chunk and then fills new chunks named by consecutive ULIDs, `C` records to each but
the last (`appendLoop_fresh`).

`AppendRecords` hands its caller's context to `UpsertChunkInfos`, though the comment at the call
says a background context is meant. A context cancelled during the loop after a chunk was
written is done by the time of the upsert (`AppendEnv.cancelled`), so a catalog that fails on a
done context makes the call panic (`appendRecords_cancelled_panic`).

## Key results

- `appendLoop_runs`: the fuelled loop computes the unbounded loop's run.
- `appendLoop_fresh`, `appendLoop_topUp`, `appendLoop_fills`: from a fresh chunk the records left
  go to `⌈n / C⌉` new chunks, after one turn has topped up the last chunk.
- `appendRecords_cancelled_panic`: a cancellation that leaves a record written ends in the panic.
-/

namespace Solaris

variable {codec : Codec}

/-! ## Codecs of a fixed capacity -/

/-- A codec under which a chunk holds at most `C` records and which never fails: an append to a
chunk holding `cur` records writes `min (C - cur) (len offered)` of them. -/
def Codec.Fills (codec : Codec) (C : Nat) : Prop :=
  ∀ files id newFile ps, ∃ ids, codec files id newFile ps = .ok ids ∧
    ids.length = min (C - (chunkRecords files id).length) ps.length

/-- A codec of chunks of `C` records, which numbers the records of chunk `id` from `C * id`. -/
def capacityCodec (C : Nat) : Codec := fun files id _ ps =>
  .ok (List.range' (C * id + (chunkRecords files id).length)
    (min (C - (chunkRecords files id).length) ps.length))

theorem capacityCodec_fills (C : Nat) : (capacityCodec C).Fills C :=
  fun _ _ _ _ => ⟨_, rfl, List.length_range' _ _ _⟩

/-- Under a codec filling chunks to `C`, a chunk write appends `min (C - cur) (len ps)` records
to the chunk's file. -/
theorem appendChunk_fills {C : Nat} (hcap : codec.Fills C) (files : Nat → Option (List Record))
    (id : Nat) (newFile : Bool) (ps : List Payload) :
    ∃ ids, ids.length = min (C - (chunkRecords files id).length) ps.length ∧
      appendChunk codec files id newFile ps =
        (setFile files id (chunkRecords files id ++ newRecords ids ps), .ok (.ofIDs ids)) := by
  obtain ⟨ids, hids, hlen⟩ :=
    hcap (if newFile then setFile files id (chunkRecords files id) else files) id newFile ps
  cases newFile <;>
    simp only [Bool.false_eq_true, if_false, if_true, chunkRecords_setFile_self] at hids hlen ⊢
  · exact ⟨ids, hlen, by simp [appendChunk, hids]⟩
  · exact ⟨ids, hlen, by simp [appendChunk, hids]⟩

/-! ## The loop runs to its end -/

/-- The loop `for len(recs) > 0` of `AppendRecords` run to its end with no bound on its turns:
it stops when no record is left or at a `break`. -/
inductive AppendLoopRuns (codec : Codec) : AppendState → AppendState → Prop
  | done {st : AppendState} : st.recs = [] → AppendLoopRuns codec st st
  | brk {st st' : AppendState} : st.recs ≠ [] → appendIter codec st = (st', false) →
      AppendLoopRuns codec st st'
  | next {st st' st'' : AppendState} : st.recs ≠ [] → appendIter codec st = (st', true) →
      AppendLoopRuns codec st' st'' → AppendLoopRuns codec st st''

/-- With more fuel than its measure, `appendLoop` runs the loop to its end. -/
theorem appendLoop_runs (codec : Codec) :
    ∀ (fuel : Nat) (st : AppendState), st.measure < fuel →
      AppendLoopRuns codec st (appendLoop codec fuel st)
  | 0, _, h => absurd h (Nat.not_lt_zero _)
  | fuel + 1, st, h => by
    rw [appendLoop]
    split
    · exact .done ‹_›
    · rename_i hne
      have hlt := appendIter_measure codec hne
      rcases hit : appendIter codec st with ⟨st', _ | _⟩
      · exact .brk hne hit
      · rw [hit] at hlt
        have hst' : st'.measure < st.measure := hlt rfl
        exact .next hne hit (appendLoop_runs codec fuel st' (by omega))

/-- A chunk write reports at most as many records as it was offered when the codec does. -/
theorem appendChunk_written_le
    (hw : ∀ files id newFile ps ids, codec files id newFile ps = .ok ids → ids.length ≤ ps.length)
    {files files' : Nat → Option (List Record)} {id : Nat} {newFile : Bool} {ps : List Payload}
    {arr : AppendRecordsResult} (h : appendChunk codec files id newFile ps = (files', .ok arr)) :
    arr.written ≤ ps.length := by
  cases hc : codec (if newFile then setFile files id (chunkRecords files id) else files) id newFile ps with
  | error e => simp [appendChunk, hc] at h
  | ok ids =>
    simp only [appendChunk, hc, Prod.mk.injEq, Except.ok.injEq] at h
    rw [← h.2]
    exact hw _ _ _ _ _ hc

/-- For every codec that reports writing no more records than it was offered, the loop of
`AppendRecords` ends, from every call's start, within the turns the call allows it. Every slice
`recs[arr.Written:]` it takes is in bounds, and every turn breaks, shortens the records left,
or, after a non-empty existing chunk took nothing, keeps them; a turn that goes on leaves
`ci.RecordsCount = 0`, so that the next one writes to a fresh chunk. -/
theorem appendLoop_terminates
    (hw : ∀ files id newFile ps ids, codec files id newFile ps = .ok ids → ids.length ≤ ps.length) :
    (∀ (s : LogStore) (ci : ChunkInfo) (req : AppendRecordsRequest),
      AppendLoopRuns codec ⟨s.files, s.lastID, ci, req.records, [], 0, none⟩
        (appendLoop codec (req.records.length + 2) ⟨s.files, s.lastID, ci, req.records, [], 0, none⟩)) ∧
    (∀ files id newFile ps files' arr, appendChunk codec files id newFile ps = (files', .ok arr) →
      arr.written ≤ ps.length) ∧
    ∀ st : AppendState, st.recs ≠ [] →
      (appendIter codec st).2 = false ∨ ((appendIter codec st).1.ci.recordsCount = 0 ∧
        ((appendIter codec st).1.recs.length < st.recs.length ∨
          (st.ci.recordsCount ≠ 0 ∧ (appendIter codec st).1.recs = st.recs))) := by
  refine ⟨fun s ci req => appendLoop_runs codec _ _ ?_, fun _ _ _ _ _ _ h => appendChunk_written_le hw h,
    fun st hne => ?_⟩
  · simp only [AppendState.measure]
    split <;> omega
  have hlen : 0 < st.recs.length := List.length_pos.mpr hne
  by_cases hgo : (appendIter codec st).2 = true
  · obtain ⟨h0, ⟨_, _, _, arr, hc, hw0, hrecs⟩ | hkeep⟩ := appendIter_goes_on codec hgo
    · have := appendChunk_written_le hw hc
      exact .inr ⟨h0, .inl (by rw [hrecs, List.length_drop]; omega)⟩
    · exact .inr ⟨h0, .inr hkeep⟩
  · exact .inl (by simpa using hgo)

/-- `appendLoop_terminates` for a codec of chunks of two records. -/
theorem appendLoop_terminates_capacity_two :
    (∀ files id newFile ps ids, capacityCodec 2 files id newFile ps = .ok ids →
      ids.length ≤ ps.length) ∧
    (∀ (s : LogStore) (ci : ChunkInfo) (req : AppendRecordsRequest),
      AppendLoopRuns (capacityCodec 2) ⟨s.files, s.lastID, ci, req.records, [], 0, none⟩
        (appendLoop (capacityCodec 2) (req.records.length + 2)
          ⟨s.files, s.lastID, ci, req.records, [], 0, none⟩)) ∧
    (∀ files id newFile ps files' arr,
      appendChunk (capacityCodec 2) files id newFile ps = (files', .ok arr) →
      arr.written ≤ ps.length) ∧
    ∀ st : AppendState, st.recs ≠ [] →
      (appendIter (capacityCodec 2) st).2 = false ∨
        ((appendIter (capacityCodec 2) st).1.ci.recordsCount = 0 ∧
          ((appendIter (capacityCodec 2) st).1.recs.length < st.recs.length ∨
            (st.ci.recordsCount ≠ 0 ∧ (appendIter (capacityCodec 2) st).1.recs = st.recs))) := by
  have hw : ∀ files id newFile ps ids, capacityCodec 2 files id newFile ps = .ok ids →
      ids.length ≤ ps.length := fun files id newFile ps ids h => by
    obtain ⟨ids', h', hlen⟩ := capacityCodec_fills 2 files id newFile ps
    rw [h] at h'
    cases h'
    omega
  exact ⟨hw, appendLoop_terminates hw⟩

/-! ## Filling chunks -/

section Fill

variable {C : Nat}

/-- A turn on a fresh chunk, with no file yet under the next ULID, names the chunk `lastID + 1`
and writes `min C (len recs)` records to it. -/
theorem appendIter_fresh (hC : 0 < C) (hcap : codec.Fills C) {st : AppendState}
    (hne : st.recs ≠ []) (h0 : st.ci.recordsCount = 0) (hnone : st.files (st.lastID + 1) = none) :
    ∃ (ci' : ChunkInfo) (files' : Nat → Option (List Record)), ci'.id = st.lastID + 1 ∧
      ci'.recordsCount = min C st.recs.length ∧ (∀ j, j ≠ st.lastID + 1 → files' j = st.files j) ∧
      appendIter codec st = (⟨files', st.lastID + 1, { ci' with recordsCount := 0 },
        st.recs.drop (min C st.recs.length), st.cis ++ [ci'], st.added + min C st.recs.length,
        st.gerr⟩, true) := by
  have hlen : 0 < st.recs.length := List.length_pos.mpr hne
  have hcur : chunkRecords st.files (st.lastID + 1) = [] := by simp [chunkRecords, hnone]
  obtain ⟨ids, hids, hc⟩ := appendChunk_fills hcap st.files (st.lastID + 1) true st.recs
  rw [hcur, List.length_nil, Nat.sub_zero] at hids
  have hpos : min C st.recs.length > 0 := by omega
  refine ⟨⟨st.lastID + 1, ids.headD 0, ids.getLastD 0, ids.length⟩,
    setFile st.files (st.lastID + 1) (chunkRecords st.files (st.lastID + 1) ++ newRecords ids st.recs),
    rfl, hids, fun j hj => setFile_of_ne _ hj, ?_⟩
  simp only [appendIter, h0, ↓reduceIte, decide_True, hc, AppendRecordsResult.ofIDs, hpos,
    Nat.zero_add, hids]

/-- A turn on the log's last chunk, holding as many records as its `RecordsCount` says, writes
`min (C - RecordsCount) (len recs)` records to it and goes on with a fresh chunk. -/
theorem appendIter_last (hcap : codec.Fills C) {st : AppendState} (h0 : st.ci.recordsCount ≠ 0)
    (hcur : (chunkRecords st.files st.ci.id).length = st.ci.recordsCount) :
    ∃ (ci' : ChunkInfo) (files' : Nat → Option (List Record)), ci'.id = st.ci.id ∧
      ci'.recordsCount = st.ci.recordsCount + min (C - st.ci.recordsCount) st.recs.length ∧
      (∀ j, j ≠ st.ci.id → files' j = st.files j) ∧
      appendIter codec st = (⟨files', st.lastID, { ci' with recordsCount := 0 },
        st.recs.drop (min (C - st.ci.recordsCount) st.recs.length),
        st.cis ++ (if 0 < min (C - st.ci.recordsCount) st.recs.length then [ci'] else []),
        st.added + min (C - st.ci.recordsCount) st.recs.length, st.gerr⟩, true) := by
  obtain ⟨ids, hids, hc⟩ := appendChunk_fills hcap st.files st.ci.id false st.recs
  rw [hcur] at hids
  by_cases hpos : ids.length > 0
  · refine ⟨⟨st.ci.id, st.ci.min, ids.getLastD 0, st.ci.recordsCount + ids.length⟩,
      setFile st.files st.ci.id (chunkRecords st.files st.ci.id ++ newRecords ids st.recs), rfl,
      by rw [hids], fun j hj => setFile_of_ne _ hj, ?_⟩
    rw [← hids]
    simp [appendIter, h0, hc, AppendRecordsResult.ofIDs, hpos]
  · refine ⟨st.ci, setFile st.files st.ci.id (chunkRecords st.files st.ci.id ++ newRecords ids st.recs),
      rfl, by omega, fun j hj => setFile_of_ne _ hj, ?_⟩
    rw [← hids]
    simp [appendIter, h0, hc, AppendRecordsResult.ofIDs, hpos, Nat.eq_zero_of_not_pos hpos]

/-- No chunk for no record: `⌈0 / C⌉ = 0`. -/
theorem ceil_div_zero (hC : 0 < C) : (C - 1) / C = 0 :=
  Nat.div_eq_of_lt (by omega)

/-- Chunks for the records after the first `w` are only made when there are such records. -/
theorem lt_of_ceil_div_pos (hC : 0 < C) {n w : Nat} (h : 0 < (n - w + C - 1) / C) : w < n := by
  by_contra hle
  rw [show n - w = 0 by omega, Nat.zero_add, ceil_div_zero hC] at h
  exact Nat.lt_irrefl 0 h

/-- One chunk more: `⌈n / C⌉ = ⌈(n - min C n) / C⌉ + 1` for `0 < n`. -/
theorem ceil_div_step (hC : 0 < C) {n : Nat} (hn : 0 < n) :
    (n + C - 1) / C = (n - min C n + C - 1) / C + 1 := by
  rcases le_or_lt n C with h | h
  · rw [min_eq_right h, Nat.sub_self, Nat.zero_add, ceil_div_zero hC]
    exact Nat.div_eq_of_lt_le (by omega) (by omega)
  · rw [min_eq_left h.le, ← Nat.add_div_right _ hC]
    congr 1
    omega

/-- Every chunk but the last of `c :: cs` is full when every one but the last of `cs` is, and `c`
is whenever a chunk follows it. -/
theorem full_of_dropLast_cons {c : ChunkInfo} {cs : List ChunkInfo}
    (hc : cs ≠ [] → c.recordsCount = C) (hcs : ∀ d ∈ cs.dropLast, d.recordsCount = C) :
    ∀ d ∈ (c :: cs).dropLast, d.recordsCount = C := by
  intro d hd
  rcases cs with _ | ⟨e, es⟩
  · simp at hd
  · rw [List.dropLast_cons_of_ne_nil (List.cons_ne_nil e es), List.mem_cons] at hd
    rcases hd with rfl | hd
    · exact hc (List.cons_ne_nil e es)
    · exact hcs d hd

/-- From a fresh chunk, with no file above the last ULID handed out, the loop writes the records
left to `⌈n / C⌉` new chunks named by the next ULIDs, `C` records to each but the last. -/
theorem appendLoop_fresh (hC : 0 < C) (hcap : codec.Fills C) :
    ∀ (fuel : Nat) (st : AppendState), st.ci.recordsCount = 0 →
      (∀ j, st.lastID < j → st.files j = none) → st.recs.length < fuel →
      ∃ new : List ChunkInfo, (appendLoop codec fuel st).cis = st.cis ++ new ∧
        new.map ChunkInfo.id = List.range' (st.lastID + 1) new.length ∧
        new.length = (st.recs.length + C - 1) / C ∧ (∀ c ∈ new.dropLast, c.recordsCount = C) ∧
        (appendLoop codec fuel st).lastID = st.lastID + new.length ∧
        (appendLoop codec fuel st).added = st.added + st.recs.length ∧
        (appendLoop codec fuel st).gerr = st.gerr
  | 0, _, _, _, h => absurd h (Nat.not_lt_zero _)
  | fuel + 1, st, h0, hnone, hlen => by
    by_cases hne : st.recs = []
    · refine ⟨[], ?_⟩
      simp [appendLoop, hne, ceil_div_zero hC]
    obtain ⟨ci', files', hid, hcount, hfiles, hit⟩ :=
      appendIter_fresh hC hcap hne h0 (hnone _ (Nat.lt_succ_self _))
    have hn : 0 < st.recs.length := List.length_pos.mpr hne
    have hm : 0 < min C st.recs.length := by omega
    obtain ⟨new, hcis, hids, hnew, hfull, hlast, hadd, herr⟩ := appendLoop_fresh hC hcap fuel
      ⟨files', st.lastID + 1, { ci' with recordsCount := 0 }, st.recs.drop (min C st.recs.length),
        st.cis ++ [ci'], st.added + min C st.recs.length, st.gerr⟩ rfl
      (fun j hj => by dsimp only at hj ⊢; rw [hfiles j (by omega)]; exact hnone j (by omega))
      (by simp; omega)
    rw [appendLoop, if_neg hne, hit]
    simp only [List.length_drop] at hcis hids hnew hlast hadd herr ⊢
    refine ⟨ci' :: new, by simp [hcis], by simp [hid, hids, List.range'_succ], ?_, ?_, ?_, ?_, herr⟩
    · rw [List.length_cons, hnew, ceil_div_step hC hn]
    · -- a chunk followed by another is full
      refine full_of_dropLast_cons (fun hne' => ?_) hfull
      have hlt : min C st.recs.length < st.recs.length :=
        lt_of_ceil_div_pos hC (hnew ▸ List.length_pos.mpr hne')
      rw [hcount]
      omega
    · rw [hlast, List.length_cons]
      omega
    · rw [hadd]
      omega

/-- From the log's last chunk, holding as many records as its `RecordsCount` says, the loop tops
the chunk up in one turn with `w = min (C - RecordsCount) (len recs)` records, and then writes the
rest to new chunks as `appendLoop_fresh` says. -/
theorem appendLoop_topUp (hC : 0 < C) (hcap : codec.Fills C) {st : AppendState} (fuel : Nat)
    (hne : st.recs ≠ []) (h0 : st.ci.recordsCount ≠ 0)
    (hcur : (chunkRecords st.files st.ci.id).length = st.ci.recordsCount) (hci : st.ci.id ≤ st.lastID)
    (habove : ∀ j, st.lastID < j → st.files j = none) (hfuel : st.recs.length < fuel) :
    ∃ (ci' : ChunkInfo) (new : List ChunkInfo), ci'.id = st.ci.id ∧
      ci'.recordsCount = st.ci.recordsCount + min (C - st.ci.recordsCount) st.recs.length ∧
      (appendLoop codec (fuel + 1) st).cis =
        st.cis ++ (if 0 < min (C - st.ci.recordsCount) st.recs.length then [ci'] else []) ++ new ∧
      new.map ChunkInfo.id = List.range' (st.lastID + 1) new.length ∧
      new.length = (st.recs.length - min (C - st.ci.recordsCount) st.recs.length + C - 1) / C ∧
      (∀ c ∈ new.dropLast, c.recordsCount = C) ∧
      (appendLoop codec (fuel + 1) st).lastID = st.lastID + new.length ∧
      (appendLoop codec (fuel + 1) st).added = st.added + st.recs.length ∧
      (appendLoop codec (fuel + 1) st).gerr = st.gerr := by
  -- the first turn tops up the last chunk
  obtain ⟨ci', files', hid, hcount, hfiles, hit⟩ := appendIter_last hcap h0 hcur
  set w := min (C - st.ci.recordsCount) st.recs.length
  -- the turns after it fill new chunks
  obtain ⟨new, hcis, hids, hlen, hfull, hlast, hadd, herr⟩ := appendLoop_fresh hC hcap fuel
    ⟨files', st.lastID, { ci' with recordsCount := 0 }, st.recs.drop w,
      st.cis ++ (if 0 < w then [ci'] else []), st.added + w, st.gerr⟩ rfl
    (fun j hj => by dsimp only at hj ⊢; rw [hfiles j (by omega)]; exact habove j hj)
    (by dsimp only; rw [List.length_drop]; omega)
  rw [appendLoop, if_neg hne, hit]
  dsimp only at hcis hids hlen hlast hadd herr
  rw [List.length_drop] at hlen hadd
  exact ⟨ci', new, hid, hcount, hcis, hids, hlen, hfull, hlast, by rw [hadd]; omega, herr⟩

/-- Upserting chunks named by the ULIDs after every listed one appends them. -/
theorem upsertChunkInfos_range (new : List ChunkInfo) :
    ∀ (catalog : List ChunkInfo) (b : Nat), (∀ c ∈ catalog, c.id ≤ b) →
      new.map ChunkInfo.id = List.range' (b + 1) new.length →
      upsertChunkInfos catalog new = catalog ++ new := by
  induction new with
  | nil => intros; simp [upsertChunkInfos]
  | cons d ds ih =>
    intro catalog b hcat hnew
    simp only [List.map_cons, List.length_cons, List.range'_succ, List.cons.injEq] at hnew
    have hd : upsertChunkInfo catalog d = catalog ++ [d] :=
      upsertChunkInfo_of_lt fun c hc => by have := hcat c hc; omega
    have hrest := ih (catalog ++ [d]) (b + 1) (fun c hc => by
      rcases List.mem_append.mp hc with hc | hc
      · have := hcat c hc; omega
      · rw [List.mem_singleton.mp hc]; omega) hnew.2
    simp only [upsertChunkInfos, List.foldl_cons] at hrest ⊢
    rw [hd, hrest, List.append_assoc, List.singleton_append]

/-- No file lies above the last ULID `NewID` handed out on a log satisfying `LogInv`. -/
theorem LogInv.files_above {s : LogStore} (hs : LogInv s) {j : Nat} (hj : s.lastID < j) :
    s.files j = none := by
  cases hf : s.files j with
  | none => rfl
  | some rs =>
    obtain ⟨c, hc, rfl⟩ := hs.listed j rs hf
    exact absurd (hs.fresh c hc) (by omega)

/-- The last chunk of a log satisfying `LogInv` holds records, as many as its `RecordsCount` says,
comes after every other chunk and was named by a ULID `NewID` has handed out. -/
theorem LogInv.last_chunk {s : LogStore} (hs : LogInv s) {cs : List ChunkInfo} {last : ChunkInfo}
    (hcat : s.catalog = cs ++ [last]) :
    (chunkRecords s.files last.id).length = last.recordsCount ∧ last.recordsCount ≠ 0 ∧
      last.id ≤ s.lastID ∧ ∀ e ∈ cs, e.id < last.id := by
  have hmem : last ∈ s.catalog := by simp [hcat]
  obtain ⟨rs, hrs, hdesc⟩ := hs.catalog.describes last hmem
  have hsorted := hs.catalog.sorted_id
  rw [hcat, List.map_append, List.map_singleton] at hsorted
  refine ⟨by simp [chunkRecords, hrs, hdesc.count], ?_, hs.fresh last hmem, fun e he =>
    (List.pairwise_append.mp hsorted).2.2 _ (List.mem_map_of_mem _ he) _ (List.mem_singleton_self _)⟩
  rw [hdesc.count]
  exact (List.length_pos.mpr hdesc.ne_nil).ne'

/-- The loop of a call on a log satisfying `LogInv` whose last chunk holds at most `C` records,
under a codec filling chunks to `C`, adds every record offered with no error; the catalog updated
with what it wrote is the log's catalog with its last chunk topped up by `min N (C - m)` records
and `⌈(N - min N (C - m)) / C⌉` new chunks after it, `⌈N / C⌉` of them on a log with no chunk. -/
theorem appendLoop_fills (hC : 0 < C) (hcap : codec.Fills C) {s : LogStore} (hs : LogInv s)
    (hm : ∀ c ∈ s.catalog.getLast?, c.recordsCount ≤ C) (req : AppendRecordsRequest)
    {st : AppendState} (hst : appendLoop codec (req.records.length + 2)
      ⟨s.files, s.lastID, s.catalog.getLastD ⟨0, 0, 0, 0⟩, req.records, [], 0, none⟩ = st) :
    st.added = req.records.length ∧ st.gerr = none ∧ (req.records = [] → st.cis = []) ∧
    ∃ head new, upsertChunkInfos s.catalog st.cis = s.catalog.dropLast ++ head ++ new ∧
      (match s.catalog.getLast? with
        | none => head = [] ∧ new.length = (req.records.length + C - 1) / C
        | some c => ∃ c', head = [c'] ∧ c'.id = c.id ∧
            c'.recordsCount = c.recordsCount + min req.records.length (C - c.recordsCount) ∧
            new.length = (req.records.length - min req.records.length (C - c.recordsCount) + C - 1) / C) ∧
      new.map ChunkInfo.id = List.range' (s.lastID + 1) new.length ∧ st.lastID = s.lastID + new.length ∧
      ∀ c ∈ (head ++ new).dropLast, c.recordsCount = C := by
  rcases List.eq_nil_or_concat s.catalog with hcat | ⟨cs, last, hcat⟩
  · -- no chunk: every record goes to new chunks
    obtain ⟨new, hcis, hids, hlen, hfull, hlast, hadd, herr⟩ := appendLoop_fresh hC hcap
      (req.records.length + 2) ⟨s.files, s.lastID, s.catalog.getLastD ⟨0, 0, 0, 0⟩, req.records, [], 0, none⟩
      (by simp [hcat]) (fun j hj => hs.files_above hj) (by dsimp only; omega)
    rw [hst] at hcis hlast hadd herr
    dsimp only at hcis hids hlen hlast hadd herr
    rw [List.nil_append] at hcis
    rw [Nat.zero_add] at hadd
    simp only [hcat, List.getLast?_nil, List.dropLast_nil, List.nil_append]
    refine ⟨hadd, herr, fun hN => ?_, [], new, ?_, ⟨rfl, hlen⟩, hids, hlast, by simpa using hfull⟩
    · obtain rfl : new = [] := by
        rw [hN, List.length_nil, Nat.zero_add, ceil_div_zero hC] at hlen
        exact List.eq_nil_of_length_eq_zero hlen
      exact hcis
    · rw [hcis, upsertChunkInfos_range new [] s.lastID (by simp) hids]
  -- a last chunk: it is topped up first
  rw [List.concat_eq_append] at hcat
  obtain ⟨hcur, h0, hlastID, hsorted⟩ := hs.last_chunk hcat
  have hmC : last.recordsCount ≤ C := hm last (by simp [hcat])
  have hlastD : s.catalog.getLastD ⟨0, 0, 0, 0⟩ = last := by simp [hcat]
  rw [hlastD] at hst
  simp only [hcat, List.getLast?_concat, List.dropLast_concat]
  by_cases hN : req.records = []
  · -- nothing offered: the loop does not run
    have hst' : st = ⟨s.files, s.lastID, last, req.records, [], 0, none⟩ := by
      rw [← hst]; simp [appendLoop, hN]
    subst hst'
    refine ⟨by simp [hN], rfl, fun _ => rfl, [last], [], by simp [upsertChunkInfos],
      ⟨last, rfl, rfl, by simp [hN], by simp [hN, ceil_div_zero hC]⟩, rfl,
      by simp, by simp⟩
  -- records offered: one turn on the last chunk, then new chunks
  obtain ⟨ci', new, hid, hcount, hcis, hids, hlen, hfull, hlast, hadd, herr⟩ :=
    @appendLoop_topUp _ _ hC hcap ⟨s.files, s.lastID, last, req.records, [], 0, none⟩
      (req.records.length + 1) hN h0 hcur hlastID (fun j hj => hs.files_above hj) (Nat.lt_succ_self _)
  rw [show req.records.length + 1 + 1 = req.records.length + 2 from rfl, hst] at hcis hlast hadd herr
  dsimp only at hid hcount hcis hids hlen hlast hadd herr
  set w := min (C - last.recordsCount) req.records.length with hw
  -- what the last chunk holds after the call, whether or not it took records
  set c := if 0 < w then ci' else last with hc
  have hcid : c.id = last.id := by rw [hc]; split <;> [exact hid; rfl]
  have hpre : upsertChunkInfos (cs ++ [last]) (if 0 < w then [ci'] else []) = cs ++ [c] := by
    rw [hc]
    split
    · exact upsertChunkInfo_last (fun e he => hid ▸ hsorted e he) hid.symm
    · rfl
  refine ⟨by rw [hadd, Nat.zero_add], herr, fun h => absurd h hN, [c], new, ?_,
    ⟨c, rfl, hcid, ?_, by rw [hlen, Nat.min_comm]⟩, hids, hlast, full_of_dropLast_cons ?_ hfull⟩
  · -- the last chunk is replaced or kept, the new chunks go after it
    rw [hcis, List.nil_append, upsertChunkInfos, List.foldl_append, ← upsertChunkInfos,
      ← upsertChunkInfos, hpre, upsertChunkInfos_range new (cs ++ [c]) s.lastID (fun d hd => ?_) hids]
    rcases List.mem_append.mp hd with hd | hd
    · exact (hsorted d hd).le.trans hlastID
    · rw [List.mem_singleton.mp hd, hcid]
      exact hlastID
  · -- it took `w` records
    rw [Nat.min_comm, ← hw, hc]
    split
    · exact hcount
    · omega
  · -- a last chunk followed by a new one is full
    intro hne
    have hwlt : w < req.records.length := lt_of_ceil_div_pos hC (hlen ▸ List.length_pos.mpr hne)
    rw [hc]
    split
    · rw [hcount]; omega
    · omega

/-- With a codec filling chunks to `C ≥ 1`, an `AppendRecords` of `N` records on a log whose last
chunk holds at most `C` records adds all `N` with no error. It puts `min N (C - m)` of them into
the last chunk, which held `m`, and the rest into `⌈(N - min N (C - m)) / C⌉` new chunks named by
the next ULIDs, or, on a log with no chunk, all of them into `⌈N / C⌉` new chunks; every chunk it
touches but the last is left holding `C` records. -/
theorem appendRecords_fills_chunks (hC : 0 < C) (hcap : codec.Fills C) {s : LogStore}
    (hs : LogInv s) (hm : ∀ c ∈ s.catalog.getLast?, c.recordsCount ≤ C) (req : AppendRecordsRequest) :
    ∃ s' head new, appendRecords ⟨.ok (), none, codec, none⟩ s req = .returned s' req.records.length none ∧
      s'.catalog = s.catalog.dropLast ++ head ++ new ∧
      (match s.catalog.getLast? with
        | none => head = [] ∧ new.length = (req.records.length + C - 1) / C
        | some c => ∃ c', head = [c'] ∧ c'.id = c.id ∧
            c'.recordsCount = c.recordsCount + min req.records.length (C - c.recordsCount) ∧
            new.length = (req.records.length - min req.records.length (C - c.recordsCount) + C - 1) / C) ∧
      new.map ChunkInfo.id = List.range' (s.lastID + 1) new.length ∧ s'.lastID = s.lastID + new.length ∧
      ∀ c ∈ (head ++ new).dropLast, c.recordsCount = C := by
  generalize hst : appendLoop codec (req.records.length + 2)
    ⟨s.files, s.lastID, s.catalog.getLastD ⟨0, 0, 0, 0⟩, req.records, [], 0, none⟩ = st
  obtain ⟨hadd, herr, hnil, head, new, hcat, hrest⟩ := appendLoop_fills hC hcap hs hm req hst
  have happ : appendRecords ⟨.ok (), none, codec, none⟩ s req =
      if st.added > 0 then .returned ⟨upsertChunkInfos s.catalog st.cis, st.cleanFiles, st.lastID⟩ st.added none
      else .returned ⟨s.catalog, st.cleanFiles, st.lastID⟩ 0 st.gerr := by
    rw [← hst]
    rfl
  by_cases hN : req.records = []
  · rw [if_neg (by rw [hadd, hN]; decide), herr] at happ
    refine ⟨⟨s.catalog, st.cleanFiles, st.lastID⟩, head, new, by rw [happ, hN]; rfl, ?_, hrest⟩
    rw [← hcat, hnil hN]
    rfl
  · rw [if_pos (by rw [hadd]; exact List.length_pos.mpr hN), hadd] at happ
    exact ⟨_, head, new, happ, hcat, hrest⟩

/-- `appendRecords_fills_chunks` for five records on an empty log, with chunks of two records. -/
theorem appendRecords_fills_chunks_five :
    0 < 2 ∧ (capacityCodec 2).Fills 2 ∧ LogInv ⟨[], fun _ => none, 0⟩ ∧
      (∀ c ∈ ([] : List ChunkInfo).getLast?, c.recordsCount ≤ 2) ∧
      ∃ s' head new, appendRecords ⟨.ok (), none, capacityCodec 2, none⟩ ⟨[], fun _ => none, 0⟩
          ⟨"l", [[1], [2], [3], [4], [5]]⟩ = .returned s' 5 none ∧
        s'.catalog = [] ++ head ++ new ∧ (head = [] ∧ new.length = (5 + 2 - 1) / 2) ∧
        new.map ChunkInfo.id = List.range' (0 + 1) new.length ∧ s'.lastID = 0 + new.length ∧
        ∀ c ∈ (head ++ new).dropLast, c.recordsCount = 2 := by
  exact ⟨by decide, capacityCodec_fills 2, logInv_empty, by simp,
    appendRecords_fills_chunks (by decide) (capacityCodec_fills 2) logInv_empty (by simp) _⟩

end Fill

/-! ## Cancellation -/

/-- The codec `codec` behind a caller's context cancelled once the chunk `lastLive` is written:
`SetWriting` on a later chunk fails with the context's error. -/
def Codec.cancelAfter (codec : Codec) (lastLive : Nat) : Codec := fun files id newFile ps =>
  if lastLive < id then .error .canceled else codec files id newFile ps

/-- What an `AppendRecords` call meets when its caller's context is cancelled once the chunk
`lastLive` is written, with a live codec `codec` and a catalog whose `UpsertChunkInfos` answers
`upsert done` for a context that is `done` or not: the call hands the catalog its caller's
context, done by then. -/
def AppendEnv.cancelled (codec : Codec) (upsert : Bool → Option Error) (lastLive : Nat) :
    AppendEnv :=
  ⟨.ok (), none, codec.cancelAfter lastLive, upsert true⟩

/-- Wherever the caller's context is cancelled, a call that has written a record panics on a
catalog that fails on a done context. -/
theorem appendRecords_cancelled_panic (live : Codec) {upsert : Bool → Option Error}
    (hdone : (upsert true).isSome) (lastLive : Nat) (s : LogStore) (req : AppendRecordsRequest)
    (hadd : 0 < (appendLoop (live.cancelAfter lastLive) (req.records.length + 2)
      ⟨s.files, s.lastID, s.catalog.getLastD ⟨0, 0, 0, 0⟩, req.records, [], 0, none⟩).added) :
    appendRecords (.cancelled live upsert lastLive) s req =
      .panicked "unrecoverable error, data is corrupted" := by
  obtain ⟨e, he⟩ := Option.isSome_iff_exists.mp hdone
  simp only [List.getLastD_eq_getLast?] at hadd
  simp [appendRecords, AppendEnv.cancelled, getLastChunk, he, Nat.pos_iff_ne_zero.mp hadd]

/-- Two records on an empty log, with chunks of one record and the caller's context cancelled
once the first chunk is written: the first record is written, `SetWriting` on the second chunk
fails, and the call panics on a catalog that fails exactly on a done context, where with the
background context the comment at the upsert means it returns `Added = 1`. -/
theorem appendRecords_cancel_after_write :
    (fun done => if done then some Error.canceled else none) false = none ∧
    (appendLoop ((capacityCodec 1).cancelAfter 1) 4
      ⟨fun _ => none, 0, ⟨0, 0, 0, 0⟩, [[7], [8]], [], 0, none⟩).added = 1 ∧
    appendRecords (.cancelled (capacityCodec 1) (fun done => if done then some .canceled else none) 1)
      ⟨[], fun _ => none, 0⟩ ⟨"l", [[7], [8]]⟩ = .panicked "unrecoverable error, data is corrupted" ∧
    ∃ s', appendRecords ⟨.ok (), none, (capacityCodec 1).cancelAfter 1,
        (fun done => if done then some Error.canceled else none) false⟩
      ⟨[], fun _ => none, 0⟩ ⟨"l", [[7], [8]]⟩ = .returned s' 1 none :=
  ⟨rfl, rfl, rfl, _, rfl⟩

end Solaris

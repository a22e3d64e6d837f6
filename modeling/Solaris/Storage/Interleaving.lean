import Solaris.Storage.AppendCorrect
import Solaris.Storage.Count

/-!
# `CountRecords` while an `AppendRecords` runs

Only `AppendRecords` takes a log's lock. `CountRecords` takes its catalog snapshot with
`GetChunks` and scans the boundary chunk later, kept apart from writers by the chunk accessor
alone: a scan never overlaps a write to the same chunk, so it sees the chunk as it stands
between two writes. `appendStores` lists the stores another reader can see while one append
runs; an interleaving of the two calls is a snapshot taken from one of them and a scan of the
same one or a later one.

A write to the log's last chunk that lands between the snapshot and the scan lets the scan see
records that the snapshot's `RecordsCount` does not count (`countRecords_during_append_exceeds`).
What holds is `count ≤ total + w`, with `w` the number of records the append has written when
the scan runs (`countRecords_during_append`). It rests on `countRecords_le`: `count ≤ total + w`
whenever no chunk of the snapshot opens to more than `RecordsCount + w` records.
-/

namespace Solaris

/-! ## The stores an append passes through -/

/-- The states the loop of `AppendRecords` passes through from `st`: each turn's state after its
write, for at most `fuel` turns. -/
def appendLoopStates (codec : Codec) : Nat → AppendState → List AppendState
  | 0, st => [st]
  | fuel + 1, st =>
    if st.recs = [] then [st]
    else
      match appendIter codec st with
      | (st', true) => st :: appendLoopStates codec fuel st'
      | (st', false) => [st, st']

/-- The stores another reader can see while one `AppendRecords` call runs, each with the number
of records the call has written by then: the store before the call and after each turn of its
loop, the store once `DeleteFileIfEmpty` has run, and the one `UpsertChunkInfos` leaves. -/
def appendStores (env : AppendEnv) (s : LogStore) (req : AppendRecordsRequest) :
    List (LogStore × Nat) :=
  match env.lease, getLastChunk env.lastChunkErr s.catalog with
  | .ok (), .ok ci =>
    let st₀ : AppendState := ⟨s.files, s.lastID, ci, req.records, [], 0, none⟩
    let st := appendLoop env.codec (req.records.length + 2) st₀
    (appendLoopStates env.codec (req.records.length + 2) st₀).map
        (fun st => (⟨s.catalog, st.files, st.lastID⟩, st.added)) ++
      (⟨s.catalog, st.cleanFiles, st.lastID⟩, st.added) ::
        match appendRecords env s req with
        | .returned s' added _ => [(s', added)]
        | .panicked _ => []
  | _, _ => [(s, 0)]

/-! ## A bound on `count` -/

/-- When no chunk of the catalog opens to more than `RecordsCount + w` records, `CountRecords`
succeeds with `count ≤ total + w`. -/
theorem countRecords_le {cis : List ChunkInfo} {openChunk : Nat → Except Error (List Record)}
    {w : Nat} (hopen : ∀ c ∈ cis, ∀ rs, openChunk c.id = .ok rs → rs.length ≤ c.recordsCount + w)
    (req : QueryRecordsRequest) (hstart : ∀ text, req.startID ≠ .malformed text) :
    ∃ total count, countRecords ⟨.ok (), .ok cis, openChunk⟩ req = .ok (total, count) ∧
      count ≤ total + w := by
  by_cases hcis : cis.length = 0
  · exact ⟨0, 0, by simp [countRecords, hcis], Nat.zero_le _⟩
  cases hs : req.startID with
  | malformed t => exact absurd hs (hstart t)
  | empty =>
    simp only [countRecords, hcis, ↓reduceIte, hs, countLoop_eq]
    exact ⟨_, _, rfl, Nat.le_add_right _ _⟩
  | ulid u =>
    by_cases hin : 0 ≤ searchStart cis req.descending u ∧ searchStart cis req.descending u < cis.length
    · generalize hci : cis.get ⟨(searchStart cis req.descending u).toNat, by omega⟩ = ci
      have hmem : ci ∈ cis := hci ▸ List.get_mem _ _ _
      cases ho : openChunk ci.id with
      | error e =>
        exact ⟨0, 0, by simp only [countRecords, hcis, ↓reduceIte, hs, dif_pos hin, hci,
          Chunk.countRecords, ho], Nat.zero_le _⟩
      | ok rs =>
        have hle := (length_startCursor_le rs req.descending u).trans (hopen ci hmem rs ho)
        simp only [countRecords, hcis, ↓reduceIte, hs, dif_pos hin, hci, Chunk.countRecords, ho,
          countLoop_eq]
        exact ⟨_, _, rfl, by omega⟩
    · simp only [countRecords, hcis, ↓reduceIte, hs, dif_neg hin, countLoop_eq]
      exact ⟨_, _, rfl, Nat.le_add_right _ _⟩

/-- On a log satisfying `LogInv`, every chunk opens to exactly `RecordsCount` records. -/
theorem LogInv.openFile_length {s : LogStore} (hs : LogInv s) :
    ∀ c ∈ s.catalog, ∀ rs, openFile s.files c.id = .ok rs → rs.length ≤ c.recordsCount + 0 := by
  intro c hc rs ho
  obtain ⟨rs', hrs', hd⟩ := hs.catalog.describes c hc
  simp only [openFile, hrs', Except.ok.injEq] at ho
  rw [← ho, hd.count]
  exact Nat.le_refl _

/-! ## The append's stores -/

section Stores

variable {s : LogStore} {R : List Payload} {codec : Codec} {st : AppendState}

/-- Every state the loop passes through holds, in each chunk file, at most as many more records
than the store it started from as it has written. -/
theorem appendLoopStates_grow (hc : codec.Lawful) (fuel : Nat) (h : AppendInv s R st) :
    ∀ st' ∈ appendLoopStates codec fuel st, ∀ j,
      (chunkRecords st'.files j).length ≤ (chunkRecords s.files j).length + st'.added := by
  induction fuel generalizing st with
  | zero => simpa [appendLoopStates] using h.grow
  | succ n ih =>
    rw [appendLoopStates]
    split
    · simpa using h.grow
    · have hstep := appendIter_inv hc h
      rcases hit : appendIter codec st with ⟨st', _ | _⟩ <;> rw [hit] at hstep <;> dsimp only at hstep
      · rcases hstep with ⟨hgo, -⟩ | ⟨-, hb⟩
        · simp at hgo
        · intro x hx j
          rcases List.mem_pair.mp hx with rfl | rfl
          · exact h.grow j
          · have := hb.files_le j
            have := h.grow j
            rw [hb.added]
            omega
      · rcases hstep with ⟨-, h'⟩ | ⟨hgo, -⟩
        · intro x hx
          rcases List.mem_cons.mp hx with rfl | hx
          · exact h.grow
          · exact ih h' x hx
        · simp at hgo

/-- The stores of an append split into those that still have the catalog the call started from,
and at most one after `UpsertChunkInfos`, which satisfies `LogInv`; in every one of them each
chunk of the first catalog holds at most `RecordsCount` plus the records written so far. -/
theorem appendStores_split {env : AppendEnv} (henv : env.Lawful) (hs : LogInv s)
    (req : AppendRecordsRequest) :
    ∃ pre post, appendStores env s req = pre ++ post ∧ (∀ x ∈ pre, x.1.catalog = s.catalog) ∧
      post.length ≤ 1 ∧ (∀ x ∈ post, LogInv x.1) ∧
      ∀ x ∈ pre ++ post, ∀ c ∈ s.catalog, (chunkRecords x.1.files c.id).length ≤ c.recordsCount + x.2 := by
  have hcount : ∀ c ∈ s.catalog, (chunkRecords s.files c.id).length = c.recordsCount :=
    fun c hc => (hs.catalog.describes_chunkRecords hc).count.symm
  cases hl : env.lease with
  | error e =>
    refine ⟨[(s, 0)], [], by simp [appendStores, hl], by simp, by simp, by simp, ?_⟩
    simpa using fun c hc => (hcount c hc).le
  | ok u =>
    cases hg : getLastChunk env.lastChunkErr s.catalog with
    | error e =>
      refine ⟨[(s, 0)], [], by simp [appendStores, hl, hg], by simp, by simp, by simp, ?_⟩
      simpa using fun c hc => (hcount c hc).le
    | ok ci =>
      have hinit := AppendInv.init hs req.records fun hci => getLastChunk_last hg hci
      obtain ⟨s', added, err, hcall, hs', -⟩ := appendRecords_spec henv hs req
      have hloop := appendLoop_inv henv.codec (req.records.length + 2) hinit
      have hstates := appendLoopStates_grow henv.codec (req.records.length + 2) hinit
      have hcall' := hcall
      simp only [appendRecords, hl, hg, henv.upsert] at hcall'
      simp only [appendStores, hl, hg, hcall]
      generalize appendLoop env.codec (req.records.length + 2)
        ⟨s.files, s.lastID, ci, req.records, [], 0, none⟩ = st at hloop hcall'
      obtain ⟨st₀, h₀, hb⟩ := hloop
      have hlast : (chunkRecords s'.files = chunkRecords st.cleanFiles) ∧ added = st.added := by
        split at hcall'
        · cases hcall'; exact ⟨rfl, rfl⟩
        · cases hcall'; exact ⟨rfl, by omega⟩
      refine ⟨(appendLoopStates env.codec (req.records.length + 2)
          ⟨s.files, s.lastID, ci, req.records, [], 0, none⟩).map
          (fun st => (⟨s.catalog, st.files, st.lastID⟩, st.added)) ++
          [(⟨s.catalog, st.cleanFiles, st.lastID⟩, st.added)], [(s', added)], by simp, ?_, by simp,
        by simpa using hs', ?_⟩
      · intro x hx
        rcases List.mem_append.mp hx with hx | hx
        · obtain ⟨st', -, rfl⟩ := List.mem_map.mp hx; rfl
        · rw [List.mem_singleton.mp hx]
      · intro x hx c hc
        rw [← hcount c hc]
        simp only [List.mem_append, List.mem_map, List.mem_cons, List.mem_singleton,
          List.not_mem_nil, or_false] at hx
        rcases hx with (⟨st', hst', rfl⟩ | rfl) | rfl
        · exact hstates st' hst' c.id
        · dsimp only
          rw [hb.cleanFiles, hb.added]; exact h₀.grow c.id
        · dsimp only
          rw [hlast.1, hlast.2, hb.cleanFiles, hb.added]; exact h₀.grow c.id

end Stores

/-! ## Counting during an append -/

/-- The log of the two cases below: chunk 1, the only one, holds the record 1. -/
theorem logInv_chunkOne :
    LogInv ⟨[⟨1, 1, 1, 1⟩], fun id => if id = 1 then some [⟨1, []⟩] else none, 1⟩ := by
  refine ⟨⟨by simp, ?_, by simp⟩, ?_, by simp⟩
  · simp only [List.mem_singleton, forall_eq, if_true]
    exact ⟨_, rfl, by simp, rfl, rfl, rfl, by decide⟩
  · intro id rs h
    by_cases hid : id = 1
    · exact ⟨_, List.mem_singleton_self _, hid.symm⟩
    · simp [hid] at h

/-- Counting records on a log whose last chunk an append is growing: the snapshot lists chunk 1
with one record, the scan runs after the append wrote a second record into chunk 1 and before
its `UpsertChunkInfos`, and `CountRecords` reports `count = 2 > total = 1`. -/
theorem countRecords_during_append_exceeds :
    LogInv ⟨[⟨1, 1, 1, 1⟩], fun id => if id = 1 then some [⟨1, []⟩] else none, 1⟩ ∧
    ∃ a b, (appendStores ⟨.ok (), none, fun _ _ _ ps => .ok ((List.range ps.length).map (· + 2)), none⟩
        ⟨[⟨1, 1, 1, 1⟩], fun id => if id = 1 then some [⟨1, []⟩] else none, 1⟩ ⟨"l", [[]]⟩)[0]? =
        some a ∧
      (appendStores ⟨.ok (), none, fun _ _ _ ps => .ok ((List.range ps.length).map (· + 2)), none⟩
        ⟨[⟨1, 1, 1, 1⟩], fun id => if id = 1 then some [⟨1, []⟩] else none, 1⟩ ⟨"l", [[]]⟩)[1]? =
        some b ∧
      countRecords ⟨.ok (), .ok a.1.catalog, openFile b.1.files⟩ ⟨"l", .ulid 1, false, 0⟩ =
        .ok (1, 2) := by
  exact ⟨logInv_chunkOne, _, _, rfl, rfl, rfl⟩

/-- For one `AppendRecords` and one `CountRecords` on a log satisfying `LogInv`, with a lawful codec
and a catalog update that succeeds: whatever store the count takes its catalog snapshot from and
whatever later store it scans, `count` exceeds `total` by at most the number of records the append
has written when the scan runs. -/
theorem countRecords_during_append {env : AppendEnv} (henv : env.Lawful) {s : LogStore}
    (hs : LogInv s) (req : AppendRecordsRequest) (creq : QueryRecordsRequest)
    (hstart : ∀ text, creq.startID ≠ .malformed text) {i j : Nat} {a b : LogStore × Nat}
    (hij : i ≤ j) (ha : (appendStores env s req)[i]? = some a)
    (hb : (appendStores env s req)[j]? = some b) :
    ∃ total count, countRecords ⟨.ok (), .ok a.1.catalog, openFile b.1.files⟩ creq =
      .ok (total, count) ∧ count ≤ total + b.2 := by
  obtain ⟨pre, post, hsplit, hpre, hpost1, hpost, hgrow⟩ := appendStores_split henv hs req
  rw [hsplit] at ha hb
  have hbmem : b ∈ pre ++ post := List.getElem?_mem hb
  by_cases hi : i < pre.length
  · rw [List.getElem?_append_left hi] at ha
    rw [hpre a (List.getElem?_mem ha)]
    refine countRecords_le (fun c hc rs ho => ?_) creq hstart
    simp only [openFile] at ho
    split at ho
    · next rs' hrs' =>
      cases ho
      simpa [chunkRecords, hrs'] using hgrow b hbmem c hc
    · cases ho
  · have hlen := (List.getElem?_eq_some_iff.mp hb).1
    rw [List.length_append] at hlen
    obtain rfl : i = j := by omega
    rw [ha, Option.some.injEq] at hb
    subst hb
    rw [List.getElem?_append_right (by omega)] at ha
    obtain ⟨total, count, hc, hle⟩ :=
      countRecords_le (hpost a (List.getElem?_mem ha)).openFile_length creq hstart
    exact ⟨total, count, hc, by omega⟩

open Classical in
/-- `countRecords_during_append` on a log whose chunk 1 holds one record, for an append of one
record with a codec that numbers records from 2 while the log's records are below 2: the
snapshot is taken before the append and the scan after its first turn, which wrote the record
into chunk 1, so `w = 1` and the count meets its bound, `count = 2 = total + w`. -/
theorem countRecords_during_append_after_write :
    let env : AppendEnv := ⟨.ok (), none, fun files _ _ ps =>
      if ∀ j rs, files j = some rs → ∀ r ∈ rs, r.id < 2 then .ok (List.range' 2 ps.length)
      else .ok [], none⟩
    let s : LogStore := ⟨[⟨1, 1, 1, 1⟩], fun id => if id = 1 then some [⟨1, []⟩] else none, 1⟩
    let creq : QueryRecordsRequest := ⟨"l", .ulid 1, false, 0⟩
    env.Lawful ∧ LogInv s ∧ (∀ text, creq.startID ≠ .malformed text) ∧ 0 ≤ 1 ∧
    ∃ a b, (appendStores env s ⟨"l", [[]]⟩)[0]? = some a ∧
      (appendStores env s ⟨"l", [[]]⟩)[1]? = some b ∧ b.2 = 1 ∧
      (∃ total count, countRecords ⟨.ok (), .ok a.1.catalog, openFile b.1.files⟩ creq =
        .ok (total, count) ∧ count ≤ total + b.2) ∧
      countRecords ⟨.ok (), .ok a.1.catalog, openFile b.1.files⟩ creq = .ok (1, 2) := by
  intro env s creq
  have henv : env.Lawful := ⟨Codec.lawful_below 2, rfl⟩
  have hstart : ∀ text, creq.startID ≠ .malformed text := by simp [creq]
  have hbelow : ∀ j rs, (fun id => if id = 1 then some [(⟨1, []⟩ : Record)] else none) j = some rs →
      ∀ r ∈ rs, r.id < 2 := by
    intro j rs hj r hr
    by_cases h1 : j = 1 <;> simp [h1] at hj
    simp [← hj] at hr
    simp [hr]
  -- the snapshot is the log as it was; the scan sees the record 2 the first turn wrote
  have ha : (appendStores env s ⟨"l", [[]]⟩)[0]? = some (s, 0) := by
    simp [appendStores, env, s, getLastChunk, appendLoopStates, appendIter, appendChunk,
      if_pos hbelow, AppendRecordsResult.ofIDs]
  have hb : (appendStores env s ⟨"l", [[]]⟩)[1]? =
      some (⟨s.catalog, setFile s.files 1 [⟨1, []⟩, ⟨2, []⟩], 1⟩, 1) := by
    simp [appendStores, env, s, getLastChunk, appendLoopStates, appendIter, appendChunk,
      if_pos hbelow, AppendRecordsResult.ofIDs, chunkRecords, newRecords]
  exact ⟨henv, logInv_chunkOne, hstart, Nat.zero_le 1, _, _, ha, hb, rfl,
    countRecords_during_append henv logInv_chunkOne _ creq hstart (Nat.zero_le 1) ha hb,
    by simp only [s, creq]; rfl⟩

end Solaris

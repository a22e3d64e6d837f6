import Solaris.Storage.Append

/-!
# `AppendRecords` keeps the chunk invariant

`LogInv` is the invariant the write path keeps on a log: the catalog describes the chunk files
exactly (`CatalogInv`), every chunk file belongs to a listed chunk, so that no chunk outside the
catalog holds records or is left behind empty, and every chunk ID is one `NewID` has handed out.

The codec is only assumed lawful (`Codec.Lawful`): it fails without writing, or writes a prefix
of what it is offered under strictly increasing IDs above every ID the log's files hold.

The loop keeps `AppendInv`, which relates its variables to the store the call started from:
the store the call would leave if the loop stopped there satisfies `LogInv`, and its records are
the log's records followed by the first `added` offered ones. A turn that breaks leaves, once
`DeleteFileIfEmpty` has run, the chunk files of the state before it (`appendIter_inv`).

## Key results

- `appendRecords_spec`: one call on a log satisfying `LogInv` returns, keeps `LogInv`, appends
  exactly the first `Added` offered records, `Added` being at most the number offered, leaves the
  catalog and the files as they were when it adds nothing, and returns an error only with
  `Added = 0`.
- `appendRun_spec`: the same for every sequence of calls.
-/

namespace Solaris

/-! ## Assumptions -/

/-- The codec behaviour the write path relies on: it fails without writing, or writes a prefix
of the payloads it is offered, with strictly increasing IDs above every ID the log's files
hold. -/
structure Codec.Lawful (codec : Codec) : Prop where
  length_le : ∀ files id newFile ps ids, codec files id newFile ps = .ok ids → ids.length ≤ ps.length
  increasing : ∀ files id newFile ps ids, codec files id newFile ps = .ok ids → ids.Chain' (· < ·)
  above : ∀ files id newFile ps ids, codec files id newFile ps = .ok ids →
    ∀ i ∈ ids, ∀ j rs, files j = some rs → ∀ r ∈ rs, r.id < i

open Classical in
/-- A lawful codec that writes: it numbers the payloads from `K` on while every record of the
files is below `K`, and writes nothing otherwise. Its test reads every file, so it is decided
classically. -/
theorem Codec.lawful_below (K : Nat) :
    Codec.Lawful fun files _ _ ps =>
      if ∀ j rs, files j = some rs → ∀ r ∈ rs, r.id < K then .ok (List.range' K ps.length)
      else .ok [] := by
  refine ⟨fun _ _ _ _ _ h => ?_, fun _ _ _ _ _ h => ?_, fun _ _ _ _ _ h => ?_⟩ <;>
    split at h <;> cases h
  · simp
  · simp
  · exact (List.pairwise_lt_range' _ _).chain'
  · exact List.chain'_nil
  · next hbelow =>
    intro i hi j rs hj r hr
    exact Nat.lt_of_lt_of_le (hbelow j rs hj r hr) (List.mem_range'_1.mp hi).1
  · simp

/-- An environment with a lawful codec in which `UpsertChunkInfos` succeeds. -/
structure AppendEnv.Lawful (env : AppendEnv) : Prop where
  codec : env.codec.Lawful
  upsert : env.upsertErr = none

/-- The invariant of a log: the catalog describes the chunk files exactly, every chunk file is
a listed chunk, and no chunk ID is above the last one `NewID` handed out. -/
structure LogInv (s : LogStore) : Prop where
  catalog : CatalogInv s.catalog s.files
  listed : ∀ id rs, s.files id = some rs → ∃ c ∈ s.catalog, c.id = id
  fresh : ∀ c ∈ s.catalog, c.id ≤ s.lastID

/-- The log before its first append: no chunk and no file. -/
theorem logInv_empty : LogInv ⟨[], fun _ => none, 0⟩ :=
  ⟨⟨List.sorted_nil, by simp, List.chain'_nil⟩, by simp, by simp⟩

/-! ## Chunk files -/

section Files

variable {files : Nat → Option (List Record)} {id : Nat}

@[simp] theorem setFile_setFile (rs rs' : List Record) :
    setFile (setFile files id rs) id rs' = setFile files id rs' := by
  funext j
  by_cases hj : j = id <;> simp [setFile, hj]

@[simp] theorem chunkRecords_setFile_self (rs : List Record) :
    chunkRecords (setFile files id rs) id = rs := by
  simp [chunkRecords]

theorem setFile_chunkRecords (h : (files id).isSome) : setFile files id (chunkRecords files id) = files := by
  funext j
  by_cases hj : j = id
  · subst hj
    obtain ⟨rs, hrs⟩ := Option.isSome_iff_exists.mp h
    simp [chunkRecords, hrs]
  · simp [setFile, hj]

/-- Files of which the only one is an empty chunk hold no record, so none at or above a bound. -/
theorem below_setFile_nil (id K : Nat) :
    ∀ j rs, setFile (fun _ => none) id [] j = some rs → ∀ r ∈ rs, r.id < K := by
  intro j rs hj r hr
  by_cases h : j = id <;> simp [setFile, h] at hj
  simp [hj] at hr

/-- Deleting the empty file of a chunk that had none restores the files. -/
theorem deleteFileIfEmpty_setFile_nil (h : files id = none) :
    deleteFileIfEmpty (setFile files id []) id = files := by
  funext j
  by_cases hj : j = id
  · subst hj; simp [deleteFileIfEmpty, h]
  · simp [deleteFileIfEmpty, setFile, hj]

theorem deleteFileIfEmpty_of_ne (h : files id ≠ some []) : deleteFileIfEmpty files id = files := by
  funext j
  by_cases hj : j = id
  · subst hj; simp [deleteFileIfEmpty, h]
  · simp [deleteFileIfEmpty, hj]

/-- Writing a file no more than `k` records longer makes no file more than `k` longer. -/
theorem length_chunkRecords_setFile_le {rs : List Record} {k : Nat}
    (h : rs.length ≤ (chunkRecords files id).length + k) (j : Nat) :
    (chunkRecords (setFile files id rs) j).length ≤ (chunkRecords files j).length + k := by
  by_cases hj : j = id
  · subst hj; simpa using h
  · simp [chunkRecords, setFile, hj]

theorem contents_congr {cis : List ChunkInfo} {files' : Nat → Option (List Record)}
    (hf : ∀ c ∈ cis, files' c.id = files c.id) : contents cis files' = contents cis files := by
  induction cis with
  | nil => rfl
  | cons c cs ih =>
    simp [chunkRecords, hf c (List.mem_cons_self _ _), ih fun d hd => hf d (List.mem_cons_of_mem _ hd)]

end Files

/-! ## The records a write adds -/

section Writes

variable {ids : List Nat} {ps : List Payload}

theorem map_id_newRecords (h : ids.length ≤ ps.length) : (newRecords ids ps).map Record.id = ids := by
  induction ids generalizing ps with
  | nil => rfl
  | cons i ids ih =>
    cases ps with
    | nil => simp at h
    | cons p ps =>
      simp only [newRecords, List.zipWith_cons_cons, List.map_cons] at ih ⊢
      rw [ih (by simpa using h)]

theorem map_payload_newRecords (ids : List Nat) (ps : List Payload) :
    (newRecords ids ps).map Record.payload = ps.take ids.length := by
  induction ids generalizing ps with
  | nil => rfl
  | cons i ids ih =>
    cases ps with
    | nil => rfl
    | cons p ps =>
      simp only [newRecords, List.zipWith_cons_cons, List.map_cons, List.length_cons,
        List.take_succ_cons] at ih ⊢
      rw [ih]

/-- The records a write adds are described by the IDs the codec gave them. -/
theorem describes_newRecords (hne : ids ≠ []) (hlen : ids.length ≤ ps.length)
    (hinc : ids.Chain' (· < ·)) (id : Nat) :
    ChunkInfo.Describes ⟨id, ids.headD 0, ids.getLastD 0, ids.length⟩ (newRecords ids ps) := by
  have hmap := map_id_newRecords hlen
  obtain ⟨i, is, rfl⟩ := List.exists_cons_of_ne_nil hne
  refine ⟨?_, by simpa [newRecords] using hlen, by rw [hmap]; rfl, ?_, ?_⟩
  · intro hnil
    simp [hnil] at hmap
  · rw [hmap, List.getLastD_eq_getLast?, List.getLast?_eq_getLast _ hne]; rfl
  · rw [hmap]; exact List.chain'_iff_pairwise.mp hinc

/-- A chunk described by `rs`, grown by records `rs'` described by `c'` and all above those of
`rs`, is described by its old `Min`, the new `Max` and the summed count. -/
theorem ChunkInfo.Describes.append {c c' : ChunkInfo} {rs rs' : List Record} (h : c.Describes rs)
    (h' : c'.Describes rs') (hlt : ∀ r ∈ rs, ∀ r' ∈ rs', r.id < r'.id) (id : Nat) :
    ChunkInfo.Describes ⟨id, c.min, c'.max, c.recordsCount + c'.recordsCount⟩ (rs ++ rs') where
  ne_nil := by simp [h.ne_nil]
  count := by simp [h.count, h'.count]
  head_id := by rw [List.map_append, List.head?_append, h.head_id]; rfl
  last_id := by rw [List.map_append, List.getLast?_append, h'.last_id]; rfl
  sorted := List.map_append Record.id rs rs' ▸ List.pairwise_append.mpr ⟨h.sorted, h'.sorted, by
    simp only [List.mem_map]
    rintro _ ⟨r, hr, rfl⟩ _ ⟨r', hr', rfl⟩
    exact hlt r hr r' hr'⟩

end Writes

/-! ## Growing a catalog -/

namespace CatalogInv

variable {cis : List ChunkInfo} {files : Nat → Option (List Record)}

/-- A new chunk after the last one, with an ID above every listed one and records above every
`Max`, keeps the chunk invariant. -/
theorem snoc (h : CatalogInv cis files) {c : ChunkInfo} {rs : List Record}
    (hid : ∀ d ∈ cis, d.id < c.id) (hc : c.Describes rs) (hmax : ∀ d ∈ cis, d.max < c.min) :
    CatalogInv (cis ++ [c]) (setFile files c.id rs) where
  sorted_id := by
    rw [List.map_append, List.map_singleton]
    refine List.pairwise_append.mpr ⟨h.sorted_id, List.pairwise_singleton _ _, ?_⟩
    simp only [List.mem_map, List.mem_singleton]
    rintro _ ⟨d, hd, rfl⟩ _ rfl
    exact hid d hd
  describes d hd := by
    rcases List.mem_append.mp hd with hd | hd
    · rw [setFile_of_ne _ (Nat.ne_of_lt (hid d hd))]
      exact h.describes d hd
    · obtain rfl := List.mem_singleton.mp hd
      exact ⟨rs, setFile_self .., hc⟩
  chain := h.chain.append (List.chain'_singleton c) fun x hx y hy => by
    obtain rfl : c = y := by simpa using hy
    exact hmax x (List.mem_of_mem_getLast? hx)

/-- The last chunk replaced by one with its ID and `Min` that describes its new file keeps the
chunk invariant. -/
theorem setLast {d c : ChunkInfo} (h : CatalogInv (cis ++ [d]) files) (hid : c.id = d.id)
    (hmin : c.min = d.min) {rs : List Record} (hc : c.Describes rs) :
    CatalogInv (cis ++ [c]) (setFile files c.id rs) where
  sorted_id := by simpa [hid] using h.sorted_id
  describes e he := by
    rcases List.mem_append.mp he with he | he
    · have hs := h.sorted_id
      rw [List.map_append, List.map_singleton] at hs
      have hlt := (List.pairwise_append.mp hs).2.2 _ (List.mem_map_of_mem _ he) _
        (List.mem_singleton_self _)
      rw [setFile_of_ne _ (by omega)]
      exact h.describes e (List.mem_append_left _ he)
    · obtain rfl := List.mem_singleton.mp he
      exact ⟨rs, setFile_self .., hc⟩
  chain := by
    obtain ⟨h1, -, h3⟩ := List.chain'_append.mp h.chain
    refine List.chain'_append.mpr ⟨h1, List.chain'_singleton c, fun x hx y hy => ?_⟩
    obtain rfl : c = y := by simpa using hy
    rw [hmin]
    exact h3 x hx d (by simp)

end CatalogInv

/-! ## `UpsertChunkInfos` -/

theorem upsertChunkInfo_of_lt {cis : List ChunkInfo} {c : ChunkInfo} (h : ∀ d ∈ cis, d.id < c.id) :
    upsertChunkInfo cis c = cis ++ [c] := by
  induction cis with
  | nil => rfl
  | cons d ds ih =>
    have hd := h d (List.mem_cons_self _ _)
    rw [upsertChunkInfo, if_neg (by omega), if_neg (by omega),
      ih fun e he => h e (List.mem_cons_of_mem _ he)]
    rfl

theorem upsertChunkInfo_last {cis : List ChunkInfo} {c d : ChunkInfo} (h : ∀ e ∈ cis, e.id < c.id)
    (hd : d.id = c.id) : upsertChunkInfo (cis ++ [d]) c = cis ++ [c] := by
  induction cis with
  | nil => simp [upsertChunkInfo, hd]
  | cons e es ih =>
    have he := h e (List.mem_cons_self _ _)
    rw [List.cons_append, upsertChunkInfo, if_neg (by omega), if_neg (by omega),
      ih fun e he => h e (List.mem_cons_of_mem _ he)]
    rfl

theorem upsertChunkInfos_snoc (catalog cis : List ChunkInfo) (c : ChunkInfo) :
    upsertChunkInfos catalog (cis ++ [c]) = upsertChunkInfo (upsertChunkInfos catalog cis) c := by
  simp [upsertChunkInfos]

/-! ## The loop invariant -/

/-- The catalog a call leaves if its loop stops at `st`: the chunks written so far upserted into
the catalog it started from. -/
def AppendState.catalogAfter (catalog : List ChunkInfo) (st : AppendState) : List ChunkInfo :=
  upsertChunkInfos catalog st.cis

/-- What the loop of a call on the store `s`, offered the payloads `R`, keeps between turns. -/
structure AppendInv (s : LogStore) (R : List Payload) (st : AppendState) : Prop where
  inv : LogInv ⟨st.catalogAfter s.catalog, st.files, st.lastID⟩
  recs : st.recs = R.drop st.added
  records : (contents (st.catalogAfter s.catalog) st.files).map Record.payload =
    s.records.map Record.payload ++ R.take st.added
  cur : st.ci.recordsCount ≠ 0 → st.cis = [] ∧ s.catalog.getLast? = some st.ci
  untouched : st.added = 0 → st.cis = [] ∧ st.files = s.files
  grow : ∀ j, (chunkRecords st.files j).length ≤ (chunkRecords s.files j).length + st.added
  added_le : st.added ≤ R.length

/-- A turn that breaks leaves, once `DeleteFileIfEmpty` has run, the chunk files, the chunks
written and the count of `st`, and a ULID generator no further back. -/
structure AppendBreak (st st' : AppendState) : Prop where
  cleanFiles : st'.cleanFiles = st.files
  cis : st'.cis = st.cis
  added : st'.added = st.added
  lastID : st.lastID ≤ st'.lastID
  files_le : ∀ j, (chunkRecords st'.files j).length ≤ (chunkRecords st.files j).length

section Loop

variable {s : LogStore} {R : List Payload} {codec : Codec} {st : AppendState}

/-- The file `NewID` names next does not exist yet. -/
theorem AppendInv.files_next (h : AppendInv s R st) : st.files (st.lastID + 1) = none := by
  cases hf : st.files (st.lastID + 1) with
  | none => rfl
  | some rs =>
    obtain ⟨c, hc, hcid⟩ := h.inv.listed _ _ hf
    have : c.id ≤ st.lastID := h.inv.fresh c hc
    omega

/-- Between turns `DeleteFileIfEmpty` removes nothing: every file is a listed chunk's, and
listed chunks hold records. -/
theorem AppendInv.cleanFiles_eq (h : AppendInv s R st) : st.cleanFiles = st.files := by
  unfold AppendState.cleanFiles
  split
  · refine deleteFileIfEmpty_of_ne fun hnil => ?_
    obtain ⟨c, hc, hcid⟩ := h.inv.listed _ _ hnil
    obtain ⟨rs, hrs, hd⟩ := h.inv.catalog.describes c hc
    change st.files c.id = some rs at hrs
    rw [hcid, hnil, Option.some.injEq] at hrs
    exact hd.ne_nil hrs.symm
  · rfl

/-- A write takes no more records than are left, so the count stays within those offered. -/
theorem AppendInv.added_add_le (h : AppendInv s R st) {n : Nat} (hn : n ≤ st.recs.length) :
    st.added + n ≤ R.length := by
  have := h.added_le
  rw [h.recs, List.length_drop] at hn
  omega

/-- A first write to a new chunk keeps the loop invariant. -/
theorem AppendInv.write_new (hc : codec.Lawful) (h : AppendInv s R st) {ids : List Nat}
    (hcod : codec (setFile st.files (st.lastID + 1) []) (st.lastID + 1) true st.recs = .ok ids)
    (hw : 0 < ids.length) :
    AppendInv s R ⟨setFile st.files (st.lastID + 1) (newRecords ids st.recs), st.lastID + 1,
      ⟨st.lastID + 1, ids.headD 0, ids.getLastD 0, 0⟩, st.recs.drop ids.length,
      st.cis ++ [⟨st.lastID + 1, ids.headD 0, ids.getLastD 0, ids.length⟩], st.added + ids.length,
      st.gerr⟩ := by
  -- the codec wrote a prefix of the records, under IDs above every one the files hold
  have hne : ids ≠ [] := List.ne_nil_of_length_pos hw
  have hlen := hc.length_le _ _ _ _ _ hcod
  have habove := hc.above _ _ _ _ _ hcod
  -- the new chunk goes after every listed one, and its records after theirs
  set P := st.catalogAfter s.catalog
  have hP : ∀ d ∈ P, d.id < st.lastID + 1 := fun d hd => Nat.lt_succ_of_le (h.inv.fresh d hd)
  have hafter : upsertChunkInfos s.catalog (st.cis ++ [⟨st.lastID + 1, ids.headD 0, ids.getLastD 0,
      ids.length⟩]) = P ++ [⟨st.lastID + 1, ids.headD 0, ids.getLastD 0, ids.length⟩] := by
    rw [upsertChunkInfos_snoc, upsertChunkInfo_of_lt hP]; rfl
  have hmax : ∀ d ∈ P, d.max < ids.headD 0 := fun d hd => by
    obtain ⟨rs, hrs, hd'⟩ := h.inv.catalog.describes d hd
    obtain ⟨r, hr, hrid⟩ := hd'.exists_max
    rw [← hrid]
    refine habove _ ?_ d.id rs ?_ r hr
    · obtain ⟨i, is, rfl⟩ := List.exists_cons_of_ne_nil hne; simp
    · rw [setFile_of_ne _ (Nat.ne_of_lt (hP d hd))]; exact hrs
  have hfiles : ∀ d ∈ P, setFile st.files (st.lastID + 1) (newRecords ids st.recs) d.id = st.files d.id :=
    fun d hd => setFile_of_ne _ (Nat.ne_of_lt (hP d hd))
  refine ⟨⟨?_, ?_, ?_⟩, ?_, ?_, by simp, by simp [hne], fun j => ?_, h.added_add_le hlen⟩ <;>
    simp only [AppendState.catalogAfter, hafter]
  · -- the catalog describes the files
    exact h.inv.catalog.snoc hP (describes_newRecords hne hlen (hc.increasing _ _ _ _ _ hcod) _) hmax
  · -- every file is a listed chunk's
    intro j rs hj
    by_cases hjn : j = st.lastID + 1
    · exact ⟨_, List.mem_append_right _ (List.mem_singleton_self _), hjn.symm⟩
    · rw [setFile_of_ne _ hjn] at hj
      obtain ⟨c, hc, hcid⟩ := h.inv.listed _ _ hj
      exact ⟨c, List.mem_append_left _ hc, hcid⟩
  · -- no chunk ID is above the generator
    intro d hd
    rcases List.mem_append.mp hd with hd | hd
    · exact Nat.le_succ_of_le (h.inv.fresh d hd)
    · simp [List.mem_singleton.mp hd]
  · rw [h.recs, List.drop_drop]
  · -- the log's records are followed by those written
    rw [contents_append, contents_congr hfiles, List.map_append, h.records, contents_cons,
      contents_nil, chunkRecords_setFile_self, List.append_nil, map_payload_newRecords, h.recs,
      List.append_assoc, List.take_add]
  · -- no file grew by more than what was written
    have hnew : (newRecords ids st.recs).length ≤ (chunkRecords st.files (st.lastID + 1)).length +
        ids.length := by
      simp only [newRecords, List.length_zipWith]; omega
    have := h.grow j
    have := length_chunkRecords_setFile_le hnew j
    omega

/-- A write that grows the log's last chunk keeps the loop invariant. -/
theorem AppendInv.write_last (hc : codec.Lawful) (h : AppendInv s R st) (hrc : st.ci.recordsCount ≠ 0)
    {ids : List Nat} (hcod : codec st.files st.ci.id false st.recs = .ok ids) (hw : 0 < ids.length) :
    AppendInv s R ⟨setFile st.files st.ci.id (chunkRecords st.files st.ci.id ++ newRecords ids st.recs),
      st.lastID, ⟨st.ci.id, st.ci.min, ids.getLastD 0, 0⟩, st.recs.drop ids.length,
      st.cis ++ [⟨st.ci.id, st.ci.min, ids.getLastD 0, st.ci.recordsCount + ids.length⟩],
      st.added + ids.length, st.gerr⟩ := by
  -- the codec wrote a prefix of the records, under IDs above every one the files hold
  have hne : ids ≠ [] := List.ne_nil_of_length_pos hw
  have hlen := hc.length_le _ _ _ _ _ hcod
  have habove := hc.above _ _ _ _ _ hcod
  -- the chunk written is the catalog's last, after every other one
  obtain ⟨hcis, hlast⟩ := h.cur hrc
  obtain ⟨init, hC⟩ := List.getLast?_eq_some_iff.mp hlast
  have hP : st.catalogAfter s.catalog = init ++ [st.ci] := by
    rw [AppendState.catalogAfter, hcis, hC]; rfl
  have hcat := h.inv.catalog
  change CatalogInv (st.catalogAfter s.catalog) st.files at hcat
  rw [hP] at hcat
  have hinit : ∀ e ∈ init, e.id < st.ci.id := by
    have hs := hcat.sorted_id
    rw [List.map_append, List.map_singleton] at hs
    exact fun e he => (List.pairwise_append.mp hs).2.2 _ (List.mem_map_of_mem _ he) _
      (List.mem_singleton_self _)
  have hafter : upsertChunkInfos s.catalog (st.cis ++ [⟨st.ci.id, st.ci.min, ids.getLastD 0,
      st.ci.recordsCount + ids.length⟩]) =
      init ++ [⟨st.ci.id, st.ci.min, ids.getLastD 0, st.ci.recordsCount + ids.length⟩] := by
    rw [hcis, hC]
    exact upsertChunkInfo_last hinit rfl
  -- its records are followed by the new ones
  have hmem : st.ci ∈ init ++ [st.ci] := List.mem_append_right _ (List.mem_singleton_self _)
  obtain ⟨old, hold, hdold⟩ := hcat.describes _ hmem
  have hold' : chunkRecords st.files st.ci.id = old := by simp [chunkRecords, hold]
  have hlt : ∀ r ∈ old, ∀ r' ∈ newRecords ids st.recs, r.id < r'.id := fun r hr r' hr' =>
    habove _ (map_id_newRecords hlen ▸ List.mem_map_of_mem Record.id hr') _ _ hold r hr
  have hfiles : ∀ e ∈ init, setFile st.files st.ci.id (chunkRecords st.files st.ci.id ++
      newRecords ids st.recs) e.id = st.files e.id :=
    fun e he => setFile_of_ne _ (Nat.ne_of_lt (hinit e he))
  have hrec := h.records
  rw [hP, contents_append, contents_cons, contents_nil, List.append_nil, List.map_append,
    hold'] at hrec
  refine ⟨⟨?_, ?_, ?_⟩, ?_, ?_, by simp, by simp [hne], fun j => ?_, h.added_add_le hlen⟩ <;>
    simp only [AppendState.catalogAfter, hafter]
  · -- the catalog describes the files
    rw [hold']
    refine hcat.setLast ?_ ?_ (hdold.append (describes_newRecords hne hlen
      (hc.increasing _ _ _ _ _ hcod) st.ci.id) hlt st.ci.id) <;> rfl
  · -- every file is a listed chunk's
    intro j rs hj
    by_cases hjc : j = st.ci.id
    · exact ⟨_, List.mem_append_right _ (List.mem_singleton_self _), hjc.symm⟩
    · rw [setFile_of_ne _ hjc] at hj
      obtain ⟨c, hc, hcid⟩ := h.inv.listed _ _ hj
      change c ∈ st.catalogAfter s.catalog at hc
      rw [hP] at hc
      rcases List.mem_append.mp hc with hc | hc
      · exact ⟨c, List.mem_append_left _ hc, hcid⟩
      · rw [List.mem_singleton.mp hc] at hcid
        exact absurd hcid.symm hjc
  · -- no chunk ID is above the generator
    have hfr : ∀ c ∈ init ++ [st.ci], c.id ≤ st.lastID := hP ▸ h.inv.fresh
    intro d hd
    rcases List.mem_append.mp hd with hd | hd
    · exact hfr d (List.mem_append_left _ hd)
    · rw [List.mem_singleton.mp hd]; exact hfr st.ci hmem
  · rw [h.recs, List.drop_drop]
  · -- the log's records are followed by those written
    rw [contents_append, contents_congr hfiles, contents_cons, contents_nil, List.append_nil,
      chunkRecords_setFile_self, hold', List.map_append, List.map_append, map_payload_newRecords,
      ← List.append_assoc, hrec, h.recs, List.append_assoc, List.take_add]
  · -- no file grew by more than what was written
    have hnew : (chunkRecords st.files st.ci.id ++ newRecords ids st.recs).length ≤
        (chunkRecords st.files st.ci.id).length + ids.length := by
      simp only [newRecords, List.length_append, List.length_zipWith]; omega
    have := h.grow j
    have := length_chunkRecords_setFile_le hnew j
    omega

/-- A turn that goes on keeps the loop invariant; a turn that breaks leaves, once
`DeleteFileIfEmpty` has run, the chunk files, chunks and count of the state before it. -/
theorem appendIter_inv (hc : codec.Lawful) (h : AppendInv s R st) :
    ((appendIter codec st).2 = true ∧ AppendInv s R (appendIter codec st).1) ∨
      ((appendIter codec st).2 = false ∧ AppendBreak st (appendIter codec st).1) := by
  unfold appendIter
  by_cases h0 : st.ci.recordsCount = 0
  · have hnone := h.files_next
    simp only [h0, ↓reduceIte, decide_True, appendChunk, chunkRecords, hnone, Option.getD_none]
    rcases hcod : codec (setFile st.files (st.lastID + 1) []) (st.lastID + 1) true st.recs
      with e | ids <;> simp only [hcod]
    · exact .inr ⟨trivial, by simp [AppendState.cleanFiles, deleteFileIfEmpty_setFile_nil hnone], rfl,
        rfl, Nat.le_succ _, fun j => by by_cases hj : j = st.lastID + 1 <;> simp [chunkRecords, setFile, hj]⟩
    · by_cases hw : 0 < ids.length
      · refine .inl ⟨by simp [AppendRecordsResult.ofIDs, hw], ?_⟩
        simpa [AppendRecordsResult.ofIDs, hw] using h.write_new hc hcod hw
      · obtain rfl : ids = [] := List.eq_nil_of_length_eq_zero (by omega)
        exact .inr ⟨by simp [AppendRecordsResult.ofIDs], by
          simp [AppendRecordsResult.ofIDs, AppendState.cleanFiles, newRecords,
            deleteFileIfEmpty_setFile_nil hnone], rfl, rfl, by simp [AppendRecordsResult.ofIDs],
          fun j => by
            by_cases hj : j = st.lastID + 1 <;>
              simp [AppendRecordsResult.ofIDs, chunkRecords, setFile, hj, newRecords]⟩
  · simp only [h0, ↓reduceIte, decide_False, appendChunk, Bool.false_eq_true]
    rcases hcod : codec st.files st.ci.id false st.recs with e | ids <;> simp only [hcod]
    · exact .inr ⟨trivial, by simp [AppendState.cleanFiles, h0], rfl, rfl, le_rfl, fun _ => le_rfl⟩
    · by_cases hw : 0 < ids.length
      · refine .inl ⟨by simp [AppendRecordsResult.ofIDs, hw], ?_⟩
        simpa [AppendRecordsResult.ofIDs, hw, h0] using h.write_last hc h0 hcod hw
      · obtain rfl : ids = [] := List.eq_nil_of_length_eq_zero (by omega)
        obtain ⟨hcis, hlast⟩ := h.cur h0
        have hsome : (st.files st.ci.id).isSome := by
          have hmem : st.ci ∈ st.catalogAfter s.catalog := by
            rw [AppendState.catalogAfter, hcis]
            exact List.mem_of_mem_getLast? hlast
          obtain ⟨rs, hrs, -⟩ := h.inv.catalog.describes _ hmem
          change st.files st.ci.id = some rs at hrs
          simp [hrs]
        refine .inl ⟨by simp [AppendRecordsResult.ofIDs, h0], ?_⟩
        simp only [AppendRecordsResult.ofIDs, newRecords, List.zipWith_nil_left, List.append_nil,
          setFile_chunkRecords hsome, List.length_nil, gt_iff_lt, Nat.lt_irrefl, ↓reduceIte, h0]
        exact ⟨h.inv, h.recs, h.records, fun h' => absurd rfl h', h.untouched, h.grow, h.added_le⟩

/-- Every way the loop ends is, once `DeleteFileIfEmpty` has run, a state that keeps the loop
invariant. -/
theorem appendLoop_inv (hc : codec.Lawful) (fuel : Nat) (h : AppendInv s R st) :
    ∃ st₀, AppendInv s R st₀ ∧ AppendBreak st₀ (appendLoop codec fuel st) := by
  induction fuel generalizing st with
  | zero => exact ⟨st, h, h.cleanFiles_eq, rfl, rfl, le_rfl, fun _ => le_rfl⟩
  | succ n ih =>
    rw [appendLoop]
    split
    · exact ⟨st, h, h.cleanFiles_eq, rfl, rfl, le_rfl, fun _ => le_rfl⟩
    · have hstep := appendIter_inv hc h
      rcases hit : appendIter codec st with ⟨st', _ | _⟩ <;> rw [hit] at hstep
      · rcases hstep with ⟨hgo, -⟩ | ⟨-, hb⟩
        · simp at hgo
        · exact ⟨st, h, hb⟩
      · rcases hstep with ⟨-, h'⟩ | ⟨hgo, -⟩
        · exact ih h'
        · simp at hgo

/-- The loop starts from the store's files and generator with nothing written. -/
theorem AppendInv.init (hs : LogInv s) (R : List Payload) {ci : ChunkInfo}
    (hci : ci.recordsCount ≠ 0 → s.catalog.getLast? = some ci) :
    AppendInv s R ⟨s.files, s.lastID, ci, R, [], 0, none⟩ :=
  ⟨hs, rfl, by simp [AppendState.catalogAfter, upsertChunkInfos, LogStore.records],
    fun h => ⟨rfl, hci h⟩, fun _ => ⟨rfl, rfl⟩, fun _ => Nat.le_refl _, Nat.zero_le _⟩

end Loop

/-- A chunk with records that `GetLastChunk` hands over is the catalog's last. -/
theorem getLastChunk_last {err : Option Error} {catalog : List ChunkInfo} {ci : ChunkInfo}
    (h : getLastChunk err catalog = .ok ci) (hci : ci.recordsCount ≠ 0) :
    catalog.getLast? = some ci := by
  unfold getLastChunk at h
  split at h
  · rcases List.eq_nil_or_concat catalog with rfl | ⟨l, c, rfl⟩
    · cases h
      exact absurd rfl hci
    · simpa using h
  · split at h
    · cases h
      exact absurd rfl hci
    · cases h

/-! ## A call, and a run of calls -/

/-- On a log satisfying `LogInv`, with a lawful codec and a catalog update that succeeds, an
`AppendRecords` call returns and keeps `LogInv`; the log's records become its records before the
call followed by the first `Added` offered ones, `Added` being at most the number offered; a call
that adds nothing leaves the catalog and the chunk files as they were; and an error comes only
with `Added = 0`. -/
theorem appendRecords_spec {env : AppendEnv} (henv : env.Lawful) {s : LogStore} (hs : LogInv s)
    (req : AppendRecordsRequest) :
    ∃ s' added err, appendRecords env s req = .returned s' added err ∧ LogInv s' ∧
      added ≤ req.records.length ∧
      s'.records.map Record.payload = s.records.map Record.payload ++ req.records.take added ∧
      (added = 0 → s'.catalog = s.catalog ∧ s'.files = s.files) ∧ (err.isSome → added = 0) := by
  cases hl : env.lease with
  | error e =>
    exact ⟨s, 0, some (lockerError req.logID e), by simp [appendRecords, hl], hs, Nat.zero_le _,
      by simp, fun _ => ⟨rfl, rfl⟩, fun _ => rfl⟩
  | ok u =>
    cases hg : getLastChunk env.lastChunkErr s.catalog with
    | error e =>
      exact ⟨s, 0, some e, by simp [appendRecords, hl, hg], hs, Nat.zero_le _, by simp,
        fun _ => ⟨rfl, rfl⟩, fun _ => rfl⟩
    | ok ci =>
      have hloop := appendLoop_inv henv.codec (req.records.length + 2)
        (AppendInv.init hs req.records fun hci => getLastChunk_last hg hci)
      simp only [appendRecords, hl, hg, henv.upsert]
      generalize appendLoop env.codec (req.records.length + 2)
        ⟨s.files, s.lastID, ci, req.records, [], 0, none⟩ = st at hloop ⊢
      obtain ⟨st₀, h₀, hb⟩ := hloop
      have hcat : st.catalogAfter s.catalog = st₀.catalogAfter s.catalog := by
        simp [AppendState.catalogAfter, hb.cis]
      have hinv : LogInv ⟨st.catalogAfter s.catalog, st.cleanFiles, st.lastID⟩ := by
        rw [hcat, hb.cleanFiles]
        exact ⟨h₀.inv.catalog, h₀.inv.listed, fun c hc => (h₀.inv.fresh c hc).trans hb.lastID⟩
      by_cases hadd : st.added > 0
      · refine ⟨⟨upsertChunkInfos s.catalog st.cis, st.cleanFiles, st.lastID⟩, st.added, none,
          by rw [if_pos hadd], hinv, hb.added ▸ h₀.added_le, ?_, fun h0 => absurd h0 (by omega),
          fun h => absurd h (by simp)⟩
        change (contents (st.catalogAfter s.catalog) st.cleanFiles).map Record.payload = _
        rw [hcat, hb.cleanFiles, hb.added]
        exact h₀.records
      · have hzero : st₀.added = 0 := by rw [← hb.added]; omega
        obtain ⟨hcis, hfiles⟩ := h₀.untouched hzero
        have hcis' : st.catalogAfter s.catalog = s.catalog := by
          rw [hcat, AppendState.catalogAfter, hcis]; rfl
        have hclean : st.cleanFiles = s.files := hb.cleanFiles.trans hfiles
        refine ⟨⟨s.catalog, st.cleanFiles, st.lastID⟩, 0, st.gerr, by rw [if_neg hadd], ?_,
          Nat.zero_le _, ?_, fun _ => ⟨rfl, hclean⟩, fun _ => rfl⟩
        · rw [hcis'] at hinv
          exact hinv
        · simp [LogStore.records, hclean]

/-- For every sequence of `AppendRecords` calls on a log satisfying `LogInv`, each with a lawful
codec and a catalog update that succeeds, the run completes and keeps `LogInv`; each call's
`Added` is at most the number of records it offers; the log's records become its records before
the run followed by the first `Added` offered records of each call in turn; and a call returns an
error only with `Added = 0`. -/
theorem appendRun_spec {s : LogStore} (hs : LogInv s) (calls : List (AppendEnv × AppendRecordsRequest))
    (hcalls : ∀ c ∈ calls, c.1.Lawful) :
    ∃ s' results, appendRun s calls = some (s', results) ∧ LogInv s' ∧
      List.Forall₂ (fun c r => r.1 ≤ c.2.records.length) calls results ∧
      s'.records.map Record.payload = s.records.map Record.payload ++
        (List.zipWith (fun c r => c.2.records.take r.1) calls results).flatten ∧
      ∀ r ∈ results, r.2.isSome → r.1 = 0 := by
  induction calls generalizing s with
  | nil => exact ⟨s, [], rfl, hs, .nil, by simp, by simp⟩
  | cons c calls ih =>
    obtain ⟨env, req⟩ := c
    obtain ⟨s₁, added, err, hcall, hs₁, hle, hrec₁, -, herr⟩ :=
      appendRecords_spec (hcalls _ (List.mem_cons_self _ _)) hs req
    obtain ⟨s', results, hrun, hs', hles, hrec', hres⟩ :=
      ih hs₁ fun c hc => hcalls c (List.mem_cons_of_mem _ hc)
    refine ⟨s', (added, err) :: results, by simp [appendRun, hcall, hrun], hs', .cons hle hles, ?_, ?_⟩
    · simp [hrec', hrec₁]
    · intro r hr
      rcases List.mem_cons.mp hr with rfl | hr
      · exact herr
      · exact hres r hr

open Classical in
/-- `appendRun_spec` on an empty log, for one call offering one record to a codec that numbers
records from 2 while the log's records are below 2: the call adds the record. -/
theorem appendRun_spec_writes :
    let s : LogStore := ⟨[], fun _ => none, 0⟩
    let calls : List (AppendEnv × AppendRecordsRequest) := [(⟨.ok (), none, fun files _ _ ps =>
      if ∀ j rs, files j = some rs → ∀ r ∈ rs, r.id < 2 then .ok (List.range' 2 ps.length)
      else .ok [], none⟩, ⟨"l", [[1]]⟩)]
    LogInv s ∧ (∀ c ∈ calls, c.1.Lawful) ∧
    (∃ s' results, appendRun s calls = some (s', results) ∧ LogInv s' ∧
      List.Forall₂ (fun c r => r.1 ≤ c.2.records.length) calls results ∧
      s'.records.map Record.payload = s.records.map Record.payload ++
        (List.zipWith (fun c r => c.2.records.take r.1) calls results).flatten ∧
      ∀ r ∈ results, r.2.isSome → r.1 = 0) ∧
    (appendRun s calls).map Prod.snd = some [(1, none)] := by
  intro s calls
  have hcalls : ∀ c ∈ calls, c.1.Lawful := by
    simp only [calls, List.mem_singleton, forall_eq]
    exact ⟨Codec.lawful_below 2, rfl⟩
  refine ⟨logInv_empty, hcalls, appendRun_spec logInv_empty calls hcalls, ?_⟩
  -- the codec finds no record in the empty file of chunk 1 and numbers the one offered 2
  simp [calls, s, appendRun, appendRecords, getLastChunk, appendLoop, appendIter, appendChunk,
    chunkRecords, if_pos (below_setFile_nil 1 2), AppendRecordsResult.ofIDs]

end Solaris

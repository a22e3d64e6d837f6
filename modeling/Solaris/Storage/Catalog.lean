import Mathlib.Data.List.Chain
import Solaris.Storage.Chunk

/-!
# The catalog invariant

A log is a catalog of `ChunkInfo`s, as `LogsMetaStorage.GetChunks` returns it, over the chunk
files. `CatalogInv` is the chunk invariant of the spec: chunk IDs increase along the list,
every listed chunk has a file whose records it describes exactly (`ChunkInfo.Describes`),
and consecutive chunks satisfy `Max_i < Min_{i+1}`.

`contents` is the log's record sequence, chunk by chunk. Under the invariant its IDs
increase strictly (`CatalogInv.sorted_contents`), and the chunks before and after any given
chunk hold only smaller and larger IDs (`CatalogInv.pairwise_max_lt_min`,
`CatalogInv.min_le_id`, `CatalogInv.id_le_max`). These are what the read paths use to show that
skipping chunks by their `Min`/`Max` loses no record.
-/

namespace Solaris

/-- The records of the chunk with ID `id`, or none when it has no file. -/
def chunkRecords (files : Nat → Option (List Record)) (id : Nat) : List Record :=
  (files id).getD []

/-- The log's records, read chunk by chunk in catalog order. -/
def contents (cis : List ChunkInfo) (files : Nat → Option (List Record)) : List Record :=
  cis.flatMap fun c => chunkRecords files c.id

@[simp] theorem contents_nil (files : Nat → Option (List Record)) : contents [] files = [] :=
  rfl

@[simp] theorem contents_cons (c : ChunkInfo) (cis : List ChunkInfo)
    (files : Nat → Option (List Record)) :
    contents (c :: cis) files = chunkRecords files c.id ++ contents cis files := rfl

@[simp] theorem contents_append (cis cis' : List ChunkInfo)
    (files : Nat → Option (List Record)) :
    contents (cis ++ cis') files = contents cis files ++ contents cis' files := by
  simp [contents]

theorem mem_contents {cis : List ChunkInfo} {files : Nat → Option (List Record)} {r : Record} :
    r ∈ contents cis files ↔ ∃ c ∈ cis, r ∈ chunkRecords files c.id := by
  simp [contents]

/-- The smallest element of a strictly sorted list is its head. -/
theorem head_le_of_sorted {l : List Nat} (hs : l.Sorted (· < ·)) {a x : Nat}
    (hh : l.head? = some a) (hx : x ∈ l) : a ≤ x := by
  cases l with
  | nil => simp at hh
  | cons y ys =>
    simp only [List.head?_cons, Option.some.injEq] at hh
    subst hh
    rcases List.mem_cons.mp hx with rfl | hx
    · exact le_rfl
    · exact le_of_lt (List.rel_of_sorted_cons hs x hx)

/-- The largest element of a strictly sorted list is its last one. -/
theorem le_last_of_sorted {l : List Nat} (hs : l.Sorted (· < ·)) {b x : Nat}
    (hl : l.getLast? = some b) (hx : x ∈ l) : x ≤ b := by
  have hne : l ≠ [] := by rintro rfl; simp at hl
  rw [List.getLast?_eq_getLast l hne, Option.some.injEq] at hl
  subst hl
  rw [← List.dropLast_append_getLast hne] at hs hx
  rcases List.mem_append.mp hx with hx | hx
  · exact le_of_lt ((List.pairwise_append.mp hs).2.2 x hx _ (List.mem_singleton_self _))
  · simp at hx; omega

/-- `c` describes the records `rs` of its chunk exactly: they are a non-empty run of strictly
increasing IDs from `Min` to `Max`, and there are `RecordsCount` of them. -/
structure ChunkInfo.Describes (c : ChunkInfo) (rs : List Record) : Prop where
  ne_nil : rs ≠ []
  count : c.recordsCount = rs.length
  head_id : (rs.map Record.id).head? = some c.min
  last_id : (rs.map Record.id).getLast? = some c.max
  sorted : (rs.map Record.id).Sorted (· < ·)

/-- The chunk invariant of the catalog `cis` over the chunk files `files`. -/
structure CatalogInv (cis : List ChunkInfo) (files : Nat → Option (List Record)) : Prop where
  sorted_id : (cis.map ChunkInfo.id).Sorted (· < ·)
  describes : ∀ c ∈ cis, ∃ rs, files c.id = some rs ∧ c.Describes rs
  chain : cis.Chain' fun a b => a.max < b.min

namespace ChunkInfo.Describes

variable {c : ChunkInfo} {rs : List Record}

/-- Every record of a described chunk lies between its `Min` and `Max`. -/
theorem min_le_id (h : c.Describes rs) {r : Record} (hr : r ∈ rs) : c.min ≤ r.id :=
  head_le_of_sorted h.sorted h.head_id (List.mem_map_of_mem _ hr)

theorem id_le_max (h : c.Describes rs) {r : Record} (hr : r ∈ rs) : r.id ≤ c.max :=
  le_last_of_sorted h.sorted h.last_id (List.mem_map_of_mem _ hr)

/-- The `Min` of a described chunk is the ID of its first record. -/
theorem exists_min (h : c.Describes rs) : ∃ r ∈ rs, r.id = c.min :=
  List.mem_map.mp (List.mem_of_mem_head? h.head_id)

/-- The `Max` of a described chunk is the ID of its last record. -/
theorem exists_max (h : c.Describes rs) : ∃ r ∈ rs, r.id = c.max :=
  List.mem_map.mp (List.mem_of_mem_getLast? h.last_id)

/-- A described chunk has `Min ≤ Max`. -/
theorem min_le_max (h : c.Describes rs) : c.min ≤ c.max := by
  obtain ⟨r, hr⟩ := List.exists_mem_of_ne_nil rs h.ne_nil
  exact (h.min_le_id hr).trans (h.id_le_max hr)

end ChunkInfo.Describes

namespace CatalogInv

variable {cis : List ChunkInfo} {files : Nat → Option (List Record)}

theorem of_cons {c : ChunkInfo} (h : CatalogInv (c :: cis) files) : CatalogInv cis files :=
  ⟨h.sorted_id.of_cons, fun d hd => h.describes d (List.mem_cons_of_mem c hd), h.chain.tail⟩

theorem describes_chunkRecords (h : CatalogInv cis files) {c : ChunkInfo} (hc : c ∈ cis) :
    c.Describes (chunkRecords files c.id) := by
  obtain ⟨rs, hrs, hd⟩ := h.describes c hc
  simpa [chunkRecords, hrs] using hd

/-- Every chunk the catalog lists has a file. -/
theorem isSome_files (h : CatalogInv cis files) {c : ChunkInfo} (hc : c ∈ cis) :
    (files c.id).isSome := by
  obtain ⟨rs, hrs, -⟩ := h.describes c hc
  simp [hrs]

theorem min_le_id (h : CatalogInv cis files) {c : ChunkInfo} (hc : c ∈ cis) {r : Record}
    (hr : r ∈ chunkRecords files c.id) : c.min ≤ r.id :=
  (h.describes_chunkRecords hc).min_le_id hr

theorem id_le_max (h : CatalogInv cis files) {c : ChunkInfo} (hc : c ∈ cis) {r : Record}
    (hr : r ∈ chunkRecords files c.id) : r.id ≤ c.max :=
  (h.describes_chunkRecords hc).id_le_max hr

/-- The chain `Max_i < Min_{i+1}` orders every pair of chunks, not only neighbours. -/
theorem pairwise_max_lt_min (h : CatalogInv cis files) :
    cis.Pairwise fun a b => a.max < b.min := by
  have hle : ∀ c ∈ cis, c.min ≤ c.max := fun c hc => (h.describes_chunkRecords hc).min_le_max
  have hchain := h.chain
  clear h
  induction cis with
  | nil => exact List.Pairwise.nil
  | cons a l ih =>
    have ih' := ih (fun c hc => hle c (List.mem_cons_of_mem a hc)) hchain.tail
    refine List.pairwise_cons.mpr ⟨?_, ih'⟩
    cases l with
    | nil => simp
    | cons b l =>
      have hab : a.max < b.min := (List.chain'_cons.mp hchain).1
      have hb : b.min ≤ b.max := hle b (by simp)
      intro d hd
      rcases List.mem_cons.mp hd with rfl | hd
      · exact hab
      · exact lt_of_lt_of_le hab (hb.trans (le_of_lt (List.rel_of_pairwise_cons ih' hd)))

/-- Under the chunk invariant the log's record IDs increase strictly. -/
theorem sorted_contents (h : CatalogInv cis files) :
    ((contents cis files).map Record.id).Sorted (· < ·) := by
  have hp := h.pairwise_max_lt_min
  induction cis with
  | nil => exact List.sorted_nil
  | cons c cis ih =>
    rw [contents_cons, List.map_append]
    refine List.pairwise_append.mpr ⟨(h.describes_chunkRecords (List.mem_cons_self _ _)).sorted,
      ih h.of_cons (List.pairwise_cons.mp hp).2, ?_⟩
    intro x hx y hy
    obtain ⟨r, hr, rfl⟩ := List.mem_map.mp hx
    obtain ⟨r', hr', rfl⟩ := List.mem_map.mp hy
    obtain ⟨d, hd, hr'⟩ := mem_contents.mp hr'
    calc r.id ≤ c.max := h.id_le_max (List.mem_cons_self _ _) hr
      _ < d.min := List.rel_of_pairwise_cons hp hd
      _ ≤ r'.id := h.min_le_id (List.mem_cons_of_mem c hd) hr'

end CatalogInv

end Solaris

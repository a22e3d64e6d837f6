import Solaris.Storage.Catalog

/-!
# `localLog.QueryRecords`

The read path of `pkg/storage/logfs/locallog.go`. `QueryRecords` takes a snapshot of the
log's chunk list, picks the first chunk with `sort.Search` over `Min`/`Max`, then reads
chunk after chunk with `readRecords`, which shares one running byte count (`totalSize`)
across chunks and applies the start ID only to the first chunk it touches.

The loops are modelled as they run: `readLoop` is the cursor loop of `readRecords`, and
`queryLoop` is the chunk loop of `QueryRecords`, over the chunks `visitFrom` lists (the
indices `idx, idx + inc, …` that stay inside the chunk list).

## Key results

- `readLoop_append`: the cursor loop over a concatenation is the loop over the second part
  started where the first part left it, so reading chunk by chunk is reading one stream.
- `queryLoop_eq_readLoop`: with every chunk readable, the chunk loop is `readLoop` over the
  concatenated cursors.
- `readLoop_spec`: what `readLoop` takes from a stream is a prefix within the
  record limit and the byte budget, and it stops early only at one of the two.
-/

namespace Solaris

/-- `logfs.Config`: the per-call limits of `localLog`. -/
structure Config where
  maxRecordsLimit : Int
  maxBunchSize : Int
  deriving DecidableEq, Repr

/-- `storage.QueryRecordsRequest`, with the fields `localLog` reads. -/
structure QueryRecordsRequest where
  logID : String
  startID : StartID
  descending : Bool
  limit : Int
  deriving DecidableEq, Repr

/-- What one read call of `localLog` meets: the log-lease limiter (`lockers.GetOrCreate`), the
catalog snapshot (`LMStorage.GetChunks`) and the chunk provider (`ChnkProvider.GetOpenedChunk`
with `OpenChunkReader`), which hands out a chunk's records or fails. -/
structure ReadEnv where
  lease : Except Error Unit
  getChunks : Except Error (List ChunkInfo)
  openChunk : Nat → Except Error (List Record)

/-- Opening a chunk of `files`: its records, or `ErrNotExist` when it has no file. -/
def openFile (files : Nat → Option (List Record)) (id : Nat) : Except Error (List Record) :=
  match files id with
  | some recs => .ok recs
  | none => .error .notExist

/-- The environment of a read on a quiet log: the lease is granted, the catalog is `cis` and
every chunk file opens. -/
def ReadEnv.ofFiles (cis : List ChunkInfo) (files : Nat → Option (List Record)) : ReadEnv :=
  ⟨.ok (), .ok cis, openFile files⟩

/-- The payload bytes of a list of records. -/
def bytes : List Record → Int
  | [] => 0
  | r :: rs => r.payload.length + bytes rs

@[simp] theorem bytes_nil : bytes [] = 0 := rfl

@[simp] theorem bytes_cons (r : Record) (rs : List Record) :
    bytes (r :: rs) = r.payload.length + bytes rs := rfl

@[simp] theorem bytes_append (rs rs' : List Record) : bytes (rs ++ rs') = bytes rs + bytes rs' := by
  induction rs with
  | nil => simp
  | cons r rs ih => simp [ih, Int.add_assoc]

@[simp] theorem bytes_reverse (rs : List Record) : bytes rs.reverse = bytes rs := by
  induction rs with
  | nil => rfl
  | cons r rs ih => simp [ih, Int.add_comm]

/-- Dropping records never adds payload bytes. -/
theorem bytes_le_of_sublist {rs rs' : List Record} (h : List.Sublist rs rs') : bytes rs ≤ bytes rs' := by
  induction h with
  | slnil => exact Int.le_refl 0
  | cons r _ ih => simp only [bytes_cons]; omega
  | cons₂ r _ ih => simp only [bytes_cons]; omega

/-! ## The loops -/

/-- The loop of `readRecords`: `for cr.HasNext() && len(res) < limit && *totalSize <
MaxBunchSize`, appending each record and adding its payload size to `totalSize`. -/
def readLoop (maxBunchSize limit : Int) : List Record → List Record → Int → List Record × Int
  | [], res, totalSize => (res, totalSize)
  | r :: cr, res, totalSize =>
    if res.length < limit ∧ totalSize < maxBunchSize then
      readLoop maxBunchSize limit cr (res ++ [r]) (totalSize + r.payload.length)
    else (res, totalSize)

namespace Chunk

/-- `localLog.readRecords`: open the chunk, position a reader at `sid` and read it with a
record limit and the shared byte count. -/
def readRecords (cfg : Config) (openChunk : Nat → Except Error (List Record)) (ci : ChunkInfo)
    (descending : Bool) (sid : Nat) (limit totalSize : Int) : Except Error (List Record × Int) :=
  match openChunk ci.id with
  | .error e => .error e
  | .ok recs => .ok (readLoop cfg.maxBunchSize limit (startCursor recs descending sid) [] totalSize)

end Chunk

/-- The chunks the loop `for idx >= 0 && idx < len(cis); idx += inc` steps through, from
`idx` upwards, or downwards when descending. -/
def visitFrom (cis : List ChunkInfo) (idx : Int) (descending : Bool) : List ChunkInfo :=
  if 0 ≤ idx ∧ idx < cis.length then
    if descending then (cis.take (idx.toNat + 1)).reverse else cis.drop idx.toNat
  else []

/-- The chunk loop of `QueryRecords`: read chunk after chunk while `limit > len(res)`, the
start ID applying to the first chunk only (`sid = empty` after it). -/
def queryLoop (cfg : Config) (openChunk : Nat → Except Error (List Record)) (descending : Bool)
    (limit : Int) : List ChunkInfo → Nat → List Record → Int → Except Error (List Record × Int)
  | [], _, res, totalSize => .ok (res, totalSize)
  | ci :: cis, sid, res, totalSize =>
    if res.length < limit then
      match Chunk.readRecords cfg openChunk ci descending sid (limit - res.length) totalSize with
      | .error e => .error e
      | .ok (srecs, totalSize) => queryLoop cfg openChunk descending limit cis 0 (res ++ srecs) totalSize
    else .ok (res, totalSize)

/-- The index of the first chunk to read for a start ID `sid`: by `sort.Search`, the first chunk
with `Max ≥ sid`, or descending, the chunk before the first one with `Min > sid`. -/
def searchStart (cis : List ChunkInfo) (descending : Bool) (sid : Nat) : Int :=
  if descending then (sortSearch cis.length fun i => cis[i]?.any fun c => sid < c.min : Int) - 1
  else sortSearch cis.length fun i => cis[i]?.any fun c => sid ≤ c.max

/-- The error of a read whose log lease cannot be obtained. -/
def lockerError (lid : String) (e : Error) : Error :=
  .wrap ("could not obtain the log locker for id=" ++ lid) e

/-- The error for a start ID that `ulid.UnmarshalText` rejects. -/
def startIDError (text : String) : Error :=
  .wrap ("wrong startID=\"" ++ text ++ "\"") .invalid

/-- Where `QueryRecords` starts: the index of the first chunk to read, and the start ID the first
reader is positioned at (the zero ULID for none). -/
def queryStart (cis : List ChunkInfo) (req : QueryRecordsRequest) : Except Error (Int × Nat) :=
  match req.startID with
  | .empty => .ok (if req.descending then cis.length - 1 else 0, 0)
  | .ulid sid => .ok (searchStart cis req.descending sid, sid)
  | .malformed text => .error (startIDError text)

/-- `localLog.QueryRecords`: the records from the start ID on, in the requested direction, at
most `min(Limit, MaxRecordsLimit)` of them and stopping once `MaxBunchSize` payload bytes are
read; the flag says whether either limit was reached. -/
def queryRecords (cfg : Config) (env : ReadEnv) (req : QueryRecordsRequest) :
    Except Error (List Record × Bool) :=
  match env.lease with
  | .error e => .error (lockerError req.logID e)
  | .ok () =>
    match env.getChunks with
    | .error e => .error e
    | .ok cis =>
      if cis.length = 0 then .ok ([], false)
      else
        match queryStart cis req with
        | .error e => .error e
        | .ok (idx, sid) =>
          let limit := min req.limit cfg.maxRecordsLimit
          match queryLoop cfg env.openChunk req.descending limit (visitFrom cis idx req.descending)
              sid [] 0 with
          | .error e => .error e
          | .ok (res, totalSize) => .ok (res, limit ≤ res.length ∨ cfg.maxBunchSize ≤ totalSize)

/-! ## The cursor loop is a fold -/

/-- One turn of `readLoop`, which does nothing once a limit is reached. -/
def readStep (maxBunchSize limit : Int) (acc : List Record × Int) (r : Record) : List Record × Int :=
  if acc.1.length < limit ∧ acc.2 < maxBunchSize then (acc.1 ++ [r], acc.2 + r.payload.length)
  else acc

variable {maxBunchSize limit : Int}

/-- Once a limit is reached, the loop takes nothing more. -/
theorem foldl_readStep_of_stop {res : List Record} {totalSize : Int}
    (h : ¬(res.length < limit ∧ totalSize < maxBunchSize)) (xs : List Record) :
    xs.foldl (readStep maxBunchSize limit) (res, totalSize) = (res, totalSize) := by
  induction xs with
  | nil => rfl
  | cons x xs ih => simpa [readStep, h] using ih

theorem readLoop_eq_foldl (xs res : List Record) (totalSize : Int) :
    readLoop maxBunchSize limit xs res totalSize =
      xs.foldl (readStep maxBunchSize limit) (res, totalSize) := by
  induction xs generalizing res totalSize with
  | nil => rfl
  | cons x xs ih =>
    by_cases h : res.length < limit ∧ totalSize < maxBunchSize
    · simp [readLoop, readStep, h, ih]
    · simp [readLoop, readStep, h, foldl_readStep_of_stop h]

/-- Reading `xs ++ ys` is reading `ys` from where reading `xs` stopped. -/
theorem readLoop_append (xs ys res : List Record) (totalSize : Int) :
    readLoop maxBunchSize limit (xs ++ ys) res totalSize =
      let p := readLoop maxBunchSize limit xs res totalSize
      readLoop maxBunchSize limit ys p.1 p.2 := by
  simp [readLoop_eq_foldl, List.foldl_append]

/-- Reading with `n` records already taken is reading with a limit lowered by `n`, as
`QueryRecords` calls `readRecords` with `limit - len(res)`. -/
theorem readLoop_shift (xs res acc : List Record) (totalSize : Int) :
    readLoop maxBunchSize limit xs (res ++ acc) totalSize =
      let p := readLoop maxBunchSize (limit - res.length) xs acc totalSize
      (res ++ p.1, p.2) := by
  induction xs generalizing acc totalSize with
  | nil => rfl
  | cons x xs ih =>
    have hiff : (res ++ acc).length < limit ↔ (acc.length : Int) < limit - res.length := by
      simp only [List.length_append]; omega
    by_cases h : (acc.length : Int) < limit - res.length ∧ totalSize < maxBunchSize
    · simp only [readLoop, hiff, h, and_self, ↓reduceIte]
      simpa using ih (acc ++ [x]) (totalSize + x.payload.length)
    · simp only [readLoop, hiff, h, ↓reduceIte]

/-- What `readLoop` takes from a stream: a prefix `p`, every record of which was taken while
the count stayed below `limit` and the byte count below `maxBunchSize`; when `p` stops short
of the stream, one of the two limits is reached. -/
theorem readLoop_spec (xs acc : List Record) (totalSize : Int) :
    ∃ p, p <+: xs ∧
      readLoop maxBunchSize limit xs acc totalSize = (acc ++ p, totalSize + bytes p) ∧
      (∀ i < p.length, (acc.length + i : Int) < limit ∧ totalSize + bytes (p.take i) < maxBunchSize) ∧
      (p.length < xs.length →
        limit ≤ acc.length + p.length ∨ maxBunchSize ≤ totalSize + bytes p) := by
  induction xs generalizing acc totalSize with
  | nil => exact ⟨[], List.prefix_refl _, by simp [readLoop], by simp, by simp⟩
  | cons x xs ih =>
    by_cases h : acc.length < limit ∧ totalSize < maxBunchSize
    · obtain ⟨p, hp, heq, hin, hstop⟩ := ih (acc ++ [x]) (totalSize + x.payload.length)
      refine ⟨x :: p, List.cons_prefix_cons.mpr ⟨rfl, hp⟩, ?_, ?_, ?_⟩
      · simp only [readLoop, h, and_self, ↓reduceIte, heq, List.append_assoc, List.singleton_append,
          bytes_cons, Int.add_assoc]
      · intro i hi
        cases i with
        | zero => simpa using h
        | succ i =>
          have := hin i (by simpa using hi)
          simp only [List.length_append, List.length_singleton] at this
          simp only [List.take_succ_cons, bytes_cons]
          omega
      · intro hlt
        have := hstop (by simpa using hlt)
        simp only [List.length_append, List.length_singleton, List.length_cons, List.length_nil,
          bytes_cons] at this ⊢
        omega
    · exact ⟨[], List.nil_prefix, by simp [readLoop, h], by simp, fun _ => by
        simp only [not_and_or, not_lt] at h; simpa using h⟩

/-- When neither limit binds on the whole stream, `readLoop` takes all of it. -/
theorem readLoop_of_lt (xs : List Record) (hl : (xs.length : Int) < limit)
    (hb : bytes xs < maxBunchSize) : readLoop maxBunchSize limit xs [] 0 = (xs, bytes xs) := by
  obtain ⟨p, hp, heq, -, hstop⟩ := @readLoop_spec maxBunchSize limit xs [] 0
  have hpb := bytes_le_of_sublist hp.sublist
  have hpl := hp.length_le
  obtain rfl : p = xs := by
    by_contra hne
    have hlt : p.length < xs.length := lt_of_le_of_ne hpl fun he => hne (hp.eq_of_length he)
    simp only [List.length_nil, Int.natCast_zero, Int.zero_add] at hstop
    rcases hstop hlt with h | h <;> omega
  simpa using heq

/-! ## Chunk by chunk is one stream -/

/-- The records the chunk loop meets before any limit: the first chunk from `sid` on, the
others whole. -/
def scan (files : Nat → Option (List Record)) (descending : Bool) :
    List ChunkInfo → Nat → List Record
  | [], _ => []
  | c :: cs, sid => startCursor (chunkRecords files c.id) descending sid ++ scan files descending cs 0

theorem openFile_of_isSome {files : Nat → Option (List Record)} {id : Nat}
    (h : (files id).isSome) : openFile files id = .ok (chunkRecords files id) := by
  obtain ⟨rs, hrs⟩ := Option.isSome_iff_exists.mp h
  simp [openFile, chunkRecords, hrs]

/-- With every chunk file present, the chunk loop of `QueryRecords` reads the concatenated
cursors as one stream. -/
theorem queryLoop_eq_readLoop (cfg : Config) (files : Nat → Option (List Record))
    (descending : Bool) (limit : Int) (chunks : List ChunkInfo)
    (hfiles : ∀ c ∈ chunks, (files c.id).isSome) (sid : Nat) (res : List Record) (totalSize : Int) :
    queryLoop cfg (openFile files) descending limit chunks sid res totalSize =
      .ok (readLoop cfg.maxBunchSize limit (scan files descending chunks sid) res totalSize) := by
  induction chunks generalizing sid res totalSize with
  | nil => rfl
  | cons c cs ih =>
    have hc := openFile_of_isSome (hfiles c (List.mem_cons_self _ _))
    by_cases h : (res.length : Int) < limit
    · have hshift := @readLoop_shift cfg.maxBunchSize limit
        (startCursor (chunkRecords files c.id) descending sid) res [] totalSize
      simp only [List.append_nil] at hshift
      simp only [queryLoop, h, ↓reduceIte, Chunk.readRecords, hc, scan, readLoop_append]
      rw [ih (fun d hd => hfiles d (List.mem_cons_of_mem c hd)), hshift]
    · have hstop : ¬((res.length : Int) < limit ∧ totalSize < cfg.maxBunchSize) := fun h' => h h'.1
      simp only [queryLoop, h, ↓reduceIte, readLoop_eq_foldl, foldl_readStep_of_stop hstop]

end Solaris

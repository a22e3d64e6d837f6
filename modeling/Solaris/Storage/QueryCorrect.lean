import Solaris.Storage.Query

/-!
# `QueryRecords` returns the longest page of the requested range

`queryRange` is the spec's sequence `S`: the log's records from the start ID on, in the
requested direction. Under the chunk invariant, the chunks `QueryRecords` visits from where
its `sort.Search` starts hold exactly `S` (`scan_queryStart`), so by
`queryLoop_eq_readLoop` it returns what `readLoop` takes from `S`, and `readLoop_budget`
says that is the longest prefix of `S` within the record limit and the byte budget.

The zero ULID is the code's "no start ID": `readRecords` skips `SetStartID` for it. Record IDs
are ULIDs minted when the records are written, whose time part is never zero, so no log the code
builds holds a record with the zero ULID; `queryRecords_longest_prefix` states this as its
hypothesis `hzero`.
-/

namespace Solaris

/-! ## The chunks visited hold the requested range -/

/-- The records a query from `start` covers, in the order it returns them: ascending, those with
an ID equal to or greater than the start ID; descending, those with an ID equal to or lower,
latest first; all of them when there is no start ID. -/
def queryRange (recs : List Record) (start : StartID) (descending : Bool) : List Record :=
  let ordered := if descending then recs.reverse else recs
  match start with
  | .ulid sid => ordered.filter fun r => if descending then r.id ≤ sid else sid ≤ r.id
  | _ => ordered

theorem scan_zero (files : Nat → Option (List Record)) (descending : Bool) (cs : List ChunkInfo) :
    scan files descending cs 0 = cs.flatMap fun c => openChunkReader (chunkRecords files c.id) descending := by
  induction cs with
  | nil => rfl
  | cons c cs ih => simp [scan, ih]

theorem scan_zero_asc (files : Nat → Option (List Record)) (cs : List ChunkInfo) :
    scan files false cs 0 = contents cs files := by
  simp [scan_zero, openChunkReader, contents]

theorem scan_zero_desc (files : Nat → Option (List Record)) (cs : List ChunkInfo) :
    scan files true cs.reverse 0 = (contents cs files).reverse := by
  simp only [scan_zero, openChunkReader, ↓reduceIte]
  induction cs with
  | nil => rfl
  | cons c cs ih => simp [ih]

theorem filter_contents_eq_nil {files : Nat → Option (List Record)} {q : Record → Bool}
    {cs : List ChunkInfo} (h : ∀ c ∈ cs, ∀ r ∈ chunkRecords files c.id, q r = false) :
    (contents cs files).filter q = [] :=
  List.filter_eq_nil_iff.mpr fun r hr => by
    obtain ⟨c, hc, hr⟩ := mem_contents.mp hr
    simp [h c hc r hr]

theorem filter_contents_eq_self {files : Nat → Option (List Record)} {q : Record → Bool}
    {cs : List ChunkInfo} (h : ∀ c ∈ cs, ∀ r ∈ chunkRecords files c.id, q r = true) :
    (contents cs files).filter q = contents cs files :=
  List.filter_eq_self.mpr fun r hr => by
    obtain ⟨c, hc, hr⟩ := mem_contents.mp hr
    exact h c hc r hr

section Range

variable {cis : List ChunkInfo} {files : Nat → Option (List Record)}

theorem startCursor_asc (recs : List Record) (sid : Nat) :
    startCursor recs false sid = recs.filter fun r => sid ≤ r.id := by
  by_cases h0 : sid = 0
  · subst h0; simp [openChunkReader]
  · simp [startCursor_of_ne_zero _ _ h0, setStartID, openChunkReader]

/-- Ascending from `sid`, the chunks from the first one with `Max ≥ sid` on hold exactly the
records with an ID equal to or greater than `sid`. -/
theorem scan_searchStart_asc (h : CatalogInv cis files) (sid : Nat) :
    scan files false (visitFrom cis (searchStart cis false sid) false) sid =
      (contents cis files).filter fun r => sid ≤ r.id := by
  have hp := h.pairwise_max_lt_min
  have hmono : cis.Pairwise fun a b => decide (sid ≤ a.max) = true → decide (sid ≤ b.max) = true :=
    hp.imp_of_mem fun _ hb hab ha => by
      have := (h.describes_chunkRecords hb).min_le_max
      simp only [decide_eq_true_eq] at ha ⊢; omega
  obtain ⟨pre, rest, rfl, hpre, hrest⟩ := exists_split_of_pairwise cis _ hmono
  have hidx : searchStart (pre ++ rest) false sid = pre.length := by
    simp only [searchStart, Bool.false_eq_true, ↓reduceIte]
    exact congrArg _ (sortSearch_append pre rest _ hpre hrest)
  have hlow : (contents pre files).filter (fun r => sid ≤ r.id) = [] :=
    filter_contents_eq_nil fun c hc r hr => by
      have := h.id_le_max (List.mem_append_left _ hc) hr
      have := hpre c hc
      simp only [decide_eq_false_iff_not, not_le] at this ⊢; omega
  rw [hidx]
  cases rest with
  | nil => simp [visitFrom, scan, hlow]
  | cons c rest =>
    have hcd : ∀ d ∈ rest, c.max < d.min :=
      fun d hd => List.rel_of_pairwise_cons (List.pairwise_append.mp hp).2.1 hd
    have hsid : sid ≤ c.max := by simpa using hrest c (List.mem_cons_self _ _)
    have hhigh : (contents rest files).filter (fun r => sid ≤ r.id) = contents rest files :=
      filter_contents_eq_self fun d hd r hr => by
        have := h.min_le_id (List.mem_append_right _ (List.mem_cons_of_mem c hd)) hr
        have := hcd d hd
        simp only [decide_eq_true_eq]; omega
    have hvisit : visitFrom (pre ++ c :: rest) pre.length false = c :: rest := by
      rw [visitFrom, if_pos (by simp only [List.length_append, List.length_cons]; omega)]
      simp
    rw [hvisit, scan, scan_zero_asc, startCursor_asc, contents_append, contents_cons,
      List.filter_append, List.filter_append, hlow, hhigh, List.nil_append]

/-- Descending from `sid`, the chunks up to the last one with `Min ≤ sid` hold exactly the
records with an ID equal to or lower than `sid`, provided no record has the zero ULID, which
`readRecords` takes for "no start ID". -/
theorem scan_searchStart_desc (h : CatalogInv cis files)
    (hzero : ∀ r ∈ contents cis files, r.id ≠ 0) (sid : Nat) :
    scan files true (visitFrom cis (searchStart cis true sid) true) sid =
      (contents cis files).reverse.filter fun r => r.id ≤ sid := by
  have hp := h.pairwise_max_lt_min
  have hmono : cis.Pairwise fun a b => decide (sid < a.min) = true → decide (sid < b.min) = true :=
    hp.imp_of_mem fun ha _ hab hs => by
      have := (h.describes_chunkRecords ha).min_le_max
      simp only [decide_eq_true_eq] at hs ⊢; omega
  obtain ⟨pre, rest, rfl, hpre, hrest⟩ := exists_split_of_pairwise cis _ hmono
  have hidx : searchStart (pre ++ rest) true sid = (pre.length : Int) - 1 := by
    simp only [searchStart, ↓reduceIte]
    rw [sortSearch_append pre rest _ hpre hrest]
  have hhigh : (contents rest files).filter (fun r => r.id ≤ sid) = [] :=
    filter_contents_eq_nil fun d hd r hr => by
      have := h.min_le_id (List.mem_append_right _ hd) hr
      have := hrest d hd
      simp only [decide_eq_true_eq, decide_eq_false_iff_not, not_le] at this ⊢; omega
  rw [hidx]
  rcases List.eq_nil_or_concat pre with rfl | ⟨pre, c, rfl⟩
  · simp [visitFrom, scan, hhigh]
  · simp only [List.concat_eq_append] at *
    have hdc : ∀ d ∈ pre, d.max < c.min := fun d hd =>
      (List.pairwise_append.mp (List.pairwise_append.mp hp).1).2.2 d hd c (List.mem_singleton_self c)
    have hcmin : c.min ≤ sid := by simpa using hpre c (by simp)
    have hsid : sid ≠ 0 := by
      obtain ⟨r, hr, hrc⟩ := (h.describes_chunkRecords (c := c) (by simp)).exists_min
      have := hzero r (mem_contents.mpr ⟨c, by simp, hr⟩)
      omega
    have hlow : (contents pre files).filter (fun r => r.id ≤ sid) = contents pre files :=
      filter_contents_eq_self fun d hd r hr => by
        have := h.id_le_max (List.mem_append_left _ (List.mem_append_left _ hd)) hr
        have := hdc d hd
        simp only [decide_eq_true_eq]; omega
    have hvisit : visitFrom (pre ++ [c] ++ rest) ((pre ++ [c]).length - 1 : Int) true =
        c :: pre.reverse := by
      have hlen : ((pre ++ [c]).length - 1 : Int) = pre.length := by simp
      rw [hlen, visitFrom, if_pos (by simp only [List.length_append, List.length_singleton]; omega),
        Int.toNat_ofNat,
        List.take_left' (by simp), List.reverse_append]
      rfl
    rw [hvisit, scan, scan_zero_desc, startCursor_of_ne_zero _ _ hsid]
    simp [setStartID, openChunkReader, contents_append, hhigh, hlow]

theorem visitFrom_subset (cis : List ChunkInfo) (idx : Int) (descending : Bool) :
    visitFrom cis idx descending ⊆ cis := by
  unfold visitFrom
  split
  · split
    · exact fun c hc => List.mem_of_mem_take (List.mem_reverse.mp hc)
    · exact fun c hc => List.mem_of_mem_drop hc
  · exact List.nil_subset _

/-- Without a start ID the scan starts at the first chunk, or descending at the last one, and
visits them all. -/
theorem visitFrom_initial (cis : List ChunkInfo) (descending : Bool) :
    visitFrom cis (if descending then cis.length - 1 else 0) descending =
      if descending then cis.reverse else cis := by
  rcases List.eq_nil_or_concat cis with rfl | ⟨cs, c, rfl⟩
  · cases descending <;> rfl
  · cases descending
    · simp [visitFrom]
    · have hlen : ((cs.concat c).length : Int) - 1 = cs.length := by simp
      rw [if_pos rfl, hlen, visitFrom, if_pos (by simp only [List.length_concat]; omega), if_pos rfl,
        Int.toNat_ofNat, List.take_of_length_le (by simp), if_pos rfl]

/-- Every start ID that parses gives `QueryRecords` a place to start. -/
theorem exists_queryStart (cis : List ChunkInfo) {req : QueryRecordsRequest}
    (hstart : ∀ text, req.startID ≠ .malformed text) :
    ∃ idx sid, queryStart cis req = .ok (idx, sid) := by
  unfold queryStart
  cases hs : req.startID with
  | empty => exact ⟨_, _, rfl⟩
  | ulid u => exact ⟨_, _, rfl⟩
  | malformed t => exact absurd hs (hstart t)

theorem startCursor_sublist (recs : List Record) (descending : Bool) (sid : Nat) :
    List.Sublist (startCursor recs descending sid) (openChunkReader recs descending) := by
  unfold startCursor setStartID
  split
  · exact List.filter_sublist _
  · exact List.Sublist.refl _

/-- Whatever the start, the chunk loop meets a sublist of the log, read forwards or, descending,
backwards. -/
theorem scan_visitFrom_sublist (files : Nat → Option (List Record)) (cis : List ChunkInfo)
    (idx : Int) (descending : Bool) (sid : Nat) :
    List.Sublist (scan files descending (visitFrom cis idx descending) sid)
      (if descending then (contents cis files).reverse else contents cis files) := by
  have hzero : ∀ cs, List.Sublist (scan files descending cs sid) (scan files descending cs 0) := by
    rintro (_ | ⟨c, cs⟩)
    · exact List.Sublist.refl _
    · simpa [scan] using (startCursor_sublist _ descending sid).append_right (scan files descending cs 0)
  have hsplit : ∀ n, contents cis files = contents (cis.take n) files ++ contents (cis.drop n) files :=
    fun n => by rw [← contents_append, List.take_append_drop]
  refine (hzero _).trans ?_
  unfold visitFrom
  split
  · cases descending
    · simp only [Bool.false_eq_true, ↓reduceIte, scan_zero_asc]
      exact hsplit idx.toNat ▸ List.sublist_append_right _ _
    · simp only [↓reduceIte, scan_zero_desc, List.reverse_sublist]
      exact hsplit (idx.toNat + 1) ▸ List.sublist_append_left _ _
  · exact List.nil_sublist _

/-- With the chunk invariant and no zero ID, the chunks `QueryRecords` visits from where it
starts hold exactly the requested range. -/
theorem scan_queryStart (h : CatalogInv cis files) (hzero : ∀ r ∈ contents cis files, r.id ≠ 0)
    {req : QueryRecordsRequest} {idx : Int} {sid : Nat} (hs : queryStart cis req = .ok (idx, sid)) :
    scan files req.descending (visitFrom cis idx req.descending) sid =
      queryRange (contents cis files) req.startID req.descending := by
  unfold queryStart at hs
  split at hs
  · next hstart =>
    simp only [Except.ok.injEq, Prod.mk.injEq] at hs
    obtain ⟨rfl, rfl⟩ := hs
    rw [visitFrom_initial]
    cases req.descending
    · simp [scan_zero_asc, queryRange, hstart]
    · simp [scan_zero_desc, queryRange, hstart]
  · next sid' hstart =>
    simp only [Except.ok.injEq, Prod.mk.injEq] at hs
    obtain ⟨rfl, rfl⟩ := hs
    cases hd : req.descending
    · simpa [queryRange, hstart] using scan_searchStart_asc h sid'
    · simpa [queryRange, hstart] using scan_searchStart_desc h hzero sid'
  · cases hs

end Range

/-! ## The longest page within the limits -/

/-- Every record of `p` is preceded in `p` by fewer than `maxBunchSize` payload bytes. -/
def WithinBunch (maxBunchSize : Int) (p : List Record) : Prop :=
  ∀ i < p.length, bytes (p.take i) < maxBunchSize

/-- `res` is the longest prefix of `S` with at most `n` records, every record of which is
preceded by fewer than `maxBunchSize` payload bytes. -/
structure LongestPage (n maxBunchSize : Int) (S res : List Record) : Prop where
  isPrefix : res <+: S
  length_le : (res.length : Int) ≤ n
  within : WithinBunch maxBunchSize res
  longest : ∀ p, p <+: S → (p.length : Int) ≤ n → WithinBunch maxBunchSize p → p.length ≤ res.length

/-- Run from nothing, `readLoop` takes the longest page of its stream within `limit` records
and `maxBunchSize` bytes, and when it stops short one of the two is reached. -/
theorem readLoop_budget (maxBunchSize limit : Int) (S : List Record) :
    LongestPage (max 0 limit) maxBunchSize S (readLoop maxBunchSize limit S [] 0).1 ∧
      ((readLoop maxBunchSize limit S [] 0).1.length < S.length →
        limit ≤ (readLoop maxBunchSize limit S [] 0).1.length ∨
          maxBunchSize ≤ (readLoop maxBunchSize limit S [] 0).2) := by
  obtain ⟨P, hP, heq, hin, hstop⟩ := @readLoop_spec maxBunchSize limit S [] 0
  simp only [List.nil_append, Int.zero_add, List.length_nil, Int.natCast_zero] at heq hin hstop
  rw [heq]
  have hlen : (P.length : Int) ≤ max 0 limit := by
    rcases Nat.eq_zero_or_pos P.length with h0 | hpos
    · simp [h0]
    · have := (hin (P.length - 1) (by omega)).1
      omega
  refine ⟨⟨hP, hlen, fun i hi => (hin i hi).2, fun Q hQ hQlen hQin => ?_⟩, by simpa using hstop⟩
  by_contra hlt
  simp only [not_le] at hlt
  have hshort : P.length < S.length := lt_of_lt_of_le hlt hQ.length_le
  rcases hstop hshort with hl | hb
  · omega
  · have htake : Q.take P.length = P := by
      rw [List.prefix_iff_eq_take.mp hQ, List.take_take, min_eq_left hlt.le,
        ← List.prefix_iff_eq_take.mp hP]
    have := hQin P.length hlt
    rw [htake] at this
    omega

variable {cis : List ChunkInfo} {files : Nat → Option (List Record)}

/-- On a log with a chunk that satisfies the chunk invariant and has no record with the zero
ULID, `QueryRecords` from a start ID that parses is `readLoop` over the requested range. -/
theorem queryRecords_eq_readLoop (cfg : Config) (h : CatalogInv cis files)
    (hzero : ∀ r ∈ contents cis files, r.id ≠ 0) (req : QueryRecordsRequest)
    (hstart : ∀ text, req.startID ≠ .malformed text) (hcis : cis ≠ []) :
    let p := readLoop cfg.maxBunchSize (min req.limit cfg.maxRecordsLimit)
      (queryRange (contents cis files) req.startID req.descending) [] 0
    queryRecords cfg (ReadEnv.ofFiles cis files) req =
      .ok (p.1, decide (min req.limit cfg.maxRecordsLimit ≤ p.1.length ∨ cfg.maxBunchSize ≤ p.2)) := by
  obtain ⟨idx, sid, hqs⟩ := exists_queryStart cis hstart
  have hloop := queryLoop_eq_readLoop cfg files req.descending (min req.limit cfg.maxRecordsLimit)
    (visitFrom cis idx req.descending) (fun c hc => h.isSome_files (visitFrom_subset _ _ _ hc)) sid [] 0
  rw [scan_queryStart h hzero hqs] at hloop
  have hlen : cis.length ≠ 0 := fun h0 => hcis (List.eq_nil_of_length_eq_zero h0)
  simp only [queryRecords, ReadEnv.ofFiles, hlen, ↓reduceIte, hqs, hloop]

/-- On a log that satisfies the chunk invariant and has no record with the zero ULID, as no log
of minted record IDs has, for every start ID that parses, `QueryRecords` returns the longest page
of the requested range within `max(0, min(Limit, MaxRecordsLimit))` records and the byte budget,
and says `more` whenever the page is shorter than the range. -/
theorem queryRecords_longest_prefix (cfg : Config) (h : CatalogInv cis files)
    (hzero : ∀ r ∈ contents cis files, r.id ≠ 0) (req : QueryRecordsRequest)
    (hstart : ∀ text, req.startID ≠ .malformed text) :
    ∃ res more, queryRecords cfg (ReadEnv.ofFiles cis files) req = .ok (res, more) ∧
      LongestPage (max 0 (min req.limit cfg.maxRecordsLimit)) cfg.maxBunchSize
        (queryRange (contents cis files) req.startID req.descending) res ∧
      (res.length < (queryRange (contents cis files) req.startID req.descending).length →
        more = true) := by
  obtain ⟨hpage, hmore⟩ := readLoop_budget cfg.maxBunchSize (min req.limit cfg.maxRecordsLimit)
    (queryRange (contents cis files) req.startID req.descending)
  by_cases hcis : cis = []
  · subst hcis
    have hS : ∀ st d, queryRange [] st d = [] := by
      intro st d; cases st <;> cases d <;> rfl
    refine ⟨_, false, ?_, hpage, fun hlt => by simp [hS] at hlt⟩
    simp [queryRecords, ReadEnv.ofFiles, hS, readLoop]
  · exact ⟨_, _, queryRecords_eq_readLoop cfg h hzero req hstart hcis, hpage,
      fun hlt => decide_eq_true (hmore hlt)⟩

/-- `queryRecords_longest_prefix` at a one-chunk log, descending from its last record with a
limit of one. -/
theorem queryRecords_longest_prefix_desc :
    CatalogInv [⟨1, 1, 2, 2⟩] (fun id => if id = 1 then some [⟨1, [7]⟩, ⟨2, [7]⟩] else none) ∧
    (∀ r ∈ contents [⟨1, 1, 2, 2⟩] (fun id => if id = 1 then some [⟨1, [7]⟩, ⟨2, [7]⟩] else none), r.id ≠ 0) ∧
    (∀ text, StartID.ulid 2 ≠ .malformed text) ∧
    ∃ res more, queryRecords ⟨10, 100⟩ (ReadEnv.ofFiles [⟨1, 1, 2, 2⟩]
        (fun id => if id = 1 then some [⟨1, [7]⟩, ⟨2, [7]⟩] else none)) ⟨"l", .ulid 2, true, 1⟩ = .ok (res, more) ∧
      LongestPage (max 0 (min 1 10)) 100 (queryRange (contents [⟨1, 1, 2, 2⟩]
        (fun id => if id = 1 then some [⟨1, [7]⟩, ⟨2, [7]⟩] else none)) (.ulid 2) true) res ∧
      (res.length < (queryRange (contents [⟨1, 1, 2, 2⟩]
        (fun id => if id = 1 then some [⟨1, [7]⟩, ⟨2, [7]⟩] else none)) (.ulid 2) true).length → more = true) := by
  have hinv : CatalogInv [⟨1, 1, 2, 2⟩] (fun id => if id = 1 then some [⟨1, [7]⟩, ⟨2, [7]⟩] else none) := by
    refine ⟨by simp, ?_, by simp⟩
    simp only [List.mem_singleton, forall_eq, if_true]
    exact ⟨_, rfl, by simp, rfl, rfl, rfl, by decide⟩
  have hzero : ∀ r ∈ contents [⟨1, 1, 2, 2⟩] (fun id => if id = 1 then some [⟨1, [7]⟩, ⟨2, [7]⟩] else none), r.id ≠ 0 := by
    decide
  exact ⟨hinv, hzero, by simp, queryRecords_longest_prefix ⟨10, 100⟩ hinv hzero ⟨"l", .ulid 2, true, 1⟩ (by simp)⟩
/-! ## Chunks opened past the byte budget -/

/-- The chunk loop of `QueryRecords` tests only the record limit before it reads the next
chunk: short of the limit it opens the chunk whatever the byte count, and a chunk that fails to
open fails the query. -/
theorem queryLoop_open_error (cfg : Config) (openChunk : Nat → Except Error (List Record))
    (descending : Bool) (limit : Int) (ci : ChunkInfo) (cis : List ChunkInfo) (sid : Nat)
    (res : List Record) (totalSize : Int) {e : Error} (hres : (res.length : Int) < limit)
    (hopen : openChunk ci.id = .error e) :
    queryLoop cfg openChunk descending limit (ci :: cis) sid res totalSize = .error e := by
  simp [queryLoop, hres, Chunk.readRecords, hopen]

/-- Once the byte budget is spent, a chunk that opens gives no record. -/
theorem readRecords_of_budget_spent (cfg : Config) {openChunk : Nat → Except Error (List Record)}
    {ci : ChunkInfo} {recs : List Record} (hopen : openChunk ci.id = .ok recs) (descending : Bool)
    (sid : Nat) (limit : Int) {totalSize : Int} (h : cfg.maxBunchSize ≤ totalSize) :
    Chunk.readRecords cfg openChunk ci descending sid limit totalSize = .ok ([], totalSize) := by
  simp only [Chunk.readRecords, hopen]
  cases startCursor recs descending sid with
  | nil => rfl
  | cons r rs => simp [readLoop, not_lt.mpr h]

/-- Once the byte budget is spent on a page short of the limit, the chunk loop reads no record
more but still opens every chunk left: it returns the page when all of them open, and the first
open error otherwise. -/
theorem queryLoop_of_budget_spent (cfg : Config) (openChunk : Nat → Except Error (List Record))
    (descending : Bool) (limit : Int) (cis : List ChunkInfo) (sid : Nat) {res : List Record}
    {totalSize : Int} (hres : (res.length : Int) < limit) (h : cfg.maxBunchSize ≤ totalSize) :
    queryLoop cfg openChunk descending limit cis sid res totalSize =
      (cis.mapM fun ci => openChunk ci.id).map fun _ => (res, totalSize) := by
  induction cis generalizing sid with
  | nil => rfl
  | cons ci cis ih =>
    rw [List.mapM_cons]
    cases hopen : openChunk ci.id with
    | error e =>
      rw [queryLoop_open_error cfg openChunk descending limit ci cis sid res totalSize hres hopen]
      rfl
    | ok recs =>
      rw [queryLoop, if_pos hres, readRecords_of_budget_spent cfg hopen descending sid _ h]
      simp only [List.append_nil, ih]
      cases cis.mapM fun ci => openChunk ci.id <;> rfl

/-- `queryLoop_of_budget_spent` past a full one-byte budget, with one chunk left that fails to
open: the page of one record turns into the chunk's error. -/
theorem queryLoop_of_budget_spent_error :
    ((([⟨1, [7]⟩] : List Record).length : Int) < 10 ∧ (⟨100, 1⟩ : Config).maxBunchSize ≤ 1) ∧
    queryLoop ⟨100, 1⟩ (fun _ => .error .notExist) false 10 [⟨2, 2, 2, 1⟩] 0 [⟨1, [7]⟩] 1 =
      (([⟨2, 2, 2, 1⟩] : List ChunkInfo).mapM fun _ => (.error .notExist : Except Error (List Record))).map
        fun _ => ([⟨1, [7]⟩], 1) :=
  ⟨⟨by decide, by decide⟩,
    queryLoop_of_budget_spent ⟨100, 1⟩ _ false 10 [⟨2, 2, 2, 1⟩] 0 (by decide) (by decide)⟩

/-- Two chunks of one one-byte record each, read ascending with a one-byte budget and a limit
of ten records: the page is complete after the first chunk, yet a second chunk that fails to
open, as one being deleted does, turns the page into an error. -/
theorem queryRecords_error_after_full_page :
    queryRecords ⟨100, 1⟩ (ReadEnv.ofFiles [⟨1, 1, 1, 1⟩, ⟨2, 2, 2, 1⟩]
        fun id => if id = 1 then some [⟨1, [7]⟩] else if id = 2 then some [⟨2, [8]⟩] else none)
      ⟨"l", .empty, false, 10⟩ = .ok ([⟨1, [7]⟩], true) ∧
    queryRecords ⟨100, 1⟩ ⟨.ok (), .ok [⟨1, 1, 1, 1⟩, ⟨2, 2, 2, 1⟩], fun id =>
        if id = 2 then .error .notExist
        else openFile (fun id => if id = 1 then some [⟨1, [7]⟩] else none) id⟩
      ⟨"l", .empty, false, 10⟩ = .error .notExist :=
  ⟨rfl, rfl⟩

end Solaris

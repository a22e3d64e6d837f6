import Mathlib.Data.List.Sort

/-!
# Records, chunks and chunk readers

The data model of `pkg/storage/logfs`: a log's records live in chunk files, and the
catalog (`LogsMetaStorage`) keeps one `ChunkInfo` per chunk. A ULID is modelled by its
128-bit value as a natural number, so that ULID order is `≤` on `Nat`; `0` is the zero
`ulid.ULID` that `localLog` uses for "no start position".

The chunk codec of `pkg/storage/chunkfs` is not among this repository's sources. Its reader
is modelled from the spec (`openChunkReader`, `setStartID`). `sortSearch` is Go's
`sort.Search`, with which the read paths find the first chunk to scan; `sortSearch_append`
says that on a list split into a prefix where the predicate fails and a suffix where it
holds, it returns the length of the prefix.
-/

namespace Solaris

/-- A record payload (`[]byte`). -/
abbrev Payload := List UInt8

/-- A record as a chunk holds it: its ULID and its payload. -/
structure Record where
  id : Nat
  payload : Payload
  deriving DecidableEq, Repr

/-- `logfs.ChunkInfo`: a chunk's ID, the IDs of its first and last records and its record
count. -/
structure ChunkInfo where
  id : Nat
  min : Nat
  max : Nat
  recordsCount : Nat
  deriving DecidableEq, Repr

/-- The errors of the storage layer: the sentinels of `golibs/errors`, and the messages that
`fmt.Errorf` wraps around a cause. -/
inductive Error where
  | notExist
  | invalid
  | exhausted
  | closed
  | canceled
  | wrap (msg : String) (cause : Error)
  deriving DecidableEq, Repr

/-- `QueryRecordsRequest.StartID` as `ulid.UnmarshalText` reads it: empty, the text of a
ULID, or a text it rejects. -/
inductive StartID where
  | empty
  | ulid (u : Nat)
  | malformed (text : String)
  deriving DecidableEq, Repr

/-! ## Chunk readers -/

/-- Modelled from the spec: `chunkfs` `OpenChunkReader(descending)`, whose source is not in
this repository, yields a chunk's records in the order they were written, or in reverse for
a descending reader. -/
def openChunkReader (recs : List Record) (descending : Bool) : List Record :=
  if descending then recs.reverse else recs

/-- Modelled from the spec: `SetStartID(sid)` on a chunk reader keeps the records whose ID is
equal to or greater than `sid`, or equal to or lower for a descending reader. -/
def setStartID (cursor : List Record) (descending : Bool) (sid : Nat) : List Record :=
  cursor.filter fun r => if descending then r.id ≤ sid else sid ≤ r.id

/-- The reader that `readRecords` and `countRecords` scan: `SetStartID` is applied only when
`sid` is not the zero ULID. -/
def startCursor (recs : List Record) (descending : Bool) (sid : Nat) : List Record :=
  if sid ≠ 0 then setStartID (openChunkReader recs descending) descending sid
  else openChunkReader recs descending

@[simp] theorem startCursor_zero (recs : List Record) (descending : Bool) :
    startCursor recs descending 0 = openChunkReader recs descending := by
  simp [startCursor]

theorem startCursor_of_ne_zero {sid : Nat} (recs : List Record) (descending : Bool)
    (h : sid ≠ 0) :
    startCursor recs descending sid = setStartID (openChunkReader recs descending) descending sid := by
  simp [startCursor, h]

/-! ## `sort.Search` -/

/-- The loop of Go's `sort.Search`: bisect `[i, j)` until it is empty. Each turn shrinks the
interval, so `fuel ≥ j - i` turns always suffice. -/
def sortSearch.loop (f : Nat → Bool) : Nat → Nat → Nat → Nat
  | 0, i, _ => i
  | fuel + 1, i, j =>
    if i < j then
      let h := (i + j) / 2
      if !f h then loop f fuel (h + 1) j else loop f fuel i h
    else i

/-- Go's `sort.Search(n, f)`: the smallest index in `[0, n)` at which `f` holds, `n` when there
is none, provided `f` is monotone. -/
def sortSearch (n : Nat) (f : Nat → Bool) : Nat :=
  sortSearch.loop f n 0 n

/-- The bisection invariant: the answer `m` stays in `[i, j]`. -/
private theorem sortSearch_loop_eq (f : Nat → Bool) (n m : Nat)
    (hlo : ∀ k < m, f k = false) (hhi : ∀ k, m ≤ k → k < n → f k = true) (fuel i j : Nat)
    (hfuel : j - i ≤ fuel) (him : i ≤ m) (hmj : m ≤ j) (hjn : j ≤ n) :
    sortSearch.loop f fuel i j = m := by
  induction fuel generalizing i j with
  | zero => simp only [sortSearch.loop]; omega
  | succ fuel ih =>
    simp only [sortSearch.loop]
    split
    · cases hf : f ((i + j) / 2) with
      | false =>
        have : (i + j) / 2 < m := by
          by_contra hc
          simpa [hf] using hhi ((i + j) / 2) (by omega) (by omega)
        simp only [Bool.not_false, ↓reduceIte]
        exact ih _ _ (by omega) (by omega) hmj hjn
      | true =>
        have : m ≤ (i + j) / 2 := by
          by_contra hc
          simpa [hf] using hlo ((i + j) / 2) (by omega)
        simp only [Bool.not_true, Bool.false_eq_true, ↓reduceIte]
        exact ih _ _ (by omega) him this (by omega)
    · omega

/-- `sort.Search` returns the index `m` below which `f` fails and from which on `f` holds. -/
theorem sortSearch_eq (n : Nat) (f : Nat → Bool) {m : Nat} (hmn : m ≤ n)
    (hlo : ∀ k < m, f k = false) (hhi : ∀ k, m ≤ k → k < n → f k = true) :
    sortSearch n f = m :=
  sortSearch_loop_eq f n m hlo hhi n 0 n (by omega) (Nat.zero_le _) hmn le_rfl

/-- `sort.Search` over a list split into a prefix where `p` fails and a suffix where it holds
returns the length of the prefix. -/
theorem sortSearch_append {α : Type} (pre rest : List α) (p : α → Bool)
    (hpre : ∀ a ∈ pre, p a = false) (hrest : ∀ a ∈ rest, p a = true) :
    sortSearch (pre ++ rest).length (fun i => (pre ++ rest)[i]?.any p) = pre.length := by
  apply sortSearch_eq _ _ (by simp)
  · intro k hk
    rw [List.getElem?_append_left hk, List.getElem?_eq_getElem hk]
    exact hpre _ (List.getElem_mem _)
  · intro k hk hkn
    have hk' : k - pre.length < rest.length := by simp at hkn; omega
    rw [List.getElem?_append_right hk, List.getElem?_eq_getElem hk']
    exact hrest _ (List.getElem_mem _)

/-- A predicate that holds monotonically along a list splits it into a prefix where it fails
and a suffix where it holds. -/
theorem exists_split_of_pairwise {α : Type} (xs : List α) (p : α → Bool)
    (hmono : xs.Pairwise fun a b => p a = true → p b = true) :
    ∃ pre rest, xs = pre ++ rest ∧ (∀ a ∈ pre, p a = false) ∧ (∀ a ∈ rest, p a = true) := by
  induction xs with
  | nil => exact ⟨[], [], rfl, by simp, by simp⟩
  | cons x xs ih =>
    obtain ⟨hx, hxs⟩ := List.pairwise_cons.mp hmono
    cases hpx : p x with
    | false =>
      obtain ⟨pre, rest, rfl, hpre, hrest⟩ := ih hxs
      exact ⟨x :: pre, rest, rfl, List.forall_mem_cons.mpr ⟨hpx, hpre⟩, hrest⟩
    | true =>
      exact ⟨[], x :: xs, rfl, by simp, List.forall_mem_cons.mpr ⟨hpx, fun a ha => hx a ha hpx⟩⟩

end Solaris

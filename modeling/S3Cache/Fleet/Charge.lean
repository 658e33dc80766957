import S3Cache.Index.Entry
import S3Cache.Lib.Fallible

/-! The size accounting a donor's measurement and a follower's decode share
(`index/fleet.rs`): checked `usize` sums of encoded bytes and decoded charges. -/

namespace S3Cache.Fleet

open Index Fallible

inductive ImageError where
  | capacity
  | incomplete
  | corrupt
  | schema
  deriving DecidableEq

/-- The `size_of` constants the charges are made of; they are the compiler's to choose, but
none of the types of a row is larger than a page. -/
class Layout where
  stringEntry : Nat
  stringTime : Nat
  stringBucket : Nat
  keyIndexState : Nat
  string : Nat
  etag : Nat
  storageClass : Nat
  stringEntry_le : stringEntry ≤ 4096
  etag_le : etag ≤ 4096
  storageClass_le : storageClass ≤ 4096

@[reducible] def sampleLayout : Layout where
  stringEntry := 144
  stringTime := 40
  stringBucket := 400
  keyIndexState := 160
  string := 24
  etag := 32
  storageClass := 24
  stringEntry_le := by decide
  etag_le := by decide
  storageClass_le := by decide

def usizeMax : Nat := 2 ^ 64 - 1

def checked (n : Nat) : Except ImageError Nat :=
  if n ≤ usizeMax then .ok n else .error .capacity

def sum (parts : List Nat) : Except ImageError Nat :=
  parts.foldlM (fun total part => checked (total + part)) 0

theorem checked_eq_ok {n m : Nat} : checked n = .ok m ↔ n ≤ usizeMax ∧ n = m := by
  unfold checked
  split <;> simp_all

theorem checked_of_le {n : Nat} (h : n ≤ usizeMax) : checked n = .ok n := if_pos h

theorem sum_eq_ok {parts : List Nat} {n : Nat} (h : sum parts = .ok n) : n = parts.sum := by
  refine foldlM_keeps (P := fun done total => total = done.sum) ?_ rfl h
  intro done x total total' _ hp hf
  obtain ⟨-, rfl⟩ := checked_eq_ok.mp hf
  simp [hp]

theorem sum_of_le {parts : List Nat} (h : parts.sum ≤ usizeMax) : sum parts = .ok parts.sum := by
  suffices H : ∀ total, total + parts.sum ≤ usizeMax →
      parts.foldlM (fun total part => checked (total + part)) total = .ok (total + parts.sum) by
    simpa [sum] using H 0 (by simpa using h)
  induction parts with
  | nil => intro total _; rfl
  | cons x xs ih =>
    intro total ht
    simp only [List.sum_cons] at h ht ⊢
    rw [List.foldlM_cons, checked_of_le (by omega), bind_ok,
      ih (by omega) (total + x) (by omega), Nat.add_assoc]

def hashSlotsPerBucket : Nat := 4
def hashMinSlots : Nat := 8
def treeSlotsPerRow : Nat := 3
def treeBytesPerRow : Nat := 64
def timestampBytes : Nat := 12
def headerBytes : Nat := 1 + 4

def mapEntryCharge (sizeOf count : Nat) : Except ImageError Nat := do
  let slots ← checked (count * treeSlotsPerRow)
  let bytes ← checked (slots * sizeOf)
  let tree ← checked (count * treeBytesPerRow)
  checked (bytes + tree)

def textBytes (len : Nat) : Except ImageError Nat := sum [4, len]

def bucketSlots (count : Nat) : Except ImageError Nat := do
  let slots ← checked (count * hashSlotsPerBucket)
  checked (slots + hashMinSlots)

section
variable [Layout]

def stateCharge (buckets : Nat) : Except ImageError Nat := do
  let slots ← bucketSlots buckets
  let table ← checked (slots * (Layout.stringBucket + 16))
  sum [Layout.keyIndexState, table]

def bucketCharge (name : Nat) : Except ImageError Nat := sum [name, Layout.string]

def etagCharge : Option Nat → Except ImageError Nat
  | some len => do
    let bytes ← checked (len * 2)
    checked (bytes + Layout.etag)
  | none => .ok 0

def entryCharge (key : Nat) (etag : Option Nat) (storage : Nat) : Except ImageError Nat := do
  let etag ← etagCharge etag
  let row ← mapEntryCharge Layout.stringEntry 1
  sum [key, row, etag, storage, Layout.storageClass]

theorem entryCharge_of_le {n key storage : Nat} {etag : Option Nat} (hn : n < 2 ^ 32)
    (hk : key ≤ n) (he : ∀ len ∈ etag, len ≤ n) (hs : storage ≤ n) :
    ∃ c ≤ 4 * n + 20544, entryCharge key etag storage = .ok c := by
  have h1 := Layout.stringEntry_le
  have h2 := Layout.etag_le
  have h3 := Layout.storageClass_le
  have hrow : mapEntryCharge Layout.stringEntry 1 = .ok (3 * Layout.stringEntry + 64) := by
    simp only [mapEntryCharge, treeSlotsPerRow, treeBytesPerRow, Nat.one_mul]
    rw [checked_of_le (by decide), bind_ok, checked_of_le (by unfold usizeMax; omega), bind_ok,
      checked_of_le (by decide), bind_ok, checked_of_le (by unfold usizeMax; omega)]
  have hetag : ∃ c ≤ 2 * n + 4096, etagCharge etag = .ok c := by
    cases etag with
    | none => exact ⟨0, by omega, rfl⟩
    | some len =>
      have hlen := he len rfl
      refine ⟨len * 2 + Layout.etag, by omega, ?_⟩
      simp only [etagCharge]
      rw [checked_of_le (by unfold usizeMax; omega), bind_ok,
        checked_of_le (by unfold usizeMax; omega)]
  obtain ⟨c, hc, hetag⟩ := hetag
  refine ⟨key + (3 * Layout.stringEntry + 64) + c + storage + Layout.storageClass, ?_, ?_⟩
  · omega
  · unfold entryCharge
    rw [hetag, bind_ok, hrow, bind_ok, sum_of_le]
    · simp [Nat.add_assoc]
    · simp [usizeMax]; omega

def maxEntryCharge : Nat := 98304

def goneCharge (key : Nat) : Except ImageError Nat := do
  let row ← mapEntryCharge Layout.stringTime 1
  sum [key, row]

end

def etagWire : ETag → String × String
  | .strong raw => ("\"", raw)
  | .weak raw => ("W/\"", raw)

def etagText (value : ETag) : String := (etagWire value).1 ++ (etagWire value).2 ++ "\""

def etagTextLen (value : ETag) : Except ImageError Nat :=
  sum [(etagWire value).1.utf8ByteSize, (etagWire value).2.utf8ByteSize, 1]

theorem etagTextLen_eq_ok {t : ETag} {n : Nat} (h : etagTextLen t = .ok n) :
    n = (etagText t).utf8ByteSize := by
  have := sum_eq_ok h
  cases t <;> simp_all [etagText, etagWire, String.utf8ByteSize_append] <;> rfl

def etagBytes : Option ETag → Except ImageError Nat
  | some etag => do return 1 + (← textBytes (← etagTextLen etag))
  | none => .ok 1

def entryBytes (key : Nat) (entry : ObjEntry) : Except ImageError Nat := do
  let size := if entry.size.isSome then 1 + 8 else 1
  let etag ← etagBytes entry.etag
  sum [← textBytes key, size, timestampBytes, etag,
    ← textBytes entry.storageClass.name.utf8ByteSize]

def goneBytes (key : Nat) : Except ImageError Nat := do
  sum [← textBytes key, timestampBytes]

def bucketBytes (name : Nat) : Except ImageError Nat := do
  sum [← textBytes name, 4, 4]

def rowCharge [Layout] (key : Nat) (entry : ObjEntry) : Except ImageError Nat := do
  let etag ← entry.etag.mapM etagTextLen
  entryCharge key etag entry.storageClass.name.utf8ByteSize

structure ImageTally where
  encoded : BitVec 64 := 0#64
  decoded : BitVec 64 := 0#64
  deriving DecidableEq, Inhabited

def orMax (n : Except ImageError Nat) : BitVec 64 :=
  match n with
  | .ok n => BitVec.ofNat 64 n
  | .error _ => BitVec.ofNat 64 usizeMax

namespace ImageTally

def entry [Layout] (key : Nat) (e : ObjEntry) : ImageTally where
  encoded := orMax (entryBytes key e)
  decoded := orMax (rowCharge key e)

def tombstone [Layout] (key : Nat) : ImageTally where
  encoded := orMax (goneBytes key)
  decoded := orMax (goneCharge key)

def add (t row : ImageTally) : ImageTally := ⟨t.encoded + row.encoded, t.decoded + row.decoded⟩

def sub (t row : ImageTally) : ImageTally := ⟨t.encoded - row.encoded, t.decoded - row.decoded⟩

end ImageTally

end S3Cache.Fleet

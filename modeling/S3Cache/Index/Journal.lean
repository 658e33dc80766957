import S3Cache.Index.Rows
import S3Cache.Fleet.Delta

/-! The donor journal a capture appends to (`IndexCapture`, `index/fleet.rs`).  The journal
itself is the group library's: it either takes a record at the next position or is left
invalid, and once invalid it stays so. -/

namespace S3Cache.Index

open Fleet

/-- A writer's feed position: everything of `epoch` through `sequence`. -/
structure NativeCut where
  writer : List UInt8
  epoch : Nat
  sequence : Nat
  deriving DecidableEq

inductive DeltaIdentity where
  | native (cut : NativeCut)
  | localId (bytes : List UInt8)
  deriving DecidableEq

inductive Invalidation where
  | capacity
  | gap
  | membership
  | rebuild
  | donorLost
  | refused
  deriving DecidableEq

inductive JournalRecord where
  | delta (identity : DeltaIdentity) (effect : List UInt8)
  | renewal (sealed : NativeCut) (epoch : Nat) (effect : List UInt8)
  deriving DecidableEq

def JournalRecord.effect : JournalRecord → List UInt8
  | delta _ effect => effect
  | renewal _ _ effect => effect

structure DonorJournal where
  admits : List JournalRecord → JournalRecord → Bool
  invalid : Option Invalidation := none
  records : List JournalRecord := []

namespace DonorJournal

def invalidate (j : DonorJournal) (reason : Invalidation) : DonorJournal :=
  { j with invalid := j.invalid <|> some reason }

def push (j : DonorJournal) (record : JournalRecord) : DonorJournal :=
  if j.invalid.isSome then j
  else if j.admits j.records record then { j with records := j.records ++ [record] }
  else j.invalidate .refused

@[simp] theorem invalid_invalidate (j : DonorJournal) (reason : Invalidation) :
    (j.invalidate reason).invalid ≠ none := by
  cases h : j.invalid <;> simp [invalidate, h]

theorem push_valid {j : DonorJournal} {record : JournalRecord}
    (h : (j.push record).invalid = none) :
    j.invalid = none ∧ j.push record = { j with records := j.records ++ [record] } := by
  unfold push at h ⊢
  split
  · simp_all
  · split
    · simp_all
    · simp_all

end DonorJournal

structure IndexCapture where
  journal : DonorJournal
  nextLocal : Nat := 0
  maxEventBytes : Nat
  maxNameBytes : Nat

namespace IndexCapture

def invalidate (c : IndexCapture) (reason : Invalidation) : IndexCapture :=
  { c with journal := c.journal.invalidate reason }

def appendBytes (c : IndexCapture) (identity : DeltaIdentity) (effect : List UInt8) :
    IndexCapture :=
  { c with journal := c.journal.push (.delta identity effect) }

def appendLocal (c : IndexCapture) (effect : List UInt8) : IndexCapture :=
  if c.nextLocal + 1 < 2 ^ 64 then
    let next := c.nextLocal + 1
    { c with nextLocal := next }.appendBytes (.localId (ByteCodec.leBytes 8 next)) effect
  else c.invalidate .capacity

def append (c : IndexCapture) (identity : Option DeltaIdentity)
    (effect : Except ImageError (List UInt8)) : IndexCapture :=
  match effect with
  | .error _ => c.invalidate .capacity
  | .ok effect =>
    match identity with
    | some identity => c.appendBytes identity effect
    | none => c.appendLocal effect

def recordPut (c : IndexCapture) (identity : Option DeltaIdentity) (bucket key : String)
    (entry : ObjEntry) : IndexCapture :=
  if c.maxNameBytes < bucket.utf8ByteSize ∨ c.maxNameBytes < key.utf8ByteSize then
    c.invalidate .capacity
  else
    c.append identity (IndexDelta.encodePut bucket key entry c.maxEventBytes c.maxNameBytes)

def recordDelete (c : IndexCapture) (identity : Option DeltaIdentity) (bucket key : String)
    (deletedAt : SystemTime) : IndexCapture :=
  if c.maxNameBytes < bucket.utf8ByteSize ∨ c.maxNameBytes < key.utf8ByteSize then
    c.invalidate .capacity
  else
    c.append identity (IndexDelta.encodeDelete bucket key deletedAt c.maxEventBytes c.maxNameBytes)

def recordNativeNoop (c : IndexCapture) (identity : DeltaIdentity) : IndexCapture :=
  c.append (some identity) (IndexDelta.encodeDelta .noop c.maxEventBytes c.maxNameBytes)

def recordRenewal (c : IndexCapture) (sealed : NativeCut) (epoch : Nat) : IndexCapture :=
  match IndexDelta.encodeDelta .noop c.maxEventBytes c.maxNameBytes with
  | .error _ => c.invalidate .capacity
  | .ok effect => { c with journal := c.journal.push (.renewal sealed epoch effect) }

structure Journaled (c : IndexCapture) (delta : IndexDelta) (c' : IndexCapture) : Prop where
  valid : c.journal.invalid = none
  records : ∃ r, c'.journal.records = c.journal.records ++ [r] ∧
    delta.Encodes c.maxEventBytes c.maxNameBytes r.effect
  maxEventBytes : c'.maxEventBytes = c.maxEventBytes
  maxNameBytes : c'.maxNameBytes = c.maxNameBytes

variable {c : IndexCapture} {delta : IndexDelta} {effect : List UInt8}

theorem appendBytes_journaled {identity : DeltaIdentity}
    (he : delta.Encodes c.maxEventBytes c.maxNameBytes effect)
    (h : (c.appendBytes identity effect).journal.invalid = none) :
    c.Journaled delta (c.appendBytes identity effect) := by
  obtain ⟨hv, hp⟩ := DonorJournal.push_valid h
  exact ⟨hv, ⟨.delta identity effect, by simp [appendBytes, hp], he⟩, rfl, rfl⟩

theorem append_journaled {identity : Option DeltaIdentity}
    {effect : Except ImageError (List UInt8)}
    (he : ∀ bytes, effect = .ok bytes → delta.Encodes c.maxEventBytes c.maxNameBytes bytes)
    (h : (c.append identity effect).journal.invalid = none) :
    c.Journaled delta (c.append identity effect) := by
  cases effect with
  | error e => simp [append, invalidate] at h
  | ok bytes =>
    cases identity with
    | some identity => exact appendBytes_journaled (he bytes rfl) h
    | none =>
      simp only [append, appendLocal] at h ⊢
      by_cases hn : c.nextLocal + 1 < 2 ^ 64
      · rw [if_pos hn] at h ⊢
        have := appendBytes_journaled (c := { c with nextLocal := c.nextLocal + 1 }) (he bytes rfl) h
        exact ⟨this.valid, this.records, rfl, rfl⟩
      · rw [if_neg hn] at h
        exact absurd h (DonorJournal.invalid_invalidate _ _)

theorem recordPut_journaled {identity : Option DeltaIdentity} {bucket key : String}
    {entry : ObjEntry} (h : (c.recordPut identity bucket key entry).journal.invalid = none) :
    c.Journaled (.put bucket key entry) (c.recordPut identity bucket key entry) := by
  unfold recordPut at h ⊢
  split
  · simp_all [invalidate]
  · rw [if_neg ‹_›] at h
    exact append_journaled (fun _ => IndexDelta.encodePut_encodes) h

theorem recordDelete_journaled {identity : Option DeltaIdentity} {bucket key : String}
    {t : SystemTime} (h : (c.recordDelete identity bucket key t).journal.invalid = none) :
    c.Journaled (.delete bucket key t) (c.recordDelete identity bucket key t) := by
  unfold recordDelete at h ⊢
  split
  · simp_all [invalidate]
  · rw [if_neg ‹_›] at h
    exact append_journaled (fun _ => IndexDelta.encodeDelete_encodes) h

theorem recordNativeNoop_journaled {identity : DeltaIdentity}
    (h : (c.recordNativeNoop identity).journal.invalid = none) :
    c.Journaled .noop (c.recordNativeNoop identity) :=
  append_journaled (fun _ => IndexDelta.encodeDelta_noop_encodes) h

theorem recordRenewal_journaled {sealed : NativeCut} {epoch : Nat}
    (h : (c.recordRenewal sealed epoch).journal.invalid = none) :
    c.Journaled .noop (c.recordRenewal sealed epoch) := by
  unfold recordRenewal at h ⊢
  split
  · simp_all [invalidate]
  · next effect he =>
    simp only [he] at h
    obtain ⟨hv, hp⟩ := DonorJournal.push_valid h
    exact ⟨hv, ⟨.renewal sealed epoch effect, by simp [hp], IndexDelta.encodeDelta_noop_encodes he⟩,
      rfl, rfl⟩

end IndexCapture

end S3Cache.Index

import S3Cache.Index.View

/-! The follower's guarded swap of a verified private stage into the live index
(`index/fleet/install.rs`).  The order in which the source walks its hash map of buckets only
decides which refusal is named; here it is the order of the names.
`names` is the configured bucket universe. -/

namespace S3Cache.Fleet

open Index Fallible

inductive RowField where
  | eTag
  | size
  | storageClass
  | lastModified
  deriving DecidableEq

inductive Clause where
  | universeMismatch
  | liveRebuilding
  | cutConflict
  | candidateUnsynced
  | rowLimit
  | rowMismatch (field : RowField)
  | tombstoneMismatch
  | unavailable
  deriving DecidableEq

structure CutPair where
  writer : List UInt8
  live : Option (Nat × Nat)
  barrier : Option (Nat × Nat)
  deriving DecidableEq

structure Incompatibility where
  clause : Clause
  bucket : Option String := none
  key : Option String := none
  cut : Option CutPair := none
  deriving DecidableEq

inductive InstallRefusal where
  | pending (cut : Option CutPair)
  | incompatible (what : Incompatibility)
  deriving DecidableEq

namespace InstallRefusal

def atKey (clause : Clause) (bucket key : String) : InstallRefusal :=
  .incompatible { clause, bucket := some bucket, key := some key }

def inBucket (clause : Clause) (bucket : String) : InstallRefusal :=
  .incompatible { clause, bucket := some bucket }

def whole (clause : Clause) : InstallRefusal := .incompatible { clause }

def atWriter (clause : Clause) (cut : Option CutPair) : InstallRefusal :=
  .incompatible { clause, cut }

def unavailable : InstallRefusal := whole .unavailable

end InstallRefusal

open InstallRefusal

inductive CutAlignment where
  | exact
  | pending
  | conflict
  deriving DecidableEq

structure Alignment where
  verdict : CutAlignment
  deciding : Option CutPair := none

abbrev CutAligner := List (List UInt8 × Nat × Nat) → List NativeCut → Alignment

def versionDifference (live peer : ObjEntry) : Option RowField :=
  if peer.etag ≠ live.etag then some .eTag
  else if peer.size ≠ live.size then some .size
  else if peer.storageClass ≠ live.storageClass then some .storageClass
  else if live.etag.isNone ∧ peer.lastModified ≠ live.lastModified then some .lastModified
  else none

inductive Carried where
  | row (entry : ObjEntry)
  | delete (deletedAt : SystemTime)
  deriving DecidableEq

def Carried.isDelete : Carried → Bool
  | delete _ => true
  | row _ => false

abbrev Carry := List (String × String × Carried)

def laterSecond (second : Nat) (t : SystemTime) : Bool := decide (second < wholeSeconds t)

def rowOrdered (row : ObjEntry) (peer : Option (ObjEntry × RowField))
    (peerDeleted : Option SystemTime) : Except Clause Bool :=
  let second := wholeSeconds row.lastModified
  if peerDeleted.any (laterSecond second) ||
      peer.any (fun p => laterSecond second p.1.lastModified) then .ok false
  -- a tombstone's time is exact, a row's may be rounded down
  else if peerDeleted.any (row.lastModified ≤ ·) then .error .tombstoneMismatch
  else
    match peer with
    | some (peer, field) =>
      if wholeSeconds peer.lastModified = second then .error (.rowMismatch field) else .ok true
    | none => .ok true

def rowCarried (row : ObjEntry) (peer : Option ObjEntry) (peerDeleted : Option SystemTime) :
    Except Clause Bool :=
  match peer with
  | none => rowOrdered row none peerDeleted
  | some peer =>
    match versionDifference row peer with
    | none => .ok false
    | some field => rowOrdered row (some (peer, field)) peerDeleted

def tombstoneCarried (deletedAt : SystemTime) (peer : Option ObjEntry)
    (peerDeleted : Option SystemTime) : Except Clause Bool :=
  if peerDeleted.any (deletedAt ≤ ·) then .ok false
  else
    match peer with
    | some peer =>
      if deletedAt < peer.lastModified then .ok false
      else if wholeSeconds peer.lastModified = wholeSeconds deletedAt then
        .error .tombstoneMismatch
      else .ok true
    | none => .ok true

def refuseAt {α : Type} (bucket key : String) : Except Clause α → Except InstallRefusal α
  | .ok a => .ok a
  | .error clause => .error (atKey clause bucket key)

def carriedRow (name : String) (incoming : BucketState) (row : String × ObjEntry) :
    Except InstallRefusal (Option (String × String × Carried)) := do
  let carried ← refuseAt name row.1
    (rowCarried row.2 (incoming.keys.get row.1) (incoming.gone.get row.1))
  return if carried then some (name, row.1, .row row.2) else none

def carriedDelete (name : String) (incoming : BucketState) (row : String × SystemTime) :
    Except InstallRefusal (Option (String × String × Carried)) := do
  let carried ← refuseAt name row.1
    (tombstoneCarried row.2 (incoming.keys.get row.1) (incoming.gone.get row.1))
  return if carried then some (name, row.1, .delete row.2) else none

def ascending : List String → Bool
  | a :: b :: rest => decide (a < b) && ascending (b :: rest)
  | _ => true

section
variable (alignCuts : CutAligner)

def checkShape (live candidate : KeyIndexState) (cuts : List NativeCut) (names : List String) :
    Except InstallRefusal Unit := do
  if names = [] ∨ ascending names = false ∨ candidate.buckets.size ≠ names.length then
    .error (whole .universeMismatch)
  else
  live.buckets.toList.forM fun (name, bucket) =>
    if name ∉ names then .error (inBucket .universeMismatch name)
    else if bucket.rebuildGeneration.isSome then .error (inBucket .liveRebuilding name)
    else .ok ()
  let alignment := alignCuts live.nativeCuts.toList cuts
  match alignment.verdict with
  | .pending => .error (.pending alignment.deciding)
  | .conflict => .error (atWriter .cutConflict alignment.deciding)
  | .exact =>
    names.forM fun name =>
      match candidate.buckets[name]? with
      | none => .error (inBucket .universeMismatch name)
      | some bucket =>
        if !bucket.synced || !bucket.uncertainKeys.isEmpty then
          .error (inBucket .candidateUnsynced name)
        else .ok ()

def checkBucket (candidate : KeyIndexState) (maxRows : Nat) (acc : Nat × Carry)
    (bucket : String × BucketState) : Except InstallRefusal (Nat × Carry) :=
  match candidate.buckets[bucket.1]? with
  | none => .error (inBucket .universeMismatch bucket.1)
  | some incoming =>
    let rows := acc.1 + bucket.2.keys.len + bucket.2.gone.len
    if usizeMax < rows ∨ maxRows < rows then .error (inBucket .rowLimit bucket.1)
    else do
      let carriedRows ← collect (carriedRow bucket.1 incoming) bucket.2.keys.rows
      let carriedDeletes ← collect (carriedDelete bucket.1 incoming) bucket.2.gone.rows
      return (rows, acc.2 ++ carriedRows ++ carriedDeletes)

def checkCandidate (live candidate : KeyIndexState) (cuts : List NativeCut)
    (names : List String) (maxRows : Nat) : Except InstallRefusal Carry := do
  checkShape alignCuts live candidate cuts names
  let (_, carry) ← live.buckets.toList.foldlM (checkBucket candidate maxRows) (0, [])
  return carry

variable [Layout]

def applyCarried (s : KeyIndexState) (effect : String × String × Carried) :
    Except InstallRefusal KeyIndexState :=
  let (name, key, carried) := effect
  match s.buckets[name]? with
  | none => .error (inBucket .universeMismatch name)
  | some b =>
    match carried with
    | .delete deletedAt =>
      let s := s.setBucket name ({ b with gone := b.gone.raise key deletedAt }.dropRow key)
      match b.keys.get key with
      | some previous => .ok (s.account (.forEntry previous) {})
      | none => .ok s
    | .row entry =>
      .ok ((s.setBucket name (b.setRow key entry)).account (.ofRow (b.keys.get key))
        (.forEntry entry))

def applyCarry (candidate : KeyIndexState) (carry : Carry) : Except InstallRefusal KeyIndexState :=
  (carry.filter (·.2.2.isDelete) ++ carry.filter (!·.2.2.isDelete)).foldlM applyCarried candidate

omit [Layout] in
def adopt (live : KeyIndexState) (s : KeyIndexState) (name : String) :
    Except InstallRefusal KeyIndexState :=
  match s.buckets[name]? with
  | none => .error (inBucket .universeMismatch name)
  | some b =>
    let old := live.buckets[name]?
    let generation := old.elim 0 (·.syncGeneration) + 1
    if 2 ^ 64 ≤ generation then .error unavailable
    else
      let b := { b with syncGeneration := generation }
      .ok (s.setBucket name (old.elim b fun prior =>
        { b with
          uncertaintyEpoch := prior.uncertaintyEpoch, uncertainKeys := prior.uncertainKeys }))

def publish (live candidate : KeyIndexState) (names : List String) (carry : Carry) :
    Except InstallRefusal KeyIndexState := do
  let candidate ← names.foldlM (adopt live) candidate
  let candidate ← applyCarry candidate carry
  return { candidate with nativeCuts := live.nativeCuts }

/-- The answer, the live index and the stage after it: a refusal of the check keeps the stage. -/
def installFleetCandidate (live : KeyIndexState) (stage : Option KeyIndexState)
    (cuts : List NativeCut) (names : List String) (maxRows : Nat) :
    Except InstallRefusal Unit × KeyIndexState × Option KeyIndexState :=
  match stage with
  | none => (.error unavailable, live, none)
  | some candidate =>
    match checkCandidate alignCuts live candidate cuts names maxRows with
    | .error refusal => (.error refusal, live, stage)
    | .ok carry =>
      match publish live candidate names carry with
      | .error refusal => (.error refusal, live, none)
      | .ok installed => (.ok (), installed, none)

end

end S3Cache.Fleet

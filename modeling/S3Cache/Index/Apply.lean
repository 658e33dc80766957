import S3Cache.Index.State

/-! The operations of the index (`index.rs`).  What an operation does to one bucket is a
function of that bucket; around it stand the native cut, the totals and the donor journal. -/

namespace S3Cache.Index

open Fleet

inductive PutAuthority where
  | definitiveMutation
  | observation
  deriving DecidableEq

inductive TombstoneSweep where
  | run
  | hold
  deriving DecidableEq

inductive AuthoritativeKeyState where
  | present (entry : ObjEntry)
  | absent
  deriving DecidableEq

def tombstoneTtl : Nat := 3600 * 1000000000

def tombstonePruneLen : Nat := 65536

def IndexStats.ofRow (row : Option ObjEntry) : IndexStats := row.elim {} .forEntry

section
variable [Layout]

namespace BucketState

def firstRebuildMutation (b : BucketState) (key : String) : Bool :=
  b.rebuildGeneration.isSome && !b.rebuildTouched.contains key

def firstPut (b : BucketState) (key : String) (authority : PutAuthority) : Bool :=
  decide (authority = .definitiveMutation) && b.firstRebuildMutation key

def refusesPut (b : BucketState) (key : String) (ts : SystemTime) (authority : PutAuthority) :
    Bool :=
  (!b.firstPut key authority && (b.gone.get key).any (ts ≤ ·)) ||
  (!b.firstPut key authority && (b.keys.get key).any (ts < ·.lastModified)) ||
  (decide (authority = .observation) && b.rebuildTouched.contains key)

def setRow (b : BucketState) (key : String) (entry : ObjEntry) : BucketState :=
  { b with
    keys := b.keys.insert key entry
    stats := b.stats.replace (.ofRow (b.keys.get key)) (.forEntry entry) }

def dropRow (b : BucketState) (key : String) : BucketState :=
  match b.keys.get key with
  | some previous =>
    { b with keys := b.keys.remove key, stats := b.stats.replace (.forEntry previous) {} }
  | none => b

def unfence (b : BucketState) (key : String) : BucketState :=
  { b with uncertainKeys := b.uncertainKeys.erase key }

def touch (b : BucketState) (key : String) : BucketState :=
  if b.rebuildGeneration.isSome then { b with rebuildTouched := b.rebuildTouched.insert key }
  else b

def acceptPut (b : BucketState) (key : String) (entry : ObjEntry) (authority : PutAuthority) :
    BucketState :=
  let b' := if b.firstPut key authority then { b with gone := b.gone.remove key } else b
  match authority with
  | .definitiveMutation => ((b'.setRow key entry).unfence key).touch key
  | .observation => b'.setRow key entry

def sweepTombstones (b : BucketState) (ts : SystemTime) : BucketState :=
  if tombstonePruneLen < b.gone.len then
    match ts.checkedSub tombstoneTtl with
    | some cutoff => { b with gone := (b.gone.sweepExpired cutoff).2 }
    | none => b
  else b

def entomb (b : BucketState) (key : String) (ts : SystemTime) : BucketState :=
  { b with
    gone := if b.firstRebuildMutation key then b.gone.insert key ts else b.gone.raise key ts }

def outdatesDel (b : BucketState) (key : String) (ts : SystemTime) : Bool :=
  !b.firstRebuildMutation key &&
    ((b.keys.get key).any (ts < ·.lastModified) || (b.gone.get key).any (ts < ·))

def acceptDel (b : BucketState) (key : String) (ts : SystemTime) : BucketState :=
  (((b.entomb key ts).unfence key).touch key).dropRow key

def takesListed (b : BucketState) (key : String) (ts : SystemTime) : Bool :=
  !b.rebuildTouched.contains key && !b.uncertainKeys.contains key &&
    (b.gone.get key).all (· < ts) && (b.keys.get key).all (·.lastModified ≤ ts)

def ownedBy (b : BucketState) (generation : Nat) : Bool :=
  b.syncGeneration == generation && b.rebuildGeneration == some generation

def resolve (b : BucketState) (key : String) (now : SystemTime) :
    AuthoritativeKeyState → BucketState
  | .present entry => ({ b with gone := b.gone.remove key }.setRow key entry |>.unfence key).touch key
  | .absent => ({ b with gone := b.gone.raise key now }.dropRow key |>.unfence key).touch key

def discard (b : BucketState) : BucketState where
  syncGeneration := (b.syncGeneration + 1) % 2 ^ 64
  uncertaintyEpoch := b.uncertaintyEpoch
  uncertainKeys := b.uncertainKeys

end BucketState

namespace KeyIndexState

def account (s : KeyIndexState) (previous current : IndexStats) : KeyIndexState :=
  { s with stats := s.stats.replace previous current }

def noteIdentity (s : KeyIndexState) : Option DeltaIdentity → Bool × KeyIndexState
  | some (.native cut) => s.noteNativeCut cut
  | _ => (true, s)

def openBucket (s : KeyIndexState) (bucket : String) : KeyIndexState :=
  if s.buckets.contains bucket then s
  else s.invalidateCaptureForRebuild.setBucket bucket {}

def journalNoop (s : KeyIndexState) : Option DeltaIdentity → KeyIndexState
  | some identity => s.journal (·.recordNativeNoop identity)
  | none => s

def applyPutWithAuthority (s : KeyIndexState) (bucket key : String) (entry : ObjEntry)
    (authority : PutAuthority) (identity : Option DeltaIdentity) : Bool × KeyIndexState :=
  match s.noteIdentity identity with
  | (false, s) => (false, s)
  | (true, s) =>
    let s := s.openBucket bucket
    let b := s.bucket bucket
    if b.refusesPut key entry.lastModified authority then (false, s.journalNoop identity)
    else
      (true, (s.setBucket bucket (b.acceptPut key entry authority)
        |>.account (.ofRow (b.keys.get key)) (.forEntry entry)).journal
          (·.recordPut identity bucket key entry))

def applyPut (s : KeyIndexState) (bucket key : String) (entry : ObjEntry) : Bool × KeyIndexState :=
  s.applyPutWithAuthority bucket key entry .definitiveMutation none

def applyPutNative (s : KeyIndexState) (bucket key : String) (entry : ObjEntry) (cut : NativeCut) :
    Bool × KeyIndexState :=
  s.applyPutWithAuthority bucket key entry .definitiveMutation (some (.native cut))

def applyObservedPut (s : KeyIndexState) (bucket key : String) (entry : ObjEntry) :
    Bool × KeyIndexState :=
  s.applyPutWithAuthority bucket key entry .observation none

def journalDel (s : KeyIndexState) (identity : Option DeltaIdentity) (bucket key : String)
    (gone : Option SystemTime) (changed : Bool) : KeyIndexState :=
  match changed, gone with
  | true, some deletedAt => s.journal (·.recordDelete identity bucket key deletedAt)
  | _, _ => s.journalNoop identity

def applyDelWithIdentity (s : KeyIndexState) (bucket key : String) (ts : SystemTime)
    (identity : Option DeltaIdentity) (sweep : TombstoneSweep) : Bool × KeyIndexState :=
  match s.noteIdentity identity with
  | (false, s) => (false, s)
  | (true, s) =>
    let s := s.openBucket bucket
    let b := s.bucket bucket
    -- a capture journals whole key effects only, so none is forgotten while one is attached
    let b := if sweep = .run ∧ s.capture.isNone then b.sweepTombstones ts else b
    let gone := (b.entomb key ts).gone.get key
    let moved := decide (gone ≠ b.gone.get key)
    if b.outdatesDel key ts then
      (false, (s.setBucket bucket (b.entomb key ts)).journalDel identity bucket key gone moved)
    else
      let s := s.setBucket bucket (b.acceptDel key ts)
      match b.keys.get key with
      | some previous =>
        (true, (s.account (.forEntry previous) {}).journalDel identity bucket key gone true)
      | none => (false, s.journalDel identity bucket key gone moved)

def applyDel (s : KeyIndexState) (bucket key : String) (ts : SystemTime) : Bool × KeyIndexState :=
  s.applyDelWithIdentity bucket key ts none .run

def applyReplayedDel (s : KeyIndexState) (bucket key : String) (ts : SystemTime) :
    Bool × KeyIndexState :=
  s.applyDelWithIdentity bucket key ts none .hold

def applyDelNative (s : KeyIndexState) (bucket key : String) (ts : SystemTime) (cut : NativeCut) :
    Bool × KeyIndexState :=
  s.applyDelWithIdentity bucket key ts (some (.native cut)) .run

def completeEntry (s : KeyIndexState) (bucket key : String) (fill : EntryFill) :
    Completion × KeyIndexState :=
  match s.buckets[bucket]? with
  | none => (.notIndexed, s)
  | some b =>
    match b.keys.get key with
    | none => (.notIndexed, s)
    | some entry =>
      if !entry.sameVersion fill then (.otherVersion, s)
      else if !entry.filled fill then (.alreadyComplete, s)
      else
        let b' := { b with
          keys := b.keys.update key (·.fill fill)
          stats := b.stats.replace (.forEntry entry) (.forEntry (entry.fill fill)) }
        (.completed, (s.setBucket bucket b'
          |>.account (.forEntry entry) (.forEntry (entry.fill fill))).journal
            (·.recordPut none bucket key (entry.fill fill)))

/-- Fence one ambiguous key; `none` is the panic of an exhausted token space. -/
def fenceKey (s : KeyIndexState) (bucket key : String) : Option (Nat × KeyIndexState) :=
  let s := s.invalidateCaptureForRebuild
  let b := s.bucket bucket
  if b.uncertaintyEpoch + 1 < 2 ^ 64 then
    let token := b.uncertaintyEpoch + 1
    some (token, s.setBucket bucket
      { b with uncertaintyEpoch := token, uncertainKeys := b.uncertainKeys.insert key token })
  else none

/-- A peer's undescribable event; the inner `none` is a duplicate the cut already covers. -/
def fenceUncertainKeyNative (s : KeyIndexState) (bucket key : String) (cut : NativeCut) :
    Option (Option Nat × KeyIndexState) :=
  match s.noteNativeCut cut with
  | (false, s) => some (none, s)
  | (true, s) => (s.fenceKey bucket key).map fun (token, s) => (some token, s)

def fenceOwnUncertainKey (s : KeyIndexState) (bucket key : String) (cut : NativeCut) :
    Option (Nat × KeyIndexState) :=
  (s.noteNativeCut cut).2.fenceKey bucket key

def uncertainKeyIsCurrent (s : KeyIndexState) (bucket key : String) (token : Nat) : Bool :=
  (s.bucket bucket).uncertainKeys[key]? == some token

def resolveUncertainKey (s : KeyIndexState) (bucket key : String) (token : Nat)
    (now : SystemTime) (authoritative : AuthoritativeKeyState) : Bool × KeyIndexState :=
  match s.buckets[bucket]? with
  | none => (false, s)
  | some b =>
    if b.uncertainKeys[key]? ≠ some token then (false, s)
    else
      let s := s.setBucket bucket (b.resolve key now authoritative)
      match authoritative, b.keys.get key with
      | .present entry, previous => (true, s.account (.ofRow previous) (.forEntry entry))
      | .absent, some previous => (true, s.account (.forEntry previous) {})
      | .absent, none => (true, s)

def beginBucketResync (s : KeyIndexState) (bucket : String) : Nat × KeyIndexState :=
  let s := s.invalidateCaptureForRebuild
  let b := s.bucket bucket
  let generation := (b.syncGeneration + 1) % 2 ^ 64
  (generation, (s.account b.stats {}).setBucket bucket
    { b.discard with rebuildGeneration := some generation })

def discardBuckets (s : KeyIndexState) : KeyIndexState :=
  let s := s.invalidateCaptureForRebuild
  { s with
    buckets := s.buckets.map fun _ b => b.discard
    stats := s.buckets.toList.foldl (fun total row => total.replace row.2.stats {}) s.stats }

def discardForGap (s : KeyIndexState) (missedThrough : NativeCut) : KeyIndexState :=
  (s.skipNativeGap missedThrough).discardBuckets

def foldListed (s : KeyIndexState) (bucket : String) (row : String × ObjEntry) : KeyIndexState :=
  let b := s.bucket bucket
  if b.takesListed row.1 row.2.lastModified then
    (s.setBucket bucket (b.setRow row.1 row.2)).account (.ofRow (b.keys.get row.1))
      (.forEntry row.2)
  else s

def syncListingIntoGeneration (s : KeyIndexState) (bucket : String) (generation : Nat)
    (rows : List (String × ObjEntry)) : Option Nat × KeyIndexState :=
  let s := s.invalidateCaptureForRebuild
  let s := s.setBucket bucket (s.bucket bucket)
  if (s.bucket bucket).ownedBy generation then
    (some rows.length, rows.foldl (·.foldListed bucket ·) s)
  else (none, s)

def finishBucketSyncGeneration (s : KeyIndexState) (bucket : String) (generation : Nat) :
    Bool × KeyIndexState :=
  let b := s.bucket bucket
  if b.ownedBy generation then
    (true, s.setBucket bucket
      { b with synced := true, rebuildGeneration := none, rebuildTouched := ∅ })
  else (false, s.setBucket bucket b)

def removeBucket (s : KeyIndexState) (bucket : String) : KeyIndexState :=
  match s.buckets[bucket]? with
  | none => s
  | some b =>
    { s.invalidateCaptureForRebuild.account b.stats {} with buckets := s.buckets.erase bucket }

end KeyIndexState

end

end S3Cache.Index

import S3Cache.Index.View
import S3Cache.Sync.Wire

/-! A node's own writes into its index and its feed, and its peers' events into its index
(`sync/coherence.rs`). -/

namespace S3Cache.Sync

open Index Fleet KeyIndexState Utf8

structure WriteToken where
  epoch : Nat
  seq : Nat
  deriving DecidableEq

def nativeCut (peer : String) (token : WriteToken) : NativeCut :=
  ⟨utf8 peer, token.epoch, token.seq⟩

structure WriteFeed where
  me : String
  epoch : Nat
  log : List IndexEvent := []

namespace WriteFeed

def publish (feed : WriteFeed) (event : IndexEvent) : WriteFeed :=
  { feed with log := feed.log ++ [event] }

def ownPosition (feed : WriteFeed) : NativeCut := ⟨utf8 feed.me, feed.epoch, feed.log.length⟩

end WriteFeed

def putEvent (bucket key : String) (entry : ObjEntry) : IndexEvent where
  op := .put entry.size (entry.etag.map etagText) entry.contentType (some entry.storageClass.name)
  bucket := bucket
  key := key
  tsUs := toMicros entry.lastModified

def delEvent (bucket key : String) (ts : SystemTime) : IndexEvent :=
  ⟨.del, bucket, key, toMicros ts⟩

def eventEntry [ETagParser] (ts : SystemTime) (size : Option Int64)
    (etag contentType storageClass : Option String) : ObjEntry where
  size := size
  lastModified := ts
  etag := etag.bind ETagParser.parse
  storageClass := storageClass.elim standardClass .mk
  contentType := contentType
  objMeta := none

section
variable [Layout]

def indexPut (feed : WriteFeed) (s : KeyIndexState) (bucket key : String) (entry : ObjEntry) :
    Bool × WriteFeed × KeyIndexState :=
  let feed := feed.publish (putEvent bucket key entry)
  let (changed, s) := s.applyPutNative bucket key entry feed.ownPosition
  (changed, feed, s)

def indexDel (feed : WriteFeed) (s : KeyIndexState) (bucket key : String) (ts : SystemTime) :
    WriteFeed × KeyIndexState :=
  let feed := feed.publish (delEvent bucket key ts)
  (feed, (s.applyDelNative bucket key ts feed.ownPosition).2)

variable [ETagParser]

/-- Fold one peer event into the index; the token is that of a fence to reconcile, and an
outer `none` the panic of an exhausted token space. -/
def applyFeedIndex (s : KeyIndexState) (peer : String) (token : WriteToken) (event : IndexEvent) :
    Option (Option Nat × KeyIndexState) :=
  let ts := fromMicros event.tsUs
  let cut := nativeCut peer token
  if event.op.describesNothing then s.fenceUncertainKeyNative event.bucket event.key cut
  else
    match event.op with
    | .put size etag contentType storageClass =>
      some (none, (s.applyPutNative event.bucket event.key
        (eventEntry ts size etag contentType storageClass) cut).2)
    | .del => some (none, (s.applyDelNative event.bucket event.key ts cut).2)

end

end S3Cache.Sync

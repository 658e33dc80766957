import S3Cache.Index.View

/-! Runs of the index: every operation the node performs on it, one critical section each. -/

namespace S3Cache.Index

open Fleet

/-- `cut` is the feed position of an own or a peer's event, absent on a node without a feed. -/
inductive IndexCall where
  | put (bucket key : String) (entry : ObjEntry) (cut : Option NativeCut)
  | del (bucket key : String) (ts : SystemTime) (cut : Option NativeCut)
  | observedPut (bucket key : String) (entry : ObjEntry)
  | complete (bucket key : String) (fill : EntryFill)
  | register (cut : NativeCut)
  | noteSeal (cut : NativeCut)
  | renew (sealed : NativeCut) (epoch : Nat)
  | gap (missedThrough : NativeCut)
  | fence (bucket key : String)
  | fenceNative (bucket key : String) (cut : NativeCut)
  | fenceOwn (bucket key : String) (cut : NativeCut)
  | resolve (bucket key : String) (token : Nat) (now : SystemTime)
      (authoritative : AuthoritativeKeyState)
  | resync (bucket : String)
  | page (bucket : String) (generation : Nat) (rows : List (String × ObjEntry))
  | finish (bucket : String) (generation : Nat)
  | removeBucket (bucket : String)

namespace KeyIndexState

variable [Layout]

/-- `none` is the panic of an exhausted token space. -/
def step (s : KeyIndexState) : IndexCall → Option KeyIndexState
  | .put bucket key entry cut =>
    some (s.applyPutWithAuthority bucket key entry .definitiveMutation (cut.map .native)).2
  | .del bucket key ts cut => some (s.applyDelWithIdentity bucket key ts (cut.map .native) .run).2
  | .observedPut bucket key entry => some (s.applyObservedPut bucket key entry).2
  | .complete bucket key fill => some (s.completeEntry bucket key fill).2
  | .register cut => some (s.registerNativeWriter cut)
  | .noteSeal cut => some (s.noteNativeSeal cut)
  | .renew sealed epoch => some (s.renewNativeWriter sealed epoch)
  | .gap missedThrough => some (s.discardForGap missedThrough)
  | .fence bucket key => (s.fenceKey bucket key).map (·.2)
  | .fenceNative bucket key cut => (s.fenceUncertainKeyNative bucket key cut).map (·.2)
  | .fenceOwn bucket key cut => (s.fenceOwnUncertainKey bucket key cut).map (·.2)
  | .resolve bucket key token now authoritative =>
    some (s.resolveUncertainKey bucket key token now authoritative).2
  | .resync bucket => some (s.beginBucketResync bucket).2
  | .page bucket generation rows => some (s.syncListingIntoGeneration bucket generation rows).2
  | .finish bucket generation => some (s.finishBucketSyncGeneration bucket generation).2
  | .removeBucket bucket => some (s.removeBucket bucket)

def run (s : KeyIndexState) (ops : List IndexCall) : Option KeyIndexState := ops.foldlM step s

end KeyIndexState

end S3Cache.Index

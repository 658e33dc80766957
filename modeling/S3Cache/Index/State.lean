import S3Cache.Index.Journal

/-! The whole LIST index (`index.rs`) and its native writer cuts (`index/fleet.rs`).  A state
is what stands behind the index lock; every function below is one critical section. -/

namespace S3Cache.Index

open Fleet

structure BucketState where
  synced : Bool := false
  keys : KeyRows := {}
  gone : GoneRows := {}
  syncGeneration : Nat := 0
  rebuildGeneration : Option Nat := none
  rebuildTouched : Std.ExtTreeSet String := ∅
  uncertaintyEpoch : Nat := 0
  uncertainKeys : OrdMap Nat := ∅
  stats : IndexStats := {}

structure KeyIndexState where
  buckets : OrdMap BucketState := ∅
  stats : IndexStats := {}
  capture : Option IndexCapture := none
  nativeCuts : Std.ExtTreeMap (List UInt8) (Nat × Nat) := ∅

def maxNativeWriters : Nat := 256
def maxNativeIdBytes : Nat := 256

namespace KeyIndexState

/-- `buckets.entry(name).or_default()`, read. -/
def bucket (s : KeyIndexState) (name : String) : BucketState := s.buckets[name]?.getD {}

def setBucket (s : KeyIndexState) (name : String) (b : BucketState) : KeyIndexState :=
  { s with buckets := s.buckets.insert name b }

def invalidateCapture (s : KeyIndexState) (reason : Invalidation) : KeyIndexState :=
  { s with capture := s.capture.map (·.invalidate reason) }

def invalidateCaptureForRebuild (s : KeyIndexState) : KeyIndexState := s.invalidateCapture .rebuild

def journal (s : KeyIndexState) (record : IndexCapture → IndexCapture) : KeyIndexState :=
  { s with capture := s.capture.map record }

def setCut (s : KeyIndexState) (writer : List UInt8) (cut : Nat × Nat) : KeyIndexState :=
  { s with nativeCuts := s.nativeCuts.insert writer cut }

def withdrawUnlessNext (s : KeyIndexState) (cut : NativeCut) (old : Nat × Nat) : KeyIndexState :=
  if cut.epoch ≠ old.1 then s.invalidateCapture .membership
  else if cut.sequence ≠ saturatingAdd old.2 1 then s.invalidateCapture .gap
  else s

def noteNativeCut (s : KeyIndexState) (cut : NativeCut) : Bool × KeyIndexState :=
  if cut.writer.isEmpty || maxNativeIdBytes < cut.writer.length || cut.epoch == 0 ||
      cut.sequence == 0 then
    (true, s.invalidateCapture .gap)
  else
    match s.nativeCuts[cut.writer]? with
    | none =>
      if maxNativeWriters ≤ s.nativeCuts.size then (true, s.invalidateCapture .capacity)
      else (true, (s.setCut cut.writer (cut.epoch, cut.sequence)).invalidateCapture .membership)
    | some old =>
      if cut.epoch = old.1 ∧ cut.sequence ≤ old.2 then (false, s)
      else (true, (s.withdrawUnlessNext cut old).setCut cut.writer (cut.epoch, cut.sequence))

def registerNativeWriter (s : KeyIndexState) (cut : NativeCut) : KeyIndexState :=
  if cut.writer.isEmpty || maxNativeIdBytes < cut.writer.length || cut.epoch == 0 ||
      s.nativeCuts.contains cut.writer then s
  else if maxNativeWriters ≤ s.nativeCuts.size then s.invalidateCapture .capacity
  else (s.setCut cut.writer (cut.epoch, cut.sequence)).invalidateCapture .membership

def noteNativeSeal (s : KeyIndexState) (cut : NativeCut) : KeyIndexState :=
  match s.noteNativeCut cut with
  | (true, s) => s.journal (·.recordNativeNoop (.native cut))
  | (false, s) => s

def renewNativeWriter (s : KeyIndexState) (sealed : NativeCut) (epoch : Nat) : KeyIndexState :=
  match s.nativeCuts[sealed.writer]? with
  | none => s
  | some cut =>
    if epoch ≤ cut.1 then s
    else if cut = (sealed.epoch, sealed.sequence) then
      (s.setCut sealed.writer (epoch, 0)).journal (·.recordRenewal sealed epoch)
    else (s.setCut sealed.writer (epoch, 0)).invalidateCapture .gap

def skipNativeGap (s : KeyIndexState) (missedThrough : NativeCut) : KeyIndexState :=
  match s.nativeCuts[missedThrough.writer]? with
  | none => s
  | some cut =>
    -- positions compare epoch-major, as the source's tuples do
    if missedThrough.epoch < cut.1 ∨
        missedThrough.epoch = cut.1 ∧ missedThrough.sequence ≤ cut.2 then s
    else (s.setCut missedThrough.writer (missedThrough.epoch, missedThrough.sequence))
      |>.invalidateCapture .gap

def CaptureValid (s : KeyIndexState) : Prop := ∀ c ∈ s.capture, c.journal.invalid = none

section
variable {s : KeyIndexState}

@[simp] theorem buckets_invalidateCapture (r : Invalidation) :
    (s.invalidateCapture r).buckets = s.buckets := rfl
@[simp] theorem buckets_journal (f : IndexCapture → IndexCapture) :
    (s.journal f).buckets = s.buckets := rfl
@[simp] theorem buckets_setCut (w : List UInt8) (c : Nat × Nat) :
    (s.setCut w c).buckets = s.buckets := rfl
@[simp] theorem capture_setCut (w : List UInt8) (c : Nat × Nat) :
    (s.setCut w c).capture = s.capture := rfl
@[simp] theorem capture_setBucket (n : String) (b : BucketState) :
    (s.setBucket n b).capture = s.capture := rfl

theorem get_setBucket (n m : String) (b : BucketState) :
    (s.setBucket n b).buckets[m]? = if n = m then some b else s.buckets[m]? :=
  TreeMap.get_insert ..

theorem bucket_setBucket (n m : String) (b : BucketState) :
    (s.setBucket n b).bucket m = if n = m then b else s.bucket m := by
  unfold bucket
  rw [get_setBucket]
  split <;> rfl

theorem bucket_congr {s' : KeyIndexState} (h : s'.buckets = s.buckets) (n : String) :
    s'.bucket n = s.bucket n := by
  unfold bucket
  rw [h]

@[simp] theorem buckets_withdrawUnlessNext (cut : NativeCut) (old : Nat × Nat) :
    (s.withdrawUnlessNext cut old).buckets = s.buckets := by
  fun_cases withdrawUnlessNext <;> simp

@[simp] theorem buckets_noteNativeCut (cut : NativeCut) :
    (s.noteNativeCut cut).2.buckets = s.buckets := by
  fun_cases noteNativeCut <;> simp

@[simp] theorem buckets_registerNativeWriter (cut : NativeCut) :
    (s.registerNativeWriter cut).buckets = s.buckets := by
  fun_cases registerNativeWriter <;> simp

@[simp] theorem buckets_noteNativeSeal (cut : NativeCut) :
    (s.noteNativeSeal cut).buckets = s.buckets := by
  have := buckets_noteNativeCut (s := s) cut
  unfold noteNativeSeal
  split <;> simp_all

@[simp] theorem buckets_renewNativeWriter (sealed : NativeCut) (epoch : Nat) :
    (s.renewNativeWriter sealed epoch).buckets = s.buckets := by
  fun_cases renewNativeWriter <;> simp

@[simp] theorem buckets_skipNativeGap (cut : NativeCut) :
    (s.skipNativeGap cut).buckets = s.buckets := by
  fun_cases skipNativeGap <;> simp

end

end KeyIndexState

end S3Cache.Index

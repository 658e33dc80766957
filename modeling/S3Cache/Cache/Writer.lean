import S3Cache.Cache.Record
import S3Cache.Sync.History

/-! What a node records of its own writes (`cache/proxy.rs`, `sync/coherence.rs`): the index and,
on a node that replicates, the feed, whose next position the index takes with every record. -/

namespace S3Cache.Cache

open Index KeyIndexState Fleet Sync Utf8

def Owned (feed : WriteFeed) (s : KeyIndexState) : Prop :=
  ∀ seq, s.nativeCuts[utf8 feed.me]? = some (feed.epoch, seq) → seq ≤ feed.log.length

theorem Owned.note {feed : WriteFeed} {s s' : KeyIndexState} (h : Owned feed s) (event : IndexEvent)
    (hs : s'.nativeCuts = (s.noteNativeCut (feed.publish event).ownPosition).2.nativeCuts) :
    Owned (feed.publish event) s' := by
  intro seq hseq
  have hlen : (feed.publish event).log.length = feed.log.length + 1 := List.length_append
  rw [hs] at hseq
  rcases nativeCuts_noteNativeCut hseq with hold | ⟨-, hnew⟩
  · exact (h seq hold).trans (by omega)
  · exact (Prod.mk.inj hnew).2.le

theorem Owned.admits {feed : WriteFeed} {s : KeyIndexState} (h : Owned feed s) (event : IndexEvent) :
    (s.noteNativeCut (feed.publish event).ownPosition).1 = true := by
  by_contra hdup
  obtain ⟨q, hq, hle⟩ := covered_of_duplicate (Bool.eq_false_iff.mpr hdup)
  have hlen : (feed.publish event).ownPosition.sequence = feed.log.length + 1 := List.length_append
  have := h q hq
  omega

structure Writer where
  index : KeyIndexState
  feed : Option WriteFeed
  owned : ∀ f ∈ feed, Owned f index

def unknownEvent (bucket key : String) (now : SystemTime) : IndexEvent :=
  ⟨.unknown, bucket, key, toMicros now⟩

namespace Writer

section
variable [Layout]

def put (w : Writer) (bucket key : String) (entry : ObjEntry) : KeyIndexState :=
  match w.feed with
  | none => (w.index.applyPut bucket key entry).2
  | some f => (indexPut f w.index bucket key entry).2.2

def recordPut (w : Writer) (bucket key : String) (entry : ObjEntry) (now : SystemTime) :
    Writer where
  index := w.put bucket key { entry with lastModified := wireStamp now }
  feed := w.feed.map
    (·.publish (putEvent bucket key { entry with lastModified := wireStamp now }))
  owned := by
    intro f hf
    obtain ⟨f₀, hf₀, rfl⟩ := Option.map_eq_some_iff.mp hf
    rw [put, hf₀]
    exact (w.owned f₀ hf₀).note _ (nativeCuts_applyPutNative _)

def del (w : Writer) (bucket key : String) (ts : SystemTime) : KeyIndexState :=
  match w.feed with
  | none => (w.index.applyDel bucket key ts).2
  | some f => (indexDel f w.index bucket key ts).2

def recordDel (w : Writer) (bucket key : String) (now : SystemTime) : Writer where
  index := w.del bucket key (wireStamp now)
  feed := w.feed.map (·.publish (delEvent bucket key (wireStamp now)))
  owned := by
    intro f hf
    obtain ⟨f₀, hf₀, rfl⟩ := Option.map_eq_some_iff.mp hf
    rw [del, hf₀]
    exact (w.owned f₀ hf₀).note _ nativeCuts_applyDelNative

end

/-- The index after the fence; `none` is the panic of an exhausted token space. -/
def fence (w : Writer) (bucket key : String) (now : SystemTime) : Option KeyIndexState :=
  match w.feed with
  | none => (w.index.fenceKey bucket key).map (·.2)
  | some f =>
    (w.index.fenceOwnUncertainKey bucket key
      (f.publish (unknownEvent bucket key now)).ownPosition).map (·.2)

theorem nativeCuts_fenceKey {s s' : KeyIndexState} {bucket key : String} {token : Nat}
    (h : s.fenceKey bucket key = some (token, s')) : s'.nativeCuts = s.nativeCuts := by
  simp only [fenceKey] at h
  split at h
  · cases h
    rfl
  · cases h

theorem owned_fence {w : Writer} {bucket key : String} {now : SystemTime} {s : KeyIndexState}
    (h : w.fence bucket key now = some s) :
    ∀ f ∈ w.feed.map (·.publish (unknownEvent bucket key now)), Owned f s := by
  intro f hf
  obtain ⟨f₀, hf₀, rfl⟩ := Option.map_eq_some_iff.mp hf
  rw [fence, hf₀] at h
  obtain ⟨⟨token, t⟩, ht, rfl⟩ := Option.map_eq_some_iff.mp h
  exact (w.owned f₀ hf₀).note _ (nativeCuts_fenceKey ht)

def announceUnknown (w : Writer) (bucket key : String) (now : SystemTime) : Option Writer :=
  match h : w.fence bucket key now with
  | none => none
  | some s =>
    some ⟨s, w.feed.map (·.publish (unknownEvent bucket key now)), owned_fence h⟩

variable {w w' : Writer} {bucket key : String} {now : SystemTime}

theorem bucket_announceUnknown (h : w.announceUnknown bucket key now = some w') :
    w'.index.bucket bucket = (w.index.bucket bucket).fenced key := by
  unfold announceUnknown at h
  split at h
  · cases h
  · next s' hs' =>
    cases h
    unfold fence at hs'
    split at hs'
    · obtain ⟨⟨token, t⟩, ht, rfl⟩ := Option.map_eq_some_iff.mp hs'
      rw [bucket_fenceKey ht, if_pos rfl]
    · obtain ⟨⟨token, t⟩, ht, rfl⟩ := Option.map_eq_some_iff.mp hs'
      rw [bucket_fenceKey ht, if_pos rfl, bucket_congr (buckets_noteNativeCut _)]

theorem view_announceUnknown (h : w.announceUnknown bucket key now = some w') (a : String) :
    w'.index.view bucket a =
      if key = a then
        { w.index.view bucket a with fence := some ((w.index.bucket bucket).uncertaintyEpoch + 1) }
      else w.index.view bucket a := by
  rw [KeyIndexState.view, bucket_announceUnknown h]
  simp only [BucketState.fenced, BucketState.view, TreeMap.get_insert, KeyIndexState.view]
  split <;> rfl

variable [Layout]

theorem bucket_recordPut (w : Writer) (bucket key : String) (entry : ObjEntry) (now : SystemTime) :
    (w.recordPut bucket key entry now).index.bucket bucket =
      (w.index.bucket bucket).afterPut key { entry with lastModified := wireStamp now }
        .definitiveMutation := by
  show (w.put bucket key _).bucket bucket = _
  unfold put
  split
  · rw [applyPut, bucket_put, if_pos ⟨rfl, rfl⟩]
  · next f hf =>
    exact bucket_put.trans (if_pos ⟨rfl, (w.owned f hf).admits _⟩)

theorem bucket_recordDel (w : Writer) (bucket key : String) (now : SystemTime) :
    (w.recordDel bucket key now).index.bucket bucket =
      (w.index.swept bucket (wireStamp now) .run).afterDel key (wireStamp now) := by
  show (w.del bucket key _).bucket bucket = _
  unfold del
  split
  · rw [applyDel, bucket_del, if_pos ⟨rfl, rfl⟩]
  · next f hf =>
    exact bucket_del.trans (if_pos ⟨rfl, (w.owned f hf).admits _⟩)

theorem view_recordDel (w : Writer) (bucket key : String) (now : SystemTime) (a : String) :
    (w.recordDel bucket key now).index.view bucket a =
      if key = a then (w.index.view bucket a).delOver
        ((w.index.bucket bucket).firstRebuildMutation a) (wireStamp now)
      else (w.index.swept bucket (wireStamp now) .run).view a := by
  rw [KeyIndexState.view, bucket_recordDel]
  split
  · next hk =>
    subst hk
    rw [BucketState.view_afterDel_self, swept]
    split
    · rw [BucketState.first_sweepTombstones, BucketState.delOver_view_sweepTombstones]
      rfl
    · rfl
  · next hk => exact BucketState.view_afterDel_other hk _

omit [Layout] in
theorem epoch_announceUnknown (h : w.announceUnknown bucket key now = some w') :
    (w'.index.bucket bucket).uncertaintyEpoch = (w.index.bucket bucket).uncertaintyEpoch + 1 := by
  rw [bucket_announceUnknown h]
  rfl

theorem epoch_recordPut (w : Writer) (bucket key : String) (entry : ObjEntry) (now : SystemTime) :
    ((w.recordPut bucket key entry now).index.bucket bucket).uncertaintyEpoch =
      (w.index.bucket bucket).uncertaintyEpoch := by
  rw [bucket_recordPut, BucketState.afterPut]
  split
  · rfl
  · simp only [BucketState.acceptPut, BucketState.touch]
    split <;> split <;> rfl

theorem epoch_recordDel (w : Writer) (bucket key : String) (now : SystemTime) :
    ((w.recordDel bucket key now).index.bucket bucket).uncertaintyEpoch =
      (w.index.bucket bucket).uncertaintyEpoch := by
  have hswept : (w.index.swept bucket (wireStamp now) .run).uncertaintyEpoch =
      (w.index.bucket bucket).uncertaintyEpoch := by
    unfold KeyIndexState.swept BucketState.sweepTombstones
    split
    · split
      · split <;> rfl
      · rfl
    · rfl
  rw [bucket_recordDel, ← hswept, BucketState.afterDel]
  split
  · rfl
  · simp only [BucketState.acceptDel, BucketState.dropRow, BucketState.touch]
    split <;> split <;> rfl

end Writer

end S3Cache.Cache

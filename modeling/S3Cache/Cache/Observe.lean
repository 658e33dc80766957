import S3Cache.Cache.Record

/-! What reads fold into the index (`cache/proxy.rs`): the fields an origin answer completes, a
row for a key the index does not hold, and the bare size of a refused range promotion. -/

namespace S3Cache.Index

open Fleet

theorem KeyView.complete_of_none {v : KeyView} (h : v.row = none) (fill : EntryFill) :
    v.complete fill = v := by
  obtain ⟨row, gone, fence⟩ := v
  cases h
  rfl

namespace KeyIndexState

variable [Layout] {s : KeyIndexState} {bucket : String}

theorem completeEntry_spec (s : KeyIndexState) (bucket key : String) (fill : EntryFill) :
    (s.completeEntry bucket key fill).2.view bucket key = (s.view bucket key).complete fill ∧
    ((s.completeEntry bucket key fill).1 = .notIndexed ↔ (s.view bucket key).row = none) ∧
    ((s.completeEntry bucket key fill).2.bucket bucket).rebuildGeneration =
      (s.bucket bucket).rebuildGeneration ∧
    ((s.completeEntry bucket key fill).2.bucket bucket).rebuildTouched =
      (s.bucket bucket).rebuildTouched := by
  fun_cases completeEntry
  case case1 h =>
    simp [view, KeyIndexState.bucket, h, BucketState.view_empty, KeyView.complete]
  case case2 b h hrow =>
    simp [view, KeyIndexState.bucket, h, BucketState.view, hrow, KeyView.complete]
  case case3 b h entry hrow hsame =>
    simp only [Bool.not_eq_true'] at hsame
    simp [view, KeyIndexState.bucket, h, BucketState.view, hrow, KeyView.complete, hsame]
  case case4 b h entry hrow hsame hfilled =>
    simp only [Bool.not_eq_true'] at hfilled
    simp only [Bool.not_eq_true', Bool.not_eq_false] at hsame
    simp [view, KeyIndexState.bucket, h, BucketState.view, hrow, KeyView.complete, hsame,
      ObjEntry.fill_of_not_filled hfilled]
  case case5 b h entry hrow hsame hfilled b' =>
    simp only [Bool.not_eq_true', Bool.not_eq_false] at hsame
    have hb : s.bucket bucket = b := by simp [KeyIndexState.bucket, h]
    refine ⟨?_, ?_, ?_⟩
    · unfold view
      rw [bucket_congr (buckets_journal _), bucket_congr (buckets_account _ _), bucket_setBucket,
        if_pos rfl, hb]
      simp [b', BucketState.view, KeyRows.get_update, hrow, KeyView.complete, hsame]
    · simp [view, hb, BucketState.view, hrow]
    · rw [bucket_congr (buckets_journal _), bucket_congr (buckets_account _ _), bucket_setBucket,
        if_pos rfl, hb]
      exact ⟨rfl, rfl⟩

theorem view_applyObservedPut (key : String) (e : ObjEntry) :
    (s.applyObservedPut bucket key e).2.view bucket key = s.view bucket key ∨
    (s.applyObservedPut bucket key e).2.view bucket key =
      (s.view bucket key).put e .observation := by
  have hf : (s.bucket bucket).firstPut key .observation = false := rfl
  unfold view applyObservedPut
  rw [bucket_applyPutWithAuthority rfl]
  cases hr : (s.bucket bucket).refusesPut key e.lastModified .observation with
  | true => simp
  | false =>
    right
    simp only [and_self, if_true, BucketState.view_acceptPut_of_later hf, KeyView.put,
      BucketState.not_refuses_of_later hf hr, Bool.false_eq_true, if_false]

theorem first_applyObservedPut (key a : String) (e : ObjEntry) :
    ((s.applyObservedPut bucket key e).2.bucket bucket).firstRebuildMutation a =
      (s.bucket bucket).firstRebuildMutation a := by
  rw [applyObservedPut, bucket_applyPutWithAuthority rfl]
  split <;> rfl

theorem view_resolveUncertainKey {token : Nat} {now : SystemTime} {key : String}
    {auth : AuthoritativeKeyState} (h : (s.resolveUncertainKey bucket key token now auth).1 = true) :
    (s.resolveUncertainKey bucket key token now auth).2.view bucket key =
      (s.view bucket key).resolve now auth := by
  have hset : ∀ {b : BucketState}, s.buckets[bucket]? = some b →
      (s.setBucket bucket (b.resolve key now auth)).view bucket key =
        (s.view bucket key).resolve now auth := by
    intro b hb
    have hbucket : s.bucket bucket = b := by simp [KeyIndexState.bucket, hb]
    rw [view, bucket_setBucket, if_pos rfl, BucketState.view_resolve, if_pos rfl, view, hbucket]
  fun_cases resolveUncertainKey
  case case1 hb => simp [resolveUncertainKey, hb] at h
  case case2 hb ht => simp [resolveUncertainKey, hb, ht] at h
  case case3 b hb _ _ _ =>
    rw [view, bucket_congr (buckets_account _ _)]
    exact hset hb
  case case4 b hb _ _ _ _ =>
    rw [view, bucket_congr (buckets_account _ _)]
    exact hset hb
  case case5 b hb _ _ _ => exact hset hb

end KeyIndexState

end S3Cache.Index

namespace S3Cache.Cache

open Index KeyIndexState

structure ObservedObject where
  size : Option Int64
  lastModified : Option Int
  etag : Option ETag
  contentType : Option String
  storageClass : ObjectStorageClass
  objMeta : ObjMeta

namespace ObservedObject

def fill (o : ObservedObject) : EntryFill := ⟨o.size, o.etag, o.contentType, o.objMeta⟩

def entry (o : ObservedObject) (now : SystemTime) : ObjEntry where
  size := o.size
  lastModified := (o.lastModified.bind originTime).getD now
  etag := o.etag
  storageClass := o.storageClass
  contentType := o.contentType
  objMeta := some o.objMeta

end ObservedObject

def observe [Fleet.Layout] (index : KeyIndexState) (bucket key : String) (o : ObservedObject)
    (now : SystemTime) : KeyIndexState :=
  match index.completeEntry bucket key o.fill with
  | (.notIndexed, index) => (index.applyObservedPut bucket key (o.entry now)).2
  | (_, index) => index

theorem view_observe_of_row [Fleet.Layout] {index : KeyIndexState} {bucket key : String}
    {e : ObjEntry} (h : (index.view bucket key).row = some e) (o : ObservedObject)
    (now : SystemTime) :
    (observe index bucket key o now).view bucket key =
      (index.view bucket key).complete o.fill := by
  obtain ⟨hview, hnone, -⟩ := completeEntry_spec index bucket key o.fill
  unfold observe
  split
  · next heq =>
    rw [heq] at hnone
    rw [hnone.mp rfl] at h
    cases h
  · next heq =>
    rw [heq] at hview
    exact hview

def sizeOnlyEntry (size : Int64) (now : SystemTime) : ObjEntry where
  size := some size
  lastModified := wireStamp now
  etag := none
  storageClass := standardClass
  contentType := none
  objMeta := none

end S3Cache.Cache

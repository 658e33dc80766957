import S3Cache.Cache.ReadRace
import S3Cache.Index.Effect

/-! HEADs answered from the index (`index.rs`): the row a PUT describes from its request
(`cache/mutation.rs`), what forwarded reads complete of it, and the answer built from it against
the one the origin gives of its object. -/

namespace S3Cache.Cache

open Index KeyIndexState Fleet

structure PutObjectInput where
  contentLength : Option Int64 := none
  contentType : Option String := none
  cacheControl : Option String := none
  contentDisposition : Option String := none
  contentEncoding : Option String := none
  contentLanguage : Option String := none
  metadata : Option (OrdMap String) := none
  storageClass : Option String := none
  expires : Option String := none
  websiteRedirectLocation : Option String := none
  writeOffsetBytes : Option Int64 := none

structure HeadObjectOutput where
  contentLength : Option Int64 := none
  lastModified : Option SystemTime := none
  etag : Option ETag := none
  contentType : Option String := none
  acceptRanges : Option String := none
  cacheControl : Option String := none
  contentDisposition : Option String := none
  contentEncoding : Option String := none
  contentLanguage : Option String := none
  metadata : Option (OrdMap String) := none
  storageClass : Option ObjectStorageClass := none
  expires : Option String := none
  websiteRedirectLocation : Option String := none

inductive IndexedHead where
  | absent
  | incomplete
  | faithful (out : HeadObjectOutput)

def headObjectFromIndex (keys : Option KeyRows) (key : String) : IndexedHead :=
  match keys.bind (·.get key) with
  | none => .absent
  | some entry =>
    if entry.isFaithful then
      let objMeta := entry.objMeta.getD {}
      .faithful
        { contentLength := entry.size
          lastModified := some entry.lastModified
          etag := entry.etag
          contentType := entry.contentType
          acceptRanges := some "bytes"
          cacheControl := objMeta.cacheControl
          contentDisposition := objMeta.contentDisposition
          contentEncoding := objMeta.contentEncoding
          contentLanguage := objMeta.contentLanguage
          metadata := objMeta.metadata }
    else .incomplete

def lowercased (metadata : OrdMap String) : OrdMap String :=
  .ofList (metadata.toList.map fun row => (row.1.toLower, row.2))

def writeStorageClass (requested : Option String) : ObjectStorageClass :=
  requested.elim standardClass .mk

namespace PutObjectInput

def objMeta (input : PutObjectInput) : ObjMeta where
  cacheControl := input.cacheControl
  contentDisposition := input.contentDisposition
  contentEncoding := input.contentEncoding
  contentLanguage := input.contentLanguage
  metadata := input.metadata.map lowercased

/-- The row a PUT describes, once its answer has told the ETag.  Without a content type the
origin invents one, so the row stays incomplete. -/
def entry (input : PutObjectInput) (etag : Option ETag) : ObjEntry where
  size := input.contentLength
  lastModified := .unixEpoch
  etag := etag
  storageClass := writeStorageClass input.storageClass
  contentType := input.contentType
  objMeta := if input.contentType.isSome then some input.objMeta else none

end PutObjectInput

structure StoredObject where
  contentLength : Int64
  mtime : SystemTime
  etag : ETag
  contentType : String
  cacheControl : Option String := none
  contentDisposition : Option String := none
  contentEncoding : Option String := none
  contentLanguage : Option String := none
  metadata : Option (OrdMap String) := none
  storageClass : ObjectStorageClass := standardClass
  expires : Option String := none
  websiteRedirectLocation : Option String := none

/-- The origin's HEAD; it reports no storage class but of objects outside the standard one. -/
def StoredObject.head (o : StoredObject) : HeadObjectOutput where
  contentLength := some o.contentLength
  lastModified := some o.mtime
  etag := some o.etag
  contentType := some o.contentType
  acceptRanges := some "bytes"
  cacheControl := o.cacheControl
  contentDisposition := o.contentDisposition
  contentEncoding := o.contentEncoding
  contentLanguage := o.contentLanguage
  metadata := o.metadata
  storageClass := if o.storageClass = standardClass then none else some o.storageClass
  expires := o.expires
  websiteRedirectLocation := o.websiteRedirectLocation

def HeadObjectOutput.observed (out : HeadObjectOutput) : ObservedObject where
  size := out.contentLength
  lastModified := out.lastModified.map fun t => t.ns / 1000000000
  etag := out.etag
  contentType := out.contentType
  storageClass := out.storageClass.getD standardClass
  objMeta :=
    { cacheControl := out.cacheControl
      contentDisposition := out.contentDisposition
      contentEncoding := out.contentEncoding
      contentLanguage := out.contentLanguage
      metadata := out.metadata }

def ReportedFor : Option (OrdMap String) → Option (OrdMap String) → Prop
  | none, none => True
  | some sent, some reported =>
    (∀ row ∈ sent.toList, reported[row.1.toLower]? = some row.2) ∧
      ∀ row ∈ reported.toList, row ∈ sent.toList.map fun row => (row.1.toLower, row.2)
  | _, _ => False

instance : (sent reported : Option (OrdMap String)) → Decidable (ReportedFor sent reported)
  | none, none => isTrue trivial
  | some _, some _ => inferInstanceAs (Decidable (_ ∧ _))
  | some _, none => isFalse id
  | none, some _ => isFalse id

/-- What S3 promises of an object a PUT has stored in full: every header of the request is the
object's, and the class is the one requested or the standard one.  The type of an object sent
without one is the origin's own. -/
@[mk_iff]
structure PutObjectInput.Stores (input : PutObjectInput) (o : StoredObject) : Prop where
  contentLength : input.contentLength = none ∨ input.contentLength = some o.contentLength
  contentType : input.contentType = none ∨ input.contentType = some o.contentType
  cacheControl : o.cacheControl = input.cacheControl
  contentDisposition : o.contentDisposition = input.contentDisposition
  contentEncoding : o.contentEncoding = input.contentEncoding
  contentLanguage : o.contentLanguage = input.contentLanguage
  metadata : ReportedFor input.metadata o.metadata
  storageClass : o.storageClass.name = input.storageClass.getD "STANDARD"
  expires : o.expires = input.expires
  websiteRedirectLocation : o.websiteRedirectLocation = input.websiteRedirectLocation

instance (input : PutObjectInput) (o : StoredObject) : Decidable (input.Stores o) :=
  decidable_of_iff _ (PutObjectInput.stores_iff input o).symm

structure HeadNode where
  index : KeyIndexState
  objects : String → String → Option StoredObject
  clock : SystemTime

inductive HeadStep where
  | put (bucket key : String) (input : PutObjectInput) (object : StoredObject)
      (etag : Option ETag) (now : SystemTime)
  | delete (bucket key : String) (now : SystemTime)
  | read (bucket key : String) (now : SystemTime)

def setObject (objects : String → String → Option StoredObject) (bucket key : String)
    (object : Option StoredObject) : String → String → Option StoredObject :=
  fun b k => if bucket = b ∧ key = k then object else objects b k

namespace HeadNode

def headFromIndex (s : HeadNode) (bucket key : String) : IndexedHead :=
  headObjectFromIndex (s.index.buckets[bucket]?.map (·.keys)) key

variable [Layout]

def step (s : HeadNode) : HeadStep → Option HeadNode
  -- an offset appends to what the origin has, so `object` is then any object
  | .put bucket key input object etag now =>
    if (input.writeOffsetBytes = none → input.Stores object) ∧ ∀ tag ∈ etag, object.etag = tag then
      some
        { index := recordPut s.index bucket key (input.entry etag) now
          objects := setObject s.objects bucket key (some object)
          clock := now }
    else none
  | .delete bucket key now =>
    some
      { index := recordDel s.index bucket key now
        objects := setObject s.objects bucket key none
        clock := now }
  | .read bucket key now =>
    (s.objects bucket key).map fun object =>
      { s with index := observe s.index bucket key object.head.observed now, clock := now }

end HeadNode

structure StoredObject.Plain (o : StoredObject) : Prop where
  storageClass : o.storageClass = standardClass
  expires : o.expires = none
  websiteRedirectLocation : o.websiteRedirectLocation = none

structure PutObjectInput.Plain (input : PutObjectInput) : Prop where
  storageClass : ∀ c ∈ input.storageClass, c = "STANDARD"
  expires : input.expires = none
  websiteRedirectLocation : input.websiteRedirectLocation = none
  writeOffsetBytes : input.writeOffsetBytes = none

structure StoredObject.ReportsBy (o : StoredObject) (now : SystemTime) : Prop where
  nonneg : 0 ≤ o.mtime.ns
  le : o.mtime.ns / 1000000000 * 1000000000 ≤ (wireStamp now).ns

/-- The local clock moves on and is not behind the origin's, and nothing is stored that a row
cannot hold. -/
def HeadNode.Careful (s : HeadNode) : HeadStep → Prop
  | .put _ _ input _ _ now => s.clock ≤ now ∧ input.Plain
  | .delete _ _ now => s.clock ≤ now
  | .read bucket key now =>
    s.clock ≤ now ∧ ∀ o ∈ s.objects bucket key, o.Plain ∧ o.ReportsBy now

theorem Describes.complete {e : ObjEntry} {o : ObservedObject} (h : Describes e o) :
    Describes (if e.sameVersion o.fill then e.fill o.fill else e) o := by
  split
  · obtain ⟨size, time, etag, storage, ctype, m⟩ := e
    obtain ⟨hsize, hetag, hclass, htype, hmeta⟩ := h
    simp only at hsize hetag hclass htype hmeta
    refine ⟨.inr ?_, .inr ?_, hclass, .inr ?_, .inr ?_⟩
    · rcases hsize with rfl | rfl <;> simp [ObjEntry.fill, ObservedObject.fill]
    · rcases hetag with rfl | rfl <;> simp [ObjEntry.fill, ObservedObject.fill]
    · rcases htype with rfl | rfl <;> simp [ObjEntry.fill, ObservedObject.fill]
    · rcases hmeta with rfl | rfl <;> simp [ObjEntry.fill, ObservedObject.fill]
  · exact h

theorem ObservedObject.describes_entry (o : ObservedObject) (now : SystemTime) :
    Describes (o.entry now) o := ⟨.inr rfl, .inr rfl, rfl, .inr rfl, .inr rfl⟩

theorem StoredObject.ReportsBy.timedBy {o : StoredObject} {now : SystemTime} (h : o.ReportsBy now) :
    o.head.observed.TimedBy now := by
  obtain ⟨hnonneg, hle⟩ := h
  have hlt := o.mtime.lt
  have hsecs : 0 ≤ o.mtime.ns / 1000000000 := Int.ediv_nonneg hnonneg (by norm_num)
  have hbound : SystemTime.unixEpoch.ns + ((o.mtime.ns / 1000000000).toNat * 1000000000 : Nat) <
      2 ^ 63 * 1000000000 := by
    simp only [SystemTime.unixEpoch]
    omega
  obtain ⟨t, ht⟩ : ∃ t, SystemTime.unixEpoch.checkedAdd
      ((o.mtime.ns / 1000000000).toNat * 1000000000) = some t :=
    ⟨_, dif_pos hbound⟩
  have htime : o.head.observed.time = some t := (if_pos hsecs).trans ht
  have hns := SystemTime.ns_checkedAdd ht
  refine ⟨t, htime, SystemTime.le_iff.mpr ?_⟩
  simp only [SystemTime.unixEpoch] at hns
  omega

theorem lowercased_eq {sent reported : OrdMap String}
    (h : ReportedFor (some sent) (some reported)) : lowercased sent = reported := by
  obtain ⟨hsent, hreported⟩ := h
  have hvalue : ∀ row ∈ sent.toList.map (fun row => (row.1.toLower, row.2)),
      reported[row.1]? = some row.2 := by
    intro row hrow
    obtain ⟨old, hold, rfl⟩ := List.mem_map.mp hrow
    exact hsent old hold
  refine Std.ExtTreeMap.ext_getElem? fun name => ?_
  cases hname : reported[name]? with
  | some value =>
    refine TreeMap.get_ofList (fun row hrow hkey => ?_) (hreported _
      (Std.ExtTreeMap.mem_toList_iff_getElem?_eq_some.mpr hname))
    have hrow := hvalue row hrow
    rw [hkey, hname] at hrow
    exact (Option.some.inj hrow).symm
  | none =>
    refine TreeMap.get_ofList_of_not_mem fun row hrow hkey => ?_
    have hrow := hvalue row hrow
    rw [hkey, hname] at hrow
    cases hrow

namespace PutObjectInput.Stores

variable {input : PutObjectInput} {o : StoredObject}

theorem objMeta (h : input.Stores o) : input.objMeta = o.head.observed.objMeta := by
  have hmetadata : input.metadata.map lowercased = o.metadata := by
    have := h.metadata
    revert this
    cases input.metadata <;> cases o.metadata <;> intro hm
    · rfl
    · exact hm.elim
    · exact hm.elim
    · exact congrArg some (lowercased_eq hm)
  unfold PutObjectInput.objMeta
  rw [hmetadata, ← h.cacheControl, ← h.contentDisposition, ← h.contentEncoding,
    ← h.contentLanguage]
  rfl

theorem plain (h : input.Stores o) (hp : input.Plain) : o.Plain := by
  refine ⟨?_, h.expires.trans hp.expires,
    h.websiteRedirectLocation.trans hp.websiteRedirectLocation⟩
  have hname : o.storageClass.name = "STANDARD" := by
    rw [h.storageClass]
    cases hc : input.storageClass with
    | none => rfl
    | some c => exact hp.storageClass c hc
  cases hcls : o.storageClass with
  | mk name =>
    rw [hcls] at hname
    cases hname
    rfl

theorem describes (h : input.Stores o) (hp : input.Plain) {etag : Option ETag}
    (htag : ∀ tag ∈ etag, o.etag = tag) (now : SystemTime) :
    Describes { input.entry etag with lastModified := now } o.head.observed := by
  refine ⟨h.contentLength, ?_, ?_, h.contentType, ?_⟩
  · show etag = none ∨ etag = some o.etag
    cases etag with
    | none => exact .inl rfl
    | some tag => exact .inr (congrArg some (htag tag rfl).symm)
  · show writeStorageClass input.storageClass = _
    have hclass : writeStorageClass input.storageClass = standardClass := by
      cases hc : input.storageClass with
      | none => rfl
      | some c =>
        cases hp.storageClass c hc
        rfl
    simp [HeadObjectOutput.observed, StoredObject.head, hclass, (h.plain hp).storageClass]
  · show (if input.contentType.isSome then some input.objMeta else none) = none ∨
      (if input.contentType.isSome then some input.objMeta else none) = some _
    split
    · exact .inr (congrArg some h.objMeta)
    · exact .inl rfl

end PutObjectInput.Stores

theorem Sound.complete {v : KeyView} {t : SystemTime} (h : Sound v t) (fill : EntryFill) :
    Sound (v.complete fill) t := by
  have hold : ∀ e ∈ (v.complete fill).row, ∃ old ∈ v.row, e.lastModified = old.lastModified := by
    intro e he
    obtain ⟨old, hrow, rfl⟩ := Option.map_eq_some_iff.mp he
    exact ⟨old, hrow, by split <;> rfl⟩
  refine ⟨⟨fun e he => ?_, h.gone⟩, fun e g he hg => ?_⟩
  · obtain ⟨old, hrow, heq⟩ := hold e he
    exact heq ▸ h.row old hrow
  · obtain ⟨old, hrow, heq⟩ := hold e he
    exact heq ▸ h.ordered old g hrow hg

section
variable [Layout] {index : KeyIndexState} {bucket key : String}

theorem view_recordDel_other (hi : index.Idle) (now : SystemTime) {b k : String}
    (h : ¬ (bucket = b ∧ key = k)) :
    (recordDel index bucket key now).view b k = index.view b k ∨
      (recordDel index bucket key now).view b k = { index.view b k with gone := none } := by
  unfold recordDel applyDel KeyIndexState.view
  rw [bucket_del]
  split
  · next hb =>
    obtain ⟨rfl, -⟩ := hb
    have hk : key ≠ k := fun hk => h ⟨rfl, hk⟩
    have hidle : (index.swept bucket (wireStamp now) .run).Idle := by
      unfold KeyIndexState.swept
      split
      · exact (hi bucket).sweepTombstones _
      · exact hi bucket
    rw [hidle.view_afterDel, if_neg hk]
    unfold KeyIndexState.swept
    split
    · exact BucketState.view_sweepTombstones _ k
    · exact .inl rfl
  · exact .inl rfl

theorem idle_recordPut_all (hi : index.Idle) (e : ObjEntry) (now : SystemTime) :
    (recordPut index bucket key e now).Idle := fun name => by
  by_cases hn : bucket = name
  · subst hn
    exact idle_recordPut (hi bucket) e now
  · rw [recordPut, applyPut, bucket_put, if_neg fun h => hn h.1]
    exact hi name

theorem idle_recordDel_all (hi : index.Idle) (now : SystemTime) :
    (recordDel index bucket key now).Idle := fun name => by
  by_cases hn : bucket = name
  · subst hn
    exact idle_recordDel (hi bucket) now
  · rw [recordDel, applyDel, bucket_del, if_neg fun h => hn h.1]
    exact hi name

theorem view_complete_other {fill : EntryFill} {b k : String} (h : ¬ (bucket = b ∧ key = k)) :
    (index.completeEntry bucket key fill).2.view b k = index.view b k := by
  unfold KeyIndexState.view
  rw [bucket_complete]
  split
  · next hb =>
    subst hb
    have hk : key ≠ k := fun hk => h ⟨rfl, hk⟩
    unfold BucketState.afterComplete
    split
    · rfl
    · split
      · rfl
      · simp only [BucketState.view, KeyRows.get_update, if_neg hk]
  · rfl

theorem view_observedPut_other {e : ObjEntry} {b k : String} (h : ¬ (bucket = b ∧ key = k)) :
    (index.applyObservedPut bucket key e).2.view b k = index.view b k := by
  unfold KeyIndexState.view applyObservedPut
  rw [bucket_put]
  split
  · next hb =>
    obtain ⟨rfl, -⟩ := hb
    have hk : key ≠ k := fun hk => h ⟨rfl, hk⟩
    unfold BucketState.afterPut
    split
    · rfl
    · simp only [BucketState.acceptPut, BucketState.firstPut, reduceCtorEq, decide_false,
        Bool.false_and, Bool.false_eq_true, if_false]
      rw [BucketState.view_setRow, if_neg hk]
  · rfl

theorem view_observe_other (o : ObservedObject) (now : SystemTime) {b k : String}
    (h : ¬ (bucket = b ∧ key = k)) :
    (observe index bucket key o now).view b k = index.view b k := by
  have hcomplete : (index.completeEntry bucket key o.fill).2.view b k = index.view b k :=
    view_complete_other h
  unfold observe
  split
  · next index' heq =>
    rw [heq] at hcomplete
    exact (view_observedPut_other h).trans hcomplete
  · next index' _ heq =>
    rw [heq] at hcomplete
    exact hcomplete

theorem view_observe_of_none (h : (index.view bucket key).row = none)
    (o : ObservedObject) (now : SystemTime) :
    (observe index bucket key o now).view bucket key = index.view bucket key ∨
      (observe index bucket key o now).view bucket key =
        (index.view bucket key).put (o.entry now) .observation := by
  obtain ⟨hview, hnone, -⟩ := completeEntry_spec index bucket key o.fill
  unfold observe
  split
  · next index' heq =>
    rw [heq] at hview
    rw [KeyView.complete_of_none h] at hview
    rw [← hview]
    exact view_applyObservedPut key (o.entry now)
  · next c index' hc heq =>
    rw [heq] at hnone
    exact absurd (hnone.mpr h) hc

theorem idle_observe (hi : index.Idle) (o : ObservedObject) (now : SystemTime) :
    (observe index bucket key o now).Idle := fun name => by
  have hcomplete : (index.completeEntry bucket key o.fill).2.Idle := fun n => by
    by_cases hn : bucket = n
    · subst hn
      have hgen := (completeEntry_spec index bucket key o.fill).2.2.1
      exact ⟨hgen.trans (hi bucket).generation⟩
    · rw [bucket_complete, if_neg hn]
      exact hi n
  unfold observe
  split
  · next index' heq =>
    rw [heq] at hcomplete
    by_cases hn : bucket = name
    · subst hn
      exact idle_applyPutWithAuthority (hcomplete bucket) rfl
    · rw [applyObservedPut, bucket_put, if_neg fun h => hn h.1]
      exact hcomplete name
  · next index' _ heq =>
    rw [heq] at hcomplete
    exact hcomplete name

end

namespace HeadNode

structure Inv (s : HeadNode) : Prop where
  idle : s.index.Idle
  sound : ∀ b k, Sound (s.index.view b k) (wireStamp s.clock)
  described : ∀ b k, ∀ e ∈ (s.index.view b k).row,
    ∃ o, s.objects b k = some o ∧ o.Plain ∧ Describes e o.head.observed

variable [Layout] {s t : HeadNode}

theorem Inv.put (h : s.Inv) {bucket key : String} {input : PutObjectInput}
    {object : StoredObject} {etag : Option ETag} {now : SystemTime}
    (hc : s.Careful (.put bucket key input object etag now))
    (hs : s.step (.put bucket key input object etag now) = some t) : t.Inv := by
  obtain ⟨hnow, hplain⟩ := hc
  obtain ⟨⟨hstores, htag⟩, hs⟩ := Option.ite_none_right_eq_some.mp hs
  cases hs
  have hstores := hstores hplain.writeOffsetBytes
  have hsound := fun b k => (h.sound b k).mono (wireStamp_mono hnow)
  have hview : ∀ b k, (recordPut s.index bucket key (input.entry etag) now).view b k =
      if bucket = b ∧ key = k then (s.index.view b k).put
        { input.entry etag with lastModified := wireStamp now } .definitiveMutation
      else s.index.view b k := fun b k => view_applyPutWithAuthority (h.idle bucket) rfl b k
  refine ⟨idle_recordPut_all h.idle _ now, fun b k => ?_, fun b k e he => ?_⟩
  · rw [hview]
    split
    · exact (hsound b k).put le_rfl _
    · exact hsound b k
  · rw [hview] at he
    simp only [setObject]
    split at he
    · next hk =>
      rw [(hsound b k).row_put rfl] at he
      split at he
      · cases he
      · cases he
        exact ⟨_, if_pos hk, hstores.plain hplain, hstores.describes hplain htag _⟩
    · next hk =>
      rw [if_neg hk]
      exact h.described b k e he

theorem Inv.delete (h : s.Inv) {bucket key : String} {now : SystemTime} (hnow : s.clock ≤ now)
    (hs : s.step (.delete bucket key now) = some t) : t.Inv := by
  cases hs
  have hsound := fun b k => (h.sound b k).mono (wireStamp_mono hnow)
  refine ⟨idle_recordDel_all h.idle now, fun b k => ?_, fun b k e he => ?_⟩
  · by_cases hk : bucket = b ∧ key = k
    · obtain ⟨rfl, rfl⟩ := hk
      rw [view_recordDel now]
      exact ((hsound bucket key).delOver _).2
    · have hbk := hsound b k
      rcases view_recordDel_other h.idle now hk with hv | hv
      · rw [hv]
        exact hbk
      · rw [hv]
        exact ⟨⟨hbk.row, fun g hg => (nomatch hg)⟩, fun row g _ hg => (nomatch hg)⟩
  · simp only [setObject]
    by_cases hk : bucket = b ∧ key = k
    · obtain ⟨rfl, rfl⟩ := hk
      rw [view_recordDel now, ((hsound bucket key).delOver _).1] at he
      cases he
    · rw [if_neg hk]
      refine h.described b k e ?_
      rcases view_recordDel_other h.idle now hk with hv | hv
      · rwa [hv] at he
      · rwa [hv] at he

theorem Inv.read (h : s.Inv) {bucket key : String} {now : SystemTime}
    (hc : s.Careful (.read bucket key now)) (hs : s.step (.read bucket key now) = some t) :
    t.Inv := by
  obtain ⟨hnow, hobject⟩ := hc
  obtain ⟨o, ho, rfl⟩ := Option.map_eq_some_iff.mp hs
  obtain ⟨hplain, htimed⟩ := hobject o ho
  have hsound := fun b k => (h.sound b k).mono (wireStamp_mono hnow)
  have hown : Sound ((observe s.index bucket key o.head.observed now).view bucket key)
        (wireStamp now) ∧
      ∀ e ∈ ((observe s.index bucket key o.head.observed now).view bucket key).row,
        Describes e o.head.observed := by
    cases hrow : (s.index.view bucket key).row with
    | some e =>
      obtain ⟨o', ho', -, hdescribes⟩ := h.described bucket key e hrow
      obtain rfl : o = o' := Option.some_inj.mp (ho.symm.trans ho')
      rw [view_observe_of_row hrow]
      refine ⟨(hsound bucket key).complete _, fun e' he' => ?_⟩
      rw [KeyView.complete, hrow] at he'
      cases he'
      exact hdescribes.complete
    | none =>
      rcases view_observe_of_none hrow o.head.observed now with hv | hv
      · rw [hv]
        refine ⟨hsound bucket key, fun e he => ?_⟩
        cases hrow.symm.trans he
      · rw [hv]
        refine ⟨(hsound bucket key).put (htimed.timedBy.entry_le now) _, fun e he => ?_⟩
        unfold KeyView.put at he
        split at he
        · cases hrow.symm.trans he
        · cases he
          exact o.head.observed.describes_entry now
  refine ⟨idle_observe h.idle _ now, fun b k => ?_, fun b k e he => ?_⟩
  · by_cases hk : bucket = b ∧ key = k
    · obtain ⟨rfl, rfl⟩ := hk
      exact hown.1
    · rw [view_observe_other _ now hk]
      exact hsound b k
  · by_cases hk : bucket = b ∧ key = k
    · obtain ⟨rfl, rfl⟩ := hk
      exact ⟨o, ho, hplain, hown.2 e he⟩
    · rw [view_observe_other _ now hk] at he
      exact h.described b k e he

theorem Inv.step {a : HeadStep} (h : s.Inv) (hc : s.Careful a) (hs : s.step a = some t) : t.Inv := by
  cases a with
  | put => exact h.put hc hs
  | delete => exact h.delete hc hs
  | read => exact h.read hc hs

structure Agrees (out origin : HeadObjectOutput) : Prop where
  contentLength : out.contentLength = origin.contentLength
  etag : out.etag = origin.etag
  contentType : out.contentType = origin.contentType
  cacheControl : out.cacheControl = origin.cacheControl
  contentDisposition : out.contentDisposition = origin.contentDisposition
  contentEncoding : out.contentEncoding = origin.contentEncoding
  contentLanguage : out.contentLanguage = origin.contentLanguage
  metadata : out.metadata = origin.metadata
  storageClass : out.storageClass = origin.storageClass
  expires : out.expires = origin.expires
  websiteRedirectLocation : out.websiteRedirectLocation = origin.websiteRedirectLocation

omit [Layout] in
theorem row_of_keys (index : KeyIndexState) (bucket key : String) :
    (index.buckets[bucket]?.map (·.keys)).bind (·.get key) = (index.view bucket key).row := by
  unfold KeyIndexState.view KeyIndexState.bucket
  cases index.buckets[bucket]? with
  | none => simp [BucketState.view]
  | some b => rfl

omit [Layout] in
theorem Inv.agrees (h : s.Inv) {bucket key : String} {out : HeadObjectOutput}
    (hout : s.headFromIndex bucket key = .faithful out) :
    ∃ o, s.objects bucket key = some o ∧ Agrees out o.head := by
  unfold headFromIndex headObjectFromIndex at hout
  rw [row_of_keys] at hout
  split at hout
  · cases hout
  · next e he =>
    split at hout
    · next hfaithful =>
      cases hout
      obtain ⟨o, ho, hplain, hdescribes⟩ := h.described bucket key e he
      simp only [ObjEntry.isFaithful, Bool.and_eq_true] at hfaithful
      obtain ⟨⟨⟨hsize, hetag⟩, htype⟩, hmeta⟩ := hfaithful
      have hsize := hdescribes.size.resolve_left (Option.isSome_iff_ne_none.mp hsize)
      have hetag := hdescribes.etag.resolve_left (Option.isSome_iff_ne_none.mp hetag)
      have htype := hdescribes.contentType.resolve_left (Option.isSome_iff_ne_none.mp htype)
      have hmeta : e.objMeta.getD {} = o.head.observed.objMeta := by
        rw [hdescribes.objMeta.resolve_left (Option.isSome_iff_ne_none.mp hmeta)]
        rfl
      rw [hmeta]
      exact ⟨o, ho, hsize, hetag, htype, rfl, rfl, rfl, rfl, rfl,
        (if_pos hplain.storageClass).symm, hplain.expires.symm, hplain.websiteRedirectLocation.symm⟩
    · cases hout

end HeadNode

section
local instance headLayout : Layout := sampleLayout

def emptyNode : HeadNode := ⟨{}, fun _ _ => none, .unixEpoch⟩

def sampleInput : PutObjectInput :=
  { contentLength := some 3
    contentType := some "text/plain"
    cacheControl := some "no-cache"
    contentDisposition := some "attachment"
    contentEncoding := some "gzip"
    contentLanguage := some "en"
    metadata := some (.ofList [("Owner", "ops")]) }

def headedObject : StoredObject :=
  { contentLength := 3
    mtime := .unixEpoch
    etag := .strong "e"
    contentType := "text/plain"
    cacheControl := some "no-cache"
    contentDisposition := some "attachment"
    contentEncoding := some "gzip"
    contentLanguage := some "en"
    metadata := some (.ofList [("owner", "ops")]) }

def untypedObject : StoredObject :=
  { contentLength := 4
    mtime := .unixEpoch
    etag := .strong "f"
    contentType := "binary/octet-stream" }

def sampleHistory : List HeadStep :=
  [.put "b" "k" sampleInput headedObject (some (.strong "e")) .unixEpoch,
    .delete "b" "k" (fromMicros 1),
    .put "b" "k" sampleInput headedObject (some (.strong "e")) (fromMicros 2),
    .put "b" "n" {} untypedObject none (fromMicros 2),
    .read "b" "n" (fromMicros 3)]

theorem sampleInput_stores : sampleInput.Stores headedObject := by decide +kernel

theorem step_put {s : HeadNode} {input : PutObjectInput} {object : StoredObject}
    {etag : Option ETag} (hstores : input.Stores object) (htag : ∀ tag ∈ etag, object.etag = tag)
    (bucket key : String) (now : SystemTime) :
    s.step (.put bucket key input object etag now) =
      some ⟨recordPut s.index bucket key (input.entry etag) now,
        setObject s.objects bucket key (some object), now⟩ :=
  if_pos ⟨fun _ => hstores, htag⟩

theorem sampleHistory_careful :
    ∃ t out out', Machine.Runs HeadNode.step HeadNode.Careful emptyNode sampleHistory t ∧
      t.headFromIndex "b" "k" = .faithful out ∧ t.headFromIndex "b" "n" = .faithful out' := by
  have hplain : sampleInput.Plain := ⟨fun _ h => (by cases h), rfl, rfl, rfl⟩
  have htag : ∀ tag ∈ some (ETag.strong "e"), headedObject.etag = tag := fun _ h => by
    cases h
    rfl
  have huntyped : PutObjectInput.Stores {} untypedObject := by decide +kernel
  have hread : ∀ {o : StoredObject}, some untypedObject = some o →
      o.Plain ∧ o.ReportsBy (fromMicros 3) := fun h => by
    cases h
    exact ⟨⟨rfl, rfl, rfl⟩, ⟨by decide +kernel, by decide +kernel⟩⟩
  exact ⟨_, _, _, .cons ⟨le_rfl, hplain⟩ (step_put sampleInput_stores htag _ _ _) <|
    .cons (by decide +kernel : SystemTime.unixEpoch ≤ fromMicros 1) rfl <|
    .cons ⟨by decide +kernel, hplain⟩ (step_put sampleInput_stores htag _ _ _) <|
    .cons ⟨le_rfl, ⟨fun _ h => (by cases h), rfl, rfl, rfl⟩⟩
      (step_put huntyped (fun _ h => (by cases h)) _ _ _) <|
    .cons ⟨by decide +kernel, fun _ h => hread h⟩ rfl <| .nil _, rfl, rfl⟩

def unkeptInput : PutObjectInput :=
  { sampleInput with
    storageClass := some "STANDARD_IA"
    expires := some "Wed, 21 Oct 2026 07:28:00 GMT"
    websiteRedirectLocation := some "/other" }

def unkeptObject : StoredObject :=
  { headedObject with
    storageClass := ⟨"STANDARD_IA"⟩
    expires := some "Wed, 21 Oct 2026 07:28:00 GMT"
    websiteRedirectLocation := some "/other" }

end

end S3Cache.Cache

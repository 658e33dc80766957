import S3Cache.Fleet.Calls
import S3Cache.Fleet.ImageLaws
import S3Cache.Index.ListPage

/-! What lifts the fence of a key, and what a fenced key withholds. -/

namespace S3Cache.Fleet

open Index Fallible KeyIndexState

section
variable [Layout] {b : BucketState} {key : String}

omit [Layout] in
@[simp] theorem fences_touch : (b.touch key).uncertainKeys = b.uncertainKeys := by
  unfold BucketState.touch
  split <;> rfl

@[simp] theorem fences_dropRow : (b.dropRow key).uncertainKeys = b.uncertainKeys := by
  unfold BucketState.dropRow
  split <;> rfl

@[simp] theorem fences_sweepTombstones (ts : SystemTime) :
    (b.sweepTombstones ts).uncertainKeys = b.uncertainKeys := by
  unfold BucketState.sweepTombstones
  split
  · split <;> rfl
  · rfl

theorem fences_afterPut (e : ObjEntry) (authority : PutAuthority) :
    (b.afterPut key e authority).uncertainKeys =
      if authority = .definitiveMutation ∧ b.refusesPut key e.lastModified authority = false then
        b.uncertainKeys.erase key
      else b.uncertainKeys := by
  unfold BucketState.afterPut
  split
  · next hr => simp [hr]
  · next hr =>
    cases authority <;> simp only [BucketState.acceptPut, fences_touch, BucketState.unfence,
      BucketState.setRow] <;> split <;> simp [hr]

theorem fences_afterDel (ts : SystemTime) :
    (b.afterDel key ts).uncertainKeys =
      if b.outdatesDel key ts then b.uncertainKeys else b.uncertainKeys.erase key := by
  unfold BucketState.afterDel
  split
  · rfl
  · rw [BucketState.acceptDel, fences_dropRow, fences_touch]
    rfl

@[simp] theorem fences_afterComplete (fill : EntryFill) :
    (b.afterComplete key fill).uncertainKeys = b.uncertainKeys := by
  unfold BucketState.afterComplete
  split
  · rfl
  · split <;> rfl

theorem fences_afterResolve (token : Nat) (now : SystemTime) (auth : AuthoritativeKeyState) :
    (b.afterResolve key token now auth).uncertainKeys =
      if b.uncertainKeys[key]? = some token then b.uncertainKeys.erase key else b.uncertainKeys := by
  unfold BucketState.afterResolve
  split
  · cases auth <;> simp [BucketState.resolve, BucketState.unfence, BucketState.setRow]
  · rfl

theorem fences_foldl_foldRow (rows : List (String × ObjEntry)) :
    (rows.foldl BucketState.foldRow b).uncertainKeys = b.uncertainKeys := by
  induction rows generalizing b with
  | nil => rfl
  | cons row rows ih =>
    rw [List.foldl_cons, ih, BucketState.foldRow]
    split <;> rfl

@[simp] theorem fences_afterPage (generation : Nat) (rows : List (String × ObjEntry)) :
    (b.afterPage generation rows).uncertainKeys = b.uncertainKeys := by
  unfold BucketState.afterPage
  split
  · exact fences_foldl_foldRow rows
  · rfl

omit [Layout] in
@[simp] theorem fences_afterFinish (generation : Nat) :
    (b.afterFinish generation).uncertainKeys = b.uncertainKeys := by
  unfold BucketState.afterFinish
  split <;> rfl

end

section
variable [Layout]

def Latest (b : BucketState) (key : String) (ts : SystemTime) : Prop :=
  (∀ e ∈ b.keys.get key, e.lastModified ≤ ts) ∧ ∀ dead ∈ b.gone.get key, dead ≤ ts

/-- The operations that may lift the fence `token` of a key. -/
inductive Lifts (s : KeyIndexState) (bucket key : String) (token : Nat) : FleetCall → Prop
  | put (e : ObjEntry) (cut : Option NativeCut) :
    (s.applyPutWithAuthority bucket key e .definitiveMutation (cut.map .native)).1 = true →
    Lifts s bucket key token (.call (.put bucket key e cut))
  | del (ts : SystemTime) (cut : Option NativeCut) :
    Latest (s.bucket bucket) key ts ∨ (s.bucket bucket).firstRebuildMutation key = true →
    Lifts s bucket key token (.call (.del bucket key ts cut))
  | resolve (now : SystemTime) (authoritative : AuthoritativeKeyState) :
    Lifts s bucket key token (.call (.resolve bucket key token now authoritative))
  | fence : Lifts s bucket key token (.call (.fence bucket key))
  | fenceNative (cut : NativeCut) : Lifts s bucket key token (.call (.fenceNative bucket key cut))
  | fenceOwn (cut : NativeCut) : Lifts s bucket key token (.call (.fenceOwn bucket key cut))
  | remove : Lifts s bucket key token (.call (.removeBucket bucket))

variable {s s' : KeyIndexState} {bucket key k : String} {token : Nat}

theorem swept_eq (s : KeyIndexState) (bucket key : String) (ts : SystemTime) :
    (s.swept bucket ts .run).keys = (s.bucket bucket).keys ∧
    ((s.swept bucket ts .run).gone.get key = (s.bucket bucket).gone.get key ∨
      (s.swept bucket ts .run).gone.get key = none ∧
        ∃ t, (s.bucket bucket).gone.get key = some t ∧ t < ts) ∧
    (s.swept bucket ts .run).firstRebuildMutation key =
      (s.bucket bucket).firstRebuildMutation key := by
  unfold swept BucketState.sweepTombstones
  split
  · split
    · split
      · next cutoff hcut =>
        refine ⟨rfl, ?_, rfl⟩
        rcases GoneRows.get_sweepExpired (s.bucket bucket).gone cutoff key with
          hg | ⟨hg, t, ht, hlt⟩
        · exact .inl hg
        · exact .inr ⟨hg, t, ht, hlt.trans_le (SystemTime.le_of_checkedSub hcut)⟩
      · exact ⟨rfl, .inl rfl, rfl⟩
    · exact ⟨rfl, .inl rfl, rfl⟩
  · exact ⟨rfl, .inl rfl, rfl⟩

theorem latest_of_swept {ts : SystemTime}
    (h : (s.swept bucket ts .run).outdatesDel key ts = false) :
    Latest (s.bucket bucket) key ts ∨ (s.bucket bucket).firstRebuildMutation key = true := by
  obtain ⟨hkeys, hgone, hfirst⟩ := swept_eq s bucket key ts
  rw [BucketState.outdatesDel, hfirst, hkeys] at h
  simp only [Bool.and_eq_false_iff, Bool.not_eq_false', Bool.or_eq_false_iff, Option.any_eq_false,
    decide_eq_false_iff_not, not_lt] at h
  rcases h with hr | ⟨hrow, hdead⟩
  · exact .inr hr
  · refine .inl ⟨hrow, fun dead hd => ?_⟩
    rcases hgone with he | ⟨-, t, ht, hlt⟩
    · exact hdead dead (by rwa [he])
    · rw [Option.mem_def, ht] at hd
      cases hd
      exact hlt.le

omit [Layout] in
theorem key_of_erased {m : OrdMap Nat} (h : m[key]? = some token)
    (hne : (m.erase k)[key]? ≠ some token) : k = key := by
  by_contra hk
  rw [TreeMap.get_erase, if_neg hk] at hne
  exact hne h

omit [Layout] in
theorem key_of_inserted {m : OrdMap Nat} {t : Nat} (h : m[key]? = some token)
    (hne : (m.insert k t)[key]? ≠ some token) : k = key := by
  by_contra hk
  rw [TreeMap.get_insert, if_neg hk] at hne
  exact hne h

theorem lifts_of_call {c : IndexCall} (h : s.step c = some s')
    (hfence : (s.bucket bucket).uncertainKeys[key]? = some token)
    (hlift : (s'.bucket bucket).uncertainKeys[key]? ≠ some token) :
    Lifts s bucket key token (.call c) := by
  rw [bucket_step h bucket] at hlift
  cases c with
  | put b k e cut =>
    rw [bucketAfter] at hlift
    split at hlift
    · next hb =>
      obtain ⟨rfl, hnoted⟩ := hb
      rw [fences_afterPut] at hlift
      split at hlift
      · next hr =>
        obtain rfl := key_of_erased hfence hlift
        refine .put e cut ?_
        rw [applyPutWithAuthority_admitted hnoted, hr.2]
        rfl
      · exact absurd hfence hlift
    · exact absurd hfence hlift
  | del b k ts cut =>
    rw [bucketAfter] at hlift
    split at hlift
    · next hb =>
      obtain ⟨rfl, -⟩ := hb
      rw [fences_afterDel] at hlift
      have hswept : (s.swept b ts .run).uncertainKeys = (s.bucket b).uncertainKeys := by
        rw [swept]
        split <;> simp
      split at hlift
      · rw [hswept] at hlift
        exact absurd hfence hlift
      · next hr =>
        rw [hswept] at hlift
        obtain rfl := key_of_erased hfence hlift
        exact .del ts cut (latest_of_swept (Bool.eq_false_iff.mpr hr))
    · exact absurd hfence hlift
  | observedPut b k e =>
    rw [bucketAfter] at hlift
    split at hlift
    · rw [fences_afterPut, if_neg (by simp)] at hlift
      exact absurd hfence hlift
    · exact absurd hfence hlift
  | complete =>
    rw [bucketAfter] at hlift
    split at hlift
    · rw [fences_afterComplete] at hlift
      exact absurd hfence hlift
    · exact absurd hfence hlift
  | gap =>
    rw [bucketAfter] at hlift
    split at hlift <;> exact absurd hfence hlift
  | fence b k =>
    rw [bucketAfter] at hlift
    split at hlift
    · next hb =>
      subst hb
      obtain rfl := key_of_inserted hfence hlift
      exact .fence
    · exact absurd hfence hlift
  | fenceNative b k cut =>
    rw [bucketAfter] at hlift
    split at hlift
    · next hb =>
      obtain ⟨rfl, -⟩ := hb
      obtain rfl := key_of_inserted hfence hlift
      exact .fenceNative cut
    · exact absurd hfence hlift
  | fenceOwn b k cut =>
    rw [bucketAfter] at hlift
    split at hlift
    · next hb =>
      subst hb
      obtain rfl := key_of_inserted hfence hlift
      exact .fenceOwn cut
    · exact absurd hfence hlift
  | resolve b k t now auth =>
    rw [bucketAfter] at hlift
    split at hlift
    · next hb =>
      subst hb
      rw [fences_afterResolve] at hlift
      split at hlift
      · next ht =>
        obtain rfl := key_of_erased hfence hlift
        obtain rfl : token = t := Option.some.inj (hfence.symm.trans ht)
        exact .resolve now auth
      · exact absurd hfence hlift
    · exact absurd hfence hlift
  | resync =>
    rw [bucketAfter] at hlift
    split at hlift <;> exact absurd hfence hlift
  | page =>
    rw [bucketAfter] at hlift
    split at hlift
    · rw [fences_afterPage] at hlift
      exact absurd hfence hlift
    · exact absurd hfence hlift
  | finish =>
    rw [bucketAfter] at hlift
    split at hlift
    · rw [fences_afterFinish] at hlift
      exact absurd hfence hlift
    · exact absurd hfence hlift
  | removeBucket b =>
    rw [bucketAfter] at hlift
    split at hlift
    · next hb =>
      subst hb
      exact .remove
    · exact absurd hfence hlift
  | register => exact absurd hfence hlift
  | noteSeal => exact absurd hfence hlift
  | renew => exact absurd hfence hlift

omit [Layout] in
theorem bucket_of_fence (h : (s.bucket bucket).uncertainKeys[key]? = some token) :
    ∃ b, s.buckets[bucket]? = some b ∧ b.uncertainKeys[key]? = some token := by
  rw [KeyIndexState.bucket] at h
  cases hb : s.buckets[bucket]? with
  | none =>
    rw [hb] at h
    cases h
  | some b =>
    rw [hb] at h
    exact ⟨b, rfl, h⟩

structure Imaged (s : KeyIndexState) (done : List String) (m : Measuring) : Prop where
  certain : ∀ n ∈ done, ∃ b, s.buckets[n]? = some b ∧ b.uncertainKeys = ∅
  nodup : done.Nodup
  previous : ∀ n ∈ done, ∃ p, m.previous = some p ∧ n ≤ p

theorem Imaged.step {caps : ImageCaps} {done : List String} {m m' : Measuring} {name : String}
    (hm : Imaged s done m) (h : tallyBucket s caps m name = .ok m') :
    Imaged s (done ++ [name]) m' := by
  simp only [tallyBucket, bind_eq_ok] at h
  obtain ⟨b, hb, rows, -, charge, -, b₁, -, b₂, -, b₃, -, bytes, -, encoded, -, h⟩ := h
  cases h
  obtain ⟨hget, hcertain, -⟩ := imageBucket_eq_ok hb
  have hafter : ∀ n ∈ done, n < name := by
    intro n hn
    obtain ⟨p, hp, hle⟩ := hm.previous n hn
    simp only [imageBucket, ite_error_eq_ok, not_or, hp, Option.any_some, decide_eq_true_eq,
      not_le] at hb
    exact hle.trans_lt hb.1.2.2
  refine ⟨fun n hn => ?_, ?_, fun n hn => ⟨name, rfl, ?_⟩⟩
  · rcases List.mem_append.mp hn with hn | hn
    · exact hm.certain n hn
    · obtain rfl := List.mem_singleton.mp hn
      exact ⟨b, hget, hcertain⟩
  · exact List.nodup_append.mpr ⟨hm.nodup, List.nodup_singleton _, fun x hx y hy => by
      rw [List.mem_singleton.mp hy]
      exact (hafter x hx).ne⟩
  · rcases List.mem_append.mp hn with hn | hn
    · exact (hafter n hn).le
    · exact (List.mem_singleton.mp hn).le

theorem certain_of_tallied {names : List String} {caps : ImageCaps} {size : ImageSize}
    (h : talliedSize s names caps = .ok size) {n : String} {b : BucketState}
    (hb : s.buckets[n]? = some b) : b.uncertainKeys = ∅ := by
  simp only [talliedSize, sizeImage, bind_eq_ok, ite_error_eq_ok, not_or, not_not] at h
  obtain ⟨_, -, ⟨-, hsize⟩, _, -, _, -, _, -, m, hm, -⟩ := h
  have himaged : Imaged s names m :=
    foldlM_keeps (P := Imaged s) (fun _ _ _ _ _ h => h.step) ⟨by simp, .nil, by simp⟩ hm
  obtain ⟨b', hb', hcertain⟩ := himaged.certain n (mem_of_size_eq himaged.nodup hsize
    (fun x hx => (himaged.certain x hx).imp fun _ h => h.1) hb)
  obtain rfl : b = b' := Option.some.inj (hb.symm.trans hb')
  exact hcertain

omit [Layout] in
theorem not_isEmpty_of_get {m : OrdMap Nat} (h : m[key]? = some token) : m.isEmpty = false := by
  by_contra hm
  rw [Bool.not_eq_false, Std.ExtTreeMap.isEmpty_iff] at hm
  subst hm
  cases h

variable {alignCuts : CutAligner}

theorem fence_lifted_with_authority [TokenText] {c : FleetCall} (h : c.step alignCuts s = some s')
    (hfence : (s.bucket bucket).uncertainKeys[key]? = some token) :
    ((s'.bucket bucket).uncertainKeys[key]? ≠ some token → Lifts s bucket key token c) ∧
    (∀ inp resumeAfter, inp.bucket = bucket → s.listFromIndex inp resumeAfter = none) ∧
    ∀ host admits names caps, (beginFleetCapture s host admits names caps).isOk = false := by
  obtain ⟨b, hb, hkey⟩ := bucket_of_fence hfence
  refine ⟨fun hlift => ?_, ?_, ?_⟩
  · cases c with
    | call c => exact lifts_of_call h hfence hlift
    | install stage cuts names maxRows =>
      cases h
      rcases bucket_install alignCuts s stage cuts names maxRows bucket with
        ⟨-, he⟩ | ⟨-, ⟨hn, -⟩ | ha⟩
      · rw [he] at hlift
        exact absurd hfence hlift
      · rw [hb] at hn
        cases hn
      · rw [ha.fences] at hlift
        exact absurd hfence hlift
    | capture host admits names caps =>
      cases h
      rw [bucket_capture] at hlift
      exact absurd hfence hlift
  · rintro inp resumeAfter rfl
    rw [listFromIndex, hb]
    simp [not_isEmpty_of_get hkey]
  · intro host admits names caps
    cases hc : beginFleetCapture s host admits names caps with
    | error => rfl
    | ok attached =>
      obtain ⟨hsize, -⟩ := beginFleetCapture_eq_ok hc
      rw [certain_of_tallied hsize hb] at hkey
      cases hkey

end

section Sample
local instance authorityLayout : Layout := sampleLayout
local instance authorityTokens : TokenText := ⟨(·.cursor)⟩

def sampleUncertain : KeyIndexState :=
  (({} : KeyIndexState).step (.fence "b" "k")).get (by decide +kernel)

theorem fence_lifted_with_authority_sample :
    let resolve : FleetCall := .call (.resolve "b" "k" 1 .unixEpoch .absent)
    Lifts sampleUncertain "b" "k" 1 resolve ∧
    sampleUncertain.listFromIndex { bucket := "b" } none = none := by
  have hstep : FleetCall.step (fun _ _ => ⟨.exact, none⟩) sampleUncertain
    (.call (.resolve "b" "k" 1 .unixEpoch .absent)) = some _ := rfl
  have hfence : (sampleUncertain.bucket "b").uncertainKeys["k"]? = some 1 := by decide +kernel
  have h := fence_lifted_with_authority hstep hfence
  exact ⟨h.1 (by decide +kernel), h.2.1 _ none rfl⟩

end Sample

end S3Cache.Fleet

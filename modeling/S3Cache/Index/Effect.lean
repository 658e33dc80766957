import S3Cache.Index.Ops

/-! What one operation of the index leaves of each bucket.  An absent bucket reads as an empty
one. -/

namespace S3Cache.Index

open Fleet

namespace BucketState

variable [Layout]

def afterPut (b : BucketState) (key : String) (entry : ObjEntry) (authority : PutAuthority) :
    BucketState :=
  if b.refusesPut key entry.lastModified authority then b else b.acceptPut key entry authority

def afterComplete (b : BucketState) (key : String) (fill : EntryFill) : BucketState :=
  match b.keys.get key with
  | none => b
  | some entry =>
    if !entry.sameVersion fill || !entry.filled fill then b
    else
      { b with
        keys := b.keys.update key (·.fill fill)
        stats := b.stats.replace (.forEntry entry) (.forEntry (entry.fill fill)) }

omit [Layout] in
def fenced (b : BucketState) (key : String) : BucketState :=
  { b with
    uncertaintyEpoch := b.uncertaintyEpoch + 1
    uncertainKeys := b.uncertainKeys.insert key (b.uncertaintyEpoch + 1) }

def afterResolve (b : BucketState) (key : String) (token : Nat) (now : SystemTime)
    (authoritative : AuthoritativeKeyState) : BucketState :=
  if b.uncertainKeys[key]? = some token then b.resolve key now authoritative else b

omit [Layout] in
def begun (b : BucketState) : BucketState :=
  { b.discard with rebuildGeneration := some b.discard.syncGeneration }

def foldRow (b : BucketState) (row : String × ObjEntry) : BucketState :=
  if b.takesListed row.1 row.2.lastModified then b.setRow row.1 row.2 else b

def afterPage (b : BucketState) (generation : Nat) (rows : List (String × ObjEntry)) :
    BucketState :=
  if b.ownedBy generation then rows.foldl foldRow b else b

omit [Layout] in
def afterFinish (b : BucketState) (generation : Nat) : BucketState :=
  if b.ownedBy generation then
    { b with synced := true, rebuildGeneration := none, rebuildTouched := ∅ }
  else b

def counters (b : BucketState) : Bool × Nat × Nat := (b.synced, b.syncGeneration, b.uncertaintyEpoch)

section
variable {b : BucketState}

omit [Layout] in
@[simp] theorem counters_touch (key : String) : (b.touch key).counters = b.counters := by
  unfold touch
  split <;> rfl

@[simp] theorem counters_dropRow (key : String) : (b.dropRow key).counters = b.counters := by
  unfold dropRow
  split <;> rfl

@[simp] theorem counters_setRow (key : String) (e : ObjEntry) :
    (b.setRow key e).counters = b.counters := rfl

omit [Layout] in
@[simp] theorem counters_unfence (key : String) : (b.unfence key).counters = b.counters := rfl

@[simp] theorem counters_sweepTombstones (ts : SystemTime) :
    (b.sweepTombstones ts).counters = b.counters := by
  unfold sweepTombstones
  split
  · split <;> rfl
  · rfl

@[simp] theorem counters_acceptPut (key : String) (e : ObjEntry) (a : PutAuthority) :
    (b.acceptPut key e a).counters = b.counters := by
  unfold acceptPut
  cases a <;> simp only [counters_touch, counters_unfence, counters_setRow] <;> split <;> rfl

@[simp] theorem counters_afterPut (key : String) (e : ObjEntry) (a : PutAuthority) :
    (b.afterPut key e a).counters = b.counters := by
  unfold afterPut
  split
  · rfl
  · exact counters_acceptPut key e a

@[simp] theorem counters_afterDel (key : String) (ts : SystemTime) :
    (b.afterDel key ts).counters = b.counters := by
  unfold afterDel
  split
  · rfl
  · rw [acceptDel, counters_dropRow, counters_touch, counters_unfence]
    rfl

@[simp] theorem counters_afterComplete (key : String) (fill : EntryFill) :
    (b.afterComplete key fill).counters = b.counters := by
  unfold afterComplete
  split
  · rfl
  · split <;> rfl

@[simp] theorem counters_afterResolve (key : String) (token : Nat) (now : SystemTime)
    (auth : AuthoritativeKeyState) : (b.afterResolve key token now auth).counters = b.counters := by
  unfold afterResolve
  split
  · cases auth <;>
      simp only [resolve, counters_touch, counters_unfence, counters_setRow, counters_dropRow] <;>
      rfl
  · rfl

@[simp] theorem counters_foldRow (row : String × ObjEntry) :
    (b.foldRow row).counters = b.counters := by
  unfold foldRow
  split <;> rfl

theorem counters_foldl_foldRow (rows : List (String × ObjEntry)) :
    (rows.foldl foldRow b).counters = b.counters := by
  induction rows generalizing b with
  | nil => rfl
  | cons row rows ih => rw [List.foldl_cons, ih, counters_foldRow]

@[simp] theorem counters_afterPage (generation : Nat) (rows : List (String × ObjEntry)) :
    (b.afterPage generation rows).counters = b.counters := by
  unfold afterPage
  split
  · exact counters_foldl_foldRow rows
  · rfl

end

end BucketState

namespace KeyIndexState

variable [Layout]

def bucketAfter (s : KeyIndexState) (name : String) : IndexCall → BucketState
  | .put bucket key entry cut =>
    if bucket = name ∧ (s.noteIdentity (cut.map .native)).1 = true then
      (s.bucket name).afterPut key entry .definitiveMutation
    else s.bucket name
  | .del bucket key ts cut =>
    if bucket = name ∧ (s.noteIdentity (cut.map .native)).1 = true then
      (s.swept name ts .run).afterDel key ts
    else s.bucket name
  | .observedPut bucket key entry =>
    if bucket = name then (s.bucket name).afterPut key entry .observation else s.bucket name
  | .complete bucket key fill =>
    if bucket = name then (s.bucket name).afterComplete key fill else s.bucket name
  | .gap _ => if s.buckets.contains name then (s.bucket name).discard else s.bucket name
  | .fence bucket key | .fenceOwn bucket key _ =>
    if bucket = name then (s.bucket name).fenced key else s.bucket name
  | .fenceNative bucket key cut =>
    if bucket = name ∧ (s.noteNativeCut cut).1 = true then (s.bucket name).fenced key
    else s.bucket name
  | .resolve bucket key token now authoritative =>
    if bucket = name then (s.bucket name).afterResolve key token now authoritative
    else s.bucket name
  | .resync bucket => if bucket = name then (s.bucket name).begun else s.bucket name
  | .page bucket generation rows =>
    if bucket = name then (s.bucket name).afterPage generation rows else s.bucket name
  | .finish bucket generation =>
    if bucket = name then (s.bucket name).afterFinish generation else s.bucket name
  | .removeBucket bucket => if bucket = name then {} else s.bucket name
  | .register _ | .noteSeal _ | .renew _ _ => s.bucket name

variable {s s' : KeyIndexState} {bucket name : String}

theorem bucket_put {key : String} {e : ObjEntry} {auth : PutAuthority}
    {identity : Option DeltaIdentity} :
    (s.applyPutWithAuthority bucket key e auth identity).2.bucket name =
      if bucket = name ∧ (s.noteIdentity identity).1 = true then
        (s.bucket name).afterPut key e auth
      else s.bucket name := by
  cases ha : (s.noteIdentity identity).1 with
  | false =>
    rw [applyPutWithAuthority_duplicate ha, bucket_congr buckets_noteIdentity]
    simp
  | true =>
    rw [bucket_applyPutWithAuthority ha, BucketState.afterPut]
    by_cases hn : bucket = name
    · subst hn
      cases hr : (s.bucket bucket).refusesPut key e.lastModified auth <;> simp
    · simp [hn]

theorem bucket_del {key : String} {ts : SystemTime} {identity : Option DeltaIdentity}
    {sweep : TombstoneSweep} :
    (s.applyDelWithIdentity bucket key ts identity sweep).2.bucket name =
      if bucket = name ∧ (s.noteIdentity identity).1 = true then
        (s.swept name ts sweep).afterDel key ts
      else s.bucket name := by
  cases ha : (s.noteIdentity identity).1 with
  | false =>
    rw [applyDelWithIdentity_duplicate ha, bucket_congr buckets_noteIdentity]
    simp
  | true =>
    rw [bucket_applyDelWithIdentity ha]
    by_cases hn : bucket = name
    · simp [hn]
    · simp [hn]

theorem bucket_complete {key : String} {fill : EntryFill} :
    (s.completeEntry bucket key fill).2.bucket name =
      if bucket = name then (s.bucket name).afterComplete key fill else s.bucket name := by
  by_cases hn : bucket = name
  · subst hn
    rw [if_pos rfl, BucketState.afterComplete]
    fun_cases completeEntry
    case case1 h => simp [KeyIndexState.bucket, h]
    case case2 b h hrow => simp [KeyIndexState.bucket, h, hrow]
    case case3 b h entry hrow hsame => simp_all [KeyIndexState.bucket]
    case case4 b h entry hrow hsame hfilled => simp_all [KeyIndexState.bucket]
    case case5 b h entry hrow hsame hfilled b' =>
      have hb : s.bucket bucket = b := by simp [KeyIndexState.bucket, h]
      rw [bucket_congr (buckets_journal _), bucket_congr (buckets_account _ _), bucket_setBucket,
        if_pos rfl, hb]
      simp_all [b']
  · rw [if_neg hn]
    fun_cases completeEntry
    case case5 =>
      rw [bucket_congr (buckets_journal _), bucket_congr (buckets_account _ _), bucket_setBucket,
        if_neg hn]
    all_goals rfl

omit [Layout] in
theorem bucket_fenceKey {key : String} {token : Nat} (h : s.fenceKey bucket key = some (token, s')) :
    s'.bucket name = if bucket = name then (s.bucket name).fenced key else s.bucket name := by
  simp only [fenceKey] at h
  split at h
  · obtain ⟨rfl, rfl⟩ := Prod.mk.inj (Option.some.inj h)
    rw [bucket_setBucket]
    split
    · next hn => subst hn; rfl
    · rfl
  · cases h

omit [Layout] in
theorem bucket_fenceNative {key : String} {cut : NativeCut} {token : Option Nat}
    (h : s.fenceUncertainKeyNative bucket key cut = some (token, s')) :
    s'.bucket name = if bucket = name ∧ (s.noteNativeCut cut).1 = true then
      (s.bucket name).fenced key else s.bucket name := by
  have hcut := bucket_congr (buckets_noteNativeCut (s := s) cut) name
  unfold fenceUncertainKeyNative at h
  split at h
  · next hd =>
    cases h
    rw [hd] at hcut ⊢
    simpa using hcut
  · next hd =>
    obtain ⟨⟨token, t⟩, ht, h⟩ := Option.map_eq_some_iff.mp h
    cases h
    rw [hd] at hcut ⊢
    simp only at hcut
    rw [bucket_fenceKey ht, hcut]
    simp

theorem bucket_resolve {key : String} {token : Nat} {now : SystemTime}
    {auth : AuthoritativeKeyState} :
    (s.resolveUncertainKey bucket key token now auth).2.bucket name =
      if bucket = name then (s.bucket name).afterResolve key token now auth else s.bucket name := by
  have hset : ∀ {b : BucketState}, s.buckets[bucket]? = some b →
      b.uncertainKeys[key]? = some token →
      (s.setBucket bucket (b.resolve key now auth)).bucket name =
        if bucket = name then (s.bucket name).afterResolve key token now auth else s.bucket name := by
    intro b hb ht
    rw [bucket_setBucket]
    split
    · next hn =>
      subst hn
      simp [BucketState.afterResolve, KeyIndexState.bucket, hb, ht]
    · rfl
  fun_cases resolveUncertainKey
  case case1 hb =>
    split
    · next hn =>
      subst hn
      simp [BucketState.afterResolve, KeyIndexState.bucket, hb]
    · rfl
  case case2 b hb ht =>
    split
    · next hn =>
      subst hn
      simp [BucketState.afterResolve, KeyIndexState.bucket, hb, ht]
    · rfl
  case case3 b hb ht _ _ =>
    rw [bucket_congr (buckets_account _ _)]
    exact hset hb (not_not.mp ht)
  case case4 b hb ht _ _ _ =>
    rw [bucket_congr (buckets_account _ _)]
    exact hset hb (not_not.mp ht)
  case case5 b hb ht _ _ => exact hset hb (not_not.mp ht)

theorem bucket_foldListed (rows : List (String × ObjEntry)) :
    (rows.foldl (·.foldListed bucket ·) s).bucket name =
      if bucket = name then rows.foldl BucketState.foldRow (s.bucket name) else s.bucket name := by
  induction rows generalizing s with
  | nil => simp
  | cons row rows ih =>
    rw [List.foldl_cons, List.foldl_cons, ih]
    have hrow : (s.foldListed bucket row).bucket name =
        if bucket = name then (s.bucket name).foldRow row else s.bucket name := by
      simp only [BucketState.foldRow, foldListed]
      by_cases hn : bucket = name
      · subst hn
        rw [if_pos rfl]
        split
        · rw [bucket_congr (buckets_account _ _), bucket_setBucket, if_pos rfl]
        · rfl
      · rw [if_neg hn]
        split
        · rw [bucket_congr (buckets_account _ _), bucket_setBucket, if_neg hn]
        · rfl
    rw [hrow]
    split <;> rfl

omit [Layout] in
theorem bucket_listed (name : String) :
    (s.invalidateCaptureForRebuild.setBucket bucket
      (s.invalidateCaptureForRebuild.bucket bucket)).bucket name = s.bucket name := by
  rw [bucket_setBucket]
  split
  · next hn => subst hn; rfl
  · rfl

theorem syncListingIntoGeneration_fst {generation : Nat} {rows : List (String × ObjEntry)} :
    (s.syncListingIntoGeneration bucket generation rows).1 =
      if (s.bucket bucket).ownedBy generation then some rows.length else none := by
  simp only [syncListingIntoGeneration, bucket_listed]
  split <;> rfl

theorem bucket_page {generation : Nat} {rows : List (String × ObjEntry)} :
    (s.syncListingIntoGeneration bucket generation rows).2.bucket name =
      if bucket = name then (s.bucket name).afterPage generation rows else s.bucket name := by
  simp only [syncListingIntoGeneration, bucket_listed]
  by_cases hn : bucket = name
  · subst hn
    rw [if_pos rfl, BucketState.afterPage]
    split
    · rw [bucket_foldListed, if_pos rfl, bucket_listed]
    · rw [bucket_listed]
  · rw [if_neg hn]
    split
    · rw [bucket_foldListed, if_neg hn, bucket_listed]
    · rw [bucket_listed]

omit [Layout] in
theorem finishBucketSyncGeneration_fst {generation : Nat} :
    (s.finishBucketSyncGeneration bucket generation).1 = (s.bucket bucket).ownedBy generation := by
  simp only [finishBucketSyncGeneration]
  split
  · next h => exact h.symm
  · next h => exact (Bool.eq_false_iff.mpr h).symm

omit [Layout] in
theorem bucket_finish {generation : Nat} :
    (s.finishBucketSyncGeneration bucket generation).2.bucket name =
      if bucket = name then (s.bucket name).afterFinish generation else s.bucket name := by
  simp only [finishBucketSyncGeneration, BucketState.afterFinish]
  by_cases hn : bucket = name
  · subst hn
    rw [if_pos rfl]
    split <;> rw [bucket_setBucket, if_pos rfl]
  · rw [if_neg hn]
    split <;> rw [bucket_setBucket, if_neg hn]

omit [Layout] in
theorem bucket_begin :
    (s.beginBucketResync bucket).2.bucket name =
      if bucket = name then (s.bucket name).begun else s.bucket name := by
  simp only [beginBucketResync]
  rw [bucket_setBucket]
  split
  · next hn => subst hn; rfl
  · rfl

omit [Layout] in
theorem bucket_discardForGap {cut : NativeCut} :
    (s.discardForGap cut).bucket name =
      if s.buckets.contains name then (s.bucket name).discard else s.bucket name := by
  have hmap : (s.discardForGap cut).buckets = s.buckets.map fun _ b => b.discard := by
    show ((s.skipNativeGap cut).buckets.map fun _ b => b.discard) = _
    rw [buckets_skipNativeGap]
  simp only [KeyIndexState.bucket, hmap, Std.ExtTreeMap.getElem?_map,
    Std.ExtTreeMap.contains_eq_isSome_getElem?]
  cases s.buckets[name]? <;> rfl

omit [Layout] in
theorem bucket_removeBucket :
    (s.removeBucket bucket).bucket name = if bucket = name then {} else s.bucket name := by
  unfold removeBucket
  split
  · next h =>
    split
    · next hn => subst hn; simp [KeyIndexState.bucket, h]
    · rfl
  · simp only [KeyIndexState.bucket, TreeMap.get_erase]
    split <;> rfl

theorem bucket_step {c : IndexCall} (h : s.step c = some s') (name : String) :
    s'.bucket name = s.bucketAfter name c := by
  cases c with
  | put => cases h; exact bucket_put
  | del => cases h; exact bucket_del
  | observedPut bucket key entry =>
    cases h
    rw [applyObservedPut, bucket_put]
    simp [bucketAfter, noteIdentity]
  | complete => cases h; exact bucket_complete
  | register cut => cases h; exact bucket_congr (buckets_registerNativeWriter cut) name
  | noteSeal cut => cases h; exact bucket_congr (buckets_noteNativeSeal cut) name
  | renew sealed epoch => cases h; exact bucket_congr (buckets_renewNativeWriter sealed epoch) name
  | gap => cases h; exact bucket_discardForGap
  | fence =>
    obtain ⟨⟨token, t⟩, ht, rfl⟩ := Option.map_eq_some_iff.mp h
    exact bucket_fenceKey ht
  | fenceNative bucket key cut =>
    obtain ⟨⟨token, t⟩, ht, rfl⟩ := Option.map_eq_some_iff.mp h
    exact bucket_fenceNative ht
  | fenceOwn bucket key cut =>
    obtain ⟨⟨token, t⟩, ht, rfl⟩ := Option.map_eq_some_iff.mp h
    rw [bucket_fenceKey ht, bucket_congr (buckets_noteNativeCut cut)]
    rfl
  | resolve => cases h; exact bucket_resolve
  | resync => cases h; exact bucket_begin
  | page => cases h; exact bucket_page
  | finish => cases h; exact bucket_finish
  | removeBucket => cases h; exact bucket_removeBucket

structure Stable (P : BucketState → Prop) : Prop where
  empty : P {}
  discard : ∀ b, P b → P b.discard
  begun : ∀ b, P b → P b.begun
  put : ∀ b key e auth, P b → P (b.afterPut key e auth)
  sweep : ∀ b ts, P b → P (b.sweepTombstones ts)
  del : ∀ b key ts, P b → P (b.afterDel key ts)
  complete : ∀ b key fill, P b → P (b.afterComplete key fill)
  fence : ∀ b key, P b → P (b.fenced key)
  resolve : ∀ b key token now authoritative, P b → P (b.afterResolve key token now authoritative)
  page : ∀ b generation rows, P b → P (b.afterPage generation rows)
  finish : ∀ b generation, P b → P (b.afterFinish generation)

theorem Stable.swept {P : BucketState → Prop} (hP : Stable P) (hs : ∀ n, P (s.bucket n))
    (name : String) (ts : SystemTime) (sweep : TombstoneSweep) : P (s.swept name ts sweep) := by
  unfold KeyIndexState.swept
  split
  · exact hP.sweep _ ts (hs name)
  · exact hs name

theorem Stable.step {P : BucketState → Prop} (hP : Stable P) (hs : ∀ n, P (s.bucket n))
    {c : IndexCall} (h : s.step c = some s') (name : String) : P (s'.bucket name) := by
  -- an operation either leaves the bucket or acts on it in one of the ways above
  have hif : ∀ {p : Prop} [Decidable p] {b : BucketState}, P b →
      P (if p then b else s.bucket name) := fun hb => by
    split
    · exact hb
    · exact hs name
  rw [bucket_step h name]
  cases c with
  | put bucket key entry cut => exact hif (hP.put _ key entry _ (hs name))
  | del bucket key ts cut => exact hif (hP.del _ key ts (hP.swept hs name ts .run))
  | observedPut bucket key entry => exact hif (hP.put _ key entry _ (hs name))
  | complete bucket key fill => exact hif (hP.complete _ key fill (hs name))
  | register | noteSeal | renew => exact hs name
  | gap => exact hif (hP.discard _ (hs name))
  | fence bucket key | fenceNative bucket key cut | fenceOwn bucket key cut =>
    exact hif (hP.fence _ key (hs name))
  | resolve bucket key token now authoritative =>
    exact hif (hP.resolve _ key token now authoritative (hs name))
  | resync => exact hif (hP.begun _ (hs name))
  | page bucket generation rows => exact hif (hP.page _ generation rows (hs name))
  | finish bucket generation => exact hif (hP.finish _ generation (hs name))
  | removeBucket => exact hif hP.empty

def Holds (s : KeyIndexState) (name : String) : Prop := s.buckets[name]?.isSome = true

omit [Layout] in
theorem Holds.congr (h : s.Holds name) (hs : s'.buckets = s.buckets) : s'.Holds name := by
  rw [Holds, hs]
  exact h

omit [Layout] in
theorem Holds.setBucket (h : s.Holds name) (b : BucketState) : (s.setBucket bucket b).Holds name := by
  rw [Holds, get_setBucket]
  split
  · rfl
  · exact h

omit [Layout] in
theorem Holds.openBucket (h : s.Holds name) : (s.openBucket bucket).Holds name := by
  unfold KeyIndexState.openBucket
  split
  · exact h
  · exact Holds.setBucket h _

theorem Holds.put {key : String} {e : ObjEntry} {auth : PutAuthority}
    {identity : Option DeltaIdentity} (h : s.Holds name) :
    (s.applyPutWithAuthority bucket key e auth identity).2.Holds name := by
  have hnoted : (s.noteIdentity identity).2.Holds name := h.congr buckets_noteIdentity
  unfold applyPutWithAuthority
  split
  · next hn => rwa [hn] at hnoted
  · next hn =>
    rw [hn] at hnoted
    dsimp only
    split
    · exact hnoted.openBucket.congr buckets_journalNoop
    · exact (hnoted.openBucket.setBucket _).congr (buckets_journal _)

theorem Holds.del {key : String} {ts : SystemTime} {identity : Option DeltaIdentity}
    {sweep : TombstoneSweep} (h : s.Holds name) :
    (s.applyDelWithIdentity bucket key ts identity sweep).2.Holds name := by
  have hnoted : (s.noteIdentity identity).2.Holds name := h.congr buckets_noteIdentity
  unfold applyDelWithIdentity
  split
  · next hn => rwa [hn] at hnoted
  · next hn =>
    rw [hn] at hnoted
    dsimp only
    -- the first split is on the sweep
    split
    all_goals
      split
      · exact (hnoted.openBucket.setBucket _).congr (buckets_journalDel _ _)
      · split <;> exact (hnoted.openBucket.setBucket _).congr (buckets_journalDel _ _)

theorem Holds.foldListed {rows : List (String × ObjEntry)} (h : s.Holds name) :
    (rows.foldl (·.foldListed bucket ·) s).Holds name := by
  induction rows generalizing s with
  | nil => exact h
  | cons row rows ih =>
    apply ih
    unfold KeyIndexState.foldListed
    dsimp only
    split
    · exact h.setBucket _
    · exact h

omit [Layout] in
theorem Holds.fence {key : String} {token : Nat} (h : s.Holds name)
    (hf : s.fenceKey bucket key = some (token, s')) : s'.Holds name := by
  simp only [fenceKey] at hf
  split at hf
  · cases hf
    exact h.setBucket _
  · cases hf

theorem Holds.step {c : IndexCall} (hn : s.Holds name) (h : s.step c = some s')
    (hc : c ≠ .removeBucket name) : s'.Holds name := by
  cases c with
  | put => cases h; exact hn.put
  | del => cases h; exact hn.del
  | observedPut => cases h; exact hn.put
  | complete bucket key fill =>
    cases h
    fun_cases completeEntry
    case case5 => exact hn.setBucket _
    all_goals exact hn
  | register cut => cases h; exact hn.congr (buckets_registerNativeWriter cut)
  | noteSeal cut => cases h; exact hn.congr (buckets_noteNativeSeal cut)
  | renew sealed epoch => cases h; exact hn.congr (buckets_renewNativeWriter sealed epoch)
  | gap cut =>
    cases h
    have hmap : (s.discardForGap cut).buckets = s.buckets.map fun _ b => b.discard := by
      show ((s.skipNativeGap cut).buckets.map fun _ b => b.discard) = _
      rw [buckets_skipNativeGap]
    rw [Holds, hmap, Std.ExtTreeMap.getElem?_map, Option.isSome_map]
    exact hn
  | fence =>
    obtain ⟨⟨token, t⟩, ht, rfl⟩ := Option.map_eq_some_iff.mp h
    exact hn.fence ht
  | fenceNative bucket key cut =>
    obtain ⟨⟨token, t⟩, ht, rfl⟩ := Option.map_eq_some_iff.mp h
    have hnoted := hn.congr (buckets_noteNativeCut cut)
    unfold fenceUncertainKeyNative at ht
    split at ht
    · next hd =>
      cases ht
      rwa [hd] at hnoted
    · next hd =>
      obtain ⟨⟨token, t⟩, hf, he⟩ := Option.map_eq_some_iff.mp ht
      cases he
      rw [hd] at hnoted
      exact hnoted.fence hf
  | fenceOwn bucket key cut =>
    obtain ⟨⟨token, t⟩, ht, rfl⟩ := Option.map_eq_some_iff.mp h
    exact (hn.congr (buckets_noteNativeCut cut)).fence ht
  | resolve bucket key token now auth =>
    cases h
    fun_cases resolveUncertainKey
    case case1 | case2 => exact hn
    all_goals exact hn.setBucket _
  | resync => cases h; exact hn.setBucket _
  | page =>
    cases h
    have hopen : s.invalidateCaptureForRebuild.Holds name := hn
    unfold syncListingIntoGeneration
    dsimp only
    split
    · exact (hopen.setBucket _).foldListed
    · exact hopen.setBucket _
  | finish =>
    cases h
    unfold finishBucketSyncGeneration
    dsimp only
    split <;> exact hn.setBucket _
  | removeBucket b =>
    cases h
    have hb : b ≠ name := fun he => hc (by rw [he])
    unfold removeBucket
    split
    · exact hn
    · rw [Holds, TreeMap.get_erase, if_neg hb]
      exact hn

end KeyIndexState

end S3Cache.Index

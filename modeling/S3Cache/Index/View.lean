import S3Cache.Index.Apply

/-! What the index knows of one key, and each operation as a function of it.  Outside a
rebuild an operation depends on nothing else, and leaves every other key as it was. -/

namespace S3Cache.Index

open Fleet

structure KeyView where
  row : Option ObjEntry := none
  gone : Option SystemTime := none
  fence : Option Nat := none
  deriving DecidableEq

namespace KeyView

def refuses (v : KeyView) (ts : SystemTime) : Bool :=
  v.gone.any (ts ≤ ·) || v.row.any (ts < ·.lastModified)

def put (v : KeyView) (entry : ObjEntry) (authority : PutAuthority) : KeyView :=
  if v.refuses entry.lastModified then v
  else
    { v with
      row := some entry
      fence := if authority = .definitiveMutation then none else v.fence }

def outdates (v : KeyView) (ts : SystemTime) : Bool :=
  v.row.any (ts < ·.lastModified) || v.gone.any (ts < ·)

def del (v : KeyView) (ts : SystemTime) : KeyView :=
  if v.outdates ts then { v with gone := raised v.gone ts }
  else ⟨none, raised v.gone ts, none⟩

def putOver (v : KeyView) (first : Bool) (entry : ObjEntry) : KeyView :=
  if first then ⟨some entry, none, none⟩ else v.put entry .definitiveMutation

def delOver (v : KeyView) (first : Bool) (ts : SystemTime) : KeyView :=
  if first then ⟨none, some ts, none⟩ else v.del ts

def complete (v : KeyView) (fill : EntryFill) : KeyView :=
  { v with row := v.row.map fun e => if e.sameVersion fill then e.fill fill else e }

def resolve (v : KeyView) (now : SystemTime) : AuthoritativeKeyState → KeyView
  | .present entry => ⟨some entry, none, none⟩
  | .absent => ⟨none, raised v.gone now, none⟩

theorem raised_of_not_outdates {v : KeyView} {ts : SystemTime} (h : v.outdates ts = false) :
    raised v.gone ts = some ts := by
  simp only [outdates, Bool.or_eq_false_iff] at h
  cases hg : v.gone with
  | none => rfl
  | some g =>
    have hle : g ≤ ts := by simpa [hg] using h.2
    rcases hle.lt_or_eq with hlt | rfl
    · simp [raised, hlt]
    · simp [raised]

def Ordered (v : KeyView) : Prop :=
  ∀ row gone, v.row = some row → v.gone = some gone → gone < row.lastModified

theorem Ordered.put {v : KeyView} (h : v.Ordered) (e : ObjEntry) (auth : PutAuthority) :
    (v.put e auth).Ordered := by
  unfold KeyView.put
  split
  · exact h
  · next hr =>
    intro row gone hrow hgone
    cases hrow
    simp only [KeyView.refuses, Bool.or_eq_true, not_or] at hr
    have hgone : v.gone = some gone := hgone
    simpa [hgone] using hr.1

theorem Ordered.del {v : KeyView} (h : v.Ordered) (ts : SystemTime) : (v.del ts).Ordered := by
  unfold KeyView.del
  split
  · next ho =>
    intro row gone hrow hgone
    simp only at hrow hgone
    simp only [KeyView.outdates, hrow, Option.any_some, Bool.or_eq_true, decide_eq_true_eq] at ho
    cases hg : v.gone with
    | none =>
      obtain rfl : ts = gone := by simpa [raised, hg] using hgone
      simpa [hg] using ho
    | some g =>
      by_cases hlt : g < ts
      · obtain rfl : ts = gone := by simpa [raised, hg, hlt] using hgone
        rcases ho with ho | ho
        · exact ho
        · exact absurd (by simpa [hg] using ho) hlt.asymm
      · obtain rfl : g = gone := by simpa [raised, hg, hlt] using hgone
        exact h row g hrow hg
  · intro row gone hrow
    cases hrow

end KeyView

def BucketState.view (b : BucketState) (key : String) : KeyView :=
  ⟨b.keys.get key, b.gone.get key, b.uncertainKeys[key]?⟩

structure BucketState.Idle (b : BucketState) : Prop where
  generation : b.rebuildGeneration = none

structure BucketState.Settled (b : BucketState) : Prop extends b.Idle where
  touched : b.rebuildTouched = ∅

namespace BucketState

variable [Layout] {b : BucketState}

omit [Layout] in
@[simp] theorem view_empty (key : String) : ({} : BucketState).view key = {} := by
  simp only [view, KeyRows.get_empty, GoneRows.get_empty, Std.ExtTreeMap.getElem?_empty]

omit [Layout] in
theorem settled_empty : ({} : BucketState).Settled := ⟨⟨rfl⟩, rfl⟩

theorem view_setRow (key a : String) (e : ObjEntry) :
    (b.setRow key e).view a = if key = a then { b.view a with row := some e } else b.view a := by
  unfold view setRow
  simp only [KeyRows.get_insert]
  split <;> rfl

theorem view_dropRow (key a : String) :
    (b.dropRow key).view a = if key = a then { b.view a with row := none } else b.view a := by
  unfold dropRow
  split
  · unfold view
    simp only [KeyRows.get_remove]
    split <;> rfl
  · next h =>
    split
    · next hk => subst hk; simp only [view, h]
    · rfl

omit [Layout] in
theorem view_unfence (key a : String) :
    (b.unfence key).view a = if key = a then { b.view a with fence := none } else b.view a := by
  unfold view unfence
  simp only [TreeMap.get_erase]
  split <;> rfl

omit [Layout] in
@[simp] theorem view_touch (key a : String) : (b.touch key).view a = b.view a := by
  unfold touch
  split <;> rfl

theorem view_resolve (key a : String) (now : SystemTime) (auth : AuthoritativeKeyState) :
    (b.resolve key now auth).view a =
      if key = a then (b.view a).resolve now auth else b.view a := by
  cases auth with
  | present entry =>
    simp only [resolve, view_touch, view_unfence, view_setRow]
    split
    · next h =>
      subst h
      simp [view, GoneRows.get_remove, KeyView.resolve]
    · next h => simp [view, GoneRows.get_remove, h]
  | absent =>
    simp only [resolve, view_touch, view_unfence, view_dropRow]
    split
    · next h =>
      subst h
      simp [view, GoneRows.get_raise, KeyView.resolve]
    · next h => simp [view, GoneRows.get_raise, h]

omit [Layout] in
@[simp] theorem Idle.firstRebuildMutation (h : b.Idle) (key : String) :
    b.firstRebuildMutation key = false := by
  simp [BucketState.firstRebuildMutation, h.generation]

omit [Layout] in
@[simp] theorem Idle.firstPut (h : b.Idle) (key : String) (a : PutAuthority) :
    b.firstPut key a = false := by
  simp [BucketState.firstPut, h.firstRebuildMutation]

omit [Layout] in
theorem Idle.touch (h : b.Idle) (key : String) : b.touch key = b := by
  simp [BucketState.touch, h.generation]

omit [Layout] in
theorem Settled.refusesPut (h : b.Settled) (key : String) (ts : SystemTime) (a : PutAuthority) :
    b.refusesPut key ts a = (b.view key).refuses ts := by
  simp [BucketState.refusesPut, KeyView.refuses, view, h.firstPut, h.touched]

section
variable {key : String} {auth : PutAuthority}

omit [Layout] in
theorem firstPut_of_later (hf : b.firstRebuildMutation key = false) : b.firstPut key auth = false := by
  rw [firstPut, hf, Bool.and_false]

omit [Layout] in
theorem refusesPut_of_later (hf : b.firstRebuildMutation key = false) (ts : SystemTime) :
    b.refusesPut key ts .definitiveMutation = (b.view key).refuses ts := by
  simp [BucketState.refusesPut, KeyView.refuses, view, firstPut_of_later hf]

omit [Layout] in
theorem not_refuses_of_later (hf : b.firstPut key auth = false) {ts : SystemTime}
    (hr : b.refusesPut key ts auth = false) : (b.view key).refuses ts = false := by
  simp only [BucketState.refusesPut, hf, Bool.not_false, Bool.true_and, Bool.or_eq_false_iff] at hr
  simp only [KeyView.refuses, view, hr.1.1, hr.1.2, Bool.or_self]

theorem view_acceptPut_of_later (hf : b.firstPut key auth = false) (a : String) (e : ObjEntry) :
    (b.acceptPut key e auth).view a = if key = a then
      { b.view a with
        row := some e, fence := if auth = .definitiveMutation then none else (b.view a).fence }
      else b.view a := by
  cases auth
  · simp only [acceptPut, hf, Bool.false_eq_true, if_false, view_touch, view_unfence, view_setRow]
    split <;> simp
  · simp only [acceptPut, hf, Bool.false_eq_true, if_false, view_setRow, reduceCtorEq]

omit [Layout] in
theorem outdatesDel_of_later (hf : b.firstRebuildMutation key = false) (ts : SystemTime) :
    b.outdatesDel key ts = (b.view key).outdates ts := by
  simp [BucketState.outdatesDel, KeyView.outdates, view, hf]

theorem view_entomb_of_later (hf : b.firstRebuildMutation key = false) (a : String)
    (ts : SystemTime) :
    (b.entomb key ts).view a =
      if key = a then { b.view a with gone := raised (b.view a).gone ts } else b.view a := by
  simp only [entomb, hf, Bool.false_eq_true, if_false, view, GoneRows.get_raise]
  split
  · next hk => subst hk; rfl
  · rfl

theorem view_acceptDel_of_later (hf : b.firstRebuildMutation key = false) (a : String)
    (ts : SystemTime) :
    (b.acceptDel key ts).view a =
      if key = a then ⟨none, raised (b.view a).gone ts, none⟩ else b.view a := by
  simp only [acceptDel, view_dropRow, view_touch, view_unfence, view_entomb_of_later hf]
  split <;> rfl

end

omit [Layout] in
theorem Idle.refusesPut (h : b.Idle) (key : String) (ts : SystemTime) :
    b.refusesPut key ts .definitiveMutation = (b.view key).refuses ts :=
  refusesPut_of_later (h.firstRebuildMutation key) ts

omit [Layout] in
theorem Idle.not_refuses (h : b.Idle) {key : String} {ts : SystemTime} {a : PutAuthority}
    (hr : b.refusesPut key ts a = false) : (b.view key).refuses ts = false :=
  not_refuses_of_later (h.firstPut key a) hr

theorem Idle.view_acceptPut (h : b.Idle) (key a : String) (e : ObjEntry)
    (auth : PutAuthority) :
    (b.acceptPut key e auth).view a = if key = a then
      { b.view a with
        row := some e, fence := if auth = .definitiveMutation then none else (b.view a).fence }
      else b.view a := view_acceptPut_of_later (h.firstPut key auth) a e

omit [Layout] in
theorem Idle.outdatesDel (h : b.Idle) (key : String) (ts : SystemTime) :
    b.outdatesDel key ts = (b.view key).outdates ts :=
  outdatesDel_of_later (h.firstRebuildMutation key) ts

theorem Idle.view_entomb (h : b.Idle) (key a : String) (ts : SystemTime) :
    (b.entomb key ts).view a =
      if key = a then { b.view a with gone := raised (b.view a).gone ts } else b.view a :=
  view_entomb_of_later (h.firstRebuildMutation key) a ts

theorem Idle.acceptPut (h : b.Idle) (key : String) (e : ObjEntry) (auth : PutAuthority) :
    (b.acceptPut key e auth).Idle := by
  have hs : ((b.setRow key e).unfence key).Idle := ⟨h.generation⟩
  cases auth
  · simp only [BucketState.acceptPut, h.firstPut, Bool.false_eq_true, if_false, hs.touch]
    exact hs
  · simp only [BucketState.acceptPut, h.firstPut, Bool.false_eq_true, if_false]
    exact ⟨h.generation⟩

theorem Idle.entomb (h : b.Idle) (key : String) (ts : SystemTime) :
    (b.entomb key ts).Idle := ⟨h.generation⟩

theorem Idle.acceptDel (h : b.Idle) (key : String) (ts : SystemTime) :
    (b.acceptDel key ts).Idle := by
  have hs : ((b.entomb key ts).unfence key).Idle := ⟨h.generation⟩
  unfold BucketState.acceptDel dropRow
  rw [hs.touch]
  split <;> exact ⟨h.generation⟩

def afterDel (b : BucketState) (key : String) (ts : SystemTime) : BucketState :=
  if b.outdatesDel key ts then b.entomb key ts else b.acceptDel key ts

theorem Idle.afterDel (h : b.Idle) (key : String) (ts : SystemTime) : (b.afterDel key ts).Idle := by
  unfold BucketState.afterDel
  split
  · exact h.entomb key ts
  · exact h.acceptDel key ts

theorem view_afterDel_of_later {key : String} (hf : b.firstRebuildMutation key = false) (a : String)
    (ts : SystemTime) :
    (b.afterDel key ts).view a = if key = a then (b.view a).del ts else b.view a := by
  unfold BucketState.afterDel
  rw [outdatesDel_of_later hf]
  split
  · next ho =>
    rw [view_entomb_of_later hf]
    split
    · next hk => subst hk; simp [KeyView.del, ho]
    · rfl
  · next ho =>
    rw [view_acceptDel_of_later hf]
    split
    · next hk => subst hk; simp [KeyView.del, ho]
    · rfl

theorem Idle.view_afterDel (h : b.Idle) (key a : String) (ts : SystemTime) :
    (b.afterDel key ts).view a = if key = a then (b.view a).del ts else b.view a :=
  view_afterDel_of_later (h.firstRebuildMutation key) a ts

theorem Idle.sweepTombstones (h : b.Idle) (ts : SystemTime) : (b.sweepTombstones ts).Idle := by
  unfold BucketState.sweepTombstones
  split
  · split
    · exact ⟨h.generation⟩
    · exact h
  · exact h

theorem del_view_sweepTombstones (key : String) (ts : SystemTime) :
    ((b.sweepTombstones ts).view key).del ts = (b.view key).del ts := by
  unfold BucketState.sweepTombstones
  split
  · split
    · next cutoff hcut =>
      rcases GoneRows.get_sweepExpired b.gone cutoff key with hg | ⟨hg, t, ht, hlt⟩
      · simp only [view, hg]
      · have hts : t < ts := hlt.trans_le (SystemTime.le_of_checkedSub hcut)
        simp only [view, hg, ht, KeyView.del, KeyView.outdates, raised, Option.all_some, hts,
          hts.asymm, Option.any_some, Option.any_none, Option.all_none, decide_true, decide_false,
          if_true]
    · rfl
  · rfl

end BucketState

namespace KeyIndexState

variable [Layout] {s : KeyIndexState} {bucket key : String} {identity : Option DeltaIdentity}

def view (s : KeyIndexState) (bucket key : String) : KeyView := (s.bucket bucket).view key

omit [Layout] in
theorem view_of_get_some {b : BucketState} (h : s.buckets[bucket]? = some b) :
    s.view bucket key = b.view key := by
  simp only [view, KeyIndexState.bucket, h, Option.getD_some]

omit [Layout] in
theorem view_of_get_none (h : s.buckets[bucket]? = none) : s.view bucket key = {} := by
  simp only [view, KeyIndexState.bucket, h, Option.getD_none, BucketState.view_empty]

def Idle (s : KeyIndexState) : Prop := ∀ name, (s.bucket name).Idle

omit [Layout] in
theorem Idle.congr {s' : KeyIndexState} (h : s.Idle) (hb : s'.buckets = s.buckets) :
    s'.Idle := fun name => by
  rw [bucket_congr hb]
  exact h name

omit [Layout] in
theorem Idle.setBucket (h : s.Idle) {b : BucketState} (hb : b.Idle) (name : String) :
    (s.setBucket name b).Idle := fun other => by
  rw [bucket_setBucket]
  split
  · exact hb
  · exact h other

omit [Layout] in
@[simp] theorem buckets_journalNoop : (s.journalNoop identity).buckets = s.buckets := by
  cases identity <;> rfl

omit [Layout] in
@[simp] theorem buckets_journalDel (gone : Option SystemTime) (changed : Bool) :
    (s.journalDel identity bucket key gone changed).buckets = s.buckets := by
  unfold journalDel
  split <;> simp

omit [Layout] in
@[simp] theorem buckets_account (p c : IndexStats) : (s.account p c).buckets = s.buckets := rfl

omit [Layout] in
@[simp] theorem buckets_noteIdentity : (s.noteIdentity identity).2.buckets = s.buckets := by
  unfold noteIdentity
  split <;> simp

omit [Layout] in
@[simp] theorem nativeCuts_openBucket (name : String) :
    (s.openBucket name).nativeCuts = s.nativeCuts := by
  unfold openBucket
  split <;> rfl

omit [Layout] in
@[simp] theorem bucket_openBucket (name other : String) :
    (s.openBucket name).bucket other = s.bucket other := by
  unfold openBucket
  split
  · rfl
  · next h =>
    rw [bucket_setBucket]
    split
    · next hn =>
      subst hn
      have : s.buckets[name]? = none := by simpa using h
      simp [bucket, this]
    · rfl

def opened (s : KeyIndexState) (identity : Option DeltaIdentity) (bucket : String) :
    KeyIndexState := (s.noteIdentity identity).2.openBucket bucket

omit [Layout] in
@[simp] theorem bucket_opened (name other : String) :
    (s.opened identity name).bucket other = s.bucket other := by
  rw [opened, bucket_openBucket, bucket_congr buckets_noteIdentity]

theorem applyPutWithAuthority_admitted {e : ObjEntry} {auth : PutAuthority}
    (ha : (s.noteIdentity identity).1 = true) :
    s.applyPutWithAuthority bucket key e auth identity =
      if (s.bucket bucket).refusesPut key e.lastModified auth then
        (false, (s.opened identity bucket).journalNoop identity)
      else (true, ((s.opened identity bucket).setBucket bucket
        ((s.bucket bucket).acceptPut key e auth)
          |>.account (.ofRow ((s.bucket bucket).keys.get key)) (.forEntry e)).journal
            (·.recordPut identity bucket key e)) := by
  have hb : (s.opened identity bucket).bucket bucket = s.bucket bucket := bucket_opened _ _
  unfold opened at hb ⊢
  unfold applyPutWithAuthority
  split
  · next h => simp [h] at ha
  · next s' h =>
    rw [h] at hb ⊢
    simp only [hb]

theorem bucket_applyPutWithAuthority {e : ObjEntry} {auth : PutAuthority}
    (ha : (s.noteIdentity identity).1 = true) (name : String) :
    (s.applyPutWithAuthority bucket key e auth identity).2.bucket name =
      if bucket = name ∧ (s.bucket bucket).refusesPut key e.lastModified auth = false then
        (s.bucket bucket).acceptPut key e auth
      else s.bucket name := by
  rw [applyPutWithAuthority_admitted ha]
  split
  · next hr =>
    rw [bucket_congr buckets_journalNoop, bucket_opened]
    simp [hr]
  · next hr =>
    rw [bucket_congr (buckets_journal _), bucket_congr (buckets_account _ _), bucket_setBucket,
      bucket_opened]
    simp [hr]

theorem view_applyPutWithAuthority {e : ObjEntry}
    (h : (s.bucket bucket).Idle) (ha : (s.noteIdentity identity).1 = true) (name k : String) :
    (s.applyPutWithAuthority bucket key e .definitiveMutation identity).2.view name k =
      if bucket = name ∧ key = k then (s.view name k).put e .definitiveMutation
      else s.view name k := by
  unfold view
  rw [bucket_applyPutWithAuthority ha, h.refusesPut]
  by_cases hn : bucket = name
  · subst hn
    by_cases hr : ((s.bucket bucket).view key).refuses e.lastModified
    · by_cases hk : key = k
      · subst hk; simp [hr, KeyView.put]
      · simp [hr, hk]
    · simp only [hr, true_and, if_true, h.view_acceptPut]
      by_cases hk : key = k
      · subst hk; simp [hr, KeyView.put]
      · simp [hk]
  · simp [hn]

theorem idle_applyPutWithAuthority {e : ObjEntry} {auth : PutAuthority}
    (h : (s.bucket bucket).Idle) (ha : (s.noteIdentity identity).1 = true) :
    ((s.applyPutWithAuthority bucket key e auth identity).2.bucket bucket).Idle := by
  rw [bucket_applyPutWithAuthority ha]
  split
  · exact h.acceptPut key e auth
  · exact h

theorem applyPutWithAuthority_duplicate {e : ObjEntry} {auth : PutAuthority}
    (ha : (s.noteIdentity identity).1 = false) :
    s.applyPutWithAuthority bucket key e auth identity = (false, (s.noteIdentity identity).2) := by
  obtain ⟨ok, s', hs'⟩ : ∃ ok s', s.noteIdentity identity = (ok, s') := ⟨_, _, rfl⟩
  obtain rfl : ok = false := by simpa [hs'] using ha
  simp only [applyPutWithAuthority, hs']

omit [Layout] in
@[simp] theorem isNone_capture_invalidateCapture (r : Invalidation) :
    (s.invalidateCapture r).capture.isNone = s.capture.isNone := by
  simp [invalidateCapture]

omit [Layout] in
@[simp] theorem isNone_capture_noteIdentity :
    (s.noteIdentity identity).2.capture.isNone = s.capture.isNone := by
  unfold noteIdentity
  split
  · fun_cases noteNativeCut <;> simp
    fun_cases withdrawUnlessNext <;> simp
  · rfl

omit [Layout] in
@[simp] theorem isNone_capture_openBucket (name : String) :
    (s.openBucket name).capture.isNone = s.capture.isNone := by
  unfold openBucket invalidateCaptureForRebuild
  split <;> simp

def swept (s : KeyIndexState) (bucket : String) (ts : SystemTime) (sweep : TombstoneSweep) :
    BucketState :=
  if sweep = .run ∧ s.capture.isNone then (s.bucket bucket).sweepTombstones ts else s.bucket bucket

def Unswept (s : KeyIndexState) (bucket : String) (sweep : TombstoneSweep) : Prop :=
  sweep = .run → s.capture.isNone = true → (s.bucket bucket).gone.len ≤ tombstonePruneLen

theorem Unswept.swept {ts : SystemTime} {sweep : TombstoneSweep} (hw : s.Unswept bucket sweep) :
    s.swept bucket ts sweep = s.bucket bucket := by
  unfold KeyIndexState.swept
  split
  · next h => rw [BucketState.sweepTombstones, if_neg (not_lt.mpr (hw h.1 h.2))]
  · rfl

theorem applyDelWithIdentity_admitted {ts : SystemTime} {sweep : TombstoneSweep}
    (ha : (s.noteIdentity identity).1 = true) :
    s.applyDelWithIdentity bucket key ts identity sweep =
      let b := s.swept bucket ts sweep
      let gone := (b.entomb key ts).gone.get key
      let moved := decide (gone ≠ b.gone.get key)
      if b.outdatesDel key ts then
        (false, ((s.opened identity bucket).setBucket bucket (b.entomb key ts)).journalDel
          identity bucket key gone moved)
      else
        let s := (s.opened identity bucket).setBucket bucket (b.acceptDel key ts)
        match b.keys.get key with
        | some previous =>
          (true, (s.account (.forEntry previous) {}).journalDel identity bucket key gone true)
        | none => (false, s.journalDel identity bucket key gone moved) := by
  have hb : (s.opened identity bucket).bucket bucket = s.bucket bucket := bucket_opened _ _
  have hc : (s.opened identity bucket).capture.isNone = s.capture.isNone := by
    rw [opened, isNone_capture_openBucket, isNone_capture_noteIdentity]
  have hsweep : (if sweep = .run ∧ (s.opened identity bucket).capture.isNone = true then
      (s.bucket bucket).sweepTombstones ts else s.bucket bucket) = s.swept bucket ts sweep := by
    rw [hc]
    rfl
  unfold opened at hb hsweep ⊢
  unfold applyDelWithIdentity
  split
  · next h => simp [h] at ha
  · next s' h =>
    rw [h] at hb hsweep ⊢
    dsimp only at hb hsweep ⊢
    rewrite [hb, hsweep]
    rfl

theorem bucket_applyDelWithIdentity {ts : SystemTime} {sweep : TombstoneSweep}
    (ha : (s.noteIdentity identity).1 = true) (name : String) :
    (s.applyDelWithIdentity bucket key ts identity sweep).2.bucket name =
      if bucket = name then (s.swept bucket ts sweep).afterDel key ts else s.bucket name := by
  rw [applyDelWithIdentity_admitted ha, BucketState.afterDel]
  simp only
  split
  · rw [bucket_congr (buckets_journalDel _ _), bucket_setBucket, bucket_opened]
  · split
    · rw [bucket_congr (buckets_journalDel _ _), bucket_congr (buckets_account _ _),
        bucket_setBucket, bucket_opened]
    · rw [bucket_congr (buckets_journalDel _ _), bucket_setBucket, bucket_opened]

theorem view_applyDelWithIdentity {ts : SystemTime} {sweep : TombstoneSweep}
    (h : (s.bucket bucket).Idle) (ha : (s.noteIdentity identity).1 = true)
    (hw : s.Unswept bucket sweep) (name k : String) :
    (s.applyDelWithIdentity bucket key ts identity sweep).2.view name k =
      if bucket = name ∧ key = k then (s.view name k).del ts else s.view name k := by
  unfold view
  rw [bucket_applyDelWithIdentity ha, hw.swept]
  by_cases hn : bucket = name
  · subst hn
    simp only [if_true, true_and, h.view_afterDel]
  · simp [hn]

theorem view_applyDelWithIdentity_self {ts : SystemTime} {sweep : TombstoneSweep}
    (h : (s.bucket bucket).Idle) (ha : (s.noteIdentity identity).1 = true) :
    (s.applyDelWithIdentity bucket key ts identity sweep).2.view bucket key =
      (s.view bucket key).del ts := by
  have hi : (s.swept bucket ts sweep).Idle := by
    unfold swept
    split
    · exact h.sweepTombstones ts
    · exact h
  unfold view
  rw [bucket_applyDelWithIdentity ha, if_pos rfl, hi.view_afterDel, if_pos rfl, swept]
  split
  · exact BucketState.del_view_sweepTombstones key ts
  · rfl

theorem idle_applyDelWithIdentity {ts : SystemTime} {sweep : TombstoneSweep}
    (h : (s.bucket bucket).Idle) (ha : (s.noteIdentity identity).1 = true) :
    ((s.applyDelWithIdentity bucket key ts identity sweep).2.bucket bucket).Idle := by
  rw [bucket_applyDelWithIdentity ha, if_pos rfl, swept]
  split
  · exact (h.sweepTombstones ts).afterDel key ts
  · exact h.afterDel key ts

theorem applyDelWithIdentity_duplicate {ts : SystemTime} {sweep : TombstoneSweep}
    (ha : (s.noteIdentity identity).1 = false) :
    s.applyDelWithIdentity bucket key ts identity sweep = (false, (s.noteIdentity identity).2) := by
  obtain ⟨ok, s', hs'⟩ : ∃ ok s', s.noteIdentity identity = (ok, s') := ⟨_, _, rfl⟩
  obtain rfl : ok = false := by simpa [hs'] using ha
  simp only [applyDelWithIdentity, hs']

end KeyIndexState

end S3Cache.Index

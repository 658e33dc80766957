import S3Cache.Fleet.Replay

/-! Whole runs of a donor, from the capture to the end of its journal. -/

namespace S3Cache.Fleet

open Index KeyIndexState Fallible

section Runs

variable [Layout] {names : List String} {s s' stage : KeyIndexState} {c : IndexCapture}
  {bucket key : String}

def Withdrawn (s : KeyIndexState) : Prop := ∃ c, s.capture = some c ∧ c.journal.invalid ≠ none

theorem follows_of_withdrawn (h : Withdrawn s') : Follows names c stage s' := by
  intro hv
  obtain ⟨c', hc, hinvalid⟩ := h
  exact absurd (hv c' hc) hinvalid

omit [Layout] in
theorem KeptOrWithdrawn.withdrawn (h : KeptOrWithdrawn c s) (r : Invalidation) :
    Withdrawn (s.invalidateCapture r) := by
  obtain ⟨c', hc, -⟩ := h
  exact ⟨c'.invalidate r, by simp [invalidateCapture, hc], DonorJournal.invalid_invalidate _ _⟩

omit [Layout] in
theorem withdrawn_fenceKey (h : KeptOrWithdrawn c s) {token : Nat}
    (hf : s.fenceKey bucket key = some (token, s')) : Withdrawn s' := by
  unfold fenceKey at hf
  simp only [Option.ite_none_right_eq_some, Option.some.injEq, Prod.mk.injEq] at hf
  obtain ⟨-, -, rfl⟩ := hf
  exact KeptOrWithdrawn.withdrawn h .rebuild

omit [Layout] in
theorem keptOrWithdrawn_skipNativeGap (h : KeptOrWithdrawn c s) (cut : NativeCut) :
    KeptOrWithdrawn c (s.skipNativeGap cut) := by
  fun_cases skipNativeGap
  · exact h
  · exact h
  · exact KeptOrWithdrawn.invalidateCapture (s := s.setCut _ _) h _

omit [Layout] in
theorem keptOrWithdrawn_registerNativeWriter (h : KeptOrWithdrawn c s) (cut : NativeCut) :
    KeptOrWithdrawn c (s.registerNativeWriter cut) := by
  fun_cases registerNativeWriter
  · exact h
  · exact h.invalidateCapture _
  · exact KeptOrWithdrawn.invalidateCapture (s := s.setCut _ _) h _

theorem capture_foldListed (rows : List (String × ObjEntry)) :
    (rows.foldl (·.foldListed bucket ·) s).capture = s.capture := by
  induction rows generalizing s with
  | nil => rfl
  | cons row rows ih =>
    rw [List.foldl_cons, ih]
    unfold foldListed
    simp only
    split <;> rfl

theorem follows_noteSeal {cut : NativeCut} (hc : s.capture = some c)
    (hm : Mirrors names s stage) : Follows names c stage (s.noteNativeSeal cut) := by
  have hk := (keptOrWithdrawn_self hc).noteNativeCut cut
  have hm' : Mirrors names (s.noteNativeCut cut).2 stage := hm.congr (buckets_noteNativeCut cut)
  unfold noteNativeSeal
  split
  · next h =>
    rw [h] at hk hm'
    exact follows_of_record (fun c h => IndexCapture.recordNativeNoop_journaled h) hk rfl hm'
  · next h =>
    rw [h] at hk hm'
    exact follows_of_kept hk hm'

theorem follows_renew {sealed : NativeCut} {epoch : Nat} (hc : s.capture = some c)
    (hm : Mirrors names s stage) : Follows names c stage (s.renewNativeWriter sealed epoch) := by
  fun_cases renewNativeWriter
  · exact follows_of_kept (keptOrWithdrawn_self hc) hm
  · exact follows_of_kept (keptOrWithdrawn_self hc) hm
  · have hk : KeptOrWithdrawn c s := keptOrWithdrawn_self hc
    exact follows_of_record (fun c h => IndexCapture.recordRenewal_journaled h) hk rfl hm
  · exact follows_of_withdrawn (KeptOrWithdrawn.withdrawn (s := s.setCut _ _)
      (keptOrWithdrawn_self hc) _)

theorem follows_setBucket {b : BucketState} (hc : s.capture = some c) (hm : Mirrors names s stage)
    (hcap : s'.capture = s.capture) (hbuckets : s'.buckets = (s.setBucket bucket b).buckets)
    (hb : bucket ∈ names → b = s.bucket bucket) : Follows names c stage s' := by
  refine follows_of_kept (keptOrWithdrawn_self (hcap.trans hc)) fun n hn => ?_
  rw [bucket_congr hbuckets, bucket_setBucket]
  split
  · next h =>
    subst h
    rw [hb hn]
    exact hm bucket hn
  · exact hm n hn

theorem follows_resolve {token : Nat} {now : SystemTime} {authoritative : AuthoritativeKeyState}
    (hc : s.capture = some c) (hm : Mirrors names s stage) :
    Follows names c stage (s.resolveUncertainKey bucket key token now authoritative).2 := by
  unfold resolveUncertainKey
  split
  · exact follows_of_kept (keptOrWithdrawn_self hc) hm
  · next b hb =>
    split
    · exact follows_of_kept (keptOrWithdrawn_self hc) hm
    · next htoken =>
      have hout : bucket ∈ names → b.resolve key now authoritative = s.bucket bucket := by
        intro hn
        have hbucket : s.bucket bucket = b := by simp [KeyIndexState.bucket, hb]
        have hcertain : b.uncertainKeys[key]? = none := hbucket ▸ (hm bucket hn).certain key
        simp [hcertain] at htoken
      simp only
      split <;> exact follows_setBucket hc hm rfl rfl hout

theorem follows_finish {generation : Nat} (hc : s.capture = some c) (hm : Mirrors names s stage) :
    Follows names c stage (s.finishBucketSyncGeneration bucket generation).2 := by
  unfold finishBucketSyncGeneration
  simp only
  split
  · next howned =>
    refine follows_setBucket hc hm rfl rfl fun hn => ?_
    simp [BucketState.ownedBy, (hm bucket hn).idle.generation] at howned
  · exact follows_setBucket hc hm rfl rfl fun _ => rfl

theorem withdrawn_page {generation : Nat} {rows : List (String × ObjEntry)}
    (hc : s.capture = some c) :
    Withdrawn (s.syncListingIntoGeneration bucket generation rows).2 := by
  obtain ⟨c', hc', hinvalid⟩ := KeptOrWithdrawn.withdrawn (keptOrWithdrawn_self hc) .rebuild
  refine ⟨c', ?_, hinvalid⟩
  unfold syncListingIntoGeneration
  simp only
  split
  · rw [capture_foldListed]
    exact hc'
  · exact hc'

theorem follows_step {op : IndexCall} (hc : s.capture = some c) (hm : Mirrors names s stage)
    (hs : s.step op = some s') : Follows names c stage s' := by
  have hk := keptOrWithdrawn_self hc
  cases op with
  | put bucket key entry cut =>
    cases hs
    exact follows_put hc hm
  | del bucket key ts cut =>
    cases hs
    exact follows_del hc hm
  | observedPut bucket key entry =>
    cases hs
    exact follows_put hc hm
  | complete bucket key fill =>
    cases hs
    exact follows_complete hc hm
  | register cut =>
    cases hs
    exact follows_of_kept (keptOrWithdrawn_registerNativeWriter hk cut)
      (hm.congr (buckets_registerNativeWriter cut))
  | noteSeal cut =>
    cases hs
    exact follows_noteSeal hc hm
  | renew sealed epoch =>
    cases hs
    exact follows_renew hc hm
  | gap missedThrough =>
    cases hs
    exact follows_of_withdrawn
      (KeptOrWithdrawn.withdrawn (keptOrWithdrawn_skipNativeGap hk missedThrough) .rebuild)
  | fence bucket key =>
    obtain ⟨⟨token, t⟩, hf, rfl⟩ := Option.map_eq_some_iff.mp hs
    exact follows_of_withdrawn (withdrawn_fenceKey hk hf)
  | fenceNative bucket key cut =>
    obtain ⟨⟨token, t⟩, hf, rfl⟩ := Option.map_eq_some_iff.mp hs
    have hk' := hk.noteNativeCut cut
    have hm' : Mirrors names (s.noteNativeCut cut).2 stage := hm.congr (buckets_noteNativeCut cut)
    unfold fenceUncertainKeyNative at hf
    split at hf
    · next h =>
      rw [h] at hk' hm'
      cases hf
      exact follows_of_kept hk' hm'
    · next h =>
      rw [h] at hk'
      obtain ⟨⟨token', t'⟩, hf', heq⟩ := Option.map_eq_some_iff.mp hf
      cases heq
      exact follows_of_withdrawn (withdrawn_fenceKey hk' hf')
  | fenceOwn bucket key cut =>
    obtain ⟨⟨token, t⟩, hf, rfl⟩ := Option.map_eq_some_iff.mp hs
    exact follows_of_withdrawn (withdrawn_fenceKey (hk.noteNativeCut cut) hf)
  | resolve bucket key token now authoritative =>
    cases hs
    exact follows_resolve hc hm
  | resync bucket =>
    cases hs
    exact follows_of_withdrawn (KeptOrWithdrawn.withdrawn hk .rebuild)
  | page bucket generation rows =>
    cases hs
    exact follows_of_withdrawn (withdrawn_page hc)
  | finish bucket generation =>
    cases hs
    exact follows_finish hc hm
  | removeBucket bucket =>
    cases hs
    unfold removeBucket
    split
    · exact follows_of_kept hk hm
    · exact follows_of_withdrawn (KeptOrWithdrawn.withdrawn hk .rebuild)

theorem valid_of_run {ops : List IndexCall} (hc : s.capture = some c) (hr : s.run ops = some s')
    (hv : ∀ c', s'.capture = some c' → c'.journal.invalid = none) : c.journal.invalid = none := by
  induction ops generalizing s c with
  | nil =>
    cases hr
    exact hv c hc
  | cons op ops ih =>
    obtain ⟨s₁, hs, hr⟩ := Option.bind_eq_some_iff.mp hr
    have hm : Mirrors [] s {} := fun _ hn => by cases hn
    obtain ⟨_, _, -, hext, -⟩ := follows_step hc hm hs fun c₁ hc₁ => ih hc₁ hr
    exact hext.valid

theorem follows_run {ops : List IndexCall} (hc : s.capture = some c) (hm : Mirrors names s stage)
    (hr : s.run ops = some s') : Follows names c stage s' := by
  induction ops generalizing s c stage with
  | nil =>
    cases hr
    exact follows_of_kept (keptOrWithdrawn_self hc) hm
  | cons op ops ih =>
    obtain ⟨s₁, hs, hr⟩ := Option.bind_eq_some_iff.mp hr
    intro hv
    obtain ⟨c₁, ds, hc₁, hext, hm₁⟩ := follows_step hc hm hs fun c₁ hc₁ => valid_of_run hc₁ hr hv
    obtain ⟨c₂, ds', hc₂, hext', hm₂⟩ := ih hc₁ hm₁ hr hv
    refine ⟨c₂, ds ++ ds', hc₂, hext.trans hext', ?_⟩
    simpa [replay] using hm₂

section Begin

variable {live : KeyIndexState} {host : CaptureHost} {caps caps' : ImageCaps}
  {admits : List JournalRecord → JournalRecord → Bool} {pending : PendingFleetCapture}
  {image : List UInt8}

/-- What tallying a bucket leaves: a bucket fit for the image, and a size within the caps. -/
structure Tallied (live : KeyIndexState) (caps : ImageCaps) (done : List String)
    (m : Measuring) : Prop where
  buckets : ∀ n ∈ done, ∃ b, live.buckets[n]? = some b ∧ b.uncertainKeys = ∅ ∧ b.Idle
  limit : m.budget.limit = caps.decodedBytes
  used : m.budget.used ≤ m.budget.limit
  spent : 0 < m.budget.used
  rows : m.rows ≤ caps.rows

theorem tallyBucket_tallied {done : List String} {m m' : Measuring} {name : String}
    (hm : Tallied live caps done m) (h : tallyBucket live caps m name = .ok m') :
    Tallied live caps (done ++ [name]) m' := by
  simp only [tallyBucket, bind_eq_ok] at h
  obtain ⟨b, hb, rows, hrows, charge, -, b₁, h₁, b₂, h₂, b₃, h₃, bytes, -, encoded, -, h⟩ := h
  cases h
  obtain ⟨hl₁, -⟩ := take_within h₁
  obtain ⟨hl₂, -⟩ := take_within h₂
  obtain ⟨hl₃, hu⟩ := take_within h₃
  have hspent := hm.spent
  refine ⟨fun n hn => ?_, by rw [hl₃, hl₂, hl₁, hm.limit], hu, ?_, ?_⟩
  · rcases List.mem_append.mp hn with hn | hn
    · exact hm.buckets n hn
    · obtain rfl := List.mem_singleton.mp hn
      exact ⟨b, imageBucket_eq_ok hb⟩
  · rw [(take_eq_ok h₃).2, (take_eq_ok h₂).2, (take_eq_ok h₁).2]
    simp only
    omega
  · simp only [addRows, bind_eq_ok, ite_error_eq_ok, not_lt] at hrows
    obtain ⟨_, -, hle, hrows⟩ := hrows
    cases hrows
    exact hle

theorem talliedSize_eq_ok {size : ImageSize} (h : talliedSize live names caps = .ok size) :
    Covers caps caps size names ∧ 0 < size.decodedBytes ∧
    ∀ n ∈ names, ∃ b, live.buckets[n]? = some b ∧ b.uncertainKeys = ∅ ∧ b.Idle := by
  simp only [talliedSize, sizeImage, bind_eq_ok, ite_error_eq_ok, not_or, not_lt] at h
  obtain ⟨caps₁, hcaps, ⟨hbuckets, -⟩, budget, hnew, charge, hcharge, b₁, h₁, m, hm, hbytes, h⟩ := h
  obtain rfl := (ImageCaps.validate_eq_ok hcaps).1.symm
  cases h
  simp only [DecodeBudget.new, ite_error_eq_ok, Except.ok.injEq] at hnew
  obtain ⟨-, rfl⟩ := hnew
  obtain ⟨hlimit, hused⟩ := take_within h₁
  have hspent : 0 < b₁.used := by
    rw [(take_eq_ok h₁).2]
    exact Nat.add_pos_right _ (stateCharge_pos hcharge)
  have htallied : Tallied live caps names m :=
    foldlM_keeps (P := Tallied live caps) (fun _ _ _ _ _ => tallyBucket_tallied)
      ⟨fun _ hn => absurd hn List.not_mem_nil, hlimit, hused, hspent, Nat.zero_le _⟩ hm
  exact ⟨⟨hcaps, hbytes, htallied.limit ▸ htallied.used, htallied.rows, hbuckets, le_rfl⟩,
    htallied.spent, htallied.buckets⟩

omit [Layout] in
theorem snapshotState_eq_ok {snapshot : KeyIndexState}
    (h : snapshotState live names = .ok snapshot) (n : String) (hn : n ∈ names) :
    (snapshot.bucket n).keys = (live.bucket n).keys ∧
    (snapshot.bucket n).gone = (live.bucket n).gone := by
  revert n hn
  refine foldlM_keeps (P := fun done t => ∀ n ∈ done, (t.bucket n).keys = (live.bucket n).keys ∧
    (t.bucket n).gone = (live.bucket n).gone) ?_ (fun n hn => by cases hn) h
  intro done x t t' _ hdone hx n hn
  split at hx
  · cases hx
  · next source hsource =>
    cases hx
    rw [bucket_setBucket]
    split
    · next hxn =>
      subst hxn
      simp [KeyIndexState.bucket, hsource]
    · next hxn =>
      refine hdone n ((List.mem_append.mp hn).resolve_right fun h => hxn ?_)
      exact (List.mem_singleton.mp h).symm

theorem mirrors_begin [ETagParser]
    (h : beginFleetCapture live host admits names caps = .ok (pending, s))
    (he : pending.encode names caps = .ok image) (hcov : Covers caps' caps pending.size names) :
    ∃ stage, decode image caps' = .ok stage ∧ Mirrors names s stage := by
  obtain ⟨hsize, hsnapshot, hbuckets, -⟩ := beginFleetCapture_eq_ok h
  simp only [PendingFleetCapture.encode, bind_eq_ok, ite_error_eq_ok, not_not] at he
  obtain ⟨_, hmeasure, rfl, he⟩ := he
  obtain ⟨stage, hdecode, -, hdecoded, -⟩ := decode_encode hmeasure he (ETagParser.indexReads _ _) hcov
  refine ⟨stage, hdecode, fun n hn => ?_⟩
  obtain ⟨b, hb, hcertain, hidle⟩ := (talliedSize_eq_ok hsize).2.2 n hn
  obtain ⟨b', hb', hd⟩ := hdecoded n hn
  obtain ⟨hkeys, hgone⟩ := snapshotState_eq_ok hsnapshot n hn
  obtain ⟨b₁, hb₁, hok⟩ := (encode_eq_ok he).1.bucket n hn
  have hlive : live.bucket n = b := by simp [KeyIndexState.bucket, hb]
  have hsnap : pending.snapshot.bucket n = b₁ := by simp [KeyIndexState.bucket, hb₁]
  have hstage : stage.bucket n = b' := by simp [KeyIndexState.bucket, hb']
  rw [hlive, hsnap] at hkeys hgone
  rw [hsnap] at hd
  rw [bucket_congr hbuckets, hlive, hstage]
  exact
    { idle := hidle
      certain := fun key => by simp [BucketState.view, hcertain]
      ordered := fun key row gone hrow hg => by
        have hmem : (key, gone) ∈ b₁.gone.rows := by
          rw [GoneRows.mem_rows, hgone]
          exact hg
        exact (hok.gone _ hmem).before row (by rw [hkeys]; exact hrow)
      idle' := hd.settled.toIdle
      view := fun key => by
        rw [hd.view, hkeys, hgone]
        rfl }

theorem decodeJournal_of_encodes [ETagParser] {maxEvent cap budget : Nat}
    {records : List JournalRecord} {deltas : List IndexDelta}
    (h : List.Forall₂ (fun r d => IndexDelta.Encodes maxEvent cap d r.effect) records deltas)
    (hcap : cap ≤ 16384) (hl : IndexDelta.maxDeltaCharge ≤ budget) :
    decodeJournal records maxEvent cap budget = .ok (deltas.map IndexDelta.skeletal) := by
  induction h with
  | nil => rfl
  | cons hd _ ih =>
    unfold decodeJournal at ih ⊢
    rw [List.mapM_cons, IndexDelta.decodeDelta_of_le hd hcap hl, bind_ok, ih]
    rfl

theorem eq_of_decodeJournal [ETagParser] {maxEvent cap budget : Nat}
    {records : List JournalRecord} {deltas decoded : List IndexDelta}
    (h : List.Forall₂ (fun r d => IndexDelta.Encodes maxEvent cap d r.effect) records deltas)
    (hd : decodeJournal records maxEvent cap budget = .ok decoded) :
    decoded = deltas.map IndexDelta.skeletal := by
  induction h generalizing decoded with
  | nil =>
    cases hd
    rfl
  | cons he _ ih =>
    unfold decodeJournal at ih hd
    simp only [List.mapM_cons, bind_eq_ok] at hd
    obtain ⟨d, hd, ds, hds, h⟩ := hd
    cases h
    rw [List.map_cons, IndexDelta.eq_skeletal_of_decodeDelta he hd, ih hds]

/-- A donor's image plus its journal is its live index.  From any index a capture accepts and
through any run that leaves the journal valid, the image decodes, the journal decodes, and
replaying it gives the live tombstones and the live rows, skeletal. -/
theorem image_and_journal_reproduce_live [ETagParser] {ops : List IndexCall}
    (hbegin : beginFleetCapture live host admits names caps = .ok (pending, s))
    (hencode : pending.encode names caps = .ok image) (hrun : s.run ops = some s')
    (hc : s'.capture = some c) (hvalid : c.journal.invalid = none) :
    Covers caps caps pending.size names ∧
    (∀ budget, IndexDelta.maxDeltaCharge ≤ budget → ∃ deltas,
      decodeJournal c.journal.records host.maxEventBytes caps.nameBytes budget = .ok deltas) ∧
    ∀ caps', Covers caps' caps pending.size names → ∃ stage, decode image caps' = .ok stage ∧
      ∀ budget deltas,
        decodeJournal c.journal.records host.maxEventBytes caps.nameBytes budget = .ok deltas →
        ∀ name ∈ names, ∀ key,
          ((replay stage deltas).bucket name).gone.get key = (s'.bucket name).gone.get key ∧
          ((replay stage deltas).bucket name).keys.get key =
            ((s'.bucket name).keys.get key).map ObjEntry.skeletal := by
  obtain ⟨hsize, -, -, hcapture⟩ := beginFleetCapture_eq_ok hbegin
  have hself := (talliedSize_eq_ok hsize).1
  obtain ⟨-, -, -, -, -, -, -, -, -, -, hcap⟩ := ImageCaps.validate_eq_ok hself.valid
  have hv : ∀ c', s'.capture = some c' → c'.journal.invalid = none := by
    intro c' hc'
    obtain rfl : c = c' := Option.some.inj (hc.symm.trans hc')
    exact hvalid
  -- the journal a run leaves does not depend on the stage, so any mirrored stage names it
  have hjournal : ∀ stage, Mirrors names s stage → ∃ deltas,
      List.Forall₂ (fun r d => IndexDelta.Encodes host.maxEventBytes caps.nameBytes d r.effect)
        c.journal.records deltas ∧
      Mirrors names s' (replay stage (deltas.map IndexDelta.skeletal)) := by
    intro stage hm
    obtain ⟨c', deltas, hc', hext, hm'⟩ := follows_run hcapture hm hrun hv
    obtain rfl : c = c' := Option.some.inj (hc.symm.trans hc')
    obtain ⟨more, hmore, hrel⟩ := hext.records
    rw [List.nil_append] at hmore
    exact ⟨deltas, hmore ▸ hrel, hm'⟩
  refine ⟨hself, fun budget hbudget => ?_, fun caps' hcov => ?_⟩
  · obtain ⟨stage, -, hm⟩ := mirrors_begin hbegin hencode hself
    obtain ⟨deltas, hrel, -⟩ := hjournal stage hm
    exact ⟨_, decodeJournal_of_encodes hrel hcap hbudget⟩
  · obtain ⟨stage, hdecode, hm⟩ := mirrors_begin hbegin hencode hcov
    refine ⟨stage, hdecode, fun budget ds hds name hn key => ?_⟩
    obtain ⟨deltas, hrel, hm'⟩ := hjournal stage hm
    obtain rfl := eq_of_decodeJournal hrel hds
    have hview := (hm' name hn).view key
    exact ⟨congrArg KeyView.gone hview, congrArg KeyView.row hview⟩

end Begin

end Runs

section Sample
local instance donorLayout : Layout := sampleLayout
local instance donorParser : ETagParser := sampleETagParser

def sampleDonorRow : ObjEntry where
  size := none
  lastModified := fromMicros 20000000
  etag := some (.strong "x")
  storageClass := standardClass
  contentType := none
  objMeta := none

def sampleDonor : KeyIndexState :=
  ({} : KeyIndexState).setBucket "b"
    { synced := true, keys := ({} : KeyRows).insert "k" sampleDonorRow }
    |>.registerNativeWriter ⟨[1], 1, 0⟩

def sampleHost : CaptureHost where
  suffix := true
  reserveEncoded _ := true
  reserveDecoded _ := true
  beginCapture _ _ := true
  ingress := true
  maxCuts := 4
  maxCutBytes := 64
  maxEventBytes := 256

def sampleCaps : ImageCaps := ⟨4096, 65536, 4, 16, 64⟩

def sampleCapture : Except ImageError (PendingFleetCapture × KeyIndexState) :=
  beginFleetCapture sampleDonor sampleHost (fun _ _ => true) ["b"] sampleCaps

def sampleOps : List IndexCall :=
  [.put "b" "l" sampleDonorRow (some ⟨[1], 1, 1⟩),
   .complete "b" "l" ⟨some 3, some (.strong "x"), some "text/plain", {}⟩,
   .del "b" "k" (fromMicros 21000000) (some ⟨[1], 1, 2⟩)]

def sampleBegun : PendingFleetCapture × KeyIndexState := sampleCapture.toOption.get (by decide +kernel)

def sampleImage : List UInt8 :=
  (sampleBegun.1.encode ["b"] sampleCaps).toOption.get (by decide +kernel)

def sampleEnd : KeyIndexState := (sampleBegun.2.run sampleOps).get (by decide +kernel)

def sampleJournal : IndexCapture := sampleEnd.capture.get (by decide +kernel)

theorem sample_image_and_journal :
    sampleCapture = .ok sampleBegun ∧ sampleBegun.1.encode ["b"] sampleCaps = .ok sampleImage ∧
    sampleBegun.2.run sampleOps = some sampleEnd ∧ sampleEnd.capture = some sampleJournal ∧
    sampleJournal.journal.invalid = none ∧ sampleJournal.journal.records.length = 3 ∧
    ∃ stage, decode sampleImage sampleCaps = .ok stage ∧ ∀ budget deltas,
      decodeJournal sampleJournal.journal.records 256 64 budget = .ok deltas →
      ∀ name ∈ ["b"], ∀ key,
        ((replay stage deltas).bucket name).gone.get key =
          (sampleEnd.bucket name).gone.get key ∧
        ((replay stage deltas).bucket name).keys.get key =
          ((sampleEnd.bucket name).keys.get key).map ObjEntry.skeletal := by
  have hbegin : sampleCapture = .ok sampleBegun := eq_ok_get _
  have hencode : sampleBegun.1.encode ["b"] sampleCaps = .ok sampleImage := eq_ok_get _
  have hrun : sampleBegun.2.run sampleOps = some sampleEnd := (Option.some_get _).symm
  have hc : sampleEnd.capture = some sampleJournal := (Option.some_get _).symm
  have hvalid : sampleJournal.journal.invalid = none := by decide +kernel
  obtain ⟨hself, -, hall⟩ := image_and_journal_reproduce_live hbegin hencode hrun hc hvalid
  exact ⟨hbegin, hencode, hrun, hc, hvalid, by decide +kernel, hall sampleCaps hself⟩

end Sample

end S3Cache.Fleet

import S3Cache.Fleet.Donor
import S3Cache.Fleet.InstallLaws

/-! What a scan step leaves behind when its bucket rejects it.  A page and a completion both
open the bucket's entry before they look at its generation, and a page withdraws an attached
capture first; the traces show in the bucket set a later capture or install compares with its
universe. -/

namespace S3Cache.Fleet

open Index KeyIndexState Fallible

section
variable [Layout]

inductive ScanStep where
  | page (rows : List (String × ObjEntry))
  | finish

def ScanStep.take (s : KeyIndexState) (bucket : String) (generation : Nat) :
    ScanStep → Bool × KeyIndexState
  | page rows =>
    let (found, s) := s.syncListingIntoGeneration bucket generation rows
    (found.isSome, s)
  | finish => s.finishBucketSyncGeneration bucket generation

/-- Nothing a later operation could tell has moved: every bucket as it was, the totals, whether
an attached capture is valid and, for the universe it is asked about, what a capture and an
install answer. -/
structure Unmoved (s s' : KeyIndexState) : Prop where
  buckets : s'.buckets = s.buckets
  stats : s'.stats = s.stats
  capture : s'.capture.map (·.journal.invalid) = s.capture.map (·.journal.invalid)
  captures : ∀ host admits names caps,
    (beginFleetCapture s' host admits names caps).map (·.1) =
      (beginFleetCapture s host admits names caps).map (·.1)
  installs : ∀ alignCuts stage cuts names maxRows,
    (installFleetCandidate alignCuts s' stage cuts names maxRows).1 =
      (installFleetCandidate alignCuts s stage cuts names maxRows).1

variable {s : KeyIndexState} {bucket : String} {generation : Nat}

theorem unmoved_of_capture {capture : Option IndexCapture}
    (h : capture.map (·.journal.invalid) = s.capture.map (·.journal.invalid)) :
    Unmoved s { s with capture } where
  buckets := rfl
  stats := rfl
  capture := h
  captures host admits names caps := by
    have hsize : talliedSize { s with capture } names caps = talliedSize s names caps := rfl
    have hsnapshot : snapshotState { s with capture } names = snapshotState s names := rfl
    have hcuts : captureCuts host { s with capture } = captureCuts host s := rfl
    simp only [beginFleetCapture, hsize, hsnapshot, hcuts]
  installs alignCuts stage cuts names maxRows := by
    cases stage with
    | none => rfl
    | some candidate =>
      have hcheck : checkCandidate alignCuts { s with capture } candidate cuts names maxRows =
        checkCandidate alignCuts s candidate cuts names maxRows := rfl
      have hpublish : ∀ carry, publish { s with capture } candidate names carry =
        publish s candidate names carry := fun carry => rfl
      simp only [installFleetCandidate, hcheck, hpublish]
      split
      · rfl
      · split <;> rfl

omit [Layout] in
theorem setBucket_bucket (h : bucket ∈ s.buckets) : s.setBucket bucket (s.bucket bucket) = s := by
  have hmap : s.buckets.insert bucket (s.bucket bucket) = s.buckets := by
    refine Std.ExtTreeMap.ext_getElem? fun n => ?_
    rw [TreeMap.get_insert]
    split
    · next hn =>
      subst hn
      obtain ⟨b, hb⟩ := Option.isSome_iff_exists.mp (Std.ExtTreeMap.mem_iff_isSome_getElem?.mp h)
      rw [KeyIndexState.bucket, hb]
      rfl
    · rfl
  rw [setBucket, hmap]

omit [Layout] in
theorem mem_setBucket (bucket : String) (b : BucketState) : bucket ∈ (s.setBucket bucket b).buckets :=
  Std.ExtTreeMap.mem_insert_self

theorem take_page_rejected {rows : List (String × ObjEntry)}
    (h : (ScanStep.take s bucket generation (.page rows)).1 = false) :
    (ScanStep.take s bucket generation (.page rows)).2 =
      (s.invalidateCapture .rebuild).setBucket bucket (s.bucket bucket) := by
  simp only [ScanStep.take, syncListingIntoGeneration] at h ⊢
  split at h
  · cases h
  · next hown =>
    rw [if_neg hown]
    rfl

theorem take_finish_rejected (h : (ScanStep.take s bucket generation .finish).1 = false) :
    (ScanStep.take s bucket generation .finish).2 = s.setBucket bucket (s.bucket bucket) := by
  simp only [ScanStep.take, finishBucketSyncGeneration] at h ⊢
  split at h
  · cases h
  · next hown => rw [if_neg hown]

omit [Layout] in
theorem invalidate_invalid_eq {c : IndexCapture} (h : c.journal.invalid ≠ none)
    (r : Invalidation) : (c.invalidate r).journal.invalid = c.journal.invalid := by
  obtain ⟨reason, hreason⟩ := Option.ne_none_iff_exists'.mp h
  simp [IndexCapture.invalidate, DonorJournal.invalidate, hreason]

/-- A rejected step moves nothing exactly when the index holds its bucket and, for a page, no
attached capture is still valid. -/
theorem rejected_step_unmoved_iff (step : ScanStep)
    (h : (step.take s bucket generation).1 = false) :
    Unmoved s (step.take s bucket generation).2 ↔
      bucket ∈ s.buckets ∧
        match step with
        | .page _ => ∀ c ∈ s.capture, c.journal.invalid ≠ none
        | .finish => True := by
  cases step with
  | page rows =>
    rw [take_page_rejected h]
    constructor
    · intro hu
      have hmem := mem_setBucket (s := s.invalidateCapture .rebuild) bucket (s.bucket bucket)
      rw [hu.buckets] at hmem
      refine ⟨hmem, fun c hc hvalid => ?_⟩
      have hcap : some (c.invalidate .rebuild).journal.invalid = some c.journal.invalid := by
        simpa [invalidateCapture, Option.mem_def.mp hc] using hu.capture
      exact DonorJournal.invalid_invalidate c.journal .rebuild ((Option.some.inj hcap).trans hvalid)
    · rintro ⟨hmem, hinvalid⟩
      have hset := setBucket_bucket (s := s.invalidateCapture .rebuild) hmem
      rw [show s.bucket bucket = (s.invalidateCapture .rebuild).bucket bucket from rfl, hset]
      refine unmoved_of_capture ?_
      cases hc : s.capture with
      | none => rfl
      | some c => simp [invalidate_invalid_eq (hinvalid c hc)]
  | finish =>
    rw [take_finish_rejected h]
    constructor
    · intro hu
      have hmem := mem_setBucket (s := s) bucket (s.bucket bucket)
      rw [hu.buckets] at hmem
      exact ⟨hmem, trivial⟩
    · rintro ⟨hmem, -⟩
      rw [setBucket_bucket hmem]
      exact unmoved_of_capture rfl

end

section Sample
local instance frameLayout : Layout := sampleLayout

theorem rejected_step_unmoved_sample :
    (ScanStep.take sampleDonor "b" 1 .finish).1 = false ∧
    Unmoved sampleDonor (ScanStep.take sampleDonor "b" 1 .finish).2 := by
  have h : (ScanStep.take sampleDonor "b" 1 .finish).1 = false := by decide +kernel
  exact ⟨h, (rejected_step_unmoved_iff .finish h).mpr ⟨by decide +kernel, trivial⟩⟩

/-- A scan outlives the removal of its bucket `a`: its page and its completion are rejected and
bring the bucket back, so that a capture and an install over the configured `b` refuse; and a
stale page of `b` itself withdraws the capture of a donor. -/
theorem rejected_step_restores_bucket :
    ∃ s, sampleDonor.run [.resync "a", .removeBucket "a"] = some s ∧
      "a" ∉ s.buckets ∧
      (beginFleetCapture s sampleHost (fun _ _ => true) ["b"] sampleCaps).isOk = true ∧
      (sampleInstall s (sampleIndex sampleDonorRow none)).1 = .ok () ∧
      (∀ step ∈ [ScanStep.page [], .finish],
        (step.take s "a" 1).1 = false ∧ "a" ∈ (step.take s "a" 1).2.buckets ∧
        (beginFleetCapture (step.take s "a" 1).2 sampleHost (fun _ _ => true) ["b"]
          sampleCaps).isOk = false ∧
        (sampleInstall (step.take s "a" 1).2 (sampleIndex sampleDonorRow none)).1 =
          .error (.inBucket .universeMismatch "a")) ∧
      (ScanStep.take sampleBegun.2 "b" 1 (.page [])).1 = false ∧
      sampleBegun.2.capture.map (·.journal.invalid) = some none ∧
      (ScanStep.take sampleBegun.2 "b" 1 (.page [])).2.capture.map (·.journal.invalid) =
        some (some .rebuild) :=
  ⟨_, rfl, by decide +kernel, by decide +kernel, by decide +kernel, by decide +kernel,
    by decide +kernel, by decide +kernel, by decide +kernel⟩

end Sample

end S3Cache.Fleet

import S3Cache.Fleet.Calls
import S3Cache.Fleet.InstallLaws

/-! A follower's private stage (`index/fleet/stage.rs`): the image it gathers and decodes, the
journal suffix it replays and the guarded swap into the live index.  A stage serves nobody, so
nothing of it is ever rebuilt, fenced or captured; its type says so. -/

namespace S3Cache.Fleet

open Index KeyIndexState Fallible

structure JournalCursor where
  capture : List UInt8
  position : Nat
  deriving DecidableEq

structure JournalDelta where
  position : Nat
  effect : List UInt8

structure JournalBatch where
  start : JournalCursor
  through : JournalCursor
  deltas : List JournalDelta

structure Staged (s : KeyIndexState) : Prop where
  capture : s.capture = none
  idle : s.Idle
  epoch : ∀ name, (s.bucket name).uncertaintyEpoch = 0

structure FleetStage where
  encoded : List UInt8 := []
  expectedBytes : Nat
  decodedBytes : Nat
  expectedChunks : Nat
  nextChunk : Nat := 0
  caps : ImageCaps
  index : Option KeyIndexState := none
  rows : Nat := 0
  through : JournalCursor
  maxEventBytes : Nat
  staged : ∀ s ∈ index, Staged s

theorem Staged.setBucket {s : KeyIndexState} {b : BucketState} (h : Staged s) (hi : b.Idle)
    (he : b.uncertaintyEpoch = 0) (name : String) : Staged (s.setBucket name b) where
  capture := h.capture
  idle := h.idle.setBucket hi name
  epoch other := by
    rw [bucket_setBucket]
    split
    · exact he
    · exact h.epoch other

theorem capture_journalDel {s : KeyIndexState} {identity : Option DeltaIdentity}
    {bucket key : String} {gone : Option SystemTime} {changed : Bool} (h : s.capture = none) :
    (s.journalDel identity bucket key gone changed).capture = none := by
  fun_cases journalDel
  · simp [journal, h]
  · cases identity <;> simp [journalNoop, journal, h]

theorem capture_openBucket {s : KeyIndexState} (h : s.capture = none) (bucket : String) :
    (s.openBucket bucket).capture = none := by
  unfold openBucket
  split
  · exact h
  · simp [invalidateCaptureForRebuild, invalidateCapture, h]

section
variable [Layout]

theorem capture_applyPut {s : KeyIndexState} {bucket key : String} {e : ObjEntry}
    (h : s.capture = none) : (s.applyPut bucket key e).2.capture = none := by
  have ho := capture_openBucket h bucket
  simp only [applyPut, applyPutWithAuthority, noteIdentity]
  split
  · exact ho
  · simp [journal, account, ho]

theorem capture_applyReplayedDel {s : KeyIndexState} {bucket key : String} {ts : SystemTime}
    (h : s.capture = none) : (s.applyReplayedDel bucket key ts).2.capture = none := by
  have ho := capture_openBucket h bucket
  simp only [applyReplayedDel, applyDelWithIdentity, noteIdentity, reduceCtorEq, false_and,
    if_false]
  split
  · exact capture_journalDel ho
  · split <;> exact capture_journalDel ho

theorem Staged.apply {s : KeyIndexState} (h : Staged s) (delta : IndexDelta) :
    Staged (delta.apply s) := by
  cases delta with
  | noop => exact h
  | put bucket key entry =>
    refine ⟨capture_applyPut h.capture, fun name => ?_, fun name => ?_⟩
    · simp only [IndexDelta.apply, applyPut, bucket_put]
      split
      · rw [BucketState.afterPut]
        split
        · exact h.idle name
        · exact (h.idle name).acceptPut ..
      · exact h.idle name
    · have hc := BucketState.counters_afterPut (b := s.bucket name) key entry .definitiveMutation
      simp only [BucketState.counters, Prod.mk.injEq] at hc
      simp only [IndexDelta.apply, applyPut, bucket_put]
      split
      · exact hc.2.2.trans (h.epoch name)
      · exact h.epoch name
  | delete bucket key deletedAt =>
    have hswept : ∀ name, s.swept name deletedAt .hold = s.bucket name := fun name => by
      simp [swept]
    refine ⟨capture_applyReplayedDel h.capture, fun name => ?_, fun name => ?_⟩
    · simp only [IndexDelta.apply, applyReplayedDel, bucket_del, hswept]
      split
      · exact (h.idle name).afterDel ..
      · exact h.idle name
    · have hc := BucketState.counters_afterDel (b := s.bucket name) key deletedAt
      simp only [BucketState.counters, Prod.mk.injEq] at hc
      simp only [IndexDelta.apply, applyReplayedDel, bucket_del, hswept]
      split
      · exact hc.2.2.trans (h.epoch name)
      · exact h.epoch name

omit [Layout] in
theorem staged_empty : Staged {} :=
  ⟨rfl, fun name => by simpa [KeyIndexState.bucket] using BucketState.settled_empty.toIdle,
    fun name => by simp [KeyIndexState.bucket]⟩

theorem Staged.decodeBucket [ETagReader] {caps : ImageCaps} {st st' : Decoding}
    (h : Staged { buckets := st.buckets }) (hstep : decodeBucket caps st = .ok st') :
    Staged { buckets := st'.buckets } := by
  obtain ⟨name, _, _, _, keyed, _, buried, -, -, -, -, -, -, rfl⟩ := decodeBucket_eq_ok hstep
  exact h.setBucket ⟨rfl⟩ rfl name

theorem decode_staged [ETagReader] {bytes : List UInt8} {caps : ImageCaps} {s : KeyIndexState}
    (h : decode bytes caps = .ok s) : Staged s := by
  obtain ⟨st, hstaged, rfl⟩ := decode_keeps (fun st => Staged { buckets := st.buckets }) h
    (fun _ _ => staged_empty) fun _ _ => Staged.decodeBucket
  exact ⟨rfl, hstaged.idle, hstaged.epoch⟩

end

namespace FleetStage

def new (expectedBytes expectedChunks : Nat) (cut : JournalCursor) (decodedBytes : Nat)
    (caps : ImageCaps) (maxEventBytes : Nat) : Except ImageError FleetStage :=
  if expectedBytes = 0 ∨ caps.bytes < expectedBytes ∨ decodedBytes = 0 ∨
      caps.decodedBytes < decodedBytes ∨ expectedChunks = 0 ∨ maxEventBytes = 0 then
    .error .capacity
  else
    .ok { expectedBytes, decodedBytes, expectedChunks, caps, through := cut, maxEventBytes
          staged := fun _ hs => by cases hs }

def storeChunk (stage : FleetStage) (sequence : Nat) (chunk : List UInt8) :
    Except ImageError FleetStage := do
  if sequence ≠ stage.nextChunk ∨ chunk = [] ∨ stage.expectedChunks ≤ sequence then
    .error .corrupt
  else
  let bytes ← checked (stage.encoded.length + chunk.length)
  if stage.expectedBytes < bytes then .error .capacity else
  return { stage with encoded := stage.encoded ++ chunk, nextChunk := stage.nextChunk + 1 }

def countImage (s : KeyIndexState) : Nat :=
  (s.buckets.toList.map fun (_, b) => b.keys.len + b.gone.len).sum

section
variable [Layout] [ETagReader]

/-- `hash` is the digest the offer committed to. -/
def verify (hash : List UInt8 → List UInt8) (stage : FleetStage) (commitment : List UInt8) :
    Except ImageError FleetStage :=
  if stage.index.isSome ∨ stage.nextChunk ≠ stage.expectedChunks ∨
      stage.encoded.length ≠ stage.expectedBytes then .error .incomplete
  else if hash stage.encoded ≠ commitment then .error .corrupt
  else
    match h : decode stage.encoded
        { stage.caps with bytes := stage.expectedBytes, decodedBytes := stage.decodedBytes } with
    | .error e => .error e
    | .ok state =>
      .ok { stage with
        index := some state
        rows := countImage state
        staged := fun _ hs => Option.some.inj hs ▸ decode_staged h }

structure Replaying where
  state : KeyIndexState
  staged : Staged state
  rows : Nat
  expected : Nat

omit [Layout] [ETagReader] in
def growth (state : KeyIndexState) : IndexDelta → Except ImageError (Nat × Bool)
  | .put bucket key _ =>
    match state.buckets[bucket]? with
    | none => .error .incomplete
    | some b => .ok (b.keys.len + b.gone.len, (b.keys.get key).isNone)
  | .delete bucket _ _ =>
    match state.buckets[bucket]? with
    | none => .error .incomplete
    -- a delete may leave an older tombstone next to a newer row
    | some b => .ok (b.keys.len + b.gone.len, true)
  | .noop => .ok (0, false)

omit [Layout] [ETagReader] in
def recount (state : KeyIndexState) (caps : ImageCaps) (rows before : Nat) :
    IndexDelta → Except ImageError Nat
  | .put bucket _ _ | .delete bucket _ _ =>
    match state.buckets[bucket]? with
    | none => .error .incomplete
    | some b => do
      if rows < before then .error .capacity else
      let rows ← checked (rows - before + (b.keys.len + b.gone.len))
      if caps.rows < rows then .error .capacity else return rows
  | .noop => .ok rows

def stageDelta (caps : ImageCaps) (maxEventBytes : Nat) (st : Replaying) (delta : JournalDelta) :
    Except ImageError Replaying := do
  let expected ← checked (st.expected + 1)
  if delta.position ≠ expected then .error .corrupt else
  let effect ← IndexDelta.decodeDelta delta.effect maxEventBytes caps.nameBytes caps.decodedBytes
  let (before, mayGrow) ← growth st.state effect
  if mayGrow ∧ caps.rows ≤ st.rows then .error .capacity else
  let state := effect.apply st.state
  let rows ← recount state caps st.rows before effect
  return ⟨state, st.staged.apply effect, rows, expected⟩

def stageBatch (stage : FleetStage) (batch : JournalBatch) : Except ImageError FleetStage :=
  match h : stage.index with
  | none => .error .incomplete
  | some state => do
    if batch.start ≠ stage.through ∨ batch.through.capture ≠ stage.through.capture ∨
        batch.deltas.isEmpty then .error .corrupt
    else
    let st ← batch.deltas.foldlM (stageDelta stage.caps stage.maxEventBytes)
      ⟨state, stage.staged state h, stage.rows, stage.through.position⟩
    if st.expected ≠ batch.through.position then .error .corrupt else
    return { stage with
      index := some st.state, rows := st.rows, through := batch.through
      staged := fun _ hs => Option.some.inj hs ▸ st.staged }

omit [Layout] [ETagReader] in
def recounted (state : KeyIndexState) (rows before : Nat) : IndexDelta → Nat
  | .put bucket _ _ | .delete bucket _ _ =>
    match state.buckets[bucket]? with
    | none => rows
    | some b =>
      let after := rows - before + (b.keys.len + b.gone.len)
      if rows < before ∨ 2 ^ 64 ≤ after then rows else after
  | .noop => rows

def spoilDelta (caps : ImageCaps) (maxEventBytes : Nat) (st : Replaying) (delta : JournalDelta) :
    Replaying :=
  if 2 ^ 64 ≤ st.expected + 1 ∨ delta.position ≠ st.expected + 1 then st
  else
    match IndexDelta.decodeDelta delta.effect maxEventBytes caps.nameBytes caps.decodedBytes with
    | .error _ => st
    | .ok effect =>
      match growth st.state effect with
      | .error _ => st
      | .ok (before, mayGrow) =>
        if mayGrow ∧ caps.rows ≤ st.rows then st
        else
          { st with
            state := effect.apply st.state
            staged := st.staged.apply effect
            rows := recounted (effect.apply st.state) st.rows before effect }

def spoil (caps : ImageCaps) (maxEventBytes : Nat) : Replaying → List JournalDelta → Replaying
  | st, [] => st
  | st, delta :: deltas =>
    match stageDelta caps maxEventBytes st delta with
    | .ok st => spoil caps maxEventBytes st deltas
    | .error _ => spoilDelta caps maxEventBytes st delta

def spoiledBy (stage : FleetStage) (batch : JournalBatch) : FleetStage :=
  match h : stage.index with
  | none => stage
  | some state =>
    if batch.start ≠ stage.through ∨ batch.through.capture ≠ stage.through.capture ∨
        batch.deltas.isEmpty then stage
    else
      let st := spoil stage.caps stage.maxEventBytes
        ⟨state, stage.staged state h, stage.rows, stage.through.position⟩ batch.deltas
      { stage with
        index := some st.state, rows := st.rows
        staged := fun _ hs => Option.some.inj hs ▸ st.staged }

end

section
variable (alignCuts : CutAligner)

def fleetInstallCheck (live candidate : KeyIndexState) (cuts : List NativeCut)
    (names : List String) (maxRows : Nat) : Except InstallRefusal Unit := do
  let _ ← checkCandidate alignCuts live candidate cuts names maxRows
  return ()

def checkCoverage (stage : FleetStage) (live : KeyIndexState) (cuts : List NativeCut)
    (names : List String) : Except InstallRefusal Unit :=
  match stage.index with
  | none => .error .unavailable
  | some candidate => fleetInstallCheck alignCuts live candidate cuts names stage.caps.rows

structure Installation where
  answer : Except InstallRefusal Unit
  live : KeyIndexState
  stage : FleetStage
  capture : Option IndexCapture

theorem installFleetCandidate_stage [Layout] {live : KeyIndexState} {stage : Option KeyIndexState}
    {cuts : List NativeCut} {names : List String} {maxRows : Nat} {s : KeyIndexState}
    (h : s ∈ (installFleetCandidate alignCuts live stage cuts names maxRows).2.2) : s ∈ stage := by
  unfold installFleetCandidate at h
  split at h
  · exact h
  · split at h
    · exact h
    · split at h <;> cases h

def installInto [Layout] (stage : FleetStage) (live : KeyIndexState) (cuts : List NativeCut)
    (names : List String) : Installation :=
  let r := installFleetCandidate alignCuts live stage.index cuts names stage.caps.rows
  { answer := r.1
    live := r.2.1
    stage := { stage with
      index := r.2.2
      staged := fun s hs => stage.staged s (installFleetCandidate_stage alignCuts hs) }
    capture := if r.1.isOk then live.capture.map (·.invalidate .rebuild) else live.capture }

end

end FleetStage

section
variable {live candidate s s' installed : KeyIndexState} {names : List String} {carry : Carry}

theorem adopt_runs {name : String} {b : BucketState}
    (hroom : (live.bucket name).syncGeneration + 1 < 2 ^ 64)
    (hb : s.buckets[name]? = some b) : ∃ s', adopt live s name = .ok s' := by
  have hgen : ¬ 2 ^ 64 ≤ (live.buckets[name]?).elim 0 (·.syncGeneration) + 1 := by
    unfold KeyIndexState.bucket at hroom
    cases hl : live.buckets[name]? with
    | none => simp
    | some prior =>
      rw [hl] at hroom
      exact not_le.mpr hroom
  simp only [adopt, hb, if_neg hgen]
  exact ⟨_, rfl⟩

variable [Layout]

theorem applyCarried_eq_ok {name key : String} {effect : Carried}
    (h : applyCarried s (name, key, effect) = .ok s') :
    ∃ b b', s.buckets[name]? = some b ∧ b'.rebuildGeneration = b.rebuildGeneration ∧
      s'.buckets = (s.setBucket name b').buckets ∧ s'.capture = s.capture := by
  simp only [applyCarried] at h
  split at h
  · cases h
  next b hb =>
  cases effect with
  | delete t =>
    have hdrop : ({ b with gone := b.gone.raise key t }.dropRow key).rebuildGeneration =
        b.rebuildGeneration := by
      unfold BucketState.dropRow
      split <;> rfl
    simp only at h
    split at h <;> cases h <;> exact ⟨b, _, hb, hdrop, rfl, rfl⟩
  | row e =>
    cases h
    exact ⟨b, b.setRow key e, hb, rfl, rfl, rfl⟩

theorem applyCarried_runs {name : String} {b : BucketState} (hb : s.buckets[name]? = some b)
    (key : String) (effect : Carried) : ∃ s', applyCarried s (name, key, effect) = .ok s' := by
  cases effect with
  | delete t =>
    simp only [applyCarried, hb]
    split <;> exact ⟨_, rfl⟩
  | row e =>
    simp only [applyCarried, hb]
    exact ⟨_, rfl⟩

theorem publish_runs (hroom : ∀ n, (live.bucket n).syncGeneration + 1 < 2 ^ 64)
    (hnames : ∀ n ∈ names, candidate.buckets[n]?.isSome)
    (hcarry : ∀ e ∈ carry, candidate.buckets[e.1]?.isSome) :
    ∃ installed, publish live candidate names carry = .ok installed := by
  obtain ⟨t, ht, hsame⟩ : ∃ t, names.foldlM (adopt live) candidate = .ok t ∧
      ∀ n, t.buckets[n]?.isSome = candidate.buckets[n]?.isSome := foldlM_runs
    (P := fun t : KeyIndexState => ∀ n, t.buckets[n]?.isSome = candidate.buckets[n]?.isSome)
    (fun name hname t ht => by
      obtain ⟨b, hb⟩ := Option.isSome_iff_exists.mp ((ht name).trans (hnames name hname))
      obtain ⟨t', ht'⟩ := adopt_runs (hroom name) hb
      refine ⟨t', ht', fun n => ?_⟩
      obtain ⟨b, hb, -, rfl⟩ := adopt_eq_ok ht'
      exact (setBucket_isSome hb n).trans (ht n))
    fun _ => rfl
  obtain ⟨t', ht', -⟩ : ∃ t', applyCarry t carry = .ok t' ∧
      ∀ n, t'.buckets[n]?.isSome = candidate.buckets[n]?.isSome := foldlM_runs
    (P := fun t : KeyIndexState => ∀ n, t.buckets[n]?.isSome = candidate.buckets[n]?.isSome)
    (fun e he u hu => by
      have hmem : e ∈ carry := by
        rcases List.mem_append.mp he with he | he <;> exact (List.mem_filter.mp he).1
      obtain ⟨b, hb⟩ := Option.isSome_iff_exists.mp ((hu e.1).trans (hcarry e hmem))
      obtain ⟨u', hu'⟩ := applyCarried_runs hb e.2.1 e.2.2
      refine ⟨u', hu', fun n => ?_⟩
      obtain ⟨b, b', hb, -, hbuckets, -⟩ := applyCarried_eq_ok hu'
      rw [hbuckets]
      exact (setBucket_isSome hb n).trans (hu n))
    hsame
  refine ⟨{ t' with nativeCuts := live.nativeCuts }, ?_⟩
  simp only [publish, ht, bind_ok, ht']
  rfl

theorem publish_idle (hstaged : Staged candidate)
    (h : publish live candidate names carry = .ok installed) :
    installed.capture = none ∧ installed.Idle := by
  simp only [publish, bind_eq_ok] at h
  obtain ⟨t, hadopt, t', hcarry, h⟩ := h
  cases h
  have ht : t.capture = none ∧ t.Idle := by
    refine foldlM_keeps (P := fun _ u => u.capture = none ∧ u.Idle) ?_
      ⟨hstaged.capture, hstaged.idle⟩ hadopt
    rintro done n u u' - ⟨hc, hi⟩ hstep
    obtain ⟨b, hb, -, rfl⟩ := adopt_eq_ok hstep
    have hbi : b.Idle := by simpa [KeyIndexState.bucket, hb] using hi n
    refine ⟨hc, hi.setBucket ?_ n⟩
    exact ⟨hbi.generation⟩
  refine foldlM_keeps (P := fun _ u => u.capture = none ∧ u.Idle) ?_ ht hcarry
  rintro done ⟨n, key, effect⟩ u u' - ⟨hc, hi⟩ hstep
  obtain ⟨b, b', hb, hgen, hbuckets, hcap⟩ := applyCarried_eq_ok hstep
  have hbi : b.Idle := by simpa [KeyIndexState.bucket, hb] using hi n
  exact ⟨hcap.trans hc, (hi.setBucket ⟨hgen.trans hbi.generation⟩ n).congr hbuckets⟩

theorem publish_marks (hstaged : Staged candidate)
    (hno : ∀ n ∈ names, (candidate.bucket n).uncertainKeys = ∅)
    (h : publish live candidate names carry = .ok installed) (name : String)
    (hname : name ∈ names) :
    (installed.bucket name).synced = (candidate.bucket name).synced ∧
    (live.bucket name).syncGeneration < (installed.bucket name).syncGeneration ∧
    (installed.bucket name).uncertaintyEpoch = (live.bucket name).uncertaintyEpoch ∧
    (installed.bucket name).uncertainKeys = (live.bucket name).uncertainKeys := by
  simp only [publish, bind_eq_ok] at h
  obtain ⟨t, hadopt, t', hcarry, h⟩ := h
  cases h
  have ha := foldlM_adopt hadopt hname
  have hmarks := marks_applyCarry hcarry name
  simp only [marks, Prod.mk.injEq] at hmarks
  obtain ⟨hsynced, hgen, hepoch, hfences⟩ := hmarks
  show (t'.bucket name).synced = _ ∧ _ < (t'.bucket name).syncGeneration ∧
    (t'.bucket name).uncertaintyEpoch = _ ∧ (t'.bucket name).uncertainKeys = _
  rw [hsynced, hgen, hepoch, hfences, ha.synced, ha.generation, ha.epoch, ha.fences]
  unfold KeyIndexState.bucket
  cases live.buckets[name]? with
  | none => exact ⟨rfl, Nat.zero_lt_one, hstaged.epoch name, hno name hname⟩
  | some prior => exact ⟨rfl, Nat.lt_succ_self _, rfl, rfl⟩

omit [Layout] in
theorem installedView_of_none {live candidate : KeyView}
    (h : ∀ effect, ¬ Carries live candidate effect) : installedView live candidate = candidate := by
  have hdeleted : (live.gone.elim candidate fun gone =>
      if tombstoneCarried gone candidate.row candidate.gone = .ok true then
        (Carried.delete gone).act candidate
      else candidate) = candidate := by
    cases hg : live.gone with
    | none => rfl
    | some gone => exact if_neg fun hc => h (.delete gone) ⟨hg, hc⟩
  simp only [installedView, hdeleted]
  cases hr : live.row with
  | none => rfl
  | some row => exact if_neg fun hc => h (.row row) ⟨hr, hc⟩

end

namespace FleetStage

structure Swapped (live candidate : KeyIndexState) (names : List String) (out : Installation) :
    Prop where
  buckets : ∀ name, name ∈ out.live.buckets ↔ name ∈ names
  synced : ∀ name ∈ names, (out.live.bucket name).synced = true
  idle : ∀ name ∈ names, (out.live.bucket name).rebuildGeneration = none
  generation : ∀ name ∈ names,
    (live.bucket name).syncGeneration < (out.live.bucket name).syncGeneration
  fences : ∀ name, (out.live.bucket name).uncertainKeys = (live.bucket name).uncertainKeys
  tokens : ∀ name key,
    (out.live.fenceKey name key).map (·.1) = (live.fenceKey name key).map (·.1)
  cuts : out.live.nativeCuts = live.nativeCuts
  detached : out.live.capture = none
  withdrawn : ∀ c ∈ live.capture, ∃ c', out.capture = some c' ∧ c'.journal.invalid ≠ none
  rows : ∀ name key,
    (∀ effect, ¬ Carries (live.view name key) (candidate.view name key) effect) →
    SameRows (out.live.view name key) (candidate.view name key)

theorem fenceKey_token {s s' : KeyIndexState} {name : String}
    (h : (s'.bucket name).uncertaintyEpoch = (s.bucket name).uncertaintyEpoch) (key : String) :
    (s'.fenceKey name key).map (·.1) = (s.fenceKey name key).map (·.1) := by
  simp only [fenceKey, show ∀ t : KeyIndexState,
    t.invalidateCaptureForRebuild.bucket name = t.bucket name from fun _ => rfl, h]
  split <;> rfl

section
variable [Layout] (alignCuts : CutAligner)
  (stage : FleetStage) (live : KeyIndexState) (cuts : List NativeCut) (names : List String)

theorem installInto_refused {refusal : InstallRefusal}
    (h : installFleetCandidate alignCuts live stage.index cuts names stage.caps.rows =
      (.error refusal, live, stage.index)) :
    stage.installInto alignCuts live cuts names = ⟨.error refusal, live, stage, live.capture⟩ := by
  cases stage
  simp only [installInto, h, Except.isOk, Except.toBool]
  rfl

variable {alignCuts stage live cuts names}

theorem install_of_checked {candidate : KeyIndexState} {carry : Carry}
    (hroom : ∀ n, (live.bucket n).syncGeneration + 1 < 2 ^ 64)
    (hcheck : checkCandidate alignCuts live candidate cuts names stage.caps.rows = .ok carry) :
    ∃ installed, publish live candidate names carry = .ok installed ∧
      installFleetCandidate alignCuts live (some candidate) cuts names stage.caps.rows =
        (.ok (), installed, none) := by
  obtain ⟨-, hmem⟩ := checkCandidate_eq_ok hcheck
  have hshape := hcheck
  rw [checkCandidate, bind_eq_ok] at hshape
  obtain ⟨_, hshape, -⟩ := hshape
  obtain ⟨hlive, -, hall⟩ := checkShape_eq_ok hshape
  have hnames : ∀ n ∈ names, candidate.buckets[n]?.isSome := fun n hn => by
    have hsynced := (hall n hn).1
    unfold KeyIndexState.bucket at hsynced
    cases hc : candidate.buckets[n]? with
    | none => simp [hc] at hsynced
    | some b => rfl
  have hcarry : ∀ e ∈ carry, candidate.buckets[e.1]?.isSome := by
    rintro ⟨n, key, effect⟩ he
    have hc := (hmem n key effect).mp he
    cases hl : live.buckets[n]? with
    | none =>
      rw [view_of_get_none hl] at hc
      cases effect <;> simp [Carries] at hc
    | some b => exact hnames n (hlive n b hl).1
  obtain ⟨installed, hpublish⟩ := publish_runs hroom hnames hcarry
  exact ⟨installed, hpublish, by simp only [installFleetCandidate, hcheck, hpublish]⟩

theorem swapped_of_publish {candidate installed : KeyIndexState} {carry : Carry}
    {out : Installation} (hstaged : Staged candidate)
    (hcheck : checkCandidate alignCuts live candidate cuts names stage.caps.rows = .ok carry)
    (hpublish : publish live candidate names carry = .ok installed) (hlive : out.live = installed)
    (hcapture : out.capture = live.capture.map (·.invalidate .rebuild)) :
    Swapped live candidate names out := by
  obtain ⟨-, hmem⟩ := checkCandidate_eq_ok hcheck
  rw [checkCandidate, bind_eq_ok] at hcheck
  obtain ⟨_, hshape, -⟩ := hcheck
  obtain ⟨hheld, honly, hall⟩ := checkShape_eq_ok hshape
  have hmarks := publish_marks hstaged (fun n hn => (hall n hn).2) hpublish
  obtain ⟨hcap, hidle⟩ := publish_idle hstaged hpublish
  have hbuckets : ∀ name, name ∈ installed.buckets ↔ name ∈ names := by
    intro name
    rw [Std.ExtTreeMap.mem_iff_isSome_getElem?, publish_isSome hpublish]
    constructor
    · intro hs
      obtain ⟨b, hb⟩ := Option.isSome_iff_exists.mp hs
      exact honly name b hb
    · intro hn
      have hsynced := (hall name hn).1
      unfold KeyIndexState.bucket at hsynced
      cases hc : candidate.buckets[name]? with
      | none => simp [hc] at hsynced
      | some b => rfl
  -- outside the universe neither index has a bucket
  have houtside : ∀ name, name ∉ names →
      installed.bucket name = {} ∧ live.bucket name = {} := by
    intro name hn
    have hi : installed.buckets[name]? = none :=
      Std.ExtTreeMap.getElem?_eq_none fun h => hn ((hbuckets name).mp h)
    have hl : live.buckets[name]? = none :=
      Option.eq_none_iff_forall_ne_some.mpr fun b hb => hn (hheld name b hb).1
    simp [KeyIndexState.bucket, hi, hl]
  have hepoch : ∀ name,
      (installed.bucket name).uncertaintyEpoch = (live.bucket name).uncertaintyEpoch := by
    intro name
    by_cases hn : name ∈ names
    · exact (hmarks name hn).2.2.1
    · rw [(houtside name hn).1, (houtside name hn).2]
  subst hlive
  refine
    { buckets := hbuckets
      synced := fun name hn => (hmarks name hn).1.trans (hall name hn).1
      idle := fun name _ => (hidle name).generation
      generation := fun name hn => (hmarks name hn).2.1
      fences := fun name => ?_
      tokens := fun name key => fenceKey_token (hepoch name) key
      cuts := ?_
      detached := hcap
      withdrawn := fun c hc => ?_
      rows := fun name key hnone => ?_ }
  · by_cases hn : name ∈ names
    · exact (hmarks name hn).2.2.2
    · rw [(houtside name hn).1, (houtside name hn).2]
  · simp only [publish, bind_eq_ok] at hpublish
    obtain ⟨t, -, t', -, h⟩ := hpublish
    exact (congrArg KeyIndexState.nativeCuts (Except.ok.inj h)).symm
  · refine ⟨c.invalidate .rebuild, ?_, DonorJournal.invalid_invalidate c.journal .rebuild⟩
    rw [hcapture, Option.mem_def.mp hc]
    rfl
  · have hsame := publish_view (hmem name key) hpublish
    rwa [installedView_of_none hnone] at hsame

variable (alignCuts stage live cuts names)

/-- An install answers what its check just before would have; refused, it moved nothing, and
otherwise the candidate stands in the live index's place with the live bookkeeping. -/
theorem install_atomic (hroom : ∀ n, (live.bucket n).syncGeneration + 1 < 2 ^ 64) :
    let out := stage.installInto alignCuts live cuts names
    out.answer = stage.checkCoverage alignCuts live cuts names ∧
    (out.answer ≠ .ok () → out.live = live ∧ out.stage = stage ∧ out.capture = live.capture) ∧
    (out.answer = .ok () → ∃ candidate, stage.index = some candidate ∧
      Swapped live candidate names out) := by
  cases hindex : stage.index with
  | none =>
    have hrefused : installFleetCandidate alignCuts live stage.index cuts names stage.caps.rows =
        (.error .unavailable, live, stage.index) := by rw [hindex]; rfl
    rw [installInto_refused alignCuts stage live cuts names hrefused]
    refine ⟨by simp [checkCoverage, hindex], fun _ => ⟨rfl, rfl, rfl⟩, fun hok => ?_⟩
    cases hok
  | some candidate =>
    cases hcheck : checkCandidate alignCuts live candidate cuts names stage.caps.rows with
    | error refusal =>
      have hrefused : installFleetCandidate alignCuts live stage.index cuts names
          stage.caps.rows = (.error refusal, live, stage.index) := by
        simp only [hindex, installFleetCandidate, hcheck]
      rw [installInto_refused alignCuts stage live cuts names hrefused]
      refine ⟨by simp [checkCoverage, hindex, fleetInstallCheck, hcheck],
        fun _ => ⟨rfl, rfl, rfl⟩, fun hok => ?_⟩
      cases hok
    | ok carry =>
      obtain ⟨installed, hpublish, hinstall⟩ := install_of_checked hroom hcheck
      rw [← hindex] at hinstall
      have hstaged := stage.staged candidate hindex
      refine ⟨?_, fun hne => ?_, fun _ => ⟨candidate, rfl, ?_⟩⟩
      · have hverdict : stage.checkCoverage alignCuts live cuts names = .ok () := by
          simp only [checkCoverage, hindex, fleetInstallCheck, hcheck]
          rfl
        simp only [installInto, hinstall, hverdict]
      · simp only [installInto, hinstall] at hne
        exact absurd rfl hne
      · refine swapped_of_publish hstaged hcheck hpublish ?_ ?_
        · simp only [installInto, hinstall]
        · simp only [installInto, hinstall]
          rfl

end

section Sample
local instance stageLayout : Layout := sampleLayout

def sampleStage : FleetStage where
  expectedBytes := 1
  decodedBytes := 1
  expectedChunks := 1
  caps := ⟨1, 1, 1, 10, 64⟩
  index := some (sampleIndex (sampleRow 10) none)
  through := ⟨[], 0⟩
  maxEventBytes := 1
  staged _ hs := Option.some.inj hs ▸ staged_empty.setBucket ⟨rfl⟩ rfl "b"

def sampleLive : KeyIndexState :=
  { sampleIndex (sampleRow 20) none with
    capture := some
      { journal := { admits := fun _ _ => true }, maxEventBytes := 1, maxNameBytes := 1 } }

theorem install_atomic_sample :
    let out := sampleStage.installInto (fun _ _ => ⟨.exact, none⟩) sampleLive [] ["b"]
    out.answer = .ok () ∧
    ∃ candidate, sampleStage.index = some candidate ∧ Swapped sampleLive candidate ["b"] out := by
  have hroom : ∀ n, (sampleLive.bucket n).syncGeneration + 1 < 2 ^ 64 := fun n => by
    have hgen : (sampleLive.bucket n).syncGeneration = 0 := by
      rw [show sampleLive.bucket n = (sampleIndex (sampleRow 20) none).bucket n from rfl,
        sampleIndex, bucket_setBucket]
      split
      · rfl
      · simp [KeyIndexState.bucket]
    rw [hgen]
    decide
  have hok : (sampleStage.installInto (fun _ _ => ⟨.exact, none⟩) sampleLive [] ["b"]).answer =
    .ok () := by decide +kernel
  obtain ⟨-, -, hswap⟩ :=
    install_atomic (fun _ _ => ⟨.exact, none⟩) sampleStage sampleLive [] ["b"] hroom
  exact ⟨hok, hswap hok⟩

end Sample

end FleetStage

end S3Cache.Fleet

import S3Cache.Fleet.Transfer

/-! The follower's side of a transfer (`sync/volatile/fleet/follower.rs`): one effect at a time of
the group library's transfer, on the private stage and at last on the live index. -/

namespace S3Cache.Fleet

open Index KeyIndexState Fallible

structure AdapterError where
  deriving DecidableEq

structure TransferReservation where
  follower : String
  serial : Nat
  deriving DecidableEq

structure AttachToken where
  reservation : TransferReservation
  operation : Nat
  deriving DecidableEq

structure BarrierReceipt where
  reservation : TransferReservation
  attachOperation : Nat
  cursor : JournalCursor
  coveredCuts : List NativeCut
  deriving DecidableEq

structure NativeCoverageReceipt where
  parent : Nat
  stagedThrough : JournalCursor
  provenCuts : List NativeCut
  bufferedBytes : Nat
  barrier : BarrierReceipt
  deriving DecidableEq

structure NativeHandoffReceipt where
  install : Nat
  coverage : NativeCoverageReceipt
  attachment : AttachToken
  applierGeneration : Nat
  continuedCuts : List NativeCut
  bufferedBytes : Nat
  deriving DecidableEq

structure TransferContext where
  follower : String
  parent : Nat

inductive TransferEffect where
  | reserveStage (op : Nat) (imageCut : JournalCursor) (chunks encodedBytes decodedBytes : Nat)
  | verifyImage (op : Nat) (commitment : List UInt8)
  | checkNativeCoverage (op : Nat) (receipt : BarrierReceipt)
  | installCandidate (op : Nat) (coverage : NativeCoverageReceipt)
  | discardStage
  | other

inductive TransferEvent where
  | stageReserved (op : Nat)
  | imageVerified (op : Nat) (commitment : List UInt8)
  | nativePending (op : Nat)
  | nativeCovered (op : Nat) (coverage : NativeCoverageReceipt)
  | installed (op : Nat) (handoff : NativeHandoffReceipt)
  deriving DecidableEq

/-- What an effect meets around it: its deadline, the admission of the image, of its stage and of
the event that answers it, the roster observed now, and the recovery's permit to publish. -/
structure EffectHost where
  expired : Bool
  reserveEncoded : Bool
  reserveDecoded : Bool
  stageResources : Bool
  charge : Bool
  chargeMetadata : Bool
  sourceMatches : Bool
  permit : Bool
  publishes : Bool

/-- `nextApplier` is the process's `NEXT_APPLIER`. -/
structure FollowerPort where
  live : KeyIndexState
  stage : Option FleetStage := none
  attachment : Option AttachToken := none
  nextApplier : Nat := 1

def charged (admitted : Bool) (event : TransferEvent) :
    Except AdapterError (Option TransferEvent) :=
  if admitted then .ok (some event) else .error ⟨⟩

def refuses {α : Type} : Except AdapterError α → Bool
  | .error _ => true
  | .ok _ => false

namespace FollowerPort

section
variable [Layout] [ETagReader] (alignCuts : CutAligner)
  (hash : List UInt8 → List UInt8) (names : List String)

def publishStage (port : FollowerPort) (host : EffectHost) (op : Nat)
    (coverage : NativeCoverageReceipt) (attachment : AttachToken) (stage : FleetStage)
    (applierGeneration : Nat) : Except AdapterError (Option TransferEvent) × FollowerPort :=
  let out := stage.installInto alignCuts port.live coverage.provenCuts names
  match out.answer with
  | .ok () =>
    (.ok (some (.installed op
        { install := op, coverage, attachment, applierGeneration
          continuedCuts := coverage.provenCuts, bufferedBytes := 0 })),
      { port with live := out.live, stage := none })
  | .error (.pending _) =>
    (charged host.charge (.nativePending op),
      { port with live := out.live, stage := some out.stage })
  | .error (.incompatible _) =>
    (.error ⟨⟩, { port with live := out.live, stage := some out.stage })

def executeFollower (port : FollowerPort) (host : EffectHost) (context : TransferContext)
    (effect : TransferEffect) : Except AdapterError (Option TransferEvent) × FollowerPort :=
  if host.expired then (.error ⟨⟩, port)
  else
    match effect with
    | .reserveStage op imageCut chunks encodedBytes decodedBytes =>
      if port.stage.isSome ∨ imageCaps.bytes < encodedBytes ∨
          imageCaps.decodedBytes < decodedBytes then (.error ⟨⟩, port)
      else if !host.reserveEncoded || !host.reserveDecoded then (.error ⟨⟩, port)
      else
        match FleetStage.new encodedBytes chunks imageCut decodedBytes imageCaps
            journalEventBytes with
        | .error _ => (.error ⟨⟩, port)
        | .ok stage =>
          if !host.stageResources then (.error ⟨⟩, port)
          else (charged host.charge (.stageReserved op), { port with stage := some stage })
    | .verifyImage op commitment =>
      match port.stage with
      | none => (.error ⟨⟩, port)
      | some stage =>
        match stage.verify hash commitment with
        -- the stage went with the blocking task
        | .error _ => (.error ⟨⟩, { port with stage := none })
        | .ok verified =>
          (charged host.charge (.imageVerified op commitment), { port with stage := some verified })
    | .checkNativeCoverage op receipt =>
      match port.stage with
      | none => (.error ⟨⟩, port)
      | some stage =>
        if stage.through ≠ receipt.cursor ∨ receipt.reservation.follower ≠ context.follower ∨
            !host.sourceMatches then (.error ⟨⟩, port)
        else
          match stage.checkCoverage alignCuts port.live receipt.coveredCuts names with
          | .ok () =>
            (charged host.chargeMetadata (.nativeCovered op
              { parent := context.parent, stagedThrough := receipt.cursor
                provenCuts := receipt.coveredCuts, bufferedBytes := 0, barrier := receipt }), port)
          | .error (.pending _) => (charged host.charge (.nativePending op), port)
          | .error (.incompatible _) => (.error ⟨⟩, port)
    | .installCandidate op coverage =>
      match port.attachment with
      | none => (.error ⟨⟩, port)
      | some attachment =>
        if !host.permit ∨ coverage.parent ≠ context.parent ∨
            coverage.barrier.reservation ≠ attachment.reservation ∨
            coverage.barrier.attachOperation ≠ attachment.operation ∨
            coverage.stagedThrough ≠ coverage.barrier.cursor ∨ coverage.bufferedBytes ≠ 0 then
          (.error ⟨⟩, port)
        else if !host.sourceMatches || !host.chargeMetadata then (.error ⟨⟩, port)
        -- `checked_add`
        else if 2 ^ 64 ≤ port.nextApplier + 1 then (.error ⟨⟩, port)
        else
          let applierGeneration := port.nextApplier
          let port := { port with nextApplier := port.nextApplier + 1 }
          if applierGeneration = 0 then (.error ⟨⟩, port)
          else
            match port.stage with
            | none => (.error ⟨⟩, port)
            | some stage =>
              if !host.publishes then (.error ⟨⟩, port)
              else port.publishStage alignCuts names host op coverage attachment stage
                applierGeneration
    | .discardStage => (.ok none, { port with stage := none })
    | .other => (.error ⟨⟩, port)

omit [Layout] [ETagReader] in
def storeChunk (port : FollowerPort) (sequence : Nat) (chunk : List UInt8) :
    Except AdapterError Nat × FollowerPort :=
  match port.stage with
  | none => (.error ⟨⟩, port)
  | some stage =>
    match stage.storeChunk sequence chunk with
    | .error _ => (.error ⟨⟩, port)
    | .ok stage => (.ok stage.decodedBytes, { port with stage := some stage })

def stageBatch (port : FollowerPort) (batch : JournalBatch) :
    Except AdapterError Unit × FollowerPort :=
  match port.stage with
  | none => (.error ⟨⟩, port)
  | some stage =>
    match stage.stageBatch batch with
    | .error _ => (.error ⟨⟩, { port with stage := some (stage.spoiledBy batch) })
    | .ok stage => (.ok (), { port with stage := some stage })

omit [Layout] [ETagReader] in
def detach (port : FollowerPort) (token : AttachToken) : Except AdapterError Unit × FollowerPort :=
  if port.attachment ≠ some token then (.error ⟨⟩, port)
  else (.ok (), { port with attachment := none })

end

end FollowerPort

/-! ### What an effect can do -/

section
variable [Layout] [ETagReader] {alignCuts : CutAligner}
  {hash : List UInt8 → List UInt8} {names : List String} {port : FollowerPort} {host : EffectHost}
  {context : TransferContext}

omit [ETagReader] in
theorem publish_eq_error {live candidate : KeyIndexState} {carry : Carry} {e : InstallRefusal}
    (h : publish live candidate names carry = .error e) : ∃ what, e = .incompatible what := by
  unfold publish at h
  cases hadopt : names.foldlM (adopt live) candidate with
  | error e' =>
    rw [hadopt] at h
    cases h
    obtain ⟨s, name, -, hname⟩ := foldlM_eq_error hadopt
    unfold adopt at hname
    split at hname
    · cases hname
      exact ⟨_, rfl⟩
    · simp only at hname
      split at hname
      · cases hname
        exact ⟨_, rfl⟩
      · cases hname
  | ok adopted =>
    rw [hadopt, bind_ok] at h
    cases hcarry : applyCarry adopted carry with
    | ok carried =>
      rw [hcarry] at h
      cases h
    | error e' =>
      rw [hcarry] at h
      cases h
      obtain ⟨s, ⟨name, key, carried⟩, -, heffect⟩ := foldlM_eq_error hcarry
      cases hb : s.buckets[name]? with
      | none =>
        simp only [applyCarried, hb] at heffect
        cases heffect
        exact ⟨_, rfl⟩
      | some b =>
        obtain ⟨s', hs'⟩ := applyCarried_runs hb key carried
        cases hs'.symm.trans heffect

omit [ETagReader] in
theorem installInto_cases (stage : FleetStage) (live : KeyIndexState) (cuts : List NativeCut) :
    let out := stage.installInto alignCuts live cuts names
    (out.answer = .ok () ∧ ∃ candidate, stage.index = some candidate ∧
      FleetStage.Swapped live candidate names out) ∨
    (∃ cut, out.answer = .error (.pending cut) ∧ out.live = live ∧ out.stage = stage) ∨
    (∃ what, out.answer = .error (.incompatible what) ∧ out.live = live) := by
  have hrefused : ∀ refusal, installFleetCandidate alignCuts live stage.index cuts names
      stage.caps.rows = (.error refusal, live, stage.index) →
      (∃ cut, (stage.installInto alignCuts live cuts names).answer = .error (.pending cut) ∧
        (stage.installInto alignCuts live cuts names).live = live ∧
        (stage.installInto alignCuts live cuts names).stage = stage) ∨
      (∃ what, (stage.installInto alignCuts live cuts names).answer = .error (.incompatible what) ∧
        (stage.installInto alignCuts live cuts names).live = live) := by
    intro refusal h
    rw [FleetStage.installInto_refused alignCuts stage live cuts names h]
    cases refusal with
    | pending cut => exact .inl ⟨cut, rfl, rfl, rfl⟩
    | incompatible what => exact .inr ⟨what, rfl, rfl⟩
  cases hindex : stage.index with
  | none => exact .inr (hrefused .unavailable (by rw [hindex]; rfl))
  | some candidate =>
    cases hcheck : checkCandidate alignCuts live candidate cuts names stage.caps.rows with
    | error refusal =>
      refine .inr (hrefused refusal ?_)
      simp only [hindex, installFleetCandidate, hcheck]
    | ok carry =>
      cases hpublish : publish live candidate names carry with
      | error refusal =>
        obtain ⟨what, rfl⟩ := publish_eq_error hpublish
        refine .inr (.inr ⟨what, ?_⟩)
        simp only [FleetStage.installInto, hindex, installFleetCandidate, hcheck, hpublish, and_self]
      | ok installed =>
        have hinstall : installFleetCandidate alignCuts live stage.index cuts names
            stage.caps.rows = (.ok (), installed, none) := by
          simp only [hindex, installFleetCandidate, hcheck, hpublish]
        refine .inl ⟨?_, candidate, rfl, ?_⟩
        · simp only [FleetStage.installInto, hinstall]
        · refine FleetStage.swapped_of_publish (stage.staged candidate hindex) hcheck hpublish ?_ ?_
          · simp only [FleetStage.installInto, hinstall]
          · simp only [FleetStage.installInto, hinstall]
            rfl

namespace FollowerPort

inductive Installing (alignCuts : CutAligner)
    (names : List String) (port : FollowerPort) (op : Nat) (coverage : NativeCoverageReceipt) :
    Except AdapterError (Option TransferEvent) × FollowerPort → Prop where
  | refused (nextApplier : Nat) : port.nextApplier ≤ nextApplier →
    Installing alignCuts names port op coverage (.error ⟨⟩, { port with nextApplier })
  | installed (attachment : AttachToken) (stage : FleetStage) (candidate live : KeyIndexState) :
    port.attachment = some attachment → port.stage = some stage → stage.index = some candidate →
    coverage.barrier.reservation = attachment.reservation →
    coverage.barrier.attachOperation = attachment.operation →
    coverage.stagedThrough = coverage.barrier.cursor → 0 < port.nextApplier →
    FleetStage.Swapped port.live candidate names
      { stage.installInto alignCuts port.live coverage.provenCuts names with live } →
    Installing alignCuts names port op coverage
      (.ok (some (.installed op
          { install := op, coverage, attachment, applierGeneration := port.nextApplier
            continuedCuts := coverage.provenCuts, bufferedBytes := 0 })),
        { port with live, stage := none, nextApplier := port.nextApplier + 1 })
  | pending (charge : Bool) :
    Installing alignCuts names port op coverage
      (charged charge (.nativePending op), { port with nextApplier := port.nextApplier + 1 })
  | incompatible (stage : Option FleetStage) :
    Installing alignCuts names port op coverage
      (.error ⟨⟩, { port with stage, nextApplier := port.nextApplier + 1 })

theorem installing (op : Nat) (coverage : NativeCoverageReceipt) :
    Installing alignCuts names port op coverage
      (port.executeFollower alignCuts hash names host context (.installCandidate op coverage)) := by
  unfold executeFollower
  split
  · exact .refused port.nextApplier le_rfl
  simp only
  split
  · exact .refused port.nextApplier le_rfl
  next attachment hattachment =>
  split
  · exact .refused port.nextApplier le_rfl
  next hreceipts =>
  split
  · exact .refused port.nextApplier le_rfl
  split
  · exact .refused port.nextApplier le_rfl
  split
  · exact .refused (port.nextApplier + 1) (Nat.le_succ _)
  next hzero =>
  split
  · exact .refused (port.nextApplier + 1) (Nat.le_succ _)
  next stage hstage =>
  split
  · exact .refused (port.nextApplier + 1) (Nat.le_succ _)
  simp only [not_or, not_not] at hreceipts
  obtain ⟨-, -, hreservation, hoperation, hthrough, -⟩ := hreceipts
  unfold publishStage
  obtain ⟨hanswer, candidate, hindex, hswap⟩ | ⟨cut, hanswer, hlive, hkept⟩ | ⟨what, hanswer, hlive⟩ :=
    @installInto_cases _ alignCuts names stage port.live coverage.provenCuts
  · simp only [hanswer]
    exact .installed attachment stage candidate _ hattachment hstage hindex hreservation hoperation
      hthrough (Nat.pos_of_ne_zero hzero) hswap
  · simp only [hanswer, hlive, hkept, ← hstage]
    exact .pending host.charge
  · simp only [hanswer, hlive]
    exact .incompatible _

omit [ETagReader] in
theorem Installing.stage_of_ok {op : Nat} {coverage : NativeCoverageReceipt}
    {result : Except AdapterError (Option TransferEvent) × FollowerPort}
    (h : Installing alignCuts names port op coverage result) (hok : refuses result.1 = false) :
    result.2.stage = none ∨ result.2.stage = port.stage := by
  cases h with
  | refused => cases hok
  | installed => exact .inl rfl
  | incompatible => cases hok
  | pending charge => exact .inr rfl

theorem stageBatch_of_ok {batch : JournalBatch} (hok : refuses (port.stageBatch batch).1 = false) :
    ∃ stage stage', port.stage = some stage ∧ (port.stageBatch batch).2.stage = some stage' ∧
      stage.stageBatch batch = .ok stage' := by
  unfold stageBatch at hok ⊢
  split at hok
  · cases hok
  next stage hstage =>
  split at hok
  · cases hok
  next stage' htook => exact ⟨stage, stage', hstage, by simp, htook⟩

theorem stage_reserveStage {op chunks encodedBytes decodedBytes : Nat} {imageCut : JournalCursor}
    {port' : FollowerPort}
    (h : (port.executeFollower alignCuts hash names host context
      (.reserveStage op imageCut chunks encodedBytes decodedBytes)).2 = port') :
    port'.stage = port.stage ∨
    port.stage = none ∧ ∃ fresh, port'.stage = some fresh ∧
      FleetStage.new encodedBytes chunks imageCut decodedBytes imageCaps journalEventBytes =
        .ok fresh := by
  subst h
  unfold executeFollower
  split
  · exact .inl rfl
  simp only
  split
  · exact .inl rfl
  next hfree =>
  simp only [not_or, Option.not_isSome_iff_eq_none] at hfree
  split
  · exact .inl rfl
  split
  · exact .inl rfl
  next fresh hfresh =>
  split
  · exact .inl rfl
  · exact .inr ⟨hfree.1, fresh, rfl, hfresh⟩

theorem stage_verifyImage {op : Nat} {commitment : List UInt8} {port' : FollowerPort}
    (h : (port.executeFollower alignCuts hash names host context
      (.verifyImage op commitment)).2 = port') :
    port'.stage = port.stage ∨ port'.stage = none ∨
    ∃ stage verified, port.stage = some stage ∧ stage.verify hash commitment = .ok verified ∧
      port'.stage = some verified := by
  subst h
  unfold executeFollower
  split
  · exact .inl rfl
  simp only
  split
  · exact .inl rfl
  next stage hstage =>
  split
  · exact .inr (.inl rfl)
  next verified hverified => exact .inr (.inr ⟨stage, verified, hstage, hverified, rfl⟩)

theorem checkNativeCoverage_keeps {op : Nat} {receipt : BarrierReceipt} :
    (port.executeFollower alignCuts hash names host context
      (.checkNativeCoverage op receipt)).2 = port := by
  unfold executeFollower
  split
  · rfl
  simp only
  split
  · rfl
  split
  · rfl
  split <;> rfl

end FollowerPort

end

end S3Cache.Fleet

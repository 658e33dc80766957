import S3Cache.Fleet.Port

/-! A transfer between a donor and a follower, as a whole.  The donor's index and its captures go
on meanwhile; chunks may come from anywhere; batches of the journal may be delayed, repeated and
reordered; and the follower's own index goes on until the stage is installed in its place.  What
reads batches and barriers off the donor's journal is the group library. -/

namespace S3Cache.Fleet

open Index KeyIndexState Fallible

structure Given where
  id : Nat
  image : List UInt8
  size : ImageSize
  offer : TransferOffer

structure Sampled where
  given : Given
  records : List JournalRecord
  live : KeyIndexState

/-- `current` is the offer the follower's stage is for, and `refused` whether the port has refused
a batch or an install of that stage. -/
structure Session where
  donor : DonorNode
  port : FollowerPort
  offers : List Given := []
  current : Option Given := none
  refused : Bool := false
  sent : List JournalBatch := []
  barriers : List Sampled := []

def journalDeltas (records : List JournalRecord) : List JournalDelta :=
  records.mapIdx fun i record => ⟨i + 1, record.effect⟩

inductive SessionEvent where
  | donor (e : DonorEvent)
  | offer (id maxMetadataBytes : Nat) (fits : Bool)
  | send (id first last : Nat)
  | barrier (offer : Nat)
  | own (c : IndexCall)
  | reserve (offer op : Nat) (host : EffectHost) (context : TransferContext)
  | chunk (sequence : Nat) (bytes : List UInt8)
  | verify (op : Nat) (host : EffectHost) (context : TransferContext)
  | batch (sent : Nat)
  | check (op : Nat) (receipt : BarrierReceipt) (host : EffectHost) (context : TransferContext)
  | install (op : Nat) (coverage : NativeCoverageReceipt) (host : EffectHost)
      (context : TransferContext)
  | attach (token : AttachToken)
  | detach (token : AttachToken)
  | discard (host : EffectHost) (context : TransferContext)

/-- A capture's journal has the ceiling of `JOURNAL_CONFIG`. -/
def DonorEvent.configured : DonorEvent → Bool
  | .begin host _ => host.maxEventBytes = journalEventBytes
  | _ => true

def DonorNode.validJournal (node : DonorNode) (id : Nat) : Option IndexCapture :=
  (node.journalOf id).filter (·.journal.invalid.isNone)

def Sampled.cursor (captureId : Nat → List UInt8) (b : Sampled) : JournalCursor :=
  ⟨captureId b.given.id, b.records.length⟩

section
variable [Layout] [ETagReader] (alignCuts : CutAligner)
  (captureId : Nat → List UInt8) (hash : List UInt8 → List UInt8) (names : List String)

/-- `none` for what cannot happen: a call that panics, an offer or a batch nobody made. -/
def Session.step (s : Session) : SessionEvent → Option Session
  | .donor e =>
    if e.configured then
      (s.donor.step alignCuts names imageCaps e).map fun donor => { s with donor }
    else none
  | .offer id maxMetadataBytes fits =>
    match s.donor.imageOffer captureId hash id maxMetadataBytes fits, s.donor.holders id with
    | some offer, some (.donor image size) =>
      some { s with offers := ⟨id, image, size, offer⟩ :: s.offers }
    | _, _ => none
  | .send id first last =>
    (s.donor.validJournal id).map fun c =>
      { s with sent :=
        ⟨⟨captureId id, first⟩, ⟨captureId id, last⟩,
          ((journalDeltas c.journal.records).drop first).take (last - first)⟩ :: s.sent }
  | .barrier offer => do
    let given ← s.offers[offer]?
    let c ← s.donor.validJournal given.id
    return { s with barriers := ⟨given, c.journal.records, s.donor.live⟩ :: s.barriers }
  | .own c => (s.port.live.step c).map fun live => { s with port := { s.port with live } }
  | .reserve offer op host context =>
    s.offers[offer]?.map fun given =>
      let offer := given.offer
      { s with
        port := (s.port.executeFollower alignCuts hash names host context
          (.reserveStage op offer.imageCut offer.chunks offer.encodedBytes offer.decodedBytes)).2
        current := if s.port.stage.isSome then s.current else some given
        refused := s.refused && s.port.stage.isSome }
  | .chunk sequence bytes => some { s with port := (s.port.storeChunk sequence bytes).2 }
  | .verify op host context =>
    s.current.map fun given =>
      { s with port := (s.port.executeFollower alignCuts hash names host context
          (.verifyImage op given.offer.commitment)).2 }
  | .batch sent =>
    s.sent[sent]?.map fun batch =>
      let (answer, port) := s.port.stageBatch batch
      { s with port, refused := s.refused || refuses answer }
  | .check op receipt host context =>
    some { s with port := (s.port.executeFollower alignCuts hash names host context
      (.checkNativeCoverage op receipt)).2 }
  | .install op coverage host context =>
    let (answer, port) :=
      s.port.executeFollower alignCuts hash names host context (.installCandidate op coverage)
    some { s with port, refused := s.refused || refuses answer }
  | .attach token => some { s with port := { s.port with attachment := some token } }
  | .detach token => some { s with port := (s.port.detach token).2 }
  | .discard host context =>
    some { s with port := (s.port.executeFollower alignCuts hash names host context
      .discardStage).2 }

end

/-! ### The journal and what is read off it -/

theorem journalDeltas_mono {records records' : List JournalRecord} (h : records <+: records') :
    journalDeltas records <+: journalDeltas records' := by
  obtain ⟨more, rfl⟩ := h
  rw [journalDeltas, journalDeltas, List.mapIdx_append]
  exact List.prefix_append ..

theorem length_journalDeltas (records : List JournalRecord) :
    (journalDeltas records).length = records.length :=
  List.length_mapIdx

theorem effects_journalDeltas (records : List JournalRecord) :
    (journalDeltas records).map (·.effect) = records.map (·.effect) := by
  refine List.ext_getElem? fun i => ?_
  rw [List.getElem?_map, journalDeltas, List.getElem?_mapIdx, List.getElem?_map, Option.map_map]
  rfl

theorem append_prefix_of_drop {α : Type} {done more l : List α} (h : done <+: l)
    (hmore : more <+: l.drop done.length) : done ++ more <+: l := by
  obtain ⟨rest, rfl⟩ := h
  rw [List.drop_left] at hmore
  exact (List.prefix_append_right_inj done).mpr hmore

section
variable [Layout] [ETagReader] {alignCuts : CutAligner}
  {captureId : Nat → List UInt8} {hash : List UInt8 → List UInt8} {names : List String}
  {s s' : Session} {J : Nat → List JournalRecord}

def Completes (names : List String) (image : List UInt8) (size : ImageSize)
    (records : List JournalRecord) (live : KeyIndexState) : Prop :=
  Covers imageCaps imageCaps size names ∧ 0 < size.decodedBytes ∧
  image.length = size.encodedBytes ∧
  ∀ caps, Covers caps imageCaps size names → ∃ state, decode image caps = .ok state ∧
    ∃ deltas, List.Forall₂
        (fun r d => IndexDelta.Encodes journalEventBytes imageCaps.nameBytes d r.effect)
        records deltas ∧
      Mirrors names live (replay state (deltas.map IndexDelta.skeletal))

def StageOf (hash : List UInt8 → List UInt8) (given : Given) (journal : List JournalRecord)
    (stage : FleetStage) : Prop :=
  ∃ fresh calls,
    FleetStage.new given.offer.encodedBytes given.offer.chunks given.offer.imageCut
      given.offer.decodedBytes imageCaps journalEventBytes = .ok fresh ∧
    FleetStage.Built hash fresh calls stage ∧
    (∀ x ∈ calls.flatMap StageCall.commitments, x = given.offer.commitment) ∧
    calls.flatMap StageCall.deltas <+: journalDeltas journal

/-- `J` has what each journal held last while it was valid. -/
structure Session.Sound (captureId : Nat → List UInt8) (hash : List UInt8 → List UInt8)
    (names : List String) (J : Nat → List JournalRecord) (s : Session) : Prop where
  donor : s.donor.Sound names imageCaps
  journal : ∀ id ∈ s.donor.attached, ∀ c, s.donor.live.capture = some c →
    c.journal.invalid = none → J id = c.journal.records ∧ c.maxEventBytes = journalEventBytes
  offers : ∀ g ∈ s.offers, g.id < s.donor.begun ∧ Offered captureId hash g.id g.image g.size g.offer ∧
    (s.donor.attached = some g.id → s.donor.holders g.id = some (.donor g.image g.size))
  images : ∀ g ∈ s.offers, ∀ g' ∈ s.offers, g.id = g'.id → g.image = g'.image ∧ g.size = g'.size
  sent : ∀ b ∈ s.sent, ∃ id < s.donor.begun, b.start.capture = captureId id ∧
    b.deltas <+: (journalDeltas (J id)).drop b.start.position
  barriers : ∀ b ∈ s.barriers, b.given ∈ s.offers ∧ b.records <+: J b.given.id ∧
    Completes names b.given.image b.given.size b.records b.live
  stage : s.refused = false → ∀ stage ∈ s.port.stage, ∃ g ∈ s.offers, s.current = some g ∧
    StageOf hash g (J g.id) stage

/-! ### The stage -/

theorem StageOf.refresh {given : Given} {fresh : FleetStage} (journal : List JournalRecord)
    (h : FleetStage.new given.offer.encodedBytes given.offer.chunks given.offer.imageCut
      given.offer.decodedBytes imageCaps journalEventBytes = .ok fresh) :
    StageOf hash given journal fresh := by
  obtain ⟨-, hreceived, hindex, hrows⟩ := FleetStage.new_eq_ok h
  exact ⟨fresh, [], h, FleetStage.built_fresh hreceived hindex hrows, List.forall_mem_nil _,
    List.nil_prefix⟩

theorem StageOf.mono {given : Given} {journal journal' : List JournalRecord} {stage : FleetStage}
    (h : StageOf hash given journal stage) (hj : journal <+: journal') :
    StageOf hash given journal' stage := by
  obtain ⟨fresh, calls, hnew, hbuilt, hcommitments, hdeltas⟩ := h
  exact ⟨fresh, calls, hnew, hbuilt, hcommitments, hdeltas.trans (journalDeltas_mono hj)⟩

section
variable {given : Given} {journal : List JournalRecord} {stage stage' : FleetStage}

theorem StageOf.storeChunk {sequence : Nat} {bytes : List UInt8}
    (h : StageOf hash given journal stage) (hstep : stage.storeChunk sequence bytes = .ok stage') :
    StageOf hash given journal stage' := by
  obtain ⟨fresh, calls, hnew, hbuilt, hcommitments, hdeltas⟩ := h
  refine ⟨fresh, _, hnew, hbuilt.storeChunk hstep, ?_, ?_⟩
  · simpa [StageCall.commitments] using hcommitments
  · simpa [StageCall.deltas] using hdeltas

theorem StageOf.verify (h : StageOf hash given journal stage)
    (hstep : stage.verify hash given.offer.commitment = .ok stage') :
    StageOf hash given journal stage' := by
  obtain ⟨fresh, calls, hnew, hbuilt, hcommitments, hdeltas⟩ := h
  refine ⟨fresh, _, hnew, hbuilt.verify hstep, ?_, ?_⟩
  · intro x hx
    rw [List.flatMap_append, List.flatMap_singleton] at hx
    rcases List.mem_append.mp hx with hx | hx
    · exact hcommitments x hx
    · exact List.mem_singleton.mp hx
  · simpa [StageCall.deltas] using hdeltas

theorem StageOf.through {image : List UInt8} {size : ImageSize}
    (ho : Offered captureId hash given.id image size given.offer)
    (h : StageOf hash given journal stage) :
    stage.through.capture = captureId given.id ∧
    stage.through.position ≤ journal.length := by
  obtain ⟨fresh, calls, hnew, hbuilt, -, hdeltas⟩ := h
  obtain ⟨⟨-, -, hcut, -⟩, -⟩ := FleetStage.new_eq_ok hnew
  rw [hbuilt.through, hcut, ho.imageCut, Nat.zero_add, ← length_journalDeltas]
  exact ⟨rfl, hdeltas.length_le⟩

theorem StageOf.stageBatch {image : List UInt8} {size : ImageSize} {batch : JournalBatch}
    (ho : Offered captureId hash given.id image size given.offer)
    (h : StageOf hash given journal stage) (hstep : stage.stageBatch batch = .ok stage')
    (hbatch : batch.start.capture = captureId given.id →
      batch.deltas <+: (journalDeltas journal).drop batch.start.position) :
    StageOf hash given journal stage' := by
  have hcapture := (h.through ho).1
  obtain ⟨fresh, calls, hnew, hbuilt, hcommitments, hdeltas⟩ := h
  obtain ⟨hstart, -⟩ := FleetStage.stageBatch_eq_ok hstep
  obtain ⟨⟨-, -, hcut, -⟩, -⟩ := FleetStage.new_eq_ok hnew
  have hposition : batch.start.position = (calls.flatMap StageCall.deltas).length := by
    rw [hstart, hbuilt.through, hcut, ho.imageCut, Nat.zero_add]
  have hnext := hbatch (hstart ▸ hcapture)
  rw [hposition] at hnext
  refine ⟨fresh, _, hnew, hbuilt.stageBatch hstep, ?_, ?_⟩
  · simpa [StageCall.commitments] using hcommitments
  · rw [List.flatMap_append, List.flatMap_singleton]
    exact append_prefix_of_drop hdeltas hnext

end

/-! ### The steps of a session -/

namespace Session

omit [ETagReader] in
theorem validJournal_eq_some {node : DonorNode} {id : Nat} {c : IndexCapture}
    (h : node.Sound names imageCaps) (hc : node.validJournal id = some c) :
    node.attached = some id ∧ node.live.capture = some c ∧ c.journal.invalid = none := by
  obtain ⟨hjournal, hvalid⟩ := Option.filter_eq_some_iff.mp hc
  rw [Option.isNone_iff_eq_none] at hvalid
  unfold DonorNode.journalOf at hjournal
  split at hjournal
  · next hattached => exact ⟨hattached, hjournal, hvalid⟩
  · next hattached => exact absurd hvalid (h.withdrawn id c hattached hjournal)

def grown (J : Nat → List JournalRecord) (node : DonorNode) (id : Nat) : List JournalRecord :=
  (node.validJournal id).elim (J id) (·.journal.records)

theorem Sound.donorStep (h : s.Sound captureId hash names J) {e : DonorEvent} {donor : DonorNode}
    (hconfigured : e.configured = true)
    (hstep : s.donor.step alignCuts names imageCaps e = some donor) :
    Sound captureId hash names (grown J donor) { s with donor } := by
  have hdonor := h.donor.step hstep
  have hgrew := DonorNode.Grew.step h.donor hstep
  have hmono : ∀ id < s.donor.begun, J id <+: grown J donor id := by
    intro id hlt
    unfold grown
    cases hc : donor.validJournal id with
    | none => exact List.prefix_refl _
    | some c =>
      obtain ⟨hattached, hcapture, hvalid⟩ := validJournal_eq_some hdonor hc
      obtain ⟨c₀, hc₀, hvalid₀, -, hrecords⟩ := hgrew.journal id hlt hattached c hcapture hvalid
      rw [(h.journal id (hgrew.attached id hlt hattached) c₀ hc₀ hvalid₀).1]
      exact hrecords
  refine ⟨hdonor, fun id hid c hc hvalid => ⟨?_, ?_⟩, fun g hg => ?_, h.images, fun b hb => ?_,
    fun b hb => ?_, fun hused stage hstage => ?_⟩
  · have hjournal : donor.validJournal id = some c := by
      unfold DonorNode.validJournal DonorNode.journalOf
      rw [if_pos (Option.mem_def.mp hid), show donor.live.capture = some c from hc]
      exact Option.filter_some_pos (by rw [hvalid]; rfl)
    rw [grown, hjournal]
    rfl
  · rcases DonorNode.attached_step hstep with hnone | hsame | ⟨host, admits, pending, rfl, hbegin⟩
    · cases hnone.symm.trans hid
    · have hlt := h.donor.begun id (hsame.symm.trans hid)
      obtain ⟨c₀, hc₀, hvalid₀, hceiling, -⟩ := hgrew.journal id hlt hid c hc hvalid
      exact hceiling.trans (h.journal id (hsame.symm.trans hid) c₀ hc₀ hvalid₀).2
    · obtain ⟨-, -, -, hcapture⟩ := beginFleetCapture_eq_ok hbegin
      obtain rfl := Option.some.inj (hcapture.symm.trans hc)
      exact of_decide_eq_true hconfigured
  · obtain ⟨hlt, ho, hholder⟩ := h.offers g hg
    refine ⟨hlt.trans_le hgrew.begun, ho, fun hid => ?_⟩
    exact hgrew.holders g.id hlt hid _ _ (hholder (hgrew.attached g.id hlt hid))
  · obtain ⟨id, hlt, hcapture, hdeltas⟩ := h.sent b hb
    refine ⟨id, hlt.trans_le hgrew.begun, hcapture, hdeltas.trans ?_⟩
    exact (journalDeltas_mono (hmono id hlt)).drop _
  · obtain ⟨hgiven, hrecords, hcompletes⟩ := h.barriers b hb
    exact ⟨hgiven, hrecords.trans (hmono _ (h.offers _ hgiven).1), hcompletes⟩
  · obtain ⟨g, hg, hcurrent, hof⟩ := h.stage hused stage hstage
    exact ⟨g, hg, hcurrent, hof.mono (hmono _ (h.offers g hg).1)⟩

theorem Sound.offer (h : s.Sound captureId hash names J) {id maxMetadataBytes : Nat} {fits : Bool}
    {offer : TransferOffer} {image : List UInt8} {size : ImageSize}
    (hoffer : s.donor.imageOffer captureId hash id maxMetadataBytes fits = some offer)
    (hholder : s.donor.holders id = some (.donor image size)) :
    Sound captureId hash names J { s with offers := ⟨id, image, size, offer⟩ :: s.offers } := by
  obtain ⟨image', size', hholder', -, hattached, ho⟩ := imageOffer_eq_some hoffer
  have hid : s.donor.attached = some id := of_decide_eq_true hattached
  cases hholder.symm.trans hholder'
  -- the holder of an attached capture does not change once it is finished
  have hsame : ∀ g ∈ s.offers, g.id = id → g.image = image ∧ g.size = size := by
    rintro g hg rfl
    cases ((h.offers g hg).2.2 hid).symm.trans hholder
    exact ⟨rfl, rfl⟩
  refine ⟨h.donor, h.journal, ?_, ?_, h.sent, fun b hb => ?_, fun hused stage hstage => ?_⟩
  · intro g hg
    rcases List.mem_cons.mp hg with rfl | hg
    · exact ⟨h.donor.begun id hid, ho, fun _ => hholder⟩
    · exact h.offers g hg
  · intro g hg g' hg' heq
    rcases List.mem_cons.mp hg with rfl | hg <;> rcases List.mem_cons.mp hg' with rfl | hg'
    · exact ⟨rfl, rfl⟩
    · exact (hsame g' hg' heq.symm).imp Eq.symm Eq.symm
    · exact hsame g hg heq
    · exact h.images g hg g' hg' heq
  · obtain ⟨hgiven, hrest⟩ := h.barriers b hb
    exact ⟨List.mem_cons_of_mem _ hgiven, hrest⟩
  · obtain ⟨g, hg, hrest⟩ := h.stage hused stage hstage
    exact ⟨g, List.mem_cons_of_mem _ hg, hrest⟩

theorem Sound.send (h : s.Sound captureId hash names J) {id first last : Nat} {c : IndexCapture}
    (hc : s.donor.validJournal id = some c) :
    Sound captureId hash names J { s with sent :=
      ⟨⟨captureId id, first⟩, ⟨captureId id, last⟩,
        ((journalDeltas c.journal.records).drop first).take (last - first)⟩ :: s.sent } := by
  refine ⟨h.donor, h.journal, h.offers, h.images, fun b hb => ?_, h.barriers, h.stage⟩
  rcases List.mem_cons.mp hb with rfl | hb
  · obtain ⟨hattached, hcapture, hvalid⟩ := validJournal_eq_some h.donor hc
    refine ⟨id, h.donor.begun id hattached, rfl, ?_⟩
    rw [(h.journal id hattached c hcapture hvalid).1]
    exact List.take_prefix ..
  · exact h.sent b hb

theorem Sound.port (h : s.Sound captureId hash names J) {port : FollowerPort} {refused : Bool}
    (hport : refused = false → port.stage = none ∨ s.refused = false ∧ (port.stage = s.port.stage ∨
      ∃ stage stage', s.port.stage = some stage ∧ port.stage = some stage' ∧
        ∀ g ∈ s.offers, s.current = some g → StageOf hash g (J g.id) stage →
          StageOf hash g (J g.id) stage')) :
    Sound captureId hash names J { s with port, refused } := by
  refine ⟨h.donor, h.journal, h.offers, h.images, h.sent, h.barriers, fun hr stage hstage => ?_⟩
  rcases hport hr with hnone | ⟨hused, hsame | ⟨before, after, hbefore, hafter, hkeeps⟩⟩
  · cases hnone.symm.trans hstage
  · exact h.stage hused stage (hsame.symm.trans hstage)
  · obtain rfl := Option.some.inj (hafter.symm.trans hstage)
    obtain ⟨g, hg, hcurrent, hof⟩ := h.stage hused before hbefore
    exact ⟨g, hg, hcurrent, hkeeps g hg hcurrent hof⟩

theorem Sound.reserve (h : s.Sound captureId hash names J) {given : Given} {port : FollowerPort}
    (hgiven : given ∈ s.offers)
    (hport : port.stage = s.port.stage ∨ s.port.stage = none ∧ ∃ fresh, port.stage = some fresh ∧
      FleetStage.new given.offer.encodedBytes given.offer.chunks given.offer.imageCut
        given.offer.decodedBytes imageCaps journalEventBytes = .ok fresh) :
    Sound captureId hash names J
      { s with
        port
        current := if s.port.stage.isSome then s.current else some given
        refused := s.refused && s.port.stage.isSome } := by
  refine ⟨h.donor, h.journal, h.offers, h.images, h.sent, h.barriers, fun hr stage hstage => ?_⟩
  rcases hport with hsame | ⟨hnone, fresh, hfresh, hnew⟩
  · have hsome : s.port.stage.isSome = true := by rw [hsame.symm.trans hstage]; rfl
    have hused : s.refused = false := by simpa [hsome] using hr
    obtain ⟨g, hg, hcurrent, hof⟩ := h.stage hused stage (hsame.symm.trans hstage)
    exact ⟨g, hg, by simp only [hsome, if_true]; exact hcurrent, hof⟩
  · obtain rfl := Option.some.inj (hfresh.symm.trans hstage)
    exact ⟨given, hgiven, by simp [hnone], .refresh _ hnew⟩

end Session

end

/-! ### Whole sessions -/

section
variable [Layout] [ETagParser] {alignCuts : CutAligner}
  {captureId : Nat → List UInt8} {hash : List UInt8 → List UInt8} {names : List String}
  {s s' : Session} {J : Nat → List JournalRecord}

namespace Session

theorem Sound.barrier (h : s.Sound captureId hash names J) {given : Given}
    {c : IndexCapture} (hgiven : given ∈ s.offers) (hc : s.donor.validJournal given.id = some c) :
    Sound captureId hash names J
      { s with barriers := ⟨given, c.journal.records, s.donor.live⟩ :: s.barriers } := by
  refine ⟨h.donor, h.journal, h.offers, h.images, h.sent, fun b hb => ?_, h.stage⟩
  rcases List.mem_cons.mp hb with rfl | hb
  · obtain ⟨hattached, hcapture, hvalid⟩ := validJournal_eq_some h.donor hc
    obtain ⟨hrecords, hevents⟩ := h.journal given.id hattached c hcapture hvalid
    have htracks := h.donor.tracks given.id hattached
    rw [(h.offers given hgiven).2.2 hattached] at htracks
    obtain ⟨hself, hspent, hlength, hnames, hmirrors⟩ := htracks.mirrors hcapture hvalid rfl
    refine ⟨hgiven, hrecords ▸ List.prefix_refl _, hself, hspent, hlength, fun caps hcov => ?_⟩
    rw [← hevents, ← hnames]
    exact hmirrors caps hcov
  · exact h.barriers b hb

theorem Sound.step (hcapture : Function.Injective captureId) (h : s.Sound captureId hash names J)
    {event : SessionEvent} (hstep : s.step alignCuts captureId hash names event = some s') :
    ∃ J', s'.Sound captureId hash names J' := by
  cases event with
  | donor e =>
    obtain ⟨hconfigured, hstep⟩ := Option.ite_none_right_eq_some.mp hstep
    obtain ⟨donor, hdonor, rfl⟩ := Option.map_eq_some_iff.mp hstep
    exact ⟨_, h.donorStep hconfigured hdonor⟩
  | offer id maxMetadataBytes fits =>
    simp only [Session.step] at hstep
    split at hstep
    · next hoffer hholder =>
      cases hstep
      exact ⟨J, h.offer hoffer hholder⟩
    · cases hstep
  | send id first last =>
    obtain ⟨c, hc, rfl⟩ := Option.map_eq_some_iff.mp hstep
    exact ⟨J, h.send hc⟩
  | barrier offer =>
    obtain ⟨given, hgiven, hstep⟩ := Option.bind_eq_some_iff.mp hstep
    obtain ⟨c, hc, hstep⟩ := Option.bind_eq_some_iff.mp hstep
    cases hstep
    exact ⟨J, h.barrier (List.mem_of_getElem? hgiven) hc⟩
  | own c =>
    obtain ⟨live, -, rfl⟩ := Option.map_eq_some_iff.mp hstep
    exact ⟨J, h.port fun hr => .inr ⟨hr, .inl rfl⟩⟩
  | reserve offer op host context =>
    obtain ⟨given, hgiven, rfl⟩ := Option.map_eq_some_iff.mp hstep
    exact ⟨J, h.reserve (List.mem_of_getElem? hgiven) (FollowerPort.stage_reserveStage rfl)⟩
  | chunk sequence bytes =>
    cases hstep
    refine ⟨J, h.port fun hr => .inr ⟨hr, ?_⟩⟩
    unfold FollowerPort.storeChunk
    split
    · exact .inl rfl
    · next stage hstage =>
      split
      · exact .inl rfl
      · next stage' hstage' =>
        exact .inr ⟨stage, stage', hstage, rfl, fun _ _ _ hof => hof.storeChunk hstage'⟩
  | verify op host context =>
    obtain ⟨given, hcurrent, rfl⟩ := Option.map_eq_some_iff.mp hstep
    refine ⟨J, h.port fun hr => ?_⟩
    rcases FollowerPort.stage_verifyImage rfl with hsame | hnone |
      ⟨stage, verified, hstage, hverify, hstage'⟩
    · exact .inr ⟨hr, .inl hsame⟩
    · exact .inl hnone
    · refine .inr ⟨hr, .inr ⟨stage, verified, hstage, hstage', fun g _ hg hof => ?_⟩⟩
      obtain rfl := Option.some.inj (hcurrent.symm.trans hg)
      exact hof.verify hverify
  | batch sent =>
    obtain ⟨batch, hbatch, rfl⟩ := Option.map_eq_some_iff.mp hstep
    refine ⟨J, h.port fun hr => ?_⟩
    rw [Bool.or_eq_false_iff] at hr
    obtain ⟨stage, stage', hstage, hstage', htook⟩ := FollowerPort.stageBatch_of_ok hr.2
    refine .inr ⟨hr.1, .inr ⟨stage, stage', hstage, hstage', fun g hg _ hof => ?_⟩⟩
    obtain ⟨id, -, hid, hdeltas⟩ := h.sent batch (List.mem_of_getElem? hbatch)
    refine hof.stageBatch (h.offers g hg).2.1 htook fun hcap => ?_
    obtain rfl := hcapture (hid.symm.trans hcap)
    exact hdeltas
  | check op receipt host context =>
    cases hstep
    exact ⟨J, h.port fun hr => .inr ⟨hr, .inl (by rw [FollowerPort.checkNativeCoverage_keeps])⟩⟩
  | install op coverage host context =>
    have hinstalling := @FollowerPort.installing _ _ alignCuts hash names s.port host context op
      coverage
    cases hstep
    refine ⟨J, h.port fun hr => ?_⟩
    rw [Bool.or_eq_false_iff] at hr
    rcases hinstalling.stage_of_ok hr.2 with hnone | hsame
    · exact .inl hnone
    · exact .inr ⟨hr.1, .inl hsame⟩
  | attach token =>
    cases hstep
    exact ⟨J, h.port fun hr => .inr ⟨hr, .inl rfl⟩⟩
  | detach token =>
    cases hstep
    refine ⟨J, h.port fun hr => .inr ⟨hr, .inl ?_⟩⟩
    unfold FollowerPort.detach
    split <;> rfl
  | discard host context =>
    cases hstep
    refine ⟨J, h.port fun hr => ?_⟩
    unfold FollowerPort.executeFollower
    split
    · exact .inr ⟨hr, .inl rfl⟩
    · exact .inl rfl

theorem sound_run (hcapture : Function.Injective captureId) {live own : KeyIndexState}
    {events : List SessionEvent}
    (hrun : Machine.run (step alignCuts captureId hash names)
      { donor := { live }, port := { live := own } } events = some s) :
    ∃ J, s.Sound captureId hash names J := by
  refine Machine.run_keeps (P := fun s => ∃ J, s.Sound captureId hash names J) hrun
    (fun _ _ _ h hstep => ?_) ⟨fun _ => [], ?_⟩
  · obtain ⟨J, hJ⟩ := h
    exact hJ.step hcapture hstep
  · refine ⟨⟨?_, ?_, ?_⟩, ?_, ?_, ?_, ?_, ?_, ?_⟩
    · exact fun _ h => (Option.not_mem_none _ h).elim
    · exact fun _ _ _ h => (Option.not_mem_none _ h).elim
    · exact fun _ h => (Option.not_mem_none _ h).elim
    · exact fun _ h => (Option.not_mem_none _ h).elim
    · exact List.forall_mem_nil _
    · exact List.forall_mem_nil _
    · exact List.forall_mem_nil _
    · exact List.forall_mem_nil _
    · exact fun _ _ h => (Option.not_mem_none _ h).elim

end Session

theorem decodeJournal_of_decodes {caps : ImageCaps} {maxEventBytes : Nat}
    {deltas : List JournalDelta} {effects : List IndexDelta} {records : List JournalRecord}
    (h : List.Forall₂ (FleetStage.Decodes caps maxEventBytes) deltas effects)
    (hrecords : deltas.map (·.effect) = records.map (·.effect)) :
    decodeJournal records maxEventBytes caps.nameBytes caps.decodedBytes = .ok effects := by
  induction h generalizing records with
  | nil =>
    rw [List.map_nil, eq_comm, List.map_eq_nil_iff] at hrecords
    subst hrecords
    rfl
  | @cons delta effect deltas effects hdecode _ ih =>
    obtain ⟨record, more, rfl, hrecord, hmore⟩ := List.map_eq_cons_iff.mp hrecords.symm
    have hmore' := ih hmore.symm
    unfold decodeJournal at hmore' ⊢
    unfold FleetStage.Decodes at hdecode
    rw [List.mapM_cons, hrecord, hdecode, bind_ok, hmore']
    rfl

theorem StageOf.replicates (hhash : Function.Injective hash) {given : Given}
    {journal records : List JournalRecord} {stage : FleetStage} {candidate live : KeyIndexState}
    (ho : Offered captureId hash given.id given.image given.size given.offer)
    (h : StageOf hash given journal stage) (hindex : stage.index = some candidate)
    (hrecords : records <+: journal) (hposition : stage.through.position = records.length)
    (hcompletes : Completes names given.image given.size records live) :
    Replicates names live candidate := by
  obtain ⟨fresh, calls, hnew, hbuilt, hcommitments, hdeltas⟩ := h
  obtain ⟨hcommitted, -, -, -, image, hdecode, hreplayed⟩ := hbuilt.loaded candidate hindex
  -- the chunks are the image: the stage verified against its hash
  have hbytes : FleetStage.bytesOf calls = given.image := by
    refine hhash ((hcommitments _ ?_).trans ho.commitment)
    rw [hcommitted]
    exact List.mem_singleton_self _
  rw [hbytes] at hdecode
  have hthrough := congrArg JournalCursor.position hbuilt.through
  simp only [FleetStage.new, ite_error_eq_ok] at hnew
  obtain ⟨-, hnew⟩ := hnew
  cases hnew
  simp only [ho.imageCut, Nat.zero_add] at hthrough
  -- the batches are the journal up to the barrier
  have hsame : calls.flatMap StageCall.deltas = journalDeltas records := by
    refine (List.prefix_of_prefix_length_le hdeltas (journalDeltas_mono hrecords) ?_).eq_of_length ?_
    · rw [length_journalDeltas, ← hposition, hthrough]
    · rw [length_journalDeltas, ← hposition, hthrough]
  obtain ⟨hself, hspent, hlength, hmirrors⟩ := hcompletes
  obtain ⟨state, hstate, deltas, hrel, hm⟩ := hmirrors _ (ho.covers hself hlength hspent)
  obtain rfl : image = state := Except.ok.inj (hdecode.symm.trans hstate)
  obtain ⟨effects, heffects, rfl, -⟩ := hreplayed.effects
  rw [hsame] at heffects
  have hjournal := decodeJournal_of_decodes heffects (effects_journalDeltas records)
  rw [eq_of_decodeJournal hrel hjournal]
  exact hm.replicates

end

section Sample
local instance sessionLayout : Layout := sampleLayout
local instance sessionParser : ETagParser := sampleETagParser

def sampleEffects : EffectHost := ⟨false, true, true, true, true, true, true, true, true⟩

def sampleContext : TransferContext := ⟨"f", 7⟩

def sampleCoverage : NativeCoverageReceipt :=
  let barrier : BarrierReceipt := ⟨⟨"f", 0⟩, 3, ⟨[0], 2⟩, []⟩
  { parent := 7, stagedThrough := ⟨[0], 2⟩, provenCuts := [], bufferedBytes := 0, barrier }

def sampleCaptured : List DonorEvent :=
  let host := { sampleHost with maxEventBytes := journalEventBytes }
  [.begin host fun _ _ => true, .begin host fun _ _ => true, .encode 1, .finish 1 true]

def sampleBytes : List UInt8 :=
  let node := Machine.run (DonorNode.step (fun _ _ => ⟨.exact, none⟩) ["b"] imageCaps)
    { live := sampleDonor } sampleCaptured
  (((node.bind (·.holders 1)).bind Holder.image).getD [])

def sampleTransfer : List SessionEvent :=
  sampleCaptured.map .donor ++
  [.offer 1 64 true, .reserve 0 0 sampleEffects sampleContext, .chunk 0 sampleBytes,
   .verify 1 sampleEffects sampleContext,
   .donor (.call (.put "b" "l" sampleDonorRow (some ⟨[1], 1, 1⟩))), .send 1 0 1,
   .donor (.call (.del "b" "k" (fromMicros 21000000) (some ⟨[1], 1, 2⟩))), .send 1 1 2,
   .batch 0, .discard sampleEffects sampleContext, .reserve 0 2 sampleEffects sampleContext,
   .chunk 0 sampleBytes, .verify 3 sampleEffects sampleContext, .batch 1, .batch 0, .barrier 0,
   .attach ⟨⟨"f", 0⟩, 3⟩]

def sampleSession : Session :=
  (Machine.run (Session.step (fun _ _ => ⟨.exact, none⟩) (fun n => List.replicate n 0) id ["b"])
    { donor := { live := sampleDonor }, port := { live := {} } } sampleTransfer).get
    (by decide +kernel)

end Sample

end S3Cache.Fleet

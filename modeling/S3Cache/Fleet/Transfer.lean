import S3Cache.Fleet.Captures
import S3Cache.Fleet.StageRun

/-! The image of a donor on its way to a follower (`sync/volatile/fleet/donor.rs`): the offer, and
the chunks it is cut into. -/

namespace S3Cache.Fleet

open Index KeyIndexState Fallible

def chunkBytes : Nat := 64 * 2 ^ 10

/-- `IMAGE_CAPS`. -/
def imageCaps : ImageCaps where
  bytes := 256 * 2 ^ 20
  decodedBytes := 2 ^ 30
  buckets := 256
  rows := 2000000
  nameBytes := 1024

/-- `JOURNAL_CONFIG.max_event_bytes`. -/
def journalEventBytes : Nat := 4096

structure TransferOffer where
  imageCut : JournalCursor
  encodedBytes : Nat
  decodedBytes : Nat
  chunks : Nat
  commitment : List UInt8
  deriving DecidableEq

namespace DonorNode

def isActive (node : DonorNode) (id : Nat) : Bool :=
  (node.journalOf id).any (·.journal.invalid.isNone)

/-- `fits` is whether the offer's metadata is admitted and fits what the follower asked for. -/
def imageOffer (captureId : Nat → List UInt8) (hash : List UInt8 → List UInt8) (node : DonorNode)
    (id maxMetadataBytes : Nat) (fits : Bool) : Option TransferOffer :=
  match node.holders id with
  | some (.donor image size) =>
    if !node.isActive id || !node.hasFleetCapture id then none
    else if image.length = 0 ∨ imageCaps.bytes < image.length ∨ maxMetadataBytes = 0 then none
    else if !fits then none
    else some
      { imageCut := ⟨captureId id, 0⟩
        encodedBytes := image.length
        decodedBytes := size.decodedBytes
        -- `div_ceil`
        chunks := (image.length + chunkBytes - 1) / chunkBytes
        commitment := hash image }
  | _ => none

def imageChunk (node : DonorNode) (id sequence maxBytes : Nat) (admitted : Bool) :
    Option (List UInt8) :=
  match node.holders id with
  | some (.donor image _) =>
    if !node.isActive id || !node.hasFleetCapture id || maxBytes = 0 || chunkBytes < maxBytes then
      none
    else
      let start := sequence * chunkBytes
      -- `checked_mul` and `checked_add`
      if usizeMax < start ∨ usizeMax < start + chunkBytes then none
      else
        let stop := min (start + chunkBytes) image.length
        -- `get(start..stop)`
        if stop < start then none
        else
          let slice := (image.take stop).drop start
          if slice.isEmpty ∨ maxBytes < slice.length then none
          else if !admitted then none
          else some slice
  | _ => none

end DonorNode

def chunkOf (image : List UInt8) (sequence : Nat) : List UInt8 :=
  (image.drop (sequence * chunkBytes)).take chunkBytes

theorem take_append_chunkOf (image : List UInt8) (sequence : Nat) :
    image.take (sequence * chunkBytes) ++ chunkOf image sequence =
      image.take ((sequence + 1) * chunkBytes) := by
  rw [Nat.succ_mul, List.take_add]
  rfl

theorem length_chunkOf (image : List UInt8) (sequence : Nat) :
    (chunkOf image sequence).length = min chunkBytes (image.length - sequence * chunkBytes) := by
  rw [chunkOf, List.length_take, List.length_drop]

theorem lt_chunks_iff {length sequence : Nat} :
    sequence < (length + chunkBytes - 1) / chunkBytes ↔ sequence * chunkBytes < length := by
  rw [Nat.lt_div_iff_mul_lt (by decide)]
  unfold chunkBytes
  omega

section
variable {node : DonorNode} {captureId : Nat → List UInt8} {hash : List UInt8 → List UInt8}
  {id : Nat} {offer : TransferOffer}

theorem isActive_eq_true (h : node.isActive id = true) :
    ∃ c, node.journalOf id = some c ∧ c.journal.invalid = none := by
  unfold DonorNode.isActive at h
  cases hc : node.journalOf id with
  | none => simp [hc] at h
  | some c => exact ⟨c, rfl, by simpa [hc] using h⟩

structure Offered (captureId : Nat → List UInt8) (hash : List UInt8 → List UInt8) (id : Nat)
    (image : List UInt8) (size : ImageSize) (offer : TransferOffer) : Prop where
  imageCut : offer.imageCut = ⟨captureId id, 0⟩
  encodedBytes : offer.encodedBytes = image.length
  decodedBytes : offer.decodedBytes = size.decodedBytes
  chunks : offer.chunks = (image.length + chunkBytes - 1) / chunkBytes
  commitment : offer.commitment = hash image
  pos : 0 < image.length
  bound : image.length ≤ imageCaps.bytes

theorem imageOffer_eq_some {maxMetadataBytes : Nat} {fits : Bool}
    (h : node.imageOffer captureId hash id maxMetadataBytes fits = some offer) :
    ∃ image size, node.holders id = some (.donor image size) ∧ node.isActive id = true ∧
      node.hasFleetCapture id = true ∧ Offered captureId hash id image size offer := by
  unfold DonorNode.imageOffer at h
  split at h
  · next image size hholder =>
    simp only [Option.ite_none_left_eq_some, Bool.not_eq_true', Bool.or_eq_true, not_or,
      Bool.not_eq_false, Option.some.injEq] at h
    obtain ⟨⟨hactive, hattached⟩, ⟨hpos, hbound, -⟩, -, rfl⟩ := h
    exact ⟨image, size, hholder, hactive, hattached, rfl, rfl, rfl, rfl, rfl,
      Nat.pos_of_ne_zero hpos, not_lt.mp hbound⟩
  · cases h

theorem slice_eq_chunkOf (image : List UInt8) (sequence : Nat) :
    (image.take (min (sequence * chunkBytes + chunkBytes) image.length)).drop
      (sequence * chunkBytes) = chunkOf image sequence := by
  rw [chunkOf, List.drop_take, List.take_eq_take_iff, List.length_drop]
  omega

theorem imageChunk_eq_some_iff {image : List UInt8} {size : ImageSize} {sequence maxBytes : Nat}
    {chunk : List UInt8} (hholder : node.holders id = some (.donor image size))
    (hactive : node.isActive id = true) (hattached : node.hasFleetCapture id = true)
    (hbound : image.length ≤ imageCaps.bytes) :
    node.imageChunk id sequence maxBytes true = some chunk ↔
      chunk = chunkOf image sequence ∧ sequence * chunkBytes < image.length ∧
      (chunkOf image sequence).length ≤ maxBytes ∧ maxBytes ≤ chunkBytes := by
  have hslice := slice_eq_chunkOf image sequence
  have hlength := length_chunkOf image sequence
  have hempty : (chunkOf image sequence).isEmpty = true ↔ ¬ sequence * chunkBytes < image.length := by
    rw [List.isEmpty_iff_length_eq_zero, hlength]
    have : 0 < chunkBytes := by decide
    omega
  unfold DonorNode.imageChunk
  simp only [hholder, hactive, hattached, hslice, Bool.not_true, Bool.false_or, Bool.or_eq_true,
    decide_eq_true_eq, Option.ite_none_left_eq_some, not_or, not_lt, hempty,
    Bool.false_eq_true, not_false_eq_true, true_and, Option.some.injEq]
  simp only [imageCaps] at hbound
  constructor
  · rintro ⟨⟨-, hmax⟩, -, -, ⟨hlt, hle⟩, rfl⟩
    exact ⟨rfl, not_le.mp hlt, hle, hmax⟩
  · rintro ⟨rfl, hlt, hle, hmax⟩
    have husize : sequence * chunkBytes + chunkBytes ≤ usizeMax := by
      unfold chunkBytes usizeMax at *
      omega
    have hpos : 0 < (chunkOf image sequence).length := by
      have : 0 < chunkBytes := by decide
      omega
    exact ⟨⟨by omega, hmax⟩, ⟨by omega, husize⟩, by omega, ⟨not_le.mpr hlt, hle⟩, rfl⟩

theorem run_storeChunks [Layout] [ETagReader] {fresh : FleetStage} {image : List UInt8}
    (hbytes : fresh.expectedBytes = image.length) (hbound : image.length ≤ imageCaps.bytes)
    (hchunks : fresh.expectedChunks = (image.length + chunkBytes - 1) / chunkBytes)
    (hencoded : fresh.encoded = []) (hnext : fresh.nextChunk = 0) {n : Nat}
    (hn : n ≤ fresh.expectedChunks) :
    fresh.run hash ((List.range n).map fun i => .storeChunk i (chunkOf image i)) =
      .ok { fresh with encoded := image.take (n * chunkBytes), nextChunk := n } := by
  induction n with
  | zero =>
    cases fresh
    cases hencoded
    cases hnext
    rfl
  | succ n ih =>
    rw [List.range_succ, List.map_append, FleetStage.run]
    refine foldlM_snoc (ih (Nat.le_of_succ_le hn)) ?_
    have hlt : n * chunkBytes < image.length := lt_chunks_iff.mp (hchunks ▸ hn)
    have hlength := length_chunkOf image n
    have hpos : 0 < chunkBytes := by decide
    have hne : chunkOf image n ≠ [] := List.ne_nil_of_length_pos (by omega)
    have hsum : (image.take (n * chunkBytes)).length + (chunkOf image n).length ≤ image.length := by
      rw [← List.length_append, take_append_chunkOf]
      exact List.length_take_le' ..
    have husize : image.length ≤ usizeMax := hbound.trans (by decide)
    show FleetStage.storeChunk _ n (chunkOf image n) = _
    simp only [FleetStage.storeChunk]
    rw [if_neg (by simpa [hne] using hn), (checked_eq_ok).mpr ⟨hsum.trans husize, rfl⟩, bind_ok,
      if_neg (by rw [hbytes]; omega), take_append_chunkOf]
    rfl

theorem verify_runs [Layout] [ETagReader] {stage : FleetStage} {state : KeyIndexState}
    (hindex : stage.index = none) (hchunks : stage.nextChunk = stage.expectedChunks)
    (hbytes : stage.encoded.length = stage.expectedBytes)
    (hdecode : decode stage.encoded stage.reserved = .ok state) :
    ∃ verified, stage.verify hash (hash stage.encoded) = .ok verified ∧
      verified.index = some state := by
  unfold FleetStage.verify
  rw [if_neg (by simp [hindex, hchunks, hbytes]), if_neg (not_not.mpr rfl)]
  split
  · next e he => cases hdecode.symm.trans he
  · next state' hstate =>
    obtain rfl : state = state' := Except.ok.inj (hdecode.symm.trans hstate)
    exact ⟨_, rfl, rfl⟩

theorem Offered.reserves {image : List UInt8} {size : ImageSize}
    (h : Offered captureId hash id image size offer) (hpos : 0 < offer.decodedBytes)
    (hbound : offer.decodedBytes ≤ imageCaps.decodedBytes) :
    ∃ fresh, FleetStage.new offer.encodedBytes offer.chunks offer.imageCut offer.decodedBytes
        imageCaps journalEventBytes = .ok fresh ∧ fresh.encoded = [] ∧ fresh.nextChunk = 0 ∧
      fresh.index = none ∧ fresh.expectedBytes = image.length ∧
      fresh.expectedChunks = offer.chunks ∧
      fresh.reserved =
        { imageCaps with bytes := offer.encodedBytes, decodedBytes := offer.decodedBytes } := by
  have hbytes := h.pos
  have hcap := h.bound
  have hcount : 0 < offer.chunks := h.chunks ▸ lt_chunks_iff.mpr (by omega)
  refine ⟨_, if_neg ?_, rfl, rfl, rfl, h.encodedBytes, rfl, rfl⟩
  rw [h.encodedBytes]
  unfold journalEventBytes
  omega

theorem Offered.verifies [Layout] [ETagReader] {image : List UInt8} {size : ImageSize}
    {fresh : FleetStage} {state : KeyIndexState}
    (h : Offered captureId hash id image size offer) (hencoded : fresh.encoded = [])
    (hnext : fresh.nextChunk = 0) (hindex : fresh.index = none)
    (hbytes : fresh.expectedBytes = image.length) (hexpected : fresh.expectedChunks = offer.chunks)
    (hdecode : decode image fresh.reserved = .ok state) :
    ∃ verified,
      fresh.run hash ((List.range offer.chunks).map (fun i => .storeChunk i (chunkOf image i)) ++
        [.verify offer.commitment]) = .ok verified ∧ verified.index = some state := by
  have hstored : fresh.run hash ((List.range offer.chunks).map fun i =>
        .storeChunk i (chunkOf image i)) =
      .ok { fresh with
        encoded := image.take (offer.chunks * chunkBytes), nextChunk := offer.chunks } :=
    run_storeChunks hbytes h.bound (hexpected.trans h.chunks) hencoded hnext hexpected.ge
  have hwhole : image.take (offer.chunks * chunkBytes) = image := by
    refine List.take_of_length_le (not_lt.mp fun hs => ?_)
    have hlt := lt_chunks_iff.mpr hs
    rw [← h.chunks] at hlt
    exact lt_irrefl _ hlt
  rw [hwhole] at hstored
  obtain ⟨verified, hverify, hverified⟩ : ∃ verified,
      FleetStage.verify hash { fresh with encoded := image, nextChunk := offer.chunks }
        (hash image) = .ok verified ∧ verified.index = some state :=
    verify_runs hindex hexpected.symm hbytes.symm hdecode
  refine ⟨verified, foldlM_snoc hstored ?_, hverified⟩
  rw [h.commitment]
  exact hverify

theorem Offered.covers {image : List UInt8} {size : ImageSize} {names : List String}
    (h : Offered captureId hash id image size offer) (hself : Covers imageCaps imageCaps size names)
    (hlength : image.length = size.encodedBytes) (hdecoded : 0 < size.decodedBytes) :
    Covers { imageCaps with bytes := offer.encodedBytes, decodedBytes := offer.decodedBytes }
      imageCaps size names := by
  have hbytes := hself.bytes
  have hcharge := hself.decodedBytes
  rw [h.encodedBytes, h.decodedBytes]
  refine ⟨?_, hlength.ge, le_rfl, hself.rows, hself.buckets, hself.nameBytes⟩
  have hpos := h.pos
  simp only [imageCaps] at hbytes hcharge
  unfold ImageCaps.validate
  rw [if_neg]
  simp only [imageCaps]
  omega

variable {alignCuts : CutAligner} {names : List String}

/-- An offered image arrives: the donor has a chunk for every number the offer counts and for no
other, none of them empty or too long for a follower, and a stage reserved for the offer takes them
all and verifies, into the index that the journal completes to the donor's own. -/
theorem offered_image_arrives [Layout] [ETagParser] {live : KeyIndexState}
    {events : List DonorEvent} {maxMetadataBytes : Nat} {fits : Bool}
    (hrun : Machine.run (DonorNode.step alignCuts names imageCaps) { live } events = some node)
    (hoffer : node.imageOffer captureId hash id maxMetadataBytes fits = some offer) :
    (∀ sequence, (node.imageChunk id sequence chunkBytes true).isSome ↔ sequence < offer.chunks) ∧
    ∃ chunks : Nat → List UInt8,
      (∀ sequence < offer.chunks,
        node.imageChunk id sequence chunkBytes true = some (chunks sequence) ∧
        0 < (chunks sequence).length ∧ (chunks sequence).length ≤ chunkBytes) ∧
      ∃ fresh verified state,
        FleetStage.new offer.encodedBytes offer.chunks offer.imageCut offer.decodedBytes imageCaps
          journalEventBytes = .ok fresh ∧
        fresh.run hash ((List.range offer.chunks).map (fun i => .storeChunk i (chunks i)) ++
          [.verify offer.commitment]) = .ok verified ∧
        verified.index = some state ∧
        ∀ c, node.journalOf id = some c → ∀ budget deltas,
          decodeJournal c.journal.records c.maxEventBytes imageCaps.nameBytes budget = .ok deltas →
          Replicates names node.live (replay state deltas) := by
  obtain ⟨image, size, hholder, hactive, hattached, ho⟩ := imageOffer_eq_some hoffer
  have hchunk := fun sequence maxBytes chunk =>
    @imageChunk_eq_some_iff node id image size sequence maxBytes chunk
      hholder hactive hattached ho.bound
  have hle : ∀ sequence, (chunkOf image sequence).length ≤ chunkBytes := fun sequence => by
    rw [length_chunkOf]
    exact Nat.min_le_left ..
  have hlt : ∀ sequence, sequence < offer.chunks ↔ sequence * chunkBytes < image.length :=
    fun sequence => ho.chunks ▸ lt_chunks_iff
  refine ⟨fun sequence => ?_, chunkOf image, fun sequence hs => ⟨?_, ?_, hle sequence⟩, ?_⟩
  · rw [Option.isSome_iff_exists, hlt]
    constructor
    · rintro ⟨chunk, hc⟩
      exact ((hchunk _ _ _).mp hc).2.1
    · intro hs
      exact ⟨_, (hchunk _ _ _).mpr ⟨rfl, hs, hle sequence, le_rfl⟩⟩
  · exact (hchunk _ _ _).mpr ⟨rfl, (hlt sequence).mp hs, hle sequence, le_rfl⟩
  · have hs := (hlt sequence).mp hs
    have hpos : 0 < chunkBytes := by decide
    rw [length_chunkOf]
    omega
  -- the journal is valid, so the image decodes to what the journal completes
  obtain ⟨c, hc, hvalid⟩ := isActive_eq_true hactive
  have hid : node.attached = some id := of_decide_eq_true hattached
  have hlive : node.live.capture = some c := by
    unfold DonorNode.journalOf at hc
    rwa [if_pos hid] at hc
  have htracks := (DonorNode.sound_run hrun).tracks id hid
  rw [hholder] at htracks
  obtain ⟨hself, hspent, hlength, hnames, hmirrors⟩ := htracks.mirrors hlive hvalid rfl
  obtain ⟨state, hdecode, effects, hrel, hm⟩ := hmirrors _ (ho.covers hself hlength hspent)
  have hcharge : offer.decodedBytes ≤ imageCaps.decodedBytes := by
    rw [ho.decodedBytes]
    exact hself.decodedBytes
  obtain ⟨fresh, hnew, hencoded, hnext, hindex, hbytes, hexpected, hreserved⟩ :=
    ho.reserves (ho.decodedBytes ▸ hspent) hcharge
  obtain ⟨verified, hverified, hstate⟩ := ho.verifies hencoded hnext hindex hbytes hexpected
    (hreserved ▸ hdecode)
  refine ⟨fresh, verified, state, hnew, hverified, hstate, fun c' hc' budget deltas hdeltas => ?_⟩
  obtain rfl : c = c' := Option.some.inj (hc.symm.trans hc')
  rw [← hnames] at hdeltas
  obtain rfl := eq_of_decodeJournal hrel hdeltas
  exact hm.replicates

end

section Sample
local instance transferLayout : Layout := sampleLayout
local instance transferParser : ETagParser := sampleETagParser

def sampleSender : DonorNode :=
  (Machine.run (DonorNode.step (fun _ _ => ⟨.pending, none⟩) ["b"] imageCaps)
    { live := sampleDonor } sampleLife).get (by decide +kernel)

def sampleOffer : TransferOffer :=
  (sampleSender.imageOffer (fun id => [id.toUInt8]) FleetStage.sampleHash 1 64 true).get
    (by decide +kernel)

theorem offered_image_arrives_sample :
    sampleOffer.chunks = 1 ∧
    ∀ sequence, (sampleSender.imageChunk 1 sequence chunkBytes true).isSome ↔ sequence < 1 := by
  have hrun : Machine.run (DonorNode.step (fun _ _ => ⟨.pending, none⟩) ["b"] imageCaps)
      { live := sampleDonor } sampleLife = some sampleSender := (Option.some_get _).symm
  have hoffer : sampleSender.imageOffer (fun id => [id.toUInt8]) FleetStage.sampleHash 1 64 true =
      some sampleOffer := (Option.some_get _).symm
  have hchunks : sampleOffer.chunks = 1 := by decide +kernel
  refine ⟨hchunks, fun sequence => ?_⟩
  rw [← hchunks]
  exact (offered_image_arrives hrun hoffer).1 sequence

end Sample

end S3Cache.Fleet

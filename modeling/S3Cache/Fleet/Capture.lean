import S3Cache.Fleet.Image
import S3Cache.Index.Ops

/-! A donor's capture (`index/fleet/capture.rs`) and a follower's replay
(`index/fleet/delta.rs`, `index/fleet/stage.rs`). -/

namespace S3Cache.Fleet

open Index Fallible

structure CaptureHost where
  suffix : Bool
  reserveEncoded : Nat → Bool
  reserveDecoded : Nat → Bool
  beginCapture : ImageSize → List NativeCut → Bool
  ingress : Bool
  maxCuts : Nat
  maxCutBytes : Nat
  maxEventBytes : Nat

structure PendingFleetCapture where
  snapshot : KeyIndexState
  size : ImageSize

def captureCuts (host : CaptureHost) (live : KeyIndexState) : Except ImageError (List NativeCut) :=
  if host.maxCuts < live.nativeCuts.size then .error .capacity
  else do
    let (cuts, _) ← live.nativeCuts.toList.foldlM
      (fun (acc : List NativeCut × Nat) (writer, epoch, sequence) => do
        let cutBytes ← checked (acc.2 + writer.length)
        if writer.isEmpty ∨ host.maxCutBytes < cutBytes then .error .capacity else
        return (acc.1 ++ [⟨writer, epoch, sequence⟩], cutBytes)) ([], 0)
    return cuts

section
variable [Layout]

/-- The pending capture and the live index with its ingress attached; a refusal attaches
nothing. -/
def beginFleetCapture (live : KeyIndexState) (host : CaptureHost)
    (admits : List JournalRecord → JournalRecord → Bool) (names : List String)
    (caps : ImageCaps) : Except ImageError (PendingFleetCapture × KeyIndexState) := do
  if !host.suffix then .error .capacity else
  let size ← talliedSize live names caps
  if !host.reserveEncoded size.encodedBytes then .error .capacity else
  if !host.reserveDecoded size.decodedBytes then .error .capacity else
  let snapshot ← snapshotState live names
  let cuts ← captureCuts host live
  if !host.beginCapture size cuts then .error .incomplete else
  if !host.ingress then .error .capacity else
  return (⟨snapshot, size⟩, { live with
    capture := some
      { journal := { admits }, maxEventBytes := host.maxEventBytes, maxNameBytes := caps.nameBytes } })

theorem beginFleetCapture_eq_ok {live s : KeyIndexState} {host : CaptureHost}
    {admits : List JournalRecord → JournalRecord → Bool} {names : List String} {caps : ImageCaps}
    {pending : PendingFleetCapture}
    (h : beginFleetCapture live host admits names caps = .ok (pending, s)) :
    talliedSize live names caps = .ok pending.size ∧
    snapshotState live names = .ok pending.snapshot ∧ s.buckets = live.buckets ∧
    s.capture = some
      { journal := { admits }, maxEventBytes := host.maxEventBytes,
        maxNameBytes := caps.nameBytes } := by
  simp only [beginFleetCapture, ite_error_eq_ok, bind_eq_ok] at h
  obtain ⟨-, size, hsize, -, -, snapshot, hsnapshot, cuts, -, -, -, h⟩ := h
  cases h
  exact ⟨hsize, hsnapshot, rfl, rfl⟩

def PendingFleetCapture.encode (pending : PendingFleetCapture) (names : List String)
    (caps : ImageCaps) : Except ImageError (List UInt8) := do
  let measured ← measureImage pending.snapshot names caps
  if measured ≠ pending.size then .error .corrupt else
  Fleet.encode pending.snapshot names caps pending.size

def IndexDelta.apply (stage : KeyIndexState) : IndexDelta → KeyIndexState
  | put bucket key entry => (stage.applyPut bucket key entry).2
  | delete bucket key deletedAt => (stage.applyReplayedDel bucket key deletedAt).2
  | noop => stage

def replay (stage : KeyIndexState) (deltas : List IndexDelta) : KeyIndexState :=
  deltas.foldl IndexDelta.apply stage

def decodeJournal [ETagReader] (records : List JournalRecord)
    (maxEventBytes nameBytes maxDecodedBytes : Nat) : Except ImageError (List IndexDelta) :=
  records.mapM fun record =>
    IndexDelta.decodeDelta record.effect maxEventBytes nameBytes maxDecodedBytes

end

end S3Cache.Fleet

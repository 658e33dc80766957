import S3Cache.Fleet.Wire
import S3Cache.Lib.Postcard

/-! The write feed's events (`sync/wire.rs`). -/

namespace S3Cache.Sync

open ByteCodec Utf8

inductive IndexOp where
  | put (size : Option Int64) (etag contentType storageClass : Option String)
  | del
  deriving DecidableEq

def IndexOp.unknown : IndexOp := .put none none none none

def IndexOp.describesNothing : IndexOp → Bool
  | put none none _ _ => true
  | _ => false

structure IndexEvent where
  op : IndexOp
  bucket : String
  key : String
  tsUs : UInt64
  deriving DecidableEq

/-- The `postcard` codec of an event, which reads back what it wrote. -/
class EventCodec where
  toVec : IndexEvent → Option (List UInt8)
  fromSlice : List UInt8 → Option IndexEvent
  fromSlice_toVec : ∀ event, (toVec event).bind fromSlice = some event

def wireMagic : UInt8 := 0xFE

section
variable [EventCodec]

def encodeEvent (event : IndexEvent) : List UInt8 :=
  match EventCodec.toVec event with
  | some body => wireMagic :: body
  | none => []

def decodeEvent : List UInt8 → Option IndexEvent
  | magic :: body => if magic = wireMagic then EventCodec.fromSlice body else none
  | [] => none

@[simp] theorem decodeEvent_encodeEvent (event : IndexEvent) :
    decodeEvent (encodeEvent event) = some event := by
  obtain ⟨body, hbody, hback⟩ := Option.bind_eq_some_iff.mp (EventCodec.fromSlice_toVec event)
  simp only [encodeEvent, hbody, decodeEvent, if_true, hback]

end

/-! The codec to run feeds with.  Postcard's lengths stop at `2 ^ 64`, so it writes them without
that bound. -/

section
open Postcard (Format)

def wireText : Format String := .textOf .natural

theorem wireText_reads (s : String) : wireText.Reads s := Format.textOf_reads (Format.natural_reads _)

theorem optText_reads (s : Option String) : (Format.option wireText).Reads s :=
  Format.option_reads fun s _ => wireText_reads s

def opFormat : Format IndexOp :=
  .tagged .u32 (fun | .put _ _ _ _ => 0 | .del => 1) fun
    | 0 => (Format.pair (.option .i64) (.pair (.option wireText)
          (.pair (.option wireText) (.option wireText)))).map
        (fun | .put size etag contentType storageClass => (size, etag, contentType, storageClass)
             | .del => (none, none, none, none))
        fun (size, etag, contentType, storageClass) =>
          some (.put size etag contentType storageClass)
    | 1 => .unit .del
    | _ => .nothing

def eventFormat : Format IndexEvent :=
  (Format.pair opFormat (.pair wireText (.pair wireText .varint))).map
    (fun e => (e.op, e.bucket, e.key, e.tsUs.toNat))
    fun (op, bucket, key, tsUs) => some ⟨op, bucket, key, UInt64.ofNat tsUs⟩

theorem opFormat_reads (op : IndexOp) : opFormat.Reads op := by
  cases op with
  | put size etag contentType storageClass =>
    refine Format.tagged_reads (Format.u32_reads (Nat.two_pow_pos 32)) (Format.map_reads ?_ rfl)
    refine Format.pair_reads (Format.option_reads fun n _ => Format.i64_reads n) ?_
    exact Format.pair_reads (optText_reads _) (Format.pair_reads (optText_reads _) (optText_reads _))
  | del => exact Format.tagged_reads (Format.u32_reads (by decide)) fun _ => rfl

theorem eventFormat_reads (event : IndexEvent) : eventFormat.Reads event := by
  refine Format.map_reads (Format.pair_reads (opFormat_reads _) (Format.pair_reads
    (wireText_reads _) (Format.pair_reads (wireText_reads _) ?_))) ?_
  · exact Format.varint_reads event.tsUs.toNat_lt
  · show some (IndexEvent.mk event.op event.bucket event.key (UInt64.ofNat event.tsUs.toNat)) = _
    rw [UInt64.ofNat_toNat]

@[reducible] def postcardEvents : EventCodec where
  toVec event := some (eventFormat.write event)
  fromSlice := eventFormat.fromSlice
  fromSlice_toVec event := (eventFormat_reads event).fromSlice

end

end S3Cache.Sync

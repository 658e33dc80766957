import S3Cache.Tier.Copies

/-! A cached object with its body and response metadata (`tier.rs`). -/

namespace S3Cache.Tier

open Index

structure ObjectMeta where
  contentLength : Option Int64 := none
  contentType : Option String := none
  eTag : Option ETag := none
  lastModified : Option SystemTime := none
  cacheControl : Option String := none
  contentEncoding : Option String := none
  contentLanguage : Option String := none
  contentDisposition : Option String := none
  acceptRanges : Option String := none
  metadata : Option (List (String × String)) := none
  deriving DecidableEq

/-- `CachedObject` with all its fields.  A `Copies` keeps the ones that decide freshness. -/
structure FullObject extends ObjectMeta where
  body : List UInt8
  trustedGen : Nat := 0
  deriving DecidableEq

namespace FullObject

def stored (object : FullObject) : FullObject := { object with trustedGen := 0 }

end FullObject

/-! ### Slices of a buffer -/

def getRange (bytes : List UInt8) (start stop : Nat) : Option (List UInt8) :=
  if start ≤ stop ∧ stop ≤ bytes.length then some ((bytes.drop start).take (stop - start))
  else none

theorem getRange_append_left {part : List UInt8} {start stop : Nat} (rest : List UInt8)
    (hstop : stop ≤ part.length) :
    getRange (part ++ rest) start stop = getRange part start stop := by
  by_cases hstart : start ≤ stop
  · have hlong : stop ≤ (part ++ rest).length := by
      rw [List.length_append]
      exact Nat.le_add_right_of_le hstop
    have htake : stop - start ≤ (part.drop start).length := by
      rw [List.length_drop]
      exact Nat.sub_le_sub_right hstop start
    rw [getRange, getRange, if_pos ⟨hstart, hlong⟩, if_pos ⟨hstart, hstop⟩,
      List.drop_append_of_le_length (hstart.trans hstop), List.take_append_of_le_length htake]
  · rw [getRange, getRange, if_neg fun h => hstart h.1, if_neg fun h => hstart h.1]

theorem getRange_mid (before part after : List UInt8) :
    getRange (before ++ part ++ after) before.length (before.length + part.length) = some part := by
  rw [getRange_append_left after (List.length_append ▸ le_rfl), getRange,
    if_pos ⟨Nat.le_add_right _ _, List.length_append ▸ le_rfl⟩, List.drop_left,
    Nat.add_sub_cancel_left, List.take_length]

theorem getRange_of_lt {bytes : List UInt8} {start stop : Nat} (h : bytes.length < stop) :
    getRange bytes start stop = none := if_neg fun hle => Nat.not_le.mpr h hle.2

end S3Cache.Tier

import S3Cache.Lib.Base64Url
import S3Cache.Lib.Spelled
import S3Cache.Sync.Control.Journal

/-! The texts of the control journal's keys (`sync/control/journal.rs`).  The journal's model
works with `SlotKey`s; their texts are as distinct as they are. -/

namespace S3Cache.Control

open Utf8 Spelled

section
variable [Base64Url.Encoding]

def base64 (text : String) : String := String.ofList (Base64Url.Encoding.encode (utf8 text))

def manifestKey (source : SourceId) : String :=
  s!"s3cache-control/v1/{base64 source.name}/manifest"

def SlotKey.text (key : SlotKey) : String :=
  s!"s3cache-control/v1/{base64 key.source.name}/{key.source.generation}" ++
    s!"/bucket/{base64 key.bucket}/slot/{padded 20 key.slot}"

theorem base64_injective : Function.Injective base64 := by
  intro s t h
  exact utf8_injective (Base64Url.Encoding.injective (String.ofList_injective h))

theorem slash_not_mem_base64 (text : String) : '/' ∉ (base64 text).toList := by
  rw [base64, String.toList_ofList]
  intro h
  exact absurd (Base64Url.Encoding.mem_alphabet h) (by decide)

theorem toList_manifestKey (source : SourceId) : (manifestKey source).toList =
    "s3cache-control/v1/".toList ++ ((base64 source.name).toList ++ '/' :: "manifest".toList) := by
  have hmanifest : "/manifest".toList = '/' :: "manifest".toList := by decide
  unfold manifestKey
  simp only [toString, String.toList_append, List.append_assoc, hmanifest]

theorem SlotKey.toList_text (key : SlotKey) : key.text.toList =
    "s3cache-control/v1/".toList ++ ((base64 key.source.name).toList ++ '/' ::
      ((toString key.source.generation).toList ++ '/' :: ("bucket/".toList ++
        ((base64 key.bucket).toList ++ '/' ::
          ("slot/".toList ++ (padded 20 key.slot).toList))))) := by
  have hslash : "/".toList = ['/'] := by decide
  have hbucket : "/bucket/".toList = '/' :: "bucket/".toList := by decide
  have hslot : "/slot/".toList = '/' :: "slot/".toList := by decide
  unfold SlotKey.text
  simp only [toString, String.toList_append, List.append_assoc, hslash, hbucket, hslot,
    List.cons_append, List.nil_append]

theorem name_eq_of_manifestKey {s t : SourceId} (h : manifestKey s = manifestKey t) :
    s.name = t.name := by
  have hchars := congrArg String.toList h
  rw [toList_manifestKey, toList_manifestKey] at hchars
  obtain ⟨hname, -⟩ := append_cons_inj (slash_not_mem_base64 _) (slash_not_mem_base64 _)
    (List.append_cancel_left hchars)
  exact base64_injective (String.toList_inj.mp hname)

theorem SlotKey.text_ne_manifestKey (key : SlotKey) (source : SourceId) :
    key.text ≠ manifestKey source := by
  intro h
  have hchars := congrArg String.toList h
  rw [SlotKey.toList_text, toList_manifestKey] at hchars
  obtain ⟨-, hrest⟩ := append_cons_inj (slash_not_mem_base64 _) (slash_not_mem_base64 _)
    (List.append_cancel_left hchars)
  have hslash : '/' ∈ "manifest".toList := hrest ▸ List.mem_append_right _ List.mem_cons_self
  exact absurd hslash (by decide)

theorem SlotKey.text_inj {k l : SlotKey} (hk : k.slot < 2 ^ 64) (hl : l.slot < 2 ^ 64)
    (h : k.text = l.text) : k = l := by
  have hchars := congrArg String.toList h
  rw [SlotKey.toList_text, SlotKey.toList_text] at hchars
  obtain ⟨hname, hrest⟩ := append_cons_inj (slash_not_mem_base64 _) (slash_not_mem_base64 _)
    (List.append_cancel_left hchars)
  obtain ⟨hgeneration, hrest⟩ := append_cons_inj (not_mem_toString (by decide) _)
    (not_mem_toString (by decide) _) hrest
  obtain ⟨hbucket, hrest⟩ := append_cons_inj (slash_not_mem_base64 _) (slash_not_mem_base64 _)
    (List.append_cancel_left hrest)
  have hslot : padded 20 k.slot = padded 20 l.slot :=
    String.toList_inj.mp (List.append_cancel_left hrest)
  obtain ⟨⟨name, generation⟩, bucket, slot⟩ := k
  obtain ⟨⟨name', generation'⟩, bucket', slot'⟩ := l
  rw [show name = name' from base64_injective (String.toList_inj.mp hname),
    show generation = generation' from toString_injective (String.toList_inj.mp hgeneration),
    show bucket = bucket' from base64_injective (String.toList_inj.mp hbucket),
    show slot = slot' from padded_inj (hk.trans (by decide)) (hl.trans (by decide)) hslot]

theorem SlotKey.text_lt_iff (source : SourceId) (bucket : String) {slot slot' : Nat}
    (hslot : slot < 2 ^ 64) (hslot' : slot' < 2 ^ 64) :
    SlotKey.text ⟨source, bucket, slot⟩ < SlotKey.text ⟨source, bucket, slot'⟩ ↔ slot < slot' := by
  rw [String.lt_iff_toList_lt, SlotKey.toList_text, SlotKey.toList_text]
  simp only [append_lt_append_iff, List.cons_lt_cons_self]
  exact padded_lt_iff (hslot.trans (by decide)) (hslot'.trans (by decide))

/-- Keys are equal only where their parts are, and a bucket's keys are in the order of its slots.
All characters of a key are ASCII, so their order is the order of its bytes. -/
theorem control_keys_distinct :
    (∀ k l : SlotKey, k.slot < 2 ^ 64 → l.slot < 2 ^ 64 → (k.text = l.text ↔ k = l)) ∧
    (∀ (k : SlotKey) (source : SourceId), k.text ≠ manifestKey source) ∧
    (∀ s t : SourceId, manifestKey s = manifestKey t ↔ s.name = t.name) ∧
    ∀ (source : SourceId) (bucket : String) (slot slot' : Nat), slot < 2 ^ 64 → slot' < 2 ^ 64 →
      (SlotKey.text ⟨source, bucket, slot⟩ < SlotKey.text ⟨source, bucket, slot'⟩ ↔
        slot < slot') := by
  refine ⟨?_, SlotKey.text_ne_manifestKey, ?_, ?_⟩
  · intro k l hk hl
    exact ⟨SlotKey.text_inj hk hl, fun h => h ▸ rfl⟩
  · intro s t
    refine ⟨name_eq_of_manifestKey, fun h => ?_⟩
    unfold manifestKey
    rw [h]
  · intro source bucket slot slot' hslot hslot'
    exact SlotKey.text_lt_iff source bucket hslot hslot'

end

section Sample
local instance keysEncoding : Base64Url.Encoding := Base64Url.unpadded

theorem control_keys_distinct_sample :
    SlotKey.text ⟨⟨"node", 1⟩, "b", 9⟩ < SlotKey.text ⟨⟨"node", 1⟩, "b", 18446744073709551615⟩ ∧
      SlotKey.text ⟨⟨"node", 1⟩, "b", 0⟩ ≠ SlotKey.text ⟨⟨"node", 11⟩, "b", 0⟩ := by
  obtain ⟨hinj, -, -, horder⟩ := control_keys_distinct
  refine ⟨(horder _ _ _ _ (by decide) (by decide)).mpr (by decide), ?_⟩
  intro h
  exact absurd ((hinj _ _ (by decide) (by decide)).mp h) (by decide)

end Sample

end S3Cache.Control

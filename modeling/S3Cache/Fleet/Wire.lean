import S3Cache.Lib.ByteCodec
import S3Cache.Lib.Fallible
import S3Cache.Lib.Utf8
import S3Cache.Fleet.Charge

/-! The bounded writer and reader of donor images and deltas (`index/fleet.rs`).  A reader
is the bytes from its offset on. -/

namespace S3Cache.Fleet

open Index ByteCodec Fallible Utf8

structure Writer where
  bytes : List UInt8
  limit : Nat

namespace Writer

def new (limit : Nat) : Except ImageError Writer :=
  if limit = 0 then .error .capacity else .ok ⟨[], limit⟩

def put (w : Writer) (value : List UInt8) : Except ImageError Writer :=
  let stop := w.bytes.length + value.length
  if usizeMax < stop ∨ w.limit < stop then .error .capacity
  else .ok { w with bytes := w.bytes ++ value }

def u8 (w : Writer) (value : UInt8) : Except ImageError Writer := w.put [value]

def u32 (w : Writer) (value : Nat) : Except ImageError Writer :=
  if value < 2 ^ 32 then w.put (leBytes 4 value) else .error .capacity

def u64 (w : Writer) (value : Nat) : Except ImageError Writer := w.put (leBytes 8 value)

def i64 (w : Writer) (value : Int64) : Except ImageError Writer :=
  w.put (leBytes 8 value.toBitVec.toNat)

def text (w : Writer) (value : String) (cap : Nat) : Except ImageError Writer := do
  if value.utf8ByteSize = 0 ∨ cap < value.utf8ByteSize then .error .capacity else
  let w ← w.u32 value.utf8ByteSize
  w.put (utf8 value)

end Writer

structure Reader where
  unread : List UInt8

namespace Reader

def take (r : Reader) (count : Nat) : Except ImageError (List UInt8 × Reader) :=
  if count ≤ r.unread.length then .ok (r.unread.take count, ⟨r.unread.drop count⟩)
  else .error .corrupt

def u8 (r : Reader) : Except ImageError (UInt8 × Reader) := do
  let (part, r) ← r.take 1
  return (part.headD 0, r)

def u32 (r : Reader) : Except ImageError (Nat × Reader) := do
  let (raw, r) ← r.take 4
  return (ofLeBytes raw, r)

def u64 (r : Reader) : Except ImageError (Nat × Reader) := do
  let (raw, r) ← r.take 8
  return (ofLeBytes raw, r)

def i64 (r : Reader) : Except ImageError (Int64 × Reader) := do
  let (raw, r) ← r.take 8
  return (Int64.ofBitVec (BitVec.ofNat 64 (ofLeBytes raw)), r)

def text (r : Reader) (cap : Nat) : Except ImageError (String × Reader) := do
  let (size, r) ← r.u32
  if size = 0 ∨ cap < size then .error .capacity else
  let (raw, r) ← r.take size
  match String.fromUTF8? ⟨raw.toArray⟩ with
  | some text => return (text, r)
  | none => .error .corrupt

end Reader

structure DecodeBudget where
  used : Nat
  limit : Nat
  deriving DecidableEq

def DecodeBudget.new (limit : Nat) : Except ImageError DecodeBudget :=
  if limit = 0 then .error .capacity else .ok ⟨0, limit⟩

def DecodeBudget.take (b : DecodeBudget) (bytes : Nat) : Except ImageError DecodeBudget := do
  let used ← checked (b.used + bytes)
  if b.limit < used then .error .capacity else return { b with used }

/-- The `ETag` parser of the S3 library. -/
class ETagReader where
  parse : String → Option ETag

/-- The `ETag` parser of the S3 library, which reads back every `ETag` text. -/
class ETagParser where
  parse : String → Option ETag
  parse_etagText : ∀ e, parse (etagText e) = some e

instance ETagParser.toReader [ETagParser] : ETagReader := ⟨ETagParser.parse⟩

def ETagReads [ETagReader] (etag : Option ETag) : Prop :=
  ∀ t ∈ etag, ETagReader.parse (etagText t) = some t

theorem ETagParser.reads [ETagParser] (etag : Option ETag) : ETagReads etag :=
  fun t _ => ETagParser.parse_etagText t

@[reducible] def sampleETagParser : ETagParser where
  parse text :=
    match text.toList with
    | '"' :: value => some (.strong (String.ofList value.dropLast))
    | 'W' :: '/' :: '"' :: value => some (.weak (String.ofList value.dropLast))
    | _ => none
  parse_etagText e := by
    cases e <;> simp [etagText, etagWire, String.toList_append]

theorem etagText_injective : Function.Injective etagText := fun a b h => by
  have ha := sampleETagParser.parse_etagText a
  rw [h, sampleETagParser.parse_etagText b] at ha
  exact (Option.some.inj ha).symm

def timestamp (w : Writer) (value : SystemTime) : Except ImageError Writer :=
  match value.sinceEpoch with
  | none => .error .corrupt
  | some duration => do
    let w ← w.u64 (duration / 1000000000)
    w.u32 (duration % 1000000000)

def readTimestamp (r : Reader) : Except ImageError (SystemTime × Reader) := do
  let (seconds, r) ← r.u64
  let (nanos, r) ← r.u32
  if 1000000000 ≤ nanos then .error .corrupt else
  match SystemTime.unixEpoch.checkedAdd (seconds * 1000000000 + nanos) with
  | some time => return (time, r)
  | none => .error .corrupt

def writeEtag (w : Writer) (value : ETag) (cap : Nat) : Except ImageError Writer := do
  let len ← etagTextLen value
  if cap < len then .error .capacity else
  let w ← w.u32 len
  let w ← w.put (utf8 (etagWire value).1)
  let w ← w.put (utf8 (etagWire value).2)
  w.put (utf8 "\"")

def writeSize (w : Writer) : Option Int64 → Except ImageError Writer
  | some size =>
    if 0 ≤ size then do
      let w ← w.u8 1
      w.i64 size
    else .error .corrupt
  | none => w.u8 0

def writeEtagField (w : Writer) (nameBytes : Nat) : Option ETag → Except ImageError Writer
  | some etag => do
    let w ← w.u8 1
    writeEtag w etag nameBytes
  | none => w.u8 0

def writeEntry (w : Writer) (key : String) (entry : ObjEntry) (nameBytes : Nat) :
    Except ImageError Writer := do
  let w ← w.text key nameBytes
  let w ← writeSize w entry.size
  let w ← timestamp w entry.lastModified
  let w ← writeEtagField w nameBytes entry.etag
  w.text entry.storageClass.name nameBytes

def readSize (r : Reader) : Except ImageError (Option Int64 × Reader) := do
  let (flag, r) ← r.u8
  match flag with
  | 0 => return (none, r)
  | 1 =>
    let (size, r) ← r.i64
    if size < 0 then .error .corrupt else return (some size, r)
  | _ => .error .corrupt

def readEtagField (r : Reader) (nameBytes : Nat) : Except ImageError (Option String × Reader) := do
  let (flag, r) ← r.u8
  match flag with
  | 0 => return (none, r)
  | 1 =>
    let (raw, r) ← r.text nameBytes
    return (some raw, r)
  | _ => .error .corrupt

section
variable [ETagReader]

def parseEtag : Option String → Except ImageError (Option ETag)
  | none => .ok none
  | some raw =>
    match ETagReader.parse raw with
    | some etag => .ok (some etag)
    | none => .error .corrupt

def readEntry [Layout] (r : Reader) (budget : DecodeBudget) (nameBytes : Nat) :
    Except ImageError ((String × ObjEntry) × Reader × DecodeBudget) := do
  let (key, r) ← r.text nameBytes
  let (size, r) ← readSize r
  let (lastModified, r) ← readTimestamp r
  let (etag, r) ← readEtagField r nameBytes
  let (storage, r) ← r.text nameBytes
  let charge ← entryCharge key.utf8ByteSize (etag.map String.utf8ByteSize) storage.utf8ByteSize
  let budget ← budget.take charge
  let etag ← parseEtag etag
  return ((key, ⟨size, lastModified, etag, ⟨storage⟩, none, none⟩), r, budget)

end

end S3Cache.Fleet

import S3Cache.Codec.LegacyLaws
import S3Cache.Lib.Fallible
import S3Cache.Lib.Postcard
import S3Cache.Tier.Object

/-! The records of the warm tier (`tier.rs`).  The current frame is a postcard header ahead of
the raw body; the earlier frame has a bincode 1 header, and the original layout is one bincode 1
tuple. -/

namespace S3Cache.Tier

open Index ByteCodec Utf8 Legacy Fallible

/-- How the types of the S3 library are written in the bincode 1 layout. -/
class LegacyForms where
  eTag : Form ETag
  timestamp : Form SystemTime

structure WarmHeader extends ObjectMeta where
  key : CacheKey
  bodyLen : UInt64
  deriving DecidableEq

/-- `codec::to_vec` and `codec::from_slice` at the header. -/
class HeaderCodec where
  toVec : WarmHeader → Option (List UInt8)
  fromSlice : List UInt8 → Option WarmHeader
  fromSlice_toVec : ∀ {header bytes}, toVec header = some bytes → fromSlice bytes = some header

inductive WarmError
  | message (text : String)
  | codec
  | legacy (error : Legacy.Error)
  deriving DecidableEq

inductive WarmFault
  | refused (error : WarmError)
  | panicked
  deriving DecidableEq

def asU64 (n : Nat) : UInt64 := if n < 2 ^ 64 then .ofNat n else .ofNat (2 ^ 64 - 1)

namespace WarmHeader

def capture (key : CacheKey) (object : FullObject) : WarmHeader :=
  { object.toObjectMeta with key, bodyLen := asU64 object.body.length }

def finish (header : WarmHeader) (body : List UInt8) : CacheKey × FullObject :=
  (header.key, { header.toObjectMeta with body })

end WarmHeader

/-! ### Slices of a record -/

def warmMagic : List UInt8 := utf8 "S3CWRM02"

def legacyWarmMagic : List UInt8 := utf8 "S3CWRM01"

def warmPrefixLen : Nat := 12

def refuseWith {α : Type} (text : String) : Except WarmFault α := .error (.refused (.message text))

def sliceRange (bytes : List UInt8) (start stop : Nat) : Except WarmFault (List UInt8) :=
  match getRange bytes start stop with
  | some part => .ok part
  | none => .error .panicked

def fromLegacy {α : Type} : Except Legacy.Fault α → Except WarmFault α
  | .ok a => .ok a
  | .error (.refused e) => .error (.refused (.legacy e))
  | .error .panicked => .error .panicked

def magicOf (bytes : List UInt8) : List UInt8 := (getRange bytes 0 warmMagic.length).getD []

def framed (bytes : List UInt8) : Bool :=
  magicOf bytes = warmMagic ∨ magicOf bytes = legacyWarmMagic

structure Borrowed where
  bytes : List UInt8
  after : Nat
  deriving DecidableEq

def legacyBody (bytes : List UInt8) (body : Borrowed) : Except WarmFault (List UInt8) :=
  if body.bytes.isEmpty then .ok []
  else if bytes.length < body.after + body.bytes.length then
    refuseWith "legacy warm body is outside its record"
  else
    let start := bytes.length - (body.after + body.bytes.length)
    if bytes.length < start + body.bytes.length then refuseWith "legacy warm body is truncated"
    else sliceRange bytes start (start + body.bytes.length)

/-! ### The bincode 1 layouts -/

def readKey : Decode CacheKey := both (element Form.text.read) (element Form.text.read)

def writeKey (key : CacheKey) : List UInt8 := Form.text.write key.1 ++ Form.text.write key.2

theorem reads_key {key : CacheKey} (h : Fits (writeKey key)) : Reads readKey (writeKey key) key :=
  (Form.text.reads h.left).element.both (Form.text.reads h.right).element

theorem readKey_of_lt {r : Reader} (h : r.input.length < 8) :
    element readKey r = .error (.refused .truncated) r.count.count := by
  have hstr : Reader.str r.count.count = .error (.refused .truncated) r.count.count :=
    Reader.str_of_lt h
  have htext : element Form.text.read r.count = .error (.refused .truncated) r.count.count := by
    rw [element_apply]
    exact bind_of_error hstr
  rw [element_apply]
  exact bind_of_error htext

section Legacy

variable [LegacyForms]

namespace ObjectMeta

def read : Decode ObjectMeta := do
  let contentLength ← Form.i64.readOption
  let contentType ← Form.text.readOption
  let eTag ← LegacyForms.eTag.readOption
  let lastModified ← LegacyForms.timestamp.readOption
  let cacheControl ← Form.text.readOption
  let contentEncoding ← Form.text.readOption
  let contentLanguage ← Form.text.readOption
  let contentDisposition ← Form.text.readOption
  let acceptRanges ← Form.text.readOption
  let metadata ← Form.textMap.readOption
  return { contentLength, contentType, eTag, lastModified, cacheControl, contentEncoding
           contentLanguage, contentDisposition, acceptRanges, metadata }

def write (m : ObjectMeta) : List UInt8 :=
  Form.i64.writeOption m.contentLength ++ Form.text.writeOption m.contentType ++
  LegacyForms.eTag.writeOption m.eTag ++ LegacyForms.timestamp.writeOption m.lastModified ++
  Form.text.writeOption m.cacheControl ++ Form.text.writeOption m.contentEncoding ++
  Form.text.writeOption m.contentLanguage ++ Form.text.writeOption m.contentDisposition ++
  Form.text.writeOption m.acceptRanges ++ Form.textMap.writeOption m.metadata

theorem reads (m : ObjectMeta) (h : Fits m.write) : Reads read m.write m := by
  simp only [write, List.append_assoc] at h ⊢
  refine Form.i64.reads_field h fun h => ?_
  refine Form.text.reads_field h fun h => ?_
  refine LegacyForms.eTag.reads_field h fun h => ?_
  refine LegacyForms.timestamp.reads_field h fun h => ?_
  refine Form.text.reads_field h fun h => ?_
  refine Form.text.reads_field h fun h => ?_
  refine Form.text.reads_field h fun h => ?_
  refine Form.text.reads_field h fun h => ?_
  refine Form.text.reads_field h fun h => ?_
  exact (Form.textMap.reads_option h).after (Reads.pure m)

end ObjectMeta

namespace WarmHeader

def read : Decode WarmHeader := do
  let key ← element readKey
  let bodyLen ← element Form.u64.read
  let fields ← ObjectMeta.read
  return { fields with key, bodyLen }

def write (header : WarmHeader) : List UInt8 :=
  writeKey header.key ++ (Form.u64.write header.bodyLen ++ header.toObjectMeta.write)

theorem reads (header : WarmHeader) (h : Fits header.write) : Reads read header.write header :=
  (reads_key h.left).element.bind <| (Form.u64.reads h.right.left).element.bind <|
    (header.toObjectMeta.reads h.right.right).after (Reads.pure header)

end WarmHeader

def legacyRecord (key : CacheKey) (object : FullObject) : List UInt8 :=
  writeKey key ++ (leBytes 8 object.body.length ++ object.body ++ object.toObjectMeta.write)

def readLegacyObject : Decode (Borrowed × ObjectMeta) := do
  let bytes ← element Reader.bytes
  let after := (← get).input.length
  let fields ← ObjectMeta.read
  return (⟨bytes, after⟩, fields)

def readLegacyTuple : Decode (CacheKey × Borrowed × ObjectMeta) :=
  both (element readKey) (element readLegacyObject)

theorem readLegacyObject_eq (object : FullObject) (n : Nat)
    (h : Fits (leBytes 8 object.body.length ++ object.body ++ object.toObjectMeta.write)) :
    ∃ n', element readLegacyObject
        ⟨leBytes 8 object.body.length ++ object.body ++ object.toObjectMeta.write, n⟩ =
      .ok (⟨object.body, object.toObjectMeta.write.length⟩, object.toObjectMeta) ⟨[], n'⟩ := by
  obtain ⟨n₁, hbody⟩ := (Reads.bytes h.left.right).element object.toObjectMeta.write (n + 1)
  obtain ⟨n₂, hfields⟩ := object.toObjectMeta.reads h.right [] n₁
  rw [List.append_nil] at hfields
  rw [element_apply, Reader.count_mk, readLegacyObject, bind_of_ok hbody, get_bind,
    bind_of_ok hfields]
  exact ⟨n₂, rfl⟩

theorem fromSlice_legacyRecord {key : CacheKey} {object : FullObject}
    (h : Fits (legacyRecord key object)) :
    Legacy.fromSlice readLegacyTuple (legacyRecord key object) =
      .ok (key, ⟨object.body, object.toObjectMeta.write.length⟩, object.toObjectMeta) := by
  obtain ⟨n₁, hkey⟩ := (reads_key h.left).element
    (leBytes 8 object.body.length ++ object.body ++ object.toObjectMeta.write) 0
  obtain ⟨n₂, hobject⟩ := readLegacyObject_eq object n₁ h.right
  apply fromSlice_of_ok
  rw [readLegacyTuple, legacyRecord, both, bind_of_ok hkey, bind_of_ok hobject]
  rfl

/-! ### Encoding and decoding a record -/

def decodeLegacyTuple (bytes : List UInt8) : Except WarmFault (CacheKey × FullObject) := do
  let (key, legacy, fields) ← fromLegacy (Legacy.fromSlice readLegacyTuple bytes)
  let body ← legacyBody bytes legacy
  return (key, { fields with body })

variable [HeaderCodec]

def readHeader (magic headerBytes : List UInt8) : Except WarmFault WarmHeader :=
  if magic = warmMagic then
    match HeaderCodec.fromSlice headerBytes with
    | some header => .ok header
    | none => .error (.refused .codec)
  else fromLegacy (Legacy.fromSlice WarmHeader.read headerBytes)

def decodeFramed (magic bytes : List UInt8) : Except WarmFault (CacheKey × FullObject) :=
  match getRange bytes warmMagic.length warmPrefixLen with
  | none => refuseWith "truncated warm record prefix"
  | some headerLenBytes =>
    if headerLenBytes.length ≠ 4 then refuseWith "invalid warm header length"
    else
      let bodyStart := warmPrefixLen + ofLeBytes headerLenBytes
      if bytes.length < bodyStart then refuseWith "truncated warm record header"
      else do
        let headerBytes ← sliceRange bytes warmPrefixLen bodyStart
        let header ← readHeader magic headerBytes
        let body ← sliceRange bytes bodyStart bytes.length
        if asU64 body.length ≠ header.bodyLen then refuseWith "warm record body length mismatch"
        else return header.finish body

def decodeWarmRecord (bytes : List UInt8) : Except WarmFault (CacheKey × FullObject) :=
  if framed bytes then decodeFramed (magicOf bytes) bytes else decodeLegacyTuple bytes

end Legacy

/-- `none` when the complete record exceeds the cap. -/
def encodeWarmRecord [HeaderCodec] (key : CacheKey) (object : FullObject) (maxBytes : Nat) :
    Except WarmError (Option (List UInt8)) :=
  match HeaderCodec.toVec (WarmHeader.capture key object) with
  | none => .error .codec
  | some header =>
    if 2 ^ 32 ≤ header.length then .error (.message "warm record header exceeds u32")
    else
      let total := warmPrefixLen + header.length + object.body.length
      if 2 ^ 64 ≤ total then .error (.message "warm record length overflow")
      else if maxBytes < total then .ok none
      else .ok (some (warmMagic ++ leBytes 4 header.length ++ header ++ object.body))

/-! ### Records survive -/

theorem length_warmMagic : warmMagic.length = 8 := rfl

theorem magicOf_append_left {part : List UInt8} (rest : List UInt8) (h : 8 ≤ part.length) :
    magicOf (part ++ rest) = magicOf part := by
  rw [magicOf, magicOf, length_warmMagic, getRange_append_left rest h]

theorem magicOf_append {magic : List UInt8} (rest : List UInt8) (h : magic.length = 8) :
    magicOf (magic ++ rest) = magic := by
  have hmid := getRange_mid [] magic rest
  rw [List.nil_append, List.length_nil, Nat.zero_add, h] at hmid
  rw [magicOf, length_warmMagic, hmid]
  rfl

theorem asU64_inj {n m : Nat} (hn : n < 2 ^ 64 - 1) (h : asU64 n = asU64 m) : n = m := by
  have h := congrArg UInt64.toNat h
  rw [asU64, asU64, if_pos (by omega)] at h
  split at h
  · rw [UInt64.toNat_ofNat', UInt64.toNat_ofNat'] at h
    omega
  · rw [UInt64.toNat_ofNat', UInt64.toNat_ofNat'] at h
    omega

theorem sliceRange_mid (before part after : List UInt8) :
    sliceRange (before ++ part ++ after) before.length (before.length + part.length) =
      .ok part := by
  rw [sliceRange, getRange_mid]

theorem length_front {magic : List UInt8} {n : Nat} (h : magic.length = 8) :
    (magic ++ leBytes 4 n).length = warmPrefixLen := by
  rw [List.length_append, length_leBytes, h]
  rfl

theorem getRange_front {magic header body : List UInt8} {n : Nat} (h : magic.length = 8) :
    getRange (magic ++ leBytes 4 n ++ header ++ body) warmMagic.length warmPrefixLen =
      some (leBytes 4 n) := by
  have hmid := getRange_mid magic (leBytes 4 n) (header ++ body)
  rw [h, length_leBytes, ← List.append_assoc] at hmid
  exact hmid

section Laws

variable [LegacyForms] [HeaderCodec] {key : CacheKey} {object : FullObject}
  {magic header body : List UInt8}

theorem decodeFramed_eq (hmagic : magic.length = 8) (hlen : header.length < 2 ^ 32) :
    decodeFramed magic (magic ++ leBytes 4 header.length ++ header ++ body) = do
      let h ← readHeader magic header
      if asU64 body.length ≠ h.bodyLen then refuseWith "warm record body length mismatch"
      else return h.finish body := by
  have hfront : (magic ++ leBytes 4 header.length).length = warmPrefixLen := length_front hmagic
  have hheader := sliceRange_mid (magic ++ leBytes 4 header.length) header body
  have hbody := sliceRange_mid (magic ++ leBytes 4 header.length ++ header) body []
  rw [hfront] at hheader
  rw [List.append_nil, ← List.length_append, List.length_append, hfront] at hbody
  have hle : ¬ (magic ++ leBytes 4 header.length ++ header ++ body).length <
      warmPrefixLen + header.length := by
    rw [List.length_append, List.length_append, hfront]
    omega
  have hread : ofLeBytes (leBytes 4 header.length) = header.length := ofLeBytes_leBytes hlen
  rw [decodeFramed, getRange_front hmagic]
  simp only [length_leBytes, ne_eq, not_true_eq_false, if_false, hread, hle, hheader, hbody,
    bind_ok]

theorem decodeFramed_of_lt {part : List UInt8} (h : part.length < warmPrefixLen) :
    decodeFramed magic part = refuseWith "truncated warm record prefix" := by
  rw [decodeFramed, getRange_of_lt h]

theorem decodeFramed_headless {part : List UInt8} {n : Nat} (hn : n < 2 ^ 32)
    (hget : getRange part warmMagic.length warmPrefixLen = some (leBytes 4 n))
    (h : part.length < warmPrefixLen + n) :
    decodeFramed magic part = refuseWith "truncated warm record header" := by
  have hread : ofLeBytes (leBytes 4 n) = n := ofLeBytes_leBytes hn
  rw [decodeFramed, hget]
  simp only [length_leBytes, ne_eq, not_true_eq_false, if_false, hread, h, if_true]

theorem decodeWarmRecord_of_magic (bytes : List UInt8)
    (h : magicOf bytes = warmMagic ∨ magicOf bytes = legacyWarmMagic) :
    decodeWarmRecord bytes = decodeFramed (magicOf bytes) bytes := by
  rw [decodeWarmRecord, framed, decide_eq_true h, if_pos rfl]

omit [LegacyForms] in
theorem encodeWarmRecord_eq_ok {maxBytes : Nat} {record : List UInt8}
    (h : encodeWarmRecord key object maxBytes = .ok (some record)) :
    ∃ header, HeaderCodec.toVec (WarmHeader.capture key object) = some header ∧
      header.length < 2 ^ 32 ∧ object.body.length < 2 ^ 64 - 1 ∧
      record = warmMagic ++ leBytes 4 header.length ++ header ++ object.body := by
  rw [encodeWarmRecord] at h
  split at h
  · cases h
  · rename_i header hheader
    simp only [ite_error_eq_ok, not_le] at h
    obtain ⟨hlen, htotal, hrecord⟩ := h
    split at hrecord
    · cases hrecord
    · cases hrecord
      exact ⟨header, hheader, hlen, by rw [warmPrefixLen] at htotal; omega, rfl⟩

theorem decodeWarmRecord_capture
    (hheader : HeaderCodec.toVec (WarmHeader.capture key object) = some header)
    (hlen : header.length < 2 ^ 32) (body : List UInt8) :
    decodeWarmRecord (warmMagic ++ leBytes 4 header.length ++ header ++ body) =
      if asU64 body.length ≠ asU64 object.body.length then
        refuseWith "warm record body length mismatch"
      else .ok (key, { object.toObjectMeta with body }) := by
  have hmagic : magicOf (warmMagic ++ leBytes 4 header.length ++ header ++ body) = warmMagic := by
    rw [List.append_assoc, List.append_assoc, magicOf_append _ length_warmMagic]
  have hread : readHeader warmMagic header = .ok (WarmHeader.capture key object) := by
    rw [readHeader, if_pos rfl, HeaderCodec.fromSlice_toVec hheader]
  rw [decodeWarmRecord_of_magic _ (.inl hmagic), hmagic, decodeFramed_eq length_warmMagic hlen,
    hread, bind_ok]
  rfl

theorem decodeWarmRecord_short {part : List UInt8} (h : part.length < 8) :
    decodeWarmRecord part = .error (.refused (.legacy .truncated)) := by
  have hmagic : magicOf part = [] := by
    rw [magicOf, length_warmMagic, getRange_of_lt h]
    rfl
  have hframed : framed part = false := by
    rw [framed, hmagic]
    rfl
  have htuple : Legacy.fromSlice readLegacyTuple part = .error (.refused .truncated) :=
    fromSlice_of_error (bind_of_error (readKey_of_lt h))
  rw [decodeWarmRecord, hframed, if_neg Bool.false_ne_true, decodeLegacyTuple, htuple]
  rfl

theorem decodeWarmRecord_mismatch
    (hheader : HeaderCodec.toVec (WarmHeader.capture key object) = some header)
    (hlen : header.length < 2 ^ 32) (hbody : object.body.length < 2 ^ 64 - 1)
    (hne : body.length ≠ object.body.length) :
    decodeWarmRecord (warmMagic ++ leBytes 4 header.length ++ header ++ body) =
      refuseWith "warm record body length mismatch" := by
  rw [decodeWarmRecord_capture hheader hlen, if_pos]
  intro heq
  exact hne (asU64_inj hbody heq.symm).symm

theorem decodeWarmRecord_part
    (hheader : HeaderCodec.toVec (WarmHeader.capture key object) = some header)
    (hlen : header.length < 2 ^ 32) (hbody : object.body.length < 2 ^ 64 - 1)
    {part rest : List UInt8} (hrest : rest ≠ [])
    (h : part ++ rest = warmMagic ++ leBytes 4 header.length ++ header ++ object.body) :
    ∃ e, decodeWarmRecord part = .error (.refused e) := by
  by_cases hshort : part.length < 8
  · exact ⟨_, decodeWarmRecord_short hshort⟩
  have hmagic : magicOf part = warmMagic := by
    rw [← magicOf_append_left rest (Nat.le_of_not_lt hshort), h, List.append_assoc,
      List.append_assoc, magicOf_append _ length_warmMagic]
  by_cases hlenless : part.length < warmPrefixLen
  · rw [decodeWarmRecord_of_magic _ (.inl hmagic), decodeFramed_of_lt hlenless]
    exact ⟨_, rfl⟩
  by_cases hheadless : part.length < warmPrefixLen + header.length
  · have hget : getRange part warmMagic.length warmPrefixLen = some (leBytes 4 header.length) := by
      rw [← getRange_append_left rest (Nat.le_of_not_lt hlenless), h,
        getRange_front length_warmMagic]
    rw [decodeWarmRecord_of_magic _ (.inl hmagic), decodeFramed_headless hlen hget hheadless]
    exact ⟨_, rfl⟩
  -- the header is whole, so only the body is cut
  have hfront : warmMagic ++ leBytes 4 header.length ++ header <+: part := by
    refine List.prefix_of_prefix_length_le ⟨object.body, rfl⟩ ⟨rest, h⟩ ?_
    rw [List.length_append, length_front length_warmMagic]
    exact Nat.le_of_not_lt hheadless
  obtain ⟨cut, rfl⟩ := hfront
  have hcut : cut ++ rest = object.body := by
    rw [List.append_assoc _ cut rest] at h
    exact List.append_cancel_left h
  have hne : cut.length ≠ object.body.length := by
    rw [← hcut, List.length_append]
    have := List.length_pos_iff.mpr hrest
    omega
  exact ⟨_, decodeWarmRecord_mismatch hheader hlen hbody hne⟩

theorem decodeWarmRecord_encode
    (hheader : HeaderCodec.toVec (WarmHeader.capture key object) = some header)
    (hlen : header.length < 2 ^ 32) :
    decodeWarmRecord (warmMagic ++ leBytes 4 header.length ++ header ++ object.body) =
      .ok (key, object.stored) := by
  rw [decodeWarmRecord_capture hheader hlen, if_neg (not_not.mpr rfl)]
  rfl

theorem decodeWarmRecord_previous
    (hlen : (WarmHeader.capture key object).write.length < 2 ^ 32) :
    decodeWarmRecord (legacyWarmMagic ++ leBytes 4 (WarmHeader.capture key object).write.length ++
      (WarmHeader.capture key object).write ++ object.body) = .ok (key, object.stored) := by
  have hfits : Fits (WarmHeader.capture key object).write := hlen.trans (by decide)
  have hmagic : magicOf (legacyWarmMagic ++
      leBytes 4 (WarmHeader.capture key object).write.length ++
      (WarmHeader.capture key object).write ++ object.body) = legacyWarmMagic := by
    rw [List.append_assoc, List.append_assoc, magicOf_append _ rfl]
  have hread : readHeader legacyWarmMagic (WarmHeader.capture key object).write =
      .ok (WarmHeader.capture key object) := by
    rw [readHeader, if_neg (by decide), (WarmHeader.reads _ hfits).fromSlice_whole]
    rfl
  rw [decodeWarmRecord_of_magic _ (.inr hmagic), hmagic, decodeFramed_eq rfl hlen, hread, bind_ok]
  exact if_neg (not_not.mpr rfl)

/-! ### The original tuple -/

omit [HeaderCodec] in
theorem magicOf_legacyRecord (key : CacheKey) (object : FullObject) :
    magicOf (legacyRecord key object) = leBytes 8 (utf8 key.1).length := by
  have hstart : ∃ rest, legacyRecord key object = leBytes 8 (utf8 key.1).length ++ rest := by
    simp only [legacyRecord, writeKey, Form.write, Form.text, Shape.encode, List.append_assoc]
    exact ⟨_, rfl⟩
  obtain ⟨rest, hrest⟩ := hstart
  rw [hrest, magicOf_append _ (length_leBytes 8 _)]

omit [HeaderCodec] in
theorem not_framed_legacyRecord (h : key.1.utf8ByteSize < 2 ^ 56) :
    framed (legacyRecord key object) = false := by
  -- the highest byte of the length is zero, and the last of either magic is a digit
  have hlast : (leBytes 8 (utf8 key.1).length)[7]? = some 0 := by
    have hzero : (utf8 key.1).length / 256 ^ 7 = 0 := Nat.div_eq_of_lt h
    rw [leBytes_succ, hzero, List.getElem?_append_right (length_leBytes 7 _).le, length_leBytes]
    rfl
  have hne : ∀ magic : List UInt8, magic[7]? ≠ some 0 →
      magicOf (legacyRecord key object) ≠ magic := by
    intro magic hmagic heq
    rw [magicOf_legacyRecord] at heq
    exact hmagic (heq ▸ hlast)
  rw [framed, decide_eq_false_iff_not]
  rintro (heq | heq)
  · exact hne warmMagic (by decide) heq
  · exact hne legacyWarmMagic (by decide) heq

omit [HeaderCodec] in
theorem legacyBody_legacyRecord (key : CacheKey) (object : FullObject) :
    legacyBody (legacyRecord key object) ⟨object.body, object.toObjectMeta.write.length⟩ =
      .ok object.body := by
  have hmid := sliceRange_mid (writeKey key ++ leBytes 8 object.body.length) object.body
    object.toObjectMeta.write
  have hrecord : legacyRecord key object = writeKey key ++ leBytes 8 object.body.length ++
      object.body ++ object.toObjectMeta.write := by
    simp only [legacyRecord, List.append_assoc]
  rw [← hrecord] at hmid
  have hlen : (legacyRecord key object).length =
      (writeKey key ++ leBytes 8 object.body.length).length +
        (object.toObjectMeta.write.length + object.body.length) := by
    rw [hrecord, List.length_append, List.length_append]
    omega
  by_cases hempty : object.body.isEmpty
  · rw [legacyBody, if_pos hempty, List.isEmpty_iff.mp hempty]
  · simp only [legacyBody, hempty, hlen, Nat.add_sub_cancel]
    rw [if_neg Bool.false_ne_true, if_neg (by omega), if_neg (by omega)]
    exact hmid

theorem decodeWarmRecord_legacyRecord (h : key.1.utf8ByteSize < 2 ^ 56)
    (hfits : Fits (legacyRecord key object)) :
    decodeWarmRecord (legacyRecord key object) = .ok (key, object.stored) := by
  rw [decodeWarmRecord, not_framed_legacyRecord h, if_neg Bool.false_ne_true, decodeLegacyTuple,
    fromSlice_legacyRecord hfits, fromLegacy, bind_ok]
  dsimp only
  rw [legacyBody_legacyRecord, bind_ok]
  rfl

/-- A record gives its key, metadata and body back, untrusted, or it is refused. -/
theorem warm_records_survive (key : CacheKey) (object : FullObject) :
    (∀ maxBytes record, encodeWarmRecord key object maxBytes = .ok (some record) →
      decodeWarmRecord record = .ok (key, object.stored) ∧
      (∀ part rest, part ++ rest = record → rest ≠ [] →
        ∃ e, decodeWarmRecord part = .error (.refused e)) ∧
      ∀ extra, extra ≠ [] → ∃ e, decodeWarmRecord (record ++ extra) = .error (.refused e)) ∧
    (key.1.utf8ByteSize < 2 ^ 56 → (legacyRecord key object).length < 2 ^ 64 →
      framed (legacyRecord key object) = false ∧
      decodeWarmRecord (legacyRecord key object) = .ok (key, object.stored)) := by
  refine ⟨?_, fun hbucket hfits =>
    ⟨not_framed_legacyRecord hbucket, decodeWarmRecord_legacyRecord hbucket hfits⟩⟩
  intro maxBytes record hrecord
  obtain ⟨header, hheader, hlen, hbody, rfl⟩ := encodeWarmRecord_eq_ok hrecord
  refine ⟨decodeWarmRecord_encode hheader hlen, ?_, ?_⟩
  · intro part rest hpart hrest
    exact decodeWarmRecord_part hheader hlen hbody hrest hpart
  · intro extra hextra
    have hne : (object.body ++ extra).length ≠ object.body.length := by
      have := List.length_pos_iff.mpr hextra
      rw [List.length_append]
      omega
    rw [List.append_assoc _ object.body extra]
    exact ⟨_, decodeWarmRecord_mismatch hheader hlen hbody hne⟩

end Laws

/-! A codec for the header and forms for the library's types, to run the records with. -/

def timeOfBits (bits : BitVec 128) : Option SystemTime :=
  if h : -(2 ^ 63 * 1000000000) ≤ bits.toInt ∧ bits.toInt < 2 ^ 63 * 1000000000 then
    some ⟨bits.toInt, h.1, h.2⟩
  else none

theorem timeOfBits_ofInt (time : SystemTime) :
    timeOfBits (BitVec.ofInt 128 time.ns) = some time := by
  have hge := time.ge
  have hlt := time.lt
  have hint : (BitVec.ofInt 128 time.ns).toInt = time.ns :=
    BitVec.toInt_ofInt_eq_self (by decide) (by omega) (by omega)
  simp only [timeOfBits, hint, hge, hlt, and_self, dif_pos]

local instance warmForms : LegacyForms where
  eTag :=
    { shape := .enum 2 fun _ => .str
      proper := ⟨by decide, fun _ => trivial⟩
      toValue := fun
        | .strong value => ⟨⟨0, Nat.zero_lt_two⟩, value⟩
        | .weak value => ⟨⟨1, Nat.one_lt_two⟩, value⟩
      ofValue := fun
        | ⟨⟨0, _⟩, value⟩ => some (.strong value)
        | ⟨⟨1, _⟩, value⟩ => some (.weak value)
      ofValue_toValue := fun | .strong _ => rfl | .weak _ => rfl }
  timestamp :=
    { shape := .fixed .i128
      proper := trivial
      toValue := fun time => BitVec.ofInt 128 time.ns
      ofValue := timeOfBits
      ofValue_toValue := timeOfBits_ofInt }

section
open Postcard (Format)

def eTagFormat : Format ETag :=
  .tagged .u32 (fun | .strong _ => 0 | .weak _ => 1) fun
    | 0 => Format.text.map spelling (some <| .strong ·)
    | 1 => Format.text.map spelling (some <| .weak ·)
    | _ => .nothing
where
  spelling : ETag → String
    | .strong value | .weak value => value

def timeFormat : Format SystemTime :=
  (Format.uint 19 (2 ^ 128)).map (Format.zigzag ·.ns) fun n =>
    timeOfBits (BitVec.ofInt 128 (Format.unzigzag n))

def metaFormat : Format ObjectMeta :=
  let text := Format.option .text
  (Format.pair (.option .i64) (.pair text (.pair (.option eTagFormat) (.pair (.option timeFormat)
      (.pair text (.pair text (.pair text (.pair text (.pair text
        (.option (.sequence (.pair .text .text)))))))))))).map
    (fun m => (m.contentLength, m.contentType, m.eTag, m.lastModified, m.cacheControl,
      m.contentEncoding, m.contentLanguage, m.contentDisposition, m.acceptRanges, m.metadata))
    fun (length, type, eTag, modified, control, encoding, language, disposition, ranges, rest) =>
      some ⟨length, type, eTag, modified, control, encoding, language, disposition, ranges, rest⟩

def headerFormat : Format WarmHeader :=
  (Format.pair (.pair .text .text) (.pair .varint metaFormat)).map
    (fun h => (h.key, h.bodyLen.toNat, h.toObjectMeta))
    fun (key, bodyLen, fields) => some ⟨fields, key, UInt64.ofNat bodyLen⟩

end

local instance warmCodec : HeaderCodec where
  toVec := headerFormat.toVec
  fromSlice := headerFormat.fromSlice
  fromSlice_toVec := Postcard.Format.fromSlice_toVec

def sampleObject : FullObject where
  body := [104, 105]
  contentType := some "text/plain"
  eTag := some (.weak "v1")
  lastModified := some ⟨1700000000000000000, by decide, by decide⟩
  metadata := some [("k", "v")]
  trustedGen := 3

theorem warm_records_survive_sample :
    ∃ record, encodeWarmRecord ("bucket", "key") sampleObject 4096 = .ok (some record) ∧
      decodeWarmRecord record = .ok (("bucket", "key"), sampleObject.stored) ∧
      (∃ e, decodeWarmRecord (record.take 9) = .error (.refused e)) ∧
      decodeWarmRecord (legacyRecord ("bucket", "key") sampleObject) =
        .ok (("bucket", "key"), sampleObject.stored) := by
  obtain ⟨hframed, hlegacy⟩ := warm_records_survive ("bucket", "key") sampleObject
  let header := headerFormat.write (WarmHeader.capture ("bucket", "key") sampleObject)
  have hrecord : encodeWarmRecord ("bucket", "key") sampleObject 4096 =
      .ok (some (warmMagic ++ leBytes 4 header.length ++ header ++ sampleObject.body)) := by
    decide +kernel
  obtain ⟨hwhole, hpart, -⟩ := hframed 4096 _ hrecord
  refine ⟨_, hrecord, hwhole, hpart _ _ (List.take_append_drop 9 _) ?_, (hlegacy ?_ ?_).2⟩
  · decide +kernel
  · decide +kernel
  · decide +kernel

end S3Cache.Tier

import S3Cache.Fleet.WireLaws

/-! One final index effect of the donor's journal suffix and its bytes
(`index/fleet/delta.rs`). -/

namespace S3Cache.Fleet

open Index ByteCodec Fallible

inductive IndexDelta where
  | put (bucket key : String) (entry : ObjEntry)
  | delete (bucket key : String) (deletedAt : SystemTime)
  | noop
  deriving DecidableEq

namespace IndexDelta

def version : UInt8 := 1
def putTag : UInt8 := 1
def deleteTag : UInt8 := 2
def noopTag : UInt8 := 3

def encodePut (bucket key : String) (entry : ObjEntry) (maxEventBytes nameBytes : Nat) :
    Except ImageError (List UInt8) := do
  let w ← Writer.new maxEventBytes
  let w ← w.u8 version
  let w ← w.u8 putTag
  let w ← w.text bucket nameBytes
  let w ← writeEntry w key entry nameBytes
  return w.bytes

def encodeDelete (bucket key : String) (deletedAt : SystemTime) (maxEventBytes nameBytes : Nat) :
    Except ImageError (List UInt8) := do
  let w ← Writer.new maxEventBytes
  let w ← w.u8 version
  let w ← w.u8 deleteTag
  let w ← w.text bucket nameBytes
  let w ← w.text key nameBytes
  let w ← timestamp w deletedAt
  return w.bytes

def encodeNoop (maxEventBytes : Nat) : Except ImageError (List UInt8) := do
  let w ← Writer.new maxEventBytes
  let w ← w.u8 version
  let w ← w.u8 noopTag
  return w.bytes

def encodeDelta (delta : IndexDelta) (maxEventBytes nameBytes : Nat) :
    Except ImageError (List UInt8) :=
  if nameBytes = 0 ∨ maxEventBytes = 0 then .error .capacity else
  match delta with
  | put bucket key entry => encodePut bucket key entry maxEventBytes nameBytes
  | delete bucket key deletedAt => encodeDelete bucket key deletedAt maxEventBytes nameBytes
  | noop => encodeNoop maxEventBytes

section
variable [Layout] [ETagReader]

def decodeBody (tag : UInt8) (r : Reader) (nameBytes : Nat) (budget : DecodeBudget) :
    Except ImageError (IndexDelta × Reader) :=
  if tag = putTag then do
    let (bucket, r) ← r.text nameBytes
    let budget ← budget.take bucket.utf8ByteSize
    let ((key, entry), r, _) ← readEntry r budget nameBytes
    return (put bucket key entry, r)
  else if tag = deleteTag then do
    let (bucket, r) ← r.text nameBytes
    let budget ← budget.take bucket.utf8ByteSize
    let (key, r) ← r.text nameBytes
    let _ ← budget.take key.utf8ByteSize
    let (deletedAt, r) ← readTimestamp r
    return (delete bucket key deletedAt, r)
  else if tag = noopTag then .ok (noop, r)
  else .error .schema

def decodeDelta (bytes : List UInt8) (maxEventBytes nameBytes maxDecodedBytes : Nat) :
    Except ImageError IndexDelta := do
  if bytes = [] ∨ maxEventBytes < bytes.length ∨ nameBytes = 0 then .error .capacity else
  let (v, r) ← Reader.u8 ⟨bytes⟩
  if v ≠ version then .error .schema else
  let budget ← DecodeBudget.new maxDecodedBytes
  let (tag, r) ← r.u8
  let (delta, r) ← decodeBody tag r nameBytes budget
  if r.unread ≠ [] then .error .corrupt else return delta

end

def skeletal : IndexDelta → IndexDelta
  | put bucket key entry => put bucket key entry.skeletal
  | delete bucket key deletedAt => delete bucket key deletedAt
  | noop => noop

def Encodable (cap : Nat) : IndexDelta → Prop
  | put bucket key entry => TextOk bucket cap ∧ EntryOk key entry cap
  | delete bucket key deletedAt => TextOk bucket cap ∧ TextOk key cap ∧ 0 ≤ deletedAt.ns
  | noop => True

theorem Encodable.mono {cap cap' : Nat} {delta : IndexDelta} (h : delta.Encodable cap)
    (hle : cap ≤ cap') : delta.Encodable cap' := by
  cases delta with
  | put => exact ⟨h.1.mono hle, h.2.mono hle⟩
  | delete => exact ⟨h.1.mono hle, h.2.1.mono hle, h.2.2⟩
  | noop => trivial

theorem Encodable.wide {cap : Nat} {delta : IndexDelta} (h : delta.Encodable cap) :
    delta.Encodable (2 ^ 32 - 1) := by
  cases delta with
  | put => exact ⟨h.1.wide, h.2.wide⟩
  | delete => exact ⟨h.1.wide, h.2.1.wide, h.2.2⟩
  | noop => trivial

def bodyEnc : IndexDelta → List UInt8
  | put bucket key entry => putTag :: (textEnc bucket ++ entryEnc key entry)
  | delete bucket key deletedAt => deleteTag :: (textEnc bucket ++ (textEnc key ++ timeEnc deletedAt))
  | noop => [noopTag]

structure Encodes (maxEventBytes nameBytes : Nat) (delta : IndexDelta) (bytes : List UInt8) :
    Prop where
  encodable : delta.Encodable nameBytes
  eq : bytes = version :: bodyEnc delta
  length : bytes.length ≤ maxEventBytes
  nameBytes : 0 < nameBytes

section
variable {maxEvent cap : Nat} {bucket key : String} {bytes : List UInt8}

theorem encodePut_encodes {entry : ObjEntry}
    (h : encodePut bucket key entry maxEvent cap = .ok bytes) :
    Encodes maxEvent cap (put bucket key entry) bytes := by
  simp only [encodePut, bind_eq_ok] at h
  obtain ⟨w₀, h0, w₁, h1, w₂, h2, w₃, h3, w₄, h4, h5⟩ := h
  obtain rfl := new_wrote h0
  obtain ⟨hb, hw3⟩ := text_wrote h3
  obtain ⟨he, hw4⟩ := writeEntry_wrote h4
  have hw := ((put_wrote h1).trans (put_wrote h2)).trans (hw3.trans hw4)
  obtain rfl : w₄.bytes = bytes := by simpa [pure, Except.pure] using h5
  exact ⟨⟨hb, he⟩, hw.bytes, hw.fits.trans_eq hw.limit, hb.pos.trans_le hb.le⟩

theorem encodeDelete_encodes {deletedAt : SystemTime}
    (h : encodeDelete bucket key deletedAt maxEvent cap = .ok bytes) :
    Encodes maxEvent cap (delete bucket key deletedAt) bytes := by
  simp only [encodeDelete, bind_eq_ok] at h
  obtain ⟨w₀, h0, w₁, h1, w₂, h2, w₃, h3, w₄, h4, w₅, h5, h6⟩ := h
  obtain rfl := new_wrote h0
  obtain ⟨hb, hw3⟩ := text_wrote h3
  obtain ⟨hk, hw4⟩ := text_wrote h4
  obtain ⟨ht, hw5⟩ := timestamp_wrote h5
  have hw := ((put_wrote h1).trans (put_wrote h2)).trans (hw3.trans (hw4.trans hw5))
  obtain rfl : w₅.bytes = bytes := by simpa [pure, Except.pure] using h6
  exact ⟨⟨hb, hk, ht⟩, hw.bytes, hw.fits.trans_eq hw.limit, hb.pos.trans_le hb.le⟩

theorem encodeDelta_noop_encodes (h : encodeDelta noop maxEvent cap = .ok bytes) :
    Encodes maxEvent cap noop bytes := by
  simp only [encodeDelta, ite_error_eq_ok, not_or, encodeNoop, bind_eq_ok] at h
  obtain ⟨⟨hc, -⟩, w₀, h0, w₁, h1, w₂, h2, h3⟩ := h
  obtain rfl := new_wrote h0
  have hw := (put_wrote h1).trans (put_wrote h2)
  obtain rfl : w₂.bytes = bytes := by simpa [pure, Except.pure] using h3
  exact ⟨trivial, hw.bytes, hw.fits.trans_eq hw.limit, Nat.pos_of_ne_zero hc⟩

variable [Layout]

def charge (budget : DecodeBudget) : IndexDelta → Except ImageError Unit
  | put bucket key entry => do
    let budget ← budget.take bucket.utf8ByteSize
    let c ← entryCharge key.utf8ByteSize ((entry.etag.map etagText).map String.utf8ByteSize)
      entry.storageClass.name.utf8ByteSize
    let _ ← budget.take c
    return ()
  | delete bucket key _ => do
    let budget ← budget.take bucket.utf8ByteSize
    let _ ← budget.take key.utf8ByteSize
    return ()
  | noop => .ok ()

theorem charge_of_le {delta : IndexDelta} {n maxDecoded : Nat} (h : delta.Encodable n)
    (hn : n < 2 ^ 32) (hl : 5 * n + 20544 ≤ maxDecoded) :
    delta.charge ⟨0, maxDecoded⟩ = .ok () := by
  cases delta with
  | put bucket key entry =>
    obtain ⟨hb, he⟩ := h
    have hbl := hb.le
    have hetag : ∀ len ∈ (entry.etag.map etagText).map String.utf8ByteSize, len ≤ n := by
      intro len hlen
      obtain ⟨t, ht, rfl⟩ : ∃ t ∈ entry.etag, (etagText t).utf8ByteSize = len := by
        simpa using hlen
      exact (he.etag t ht).le
    obtain ⟨c, hc, hcharge⟩ := entryCharge_of_le hn he.key.le hetag he.storage.le
    rw [charge, take_of_le (by simp only [usizeMax]; omega) (by simp only; omega), bind_ok,
      hcharge, bind_ok, take_of_le (by simp only [usizeMax]; omega) (by simp only; omega)]
    rfl
  | delete bucket key deletedAt =>
    obtain ⟨hb, hk, -⟩ := h
    have hbl := hb.le
    have hkl := hk.le
    rw [charge, take_of_le (by simp only [usizeMax]; omega) (by simp only; omega), bind_ok,
      take_of_le (by simp only [usizeMax]; omega) (by simp only; omega)]
    rfl
  | noop => rfl

/-- The parser gives the effect's `ETag` back from its text. -/
def Reads [ETagReader] : IndexDelta → Prop
  | put _ _ entry => ETagReads entry.etag
  | delete _ _ _ | noop => True

omit [Layout] in
theorem reads_of_etagParser [ETagParser] (delta : IndexDelta) : delta.Reads := by
  cases delta with
  | put => exact ETagParser.reads _
  | delete | noop => trivial

theorem decodeDelta_encodes [ETagReader] {delta : IndexDelta}
    (h : Encodes maxEvent cap delta bytes) (hreads : delta.Reads) (maxDecoded : Nat) :
    decodeDelta bytes maxEvent cap maxDecoded = (do
      let budget ← DecodeBudget.new maxDecoded
      let _ ← delta.charge budget
      return delta.skeletal) := by
  have hne : bytes ≠ [] := by rw [h.eq]; simp
  have hcond : ¬ (bytes = [] ∨ maxEvent < bytes.length ∨ cap = 0) := by
    have := h.length
    have := h.nameBytes
    simp only [hne, false_or]
    omega
  have hbody : ∀ budget tag rest, delta.bodyEnc = tag :: rest →
      decodeBody tag ⟨rest⟩ cap budget =
        (do let _ ← delta.charge budget; return (delta.skeletal, ⟨[]⟩)) := by
    intro budget tag rest hrest
    have henc := h.encodable
    cases delta with
    | put bucket key entry =>
      obtain ⟨hb, he⟩ := henc
      obtain ⟨rfl, rfl⟩ := List.cons.inj hrest
      have hread := fun b => readEntry_entryEnc he hreads b []
      simp only [List.append_nil] at hread
      simp only [decodeBody, if_pos, text_textEnc hb, bind_ok, charge]
      cases budget.take bucket.utf8ByteSize with
      | error e => rfl
      | ok b =>
        simp only [bind_ok, hread]
        cases entryCharge key.utf8ByteSize ((entry.etag.map etagText).map String.utf8ByteSize)
            entry.storageClass.name.utf8ByteSize with
        | error e => rfl
        | ok c =>
          simp only [bind_ok]
          cases b.take c <;> rfl
    | delete bucket key deletedAt =>
      obtain ⟨hb, hk, ht⟩ := henc
      obtain ⟨rfl, rfl⟩ := List.cons.inj hrest
      have htime := readTimestamp_timeEnc ht []
      simp only [List.append_nil] at htime
      rw [decodeBody, if_neg (by decide), if_pos rfl]
      simp only [text_textEnc hb, bind_ok, charge]
      cases budget.take bucket.utf8ByteSize with
      | error e => rfl
      | ok b =>
        simp only [bind_ok, text_textEnc hk]
        cases b.take key.utf8ByteSize with
        | error e => rfl
        | ok c => simp only [bind_ok, htime]; rfl
    | noop =>
      obtain ⟨rfl, rfl⟩ := List.cons.inj hrest
      rfl
  obtain ⟨tag, rest, hrest⟩ : ∃ tag rest, delta.bodyEnc = tag :: rest := by
    cases delta <;> exact ⟨_, _, rfl⟩
  rw [decodeDelta, if_neg hcond, h.eq, hrest]
  simp only [u8_cons, bind_ok, ne_eq, not_true_eq_false, if_false]
  cases DecodeBudget.new maxDecoded with
  | error e => rfl
  | ok budget =>
    simp only [bind_ok, hbody budget tag rest hrest]
    cases delta.charge budget <;> rfl

variable [ETagParser]

theorem eq_skeletal_of_decodeDelta {delta decoded : IndexDelta} {maxDecoded : Nat}
    (h : Encodes maxEvent cap delta bytes)
    (hd : decodeDelta bytes maxEvent cap maxDecoded = .ok decoded) : decoded = delta.skeletal := by
  rw [decodeDelta_encodes h delta.reads_of_etagParser] at hd
  obtain ⟨budget, -, hd⟩ := bind_eq_ok.mp hd
  obtain ⟨_, -, hd⟩ := bind_eq_ok.mp hd
  cases hd
  rfl

def maxDeltaCharge : Nat := 16384 + maxEntryCharge

theorem decodeDelta_of_le {delta : IndexDelta} {maxDecoded : Nat}
    (h : Encodes maxEvent cap delta bytes) (hcap : cap ≤ 16384) (hl : maxDeltaCharge ≤ maxDecoded) :
    decodeDelta bytes maxEvent cap maxDecoded = .ok delta.skeletal := by
  have hnew : DecodeBudget.new maxDecoded = .ok ⟨0, maxDecoded⟩ :=
    if_neg (by unfold maxDeltaCharge at hl; omega)
  have hcharge : delta.charge ⟨0, maxDecoded⟩ = .ok () := by
    refine charge_of_le (h.encodable.mono hcap) (by decide) (le_trans ?_ hl)
    decide
  rw [decodeDelta_encodes h delta.reads_of_etagParser, hnew, bind_ok, hcharge]
  rfl

end

end IndexDelta

end S3Cache.Fleet

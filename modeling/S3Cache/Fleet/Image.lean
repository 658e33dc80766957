import S3Cache.Index.View

/-! The donor's image (`index/fleet.rs`, `index/fleet/snapshot.rs`): its size from the tallies
and measured row by row, the snapshot, and the codec.  `names` is the configured bucket
universe. -/

namespace S3Cache.Fleet

open Index Fallible

structure ImageCaps where
  bytes : Nat
  decodedBytes : Nat
  buckets : Nat
  rows : Nat
  nameBytes : Nat
  deriving DecidableEq

def ImageCaps.validate (c : ImageCaps) : Except ImageError ImageCaps :=
  if c.bytes = 0 ∨ 256 * 2 ^ 20 < c.bytes ∨ c.decodedBytes = 0 ∨ 2 ^ 30 < c.decodedBytes ∨
      c.buckets = 0 ∨ 4096 < c.buckets ∨ c.rows = 0 ∨ 2000000 < c.rows ∨
      c.nameBytes = 0 ∨ 16384 < c.nameBytes then .error .capacity
  else .ok c

theorem ImageCaps.validate_eq_ok {caps caps' : ImageCaps} (h : caps.validate = .ok caps') :
    caps' = caps ∧ 0 < caps.bytes ∧ caps.bytes ≤ 256 * 2 ^ 20 ∧ 0 < caps.decodedBytes ∧
      caps.decodedBytes ≤ 2 ^ 30 ∧ 0 < caps.buckets ∧ caps.buckets ≤ 4096 ∧ 0 < caps.rows ∧
      caps.rows ≤ 2000000 ∧ 0 < caps.nameBytes ∧ caps.nameBytes ≤ 16384 := by
  simp only [validate, ite_error_eq_ok, Except.ok.injEq] at h
  obtain ⟨h, rfl⟩ := h
  refine ⟨rfl, ?_⟩
  omega

structure ImageSize where
  encodedBytes : Nat
  decodedBytes : Nat
  rows : Nat
  deriving DecidableEq

def imageVersion : UInt8 := 1

def imageBucket (index : KeyIndexState) (name : String) (previous : Option String)
    (caps : ImageCaps) : Except ImageError BucketState :=
  if name.utf8ByteSize = 0 ∨ caps.nameBytes < name.utf8ByteSize ∨ previous.any (name ≤ ·) then
    .error .corrupt
  else
    match index.buckets[name]? with
    | none => .error .incomplete
    | some b =>
      if !b.synced || !b.uncertainKeys.isEmpty || b.rebuildGeneration.isSome then
        .error .incomplete
      else .ok b

def addRows (rows : Nat) (bucket : BucketState) (caps : ImageCaps) : Except ImageError Nat := do
  let rows ← checked (rows + bucket.keys.len + bucket.gone.len)
  if caps.rows < rows then .error .capacity else return rows

structure Measuring where
  budget : DecodeBudget
  encoded : Nat
  rows : Nat := 0
  previous : Option String := none

section
variable [Layout]

def sizeImage (index : KeyIndexState) (names : List String) (caps : ImageCaps)
    (bucket : Measuring → String → Except ImageError Measuring) : Except ImageError ImageSize := do
  let caps ← caps.validate
  if caps.buckets < names.length ∨ index.buckets.size ≠ names.length then .error .incomplete else
  let budget ← DecodeBudget.new caps.decodedBytes
  let charge ← stateCharge names.length
  let budget ← budget.take charge
  let m ← names.foldlM bucket { budget, encoded := headerBytes }
  if caps.bytes < m.encoded then .error .capacity else
  return ⟨m.encoded, m.budget.used, m.rows⟩

def tallyBucket (index : KeyIndexState) (caps : ImageCaps) (m : Measuring) (name : String) :
    Except ImageError Measuring := do
  let bucket ← imageBucket index name m.previous caps
  let rows ← addRows m.rows bucket caps
  let charge ← bucketCharge name.utf8ByteSize
  let budget ← m.budget.take charge
  let budget ← budget.take bucket.keys.image.decoded.toNat
  let budget ← budget.take bucket.gone.image.decoded.toNat
  let bytes ← bucketBytes name.utf8ByteSize
  let encoded ← sum [m.encoded, bytes, bucket.keys.image.encoded.toNat,
    bucket.gone.image.encoded.toNat]
  return ⟨budget, encoded, rows, some name⟩

def talliedSize (index : KeyIndexState) (names : List String) (caps : ImageCaps) :
    Except ImageError ImageSize :=
  sizeImage index names caps (tallyBucket index caps)

def measureRow (caps : ImageCaps) (m : Measuring) (row : String × ObjEntry) :
    Except ImageError Measuring := do
  let key := row.1.utf8ByteSize
  let storage := row.2.storageClass.name.utf8ByteSize
  if key = 0 ∨ caps.nameBytes < key then .error .capacity else
  if storage = 0 ∨ caps.nameBytes < storage then .error .capacity else
  let etag ← row.2.etag.mapM etagTextLen
  if etag.any (caps.nameBytes < ·) then .error .capacity else
  if row.2.size.any (· < 0) then .error .corrupt else
  let charge ← entryCharge key etag storage
  let budget ← m.budget.take charge
  let bytes ← entryBytes key row.2
  let encoded ← sum [m.encoded, bytes]
  return { m with budget, encoded }

def measureGone (caps : ImageCaps) (keys : KeyRows) (m : Measuring) (row : String × SystemTime) :
    Except ImageError Measuring := do
  let key := row.1.utf8ByteSize
  if key = 0 ∨ caps.nameBytes < key then .error .capacity else
  if (keys.get row.1).any (·.lastModified ≤ row.2) then .error .corrupt else
  let charge ← goneCharge key
  let budget ← m.budget.take charge
  let bytes ← goneBytes key
  let encoded ← sum [m.encoded, bytes]
  return { m with budget, encoded }

def measureBucket (index : KeyIndexState) (caps : ImageCaps) (m : Measuring) (name : String) :
    Except ImageError Measuring := do
  let bucket ← imageBucket index name m.previous caps
  let charge ← bucketCharge name.utf8ByteSize
  let budget ← m.budget.take charge
  let bytes ← bucketBytes name.utf8ByteSize
  let encoded ← sum [m.encoded, bytes]
  let rows ← addRows m.rows bucket caps
  let m ← bucket.keys.rows.foldlM (measureRow caps) ⟨budget, encoded, rows, some name⟩
  bucket.gone.rows.foldlM (measureGone caps bucket.keys) m

/-- The exact image size, row by row: the bytes `encode` writes and the charge `decode`
takes. -/
def measureImage (index : KeyIndexState) (names : List String) (caps : ImageCaps) :
    Except ImageError ImageSize :=
  sizeImage index names caps (measureBucket index caps)

end

/-- The transferable index at the capture point: every universe bucket's rows and
tombstones. -/
def snapshotState (index : KeyIndexState) (names : List String) :
    Except ImageError KeyIndexState :=
  names.foldlM (fun s name =>
    match index.buckets[name]? with
    | none => .error .incomplete
    | some source =>
      .ok ({ s with stats := s.stats.replace {} source.stats }.setBucket name
        { synced := true, keys := source.keys, gone := source.gone, stats := source.stats })) {}

structure Encoding where
  writer : Writer
  rows : Nat := 0
  previous : Option String := none

def writeGone (keys : KeyRows) (nameBytes : Nat) (w : Writer) (row : String × SystemTime) :
    Except ImageError Writer := do
  if (keys.get row.1).any (·.lastModified ≤ row.2) then .error .corrupt else
  let w ← w.text row.1 nameBytes
  timestamp w row.2

def encodeBucket (index : KeyIndexState) (caps : ImageCaps) (st : Encoding) (name : String) :
    Except ImageError Encoding :=
  if st.previous.any (name ≤ ·) then .error .corrupt else
  match index.buckets[name]? with
  | none => .error .incomplete
  | some bucket => do
    if !bucket.synced || !bucket.uncertainKeys.isEmpty || bucket.rebuildGeneration.isSome then
      .error .incomplete
    else
    let w ← st.writer.text name caps.nameBytes
    let rows ← addRows st.rows bucket caps
    let w ← w.u32 bucket.keys.len
    let w ← bucket.keys.rows.foldlM (fun w row => writeEntry w row.1 row.2 caps.nameBytes) w
    let w ← w.u32 bucket.gone.len
    let w ← bucket.gone.rows.foldlM (writeGone bucket.keys caps.nameBytes) w
    return ⟨w, rows, some name⟩

def encode (index : KeyIndexState) (names : List String) (caps : ImageCaps) (size : ImageSize) :
    Except ImageError (List UInt8) := do
  let caps ← caps.validate
  if caps.buckets < names.length ∨ index.buckets.size ≠ names.length then .error .incomplete else
  if caps.bytes < size.encodedBytes then .error .capacity else
  let w ← Writer.new size.encodedBytes
  let w ← w.u8 imageVersion
  let w ← w.u32 names.length
  let st ← names.foldlM (encodeBucket index caps) { writer := w }
  if st.writer.bytes.length ≠ size.encodedBytes then .error .corrupt else
  return st.writer.bytes

structure RowsDecoding where
  reader : Reader
  budget : DecodeBudget
  keys : KeyRows := {}
  stats : IndexStats := {}
  previous : Option String := none

structure GoneDecoding where
  reader : Reader
  budget : DecodeBudget
  gone : GoneRows := {}
  previous : Option String := none

structure Decoding where
  reader : Reader
  budget : DecodeBudget
  buckets : OrdMap BucketState := ∅
  stats : IndexStats := {}
  rows : Nat := 0
  previous : Option String := none

section
variable [Layout] [ETagReader]

def decodeRow (nameBytes : Nat) (st : RowsDecoding) : Except ImageError RowsDecoding := do
  let ((key, entry), reader, budget) ← readEntry st.reader st.budget nameBytes
  if st.previous.any (key ≤ ·) then .error .corrupt else
  return ⟨reader, budget, st.keys.insert key entry, st.stats.replace {} (.forEntry entry), some key⟩

omit [ETagReader] in
def decodeGone (nameBytes : Nat) (keys : KeyRows) (st : GoneDecoding) :
    Except ImageError GoneDecoding := do
  let (key, reader) ← st.reader.text nameBytes
  if st.previous.any (key ≤ ·) then .error .corrupt else
  let charge ← goneCharge key.utf8ByteSize
  let budget ← st.budget.take charge
  let (deletedAt, reader) ← readTimestamp reader
  if (keys.get key).any (·.lastModified ≤ deletedAt) then .error .corrupt else
  return ⟨reader, budget, st.gone.insert key deletedAt, some key⟩

omit [Layout] [ETagReader] in
def countRows (caps : ImageCaps) (rows count : Nat) : Except ImageError Nat := do
  let rows ← checked (rows + count)
  if caps.rows < rows then .error .capacity else return rows

def decodeBucket (caps : ImageCaps) (st : Decoding) : Except ImageError Decoding := do
  let (name, reader) ← st.reader.text caps.nameBytes
  if st.previous.any (name ≤ ·) then .error .corrupt else
  let charge ← bucketCharge name.utf8ByteSize
  let budget ← st.budget.take charge
  let (keyCount, reader) ← reader.u32
  let rows ← countRows caps st.rows keyCount
  let keyed ← iterate (decodeRow caps.nameBytes) keyCount { reader, budget }
  let (goneCount, reader) ← keyed.reader.u32
  let rows ← countRows caps rows goneCount
  let buried ← iterate (decodeGone caps.nameBytes keyed.keys) goneCount
    { reader, budget := keyed.budget }
  return {
    reader := buried.reader
    budget := buried.budget
    buckets := st.buckets.insert name
      { synced := true, keys := keyed.keys, gone := buried.gone, stats := keyed.stats }
    stats := st.stats.replace {} keyed.stats
    rows
    previous := some name }

def decode (bytes : List UInt8) (caps : ImageCaps) : Except ImageError KeyIndexState := do
  let caps ← caps.validate
  if bytes = [] ∨ caps.bytes < bytes.length then .error .capacity else
  let (version, r) ← Reader.u8 ⟨bytes⟩
  if version ≠ imageVersion then .error .schema else
  let (count, reader) ← r.u32
  if caps.buckets < count then .error .capacity else
  let budget ← DecodeBudget.new caps.decodedBytes
  let charge ← stateCharge count
  let budget ← budget.take charge
  let st ← iterate (decodeBucket caps) count { reader, budget }
  if st.reader.unread ≠ [] then .error .corrupt else
  return { buckets := st.buckets, stats := st.stats }

omit [Layout] [ETagReader] in
theorem countRows_eq_ok {caps : ImageCaps} {rows count rows' : Nat}
    (h : countRows caps rows count = .ok rows') :
    rows' = rows + count ∧ rows' ≤ caps.rows := by
  simp only [countRows, bind_eq_ok, checked_eq_ok, ite_error_eq_ok, not_lt] at h
  obtain ⟨_, ⟨-, rfl⟩, hle, h⟩ := h
  cases h
  exact ⟨rfl, hle⟩

section Inversion
variable {caps : ImageCaps}

theorem decodeRow_eq_ok {nameBytes : Nat} {st st' : RowsDecoding}
    (h : decodeRow nameBytes st = .ok st') :
    ∃ key entry reader budget,
      readEntry st.reader st.budget nameBytes = .ok ((key, entry), reader, budget) ∧
      st.previous.any (key ≤ ·) = false ∧
      st' = ⟨reader, budget, st.keys.insert key entry,
        st.stats.replace {} (.forEntry entry), some key⟩ := by
  simp only [decodeRow, bind_eq_ok, ite_error_eq_ok] at h
  obtain ⟨⟨⟨key, entry⟩, reader, budget⟩, hread, hnext, h⟩ := h
  cases h
  exact ⟨key, entry, reader, budget, hread, Bool.eq_false_iff.mpr hnext, rfl⟩

omit [ETagReader] in
theorem decodeGone_eq_ok {nameBytes : Nat} {keys : KeyRows} {st st' : GoneDecoding}
    (h : decodeGone nameBytes keys st = .ok st') :
    ∃ key deletedAt, (∀ row ∈ keys.get key, deletedAt < row.lastModified) ∧
      st'.gone = st.gone.insert key deletedAt := by
  simp only [decodeGone, bind_eq_ok, ite_error_eq_ok] at h
  obtain ⟨⟨key, r⟩, -, -, c, -, b, -, ⟨deletedAt, r'⟩, -, hlive, h⟩ := h
  cases h
  refine ⟨key, deletedAt, fun row hrow => ?_, rfl⟩
  rw [Option.mem_def.mp hrow] at hlive
  simpa using hlive

theorem decodeBucket_eq_ok {st st' : Decoding} (h : decodeBucket caps st = .ok st') :
    ∃ name n m, ∃ (rows keyed : RowsDecoding) (gone buried : GoneDecoding),
      st.previous.any (name ≤ ·) = false ∧
      (rows.keys = {} ∧ rows.stats = {} ∧ rows.previous = none) ∧
      iterate (decodeRow caps.nameBytes) n rows = .ok keyed ∧
      gone.gone = {} ∧ iterate (decodeGone caps.nameBytes keyed.keys) m gone = .ok buried ∧
      st.rows + n + m ≤ caps.rows ∧
      st' = {
        reader := buried.reader
        budget := buried.budget
        buckets := st.buckets.insert name
          { synced := true, keys := keyed.keys, gone := buried.gone, stats := keyed.stats }
        stats := st.stats.replace {} keyed.stats
        rows := st.rows + n + m
        previous := some name } := by
  simp only [decodeBucket, bind_eq_ok, ite_error_eq_ok] at h
  obtain ⟨⟨name, r⟩, -, hnext, c, -, budget, -, ⟨n, r₁⟩, -, rows, hcount, keyed, hkeyed, ⟨m, r₂⟩, -,
    rows', hcount', buried, hburied, h⟩ := h
  cases h
  obtain ⟨rfl, -⟩ := countRows_eq_ok hcount
  obtain ⟨rfl, hcap⟩ := countRows_eq_ok hcount'
  exact ⟨name, n, m, _, keyed, _, buried, Bool.eq_false_iff.mpr hnext, ⟨rfl, rfl, rfl⟩, hkeyed, rfl,
    hburied, hcap, rfl⟩

theorem decode_keeps {bytes : List UInt8} {s : KeyIndexState} (P : Decoding → Prop)
    (h : decode bytes caps = .ok s) (h0 : ∀ reader budget, P { reader, budget })
    (hstep : ∀ st st', P st → decodeBucket caps st = .ok st' → P st') :
    ∃ st, P st ∧ s = { buckets := st.buckets, stats := st.stats } := by
  simp only [decode, bind_eq_ok, ite_error_eq_ok] at h
  obtain ⟨caps', hvalid, -, ⟨v, r⟩, -, -, ⟨n, r'⟩, -, -, budget, -, c, -, budget', -, st, hst, -,
    h⟩ := h
  cases h
  obtain rfl := (ImageCaps.validate_eq_ok hvalid).1
  exact ⟨st, iterate_keeps (P := fun _ => P) (fun _ => hstep) (h0 _ _) hst, rfl⟩

end Inversion

end

end S3Cache.Fleet

import S3Cache.Fleet.Wire

/-! What the writer wrote, the reader reads back: every encoder appends a fixed byte string,
and reading that string in front of anything gives the value and leaves the rest. -/

namespace S3Cache.Fleet

open Index ByteCodec Fallible Utf8

/-- `w'` is `w` with `bs` written after what it held. -/
structure Wrote (w : Writer) (bs : List UInt8) (w' : Writer) : Prop where
  bytes : w'.bytes = w.bytes ++ bs
  limit : w'.limit = w.limit
  fits : w'.bytes.length ≤ w'.limit

theorem Wrote.trans {w w' w'' : Writer} {bs cs : List UInt8} (h : Wrote w bs w')
    (h' : Wrote w' cs w'') : Wrote w (bs ++ cs) w'' where
  bytes := by rw [h'.bytes, h.bytes, List.append_assoc]
  limit := h'.limit.trans h.limit
  fits := h'.fits

theorem Wrote.nil {w : Writer} (h : w.bytes.length ≤ w.limit) : Wrote w [] w where
  bytes := (List.append_nil _).symm
  limit := rfl
  fits := h

theorem foldlM_wrote {α : Type} {f : Writer → α → Except ImageError Writer} {enc : α → List UInt8}
    {P : α → Prop} (hf : ∀ w x w', f w x = .ok w' → P x ∧ Wrote w (enc x) w')
    {xs : List α} {w w' : Writer} (hw : w.bytes.length ≤ w.limit) (h : xs.foldlM f w = .ok w') :
    (∀ x ∈ xs, P x) ∧ Wrote w (xs.flatMap enc) w' := by
  refine foldlM_keeps (P := fun done v => (∀ x ∈ done, P x) ∧ Wrote w (done.flatMap enc) v)
    ?_ ⟨by simp, .nil hw⟩ h
  rintro done x v v' - ⟨hp, hv⟩ hstep
  obtain ⟨hx, hv'⟩ := hf v x v' hstep
  refine ⟨fun y hy => ?_, ?_⟩
  · rcases List.mem_append.mp hy with hy | hy
    · exact hp y hy
    · obtain rfl : y = x := by simpa using hy
      exact hx
  · simpa using hv.trans hv'

theorem put_wrote {w w' : Writer} {v : List UInt8} (h : w.put v = .ok w') : Wrote w v w' := by
  simp only [Writer.put, ite_error_eq_ok, not_or, not_lt, Except.ok.injEq] at h
  obtain ⟨⟨-, hl⟩, rfl⟩ := h
  exact ⟨rfl, rfl, by simpa using hl⟩

theorem u32_wrote {w w' : Writer} {n : Nat} (h : w.u32 n = .ok w') :
    n < 2 ^ 32 ∧ Wrote w (leBytes 4 n) w' := by
  unfold Writer.u32 at h
  split at h
  · exact ⟨‹_›, put_wrote h⟩
  · cases h

theorem new_wrote {limit : Nat} {w : Writer} (h : Writer.new limit = .ok w) : w = ⟨[], limit⟩ := by
  unfold Writer.new at h
  split at h <;> simp_all

structure TextOk (s : String) (cap : Nat) : Prop where
  pos : 0 < s.utf8ByteSize
  le : s.utf8ByteSize ≤ cap
  lt : s.utf8ByteSize < 2 ^ 32

theorem TextOk.mono {s : String} {cap cap' : Nat} (h : TextOk s cap) (hle : cap ≤ cap') :
    TextOk s cap' := ⟨h.pos, h.le.trans hle, h.lt⟩

theorem TextOk.wide {s : String} {cap : Nat} (h : TextOk s cap) : TextOk s (2 ^ 32 - 1) :=
  ⟨h.pos, Nat.le_sub_one_of_lt h.lt, h.lt⟩

def textEnc (s : String) : List UInt8 := leBytes 4 s.utf8ByteSize ++ utf8 s

@[simp] theorem length_textEnc (s : String) : (textEnc s).length = 4 + s.utf8ByteSize := by
  simp [textEnc]

theorem text_wrote {w w' : Writer} {s : String} {cap : Nat} (h : w.text s cap = .ok w') :
    TextOk s cap ∧ Wrote w (textEnc s) w' := by
  simp only [Writer.text, ite_error_eq_ok, not_or, not_lt, bind_eq_ok] at h
  obtain ⟨⟨h0, hc⟩, w₁, h1, h2⟩ := h
  obtain ⟨hlt, hw⟩ := u32_wrote h1
  exact ⟨⟨Nat.pos_of_ne_zero h0, hc, hlt⟩, hw.trans (put_wrote h2)⟩

@[simp] theorem take_append (bs rest : List UInt8) :
    (⟨bs ++ rest⟩ : Reader).take bs.length = .ok (bs, ⟨rest⟩) := by
  simp [Reader.take]

theorem take_of_length {bs : List UInt8} {n : Nat} (h : bs.length = n) (rest : List UInt8) :
    (⟨bs ++ rest⟩ : Reader).take n = .ok (bs, ⟨rest⟩) := h ▸ take_append bs rest

@[simp] theorem u8_cons (b : UInt8) (rest : List UInt8) :
    (⟨b :: rest⟩ : Reader).u8 = .ok (b, ⟨rest⟩) := by
  have := take_append [b] rest
  simp only [List.cons_append, List.nil_append, List.length_singleton] at this
  simp [Reader.u8, this, pure, Except.pure]

theorem u32_leBytes {n : Nat} (h : n < 2 ^ 32) (rest : List UInt8) :
    (⟨leBytes 4 n ++ rest⟩ : Reader).u32 = .ok (n, ⟨rest⟩) := by
  simp [Reader.u32, take_of_length (length_leBytes 4 n), ofLeBytes_leBytes (w := 4) h, pure,
    Except.pure]

theorem u64_leBytes {n : Nat} (h : n < 2 ^ 64) (rest : List UInt8) :
    (⟨leBytes 8 n ++ rest⟩ : Reader).u64 = .ok (n, ⟨rest⟩) := by
  simp [Reader.u64, take_of_length (length_leBytes 8 n), ofLeBytes_leBytes (w := 8) h, pure,
    Except.pure]

theorem i64_leBytes (n : Int64) (rest : List UInt8) :
    (⟨leBytes 8 n.toBitVec.toNat ++ rest⟩ : Reader).i64 = .ok (n, ⟨rest⟩) := by
  simp [Reader.i64, take_of_length (length_leBytes 8 _),
    ofLeBytes_leBytes (w := 8) n.toBitVec.isLt, pure, Except.pure]

theorem text_textEnc {s : String} {cap : Nat} (h : TextOk s cap) (rest : List UInt8) :
    (⟨textEnc s ++ rest⟩ : Reader).text cap = .ok (s, ⟨rest⟩) := by
  have h0 : ¬ (s.utf8ByteSize = 0 ∨ cap < s.utf8ByteSize) := by
    have := h.pos
    have := h.le
    omega
  have htake : (⟨utf8 s ++ rest⟩ : Reader).take s.utf8ByteSize = .ok (utf8 s, ⟨rest⟩) :=
    take_of_length (length_utf8 s) rest
  simp only [Reader.text, textEnc, List.append_assoc, u32_leBytes h.lt, bind_ok, if_neg h0, htake,
    fromUTF8_utf8]
  rfl

def timeEnc (t : SystemTime) : List UInt8 :=
  leBytes 8 (t.ns.toNat / 1000000000) ++ leBytes 4 (t.ns.toNat % 1000000000)

@[simp] theorem length_timeEnc (t : SystemTime) : (timeEnc t).length = timestampBytes := by
  simp [timeEnc, timestampBytes]

theorem timestamp_wrote {w w' : Writer} {t : SystemTime} (h : timestamp w t = .ok w') :
    0 ≤ t.ns ∧ Wrote w (timeEnc t) w' := by
  unfold timestamp at h
  split at h
  · cases h
  · next d hd =>
    rw [SystemTime.sinceEpoch_eq_some] at hd
    obtain ⟨w₁, h1, h2⟩ := bind_eq_ok.mp h
    have hw := (put_wrote h1).trans (u32_wrote h2).2
    have hns : t.ns.toNat = d := by omega
    exact ⟨by omega, by simpa only [timeEnc, hns] using hw⟩

theorem readTimestamp_timeEnc {t : SystemTime} (h : 0 ≤ t.ns) (rest : List UInt8) :
    readTimestamp ⟨timeEnc t ++ rest⟩ = .ok (t, ⟨rest⟩) := by
  have hlt := t.lt
  have hs : t.ns.toNat / 1000000000 < 2 ^ 64 := by omega
  have hn : t.ns.toNat % 1000000000 < 2 ^ 32 := by omega
  have hd : t.ns.toNat / 1000000000 * 1000000000 + t.ns.toNat % 1000000000 = t.ns.toNat :=
    Nat.div_add_mod' _ _
  have hmod : ¬ 1000000000 ≤ t.ns.toNat % 1000000000 := by omega
  rw [timeEnc, List.append_assoc]
  unfold readTimestamp
  refine bind_eq_ok.mpr ⟨_, u64_leBytes hs _, bind_eq_ok.mpr ⟨_, u32_leBytes hn _, ?_⟩⟩
  refine (if_neg hmod).trans ?_
  rw [hd, SystemTime.checkedAdd_toNat h]
  rfl

theorem take_eq_ok {b b' : DecodeBudget} {n : Nat} (h : b.take n = .ok b') :
    b.used + n ≤ usizeMax ∧ b' = { b with used := b.used + n } := by
  simp only [DecodeBudget.take, bind_eq_ok, checked_eq_ok, ite_error_eq_ok] at h
  obtain ⟨_, ⟨hu, rfl⟩, -, h⟩ := h
  cases h
  exact ⟨hu, rfl⟩

theorem take_within {b b' : DecodeBudget} {n : Nat} (h : b.take n = .ok b') :
    b'.limit = b.limit ∧ b'.used ≤ b'.limit := by
  simp only [DecodeBudget.take, bind_eq_ok, ite_error_eq_ok, not_lt] at h
  obtain ⟨used, -, hle, h⟩ := h
  cases h
  exact ⟨rfl, hle⟩

theorem take_of_le {b : DecodeBudget} {n : Nat} (hu : b.used + n ≤ usizeMax)
    (hl : b.used + n ≤ b.limit) : b.take n = .ok { b with used := b.used + n } := by
  rw [DecodeBudget.take, checked_of_le hu, bind_ok, if_neg (not_lt.mpr hl)]
  rfl

theorem writeEtag_wrote {w w' : Writer} {t : ETag} {cap : Nat} (h : writeEtag w t cap = .ok w') :
    TextOk (etagText t) cap ∧ Wrote w (textEnc (etagText t)) w' := by
  simp only [writeEtag, bind_eq_ok, ite_error_eq_ok, not_lt] at h
  obtain ⟨len, hl, hc, w₁, h1, w₂, h2, w₃, h3, h4⟩ := h
  obtain rfl := etagTextLen_eq_ok hl
  obtain ⟨hlt, hw⟩ := u32_wrote h1
  have hall := ((hw.trans (put_wrote h2)).trans (put_wrote h3)).trans (put_wrote h4)
  have hpos : 0 < (etagText t).utf8ByteSize := by
    simp only [etagText, String.utf8ByteSize_append]
    exact Nat.lt_add_left _ (by decide)
  refine ⟨⟨hpos, hc, hlt⟩, ?_⟩
  simpa only [textEnc, etagText, utf8_append, List.append_assoc] using hall

def sizeEnc : Option Int64 → List UInt8
  | some size => 1 :: leBytes 8 size.toBitVec.toNat
  | none => [0]

def etagEnc : Option ETag → List UInt8
  | some etag => 1 :: textEnc (etagText etag)
  | none => [0]

def entryEnc (key : String) (e : ObjEntry) : List UInt8 :=
  textEnc key ++ (sizeEnc e.size ++ (timeEnc e.lastModified ++ (etagEnc e.etag ++
    textEnc e.storageClass.name)))

structure EntryOk (key : String) (e : ObjEntry) (cap : Nat) : Prop where
  key : TextOk key cap
  size : ∀ size ∈ e.size, 0 ≤ size
  time : 0 ≤ e.lastModified.ns
  etag : ∀ t ∈ e.etag, TextOk (etagText t) cap
  storage : TextOk e.storageClass.name cap

theorem EntryOk.mono {key : String} {e : ObjEntry} {cap cap' : Nat} (h : EntryOk key e cap)
    (hle : cap ≤ cap') : EntryOk key e cap' :=
  ⟨h.key.mono hle, h.size, h.time, fun t ht => (h.etag t ht).mono hle, h.storage.mono hle⟩

theorem EntryOk.wide {key : String} {e : ObjEntry} {cap : Nat} (h : EntryOk key e cap) :
    EntryOk key e (2 ^ 32 - 1) :=
  ⟨h.key.wide, h.size, h.time, fun t ht => (h.etag t ht).wide, h.storage.wide⟩

theorem writeSize_wrote {w w' : Writer} {size : Option Int64} (h : writeSize w size = .ok w') :
    (∀ n ∈ size, 0 ≤ n) ∧ Wrote w (sizeEnc size) w' := by
  cases size with
  | none => exact ⟨by simp, put_wrote h⟩
  | some n =>
    simp only [writeSize] at h
    split at h
    · obtain ⟨v, hv, hv'⟩ := bind_eq_ok.mp h
      exact ⟨by simpa, (put_wrote hv).trans (put_wrote hv')⟩
    · cases h

theorem writeEtagField_wrote {w w' : Writer} {cap : Nat} {etag : Option ETag}
    (h : writeEtagField w cap etag = .ok w') :
    (∀ t ∈ etag, TextOk (etagText t) cap) ∧ Wrote w (etagEnc etag) w' := by
  cases etag with
  | none => exact ⟨by simp, put_wrote h⟩
  | some t =>
    obtain ⟨v, hv, hv'⟩ := bind_eq_ok.mp h
    obtain ⟨hok, hw⟩ := writeEtag_wrote hv'
    exact ⟨by simpa, (put_wrote hv).trans hw⟩

theorem writeEntry_wrote {w w' : Writer} {key : String} {e : ObjEntry} {cap : Nat}
    (h : writeEntry w key e cap = .ok w') : EntryOk key e cap ∧ Wrote w (entryEnc key e) w' := by
  simp only [writeEntry, bind_eq_ok] at h
  obtain ⟨w₁, h1, w₂, h2, w₃, h3, w₄, h4, h5⟩ := h
  obtain ⟨hkey, hw1⟩ := text_wrote h1
  obtain ⟨hsize, hw2⟩ := writeSize_wrote h2
  obtain ⟨htime, hw3⟩ := timestamp_wrote h3
  obtain ⟨hetag, hw4⟩ := writeEtagField_wrote h4
  obtain ⟨hstorage, hw5⟩ := text_wrote h5
  exact ⟨⟨hkey, hsize, htime, hetag, hstorage⟩,
    hw1.trans (hw2.trans (hw3.trans (hw4.trans hw5)))⟩

theorem readSize_sizeEnc {size : Option Int64} (h : ∀ n ∈ size, 0 ≤ n) (rest : List UInt8) :
    readSize ⟨sizeEnc size ++ rest⟩ = .ok (size, ⟨rest⟩) := by
  cases size with
  | none => simp [readSize, sizeEnc, pure, Except.pure]
  | some n =>
    have hn : ¬ n < 0 := Int64.not_lt.mpr (h n rfl)
    simp [readSize, sizeEnc, i64_leBytes, hn, pure, Except.pure]

theorem readEtagField_etagEnc {etag : Option ETag} {cap : Nat}
    (h : ∀ t ∈ etag, TextOk (etagText t) cap) (rest : List UInt8) :
    readEtagField ⟨etagEnc etag ++ rest⟩ cap = .ok (etag.map etagText, ⟨rest⟩) := by
  cases etag with
  | none => simp [readEtagField, etagEnc, pure, Except.pure]
  | some t => simp [readEtagField, etagEnc, text_textEnc (h t rfl), pure, Except.pure]

theorem parseEtag_map_etagText [ETagReader] {etag : Option ETag} (h : ETagReads etag) :
    parseEtag (etag.map etagText) = .ok etag := by
  cases etag with
  | none => rfl
  | some t => simp [parseEtag, h t rfl]

theorem readEntry_entryEnc [Layout] [ETagReader] {key : String} {e : ObjEntry} {cap : Nat}
    (h : EntryOk key e cap) (hetag : ETagReads e.etag) (b : DecodeBudget) (rest : List UInt8) :
    readEntry ⟨entryEnc key e ++ rest⟩ b cap = (do
      let charge ← entryCharge key.utf8ByteSize ((e.etag.map etagText).map String.utf8ByteSize)
        e.storageClass.name.utf8ByteSize
      let b ← b.take charge
      return ((key, e.skeletal), ⟨rest⟩, b)) := by
  simp only [entryEnc, List.append_assoc]
  simp only [readEntry, text_textEnc h.key, bind_ok, readSize_sizeEnc h.size,
    readTimestamp_timeEnc h.time, readEtagField_etagEnc h.etag, text_textEnc h.storage,
    parseEtag_map_etagText hetag]
  rfl

end S3Cache.Fleet

import S3Cache.Fleet.WireLaws

/-! The converses of the wire laws: a writer with room writes, and what a reader accepts is
what a writer writes. -/

namespace S3Cache.Fleet

open Index ByteCodec Fallible Utf8

/-- `f` appends `bs` to any writer with room for it. -/
def Writes (f : Writer → Except ImageError Writer) (bs : List UInt8) : Prop :=
  ∀ w : Writer, w.bytes.length + bs.length ≤ w.limit → w.limit ≤ usizeMax →
    f w = .ok { w with bytes := w.bytes ++ bs }

section
variable {f g : Writer → Except ImageError Writer} {as bs : List UInt8}

theorem Writes.bind (hf : Writes f as) (hg : Writes g bs) :
    Writes (fun w => f w >>= g) (as ++ bs) := by
  intro w hroom hmax
  rw [List.length_append] at hroom
  change (f w >>= g) = _
  rw [hf w (by omega) hmax, bind_ok, hg ⟨w.bytes ++ as, w.limit⟩ (by simp; omega) hmax,
    List.append_assoc]

theorem put_writes (bs : List UInt8) : Writes (·.put bs) bs := by
  intro w hroom hmax
  exact if_neg (by omega)

theorem u32_writes {n : Nat} (h : n < 2 ^ 32) : Writes (·.u32 n) (leBytes 4 n) := by
  intro w hroom hmax
  exact (if_pos h).trans (put_writes _ w hroom hmax)

theorem text_writes {s : String} {cap : Nat} (h : TextOk s cap) :
    Writes (·.text s cap) (textEnc s) := by
  intro w hroom hmax
  have hcond : ¬ (s.utf8ByteSize = 0 ∨ cap < s.utf8ByteSize) := by
    have := h.pos
    have := h.le
    omega
  exact (if_neg hcond).trans (((u32_writes h.lt).bind (put_writes (utf8 s))) w hroom hmax)

theorem timestamp_writes {t : SystemTime} (h : 0 ≤ t.ns) : Writes (timestamp · t) (timeEnc t) := by
  have hs : t.sinceEpoch = some t.ns.toNat := SystemTime.sinceEpoch_eq_some.mpr (by omega)
  have hn : t.ns.toNat % 1000000000 < 2 ^ 32 := by omega
  simp only [timestamp, hs]
  exact (put_writes _).bind (u32_writes hn)

theorem etagTextLen_of_lt {t : ETag} (h : (etagText t).utf8ByteSize < 2 ^ 32) :
    etagTextLen t = .ok (etagText t).utf8ByteSize := by
  have hsum : [(etagWire t).1.utf8ByteSize, (etagWire t).2.utf8ByteSize, 1].sum =
      (etagText t).utf8ByteSize := by
    cases t <;> simp [etagText, etagWire, String.utf8ByteSize_append] <;> rfl
  rw [etagTextLen, sum_of_le, hsum]
  rw [hsum, usizeMax]
  omega

theorem writeEtag_writes {t : ETag} {cap : Nat} (h : TextOk (etagText t) cap) :
    Writes (writeEtag · t cap) (textEnc (etagText t)) := by
  have hutf : utf8 (etagText t) =
      utf8 (etagWire t).1 ++ (utf8 (etagWire t).2 ++ utf8 "\"") := by
    simp only [etagText, utf8_append, List.append_assoc]
  simp only [writeEtag, etagTextLen_of_lt h.lt, bind_ok, if_neg (not_lt.mpr h.le), textEnc, hutf]
  exact (u32_writes h.lt).bind ((put_writes _).bind ((put_writes _).bind (put_writes _)))

theorem writeSize_writes {size : Option Int64} (h : ∀ n ∈ size, 0 ≤ n) :
    Writes (writeSize · size) (sizeEnc size) := by
  cases size with
  | none => exact put_writes [0]
  | some n =>
    simp only [writeSize, if_pos (h n rfl)]
    exact (put_writes [1]).bind (put_writes _)

theorem writeEtagField_writes {etag : Option ETag} {cap : Nat}
    (h : ∀ t ∈ etag, TextOk (etagText t) cap) :
    Writes (writeEtagField · cap etag) (etagEnc etag) := by
  cases etag with
  | none => exact put_writes [0]
  | some t => exact (put_writes [1]).bind (writeEtag_writes (h t rfl))

theorem writeEntry_writes {key : String} {e : ObjEntry} {cap : Nat} (h : EntryOk key e cap) :
    Writes (writeEntry · key e cap) (entryEnc key e) :=
  (text_writes h.key).bind ((writeSize_writes h.size).bind ((timestamp_writes h.time).bind
    ((writeEtagField_writes h.etag).bind (text_writes h.storage))))

theorem foldlM_writes {α : Type} {f : Writer → α → Except ImageError Writer}
    {enc : α → List UInt8} {xs : List α} (h : ∀ x ∈ xs, Writes (f · x) (enc x)) :
    Writes (fun w => xs.foldlM f w) (xs.flatMap enc) := by
  induction xs with
  | nil =>
    intro w _ _
    simp [pure, Except.pure]
  | cons x xs ih =>
    simp only [List.foldlM_cons, List.flatMap_cons]
    exact (h x List.mem_cons_self).bind (ih fun y hy => h y (List.mem_cons_of_mem x hy))

end

theorem sizeEnc_length (size : Option Int64) :
    (sizeEnc size).length = if size.isSome then 1 + 8 else 1 := by
  cases size <;> simp [sizeEnc, Nat.add_comm]

theorem etagBytes_of_ok {etag : Option ETag} {cap : Nat}
    (h : ∀ t ∈ etag, TextOk (etagText t) cap) : etagBytes etag = .ok (etagEnc etag).length := by
  cases etag with
  | none => rfl
  | some t =>
    have hlt := (h t rfl).lt
    have htext : textBytes (etagText t).utf8ByteSize = .ok (4 + (etagText t).utf8ByteSize) := by
      rw [textBytes, sum_of_le] <;> simp [usizeMax]
      omega
    simp only [etagBytes, etagTextLen_of_lt hlt, bind_ok, htext, etagEnc, List.length_cons,
      length_textEnc]
    exact congrArg Except.ok (Nat.add_comm _ _)

theorem entryBytes_of_ok {key : String} {e : ObjEntry} {cap : Nat} (h : EntryOk key e cap) :
    entryBytes key.utf8ByteSize e = .ok (entryEnc key e).length := by
  have htext : ∀ {s : String}, TextOk s cap →
      textBytes s.utf8ByteSize = .ok (4 + s.utf8ByteSize) := by
    intro s hs
    have := hs.lt
    rw [textBytes, sum_of_le] <;> simp [usizeMax]
    omega
  have hetag : (etagEnc e.etag).length < 2 ^ 33 := by
    cases he : e.etag with
    | none => simp [etagEnc]
    | some t =>
      have := (h.etag t he).lt
      simp only [etagEnc, List.length_cons, length_textEnc]
      omega
  have hk := h.key.lt
  have hs := h.storage.lt
  have hsize : (if e.size.isSome then 1 + 8 else 1) ≤ 9 := by split <;> omega
  simp only [entryBytes, etagBytes_of_ok h.etag, htext h.key, htext h.storage, bind_ok]
  rw [sum_of_le]
  · simp only [entryEnc, List.length_append, length_textEnc, length_timeEnc, sizeEnc_length,
      List.sum_cons, List.sum_nil]
    exact congrArg Except.ok (by omega)
  · simp only [List.sum_cons, List.sum_nil, timestampBytes, usizeMax]
    omega

namespace Reader

variable {r r' : Reader}

theorem take_eq_ok {n : Nat} {bs : List UInt8} (h : r.take n = .ok (bs, r')) :
    bs.length = n ∧ r.unread = bs ++ r'.unread := by
  unfold take at h
  split at h
  · next hn =>
    cases h
    exact ⟨List.length_take_of_le hn, (List.take_append_drop n r.unread).symm⟩
  · cases h

theorem u8_eq_ok {b : UInt8} (h : r.u8 = .ok (b, r')) : r.unread = b :: r'.unread := by
  obtain ⟨⟨part, r₁⟩, htake, h⟩ := bind_eq_ok.mp h
  cases h
  obtain ⟨hlen, hr⟩ := take_eq_ok htake
  obtain ⟨b, rfl⟩ := List.length_eq_one_iff.mp hlen
  exact hr

theorem le_eq_ok {w : Nat} {raw : List UInt8} (h : r.take w = .ok (raw, r')) :
    ofLeBytes raw < 256 ^ w ∧ r.unread = leBytes w (ofLeBytes raw) ++ r'.unread := by
  obtain ⟨rfl, hr⟩ := take_eq_ok h
  rw [leBytes_ofLeBytes]
  exact ⟨ofLeBytes_lt raw, hr⟩

theorem u32_eq_ok {n : Nat} (h : r.u32 = .ok (n, r')) :
    n < 2 ^ 32 ∧ r.unread = leBytes 4 n ++ r'.unread := by
  obtain ⟨⟨raw, r₁⟩, htake, h⟩ := bind_eq_ok.mp h
  cases h
  exact le_eq_ok htake

theorem u64_eq_ok {n : Nat} (h : r.u64 = .ok (n, r')) :
    n < 2 ^ 64 ∧ r.unread = leBytes 8 n ++ r'.unread := by
  obtain ⟨⟨raw, r₁⟩, htake, h⟩ := bind_eq_ok.mp h
  cases h
  exact le_eq_ok htake

theorem i64_eq_ok {n : Int64} (h : r.i64 = .ok (n, r')) :
    r.unread = leBytes 8 n.toBitVec.toNat ++ r'.unread := by
  obtain ⟨⟨raw, r₁⟩, htake, h⟩ := bind_eq_ok.mp h
  cases h
  obtain ⟨hlt, hr⟩ := le_eq_ok htake
  rw [hr, Int64.toBitVec_ofBitVec, BitVec.toNat_ofNat, Nat.mod_eq_of_lt (by omega)]

theorem text_eq_ok {s : String} {cap : Nat} (h : r.text cap = .ok (s, r')) :
    TextOk s cap ∧ r.unread = textEnc s ++ r'.unread := by
  simp only [text, bind_eq_ok, ite_error_eq_ok, not_or, not_lt] at h
  obtain ⟨⟨n, r₁⟩, hu32, ⟨hpos, hcap⟩, ⟨raw, r₂⟩, htake, h⟩ := h
  obtain ⟨hlt, hr⟩ := u32_eq_ok hu32
  obtain ⟨rfl, hr₁⟩ := take_eq_ok htake
  split at h
  · next hutf =>
    cases h
    obtain rfl : utf8 s = raw := by
      simp only [String.fromUTF8?] at hutf
      split at hutf
      · cases hutf
        rfl
      · cases hutf
    refine ⟨⟨Nat.pos_of_ne_zero hpos, hcap, hlt⟩, ?_⟩
    rw [hr, hr₁, textEnc, List.append_assoc]
    rfl
  · cases h

end Reader

section
variable {r r' : Reader}

theorem readTimestamp_eq_ok {t : SystemTime} (h : readTimestamp r = .ok (t, r')) :
    0 ≤ t.ns ∧ r.unread = timeEnc t ++ r'.unread := by
  obtain ⟨⟨secs, r₁⟩, hu64, h⟩ := bind_eq_ok.mp h
  obtain ⟨⟨nanos, r₂⟩, hu32, h⟩ := bind_eq_ok.mp h
  obtain ⟨hlt, h⟩ := ite_error_eq_ok.mp h
  cases htime : SystemTime.unixEpoch.checkedAdd (secs * 1000000000 + nanos) with
  | none =>
    rw [htime] at h
    cases h
  | some time =>
    rw [htime] at h
    cases h
    obtain ⟨-, hr⟩ := Reader.u64_eq_ok hu64
    obtain ⟨-, hr₁⟩ := Reader.u32_eq_ok hu32
    have hns := SystemTime.ns_checkedAdd htime
    have hepoch : SystemTime.unixEpoch.ns = 0 := rfl
    have hsecs : t.ns.toNat / 1000000000 = secs := by omega
    have hnanos : t.ns.toNat % 1000000000 = nanos := by omega
    refine ⟨by omega, ?_⟩
    rw [hr, hr₁, timeEnc, hsecs, hnanos, List.append_assoc]

theorem readSize_eq_ok {size : Option Int64} (h : readSize r = .ok (size, r')) :
    (∀ n ∈ size, 0 ≤ n) ∧ r.unread = sizeEnc size ++ r'.unread := by
  obtain ⟨⟨flag, r₁⟩, hu8, h⟩ := bind_eq_ok.mp h
  have hr := Reader.u8_eq_ok hu8
  simp only at h
  split at h
  · cases h
    exact ⟨by simp, hr⟩
  · simp only [bind_eq_ok, ite_error_eq_ok] at h
    obtain ⟨⟨n, r₂⟩, hi64, hpos, h⟩ := h
    cases h
    refine ⟨by simpa using Int64.not_lt.mp hpos, ?_⟩
    rw [hr, Reader.i64_eq_ok hi64]
    rfl
  · cases h

def Prints [ETagReader] : Prop := ∀ raw t, ETagReader.parse raw = some t → etagText t = raw

variable [ETagReader]

theorem readEtag_eq_ok (hprint : Prints) {raw : Option String} {etag : Option ETag} {cap : Nat}
    (h : readEtagField r cap = .ok (raw, r')) (hparse : parseEtag raw = .ok etag) :
    raw = etag.map etagText ∧ ETagReads etag ∧ (∀ t ∈ etag, TextOk (etagText t) cap) ∧
      r.unread = etagEnc etag ++ r'.unread := by
  obtain ⟨⟨flag, r₁⟩, hu8, h⟩ := bind_eq_ok.mp h
  have hr := Reader.u8_eq_ok hu8
  simp only at h
  split at h
  · cases h
    cases hparse
    exact ⟨rfl, by simp [ETagReads], by simp, hr⟩
  · obtain ⟨⟨text, r₂⟩, htext, h⟩ := bind_eq_ok.mp h
    cases h
    obtain ⟨hok, hr₁⟩ := Reader.text_eq_ok htext
    simp only [parseEtag] at hparse
    split at hparse
    · next t ht =>
      cases hparse
      obtain rfl := hprint text t ht
      refine ⟨rfl, by simpa [ETagReads] using ht, by simpa using hok, ?_⟩
      rw [hr, hr₁]
      rfl
    · cases hparse
  · cases h

theorem readEntry_eq_ok [Layout] (hprint : Prints) {key : String} {e : ObjEntry} {cap : Nat}
    {b b' : DecodeBudget} (h : readEntry r b cap = .ok ((key, e), r', b')) :
    EntryOk key e cap ∧ ETagReads e.etag ∧ r.unread = entryEnc key e ++ r'.unread ∧
    ∃ c, entryCharge key.utf8ByteSize ((e.etag.map etagText).map String.utf8ByteSize)
      e.storageClass.name.utf8ByteSize = .ok c ∧ b.take c = .ok b' := by
  simp only [readEntry, bind_eq_ok] at h
  obtain ⟨⟨key, r₁⟩, hkey, ⟨size, r₂⟩, hsize, ⟨time, r₃⟩, htime, ⟨raw, r₄⟩, hraw, ⟨storage, r₅⟩,
    hstorage, c, hc, budget, hb, etag, hparse, h⟩ := h
  cases h
  obtain ⟨hk, e1⟩ := Reader.text_eq_ok hkey
  obtain ⟨hs, e2⟩ := readSize_eq_ok hsize
  obtain ⟨ht, e3⟩ := readTimestamp_eq_ok htime
  obtain ⟨rfl, hreads, he, e4⟩ := readEtag_eq_ok hprint hraw hparse
  obtain ⟨hst, e5⟩ := Reader.text_eq_ok hstorage
  refine ⟨⟨hk, hs, ht, he, hst⟩, hreads, ?_, c, hc, hb⟩
  rw [e1, e2, e3, e4, e5]
  simp only [entryEnc, List.append_assoc]

end

end S3Cache.Fleet

import S3Cache.Fleet.Delta
import S3Cache.Fleet.WireInverse

/-! The delta codec both ways: what a donor encodes a follower decodes, and every byte string a
follower accepts is the encoding of what it makes of it. -/

namespace S3Cache.Fleet

open Index ByteCodec Fallible

section
variable {x y : List UInt8}

theorem cut_of_reads {α : Type} (read : Reader → Except ImageError (α × Reader))
    {as bs : List UInt8} {a b : α} (ha : read ⟨as ++ x⟩ = .ok (a, ⟨x⟩))
    (hb : read ⟨bs ++ y⟩ = .ok (b, ⟨y⟩)) (h : as ++ x = bs ++ y) : a = b ∧ x = y := by
  rw [h, hb] at ha
  cases ha
  exact ⟨rfl, rfl⟩

theorem textEnc_cut {s t : String} {cap cap' : Nat} (hs : TextOk s cap) (ht : TextOk t cap')
    (h : textEnc s ++ x = textEnc t ++ y) : s = t ∧ x = y :=
  cut_of_reads (·.text (max cap cap')) (text_textEnc (hs.mono (Nat.le_max_left cap cap')) x)
    (text_textEnc (ht.mono (Nat.le_max_right cap cap')) y) h

theorem textEnc_ne_empty {s : String} {cap : Nat} (hs : TextOk s cap) :
    textEnc s ++ x ≠ leBytes 4 0 ++ y := by
  intro h
  rw [textEnc, List.append_assoc] at h
  have hzero := (cut_of_reads Reader.u32 (u32_leBytes hs.lt _) (u32_leBytes (by decide) y) h).1
  exact hs.pos.ne hzero.symm

theorem timeEnc_cut {t u : SystemTime} (ht : 0 ≤ t.ns) (hu : 0 ≤ u.ns)
    (h : timeEnc t ++ x = timeEnc u ++ y) : x = y :=
  (cut_of_reads readTimestamp (readTimestamp_timeEnc ht x) (readTimestamp_timeEnc hu y) h).2

theorem timeEnc_ne_nanos {t : SystemTime} {secs nanos : Nat} (hs : secs < 2 ^ 64)
    (hn : nanos < 2 ^ 32) (hmax : 1000000000 ≤ nanos) (ht : 0 ≤ t.ns) :
    timeEnc t ++ x ≠ leBytes 8 secs ++ (leBytes 4 nanos ++ y) := by
  intro h
  have hlt := t.lt
  rw [timeEnc, List.append_assoc] at h
  obtain ⟨-, h⟩ := cut_of_reads Reader.u64 (u64_leBytes (by omega) _) (u64_leBytes hs _) h
  have hnanos := (cut_of_reads Reader.u32 (u32_leBytes (by omega) _) (u32_leBytes hn _) h).1
  omega

theorem sizeEnc_cut {a b : Option Int64} (ha : ∀ n ∈ a, 0 ≤ n) (hb : ∀ n ∈ b, 0 ≤ n)
    (h : sizeEnc a ++ x = sizeEnc b ++ y) : x = y :=
  (cut_of_reads readSize (readSize_sizeEnc ha x) (readSize_sizeEnc hb y) h).2

theorem etagEnc_cut {a b : Option ETag} {cap cap' : Nat} (ha : ∀ t ∈ a, TextOk (etagText t) cap)
    (hb : ∀ t ∈ b, TextOk (etagText t) cap') (h : etagEnc a ++ x = etagEnc b ++ y) : x = y :=
  (cut_of_reads (readEtagField · (max cap cap'))
    (readEtagField_etagEnc (fun t ht => (ha t ht).mono (Nat.le_max_left cap cap')) x)
    (readEtagField_etagEnc (fun t ht => (hb t ht).mono (Nat.le_max_right cap cap')) y) h).2

theorem entryEnc_cut {key key' : String} {e e' : ObjEntry} {cap cap' : Nat}
    (h : EntryOk key e cap) (h' : EntryOk key' e' cap')
    (heq : entryEnc key e ++ x = entryEnc key' e' ++ y) : x = y := by
  simp only [entryEnc, List.append_assoc] at heq
  obtain ⟨-, heq⟩ := textEnc_cut h.key h'.key heq
  have heq := timeEnc_cut h.time h'.time (sizeEnc_cut h.size h'.size heq)
  exact (textEnc_cut h.storage h'.storage (etagEnc_cut h.etag h'.etag heq)).2

theorem skeletal_of_readEntry [Layout] [ETagReader] {r r' : Reader} {b b' : DecodeBudget}
    {cap : Nat} {key : String} {e : ObjEntry} (h : readEntry r b cap = .ok ((key, e), r', b')) :
    e.skeletal = e := by
  simp only [readEntry, bind_eq_ok] at h
  obtain ⟨_, -, _, -, _, -, _, -, _, -, _, -, _, -, _, -, h⟩ := h
  cases h
  rfl

end

namespace IndexDelta

section
variable {cap cap' maxEvent maxDecoded : Nat} {bytes : List UInt8} {delta : IndexDelta}

theorem bodyEnc_cut {d d' : IndexDelta} {x y : List UInt8} (h : d.Encodable cap)
    (h' : d'.Encodable cap') (heq : d.bodyEnc ++ x = d'.bodyEnc ++ y) : x = y := by
  cases d with
  | put bucket key entry =>
    cases d' with
    | put bucket' key' entry' =>
      simp only [bodyEnc, List.cons_append, List.append_assoc, List.cons.injEq, true_and] at heq
      obtain ⟨-, heq⟩ := textEnc_cut h.1 h'.1 heq
      exact entryEnc_cut h.2 h'.2 heq
    | delete | noop => cases heq
  | delete bucket key deletedAt =>
    cases d' with
    | delete bucket' key' deletedAt' =>
      simp only [bodyEnc, List.cons_append, List.append_assoc, List.cons.injEq, true_and] at heq
      obtain ⟨-, heq⟩ := textEnc_cut h.1 h'.1 heq
      obtain ⟨-, heq⟩ := textEnc_cut h.2.1 h'.2.1 heq
      exact timeEnc_cut h.2.2 h'.2.2 heq
    | put | noop => cases heq
  | noop =>
    cases d' with
    | noop => exact (List.cons.inj heq).2
    | put | delete => cases heq

theorem encodeDelta_encodes (h : encodeDelta delta maxEvent cap = .ok bytes) :
    Encodes maxEvent cap delta bytes := by
  cases delta with
  | put => exact encodePut_encodes (ite_error_eq_ok.mp h).2
  | delete => exact encodeDelete_encodes (ite_error_eq_ok.mp h).2
  | noop => exact encodeDelta_noop_encodes h

theorem Encodes.encodeDelta (h : Encodes maxEvent cap delta bytes) (hmax : maxEvent ≤ usizeMax) :
    delta.encodeDelta maxEvent cap = .ok bytes := by
  obtain ⟨hencodable, rfl, hlength, hcap⟩ := h
  have hpos : maxEvent ≠ 0 := by
    rw [List.length_cons] at hlength
    omega
  have hnew : Writer.new maxEvent = .ok ⟨[], maxEvent⟩ := if_neg hpos
  unfold IndexDelta.encodeDelta
  rw [if_neg (by omega)]
  -- the version, the tag and the fields one after the other
  have hwrote : ∀ {f : Writer → Except ImageError Writer}, Writes f (version :: delta.bodyEnc) →
      (do let w ← f ⟨[], maxEvent⟩; return w.bytes) = .ok (version :: delta.bodyEnc) := by
    intro f hf
    rw [hf ⟨[], maxEvent⟩ (by simpa using hlength) hmax]
    rfl
  cases delta with
  | put bucket key entry =>
    have hw := (put_writes [version]).bind ((put_writes [putTag]).bind
      ((text_writes hencodable.1).bind (writeEntry_writes hencodable.2)))
    simpa only [encodePut, hnew, bind_ok, Writer.u8, bind_assoc] using hwrote hw
  | delete bucket key deletedAt =>
    have hw := (put_writes [version]).bind ((put_writes [deleteTag]).bind
      ((text_writes hencodable.1).bind ((text_writes hencodable.2.1).bind
        (timestamp_writes hencodable.2.2))))
    simpa only [encodeDelete, hnew, bind_ok, Writer.u8, bind_assoc] using hwrote hw
  | noop =>
    have hw := (put_writes [version]).bind (put_writes [noopTag])
    simpa only [encodeNoop, hnew, bind_ok, Writer.u8, bind_assoc] using hwrote hw

/-- Byte strings with a field no effect has: a wrong version, tag or flag, an empty text, a
negative size, or a full second of nanoseconds.  The fields before it are in order. -/
inductive Malformed : List UInt8 → Prop
  | version (v : UInt8) (rest : List UInt8) : v ≠ version → Malformed (v :: rest)
  | tag (tag : UInt8) (rest : List UInt8) : tag ≠ putTag → tag ≠ deleteTag → tag ≠ noopTag →
    Malformed (IndexDelta.version :: tag :: rest)
  | bucket (tag : UInt8) (rest : List UInt8) : tag = putTag ∨ tag = deleteTag →
    Malformed (IndexDelta.version :: tag :: (leBytes 4 0 ++ rest))
  | key (tag : UInt8) (bucket : String) (rest : List UInt8) : tag = putTag ∨ tag = deleteTag →
    TextOk bucket (2 ^ 32) →
    Malformed (IndexDelta.version :: tag :: (textEnc bucket ++ (leBytes 4 0 ++ rest)))
  | deleteNanos (bucket key : String) (secs nanos : Nat) (rest : List UInt8) :
    TextOk bucket (2 ^ 32) → TextOk key (2 ^ 32) → secs < 2 ^ 64 → nanos < 2 ^ 32 →
    1000000000 ≤ nanos →
    Malformed (IndexDelta.version :: deleteTag :: (textEnc bucket ++ (textEnc key ++
      (leBytes 8 secs ++ (leBytes 4 nanos ++ rest)))))
  | sizeFlag (bucket key : String) (flag : UInt8) (rest : List UInt8) : TextOk bucket (2 ^ 32) →
    TextOk key (2 ^ 32) → flag ≠ 0 → flag ≠ 1 →
    Malformed (IndexDelta.version :: putTag :: (textEnc bucket ++ (textEnc key ++ (flag :: rest))))
  | size (bucket key : String) (size : Int64) (rest : List UInt8) : TextOk bucket (2 ^ 32) →
    TextOk key (2 ^ 32) → size < 0 →
    Malformed (IndexDelta.version :: putTag :: (textEnc bucket ++ (textEnc key ++
      (sizeEnc (some size) ++ rest))))
  | putNanos (bucket key : String) (size : Option Int64) (secs nanos : Nat) (rest : List UInt8) :
    TextOk bucket (2 ^ 32) → TextOk key (2 ^ 32) → (∀ n ∈ size, 0 ≤ n) → secs < 2 ^ 64 →
    nanos < 2 ^ 32 → 1000000000 ≤ nanos →
    Malformed (IndexDelta.version :: putTag :: (textEnc bucket ++ (textEnc key ++ (sizeEnc size ++
      (leBytes 8 secs ++ (leBytes 4 nanos ++ rest))))))
  | etagFlag (bucket key : String) (size : Option Int64) (time : SystemTime) (flag : UInt8)
    (rest : List UInt8) : TextOk bucket (2 ^ 32) → TextOk key (2 ^ 32) → (∀ n ∈ size, 0 ≤ n) →
    0 ≤ time.ns → flag ≠ 0 → flag ≠ 1 →
    Malformed (IndexDelta.version :: putTag :: (textEnc bucket ++ (textEnc key ++ (sizeEnc size ++
      (timeEnc time ++ (flag :: rest))))))
  | etag (bucket key : String) (size : Option Int64) (time : SystemTime) (rest : List UInt8) :
    TextOk bucket (2 ^ 32) → TextOk key (2 ^ 32) → (∀ n ∈ size, 0 ≤ n) → 0 ≤ time.ns →
    Malformed (IndexDelta.version :: putTag :: (textEnc bucket ++ (textEnc key ++ (sizeEnc size ++
      (timeEnc time ++ (1 :: (leBytes 4 0 ++ rest)))))))
  | storage (bucket key : String) (size : Option Int64) (time : SystemTime) (etag : Option ETag)
    (rest : List UInt8) : TextOk bucket (2 ^ 32) → TextOk key (2 ^ 32) → (∀ n ∈ size, 0 ≤ n) →
    0 ≤ time.ns → (∀ t ∈ etag, TextOk (etagText t) (2 ^ 32)) →
    Malformed (IndexDelta.version :: putTag :: (textEnc bucket ++ (textEnc key ++ (sizeEnc size ++
      (timeEnc time ++ (etagEnc etag ++ (leBytes 4 0 ++ rest)))))))

theorem bodyEnc_of_put {rest : List UInt8} (h : delta.bodyEnc = putTag :: rest) :
    ∃ bucket key entry, delta = put bucket key entry ∧
      textEnc bucket ++ entryEnc key entry = rest := by
  cases delta with
  | put bucket key entry => exact ⟨bucket, key, entry, rfl, (List.cons.inj h).2⟩
  | delete | noop => cases h

theorem bodyEnc_of_delete {rest : List UInt8} (h : delta.bodyEnc = deleteTag :: rest) :
    ∃ bucket key deletedAt, delta = delete bucket key deletedAt ∧
      textEnc bucket ++ (textEnc key ++ timeEnc deletedAt) = rest := by
  cases delta with
  | delete bucket key deletedAt => exact ⟨bucket, key, deletedAt, rfl, (List.cons.inj h).2⟩
  | put | noop => cases h

theorem bodyEnc_of_named {tag : UInt8} {rest : List UInt8} (hencodable : delta.Encodable cap)
    (htag : tag = putTag ∨ tag = deleteTag) (h : delta.bodyEnc = tag :: rest) :
    ∃ bucket key tail, TextOk bucket cap ∧ TextOk key cap ∧
      textEnc bucket ++ (textEnc key ++ tail) = rest := by
  obtain rfl | rfl := htag
  · obtain ⟨bucket, key, entry, rfl, hrest⟩ := bodyEnc_of_put h
    exact ⟨bucket, key, _, hencodable.1, hencodable.2.key, hrest⟩
  · obtain ⟨bucket, key, deletedAt, rfl, hrest⟩ := bodyEnc_of_delete h
    exact ⟨bucket, key, _, hencodable.1, hencodable.2.1, hrest⟩

theorem bodyEnc_of_row {bucket key : String} {rest : List UInt8} (hencodable : delta.Encodable cap)
    (hbucket : TextOk bucket (2 ^ 32)) (hkey : TextOk key (2 ^ 32))
    (h : delta.bodyEnc = putTag :: (textEnc bucket ++ (textEnc key ++ rest))) :
    ∃ entry, EntryOk key entry cap ∧ sizeEnc entry.size ++ (timeEnc entry.lastModified ++
      (etagEnc entry.etag ++ textEnc entry.storageClass.name)) = rest := by
  obtain ⟨bucket', key', entry, rfl, hrest⟩ := bodyEnc_of_put h
  obtain ⟨-, hentry⟩ := textEnc_cut hencodable.1 hbucket hrest
  obtain ⟨rfl, hrow⟩ := textEnc_cut hencodable.2.key hkey hentry
  exact ⟨entry, hencodable.2, hrow⟩

theorem Malformed.not_encodes (h : Malformed bytes) : ¬ Encodes maxEvent cap delta bytes := by
  rintro ⟨hencodable, heq, -, -⟩
  cases h with
  | version v rest hv => exact hv (List.cons.inj heq).1
  | tag tag rest hput hdelete hnoop =>
    have hbody := (List.cons.inj heq).2
    cases delta with
    | put => exact hput (List.cons.inj hbody).1
    | delete => exact hdelete (List.cons.inj hbody).1
    | noop => exact hnoop (List.cons.inj hbody).1
  | bucket tag rest htag =>
    obtain ⟨bucket, key, tail, hb, -, hrest⟩ :=
      bodyEnc_of_named hencodable htag (List.cons.inj heq).2.symm
    exact textEnc_ne_empty hb hrest
  | key tag bucket' rest htag hb' =>
    obtain ⟨bucket, key, tail, hb, hk, hrest⟩ :=
      bodyEnc_of_named hencodable htag (List.cons.inj heq).2.symm
    exact textEnc_ne_empty hk (textEnc_cut hb hb' hrest).2
  | deleteNanos bucket' key' secs nanos rest hb' hk' hsecs hnanos hmax =>
    obtain ⟨bucket, key, deletedAt, rfl, hrest⟩ := bodyEnc_of_delete (List.cons.inj heq).2.symm
    obtain ⟨-, hrest⟩ := textEnc_cut hencodable.1 hb' hrest
    obtain ⟨-, hrest⟩ := textEnc_cut hencodable.2.1 hk' hrest
    rw [← List.append_nil (timeEnc deletedAt)] at hrest
    exact timeEnc_ne_nanos hsecs hnanos hmax hencodable.2.2 hrest
  | sizeFlag bucket key flag rest hb hk hzero hone =>
    obtain ⟨entry, he, hrest⟩ := bodyEnc_of_row hencodable hb hk (List.cons.inj heq).2.symm
    cases hsize : entry.size with
    | none =>
      rw [hsize] at hrest
      exact hzero (List.cons.inj hrest).1.symm
    | some n =>
      rw [hsize] at hrest
      exact hone (List.cons.inj hrest).1.symm
  | size bucket key size rest hb hk hneg =>
    obtain ⟨entry, he, hrest⟩ := bodyEnc_of_row hencodable hb hk (List.cons.inj heq).2.symm
    cases hsize : entry.size with
    | none =>
      rw [hsize] at hrest
      cases hrest
    | some n =>
      rw [hsize] at hrest
      have hn := (cut_of_reads Reader.i64 (i64_leBytes n _) (i64_leBytes size _)
        (List.cons.inj hrest).2).1
      exact Int64.not_lt.mpr (hn ▸ he.size n hsize) hneg
  | putNanos bucket key size secs nanos rest hb hk hsize hsecs hnanos hmax =>
    obtain ⟨entry, he, hrest⟩ := bodyEnc_of_row hencodable hb hk (List.cons.inj heq).2.symm
    exact timeEnc_ne_nanos hsecs hnanos hmax he.time (sizeEnc_cut he.size hsize hrest)
  | etagFlag bucket key size time flag rest hb hk hsize htime hzero hone =>
    obtain ⟨entry, he, hrest⟩ := bodyEnc_of_row hencodable hb hk (List.cons.inj heq).2.symm
    have hrest := timeEnc_cut he.time htime (sizeEnc_cut he.size hsize hrest)
    cases hetag : entry.etag with
    | none =>
      rw [hetag] at hrest
      exact hzero (List.cons.inj hrest).1.symm
    | some t =>
      rw [hetag] at hrest
      exact hone (List.cons.inj hrest).1.symm
  | etag bucket key size time rest hb hk hsize htime =>
    obtain ⟨entry, he, hrest⟩ := bodyEnc_of_row hencodable hb hk (List.cons.inj heq).2.symm
    have hrest := timeEnc_cut he.time htime (sizeEnc_cut he.size hsize hrest)
    cases hetag : entry.etag with
    | none =>
      rw [hetag] at hrest
      cases hrest
    | some t =>
      rw [hetag] at hrest
      exact textEnc_ne_empty (he.etag t hetag) (List.cons.inj hrest).2
  | storage bucket key size time etag rest hb hk hsize htime hetag =>
    obtain ⟨entry, he, hrest⟩ := bodyEnc_of_row hencodable hb hk (List.cons.inj heq).2.symm
    have hrest := etagEnc_cut he.etag hetag
      (timeEnc_cut he.time htime (sizeEnc_cut he.size hsize hrest))
    rw [← List.append_nil (textEnc entry.storageClass.name)] at hrest
    exact textEnc_ne_empty he.storage hrest

/-- The parser accepts the text of the effect's `ETag`. -/
def Accepted [ETagReader] : IndexDelta → Prop
  | put _ _ entry => ∀ t ∈ entry.etag, (ETagReader.parse (etagText t)).isSome = true
  | delete _ _ _ | noop => True

variable [Layout] [ETagReader]

theorem decodeBody_eq_ok (hprint : Prints) {tag : UInt8} {r r' : Reader} {budget : DecodeBudget}
    (h : decodeBody tag r cap budget = .ok (delta, r')) :
    delta.Encodable cap ∧ tag :: r.unread = delta.bodyEnc ++ r'.unread ∧ delta.Reads ∧
      delta.skeletal = delta := by
  unfold decodeBody at h
  split at h
  · next hput =>
    simp only [bind_eq_ok] at h
    obtain ⟨⟨bucket, r₁⟩, hbucket, b, -, ⟨⟨key, e⟩, r₂, b'⟩, hentry, h⟩ := h
    cases h
    obtain ⟨hb, e1⟩ := Reader.text_eq_ok hbucket
    obtain ⟨he, hreads, e2, -⟩ := readEntry_eq_ok hprint hentry
    refine ⟨⟨hb, he⟩, ?_, hreads, congrArg (put bucket key) (skeletal_of_readEntry hentry)⟩
    rw [e1, e2, hput, bodyEnc, List.cons_append, List.append_assoc]
  · split at h
    · next hdelete =>
      simp only [bind_eq_ok] at h
      obtain ⟨⟨bucket, r₁⟩, hbucket, b, -, ⟨key, r₂⟩, hkey, b', -, ⟨time, r₃⟩, htime, h⟩ := h
      cases h
      obtain ⟨hb, e1⟩ := Reader.text_eq_ok hbucket
      obtain ⟨hk, e2⟩ := Reader.text_eq_ok hkey
      obtain ⟨ht, e3⟩ := readTimestamp_eq_ok htime
      refine ⟨⟨hb, hk, ht⟩, ?_, trivial, rfl⟩
      rw [e1, e2, e3, hdelete, bodyEnc, List.cons_append, List.append_assoc, List.append_assoc]
    · split at h
      · next hnoop =>
        cases h
        exact ⟨trivial, by rw [hnoop]; rfl, trivial, rfl⟩
      · cases h

theorem decodeDelta_eq_ok (hprint : Prints)
    (h : decodeDelta bytes maxEvent cap maxDecoded = .ok delta) :
    Encodes maxEvent cap delta bytes ∧ delta.Reads ∧ delta.skeletal = delta := by
  simp only [decodeDelta, bind_eq_ok, ite_error_eq_ok, not_or, not_lt, not_not] at h
  obtain ⟨⟨-, hlength, hcap⟩, ⟨v, r₁⟩, hv, hversion, budget, -, ⟨tag, r₂⟩, htag, ⟨d, r₃⟩, hbody, hend,
    h⟩ := h
  obtain rfl : d = delta := Except.ok.inj h
  have e1 : bytes = v :: r₁.unread := Reader.u8_eq_ok hv
  have e2 : r₁.unread = tag :: r₂.unread := Reader.u8_eq_ok htag
  obtain ⟨hencodable, e3, hreads, hskeletal⟩ := decodeBody_eq_ok hprint hbody
  refine ⟨⟨hencodable, ?_, hlength, Nat.pos_of_ne_zero hcap⟩, hreads, hskeletal⟩
  rw [e1, e2, e3, show r₃.unread = [] from hend, List.append_nil]
  exact congrArg (· :: d.bodyEnc) hversion

omit [Layout] in
theorem reads_iff_accepted (hprint : Prints) : delta.Reads ↔ delta.Accepted := by
  cases delta with
  | delete | noop => exact Iff.rfl
  | put bucket key entry =>
    constructor
    · intro h t ht
      rw [h t ht]
      rfl
    · intro h t ht
      obtain ⟨u, hu⟩ := Option.isSome_iff_exists.mp (h t ht)
      rw [hu, etagText_injective (hprint _ u hu)]

theorem Encodes.decodeDelta (h : Encodes maxEvent cap delta bytes) (hreads : delta.Reads)
    (hl : 2 ^ 35 ≤ maxDecoded) :
    IndexDelta.decodeDelta bytes maxEvent cap maxDecoded = .ok delta.skeletal := by
  have hnew : DecodeBudget.new maxDecoded = .ok ⟨0, maxDecoded⟩ := if_neg (by omega)
  have hcharge : delta.charge ⟨0, maxDecoded⟩ = .ok () :=
    charge_of_le (n := 2 ^ 32 - 1) h.encodable.wide (by decide) (by omega)
  rw [decodeDelta_encodes h hreads, hnew, bind_ok, hcharge]
  rfl

end

/-- The delta codec is lossless and canonical.  An encoded effect is decoded within a sufficient
budget exactly when the parser accepts its `ETag`; and an accepted byte string is what its effect
encodes to, so none of its parts, extensions and malformed variants is accepted. -/
theorem delta_codec_canonical [Layout] [ETagReader] (hprint : Prints) :
    (∀ delta maxEvent cap bytes, encodeDelta delta maxEvent cap = .ok bytes →
      ∃ budget ≤ usizeMax, ∀ maxDecoded, budget ≤ maxDecoded →
        (decodeDelta bytes maxEvent cap maxDecoded = .ok delta.skeletal ↔ delta.Accepted)) ∧
    (∀ bytes maxEvent cap maxDecoded delta, maxEvent ≤ usizeMax →
      decodeDelta bytes maxEvent cap maxDecoded = .ok delta →
      delta.skeletal = delta ∧ encodeDelta delta maxEvent cap = .ok bytes ∧
      (∀ extra maxEvent' cap' maxDecoded' delta', extra ≠ [] →
        decodeDelta (bytes ++ extra) maxEvent' cap' maxDecoded' ≠ .ok delta') ∧
      ∀ part maxEvent' cap' maxDecoded' delta', part <+: bytes → part ≠ bytes →
        decodeDelta part maxEvent' cap' maxDecoded' ≠ .ok delta') ∧
    ∀ bytes maxEvent cap maxDecoded delta, Malformed bytes →
      decodeDelta bytes maxEvent cap maxDecoded ≠ .ok delta := by
  -- two accepted byte strings, one in front of the other, are one
  have hwhole : ∀ {bytes extra maxEvent cap maxDecoded delta maxEvent' cap' maxDecoded' delta'},
      decodeDelta bytes maxEvent cap maxDecoded = .ok delta →
      decodeDelta (bytes ++ extra) maxEvent' cap' maxDecoded' = .ok delta' → extra = [] := by
    intro bytes extra _ _ _ delta _ _ _ delta' h h'
    obtain ⟨⟨hencodable, rfl, -⟩, -⟩ := decodeDelta_eq_ok hprint h
    obtain ⟨⟨hencodable', heq, -⟩, -⟩ := decodeDelta_eq_ok hprint h'
    have hbody : delta.bodyEnc ++ extra = delta'.bodyEnc ++ [] := by
      rw [List.append_nil]
      exact (List.cons.inj heq).2
    exact bodyEnc_cut hencodable hencodable' hbody
  refine ⟨fun delta maxEvent cap bytes h => ?_, fun bytes maxEvent cap maxDecoded delta hmax h => ?_,
    fun bytes maxEvent cap maxDecoded delta hbad h => ?_⟩
  · have hencodes := encodeDelta_encodes h
    refine ⟨2 ^ 35, by decide, fun maxDecoded hl => ⟨fun hd => ?_, fun haccepted => ?_⟩⟩
    · have hreads := (decodeDelta_eq_ok hprint hd).2.1
      have hskeletal := (reads_iff_accepted hprint).mp hreads
      cases delta <;> exact hskeletal
    · exact hencodes.decodeDelta ((reads_iff_accepted hprint).mpr haccepted) hl
  · obtain ⟨hencodes, -, hskeletal⟩ := decodeDelta_eq_ok hprint h
    refine ⟨hskeletal, hencodes.encodeDelta hmax, fun extra _ _ _ _ hextra h' => ?_, ?_⟩
    · exact hextra (hwhole h h')
    · rintro part _ _ _ _ ⟨extra, rfl⟩ hne h'
      rw [hwhole h' h, List.append_nil] at hne
      exact hne rfl
  · exact hbad.not_encodes (decodeDelta_eq_ok hprint h).1

section Sample
local instance deltaLayout : Layout := sampleLayout

/-- A parser that accepts only what the printer prints. -/
local instance deltaReader : ETagReader :=
  ⟨fun text => (sampleETagParser.parse text).filter (etagText · = text)⟩

def samplePut : IndexDelta :=
  put "b" "k" ⟨some 7, fromMicros 20000000, some (.weak "x"), standardClass, none, none⟩

theorem delta_codec_canonical_sample :
    ∃ bytes, encodeDelta samplePut 256 64 = .ok bytes ∧ samplePut.skeletal = samplePut ∧
      (∃ budget, decodeDelta bytes 256 64 budget = .ok samplePut ∧ budget ≤ usizeMax) ∧
      (∀ delta, decodeDelta (bytes ++ [0]) 256 64 1024 ≠ .ok delta) ∧
      ∀ delta, decodeDelta [2, 3] 256 64 1024 ≠ .ok delta := by
  have hprint : Prints := by
    intro raw t h
    simpa using (Option.filter_eq_some_iff.mp h).2
  have haccepted : samplePut.Accepted := by
    intro t ht
    obtain rfl : ETag.weak "x" = t := Option.some.inj ht
    decide +kernel
  obtain ⟨hlossless, hcanonical, hmalformed⟩ := delta_codec_canonical hprint
  obtain ⟨bytes, hbytes⟩ : ∃ bytes, encodeDelta samplePut 256 64 = .ok bytes :=
    ⟨_, eq_ok_get (by decide +kernel)⟩
  obtain ⟨budget, hle, hdecode⟩ := hlossless samplePut 256 64 bytes hbytes
  have hput : decodeDelta bytes 256 64 budget = .ok samplePut :=
    (hdecode budget le_rfl).mpr haccepted
  obtain ⟨-, -, hextra, -⟩ := hcanonical bytes 256 64 budget samplePut (by decide) hput
  exact ⟨bytes, hbytes, rfl, ⟨budget, hput, hle⟩,
    fun delta => hextra [0] 256 64 1024 delta (List.cons_ne_nil _ _),
    fun delta => hmalformed _ 256 64 1024 delta (.version 2 [3] (by decide))⟩

end Sample

end IndexDelta

end S3Cache.Fleet

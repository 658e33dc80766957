import S3Cache.Fleet.ImageLaws
import S3Cache.Fleet.WireInverse
import S3Cache.Lib.Ascending

/-! The measure of an image is exact: an index measured with times the wire can carry encodes
to exactly the measured bytes. -/

namespace S3Cache.Fleet

open Index Fallible ByteCodec Ascending

def imageEnc (index : KeyIndexState) (names : List String) : List UInt8 :=
  imageVersion :: (leBytes 4 names.length ++ bucketsEnc index names)

def rowsIn (index : KeyIndexState) (names : List String) : Nat :=
  (names.map fun n => (index.bucket n).keys.len + (index.bucket n).gone.len).sum

theorem bucket_of_get {index : KeyIndexState} {name : String} {b : BucketState}
    (h : index.buckets[name]? = some b) : index.bucket name = b := by
  simp [KeyIndexState.bucket, h]

structure Measures (bs : List UInt8) (m m' : Measuring) : Prop where
  encoded : m'.encoded = m.encoded + bs.length
  rows : m'.rows = m.rows
  previous : m'.previous = m.previous
  limit : m'.budget.limit = m.budget.limit
  within : m.budget.used ≤ m.budget.limit → m'.budget.used ≤ m'.budget.limit

theorem Measures.nil (m : Measuring) : Measures [] m m := ⟨rfl, rfl, rfl, rfl, id⟩

theorem Measures.trans {as bs : List UInt8} {m m' m'' : Measuring} (h : Measures as m m')
    (h' : Measures bs m' m'') : Measures (as ++ bs) m m'' where
  encoded := by rw [h'.encoded, h.encoded, List.length_append, Nat.add_assoc]
  rows := h'.rows.trans h.rows
  previous := h'.previous.trans h.previous
  limit := h'.limit.trans h.limit
  within hw := h'.within (h.within hw)

theorem Measures.of_take {bs : List UInt8} {m : Measuring} {b : DecodeBudget} {c : Nat}
    (h : m.budget.take c = .ok b) :
    Measures bs m { m with budget := b, encoded := m.encoded + bs.length } where
  encoded := rfl
  rows := rfl
  previous := rfl
  limit := (take_within h).1
  within _ := (take_within h).2

theorem foldlM_measures {α : Type} {f : Measuring → α → Except ImageError Measuring}
    (enc : α → List UInt8) {P : α → Prop} {xs : List α}
    (hf : ∀ x ∈ xs, ∀ m m', f m x = .ok m' → P x ∧ Measures (enc x) m m') {m m' : Measuring}
    (h : xs.foldlM f m = .ok m') : (∀ x ∈ xs, P x) ∧ Measures (xs.flatMap enc) m m' := by
  refine foldlM_keeps (P := fun done t => (∀ x ∈ done, P x) ∧ Measures (done.flatMap enc) m t)
    ?_ ⟨by simp, .nil m⟩ h
  rintro done x t t' hdone ⟨hp, ht⟩ hstep
  obtain ⟨hx, ht'⟩ := hf x (hdone.subset (by simp)) t t' hstep
  refine ⟨fun y hy => ?_, by simpa using ht.trans ht'⟩
  rcases List.mem_append.mp hy with hy | hy
  · exact hp y hy
  · exact (List.mem_singleton.mp hy) ▸ hx

theorem sum_pair_eq_ok {a b n : Nat} : sum [a, b] = .ok n ↔ a + b ≤ usizeMax ∧ n = a + b := by
  have hsum : [a, b].sum = a + b := by simp
  constructor
  · intro h
    have hn := sum_eq_ok h
    simp only [sum, List.foldlM_cons, List.foldlM_nil, Nat.zero_add, bind_eq_ok,
      checked_eq_ok] at h
    obtain ⟨_, ⟨-, rfl⟩, _, ⟨hle, rfl⟩, -⟩ := h
    exact ⟨hle, hn.trans hsum⟩
  · rintro ⟨hle, rfl⟩
    rw [sum_of_le (hsum.le.trans hle), hsum]

theorem mapM_etagTextLen_of_ok {etag : Option ETag} {cap : Nat}
    (h : ∀ t ∈ etag, TextOk (etagText t) cap) :
    etag.mapM etagTextLen = .ok ((etag.map etagText).map String.utf8ByteSize) := by
  cases etag with
  | none => rfl
  | some t => simp [etagTextLen_of_lt (h t rfl).lt, Functor.map, Except.map]

section
variable [Layout] {caps : ImageCaps} {m m' : Measuring}

theorem measureRow_eq_ok_iff {row : String × ObjEntry} (hcap : caps.nameBytes < 2 ^ 32)
    (htime : 0 ≤ row.2.lastModified.ns) :
    measureRow caps m row = .ok m' ↔ EntryOk row.1 row.2 caps.nameBytes ∧
      ∃ c b, entryCharge row.1.utf8ByteSize ((row.2.etag.map etagText).map String.utf8ByteSize)
          row.2.storageClass.name.utf8ByteSize = .ok c ∧
        m.budget.take c = .ok b ∧ m.encoded + (rowEnc row).length ≤ usizeMax ∧
        m' = { m with budget := b, encoded := m.encoded + (rowEnc row).length } := by
  simp only [measureRow, ite_error_eq_ok, bind_eq_ok, not_or, not_lt]
  constructor
  · rintro ⟨⟨hk0, hk⟩, ⟨hs0, hs⟩, etag, he, hetag, hsize, c, hc, b, hb, n, hn, encoded, hsum, h⟩
    obtain rfl := mapM_etagTextLen_eq_ok he
    have hok : EntryOk row.1 row.2 caps.nameBytes :=
      { key := ⟨Nat.pos_of_ne_zero hk0, hk, by omega⟩
        size := fun n hn => by simpa [Option.mem_def.mp hn] using hsize
        time := htime
        etag := fun t ht => by
          have hle : (etagText t).utf8ByteSize ≤ caps.nameBytes := by
            simpa [Option.mem_def.mp ht] using hetag
          refine ⟨?_, hle, by omega⟩
          simp only [etagText, String.utf8ByteSize_append]
          exact Nat.lt_add_left _ (by decide)
        storage := ⟨Nat.pos_of_ne_zero hs0, hs, by omega⟩ }
    obtain rfl : (rowEnc row).length = n := by
      have := entryBytes_of_ok hok
      rw [hn] at this
      exact (Except.ok.inj this).symm
    obtain ⟨hle, rfl⟩ := sum_pair_eq_ok.mp hsum
    cases h
    exact ⟨hok, c, b, hc, hb, hle, rfl⟩
  · rintro ⟨hok, c, b, hc, hb, hle, rfl⟩
    have hk := hok.key.pos
    have hs := hok.storage.pos
    refine ⟨⟨by omega, hok.key.le⟩, ⟨by omega, hok.storage.le⟩, _, mapM_etagTextLen_of_ok hok.etag,
      ?_, ?_, c, hc, b, hb, _, entryBytes_of_ok hok, _, sum_pair_eq_ok.mpr ⟨hle, rfl⟩, rfl⟩
    · cases he : row.2.etag with
      | none => simp
      | some t => simpa using (hok.etag t he).le
    · cases hz : row.2.size with
      | none => simp
      | some n => simpa using hok.size n hz

omit [Layout] in
theorem goneBytes_of_ok {keys : KeyRows} {cap : Nat} {row : String × SystemTime}
    (h : GoneOk keys cap row) : goneBytes row.1.utf8ByteSize = .ok (goneEnc row).length := by
  have hlt := h.key.lt
  have htext : textBytes row.1.utf8ByteSize = .ok (4 + row.1.utf8ByteSize) :=
    sum_pair_eq_ok.mpr ⟨by unfold usizeMax; omega, rfl⟩
  rw [goneBytes, htext, bind_ok, goneEnc, List.length_append, length_textEnc, length_timeEnc]
  exact sum_pair_eq_ok.mpr ⟨by unfold usizeMax timestampBytes; omega, rfl⟩

theorem measureGone_eq_ok_iff {keys : KeyRows} {row : String × SystemTime}
    (hcap : caps.nameBytes < 2 ^ 32) (htime : 0 ≤ row.2.ns) :
    measureGone caps keys m row = .ok m' ↔ GoneOk keys caps.nameBytes row ∧
      ∃ c b, goneCharge row.1.utf8ByteSize = .ok c ∧ m.budget.take c = .ok b ∧
        m.encoded + (goneEnc row).length ≤ usizeMax ∧
        m' = { m with budget := b, encoded := m.encoded + (goneEnc row).length } := by
  simp only [measureGone, ite_error_eq_ok, bind_eq_ok, not_or, not_lt]
  constructor
  · rintro ⟨⟨hk0, hk⟩, hbefore, c, hc, b, hb, n, hn, encoded, hsum, h⟩
    have hok : GoneOk keys caps.nameBytes row :=
      ⟨⟨Nat.pos_of_ne_zero hk0, hk, by omega⟩, htime, fun e he => by simpa [he] using hbefore⟩
    obtain rfl : (goneEnc row).length = n := by
      have := goneBytes_of_ok hok
      rw [hn] at this
      exact (Except.ok.inj this).symm
    obtain ⟨hle, rfl⟩ := sum_pair_eq_ok.mp hsum
    cases h
    exact ⟨hok, c, b, hc, hb, hle, rfl⟩
  · rintro ⟨hok, c, b, hc, hb, hle, rfl⟩
    have hk := hok.key.pos
    refine ⟨⟨by omega, hok.key.le⟩, ?_, c, hc, b, hb, _, goneBytes_of_ok hok, _,
      sum_pair_eq_ok.mpr ⟨hle, rfl⟩, rfl⟩
    cases he : keys.get row.1 with
    | none => simp
    | some e => simpa using hok.before e he

omit [Layout] in
theorem imageBucket_eq_ok_iff {index : KeyIndexState} {name : String} {previous : Option String}
    {b : BucketState} (hcap : caps.nameBytes < 2 ^ 32) :
    imageBucket index name previous caps = .ok b ↔ TextOk name caps.nameBytes ∧
      (∀ last ∈ previous, last < name) ∧ index.buckets[name]? = some b ∧ b.synced = true ∧
      b.uncertainKeys = ∅ ∧ b.rebuildGeneration = none := by
  have hprev : ¬ (previous.any (name ≤ ·)) = true ↔ ∀ last ∈ previous, last < name := by
    cases previous <;> simp
  simp only [imageBucket, ite_error_eq_ok, not_or, not_lt, hprev]
  constructor
  · rintro ⟨⟨h0, hle, hlast⟩, h⟩
    refine ⟨⟨Nat.pos_of_ne_zero h0, hle, by omega⟩, hlast, ?_⟩
    split at h
    · cases h
    · next b' hb =>
      simp only [ite_error_eq_ok, Except.ok.injEq, Bool.or_eq_true, not_or, Bool.not_eq_true',
        Bool.not_eq_false, Std.ExtTreeMap.isEmpty_iff, Option.isSome_iff_ne_none, not_not] at h
      obtain ⟨⟨⟨hs, hu⟩, hg⟩, rfl⟩ := h
      exact ⟨hb, hs, hu, hg⟩
  · rintro ⟨hname, hlast, hb, hs, hu, hg⟩
    have h0 := hname.pos
    refine ⟨⟨by omega, hname.le, hlast⟩, ?_⟩
    simp [hb, hs, hu, hg]

omit [Layout] in
theorem addRows_eq_ok_iff {rows rows' : Nat} {b : BucketState} (hcap : caps.rows ≤ usizeMax) :
    addRows rows b caps = .ok rows' ↔
      rows + b.keys.len + b.gone.len ≤ caps.rows ∧ rows' = rows + b.keys.len + b.gone.len := by
  simp only [addRows, bind_eq_ok, checked_eq_ok, ite_error_eq_ok, not_lt]
  constructor
  · rintro ⟨_, ⟨-, rfl⟩, hle, h⟩
    cases h
    exact ⟨hle, rfl⟩
  · rintro ⟨hle, rfl⟩
    exact ⟨_, ⟨hle.trans hcap, rfl⟩, hle, rfl⟩

structure Timed (index : KeyIndexState) (names : List String) : Prop where
  rows : ∀ n ∈ names, ∀ row ∈ (index.bucket n).keys.rows, 0 ≤ row.2.lastModified.ns
  gone : ∀ n ∈ names, ∀ row ∈ (index.bucket n).gone.rows, 0 ≤ row.2.ns

structure MeasuresBucket (caps : ImageCaps) (name : String) (b : BucketState)
    (m m' : Measuring) : Prop where
  ok : BucketOk caps.nameBytes name b
  next : ∀ last ∈ m.previous, last < name
  previous : m'.previous = some name
  encoded : m'.encoded = m.encoded + (bucketEnc name b).length
  rows : m'.rows = m.rows + (b.keys.len + b.gone.len)
  rows_le : m'.rows ≤ caps.rows
  limit : m'.budget.limit = m.budget.limit
  within : m'.budget.used ≤ m'.budget.limit

theorem measureBucket_exact {index : KeyIndexState} {name : String}
    (hvalid : caps.validate = .ok caps) (htimes : Timed index [name])
    (h : measureBucket index caps m name = .ok m') :
    ∃ b, index.buckets[name]? = some b ∧ MeasuresBucket caps name b m m' := by
  obtain ⟨-, -, -, -, -, -, -, -, hrowsCap, -, hnameCap⟩ := ImageCaps.validate_eq_ok hvalid
  have hcap : caps.nameBytes < 2 ^ 32 := by omega
  simp only [measureBucket, bind_eq_ok] at h
  obtain ⟨b, hb, c, hc, budget, hbudget, bytes, hbytes, encoded, hsum, rows, hrows, m₂, hk, hg⟩ := h
  obtain ⟨hname, hnext, hget, hs, hu, hidle⟩ := (imageBucket_eq_ok_iff hcap).mp hb
  obtain ⟨hle, rfl⟩ := (addRows_eq_ok_iff (by unfold usizeMax; omega)).mp hrows
  obtain ⟨-, rfl⟩ := sum_pair_eq_ok.mp hsum
  have hbucket := bucket_of_get hget
  obtain ⟨hrowsOk, hmk⟩ := foldlM_measures rowEnc
    (P := fun row => EntryOk row.1 row.2 caps.nameBytes) (fun row hrow t t' ht => by
      have htime := htimes.rows name (by simp) row (by rwa [hbucket])
      obtain ⟨hok, c, b, -, hb, -, rfl⟩ := (measureRow_eq_ok_iff hcap htime).mp ht
      exact ⟨hok, .of_take hb⟩) hk
  obtain ⟨hgoneOk, hmg⟩ := foldlM_measures goneEnc
    (P := GoneOk b.keys caps.nameBytes) (fun row hrow t t' ht => by
      have htime := htimes.gone name (by simp) row (by rwa [hbucket])
      obtain ⟨hok, c, b, -, hb, -, rfl⟩ := (measureGone_eq_ok_iff hcap htime).mp ht
      exact ⟨hok, .of_take hb⟩) hg
  have hall := hmk.trans hmg
  have hlen : bytes = 4 + name.utf8ByteSize + 4 + 4 := by
    obtain ⟨n, hn, hbytes⟩ := bind_eq_ok.mp hbytes
    have := sum_eq_ok hbytes
    have := sum_eq_ok hn
    simp only [List.sum_cons, List.sum_nil] at *
    omega
  refine ⟨b, hget, ⟨hname, hs, hu, hidle, by omega, hrowsOk, by omega, hgoneOk⟩, hnext,
    hall.previous, ?_, ?_, ?_, ?_, hall.within (take_within hbudget).2⟩
  · rw [hall.encoded, hlen]
    simp only [bucketEnc, List.length_append, length_textEnc, length_leBytes]
    omega
  · rw [hall.rows]
    exact Nat.add_assoc _ _ _
  · rw [hall.rows]
    exact hle
  · rw [hall.limit, (take_within hbudget).1]

structure ExactSize (index : KeyIndexState) (names : List String) (caps : ImageCaps)
    (size : ImageSize) : Prop where
  valid : caps.validate = .ok caps
  count : names.length ≤ caps.buckets
  buckets : index.buckets.size = names.length
  image : ImageOk index names caps.nameBytes
  encoded : size.encodedBytes = (imageEnc index names).length
  encoded_le : size.encodedBytes ≤ caps.bytes
  decoded_le : size.decodedBytes ≤ caps.decodedBytes
  decoded_pos : 0 < size.decodedBytes
  rows : size.rows = rowsIn index names
  rows_le : size.rows ≤ caps.rows

theorem measureImage_exact {index : KeyIndexState} {names : List String} {size : ImageSize}
    (h : measureImage index names caps = .ok size) (htimes : Timed index names) :
    ExactSize index names caps size := by
  simp only [measureImage, sizeImage, bind_eq_ok, ite_error_eq_ok, not_or, not_lt, not_not] at h
  obtain ⟨caps', hvalid, ⟨hcount, hsize⟩, budget, hnew, c, hc, budget', hb, m', hm, hbytes, h⟩ := h
  obtain rfl := (ImageCaps.validate_eq_ok hvalid).1
  obtain ⟨-, -, -, -, hdec, -, hbuckets, -, hrowsCap, -, -⟩ := ImageCaps.validate_eq_ok hvalid
  cases h
  simp only [DecodeBudget.new, ite_error_eq_ok, Except.ok.injEq] at hnew
  obtain ⟨-, rfl⟩ := hnew
  have hinv := foldlM_keeps
    (P := fun done (t : Measuring) => Ascends done t.previous ∧
      (∀ n ∈ done, ∃ b, index.buckets[n]? = some b ∧ BucketOk caps'.nameBytes n b) ∧
      t.encoded = headerBytes + (bucketsEnc index done).length ∧ t.rows = rowsIn index done ∧
      t.rows ≤ caps'.rows ∧ t.budget.limit = caps'.decodedBytes ∧
      t.budget.used ≤ t.budget.limit ∧ c ≤ t.budget.used)
    (by
      rintro done n t t' hdone ⟨hasc, hok, henc, hrows, -, hlimit, hwithin, hcu⟩ hstep
      have hn : n ∈ names := hdone.subset (by simp)
      obtain ⟨b, hget, hmb⟩ := measureBucket_exact hvalid
        ⟨fun x hx => htimes.rows x (List.mem_singleton.mp hx ▸ hn),
          fun x hx => htimes.gone x (List.mem_singleton.mp hx ▸ hn)⟩ hstep
      have hbucket := bucket_of_get hget
      refine ⟨hmb.previous ▸ hasc.snoc hmb.next, fun x hx => ?_, ?_, ?_, hmb.rows_le,
        hmb.limit.trans hlimit, hmb.within, hcu.trans (measureBucket_mono hstep).1⟩
      · rcases List.mem_append.mp hx with hx | hx
        · exact hok x hx
        · exact List.mem_singleton.mp hx ▸ ⟨b, hget, hmb.ok⟩
      · rw [hmb.encoded, henc]
        simp [bucketsEnc, hbucket, Nat.add_assoc]
      · rw [hmb.rows, hrows]
        simp [rowsIn, hbucket])
    ⟨.nil, by simp, by simp [bucketsEnc], by simp [rowsIn], by simp,
      (take_within hb).1, (take_within hb).2, by rw [(take_eq_ok hb).2]; simp⟩ hm
  obtain ⟨hasc, hok, henc, hrows, hrowsLe, hlimit, hwithin, hcu⟩ := hinv
  have hpos := stateCharge_pos hc
  exact
    { valid := hvalid
      count := hcount
      buckets := hsize
      image := ⟨hasc.pairwise, by omega, hok⟩
      encoded := by
        rw [henc]
        simp [imageEnc, headerBytes]
        omega
      encoded_le := hbytes
      decoded_le := hwithin.trans_eq hlimit
      decoded_pos := hpos.trans_le hcu
      rows := hrows
      rows_le := hrowsLe }

end

theorem writeGone_writes {keys : KeyRows} {cap : Nat} {row : String × SystemTime}
    (h : GoneOk keys cap row) : Writes (writeGone keys cap · row) (goneEnc row) := by
  have hlive : ¬ ((keys.get row.1).any fun e => decide (e.lastModified ≤ row.2)) = true := by
    cases he : keys.get row.1 with
    | none => simp
    | some e => simpa using h.before e he
  simp only [writeGone, if_neg hlive]
  exact (text_writes h.key).bind (timestamp_writes h.time)

theorem encodeBucket_of_ok {index : KeyIndexState} {caps : ImageCaps} {st : Encoding}
    {name : String} {b : BucketState} (hget : index.buckets[name]? = some b)
    (hok : BucketOk caps.nameBytes name b) (hnext : ∀ last ∈ st.previous, last < name)
    (hrows : st.rows + (b.keys.len + b.gone.len) ≤ caps.rows) (hcap : caps.rows ≤ usizeMax)
    (hroom : st.writer.bytes.length + (bucketEnc name b).length ≤ st.writer.limit)
    (hmax : st.writer.limit ≤ usizeMax) :
    encodeBucket index caps st name =
      .ok ⟨{ st.writer with bytes := st.writer.bytes ++ bucketEnc name b },
        st.rows + (b.keys.len + b.gone.len), some name⟩ := by
  have hprev : ¬ (st.previous.any fun last => decide (name ≤ last)) = true := by
    cases hp : st.previous with
    | none => simp
    | some last => simpa using hnext last hp
  have hcond : ¬ (!b.synced || !b.uncertainKeys.isEmpty || b.rebuildGeneration.isSome) = true := by
    simp [hok.synced, hok.certain, hok.settled]
  have hadd : addRows st.rows b caps = .ok (st.rows + (b.keys.len + b.gone.len)) :=
    (addRows_eq_ok_iff hcap).mpr ⟨by omega, (Nat.add_assoc _ _ _).symm⟩
  have hwrites := (text_writes hok.name).bind ((u32_writes hok.keyCount).bind
    ((foldlM_writes fun row hrow => writeEntry_writes (hok.rows row hrow)).bind
      ((u32_writes hok.goneCount).bind
        (foldlM_writes fun row hrow => writeGone_writes (hok.gone row hrow)))))
  have hrun := hwrites st.writer hroom hmax
  simp only [bind_eq_ok] at hrun
  obtain ⟨w₁, h1, w₂, h2, w₃, h3, w₄, h4, h5⟩ := hrun
  simp only [encodeBucket, if_neg hprev, hget, if_neg hcond, h1, hadd, h2, h3, h4, h5, bind_ok]
  rfl

theorem encodeBuckets_of_ok {index : KeyIndexState} (caps : ImageCaps) {names : List String}
    (st : Encoding) (hasc : names.Pairwise (· < ·))
    (hok : ∀ n ∈ names, ∃ b, index.buckets[n]? = some b ∧ BucketOk caps.nameBytes n b)
    (hnext : ∀ last ∈ st.previous, ∀ n ∈ names, last < n)
    (hrows : st.rows + rowsIn index names ≤ caps.rows) (hcap : caps.rows ≤ usizeMax)
    (hroom : st.writer.bytes.length + (bucketsEnc index names).length ≤ st.writer.limit)
    (hmax : st.writer.limit ≤ usizeMax) :
    ∃ st', names.foldlM (encodeBucket index caps) st = .ok st' ∧
      st'.writer.bytes = st.writer.bytes ++ bucketsEnc index names := by
  induction names generalizing st with
  | nil => exact ⟨st, rfl, (List.append_nil _).symm⟩
  | cons n names ih =>
    obtain ⟨b, hget, hbok⟩ := hok n List.mem_cons_self
    have hbucket := bucket_of_get hget
    rw [bucketsEnc_cons, hbucket, List.length_append] at hroom
    simp only [rowsIn, List.map_cons, List.sum_cons, hbucket] at hrows
    obtain ⟨hfirst, hrest⟩ := List.pairwise_cons.mp hasc
    have hstep := encodeBucket_of_ok hget hbok (fun last hl => hnext last hl n List.mem_cons_self)
      (by omega) hcap (by omega) hmax
    obtain ⟨st', hst, hbytes⟩ := ih ⟨{ st.writer with
        bytes := st.writer.bytes ++ bucketEnc n b }, st.rows + (b.keys.len + b.gone.len), some n⟩
      hrest (fun x hx => hok x (List.mem_cons_of_mem n hx)) (by simpa using hfirst)
      (by simp only [rowsIn]; omega) (by simp; omega) hmax
    refine ⟨st', by rw [List.foldlM_cons, hstep]; exact hst, ?_⟩
    rw [hbytes, bucketsEnc_cons, hbucket, List.append_assoc]

theorem encode_of_exact {index : KeyIndexState} {names : List String} {caps : ImageCaps}
    {size : ImageSize} (h : ExactSize index names caps size) :
    encode index names caps size = .ok (imageEnc index names) := by
  obtain ⟨-, -, hbytesCap, -, -, -, -, -, hrowsCap, -, -⟩ := ImageCaps.validate_eq_ok h.valid
  have henc := h.encoded
  have hle := h.encoded_le
  have hlen : size.encodedBytes = 1 + 4 + (bucketsEnc index names).length := by
    rw [henc]
    simp [imageEnc]
    omega
  have hnew : Writer.new size.encodedBytes = .ok ⟨[], size.encodedBytes⟩ := if_neg (by omega)
  have hheader := ((put_writes [imageVersion]).bind (u32_writes h.image.count))
    ⟨[], size.encodedBytes⟩ (by simp; omega) (by simp only [usizeMax]; omega)
  obtain ⟨w₁, h1, h2⟩ := bind_eq_ok.mp hheader
  have hrows := h.rows
  have hrowsLe := h.rows_le
  obtain ⟨st, hst, hbytes⟩ := encodeBuckets_of_ok caps ⟨⟨[imageVersion] ++
      leBytes 4 names.length, size.encodedBytes⟩, 0, none⟩ h.image.ascending h.image.bucket
    (by simp) (by simp only; omega) (by simp only [usizeMax]; omega) (by simp; omega)
    (by simp only [usizeMax]; omega)
  have hcond : ¬ (caps.buckets < names.length ∨ index.buckets.size ≠ names.length) := by
    have := h.count
    have := h.buckets
    omega
  have hfinal : st.writer.bytes = imageEnc index names := by
    rw [hbytes]
    simp [imageEnc]
  simp only [encode, h.valid, bind_ok, if_neg hcond, if_neg (not_lt.mpr hle), hnew, Writer.u8, h1,
    h2]
  simp only [List.nil_append] at hst ⊢
  rw [hst, bind_ok, hfinal, if_neg (by simpa using henc.symm)]
  rfl

end S3Cache.Fleet

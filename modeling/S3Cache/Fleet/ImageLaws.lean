import S3Cache.Fleet.Image

/-! Decoding the image of a measured index gives back its rows and tombstones, under any caps
that cover the measured size. -/

namespace S3Cache.Fleet

open Index Fallible ByteCodec

def goneEnc (row : String × SystemTime) : List UInt8 := textEnc row.1 ++ timeEnc row.2

def rowEnc (row : String × ObjEntry) : List UInt8 := entryEnc row.1 row.2

def bucketEnc (name : String) (b : BucketState) : List UInt8 :=
  textEnc name ++ (leBytes 4 b.keys.len ++ (b.keys.rows.flatMap rowEnc ++
    (leBytes 4 b.gone.len ++ b.gone.rows.flatMap goneEnc)))

structure GoneOk (keys : KeyRows) (cap : Nat) (row : String × SystemTime) : Prop where
  key : TextOk row.1 cap
  time : 0 ≤ row.2.ns
  before : ∀ e, keys.get row.1 = some e → row.2 < e.lastModified

structure BucketOk (cap : Nat) (name : String) (b : BucketState) : Prop where
  name : TextOk name cap
  synced : b.synced = true
  certain : b.uncertainKeys = ∅
  settled : b.rebuildGeneration = none
  keyCount : b.keys.len < 2 ^ 32
  rows : ∀ row ∈ b.keys.rows, EntryOk row.1 row.2 cap
  goneCount : b.gone.len < 2 ^ 32
  gone : ∀ row ∈ b.gone.rows, GoneOk b.keys cap row

theorem writeGone_wrote {keys : KeyRows} {cap : Nat} {w w' : Writer} {row : String × SystemTime}
    (h : writeGone keys cap w row = .ok w') : GoneOk keys cap row ∧ Wrote w (goneEnc row) w' := by
  simp only [writeGone, ite_error_eq_ok, bind_eq_ok] at h
  obtain ⟨hb, v, hv, ht⟩ := h
  obtain ⟨hkey, hwk⟩ := text_wrote hv
  obtain ⟨htime, hwt⟩ := timestamp_wrote ht
  refine ⟨⟨hkey, htime, fun e he => ?_⟩, hwk.trans hwt⟩
  simpa [he] using hb

theorem encodeBucket_eq_ok {index : KeyIndexState} {caps : ImageCaps} {st st' : Encoding}
    {name : String} (h : encodeBucket index caps st name = .ok st') :
    (∀ last, st.previous = some last → last < name) ∧ st'.previous = some name ∧
    ∃ b, index.buckets[name]? = some b ∧ BucketOk caps.nameBytes name b ∧
      Wrote st.writer (bucketEnc name b) st'.writer := by
  simp only [encodeBucket, ite_error_eq_ok] at h
  obtain ⟨hprev, h⟩ := h
  split at h
  · cases h
  next b hb =>
  simp only [ite_error_eq_ok, bind_eq_ok] at h
  obtain ⟨hcond, w₁, h1, rows, -, w₂, h2, w₃, h3, w₄, h4, w₅, h5, h⟩ := h
  cases h
  obtain ⟨hname, hw1⟩ := text_wrote h1
  obtain ⟨hkeys, hw2⟩ := u32_wrote h2
  obtain ⟨hrows, hw3⟩ := foldlM_wrote (fun w x w' hx => writeEntry_wrote hx) hw2.fits h3
  obtain ⟨hgones, hw4⟩ := u32_wrote h4
  obtain ⟨hgone, hw5⟩ := foldlM_wrote (fun w x w' hx => writeGone_wrote hx) hw4.fits h5
  simp only [Bool.or_eq_true, Bool.not_eq_true', not_or, Bool.not_eq_false,
    Std.ExtTreeMap.isEmpty_iff, Option.isSome_iff_ne_none, not_not] at hcond
  obtain ⟨⟨hsynced, hcertain⟩, hsettled⟩ := hcond
  refine ⟨fun last hl => by simpa [hl] using hprev, rfl, b, hb,
    ⟨hname, hsynced, hcertain, hsettled, hkeys, hrows, hgones, hgone⟩, ?_⟩
  exact hw1.trans (hw2.trans (hw3.trans (hw4.trans hw5)))

def bucketsEnc (index : KeyIndexState) (names : List String) : List UInt8 :=
  names.flatMap fun name => bucketEnc name (index.bucket name)

theorem bucketsEnc_cons (index : KeyIndexState) (name : String) (names : List String) :
    bucketsEnc index (name :: names) =
      bucketEnc name (index.bucket name) ++ bucketsEnc index names := rfl

structure ImageOk (index : KeyIndexState) (names : List String) (cap : Nat) : Prop where
  ascending : names.Pairwise (· < ·)
  count : names.length < 2 ^ 32
  bucket : ∀ name ∈ names, ∃ b, index.buckets[name]? = some b ∧ BucketOk cap name b

theorem encode_eq_ok {index : KeyIndexState} {names : List String} {caps : ImageCaps}
    {size : ImageSize} {bytes : List UInt8} (h : encode index names caps size = .ok bytes) :
    ImageOk index names caps.nameBytes ∧ bytes.length = size.encodedBytes ∧
    bytes = imageVersion :: (leBytes 4 names.length ++ bucketsEnc index names) := by
  simp only [encode, bind_eq_ok, ite_error_eq_ok] at h
  obtain ⟨caps', hcaps, -, -, w₀, h0, w₁, h1, w₂, h2, st, hst, hlen, h⟩ := h
  obtain rfl := (ImageCaps.validate_eq_ok hcaps).1.symm
  cases h
  obtain rfl := new_wrote h0
  obtain ⟨hcount, hw2⟩ := u32_wrote h2
  -- `previous` is the last name done, so the next one lies beyond all of them
  have hinv := foldlM_keeps
    (P := fun done (t : Encoding) => done.Pairwise (· < ·) ∧
      (∀ n ∈ done, ∃ last, t.previous = some last ∧ n ≤ last) ∧
      (∀ n ∈ done, ∃ b, index.buckets[n]? = some b ∧ BucketOk caps.nameBytes n b) ∧
      Wrote w₂ (bucketsEnc index done) t.writer)
    (by
      rintro done n t t' - ⟨hasc, hlast, hok, hw⟩ hstep
      obtain ⟨hprev, hnext, b, hb, hbok, hwb⟩ := encodeBucket_eq_ok hstep
      refine ⟨?_, ?_, ?_, ?_⟩
      · simp only [List.pairwise_append, List.pairwise_singleton, List.mem_singleton,
          forall_eq, true_and]
        refine ⟨hasc, fun m hm => ?_⟩
        obtain ⟨last, hl, hle⟩ := hlast m hm
        exact lt_of_le_of_lt hle (hprev last hl)
      · intro m hm
        refine ⟨n, hnext, ?_⟩
        rcases List.mem_append.mp hm with hm | hm
        · obtain ⟨last, hl, hle⟩ := hlast m hm
          exact hle.trans (hprev last hl).le
        · exact (List.mem_singleton.mp hm).le
      · intro m hm
        rcases List.mem_append.mp hm with hm | hm
        · exact hok m hm
        · obtain rfl := List.mem_singleton.mp hm
          exact ⟨b, hb, hbok⟩
      · have hbucket : index.bucket n = b := by simp [KeyIndexState.bucket, hb]
        simpa [bucketsEnc, hbucket] using hw.trans hwb)
    (by simpa [bucketsEnc] using Wrote.nil hw2.fits) hst
  obtain ⟨hasc, -, hok, hw⟩ := hinv
  refine ⟨⟨hasc, hcount, hok⟩, not_not.mp hlen, ?_⟩
  simpa using ((put_wrote h1).trans (hw2.trans hw)).bytes

theorem mapM_etagTextLen_eq_ok {t : Option ETag} {n : Option Nat}
    (h : t.mapM etagTextLen = .ok n) : n = (t.map etagText).map String.utf8ByteSize := by
  cases t with
  | none => cases h; rfl
  | some t =>
    obtain ⟨len, hl, rfl⟩ := map_eq_ok.mp (by simpa using h)
    simp [etagTextLen_eq_ok hl]

section
variable [Layout]

theorem measureRow_eq_ok {caps : ImageCaps} {m m' : Measuring} {row : String × ObjEntry}
    (h : measureRow caps m row = .ok m') :
    m'.rows = m.rows ∧ ∃ c, entryCharge row.1.utf8ByteSize
      ((row.2.etag.map etagText).map String.utf8ByteSize)
      row.2.storageClass.name.utf8ByteSize = .ok c ∧
      m.budget.used + c ≤ usizeMax ∧ m'.budget.used = m.budget.used + c := by
  simp only [measureRow, ite_error_eq_ok, bind_eq_ok] at h
  obtain ⟨-, -, etag, he, -, -, c, hc, budget, hb, bytes, -, encoded, -, h⟩ := h
  cases h
  obtain rfl := mapM_etagTextLen_eq_ok he
  obtain ⟨hu, rfl⟩ := take_eq_ok hb
  exact ⟨rfl, c, hc, hu, rfl⟩

theorem measureGone_eq_ok {caps : ImageCaps} {keys : KeyRows} {m m' : Measuring}
    {row : String × SystemTime} (h : measureGone caps keys m row = .ok m') :
    m'.rows = m.rows ∧ ∃ c, goneCharge row.1.utf8ByteSize = .ok c ∧
      m.budget.used + c ≤ usizeMax ∧ m'.budget.used = m.budget.used + c := by
  simp only [measureGone, ite_error_eq_ok, bind_eq_ok] at h
  obtain ⟨-, -, c, hc, budget, hb, bytes, -, encoded, -, h⟩ := h
  cases h
  obtain ⟨hu, rfl⟩ := take_eq_ok hb
  exact ⟨rfl, c, hc, hu, rfl⟩

omit [Layout] in
theorem foldlM_measure_mono {α : Type} {f : Measuring → α → Except ImageError Measuring}
    (hf : ∀ m x m', f m x = .ok m' → m.budget.used ≤ m'.budget.used ∧ m.rows ≤ m'.rows)
    {xs : List α} {m m' : Measuring} (h : xs.foldlM f m = .ok m') :
    m.budget.used ≤ m'.budget.used ∧ m.rows ≤ m'.rows := by
  refine foldlM_keeps (P := fun _ t => m.budget.used ≤ t.budget.used ∧ m.rows ≤ t.rows)
    ?_ ⟨le_rfl, le_rfl⟩ h
  rintro done x t t' - ⟨hu, hr⟩ hstep
  obtain ⟨hu', hr'⟩ := hf t x t' hstep
  exact ⟨hu.trans hu', hr.trans hr'⟩

omit [Layout] in
theorem foldlM_measure_rows {α : Type} {f : Measuring → α → Except ImageError Measuring}
    (hf : ∀ m x m', f m x = .ok m' → m'.rows = m.rows) {xs : List α} {m m' : Measuring}
    (h : xs.foldlM f m = .ok m') : m'.rows = m.rows := by
  refine foldlM_keeps (P := fun _ t => t.rows = m.rows) ?_ rfl h
  rintro done x t t' - ht hstep
  exact (hf t x t' hstep).trans ht

theorem measureRow_mono {caps : ImageCaps} {m m' : Measuring} {row : String × ObjEntry}
    (h : measureRow caps m row = .ok m') :
    m.budget.used ≤ m'.budget.used ∧ m.rows ≤ m'.rows := by
  obtain ⟨hr, c, -, -, hc⟩ := measureRow_eq_ok h
  omega

theorem measureGone_mono {caps : ImageCaps} {keys : KeyRows} {m m' : Measuring}
    {row : String × SystemTime} (h : measureGone caps keys m row = .ok m') :
    m.budget.used ≤ m'.budget.used ∧ m.rows ≤ m'.rows := by
  obtain ⟨hr, c, -, -, hc⟩ := measureGone_eq_ok h
  omega

omit [Layout] in
theorem lt_of_ascending {V : Type} {all done xs : List (String × V)} {x : String × V}
    (hall : done ++ x :: xs = all) (h : all.Pairwise (fun a b => a.1 < b.1)) :
    ∀ d ∈ done, d.1 < x.1 := by
  intro d hd
  rw [← hall] at h
  exact (List.pairwise_append.mp h).2.2 d hd x (by simp)

structure RowsRead (caps : ImageCaps) (rest : List UInt8) (limit : Nat) (m' : Measuring)
    (all done xs : List (String × ObjEntry)) (t : Measuring) (st : RowsDecoding) : Prop where
  all : done ++ xs = all
  reader : st.reader = ⟨xs.flatMap rowEnc ++ rest⟩
  budget : st.budget = ⟨t.budget.used, limit⟩
  measure : xs.foldlM (measureRow caps) t = .ok m'
  previous : ∀ p, st.previous = some p → ∃ d ∈ done, d.1 = p
  keys : ∀ a e, st.keys.get a = some e ↔ ∃ e', (a, e') ∈ done ∧ e = e'.skeletal

theorem decodeRow_step [ETagReader] {all done xs : List (String × ObjEntry)} {caps : ImageCaps}
    {cap limit : Nat} {m' t : Measuring} {rest : List UInt8} {x : String × ObjEntry}
    {st : RowsDecoding} (hsorted : all.Pairwise (fun a b => a.1 < b.1))
    (hok : ∀ row ∈ all, EntryOk row.1 row.2 cap) (hreads : ∀ row ∈ all, ETagReads row.2.etag)
    (hlimit : m'.budget.used ≤ limit)
    (h : RowsRead caps rest limit m' all done (x :: xs) t st) :
    ∃ st' t', decodeRow cap st = .ok st' ∧
      RowsRead caps rest limit m' all (done ++ [x]) xs t' st' := by
  obtain ⟨key, entry⟩ := x
  obtain ⟨reader, budget, keys, stats, previous⟩ := st
  obtain ⟨hall, hreader, hbudget, ht, hprev, hkeys⟩ := h
  simp only at hreader hbudget hprev hkeys
  subst hreader hbudget
  rw [List.foldlM_cons, bind_eq_ok] at ht
  obtain ⟨t', ht', ht⟩ := ht
  obtain ⟨-, c, hc, hu, hused⟩ := measureRow_eq_ok ht'
  have hle := (foldlM_measure_mono (fun _ _ _ => measureRow_mono) ht).1
  have hbefore := lt_of_ascending hall hsorted
  have hentry : EntryOk key entry cap := hok (key, entry) (by rw [← hall]; simp)
  have hetag : ETagReads entry.etag := hreads (key, entry) (by rw [← hall]; simp)
  have hnext : ¬ (previous.any fun last => decide (key ≤ last)) = true := by
    cases previous with
    | none => simp
    | some p =>
      obtain ⟨d, hd, rfl⟩ := hprev p rfl
      simpa using hbefore d hd
  have htake : (⟨t.budget.used, limit⟩ : DecodeBudget).take c = .ok ⟨t.budget.used + c, limit⟩ :=
    take_of_le hu (by simp only; omega)
  refine ⟨⟨⟨xs.flatMap rowEnc ++ rest⟩, ⟨t.budget.used + c, limit⟩,
    keys.insert key entry.skeletal, stats.replace {} (.forEntry entry.skeletal), some key⟩, t',
    ?_, ⟨by simp [hall], rfl, by rw [hused], ht, ?_, fun a e => ?_⟩⟩
  · rw [decodeRow, List.flatMap_cons, List.append_assoc, rowEnc, readEntry_entryEnc hentry hetag, hc,
      bind_ok, htake]
    exact if_neg hnext
  · rintro p hp
    cases hp
    exact ⟨(key, entry), by simp, rfl⟩
  · rw [KeyRows.get_insert]
    split
    · next hk =>
      subst hk
      constructor
      · rintro h
        cases h
        exact ⟨entry, by simp, rfl⟩
      · rintro ⟨e', he', rfl⟩
        rcases List.mem_append.mp he' with hd | hx
        · exact absurd (hbefore _ hd) (lt_irrefl _)
        · obtain rfl : e' = entry := by simpa using hx
          rfl
    · next hk =>
      rw [hkeys]
      simp [Ne.symm hk]

theorem iterate_decodeRow [ETagReader] {all : List (String × ObjEntry)} {caps : ImageCaps}
    {cap limit : Nat} {m m' : Measuring} (rest : List UInt8)
    (hsorted : all.Pairwise (fun a b => a.1 < b.1))
    (hok : ∀ row ∈ all, EntryOk row.1 row.2 cap) (hreads : ∀ row ∈ all, ETagReads row.2.etag)
    (hm : all.foldlM (measureRow caps) m = .ok m') (hlimit : m'.budget.used ≤ limit) :
    ∃ st, iterate (decodeRow cap) all.length
        { reader := ⟨all.flatMap rowEnc ++ rest⟩, budget := ⟨m.budget.used, limit⟩ } = .ok st ∧
      st.reader = ⟨rest⟩ ∧ st.budget = ⟨m'.budget.used, limit⟩ ∧
      ∀ a e, st.keys.get a = some e ↔ ∃ e', (a, e') ∈ all ∧ e = e'.skeletal := by
  have hstart : RowsRead caps rest limit m' all [] all m
      { reader := ⟨all.flatMap rowEnc ++ rest⟩, budget := ⟨m.budget.used, limit⟩ } :=
    ⟨rfl, rfl, rfl, hm, by simp, by simp⟩
  obtain ⟨st, hst, done, t, h⟩ := iterate_runs
    (P := fun xs st => ∃ done t, RowsRead caps rest limit m' all done xs t st)
    (fun x xs st ⟨done, t, h⟩ => by
      obtain ⟨st', t', hst, h'⟩ := decodeRow_step hsorted hok hreads hlimit h
      exact ⟨st', hst, _, _, h'⟩)
    ⟨[], m, hstart⟩
  obtain rfl : done = all := by simpa using h.all
  obtain rfl : t = m' := by simpa [pure, Except.pure] using h.measure
  exact ⟨st, hst, by simpa using h.reader, h.budget, h.keys⟩

structure GoneRead (caps : ImageCaps) (held : KeyRows) (rest : List UInt8) (limit : Nat)
    (m' : Measuring) (all done xs : List (String × SystemTime)) (t : Measuring)
    (st : GoneDecoding) : Prop where
  all : done ++ xs = all
  reader : st.reader = ⟨xs.flatMap goneEnc ++ rest⟩
  budget : st.budget = ⟨t.budget.used, limit⟩
  measure : xs.foldlM (measureGone caps held) t = .ok m'
  previous : ∀ p, st.previous = some p → ∃ d ∈ done, d.1 = p
  gone : ∀ a t, st.gone.get a = some t ↔ (a, t) ∈ done

theorem decodeGone_step {all done xs : List (String × SystemTime)} {caps : ImageCaps}
    {cap limit : Nat} {held keys : KeyRows} {m' t : Measuring} {rest : List UInt8}
    {x : String × SystemTime} {st : GoneDecoding}
    (hsorted : all.Pairwise (fun a b => a.1 < b.1)) (hok : ∀ row ∈ all, GoneOk keys cap row)
    (hlimit : m'.budget.used ≤ limit)
    (h : GoneRead caps held rest limit m' all done (x :: xs) t st) :
    ∃ st' t', decodeGone cap keys st = .ok st' ∧
      GoneRead caps held rest limit m' all (done ++ [x]) xs t' st' := by
  obtain ⟨key, deletedAt⟩ := x
  obtain ⟨reader, budget, gone, previous⟩ := st
  obtain ⟨hall, hreader, hbudget, ht, hprev, hgone⟩ := h
  simp only at hreader hbudget hprev hgone
  subst hreader hbudget
  rw [List.foldlM_cons, bind_eq_ok] at ht
  obtain ⟨t', ht', ht⟩ := ht
  obtain ⟨-, c, hc, hu, hused⟩ := measureGone_eq_ok ht'
  have hle := (foldlM_measure_mono (fun _ _ _ => measureGone_mono) ht).1
  have hbefore := lt_of_ascending hall hsorted
  have hrow : GoneOk keys cap (key, deletedAt) := hok _ (by rw [← hall]; simp)
  have hnext : ¬ (previous.any fun last => decide (key ≤ last)) = true := by
    cases previous with
    | none => simp
    | some p =>
      obtain ⟨d, hd, rfl⟩ := hprev p rfl
      simpa using hbefore d hd
  have hlive : ¬ ((keys.get key).any fun e => decide (e.lastModified ≤ deletedAt)) = true := by
    cases hk : keys.get key with
    | none => simp
    | some e => simpa using hrow.before e hk
  have htake : (⟨t.budget.used, limit⟩ : DecodeBudget).take c = .ok ⟨t.budget.used + c, limit⟩ :=
    take_of_le hu (by simp only; omega)
  refine ⟨⟨⟨xs.flatMap goneEnc ++ rest⟩, ⟨t.budget.used + c, limit⟩, gone.insert key deletedAt,
    some key⟩, t', ?_, ⟨by simp [hall], rfl, by rw [hused], ht, ?_, fun a at' => ?_⟩⟩
  · simp only [decodeGone, List.flatMap_cons, goneEnc, List.append_assoc, text_textEnc hrow.key,
      bind_ok, if_neg hnext, hc, htake, readTimestamp_timeEnc hrow.time, if_neg hlive]
    rfl
  · rintro p hp
    cases hp
    exact ⟨(key, deletedAt), by simp, rfl⟩
  · rw [GoneRows.get_insert]
    split
    · next hk =>
      subst hk
      constructor
      · rintro h
        cases h
        simp
      · intro hmem
        rcases List.mem_append.mp hmem with hd | hx
        · exact absurd (hbefore _ hd) (lt_irrefl _)
        · obtain rfl : at' = deletedAt := by simpa using hx
          rfl
    · next hk =>
      rw [hgone]
      simp [Ne.symm hk]

theorem iterate_decodeGone {all : List (String × SystemTime)} {caps : ImageCaps}
    {cap limit : Nat} {held keys : KeyRows} {m m' : Measuring} (rest : List UInt8)
    (hsorted : all.Pairwise (fun a b => a.1 < b.1)) (hok : ∀ row ∈ all, GoneOk keys cap row)
    (hm : all.foldlM (measureGone caps held) m = .ok m') (hlimit : m'.budget.used ≤ limit) :
    ∃ st, iterate (decodeGone cap keys) all.length
        { reader := ⟨all.flatMap goneEnc ++ rest⟩, budget := ⟨m.budget.used, limit⟩ } = .ok st ∧
      st.reader = ⟨rest⟩ ∧ st.budget = ⟨m'.budget.used, limit⟩ ∧
      ∀ a t, st.gone.get a = some t ↔ (a, t) ∈ all := by
  have hstart : GoneRead caps held rest limit m' all [] all m
      { reader := ⟨all.flatMap goneEnc ++ rest⟩, budget := ⟨m.budget.used, limit⟩ } :=
    ⟨rfl, rfl, rfl, hm, by simp, by simp⟩
  obtain ⟨st, hst, done, t, h⟩ := iterate_runs
    (P := fun xs st => ∃ done t, GoneRead caps held rest limit m' all done xs t st)
    (fun x xs st ⟨done, t, h⟩ => by
      obtain ⟨st', t', hst, h'⟩ := decodeGone_step hsorted hok hlimit h
      exact ⟨st', hst, _, _, h'⟩)
    ⟨[], m, hstart⟩
  obtain rfl : done = all := by simpa using h.all
  obtain rfl : t = m' := by simpa [pure, Except.pure] using h.measure
  exact ⟨st, hst, by simpa using h.reader, h.budget, h.gone⟩

end

theorem BucketOk.mono {cap cap' : Nat} {name : String} {b : BucketState}
    (h : BucketOk cap name b) (hle : cap ≤ cap') : BucketOk cap' name b where
  name := h.name.mono hle
  synced := h.synced
  certain := h.certain
  settled := h.settled
  keyCount := h.keyCount
  rows row hrow :=
    have := h.rows row hrow
    ⟨this.key.mono hle, this.size, this.time, fun t ht => (this.etag t ht).mono hle,
      this.storage.mono hle⟩
  goneCount := h.goneCount
  gone row hrow :=
    have := h.gone row hrow
    ⟨this.key.mono hle, this.time, this.before⟩

structure Decoded (b b' : BucketState) : Prop where
  synced : b'.synced = true
  settled : b'.Settled
  view : ∀ key, b'.view key = ⟨(b.keys.get key).map ObjEntry.skeletal, b.gone.get key, none⟩

theorem addRows_eq_ok {rows rows' : Nat} {b : BucketState} {caps : ImageCaps}
    (h : addRows rows b caps = .ok rows') :
    rows' = rows + b.keys.len + b.gone.len ∧ rows' ≤ usizeMax := by
  simp only [addRows, bind_eq_ok, checked_eq_ok, ite_error_eq_ok] at h
  obtain ⟨_, ⟨hu, rfl⟩, -, h⟩ := h
  cases h
  exact ⟨rfl, hu⟩

theorem imageBucket_eq_ok {index : KeyIndexState} {name : String} {previous : Option String}
    {caps : ImageCaps} {b : BucketState} (h : imageBucket index name previous caps = .ok b) :
    index.buckets[name]? = some b ∧ b.uncertainKeys = ∅ ∧ b.Idle := by
  simp only [imageBucket, ite_error_eq_ok] at h
  obtain ⟨-, h⟩ := h
  split at h
  · cases h
  · next b' hb =>
    simp only [ite_error_eq_ok, Except.ok.injEq, Bool.or_eq_true, not_or] at h
    obtain ⟨⟨⟨-, hcertain⟩, hidle⟩, rfl⟩ := h
    exact ⟨hb, by simpa [Std.ExtTreeMap.isEmpty_iff] using hcertain, ⟨by simpa using hidle⟩⟩

theorem countRows_of_le {caps : ImageCaps} {rows count : Nat} (hu : rows + count ≤ usizeMax)
    (hr : rows + count ≤ caps.rows) : countRows caps rows count = .ok (rows + count) := by
  rw [countRows, checked_of_le hu, bind_ok, if_neg (not_lt.mpr hr)]
  rfl

section
variable [Layout]

theorem measureBucket_eq_ok {index : KeyIndexState} {caps : ImageCaps} {m m' : Measuring}
    {name : String} (h : measureBucket index caps m name = .ok m') :
    ∃ b c m₁ m₂, index.buckets[name]? = some b ∧ bucketCharge name.utf8ByteSize = .ok c ∧
      m.budget.used + c ≤ usizeMax ∧ m₁.budget.used = m.budget.used + c ∧
      m₁.rows = m.rows + b.keys.len + b.gone.len ∧ m₁.rows ≤ usizeMax ∧
      b.keys.rows.foldlM (measureRow caps) m₁ = .ok m₂ ∧
      b.gone.rows.foldlM (measureGone caps b.keys) m₂ = .ok m' := by
  simp only [measureBucket, bind_eq_ok] at h
  obtain ⟨b, hb, c, hc, budget, hbudget, bytes, -, encoded, -, rows, hrows, m₂, hk, hg⟩ := h
  obtain ⟨hu, rfl⟩ := take_eq_ok hbudget
  obtain ⟨rfl, hr⟩ := addRows_eq_ok hrows
  exact ⟨b, c, _, m₂, (imageBucket_eq_ok hb).1, hc, hu, rfl, rfl, hr, hk, hg⟩

theorem measureBucket_mono {index : KeyIndexState} {caps : ImageCaps} {m m' : Measuring}
    {name : String} (h : measureBucket index caps m name = .ok m') :
    m.budget.used ≤ m'.budget.used ∧ m.rows ≤ m'.rows := by
  obtain ⟨b, c, m₁, m₂, -, -, -, hu, hr, -, hk, hg⟩ := measureBucket_eq_ok h
  have hk := foldlM_measure_mono (fun _ _ _ => measureRow_mono) hk
  have hg := foldlM_measure_mono (fun _ _ _ => measureGone_mono) hg
  omega

structure BucketsRead (index : KeyIndexState) (caps : ImageCaps) (rest : List UInt8) (limit : Nat)
    (m' : Measuring) (names done xs : List String) (t : Measuring) (st : Decoding) : Prop where
  all : done ++ xs = names
  reader : st.reader = ⟨bucketsEnc index xs ++ rest⟩
  budget : st.budget = ⟨t.budget.used, limit⟩
  rows : st.rows = t.rows
  measure : xs.foldlM (measureBucket index caps) t = .ok m'
  previous : ∀ p, st.previous = some p → p ∈ done
  buckets : ∀ n ∈ done, ∃ b, st.buckets[n]? = some b ∧ Decoded (index.bucket n) b
  others : ∀ n, n ∉ done → st.buckets[n]? = none

/-- The parser gives every `ETag` of the universe's rows back from its text. -/
def IndexReads [ETagReader] (index : KeyIndexState) (names : List String) : Prop :=
  ∀ n ∈ names, ∀ row ∈ (index.bucket n).keys.rows, ETagReads row.2.etag

omit [Layout] in
theorem ETagParser.indexReads [ETagParser] (index : KeyIndexState) (names : List String) :
    IndexReads index names := fun _ _ row _ => ETagParser.reads row.2.etag

variable [ETagReader]

theorem decodeBucket_step {index : KeyIndexState} {names done xs : List String}
    {caps caps' : ImageCaps} {rest : List UInt8} {limit : Nat} {m' t : Measuring} {x : String}
    {st : Decoding} (himage : ImageOk index names caps'.nameBytes) (hreads : IndexReads index names)
    (hlimit : m'.budget.used ≤ limit)
    (hrows : m'.rows ≤ caps'.rows)
    (h : BucketsRead index caps rest limit m' names done (x :: xs) t st) :
    ∃ st' t', decodeBucket caps' st = .ok st' ∧
      BucketsRead index caps rest limit m' names (done ++ [x]) xs t' st' := by
  obtain ⟨reader, budget, buckets, stats, rows, previous⟩ := st
  obtain ⟨hall, hreader, hbudget, hrow, ht, hprev, hdone, hothers⟩ := h
  simp only at hreader hbudget hrow hprev hdone hothers
  subst hreader hbudget hrow
  rw [List.foldlM_cons, bind_eq_ok] at ht
  obtain ⟨t', ht', ht⟩ := ht
  obtain ⟨b, c, m₁, m₂, hb, hc, hu, hused, hrows₁, hmax, hk, hg⟩ := measureBucket_eq_ok ht'
  have hle := foldlM_measure_mono (fun _ _ _ => measureBucket_mono) ht
  have hle₁ := foldlM_measure_mono (fun _ _ _ => measureRow_mono) hk
  have hle₂ := foldlM_measure_mono (fun _ _ _ => measureGone_mono) hg
  have hrows₂ := foldlM_measure_rows (fun _ _ _ h => (measureRow_eq_ok h).1) hk
  have hrows₃ := foldlM_measure_rows (fun _ _ _ h => (measureGone_eq_ok h).1) hg
  have hbefore : ∀ d ∈ done, d < x := by
    intro d hd
    have := himage.ascending
    rw [← hall] at this
    exact (List.pairwise_append.mp this).2.2 d hd x (by simp)
  obtain ⟨b', hb', hbok⟩ := himage.bucket x (by rw [← hall]; simp)
  obtain rfl : b = b' := by simpa [hb] using hb'
  have hbucket : index.bucket x = b := by simp [KeyIndexState.bucket, hb]
  have hnext : ¬ (previous.any fun last => decide (x ≤ last)) = true := by
    cases previous with
    | none => simp
    | some p => simpa using hbefore p (hprev p rfl)
  have htake : (⟨t.budget.used, limit⟩ : DecodeBudget).take c = .ok ⟨m₁.budget.used, limit⟩ := by
    rw [hused]
    exact take_of_le hu (by simp only; omega)
  have hrow : ∀ row ∈ b.keys.rows, ETagReads row.2.etag := by
    rw [← hbucket]
    exact hreads x (by rw [← hall]; simp)
  have hklen : b.keys.rows.length = b.keys.len := Std.ExtTreeMap.length_toList
  have hglen : b.gone.rows.length = b.gone.len := Std.ExtTreeMap.length_toList
  obtain ⟨keyed, hkeyed, hkreader, hkbudget, hkkeys⟩ := iterate_decodeRow
    (leBytes 4 b.gone.len ++ (b.gone.rows.flatMap goneEnc ++ (bucketsEnc index xs ++ rest)))
    b.keys.rows_ascending hbok.rows hrow hk (show m₂.budget.used ≤ limit by omega)
  have hkeys : ∀ a, keyed.keys.get a = (b.keys.get a).map ObjEntry.skeletal := by
    intro a
    refine Option.ext fun e => ?_
    rw [hkkeys, Option.map_eq_some_iff]
    simp only [KeyRows.mem_rows, eq_comm]
  have hgok : ∀ row ∈ b.gone.rows, GoneOk keyed.keys caps'.nameBytes row := by
    intro row hrow
    have hgone := hbok.gone row hrow
    refine ⟨hgone.key, hgone.time, fun e he => ?_⟩
    rw [hkeys, Option.map_eq_some_iff] at he
    obtain ⟨e', he', rfl⟩ := he
    exact hgone.before e' he'
  obtain ⟨buried, hburied, hgreader, hgbudget, hggone⟩ := iterate_decodeGone
    (bucketsEnc index xs ++ rest) b.gone.rows_ascending hgok hg
    (show t'.budget.used ≤ limit by omega)
  have hgones : ∀ a, buried.gone.get a = b.gone.get a := fun a => Option.ext fun at' => by
    rw [hggone, GoneRows.mem_rows]
  refine ⟨⟨buried.reader, buried.budget, buckets.insert x
    { synced := true, keys := keyed.keys, gone := buried.gone, stats := keyed.stats },
    stats.replace {} keyed.stats, t.rows + b.keys.len + b.gone.len, some x⟩, t', ?_,
    ⟨by simp [hall], hgreader, hgbudget, by simp only; omega, ht, ?_, ?_, ?_⟩⟩
  · rw [hklen] at hkeyed
    rw [hglen] at hburied
    rw [bucketsEnc_cons, hbucket, bucketEnc]
    simp only [decodeBucket, List.append_assoc, text_textEnc hbok.name, bind_ok, if_neg hnext, hc,
      htake, u32_leBytes hbok.keyCount]
    rw [countRows_of_le (by omega) (by omega), bind_ok]
    simp only [hkeyed, bind_ok, hkreader, u32_leBytes hbok.goneCount]
    rw [countRows_of_le (by omega) (by omega), bind_ok]
    simp only [hkbudget, hburied, bind_ok]
    rfl
  · rintro p hp
    cases hp
    simp
  · intro n hn
    rcases List.mem_append.mp hn with hn | hn
    · obtain ⟨b', hb', hdec⟩ := hdone n hn
      refine ⟨b', ?_, hdec⟩
      rw [TreeMap.get_insert, if_neg (hbefore n hn).ne', hb']
    · obtain rfl := List.mem_singleton.mp hn
      refine ⟨_, by rw [TreeMap.get_insert, if_pos rfl], ⟨rfl, ⟨⟨rfl⟩, rfl⟩, fun key => ?_⟩⟩
      rw [hbucket, BucketState.view, hkeys, hgones]
      rfl
  · intro n hn
    have hne : x ≠ n := fun h => hn (by simp [h])
    rw [TreeMap.get_insert, if_neg hne]
    exact hothers n fun h => hn (by simp [h])

omit [ETagReader] in
theorem measureImage_eq_ok {index : KeyIndexState} {names : List String} {caps : ImageCaps}
    {size : ImageSize} (h : measureImage index names caps = .ok size) :
    ∃ c m m', stateCharge names.length = .ok c ∧ c ≤ usizeMax ∧ m.budget.used = c ∧ m.rows = 0 ∧
      names.foldlM (measureBucket index caps) m = .ok m' ∧ m'.budget.used = size.decodedBytes ∧
      m'.rows = size.rows := by
  simp only [measureImage, sizeImage, bind_eq_ok, ite_error_eq_ok] at h
  obtain ⟨caps', hcaps, -, budget, hnew, c, hc, budget', hb, m', hm, -, h⟩ := h
  cases h
  obtain rfl := (ImageCaps.validate_eq_ok hcaps).1.symm
  simp only [DecodeBudget.new, ite_error_eq_ok, Except.ok.injEq] at hnew
  obtain ⟨-, rfl⟩ := hnew
  obtain ⟨hu, rfl⟩ := take_eq_ok hb
  simp only [Nat.zero_add] at hu
  exact ⟨c, _, m', hc, hu, Nat.zero_add c, rfl, hm, rfl, rfl⟩

omit [ETagReader] in
theorem stateCharge_pos {n c : Nat} (h : stateCharge n = .ok c) : 0 < c := by
  simp only [stateCharge, bucketSlots, bind_eq_ok, checked_eq_ok] at h
  obtain ⟨_, ⟨_, ⟨-, rfl⟩, -, rfl⟩, _, ⟨-, rfl⟩, hsum⟩ := h
  have hc := sum_eq_ok hsum
  have hpos : 0 < (n * hashSlotsPerBucket + hashMinSlots) * (Layout.stringBucket + 16) :=
    Nat.mul_pos (by simp [hashMinSlots]) (by omega)
  simp only [List.sum_cons, List.sum_nil] at hc
  omega

structure Covers (caps' caps : ImageCaps) (size : ImageSize) (names : List String) : Prop where
  valid : caps'.validate = .ok caps'
  bytes : size.encodedBytes ≤ caps'.bytes
  decodedBytes : size.decodedBytes ≤ caps'.decodedBytes
  rows : size.rows ≤ caps'.rows
  buckets : names.length ≤ caps'.buckets
  nameBytes : caps.nameBytes ≤ caps'.nameBytes

theorem iterate_decodeBucket {index : KeyIndexState} {names : List String}
    {caps caps' : ImageCaps} {size : ImageSize} (hm : measureImage index names caps = .ok size)
    (himage : ImageOk index names caps.nameBytes) (hreads : IndexReads index names)
    (hcov : Covers caps' caps size names) (rest : List UInt8) :
    ∃ c st, stateCharge names.length = .ok c ∧ c ≤ usizeMax ∧ c ≤ caps'.decodedBytes ∧
      iterate (decodeBucket caps') names.length
        { reader := ⟨bucketsEnc index names ++ rest⟩, budget := ⟨c, caps'.decodedBytes⟩ } =
          .ok st ∧
      st.reader = ⟨rest⟩ ∧ st.budget.used = size.decodedBytes ∧
      (∀ n ∈ names, ∃ b, st.buckets[n]? = some b ∧ Decoded (index.bucket n) b) ∧
      ∀ n, n ∉ names → st.buckets[n]? = none := by
  obtain ⟨c, m, m', hc, hu, hused, hrows, hfold, hdecoded, hrows'⟩ := measureImage_eq_ok hm
  have himage' : ImageOk index names caps'.nameBytes := ⟨himage.ascending, himage.count,
    fun n hn => (himage.bucket n hn).imp fun b hb => ⟨hb.1, hb.2.mono hcov.nameBytes⟩⟩
  have hdec := hcov.decodedBytes
  have hle := (foldlM_measure_mono (fun _ _ _ => measureBucket_mono) hfold).1
  obtain ⟨st, hst, done, t, h⟩ := iterate_runs
    (P := fun xs st => ∃ done t,
      BucketsRead index caps rest caps'.decodedBytes m' names done xs t st)
    (fun x xs st ⟨done, t, h⟩ => by
      obtain ⟨st', t', hst, h'⟩ := decodeBucket_step himage' hreads (by omega)
        (hrows'.le.trans hcov.rows) h
      exact ⟨st', hst, _, _, h'⟩)
    (s := { reader := ⟨bucketsEnc index names ++ rest⟩
            budget := ⟨m.budget.used, caps'.decodedBytes⟩ })
    ⟨[], m, rfl, rfl, rfl, hrows.symm, hfold, by simp, by simp, by simp⟩
  obtain rfl : done = names := by simpa using h.all
  obtain rfl : t = m' := by simpa [pure, Except.pure] using h.measure
  have hspent : st.budget.used = size.decodedBytes := by rw [h.budget]; exact hdecoded
  exact ⟨c, st, hc, hu, by omega, hused ▸ hst, by rw [h.reader]; rfl, hspent, h.buckets, h.others⟩

theorem decode_encode {index : KeyIndexState} {names : List String} {caps caps' : ImageCaps}
    {size : ImageSize} {bytes : List UInt8} (hm : measureImage index names caps = .ok size)
    (he : encode index names caps size = .ok bytes) (hreads : IndexReads index names)
    (hcov : Covers caps' caps size names) :
    ∃ s, decode bytes caps' = .ok s ∧ s.capture = none ∧
      (∀ n ∈ names, ∃ b, s.buckets[n]? = some b ∧ Decoded (index.bucket n) b) ∧
      ∀ n, n ∉ names → s.buckets[n]? = none := by
  obtain ⟨himage, hlen, rfl⟩ := encode_eq_ok he
  obtain ⟨c, st, hc, hu, hl, hst, hreader, -, hbuckets, hothers⟩ :=
    iterate_decodeBucket hm himage hreads hcov []
  rw [List.append_nil] at hst
  have hpos : caps'.decodedBytes ≠ 0 := by
    obtain ⟨-, -, -, hpos, -⟩ := ImageCaps.validate_eq_ok hcov.valid
    exact hpos.ne.symm
  have htake : (⟨0, caps'.decodedBytes⟩ : DecodeBudget).take c =
      .ok ⟨c, caps'.decodedBytes⟩ := by
    rw [take_of_le] <;> simp only [Nat.zero_add] <;> assumption
  have hbytes : ¬ (imageVersion :: (leBytes 4 names.length ++ bucketsEnc index names) = [] ∨
      caps'.bytes <
        (imageVersion :: (leBytes 4 names.length ++ bucketsEnc index names)).length) := by
    rw [hlen]
    simpa using hcov.bytes
  have hread : st.reader.unread = [] := by rw [hreader]
  refine ⟨{ buckets := st.buckets, stats := st.stats }, ?_, rfl, hbuckets, hothers⟩
  simp only [decode, hcov.valid, bind_ok, if_neg hbytes, u8_cons, ne_eq, not_true_eq_false,
    if_false, u32_leBytes himage.count, if_neg (not_lt.mpr hcov.buckets), DecodeBudget.new,
    if_neg hpos, hc, htake, hst, hread]
  rfl

end

end S3Cache.Fleet

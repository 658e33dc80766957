import S3Cache.Fleet.Exact

/-! Accepted images are canonical: the bytes a follower decodes are those the decoded index
encodes to, so an image has no second form, no accepted extension and no accepted part. -/

namespace S3Cache.Index

def IndexStats.ofRows (rows : List (String × ObjEntry)) : IndexStats where
  objects := rows.length
  logicalBytes := min (rows.map fun row => (IndexStats.forEntry row.2).logicalBytes).sum
    (2 ^ 64 - 1)

theorem IndexStats.replace_ofRows {xs ys : List (String × ObjEntry)}
    (h : (xs ++ ys).length < 2 ^ 64) :
    (ofRows xs).replace {} (ofRows ys) = ofRows (xs ++ ys) := by
  simp only [List.length_append] at h
  simp only [replace, ofRows, saturatingAdd, List.length_append, List.map_append, List.sum_append,
    IndexStats.mk.injEq]
  omega

theorem IndexStats.forEntry_eq (key : String) (e : ObjEntry) : forEntry e = ofRows [(key, e)] := by
  have hle : (forEntry e).logicalBytes ≤ 2 ^ 64 - 1 := by
    cases hs : e.size with
    | none => simp [forEntry, hs]
    | some n =>
      have := n.toInt_lt
      simp only [forEntry, hs, Option.map_some, Option.getD_some, Int64.toNatClampNeg]
      omega
  simp only [ofRows, List.map_cons, List.map_nil, List.sum_cons, List.sum_nil, Nat.add_zero,
    min_eq_left hle]
  rfl

section
variable [Fleet.Layout]

theorem KeyRows.rows_insert_last {r : KeyRows} {key : String} {e : ObjEntry}
    (h : ∀ row ∈ r.rows, row.1 < key) : (r.insert key e).rows = r.rows ++ [(key, e)] :=
  TreeMap.toList_insert_last fun a ha => compare_lt_iff_lt.mpr (h a ha)

theorem GoneRows.rows_insert_last {g : GoneRows} {key : String} {t : SystemTime}
    (h : ∀ row ∈ g.rows, row.1 < key) : (g.insert key t).rows = g.rows ++ [(key, t)] :=
  TreeMap.toList_insert_last fun a ha => compare_lt_iff_lt.mpr (h a ha)

end

end S3Cache.Index

namespace S3Cache.Fleet

open Index Fallible ByteCodec Ascending

theorem forall_mem_snoc {α : Type} {P : α → Prop} {xs : List α} {x : α} (h : ∀ y ∈ xs, P y)
    (hx : P x) : ∀ y ∈ xs ++ [x], P y := by
  simpa [or_imp, forall_and] using ⟨h, hx⟩

section
variable [Layout] [ETagReader] {caps : ImageCaps}

structure RowsListed (caps : ImageCaps) (u : List UInt8) (start : DecodeBudget)
    (done : List (String × ObjEntry)) (st : RowsDecoding) : Prop where
  unread : u = done.flatMap rowEnc ++ st.reader.unread
  rows : st.keys.rows = done
  ascends : Ascends (done.map Prod.fst) st.previous
  ok : ∀ row ∈ done, EntryOk row.1 row.2 caps.nameBytes
  reads : ∀ row ∈ done, ETagReads row.2.etag
  stats : done.length < 2 ^ 64 → st.stats = .ofRows done
  measured : ∀ m : Measuring, m.budget = start →
    m.encoded + (done.flatMap rowEnc).length ≤ usizeMax →
    done.foldlM (measureRow caps) m =
      .ok { m with budget := st.budget, encoded := m.encoded + (done.flatMap rowEnc).length }

theorem RowsListed.step (hprint : Prints) (hcap : caps.nameBytes < 2 ^ 32) {u : List UInt8}
    {start : DecodeBudget} {done : List (String × ObjEntry)} {st st' : RowsDecoding}
    (h : RowsListed caps u start done st) (hstep : decodeRow caps.nameBytes st = .ok st') :
    ∃ row, RowsListed caps u start (done ++ [row]) st' := by
  simp only [decodeRow, bind_eq_ok, ite_error_eq_ok] at hstep
  obtain ⟨⟨⟨key, e⟩, reader, budget⟩, hread, hnext, hstep⟩ := hstep
  cases hstep
  obtain ⟨hok, hreads, hunread, c, hc, hb⟩ := readEntry_eq_ok hprint hread
  have hprev : ∀ last ∈ st.previous, last < key := by
    intro last hl
    simpa [Option.mem_def.mp hl] using hnext
  have hbefore : ∀ row ∈ st.keys.rows, row.1 < key := fun row hrow =>
    h.ascends.lt hprev row.1 (List.mem_map_of_mem (h.rows ▸ hrow))
  refine ⟨(key, e), ?_, ?_, ?_, forall_mem_snoc h.ok hok, forall_mem_snoc h.reads hreads,
    fun hlen => ?_, fun m hm hmax => ?_⟩
  · rw [h.unread, hunread]
    simp [rowEnc]
  · rw [KeyRows.rows_insert_last hbefore, h.rows]
  · rw [List.map_append]
    exact h.ascends.snoc hprev
  · rw [h.stats (by rw [List.length_append] at hlen; omega), IndexStats.forEntry_eq key e,
      IndexStats.replace_ofRows hlen]
  · simp only [List.flatMap_append, List.flatMap_singleton, List.length_append] at hmax ⊢
    refine foldlM_snoc (h.measured m hm (by omega)) ?_
    refine (measureRow_eq_ok_iff hcap hok.time).mpr ⟨hok, c, budget, hc, hb, ?_, ?_⟩
    · simp only
      omega
    · simp only [Nat.add_assoc]

structure GoneListed (caps : ImageCaps) (keys : KeyRows) (u : List UInt8) (start : DecodeBudget)
    (done : List (String × SystemTime)) (st : GoneDecoding) : Prop where
  unread : u = done.flatMap goneEnc ++ st.reader.unread
  rows : st.gone.rows = done
  ascends : Ascends (done.map Prod.fst) st.previous
  ok : ∀ row ∈ done, GoneOk keys caps.nameBytes row
  measured : ∀ m : Measuring, m.budget = start →
    m.encoded + (done.flatMap goneEnc).length ≤ usizeMax →
    done.foldlM (measureGone caps keys) m =
      .ok { m with budget := st.budget, encoded := m.encoded + (done.flatMap goneEnc).length }

omit [ETagReader] in
theorem GoneListed.step (hcap : caps.nameBytes < 2 ^ 32) {keys : KeyRows} {u : List UInt8}
    {start : DecodeBudget} {done : List (String × SystemTime)} {st st' : GoneDecoding}
    (h : GoneListed caps keys u start done st)
    (hstep : decodeGone caps.nameBytes keys st = .ok st') :
    ∃ row, GoneListed caps keys u start (done ++ [row]) st' := by
  simp only [decodeGone, bind_eq_ok, ite_error_eq_ok] at hstep
  obtain ⟨⟨key, r₁⟩, hkey, hnext, c, hc, budget, hb, ⟨deletedAt, r₂⟩, htime, hlive, hstep⟩ := hstep
  cases hstep
  obtain ⟨htext, e1⟩ := Reader.text_eq_ok hkey
  obtain ⟨hpos, e2⟩ := readTimestamp_eq_ok htime
  have hok : GoneOk keys caps.nameBytes (key, deletedAt) :=
    ⟨htext, hpos, fun e he => by simpa [he] using hlive⟩
  have hprev : ∀ last ∈ st.previous, last < key := by
    intro last hl
    simpa [Option.mem_def.mp hl] using hnext
  have hbefore : ∀ row ∈ st.gone.rows, row.1 < key := fun row hrow =>
    h.ascends.lt hprev row.1 (List.mem_map_of_mem (h.rows ▸ hrow))
  refine ⟨(key, deletedAt), ?_, ?_, ?_, forall_mem_snoc h.ok hok, fun m hm hmax => ?_⟩
  · rw [h.unread, e1, e2]
    simp [goneEnc]
  · rw [GoneRows.rows_insert_last hbefore, h.rows]
  · rw [List.map_append]
    exact h.ascends.snoc hprev
  · simp only [List.flatMap_append, List.flatMap_singleton, List.length_append] at hmax ⊢
    refine foldlM_snoc (h.measured m hm (by omega)) ?_
    refine (measureGone_eq_ok_iff hcap hpos).mpr ⟨hok, c, budget, hc, hb, ?_, ?_⟩
    · simp only
      omega
    · simp only [Nat.add_assoc]

structure BucketListed (caps : ImageCaps) (st st' : Decoding) (name : String) (b : BucketState) :
    Prop where
  next : ∀ last ∈ st.previous, last < name
  unread : st.reader.unread = bucketEnc name b ++ st'.reader.unread
  ok : BucketOk caps.nameBytes name b
  reads : ∀ row ∈ b.keys.rows, ETagReads row.2.etag
  stats : b.stats = .ofRows b.keys.rows
  total : st'.stats = st.stats.replace {} b.stats
  buckets : st'.buckets = st.buckets.insert name b
  previous : st'.previous = some name
  rows : st'.rows = st.rows + (b.keys.len + b.gone.len)
  rows_le : st'.rows ≤ caps.rows
  measured : ∀ (index : KeyIndexState) (encoded : Nat), index.buckets[name]? = some b →
    encoded + (bucketEnc name b).length ≤ usizeMax →
    measureBucket index caps ⟨st.budget, encoded, st.rows, st.previous⟩ name =
      .ok ⟨st'.budget, encoded + (bucketEnc name b).length, st'.rows, some name⟩

omit [ETagReader] in
theorem measureBucket_of_ok {index : KeyIndexState} {name : String} {b : BucketState}
    {start budget budget₁ budget₂ : DecodeBudget} {c encoded rows : Nat} {previous : Option String}
    (hvalid : caps.validate = .ok caps) (hget : index.buckets[name]? = some b)
    (hok : BucketOk caps.nameBytes name b) (hnext : ∀ last ∈ previous, last < name)
    (hc : bucketCharge name.utf8ByteSize = .ok c) (hb : start.take c = .ok budget)
    (hrows : rows + (b.keys.len + b.gone.len) ≤ caps.rows)
    (hk : ∀ m : Measuring, m.budget = budget →
      m.encoded + (b.keys.rows.flatMap rowEnc).length ≤ usizeMax →
      b.keys.rows.foldlM (measureRow caps) m = .ok { m with
        budget := budget₁, encoded := m.encoded + (b.keys.rows.flatMap rowEnc).length })
    (hg : ∀ m : Measuring, m.budget = budget₁ →
      m.encoded + (b.gone.rows.flatMap goneEnc).length ≤ usizeMax →
      b.gone.rows.foldlM (measureGone caps b.keys) m = .ok { m with
        budget := budget₂, encoded := m.encoded + (b.gone.rows.flatMap goneEnc).length })
    (hmax : encoded + (bucketEnc name b).length ≤ usizeMax) :
    measureBucket index caps ⟨start, encoded, rows, previous⟩ name =
      .ok ⟨budget₂, encoded + (bucketEnc name b).length, rows + (b.keys.len + b.gone.len),
        some name⟩ := by
  obtain ⟨-, -, -, -, -, -, -, -, hrowsCap, -, hnameCap⟩ := ImageCaps.validate_eq_ok hvalid
  have hlen : (bucketEnc name b).length = 4 + name.utf8ByteSize + 4 + 4 +
      (b.keys.rows.flatMap rowEnc).length + (b.gone.rows.flatMap goneEnc).length := by
    simp only [bucketEnc, List.length_append, length_textEnc, length_leBytes]
    omega
  rw [hlen] at hmax ⊢
  have himage : imageBucket index name previous caps = .ok b :=
    (imageBucket_eq_ok_iff (by omega)).mpr
      ⟨hok.name, hnext, hget, hok.synced, hok.certain, hok.settled⟩
  have hlt := hok.name.lt
  have htext : textBytes name.utf8ByteSize = .ok (4 + name.utf8ByteSize) :=
    sum_pair_eq_ok.mpr ⟨by unfold usizeMax; omega, rfl⟩
  have hbytes : bucketBytes name.utf8ByteSize = .ok (4 + name.utf8ByteSize + 4 + 4) := by
    rw [bucketBytes, htext, bind_ok, sum_of_le]
    · simp [Nat.add_assoc]
    · simp only [List.sum_cons, List.sum_nil, usizeMax]
      omega
  have hsum : sum [encoded, 4 + name.utf8ByteSize + 4 + 4] =
      .ok (encoded + (4 + name.utf8ByteSize + 4 + 4)) := sum_pair_eq_ok.mpr ⟨by omega, rfl⟩
  have hadd : addRows rows b caps = .ok (rows + (b.keys.len + b.gone.len)) :=
    (addRows_eq_ok_iff (by unfold usizeMax; omega)).mpr ⟨by omega, (Nat.add_assoc _ _ _).symm⟩
  simp only [measureBucket, himage, bind_ok, hc, hb, hbytes, hsum, hadd]
  rw [hk _ rfl (by simp only; omega), bind_ok, hg _ rfl (by simp only; omega)]
  simp only [Nat.add_assoc]

theorem decodeBucket_listed (hprint : Prints) (hvalid : caps.validate = .ok caps)
    {st st' : Decoding} (h : decodeBucket caps st = .ok st') :
    ∃ name b, BucketListed caps st st' name b := by
  obtain ⟨-, -, -, -, -, -, -, -, hrowsCap, -, hnameCap⟩ := ImageCaps.validate_eq_ok hvalid
  have hcap : caps.nameBytes < 2 ^ 32 := by omega
  simp only [decodeBucket, bind_eq_ok, ite_error_eq_ok] at h
  obtain ⟨⟨name, r₁⟩, hname, hnext, c, hc, budget, hb, ⟨keyCount, r₂⟩, hkc, rows₁, hr₁, keyed,
    hkeyed, ⟨goneCount, r₃⟩, hgc, rows₂, hr₂, buried, hburied, h⟩ := h
  simp only at hname hnext hc hkc hr₁ hkeyed hgc hr₂ hburied h
  obtain ⟨b, hbucket⟩ : ∃ b : BucketState, b =
    { synced := true, keys := keyed.keys, gone := buried.gone, stats := keyed.stats } := ⟨_, rfl⟩
  rw [← hbucket] at h
  cases h
  obtain ⟨htext, e1⟩ := Reader.text_eq_ok hname
  obtain ⟨hklt, e2⟩ := Reader.u32_eq_ok hkc
  obtain ⟨hglt, e3⟩ := Reader.u32_eq_ok hgc
  obtain ⟨hrows₁, -⟩ := countRows_eq_ok hr₁
  obtain ⟨hrows₂, hle⟩ := countRows_eq_ok hr₂
  obtain ⟨keys, hklen, hk⟩ := iterate_lists
    (fun done s s' hd hs => RowsListed.step hprint hcap hd hs)
    (⟨rfl, rfl, .nil, by simp, by simp, fun _ => rfl, fun m hm _ => by rw [← hm]; rfl⟩ :
      RowsListed caps r₂.unread budget [] { reader := r₂, budget }) hkeyed
  obtain ⟨gone, hglen, hg⟩ := iterate_lists
    (fun done s s' hd hs => GoneListed.step hcap hd hs)
    (⟨rfl, rfl, .nil, by simp, fun m hm _ => by rw [← hm]; rfl⟩ :
      GoneListed caps keyed.keys r₃.unread keyed.budget []
        { reader := r₃, budget := keyed.budget }) hburied
  obtain ⟨rfl, rfl⟩ := And.intro hk.rows.symm hg.rows.symm
  have hkeysLen : keyed.keys.len = keyCount := by
    rw [← hklen]
    exact Std.ExtTreeMap.length_toList.symm
  have hgoneLen : buried.gone.len = goneCount := by
    rw [← hglen]
    exact Std.ExtTreeMap.length_toList.symm
  have hbk : b.keys = keyed.keys := by rw [hbucket]
  have hbg : b.gone = buried.gone := by rw [hbucket]
  have hok : BucketOk caps.nameBytes name b :=
    { name := htext
      synced := by rw [hbucket]
      certain := by rw [hbucket]
      settled := by rw [hbucket]
      keyCount := by rw [hbk, hkeysLen]; exact hklt
      rows := by rw [hbk]; exact hk.ok
      goneCount := by rw [hbg, hgoneLen]; exact hglt
      gone := by rw [hbk, hbg]; exact hg.ok }
  have hrows : rows₂ = st.rows + (b.keys.len + b.gone.len) := by
    rw [hbk, hbg]
    omega
  have hprev : ∀ last ∈ st.previous, last < name := by
    intro last hl
    simpa [Option.mem_def.mp hl] using hnext
  refine ⟨name, b, ⟨hprev, ?_, hok, by rw [hbk]; exact hk.reads, ?_, by rw [hbucket], rfl, rfl,
    hrows, hle, fun index encoded hget hmax => ?_⟩⟩
  · rw [e1, e2, hk.unread, e3, hg.unread]
    simp only [bucketEnc, hbk, hbg, hkeysLen, hgoneLen, List.append_assoc]
  · rw [hbucket]
    exact hk.stats (by omega)
  · have hm := measureBucket_of_ok hvalid hget hok hprev hc hb (hrows ▸ hle)
      (by rw [hbk]; exact hk.measured) (by rw [hbk, hbg]; exact hg.measured) hmax
    rw [hm, hrows]

def itemsEnc (items : List (String × BucketState)) : List UInt8 :=
  items.flatMap fun item => bucketEnc item.1 item.2

omit [Layout] [ETagReader] in
theorem bucketsEnc_of_items {index : KeyIndexState} {items : List (String × BucketState)}
    (h : ∀ item ∈ items, index.buckets[item.1]? = some item.2) :
    bucketsEnc index (items.map Prod.fst) = itemsEnc items := by
  induction items with
  | nil => rfl
  | cons item items ih =>
    obtain ⟨hitem, hitems⟩ := List.forall_mem_cons.mp h
    rw [List.map_cons, bucketsEnc_cons, bucket_of_get hitem, ih hitems]
    rfl

structure BucketsListed (caps : ImageCaps) (u : List UInt8) (start : DecodeBudget)
    (done : List (String × BucketState)) (st : Decoding) : Prop where
  unread : u = itemsEnc done ++ st.reader.unread
  buckets : st.buckets.toList = done
  ascends : Ascends (done.map Prod.fst) st.previous
  ok : ∀ item ∈ done, BucketOk caps.nameBytes item.1 item.2
  reads : ∀ item ∈ done, ∀ row ∈ item.2.keys.rows, ETagReads row.2.etag
  stats : ∀ item ∈ done, item.2.stats = .ofRows item.2.keys.rows
  total : st.stats = .ofRows (done.flatMap fun item => item.2.keys.rows)
  rows : (done.flatMap fun item => item.2.keys.rows).length ≤ st.rows
  rows_le : st.rows ≤ caps.rows
  measured : ∀ (index : KeyIndexState) (encoded : Nat),
    (∀ item ∈ done, index.buckets[item.1]? = some item.2) →
    encoded + (itemsEnc done).length ≤ usizeMax →
    (done.map Prod.fst).foldlM (measureBucket index caps) ⟨start, encoded, 0, none⟩ =
      .ok ⟨st.budget, encoded + (itemsEnc done).length, st.rows, st.previous⟩

theorem BucketsListed.step (hprint : Prints) (hvalid : caps.validate = .ok caps) {u : List UInt8}
    {start : DecodeBudget} {done : List (String × BucketState)} {st st' : Decoding}
    (h : BucketsListed caps u start done st) (hstep : decodeBucket caps st = .ok st') :
    ∃ item, BucketsListed caps u start (done ++ [item]) st' := by
  obtain ⟨-, -, -, -, -, -, -, -, hrowsCap, -, -⟩ := ImageCaps.validate_eq_ok hvalid
  obtain ⟨name, b, hb⟩ := decodeBucket_listed hprint hvalid hstep
  have hbefore : ∀ item ∈ st.buckets.toList, compare item.1 name = .lt := fun item hitem =>
    compare_lt_iff_lt.mpr
      (h.ascends.lt hb.next item.1 (List.mem_map_of_mem (h.buckets ▸ hitem)))
  have hlen : b.keys.rows.length = b.keys.len := Std.ExtTreeMap.length_toList
  have hrows := h.rows
  have hrows' := hb.rows
  have hle := hb.rows_le
  have hcount : ((done ++ [(name, b)]).flatMap fun item => item.2.keys.rows).length ≤ st'.rows := by
    rw [List.flatMap_append, List.flatMap_singleton, List.length_append, hlen]
    omega
  refine ⟨(name, b), ?_, ?_, ?_, forall_mem_snoc h.ok hb.ok, forall_mem_snoc h.reads hb.reads,
    forall_mem_snoc h.stats hb.stats, ?_, hcount, hle, fun index encoded hget hmax => ?_⟩
  · rw [h.unread, hb.unread]
    simp [itemsEnc]
  · rw [hb.buckets, TreeMap.toList_insert_last hbefore, h.buckets]
  · rw [List.map_append, hb.previous]
    exact h.ascends.snoc hb.next
  · rw [hb.total, h.total, hb.stats, IndexStats.replace_ofRows, List.flatMap_append,
      List.flatMap_singleton]
    simp only [List.flatMap_append, List.flatMap_singleton] at hcount
    omega
  · simp only [itemsEnc, List.flatMap_append, List.flatMap_singleton, List.length_append,
      List.map_append, List.map_cons, List.map_nil] at hmax ⊢
    refine foldlM_snoc (h.measured index encoded
      (fun item hitem => hget item (List.mem_append_left _ hitem))
      (by simp only [itemsEnc]; omega)) ?_
    rw [hb.previous, hb.measured index _ (hget (name, b) (by simp))
      (by simp only [itemsEnc]; omega), Nat.add_assoc]
    rfl

structure CanonicalImage (bytes : List UInt8) (caps : ImageCaps) (s : KeyIndexState)
    (size : ImageSize) : Prop where
  measured : measureImage s s.buckets.keys caps = .ok size
  bytes : bytes = imageEnc s s.buckets.keys
  timed : Timed s s.buckets.keys
  reads : IndexReads s s.buckets.keys
  stats : ∀ n ∈ s.buckets.keys, (s.bucket n).stats = .ofRows (s.bucket n).keys.rows
  total : s.stats = .ofRows (s.buckets.keys.flatMap fun n => (s.bucket n).keys.rows)

theorem decode_canonical (hprint : Prints) {bytes : List UInt8} {s : KeyIndexState}
    (h : decode bytes caps = .ok s) : ∃ size, CanonicalImage bytes caps s size := by
  simp only [decode, bind_eq_ok, ite_error_eq_ok, not_or, not_lt, not_not] at h
  obtain ⟨caps', hvalid, ⟨-, hbytes⟩, ⟨version, r⟩, hversion, hv, ⟨count, reader⟩, hcount, hbuckets,
    budget, hnew, c, hc, budget', hb, st, hst, hend, h⟩ := h
  simp only at hv hcount hbuckets hnew hc hst
  obtain rfl := (ImageCaps.validate_eq_ok hvalid).1
  obtain ⟨-, -, hbytesCap, -, -, -, -, -, -, -, -⟩ := ImageCaps.validate_eq_ok hvalid
  cases h
  obtain ⟨items, hlen, hl⟩ := iterate_lists
    (fun done s s' hd hs => BucketsListed.step hprint hvalid hd hs)
    (⟨rfl, rfl, .nil, by simp, by simp, by simp, rfl, by simp, by simp, fun _ _ _ _ => rfl⟩ :
      BucketsListed caps' reader.unread budget' [] { reader, budget := budget' }) hst
  obtain ⟨s, hs⟩ : ∃ s : KeyIndexState, s = { buckets := st.buckets, stats := st.stats } :=
    ⟨_, rfl⟩
  rw [← hs]
  have hkeys : s.buckets.keys = items.map Prod.fst := by
    rw [hs, ← hl.buckets]
    exact Std.ExtTreeMap.map_fst_toList_eq_keys.symm
  have hget : ∀ item ∈ items, s.buckets[item.1]? = some item.2 := fun item hitem => by
    rw [hs]
    exact Std.ExtTreeMap.mem_toList_iff_getElem?_eq_some.mp (hl.buckets ▸ hitem)
  have hbucket : ∀ item ∈ items, s.bucket item.1 = item.2 := fun item hitem =>
    bucket_of_get (hget item hitem)
  have hcountLen : s.buckets.keys.length = count := by rw [hkeys, List.length_map, hlen]
  obtain ⟨hlt, e2⟩ := Reader.u32_eq_ok hcount
  have hall : bytes = imageEnc s s.buckets.keys := by
    have e1 := Reader.u8_eq_ok hversion
    simp only at e1
    rw [e1, e2, hl.unread, hend, hv, List.append_nil, imageEnc, hcountLen, hkeys,
      bucketsEnc_of_items hget]
  have hforall : ∀ P : BucketState → Prop, (∀ item ∈ items, P item.2) →
      ∀ n ∈ s.buckets.keys, P (s.bucket n) := by
    intro P hP n hn
    rw [hkeys] at hn
    obtain ⟨item, hitem, rfl⟩ := List.mem_map.mp hn
    rw [hbucket item hitem]
    exact hP item hitem
  have hlenBytes : bytes.length = headerBytes + (itemsEnc items).length := by
    rw [hall, imageEnc, hkeys, bucketsEnc_of_items hget]
    simp [headerBytes]
    omega
  have hmeasured : s.buckets.keys.foldlM (measureBucket s caps') ⟨budget', headerBytes, 0, none⟩ =
      .ok ⟨st.budget, bytes.length, st.rows, st.previous⟩ := by
    rw [hkeys, hl.measured s headerBytes hget (by unfold usizeMax; omega), hlenBytes]
  have hsize : ¬ (caps'.buckets < count ∨ s.buckets.size ≠ count) := by
    have : s.buckets.size = count := Std.ExtTreeMap.length_keys.symm.trans hcountLen
    omega
  refine ⟨⟨bytes.length, st.budget.used, st.rows⟩, ?_, hall,
    ⟨hforall (fun b => ∀ row ∈ b.keys.rows, 0 ≤ row.2.lastModified.ns)
        fun item hitem row hrow => ((hl.ok item hitem).rows row hrow).time,
      hforall (fun b => ∀ row ∈ b.gone.rows, 0 ≤ row.2.ns)
        fun item hitem row hrow => ((hl.ok item hitem).gone row hrow).time⟩,
    hforall (fun b => ∀ row ∈ b.keys.rows, ETagReads row.2.etag) hl.reads,
    hforall (fun b => b.stats = .ofRows b.keys.rows) hl.stats, ?_⟩
  · simp only [measureImage, sizeImage, hvalid, bind_ok, hcountLen, if_neg hsize, hnew, hc, hb,
      hmeasured, if_neg (not_lt.mpr hbytes)]
    rfl
  · have hflat : (s.buckets.keys.flatMap fun n => (s.bucket n).keys.rows) =
        items.flatMap fun item => item.2.keys.rows := by
      rw [hkeys, List.flatMap_map]
      exact List.flatMap_congr fun item hitem => by rw [hbucket item hitem]
    rw [hflat, ← hl.total, hs]

def maxCaps : ImageCaps := ⟨256 * 2 ^ 20, 2 ^ 30, 4096, 2000000, 16384⟩

omit [Layout] [ETagReader] in
theorem ExactSize.covers {index : KeyIndexState} {names : List String} {size : ImageSize}
    (h : ExactSize index names caps size) : Covers maxCaps caps size names := by
  obtain ⟨-, -, hbytes, -, hdecoded, -, hbuckets, -, hrows, -, hnames⟩ :=
    ImageCaps.validate_eq_ok h.valid
  exact
    { valid := rfl
      bytes := h.encoded_le.trans hbytes
      decodedBytes := h.decoded_le.trans hdecoded
      rows := h.rows_le.trans hrows
      buckets := h.count.trans hbuckets
      nameBytes := hnames }

theorem image_unique {index index' : KeyIndexState} {names names' : List String}
    {caps' : ImageCaps} {size size' : ImageSize} {extra : List UInt8}
    (hm : measureImage index names caps = .ok size) (ht : Timed index names)
    (hr : IndexReads index names) (hm' : measureImage index' names' caps' = .ok size')
    (ht' : Timed index' names') (hr' : IndexReads index' names')
    (h : imageEnc index names ++ extra = imageEnc index' names') :
    extra = [] ∧ size.decodedBytes = size'.decodedBytes := by
  have hx := measureImage_exact hm ht
  have hx' := measureImage_exact hm' ht'
  obtain ⟨c, st, hc, -, -, hst, hend, hused, -⟩ :=
    iterate_decodeBucket hm hx.image hr hx.covers extra
  obtain ⟨c', st', hc', -, -, hst', hend', hused', -⟩ :=
    iterate_decodeBucket hm' hx'.image hr' hx'.covers []
  simp only [imageEnc, List.cons_append, List.cons.injEq, true_and, List.append_assoc] at h
  obtain ⟨hcount, hrest⟩ := List.append_inj h (by simp)
  have hlen := leBytes_inj (w := 4) hx.image.count hx'.image.count hcount
  rw [← hlen] at hc' hst'
  obtain rfl : c = c' := Except.ok.inj (hc.symm.trans hc')
  rw [← hrest.trans (List.append_nil _).symm] at hst'
  obtain rfl : st = st' := Except.ok.inj (hst.symm.trans hst')
  exact ⟨by simpa using hend.symm.trans hend', hused.symm.trans hused'⟩

structure Reproduces (index s : KeyIndexState) (names : List String) : Prop where
  bucket : ∀ n ∈ names, ∃ b, s.buckets[n]? = some b ∧ b.synced = true ∧
    (∀ key, b.gone.get key = (index.bucket n).gone.get key) ∧
    (∀ key, b.keys.get key = ((index.bucket n).keys.get key).map ObjEntry.skeletal) ∧
    b.stats = .ofRows b.keys.rows
  total : s.stats = .ofRows (names.flatMap fun n => (s.bucket n).keys.rows)

theorem decode_exact (hprint : Prints) {index : KeyIndexState} {names : List String}
    {size : ImageSize} {bytes : List UInt8} (hm : measureImage index names caps = .ok size)
    (ht : Timed index names) (hr : IndexReads index names)
    (he : encode index names caps size = .ok bytes) :
    ∃ s, decode bytes { caps with bytes := size.encodedBytes, decodedBytes := size.decodedBytes } =
      .ok s ∧ Reproduces index s names := by
  have hx := measureImage_exact hm ht
  obtain ⟨-, -, hbytes, -, hdecoded, hb0, hbuckets, hr0, hrows, hn0, hnames⟩ :=
    ImageCaps.validate_eq_ok hx.valid
  have hle := hx.encoded_le
  have hle' := hx.decoded_le
  have hpos := hx.decoded_pos
  have hlen : 0 < size.encodedBytes := by
    rw [hx.encoded]
    exact Nat.succ_pos _
  have hcov : Covers { caps with bytes := size.encodedBytes, decodedBytes := size.decodedBytes }
      caps size names :=
    { valid := if_neg (by simp only; omega)
      bytes := le_rfl
      decodedBytes := le_rfl
      rows := hx.rows_le
      buckets := hx.count
      nameBytes := le_rfl }
  obtain ⟨s, hdecode, -, hdone, hothers⟩ := decode_encode hm he hr hcov
  obtain ⟨_, hcanon⟩ := decode_canonical hprint hdecode
  have hkeys : s.buckets.keys = names := by
    refine List.Pairwise.eq_of_mem_iff (r := (· < ·))
      (Std.ExtTreeMap.ordered_keys.imp compare_lt_iff_lt.mp) hx.image.ascending fun n => ?_
    rw [Std.ExtTreeMap.mem_keys, Std.ExtTreeMap.mem_iff_isSome_getElem?]
    refine ⟨fun hn => by_contra fun hnot => ?_, fun hn => ?_⟩
    · rw [hothers n hnot] at hn
      cases hn
    · obtain ⟨b, hb, -⟩ := hdone n hn
      rw [hb]
      rfl
  refine ⟨s, hdecode, fun n hn => ?_, hkeys ▸ hcanon.total⟩
  obtain ⟨b, hb, hd⟩ := hdone n hn
  have hstats := hcanon.stats n (hkeys.symm ▸ hn)
  rw [bucket_of_get hb] at hstats
  exact ⟨b, hb, hd.synced, fun key => congrArg KeyView.gone (hd.view key),
    fun key => congrArg KeyView.row (hd.view key), hstats⟩

/-- The image codec is exact and canonical.  A measured index encodes to the measured bytes,
which decode at the measured charge and at no smaller one; and an accepted byte string is what
its decoded index encodes to, so no part and no extension of it is accepted. -/
theorem image_codec_canonical (hprint : Prints) :
    (∀ index names caps size, measureImage index names caps = .ok size → Timed index names →
      IndexReads index names →
      ∃ bytes, encode index names caps size = .ok bytes ∧ bytes.length = size.encodedBytes ∧
        (∃ s, decode bytes
            { caps with bytes := size.encodedBytes, decodedBytes := size.decodedBytes } = .ok s ∧
          Reproduces index s names) ∧
        ∀ caps' s, caps'.decodedBytes < size.decodedBytes → decode bytes caps' ≠ .ok s) ∧
    ∀ bytes caps s, decode bytes caps = .ok s →
      (∃ size, measureImage s s.buckets.keys caps = .ok size ∧
        encode s s.buckets.keys caps size = .ok bytes) ∧
      (∀ extra caps' s', extra ≠ [] → decode (bytes ++ extra) caps' ≠ .ok s') ∧
      ∀ part caps' s', part <+: bytes → part ≠ bytes → decode part caps' ≠ .ok s' := by
  constructor
  · intro index names caps size hm ht hr
    have hx := measureImage_exact hm ht
    have he := encode_of_exact hx
    refine ⟨_, he, hx.encoded.symm, decode_exact hprint hm ht hr he, fun caps' s hlow hs => ?_⟩
    obtain ⟨size', hc⟩ := decode_canonical hprint hs
    have hx' := measureImage_exact hc.measured hc.timed
    obtain ⟨-, hcharge⟩ := image_unique hm ht hr hc.measured hc.timed hc.reads
      ((List.append_nil _).trans hc.bytes)
    have := hx'.decoded_le
    omega
  · intro bytes caps s hs
    obtain ⟨size, hc⟩ := decode_canonical hprint hs
    have hx := measureImage_exact hc.measured hc.timed
    have hextra : ∀ {image extra : List UInt8} {caps caps' s s'}, decode image caps = .ok s →
        decode (image ++ extra) caps' = .ok s' → extra = [] := by
      intro image extra caps caps' s s' hs hs'
      obtain ⟨size, hc⟩ := decode_canonical hprint hs
      obtain ⟨size', hc'⟩ := decode_canonical hprint hs'
      exact (image_unique hc.measured hc.timed hc.reads hc'.measured hc'.timed hc'.reads
        (hc.bytes ▸ hc'.bytes)).1
    refine ⟨⟨size, hc.measured, ?_⟩, fun extra caps' s' hne hs' => hne (hextra hs hs'), ?_⟩
    · rw [encode_of_exact hx, ← hc.bytes]
    · rintro part caps' s' ⟨extra, rfl⟩ hne hs'
      exact hne (by rw [hextra hs' hs, List.append_nil])

end

section Sample
local instance canonicalLayout : Layout := sampleLayout

/-- A parser that accepts only what the printer prints. -/
local instance canonicalReader : ETagReader :=
  ⟨fun text => (sampleETagParser.parse text).filter (etagText · = text)⟩

def sampleCanonicalRow : ObjEntry where
  size := some 7
  lastModified := fromMicros 20000000
  etag := some (.weak "x")
  storageClass := standardClass
  contentType := some "text/plain"
  objMeta := none

def sampleCanonical : KeyIndexState :=
  ({} : KeyIndexState).setBucket "b"
    { synced := true
      keys := ({} : KeyRows).insert "k" sampleCanonicalRow
      gone := ({} : GoneRows).insert "l" (fromMicros 21000000) }

theorem image_codec_canonical_sample :
    ∃ size bytes, measureImage sampleCanonical ["b"] maxCaps = .ok size ∧
      encode sampleCanonical ["b"] maxCaps size = .ok bytes ∧
      bytes.length = size.encodedBytes ∧
      ∀ caps s, decode (bytes ++ [0]) caps ≠ .ok s := by
  have hprint : Prints := by
    intro raw t h
    simpa using (Option.filter_eq_some_iff.mp h).2
  obtain ⟨size, hm⟩ : ∃ size, measureImage sampleCanonical ["b"] maxCaps = .ok size :=
    ⟨_, eq_ok_get (by decide +kernel)⟩
  have ht : Timed sampleCanonical ["b"] := ⟨by decide +kernel, by decide +kernel⟩
  have hr : IndexReads sampleCanonical ["b"] := by
    unfold IndexReads ETagReads
    decide +kernel
  obtain ⟨hexact, hcanon⟩ := image_codec_canonical hprint
  obtain ⟨bytes, he, hlen, ⟨s, hs, -⟩, -⟩ := hexact _ _ _ _ hm ht hr
  exact ⟨size, bytes, hm, he, hlen, fun caps s' => (hcanon _ _ _ hs).2.1 [0] caps s' (by simp)⟩

end Sample

end S3Cache.Fleet

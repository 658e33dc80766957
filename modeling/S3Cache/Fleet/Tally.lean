import S3Cache.Lib.TreeSum
import S3Cache.Index.Sweep
import S3Cache.Fleet.Exact
import S3Cache.Fleet.Donor
import S3Cache.Fleet.Reach

/-! The image size at the capture point (`tallied_size`) against the one measured row by row
(`measure_image`): the running tallies are the sums of the rows whatever led to them. -/

namespace S3Cache.Fleet.ImageTally

instance : Zero ImageTally := ⟨{}⟩
instance : Add ImageTally := ⟨add⟩
instance : Sub ImageTally := ⟨sub⟩
instance : Neg ImageTally := ⟨fun t => ⟨-t.encoded, -t.decoded⟩⟩

instance : AddCommGroup ImageTally where
  add_assoc a b c := congrArg₂ mk (add_assoc ..) (add_assoc ..)
  zero_add a := congrArg₂ mk (zero_add _) (zero_add _)
  add_zero a := congrArg₂ mk (add_zero _) (add_zero _)
  add_comm a b := congrArg₂ mk (add_comm ..) (add_comm ..)
  neg_add_cancel a := congrArg₂ mk (neg_add_cancel _) (neg_add_cancel _)
  sub_eq_add_neg a b := congrArg₂ mk (sub_eq_add_neg ..) (sub_eq_add_neg ..)
  nsmul := nsmulRec
  zsmul := zsmulRec

theorem add_def (a b : ImageTally) : a.add b = a + b := rfl

theorem sub_def (a b : ImageTally) : a.sub b = a - b := rfl

end S3Cache.Fleet.ImageTally

namespace S3Cache.Index

open Fleet TreeMap

inductive KeyCall where
  | insert (key : String) (entry : ObjEntry)
  | remove (key : String)
  | update (key : String) (change : ObjEntry → ObjEntry)

inductive RowCall where
  | keys (c : KeyCall)
  | gone (c : GoneCall)

structure BucketRows where
  keys : KeyRows := {}
  gone : GoneRows := {}

variable [Layout]

def KeyRows.apply (r : KeyRows) : KeyCall → KeyRows
  | .insert key entry => r.insert key entry
  | .remove key => r.remove key
  | .update key change => r.update key change

def BucketRows.apply (r : BucketRows) : RowCall → BucketRows
  | .keys c => { r with keys := r.keys.apply c }
  | .gone c => { r with gone := r.gone.apply c }

def BucketRows.run (history : List RowCall) : BucketRows := history.foldl apply {}

def rowTally (key : String) (e : ObjEntry) : ImageTally := .entry key.utf8ByteSize e

def goneTally (key : String) (_ : SystemTime) : ImageTally := .tombstone key.utf8ByteSize

namespace KeyRows

variable {r : KeyRows}

def share (r : KeyRows) : ImageTally := sumOf rowTally r.map

theorem share_split (r : KeyRows) (key : String) :
    r.share = sumOf rowTally (r.map.erase key) + (r.get key).elim 0 (rowTally key) :=
  sumOf_split ..

theorem share_insert (r : KeyRows) (key : String) (e : ObjEntry) :
    sumOf rowTally (r.map.insert key e) = sumOf rowTally (r.map.erase key) + rowTally key e :=
  sumOf_insert ..

theorem tallied_insert (h : r.image = r.share) (key : String) (e : ObjEntry) :
    (r.insert key e).image = (r.insert key e).share := by
  rw [share, insert, share_insert]
  simp only [ImageTally.add_def, ImageTally.sub_def, h, r.share_split key]
  cases r.get key with
  | none =>
    rw [Option.elim_none, add_zero]
    rfl
  | some previous =>
    show _ + rowTally key previous + rowTally key e - rowTally key previous = _
    abel

theorem tallied_remove (h : r.image = r.share) (key : String) :
    (r.remove key).image = (r.remove key).share := by
  unfold remove
  split
  · next previous hrow =>
    show r.image - rowTally key previous = sumOf rowTally (r.map.erase key)
    rw [h, r.share_split key, hrow, Option.elim_some, add_sub_cancel_right]
  · exact h

theorem tallied_update (h : r.image = r.share) (key : String) (change : ObjEntry → ObjEntry) :
    (r.update key change).image = (r.update key change).share := by
  unfold update
  split
  · next e hrow =>
    show r.image - rowTally key e + rowTally key (change e) =
      sumOf rowTally (r.map.insert key (change e))
    rw [share_insert, h, r.share_split key, hrow, Option.elim_some, add_sub_cancel_right]
  · exact h

theorem tallied_apply (h : r.image = r.share) (c : KeyCall) :
    (r.apply c).image = (r.apply c).share := by
  cases c with
  | insert key e => exact tallied_insert h key e
  | remove key => exact tallied_remove h key
  | update key change => exact tallied_update h key change

end KeyRows

namespace GoneRows

variable {g : GoneRows}

def share (g : GoneRows) : ImageTally := sumOf goneTally g.map

theorem share_split (g : GoneRows) (key : String) :
    g.share = sumOf goneTally (g.map.erase key) + (g.get key).elim 0 (goneTally key) :=
  sumOf_split ..

theorem tallied_insert (h : g.image = g.share) (key : String) (t : SystemTime) :
    (g.insert key t).image = (g.insert key t).share := by
  have hnew : (g.insert key t).share = sumOf goneTally (g.map.erase key) + goneTally key t :=
    sumOf_insert ..
  rw [hnew]
  show (if (g.get key).isNone then g.image + goneTally key t else g.image) = _
  rw [h, g.share_split key]
  cases g.get key with
  | none => rw [Option.isNone_none, if_pos rfl, Option.elim_none, add_zero]
  | some previous => rfl

theorem tallied_remove (h : g.image = g.share) (key : String) :
    (g.remove key).image = (g.remove key).share := by
  unfold remove
  split
  · next t hrow =>
    show g.image - goneTally key t = sumOf goneTally (g.map.erase key)
    rw [h, g.share_split key, hrow, Option.elim_some, add_sub_cancel_right]
  · exact h

theorem tallied_foldl_remove (h : g.image = g.share) (keys : List String) :
    (keys.foldl remove g).image = (keys.foldl remove g).share := by
  induction keys generalizing g with
  | nil => exact h
  | cons key keys ih => exact ih (tallied_remove h key)

theorem tallied_sweep (h : g.image = g.share) (cutoff : SystemTime) :
    (g.sweepExpired cutoff).2.image = (g.sweepExpired cutoff).2.share := by
  by_cases hclear : g.Clear cutoff
  · rw [sweepExpired_clear hclear]
    exact h
  · rw [sweepExpired_eq hclear]
    refine tallied_foldl_remove ?_ _
    unfold moved
    split <;> exact h

theorem tallied_raise (h : g.image = g.share) (key : String) (t : SystemTime) :
    (g.raise key t).image = (g.raise key t).share := by
  unfold raise
  split
  · exact tallied_insert h key t
  · exact h

theorem tallied_apply (h : g.image = g.share) (c : GoneCall) :
    (g.apply c).image = (g.apply c).share := by
  cases c with
  | insert key t => exact tallied_insert h key t
  | raise key t => exact tallied_raise h key t
  | remove key => exact tallied_remove h key
  | sweep cutoff => exact tallied_sweep h cutoff

end GoneRows

structure BucketRows.Tallied (r : BucketRows) : Prop where
  keys : r.keys.image = r.keys.share
  gone : r.gone.image = r.gone.share

theorem tallied_run (history : List RowCall) : (BucketRows.run history).Tallied := by
  have hempty : ({} : BucketRows).Tallied :=
    ⟨(sumOf_empty (f := rowTally)).symm, (sumOf_empty (f := goneTally)).symm⟩
  suffices H : ∀ r : BucketRows, r.Tallied → (history.foldl BucketRows.apply r).Tallied from
    H {} hempty
  induction history with
  | nil => exact fun r h => h
  | cons c history ih =>
    intro r h
    refine ih _ ?_
    cases c with
    | keys c => exact ⟨KeyRows.tallied_apply h.keys c, h.gone⟩
    | gone c => exact ⟨h.keys, GoneRows.tallied_apply h.gone c⟩

def BucketRows.Recorded (r : BucketRows) : Prop := ∃ history, r = run history

theorem BucketRows.Recorded.apply {r : BucketRows} (h : r.Recorded) (c : RowCall) :
    (r.apply c).Recorded := by
  obtain ⟨history, rfl⟩ := h
  exact ⟨history ++ [c], by simp only [run, List.foldl_append, List.foldl_cons, List.foldl_nil]⟩

theorem BucketRows.recorded_empty : ({} : BucketRows).Recorded := ⟨[], rfl⟩

namespace BucketState

variable {b : BucketState}

omit [Layout] in
def rows (b : BucketState) : BucketRows := ⟨b.keys, b.gone⟩

omit [Layout] in
@[simp] theorem rows_touch (key : String) : (b.touch key).rows = b.rows := by
  unfold touch
  split <;> rfl

theorem rows_dropRow (key : String) : (b.dropRow key).rows = b.rows.apply (.keys (.remove key)) := by
  unfold dropRow
  split
  · rfl
  · next hrow => simp only [rows, BucketRows.apply, KeyRows.apply, KeyRows.remove, hrow]

theorem recorded_afterPut (h : b.rows.Recorded) (key : String) (e : ObjEntry)
    (auth : PutAuthority) : (b.afterPut key e auth).rows.Recorded := by
  have hset : ((if b.firstPut key auth then { b with gone := b.gone.remove key } else b).setRow
      key e).rows.Recorded := by
    split
    · exact (h.apply (.gone (.remove key))).apply (.keys (.insert key e))
    · exact h.apply (.keys (.insert key e))
  unfold afterPut
  split
  · exact h
  · unfold acceptPut
    cases auth with
    | definitiveMutation =>
      simp only [rows_touch]
      exact hset
    | observation => exact hset

theorem recorded_entomb (h : b.rows.Recorded) (key : String) (ts : SystemTime) :
    (b.entomb key ts).rows.Recorded := by
  unfold entomb
  split
  · exact h.apply (.gone (.insert key ts))
  · exact h.apply (.gone (.raise key ts))

theorem recorded_afterDel (h : b.rows.Recorded) (key : String) (ts : SystemTime) :
    (b.afterDel key ts).rows.Recorded := by
  unfold afterDel
  split
  · exact recorded_entomb h key ts
  · rw [acceptDel, rows_dropRow, rows_touch]
    exact (recorded_entomb h key ts).apply _

theorem recorded_sweepTombstones (h : b.rows.Recorded) (ts : SystemTime) :
    (b.sweepTombstones ts).rows.Recorded := by
  unfold sweepTombstones
  split
  · split
    · next cutoff _ => exact h.apply (.gone (.sweep cutoff))
    · exact h
  · exact h

theorem recorded_afterComplete (h : b.rows.Recorded) (key : String) (fill : EntryFill) :
    (b.afterComplete key fill).rows.Recorded := by
  unfold afterComplete
  split
  · exact h
  · split
    · exact h
    · exact h.apply (.keys (.update key (·.fill fill)))

theorem recorded_afterResolve (h : b.rows.Recorded) (key : String) (token : Nat)
    (now : SystemTime) (auth : AuthoritativeKeyState) :
    (b.afterResolve key token now auth).rows.Recorded := by
  unfold afterResolve
  split
  · cases auth with
    | present entry =>
      rw [resolve, rows_touch]
      exact (h.apply (.gone (.remove key))).apply (.keys (.insert key entry))
    | absent =>
      rw [resolve, rows_touch]
      have hraised : ({ b with gone := b.gone.raise key now }.dropRow key).rows.Recorded := by
        rw [rows_dropRow]
        exact (h.apply (.gone (.raise key now))).apply _
      exact hraised
  · exact h

theorem recorded_afterPage (h : b.rows.Recorded) (generation : Nat)
    (rows : List (String × ObjEntry)) : (b.afterPage generation rows).rows.Recorded := by
  unfold afterPage
  split
  · clear * - h
    induction rows generalizing b with
    | nil => exact h
    | cons row rows ih =>
      refine ih ?_
      unfold foldRow
      split
      · exact h.apply (.keys (.insert row.1 row.2))
      · exact h
  · exact h

end BucketState

end S3Cache.Index

namespace S3Cache.Fleet

open Index Fallible TreeMap

section
variable [Layout] {s s' live candidate : KeyIndexState} {names : List String}

def Recorded (s : KeyIndexState) : Prop := ∀ name, (s.bucket name).rows.Recorded

theorem recorded_empty : Recorded {} := fun name => by
  rw [KeyIndexState.bucket, Std.ExtTreeMap.getElem?_empty]
  exact BucketRows.recorded_empty

theorem Recorded.setBucket (h : Recorded s) {b : BucketState} {r : BucketRows} (hr : r.Recorded)
    (hb : b.rows = r) (name : String) : Recorded (s.setBucket name b) := fun n => by
  rw [KeyIndexState.bucket_setBucket]
  split
  · exact hb ▸ hr
  · exact h n

theorem Recorded.of_get (h : Recorded s) {name : String} {b : BucketState}
    (hb : s.buckets[name]? = some b) : b.rows.Recorded := by
  have hbucket := h name
  rwa [show s.bucket name = b by rw [KeyIndexState.bucket, hb]; rfl] at hbucket

theorem recorded_stable : KeyIndexState.Stable (·.rows.Recorded) where
  empty := BucketRows.recorded_empty
  discard _ _ := BucketRows.recorded_empty
  begun _ _ := BucketRows.recorded_empty
  put _ key e auth h := BucketState.recorded_afterPut h key e auth
  sweep _ ts h := BucketState.recorded_sweepTombstones h ts
  del _ key ts h := BucketState.recorded_afterDel h key ts
  complete _ key fill h := BucketState.recorded_afterComplete h key fill
  fence _ _ h := h
  resolve _ key token now authoritative h :=
    BucketState.recorded_afterResolve h key token now authoritative
  page _ generation rows h := BucketState.recorded_afterPage h generation rows
  finish b generation h := by
    unfold BucketState.afterFinish
    split <;> exact h

theorem Recorded.step {c : IndexCall} (h : Recorded s) (hstep : s.step c = some s') :
    Recorded s' := recorded_stable.step h hstep

theorem Recorded.replay (h : Recorded s) (delta : IndexDelta) : Recorded (delta.apply s) :=
  stable_replay recorded_stable h delta

theorem Recorded.snapshot (h : Recorded s) (hsnap : snapshotState s names = .ok s') :
    Recorded s' := by
  refine foldlM_keeps (P := fun _ t => Recorded t) ?_ recorded_empty hsnap
  intro done name t t' _ ht hstep
  split at hstep
  · cases hstep
  next source hsource =>
  cases hstep
  exact Recorded.setBucket (s := { t with stats := t.stats.replace {} source.stats }) ht
    (h.of_get hsource) (by rfl) name

theorem Recorded.decodeBucket [ETagReader] {caps : ImageCaps} {st st' : Decoding}
    (h : Recorded { buckets := st.buckets }) (hstep : decodeBucket caps st = .ok st') :
    Recorded { buckets := st'.buckets } := by
  obtain ⟨name, _, _, rows, keyed, gone, buried, -, ⟨hrows, -⟩, hkeyed, hgone, hburied, -, rfl⟩ :=
    decodeBucket_eq_ok hstep
  have hkeys : BucketRows.Recorded ⟨keyed.keys, {}⟩ := by
    refine iterate_keeps (P := fun _ (t : RowsDecoding) => BucketRows.Recorded ⟨t.keys, {}⟩) ?_ ?_
      hkeyed
    · intro _ t t' ht hread
      obtain ⟨key, e, reader, budget, -, -, rfl⟩ := decodeRow_eq_ok hread
      exact ht.apply (.keys (.insert key e))
    · rw [hrows]
      exact BucketRows.recorded_empty
  have hall : BucketRows.Recorded ⟨keyed.keys, buried.gone⟩ := by
    refine iterate_keeps (P := fun _ (t : GoneDecoding) => BucketRows.Recorded ⟨keyed.keys, t.gone⟩)
      ?_ ?_ hburied
    · intro _ t t' ht hread
      obtain ⟨key, time, -, hinsert⟩ := decodeGone_eq_ok hread
      rw [hinsert]
      exact ht.apply (.gone (.insert key time))
    · rw [hgone]
      exact hkeys
  exact Recorded.setBucket (s := { buckets := st.buckets }) h hall rfl name

theorem recorded_decode [ETagReader] {bytes : List UInt8} {caps : ImageCaps}
    (h : decode bytes caps = .ok s) : Recorded s := by
  obtain ⟨st, hrecorded, rfl⟩ := decode_keeps (fun st => Recorded { buckets := st.buckets }) h
    (fun _ _ => recorded_empty) fun _ _ => Recorded.decodeBucket
  exact hrecorded

theorem Recorded.carried {effect : String × String × Carried} (h : Recorded s)
    (hstep : applyCarried s effect = .ok s') : Recorded s' := by
  obtain ⟨name, key, effect⟩ := effect
  simp only [applyCarried] at hstep
  split at hstep
  · cases hstep
  next b hb =>
  have hrows := h.of_get hb
  cases effect with
  | delete t =>
    have hdrop : ({ b with gone := b.gone.raise key t }.dropRow key).rows.Recorded := by
      rw [BucketState.rows_dropRow]
      exact (hrows.apply (.gone (.raise key t))).apply _
    have hset := h.setBucket hdrop rfl name
    simp only at hstep
    split at hstep <;> cases hstep <;> exact hset
  | row e =>
    cases hstep
    exact h.setBucket (hrows.apply (.keys (.insert key e))) rfl name

theorem Recorded.publish {carry : Carry} (h : Recorded candidate)
    (hpublish : publish live candidate names carry = .ok s) : Recorded s := by
  simp only [Fleet.publish, bind_eq_ok] at hpublish
  obtain ⟨adopted, hadopt, t, hcarry, hpublish⟩ := hpublish
  cases hpublish
  have hadopted : Recorded adopted := by
    refine foldlM_keeps (P := fun _ t => Recorded t) ?_ h hadopt
    rintro done name t t' - ht hstep
    obtain ⟨b, hb, -, rfl⟩ := adopt_eq_ok hstep
    exact ht.setBucket (ht.of_get hb) (by rfl) name
  have hcarried : Recorded t :=
    foldlM_keeps (P := fun _ t => Recorded t) (fun _ _ _ _ _ => Recorded.carried) hadopted hcarry
  exact hcarried

theorem recorded_of_reached [ETagReader] {alignCuts : CutAligner}
    {P : KeyIndexState → Prop} {U : List String → Prop} (h : Reached alignCuts P U s) :
    Recorded s := by
  induction h with
  | empty => exact recorded_empty
  | decoded hdecode _ => exact recorded_decode hdecode
  | call _ hstep _ ih => exact ih.step hstep
  | replayed delta _ _ ih => exact ih.replay delta
  | swept cutoff _ hb _ ih =>
    exact ih.setBucket ((ih.of_get hb).apply (.gone (.sweep cutoff))) rfl _
  | snapshot _ _ hsnap _ ih => exact ih.snapshot hsnap
  | captured _ hbegin _ ih =>
    obtain ⟨-, -, hbuckets, -⟩ := beginFleetCapture_eq_ok hbegin
    intro name
    rw [KeyIndexState.bucket_congr hbuckets]
    exact ih name
  | installed _ _ hinstall _ _ ih =>
    obtain ⟨carry, -, hpublish⟩ := publish_of_install hinstall
    exact ih.publish hpublish

end

structure Spends (tally : ImageTally) (m m' : Measuring) : Prop where
  spent : ∃ bytes charge, tally = ⟨BitVec.ofNat 64 bytes, BitVec.ofNat 64 charge⟩ ∧
    m' = { m with
      budget := { m.budget with used := m.budget.used + charge }, encoded := m.encoded + bytes }
  encoded : m.encoded ≤ usizeMax → m'.encoded ≤ usizeMax
  within : m.budget.used ≤ m.budget.limit → m'.budget.used ≤ m'.budget.limit

theorem Spends.zero (m : Measuring) : Spends 0 m m := ⟨⟨0, 0, rfl, rfl⟩, id, id⟩

theorem Spends.trans {a b : ImageTally} {m m' m'' : Measuring} (h : Spends a m m')
    (h' : Spends b m' m'') : Spends (a + b) m m'' := by
  obtain ⟨bytes, charge, rfl, rfl⟩ := h.spent
  obtain ⟨bytes', charge', rfl, rfl⟩ := h'.spent
  refine ⟨⟨bytes + bytes', charge + charge', ?_, ?_⟩, fun hw => h'.encoded (h.encoded hw),
    fun hw => h'.within (h.within hw)⟩
  · rw [BitVec.ofNat_add, BitVec.ofNat_add]
    rfl
  · simp only [Nat.add_assoc]

theorem foldlM_spends {α : Type} {f : Measuring → α → Except ImageError Measuring}
    (tally : α → ImageTally) (hf : ∀ x m m', f m x = .ok m' → Spends (tally x) m m')
    {xs : List α} {m m' : Measuring} (h : xs.foldlM f m = .ok m') :
    Spends (xs.map tally).sum m m' := by
  refine foldlM_keeps (P := fun done t => Spends (done.map tally).sum m t) ?_ (.zero m) h
  intro done x t t' _ ht hstep
  rw [List.map_append, List.sum_append, List.map_singleton, List.sum_singleton]
  exact ht.trans (hf x t t' hstep)

theorem Spends.exact {tally : ImageTally} {m m' : Measuring} (h : Spends tally m m')
    (hencoded : m'.encoded ≤ usizeMax) (hused : m'.budget.used ≤ usizeMax) :
    m' = { m with
      budget := { m.budget with used := m.budget.used + tally.decoded.toNat }
      encoded := m.encoded + tally.encoded.toNat } := by
  obtain ⟨bytes, charge, rfl, rfl⟩ := h.spent
  have hbytes : bytes < 2 ^ 64 := by
    have : m.encoded + bytes ≤ usizeMax := hencoded
    unfold usizeMax at this
    omega
  have hcharge : charge < 2 ^ 64 := by
    have : m.budget.used + charge ≤ usizeMax := hused
    unfold usizeMax at this
    omega
  simp only [BitVec.toNat_ofNat, Nat.mod_eq_of_lt hbytes, Nat.mod_eq_of_lt hcharge]

theorem Spends.of_take {m : Measuring} {b : DecodeBudget} {bytes charge : Nat}
    (hcharge : m.budget.take charge = .ok b) (hbytes : m.encoded + bytes ≤ usizeMax) :
    Spends ⟨BitVec.ofNat 64 bytes, BitVec.ofNat 64 charge⟩ m
      { m with budget := b, encoded := m.encoded + bytes } := by
  obtain ⟨-, rfl⟩ := take_eq_ok hcharge
  exact ⟨⟨bytes, charge, rfl, rfl⟩, fun _ => hbytes, fun _ => (take_within hcharge).2⟩

section
variable [Layout] {caps : ImageCaps} {m m' : Measuring}

theorem measureRow_spends {row : String × ObjEntry} (h : measureRow caps m row = .ok m') :
    Spends (rowTally row.1 row.2) m m' := by
  simp only [measureRow, ite_error_eq_ok, bind_eq_ok] at h
  obtain ⟨-, -, etag, hetag, -, -, charge, hcharge, b, hb, bytes, hbytes, encoded, hsum, h⟩ := h
  cases h
  obtain ⟨hle, rfl⟩ := sum_pair_eq_ok.mp hsum
  have htally : rowTally row.1 row.2 = ⟨BitVec.ofNat 64 bytes, BitVec.ofNat 64 charge⟩ := by
    simp only [rowTally, ImageTally.entry, rowCharge, hetag, hbytes, hcharge, bind_ok, orMax]
  rw [htally]
  exact .of_take hb hle

theorem measureGone_spends {keys : KeyRows} {row : String × SystemTime}
    (h : measureGone caps keys m row = .ok m') : Spends (goneTally row.1 row.2) m m' := by
  simp only [measureGone, ite_error_eq_ok, bind_eq_ok] at h
  obtain ⟨-, -, charge, hcharge, b, hb, bytes, hbytes, encoded, hsum, h⟩ := h
  cases h
  obtain ⟨hle, rfl⟩ := sum_pair_eq_ok.mp hsum
  have htally : goneTally row.1 row.2 = ⟨BitVec.ofNat 64 bytes, BitVec.ofNat 64 charge⟩ := by
    simp only [goneTally, ImageTally.tombstone, hbytes, hcharge, orMax]
  rw [htally]
  exact .of_take hb hle

structure BucketComplete (b : BucketState) : Prop where
  synced : b.synced = true
  certain : b.uncertainKeys = ∅
  settled : b.rebuildGeneration = none

structure Complete (live : KeyIndexState) (names : List String) : Prop where
  count : live.buckets.size = names.length
  bucket : ∀ name ∈ names, ∃ b, live.buckets[name]? = some b ∧ BucketComplete b

theorem tallyBucket_of_room {live : KeyIndexState} {name : String} {b : BucketState}
    {rows charge bytes : Nat} {b₁ : DecodeBudget}
    (himage : imageBucket live name m.previous caps = .ok b)
    (hrows : addRows m.rows b caps = .ok rows)
    (hcharge : bucketCharge name.utf8ByteSize = .ok charge) (htake : m.budget.take charge = .ok b₁)
    (hbytes : bucketBytes name.utf8ByteSize = .ok bytes)
    (hused : b₁.used + b.keys.image.decoded.toNat + b.gone.image.decoded.toNat ≤ b₁.limit)
    (hlimit : b₁.limit ≤ usizeMax)
    (hencoded : m.encoded + bytes + b.keys.image.encoded.toNat + b.gone.image.encoded.toNat ≤
      usizeMax) :
    tallyBucket live caps m name = .ok
      ⟨⟨b₁.used + b.keys.image.decoded.toNat + b.gone.image.decoded.toNat, b₁.limit⟩,
        m.encoded + bytes + b.keys.image.encoded.toNat + b.gone.image.encoded.toNat, rows,
        some name⟩ := by
  have htake₁ : b₁.take b.keys.image.decoded.toNat =
      .ok ⟨b₁.used + b.keys.image.decoded.toNat, b₁.limit⟩ :=
    take_of_le (by omega) (by omega)
  have htake₂ : (⟨b₁.used + b.keys.image.decoded.toNat, b₁.limit⟩ : DecodeBudget).take
      b.gone.image.decoded.toNat = .ok
        ⟨b₁.used + b.keys.image.decoded.toNat + b.gone.image.decoded.toNat, b₁.limit⟩ :=
    take_of_le (hused.trans hlimit) hused
  have hsum : [m.encoded, bytes, b.keys.image.encoded.toNat, b.gone.image.encoded.toNat].sum =
      m.encoded + bytes + b.keys.image.encoded.toNat + b.gone.image.encoded.toNat := by
    simp only [List.sum_cons, List.sum_nil, Nat.add_zero, Nat.add_assoc]
  have htotal := sum_of_le (hsum.trans_le hencoded)
  rw [hsum] at htotal
  rw [tallyBucket, himage, bind_ok, hrows, bind_ok, hcharge, bind_ok, htake, bind_ok, htake₁,
    bind_ok, htake₂, bind_ok, hbytes, bind_ok, htotal, bind_ok]
  rfl

theorem keys_spends {b : BucketState} (h : b.rows.Tallied)
    (hfold : b.keys.rows.foldlM (measureRow caps) m = .ok m') : Spends b.keys.image m m' := by
  have hsum : b.keys.image = (b.keys.rows.map fun row => rowTally row.1 row.2).sum := h.keys
  rw [hsum]
  refine foldlM_spends (fun row : String × ObjEntry => rowTally row.1 row.2) ?_ hfold
  intro row m m' hrow
  exact measureRow_spends hrow

theorem gone_spends {b : BucketState} {keys : KeyRows} (h : b.rows.Tallied)
    (hfold : b.gone.rows.foldlM (measureGone caps keys) m = .ok m') :
    Spends b.gone.image m m' := by
  have hsum : b.gone.image = (b.gone.rows.map fun row => goneTally row.1 row.2).sum := h.gone
  rw [hsum]
  refine foldlM_spends (fun row : String × SystemTime => goneTally row.1 row.2) ?_ hfold
  intro row m m' hrow
  exact measureGone_spends hrow

theorem tallyBucket_of_measure {live snapshot : KeyIndexState} {name : String} {b : BucketState}
    (hcap : caps.nameBytes < 2 ^ 32) (hb : live.buckets[name]? = some b) (hfit : BucketComplete b)
    (htally : b.rows.Tallied) (hkeys : (snapshot.bucket name).keys = b.keys)
    (hgone : (snapshot.bucket name).gone = b.gone) (hlimit : m.budget.limit ≤ usizeMax)
    (h : measureBucket snapshot caps m name = .ok m') :
    tallyBucket live caps m name = .ok m' ∧ m'.budget.limit ≤ usizeMax := by
  simp only [measureBucket, bind_eq_ok] at h
  obtain ⟨sb, hsb, charge, hc, b₁, h₁, bytes, hbytes, encoded, hsum, rows, hrows, m₁, hm₁, hm₂⟩ := h
  obtain ⟨hname, hlast, hget, -⟩ := (imageBucket_eq_ok_iff hcap).mp hsb
  have hcopy : snapshot.bucket name = sb := by rw [KeyIndexState.bucket, hget]; rfl
  rw [hcopy] at hkeys hgone
  have himage : imageBucket live name m.previous caps = .ok b :=
    (imageBucket_eq_ok_iff hcap).mpr ⟨hname, hlast, hb, hfit.synced, hfit.certain, hfit.settled⟩
  have hrows' : addRows m.rows b caps = .ok rows := by rwa [addRows, hkeys, hgone] at hrows
  rw [hkeys] at hm₁ hm₂
  rw [hgone] at hm₂
  obtain ⟨hle, rfl⟩ := sum_pair_eq_ok.mp hsum
  obtain ⟨hlimit₁, hused₁⟩ := take_within h₁
  -- the rows spend the bucket's tallies, none of which wraps below the two ceilings
  have hspend₁ := keys_spends htally hm₁
  have hspend₂ := gone_spends htally hm₂
  have hmax₁ := hspend₁.encoded hle
  have hwithin₁ := hspend₁.within hused₁
  have hlim₁ : m₁.budget.limit = b₁.limit := by
    obtain ⟨-, -, -, rfl⟩ := hspend₁.spent
    rfl
  have hlim₂ : m'.budget.limit = m₁.budget.limit := by
    obtain ⟨-, -, -, rfl⟩ := hspend₂.spent
    rfl
  have hmax₂ := hspend₂.encoded hmax₁
  have hwithin₂ := hspend₂.within hwithin₁
  have hroom : b₁.limit ≤ usizeMax := by omega
  have hlimit' : m'.budget.limit ≤ usizeMax := by omega
  have hfinal := hspend₂.exact hmax₂ (hwithin₂.trans hlimit')
  rw [hspend₁.exact hmax₁ (by omega)] at hfinal
  subst hfinal
  exact ⟨tallyBucket_of_room himage hrows' hc h₁ hbytes hwithin₂ hroom hmax₂, hlimit'⟩

theorem talliedSize_of_measure {live snapshot : KeyIndexState} {names : List String}
    {size : ImageSize} (hlive : Recorded live) (hcomplete : Complete live names)
    (hsnap : snapshotState live names = .ok snapshot)
    (h : measureImage snapshot names caps = .ok size) : talliedSize live names caps = .ok size := by
  simp only [measureImage, sizeImage, bind_eq_ok, ite_error_eq_ok, not_or, not_lt, not_not] at h
  obtain ⟨caps', hvalid, hcount, budget, hnew, charge, hcharge, budget', htake, m, hfold, h⟩ := h
  obtain ⟨rfl, -, -, -, hdecoded, -, -, -, -, -, hcap⟩ := ImageCaps.validate_eq_ok hvalid
  have hlimit : budget'.limit ≤ usizeMax := by
    simp only [DecodeBudget.new, ite_error_eq_ok, Except.ok.injEq] at hnew
    rw [(take_within htake).1, ← hnew.2]
    exact hdecoded.trans (by decide)
  -- each bucket is met in the state measuring is in, so the two folds run side by side
  have htallied : names.foldlM (tallyBucket live caps') { budget := budget', encoded := headerBytes }
      = .ok m := by
    refine foldlM_follows (P := fun m => m.budget.limit ≤ usizeMax) ?_ hlimit hfold
    intro name hname m m' hm hstep
    obtain ⟨b, hb, hfit⟩ := hcomplete.bucket name hname
    obtain ⟨hkeys, hgone⟩ := snapshotState_eq_ok hsnap name hname
    have hbucket : live.bucket name = b := by rw [KeyIndexState.bucket, hb]; rfl
    rw [hbucket] at hkeys hgone
    have hrows : b.rows.Tallied := by
      obtain ⟨history, hhistory⟩ := hbucket ▸ hlive name
      rw [hhistory]
      exact tallied_run history
    exact tallyBucket_of_measure (hcap.trans_lt (by decide)) hb hfit hrows hkeys hgone hm hstep
  simp only [talliedSize, sizeImage, bind_eq_ok, ite_error_eq_ok, not_or, not_lt, not_not]
  exact ⟨caps', hvalid, ⟨hcount.1, hcomplete.count⟩, budget, hnew, charge, hcharge, budget', htake,
    m, htallied, h⟩

theorem complete_of_talliedSize {live : KeyIndexState} {names : List String} {size : ImageSize}
    (h : talliedSize live names caps = .ok size) : Complete live names := by
  simp only [talliedSize, sizeImage, bind_eq_ok, ite_error_eq_ok, not_or, not_lt, not_not] at h
  obtain ⟨caps', hvalid, hcount, _, -, _, -, _, -, m, hfold, -⟩ := h
  obtain ⟨rfl, -, -, -, -, -, -, -, -, -, hcap⟩ := ImageCaps.validate_eq_ok hvalid
  refine ⟨hcount.2, ?_⟩
  refine foldlM_keeps (P := fun done _ => ∀ name ∈ done, ∃ b, live.buckets[name]? = some b ∧
    BucketComplete b) ?_ (fun _ hn => absurd hn List.not_mem_nil) hfold
  intro done name m m' _ hdone hstep other hother
  obtain hother | rfl := List.mem_append.mp hother |>.imp_right List.mem_singleton.mp
  · exact hdone other hother
  · simp only [tallyBucket, bind_eq_ok] at hstep
    obtain ⟨b, hb, -⟩ := hstep
    obtain ⟨-, -, hget, hsynced, hcertain, hsettled⟩ :=
      (imageBucket_eq_ok_iff (hcap.trans_lt (by decide))).mp hb
    exact ⟨b, hget, hsynced, hcertain, hsettled⟩

/-- Whatever was done to the rows and tombstones of a bucket, each map's tally is the wrapping
sum over what it holds. Where the snapshot measures, the tallies come to the same size on a
complete live index and to an error on any other, so what a capture reserved is what it encodes. -/
theorem capture_size_measured {live : KeyIndexState} (hlive : Recorded live) :
    (∀ history : List RowCall, (BucketRows.run history).Tallied) ∧
    (∀ names caps snapshot size, snapshotState live names = .ok snapshot →
      measureImage snapshot names caps = .ok size →
      (talliedSize live names caps = .ok size ↔ Complete live names) ∧
      ∀ other, talliedSize live names caps = .ok other → other = size) ∧
    ∀ host admits names caps pending s,
      beginFleetCapture live host admits names caps = .ok (pending, s) →
      (∀ size, measureImage pending.snapshot names caps = .ok size → size = pending.size) ∧
      ∀ image, pending.encode names caps = .ok image →
        image.length = pending.size.encodedBytes := by
  have hsizes : ∀ names caps snapshot size, snapshotState live names = .ok snapshot →
      measureImage snapshot names caps = .ok size → ∀ other,
      talliedSize live names caps = .ok other → other = size := by
    intro names caps snapshot size hsnap hmeasure other hother
    have hsize := talliedSize_of_measure hlive (complete_of_talliedSize hother) hsnap hmeasure
    exact Except.ok.inj (hother.symm.trans hsize)
  refine ⟨tallied_run, ?_, ?_⟩
  · intro names caps snapshot size hsnap hmeasure
    refine ⟨⟨complete_of_talliedSize, ?_⟩, hsizes names caps snapshot size hsnap hmeasure⟩
    intro hcomplete
    exact talliedSize_of_measure hlive hcomplete hsnap hmeasure
  · intro host admits names caps pending s hbegin
    obtain ⟨hsize, hsnap, -, -⟩ := beginFleetCapture_eq_ok hbegin
    refine ⟨?_, ?_⟩
    · intro size hmeasure
      exact (hsizes names caps _ size hsnap hmeasure _ hsize).symm
    · intro image hencode
      simp only [PendingFleetCapture.encode, bind_eq_ok, ite_error_eq_ok] at hencode
      obtain ⟨_, -, -, hencode⟩ := hencode
      exact (encode_eq_ok hencode).2.1

end

section Sample
local instance tallyLayout : Layout := sampleLayout
local instance tallyParser : ETagParser := sampleETagParser

theorem sampleDonor_recorded : Recorded sampleDonor := by
  have hrows : BucketRows.Recorded ⟨({} : KeyRows).insert "k" sampleDonorRow, {}⟩ :=
    BucketRows.recorded_empty.apply (.keys (.insert "k" sampleDonorRow))
  exact recorded_empty.setBucket hrows rfl "b"

theorem capture_size_measured_sample :
    Recorded sampleDonor ∧ sampleCapture = .ok sampleBegun ∧
    sampleBegun.1.encode ["b"] sampleCaps = .ok sampleImage ∧
    (∀ size, measureImage sampleBegun.1.snapshot ["b"] sampleCaps = .ok size →
      size = sampleBegun.1.size) ∧
    sampleImage.length = sampleBegun.1.size.encodedBytes := by
  have hbegin : sampleCapture = .ok sampleBegun := eq_ok_get _
  have hencode : sampleBegun.1.encode ["b"] sampleCaps = .ok sampleImage := eq_ok_get _
  obtain ⟨-, -, hcaptures⟩ := capture_size_measured sampleDonor_recorded
  obtain ⟨hsize, himage⟩ := hcaptures _ _ _ _ _ _ hbegin
  exact ⟨sampleDonor_recorded, hbegin, hencode, hsize, himage _ hencode⟩

def sampleUnlisted : KeyIndexState :=
  (({} : KeyIndexState).run [.put "b" "k" sampleDonorRow none]).get (by decide +kernel)

/-- The snapshot counts every bucket as synced, so it measures where the live index, whose
bucket was never listed, has no size to give. -/
theorem snapshot_measures_unlisted :
    Recorded sampleUnlisted ∧ ∃ snapshot size, snapshotState sampleUnlisted ["b"] = .ok snapshot ∧
      measureImage snapshot ["b"] sampleCaps = .ok size ∧
      talliedSize sampleUnlisted ["b"] sampleCaps = .error .incomplete := by
  have hreached : Reached (fun _ _ => ⟨.exact, none⟩) (fun _ => True) (fun _ => True)
      sampleUnlisted := Reached.empty.run (Option.some_get _).symm
  have hsnap : snapshotState sampleUnlisted ["b"] = .ok _ := eq_ok_get (by decide +kernel)
  refine ⟨recorded_of_reached hreached, _, _, hsnap, eq_ok_get ?_, ?_⟩
  · decide +kernel
  · decide +kernel

end Sample

end S3Cache.Fleet

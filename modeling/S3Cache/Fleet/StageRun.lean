import S3Cache.Lib.TreeSum
import S3Cache.Fleet.Donor
import S3Cache.Fleet.ImageLaws
import S3Cache.Fleet.Stage

/-! Whole runs of a follower's stage (`store_chunk`, `verify` and `stage_batch`): the private index
is the donor's image with the donor's deltas applied one after the other, and its rows are counted
exactly. -/

namespace S3Cache.Fleet

open Index KeyIndexState Fallible TreeMap

def IndexDelta.target : IndexDelta → Option String
  | .put bucket _ _ | .delete bucket _ _ => some bucket
  | .noop => none

def rowsHeld (b : BucketState) : Nat := b.keys.len + b.gone.len

namespace FleetStage

section Count
variable {s s' : KeyIndexState}

theorem countImage_eq (s : KeyIndexState) :
    countImage s = sumOf (fun _ => rowsHeld) s.buckets := rfl

theorem termAt_rowsHeld (s : KeyIndexState) (name : String) :
    termAt (fun _ => rowsHeld) s.buckets name = rowsHeld (s.bucket name) := by
  rw [termAt, KeyIndexState.bucket]
  cases s.buckets[name]? with
  | none => exact (by decide : 0 = rowsHeld {})
  | some b => rfl

theorem countImage_move {name : String} (h : ∀ n, name ≠ n → s'.bucket n = s.bucket n) :
    countImage s' + rowsHeld (s.bucket name) = countImage s + rowsHeld (s'.bucket name) := by
  have hrest : sumOf (fun _ => rowsHeld) (s'.buckets.erase name) =
      sumOf (fun _ => rowsHeld) (s.buckets.erase name) := by
    refine sumOf_congr fun n => ?_
    rw [termAt, termAt, get_erase, get_erase]
    split
    · rfl
    · next hn =>
      have hsame : rowsHeld (s'.bucket n) = rowsHeld (s.bucket n) := by rw [h n hn]
      exact ((termAt_rowsHeld s' n).trans hsame).trans (termAt_rowsHeld s n).symm
  rw [countImage_eq, countImage_eq, sumOf_split _ s'.buckets name, sumOf_split _ s.buckets name,
    hrest, termAt_rowsHeld, termAt_rowsHeld]
  omega

variable [Layout]

omit [Layout] in
theorem get_openBucket {bucket n : String} (h : bucket ≠ n) :
    (s.openBucket bucket).buckets[n]? = s.buckets[n]? := by
  unfold openBucket
  split
  · rfl
  · rw [get_setBucket, if_neg h]
    rfl

theorem get_apply {effect : IndexDelta} {n : String} (h : effect.target ≠ some n) :
    (effect.apply s).buckets[n]? = s.buckets[n]? := by
  cases effect with
  | noop => rfl
  | put bucket key e =>
    have hn : bucket ≠ n := fun hn => h (congrArg some hn)
    rw [IndexDelta.apply, applyPut, applyPutWithAuthority_admitted rfl]
    split
    · exact get_openBucket hn
    · rw [buckets_journal, buckets_account, get_setBucket, if_neg hn]
      exact get_openBucket hn
  | delete bucket key t =>
    have hn : bucket ≠ n := fun hn => h (congrArg some hn)
    rw [IndexDelta.apply, applyReplayedDel, applyDelWithIdentity_admitted rfl]
    simp only
    split
    · rw [buckets_journalDel, get_setBucket, if_neg hn]
      exact get_openBucket hn
    · split
      · rw [buckets_journalDel, buckets_account, get_setBucket, if_neg hn]
        exact get_openBucket hn
      · rw [buckets_journalDel, get_setBucket, if_neg hn]
        exact get_openBucket hn

theorem holds_apply {effect : IndexDelta} {n : String} (h : s.Holds n) :
    (effect.apply s).Holds n := by
  cases effect with
  | noop => exact h
  | put => exact h.put
  | delete => exact h.del

theorem bucket_apply {effect : IndexDelta} {n : String} (h : effect.target ≠ some n) :
    (effect.apply s).bucket n = s.bucket n := by
  rw [KeyIndexState.bucket, get_apply h, KeyIndexState.bucket]

theorem isSome_apply {effect : IndexDelta} (h : ∀ name ∈ effect.target, s.Holds name) (n : String) :
    (effect.apply s).buckets[n]?.isSome = s.buckets[n]?.isSome := by
  by_cases hn : effect.target = some n
  · have hs : s.Holds n := h n hn
    exact (holds_apply hs).trans hs.symm
  · rw [get_apply hn]

theorem countImage_apply {effect : IndexDelta} {name : String} {b b' : BucketState}
    (ht : effect.target = some name) (hb : s.buckets[name]? = some b)
    (hb' : (effect.apply s).buckets[name]? = some b') :
    countImage s - rowsHeld b + rowsHeld b' = countImage (effect.apply s) ∧
    rowsHeld b ≤ countImage s := by
  have hbucket : s.bucket name = b := by rw [KeyIndexState.bucket, hb]; rfl
  have hbucket' : (effect.apply s).bucket name = b' := by rw [KeyIndexState.bucket, hb']; rfl
  have hmove : countImage (effect.apply s) + rowsHeld b = countImage s + rowsHeld b' := by
    rw [← hbucket, ← hbucket']
    refine countImage_move fun n hn => bucket_apply ?_
    rw [ht]
    exact fun h => hn (Option.some.inj h)
  have hle : rowsHeld b ≤ countImage s := by
    rw [countImage_eq, sumOf_split _ s.buckets name, termAt_rowsHeld, hbucket]
    exact Nat.le_add_left ..
  exact ⟨by omega, hle⟩

omit [Layout] in
theorem growth_eq_ok {effect : IndexDelta} {name : String} {before : Nat} {mayGrow : Bool}
    (ht : effect.target = some name) (h : growth s effect = .ok (before, mayGrow)) :
    ∃ b, s.buckets[name]? = some b ∧ before = rowsHeld b := by
  cases effect with
  | noop => cases ht
  | put | delete =>
    cases ht
    simp only [growth] at h
    split at h
    · cases h
    next b hb =>
    cases h
    exact ⟨b, hb, rfl⟩

omit [Layout] in
theorem recount_eq_ok {caps : ImageCaps} {effect : IndexDelta} {name : String}
    {rows before rows' : Nat} (ht : effect.target = some name)
    (h : recount s caps rows before effect = .ok rows') :
    ∃ b, s.buckets[name]? = some b ∧ rows' = rows - before + rowsHeld b ∧ rows' ≤ caps.rows := by
  cases effect with
  | noop => cases ht
  | put | delete =>
    cases ht
    simp only [recount] at h
    split at h
    · cases h
    next b hb =>
    simp only [ite_error_eq_ok, bind_eq_ok, checked_eq_ok, not_lt] at h
    obtain ⟨-, _, ⟨-, rfl⟩, hcap, h⟩ := h
    cases h
    exact ⟨b, hb, rfl, hcap⟩

theorem accounting_eq_ok {caps : ImageCaps} {effect : IndexDelta} {rows before rows' : Nat}
    {mayGrow : Bool} (hgrowth : growth s effect = .ok (before, mayGrow))
    (hrecount : recount (effect.apply s) caps rows before effect = .ok rows') :
    (∀ name ∈ effect.target, s.Holds name) ∧
    (rows = countImage s → rows' = countImage (effect.apply s)) ∧
    (rows ≤ caps.rows → rows' ≤ caps.rows) := by
  cases ht : effect.target with
  | none =>
    cases effect with
    | noop =>
      cases hrecount
      exact ⟨nofun, id, id⟩
    | put | delete => cases ht
  | some name =>
    obtain ⟨b, hb, rfl⟩ := growth_eq_ok ht hgrowth
    obtain ⟨b', hb', rfl, hcap⟩ := recount_eq_ok ht hrecount
    refine ⟨?_, ?_, fun _ => hcap⟩
    · rintro _ ⟨⟩
      rw [Holds, hb]
      rfl
    · rintro rfl
      exact (countImage_apply ht hb hb').1

end Count

section Batch
variable [Layout] [ETagReader] {caps : ImageCaps} {maxEventBytes : Nat}

def Decodes (caps : ImageCaps) (maxEventBytes : Nat) (delta : JournalDelta) (effect : IndexDelta) :
    Prop :=
  IndexDelta.decodeDelta delta.effect maxEventBytes caps.nameBytes caps.decodedBytes = .ok effect

structure Replayed (caps : ImageCaps) (maxEventBytes : Nat) (start : KeyIndexState) (base : Nat)
    (deltas : List JournalDelta) (s : KeyIndexState) : Prop where
  positions : deltas.map (·.position) = List.range' (base + 1) deltas.length
  effects : ∃ effects, List.Forall₂ (Decodes caps maxEventBytes) deltas effects ∧
    s = replay start effects ∧ ∀ effect ∈ effects, ∀ name ∈ effect.target, start.Holds name
  buckets : ∀ n : String, s.buckets[n]?.isSome = start.buckets[n]?.isSome

theorem Replayed.refl (caps : ImageCaps) (maxEventBytes : Nat) (start : KeyIndexState)
    (base : Nat) : Replayed caps maxEventBytes start base [] start :=
  ⟨rfl, ⟨[], .nil, rfl, List.forall_mem_nil _⟩, fun _ => rfl⟩

theorem Replayed.trans {start s s' : KeyIndexState} {base : Nat} {done more : List JournalDelta}
    (h : Replayed caps maxEventBytes start base done s)
    (h' : Replayed caps maxEventBytes s (base + done.length) more s') :
    Replayed caps maxEventBytes start base (done ++ more) s' := by
  obtain ⟨effects, hdecoded, hs, hheld⟩ := h.effects
  obtain ⟨effects', hdecoded', hs', hheld'⟩ := h'.effects
  refine ⟨?_, ⟨effects ++ effects', ?_, ?_, ?_⟩, fun n => (h'.buckets n).trans (h.buckets n)⟩
  · rw [List.map_append, h.positions, h'.positions, List.length_append, ← List.range'_append_1]
    congr 2
    omega
  · exact List.rel_append hdecoded hdecoded'
  · rw [hs', hs, replay, replay, replay, List.foldl_append]
  · intro effect heffect name hname
    obtain hmem | hmem := List.mem_append.mp heffect
    · exact hheld effect hmem name hname
    · have hlater := hheld' effect hmem name hname
      rw [Holds] at hlater ⊢
      rw [← h.buckets name, hlater]

theorem stageDelta_eq_ok {st st' : Replaying} {delta : JournalDelta}
    (h : stageDelta caps maxEventBytes st delta = .ok st') :
    st'.expected = st.expected + 1 ∧
    Replayed caps maxEventBytes st.state st.expected [delta] st'.state ∧
    (st.rows = countImage st.state → st'.rows = countImage st'.state) ∧
    (st.rows ≤ caps.rows → st'.rows ≤ caps.rows) := by
  simp only [stageDelta, bind_eq_ok, checked_eq_ok, ite_error_eq_ok, not_not] at h
  obtain ⟨_, ⟨-, rfl⟩, hposition, effect, hdecode, ⟨before, mayGrow⟩, hgrowth, -, rows, hrows, h⟩ := h
  cases h
  obtain ⟨hheld, hexact, hcap⟩ := accounting_eq_ok hgrowth hrows
  refine ⟨rfl, ⟨?_, ⟨[effect], .cons hdecode .nil, rfl, ?_⟩, isSome_apply hheld⟩, hexact, hcap⟩
  · rw [List.map_singleton, hposition]
    rfl
  · intro e he
    obtain rfl := List.mem_singleton.mp he
    exact hheld

theorem stageDeltas_eq_ok {st st' : Replaying} {deltas : List JournalDelta}
    (h : deltas.foldlM (stageDelta caps maxEventBytes) st = .ok st') :
    st'.expected = st.expected + deltas.length ∧
    Replayed caps maxEventBytes st.state st.expected deltas st'.state ∧
    (st.rows = countImage st.state → st'.rows = countImage st'.state) ∧
    (st.rows ≤ caps.rows → st'.rows ≤ caps.rows) := by
  refine foldlM_keeps (P := fun done t => t.expected = st.expected + done.length ∧
    Replayed caps maxEventBytes st.state st.expected done t.state ∧
    (st.rows = countImage st.state → t.rows = countImage t.state) ∧
    (st.rows ≤ caps.rows → t.rows ≤ caps.rows)) ?_ ⟨rfl, .refl .., id, id⟩ h
  rintro done delta t t' - ⟨hexpected, hreplayed, hexact, hcap⟩ hstep
  obtain ⟨hexpected', hreplayed', hexact', hcap'⟩ := stageDelta_eq_ok hstep
  rw [hexpected] at hexpected' hreplayed'
  refine ⟨?_, hreplayed.trans hreplayed', hexact' ∘ hexact, hcap' ∘ hcap⟩
  rw [hexpected', List.length_append]
  rfl

end Batch

section Decode
variable [Layout] [ETagReader] {caps : ImageCaps}

omit [ETagReader] in
theorem len_insert_keys (r : KeyRows) (key : String) (e : ObjEntry) :
    (r.insert key e).len ≤ r.len + 1 := Std.ExtTreeMap.size_insert_le

omit [ETagReader] in
theorem len_insert_gone (g : GoneRows) (key : String) (t : SystemTime) :
    (g.insert key t).len ≤ g.len + 1 := Std.ExtTreeMap.size_insert_le

theorem decodeBucket_counted {st st' : Decoding} (h : decodeBucket caps st = .ok st')
    (hrows : countImage { buckets := st.buckets } ≤ st.rows) :
    countImage { buckets := st'.buckets } ≤ st'.rows ∧ st'.rows ≤ caps.rows := by
  obtain ⟨name, n, m, rows, keyed, gone, buried, -, ⟨hempty, -⟩, hkeyed, hempty', hburied, hcap,
    rfl⟩ :=
    decodeBucket_eq_ok h
  have hkeys : keyed.keys.len ≤ n := by
    refine iterate_keeps (P := fun i (t : RowsDecoding) => t.keys.len ≤ i) ?_ ?_ hkeyed
    · intro i t t' ht hread
      obtain ⟨key, e, reader, budget, -, -, rfl⟩ := decodeRow_eq_ok hread
      exact (len_insert_keys t.keys key e).trans (Nat.succ_le_succ ht)
    · rw [hempty]
      exact le_of_eq Std.ExtTreeMap.size_empty
  have hgone : buried.gone.len ≤ m := by
    refine iterate_keeps (P := fun i (t : GoneDecoding) => t.gone.len ≤ i) ?_ ?_ hburied
    · intro i t t' ht hread
      obtain ⟨key, deletedAt, -, hinsert⟩ := decodeGone_eq_ok hread
      rw [hinsert]
      exact (len_insert_gone t.gone key deletedAt).trans (Nat.succ_le_succ ht)
    · rw [hempty']
      exact le_of_eq Std.ExtTreeMap.size_empty
  refine ⟨?_, hcap⟩
  rw [countImage_eq] at hrows ⊢
  rw [sumOf_split _ _ name] at hrows
  rw [sumOf_insert]
  simp only [rowsHeld] at hrows ⊢
  omega

theorem countImage_decode {bytes : List UInt8} {s : KeyIndexState}
    (h : decode bytes caps = .ok s) : countImage s ≤ caps.rows := by
  obtain ⟨st, ⟨hcounted, hcap⟩, rfl⟩ := decode_keeps
    (fun st => countImage { buckets := st.buckets } ≤ st.rows ∧ st.rows ≤ caps.rows) h
    (fun _ _ => ⟨(countImage_eq _).trans_le sumOf_empty.le, Nat.zero_le _⟩)
    fun _ _ hst hstep => decodeBucket_counted hstep hst.1
  exact hcounted.trans hcap

end Decode

end FleetStage

inductive StageCall where
  | storeChunk (sequence : Nat) (chunk : List UInt8)
  | verify (commitment : List UInt8)
  | stageBatch (batch : JournalBatch)

namespace StageCall

def stored : StageCall → List (Nat × List UInt8)
  | storeChunk sequence chunk => [(sequence, chunk)]
  | verify _ | stageBatch _ => []

def commitments : StageCall → List (List UInt8)
  | verify commitment => [commitment]
  | storeChunk _ _ | stageBatch _ => []

def deltas : StageCall → List JournalDelta
  | stageBatch batch => batch.deltas
  | storeChunk _ _ | verify _ => []

end StageCall

namespace FleetStage

section Calls
variable [Layout] [ETagReader] {hash : List UInt8 → List UInt8} {stage stage' : FleetStage}

def reserved (stage : FleetStage) : ImageCaps :=
  { stage.caps with bytes := stage.expectedBytes, decodedBytes := stage.decodedBytes }

def offer (stage : FleetStage) : ImageCaps × ImageCaps × Nat × Nat :=
  (stage.caps, stage.reserved, stage.expectedChunks, stage.maxEventBytes)

def received (stage : FleetStage) : List UInt8 × Nat := (stage.encoded, stage.nextChunk)

omit [Layout] [ETagReader] in
theorem storeChunk_eq_ok {sequence : Nat} {chunk : List UInt8}
    (h : stage.storeChunk sequence chunk = .ok stage') :
    sequence = stage.nextChunk ∧ chunk ≠ [] ∧ sequence < stage.expectedChunks ∧
    stage' = { stage with encoded := stage.encoded ++ chunk, nextChunk := stage.nextChunk + 1 } := by
  simp only [storeChunk, ite_error_eq_ok, bind_eq_ok, checked_eq_ok, not_or, not_not, not_le] at h
  obtain ⟨⟨hsequence, hchunk, hlt⟩, _, ⟨-, rfl⟩, -, h⟩ := h
  cases h
  exact ⟨hsequence, hchunk, hlt, rfl⟩

theorem verify_eq_ok {commitment : List UInt8} (h : stage.verify hash commitment = .ok stage') :
    stage.index = none ∧ stage.nextChunk = stage.expectedChunks ∧
    stage.encoded.length = stage.expectedBytes ∧ commitment = hash stage.encoded ∧
    stage'.offer = stage.offer ∧ stage'.received = stage.received ∧
    stage'.through = stage.through ∧
    ∃ image, decode stage.encoded stage.reserved = .ok image ∧ stage'.index = some image ∧
      stage'.rows = countImage image := by
  simp only [verify, ite_error_eq_ok, not_or, not_not, Option.not_isSome_iff_eq_none] at h
  obtain ⟨⟨hindex, hchunks, hbytes⟩, hhash, h⟩ := h
  split at h
  · cases h
  next image hdecode =>
  cases h
  exact ⟨hindex, hchunks, hbytes, hhash.symm, rfl, rfl, rfl, image, hdecode, rfl, rfl⟩

theorem stageBatch_eq_ok {batch : JournalBatch} (h : stage.stageBatch batch = .ok stage') :
    batch.start = stage.through ∧ batch.deltas ≠ [] ∧
    batch.through = ⟨stage.through.capture, stage.through.position + batch.deltas.length⟩ ∧
    stage'.offer = stage.offer ∧ stage'.received = stage.received ∧
    stage'.through = batch.through ∧
    ∃ state state', stage.index = some state ∧ stage'.index = some state' ∧
      Replayed stage.caps stage.maxEventBytes state stage.through.position batch.deltas state' ∧
      (stage.rows = countImage state → stage'.rows = countImage state') ∧
      (stage.rows ≤ stage.caps.rows → stage'.rows ≤ stage.caps.rows) := by
  unfold stageBatch at h
  split at h
  · cases h
  next state hindex =>
  simp only [ite_error_eq_ok, bind_eq_ok, not_or, not_not, List.isEmpty_iff] at h
  obtain ⟨⟨hstart, hcapture, hdeltas⟩, st, hst, hexpected, h⟩ := h
  cases h
  obtain ⟨hposition, hreplayed, hexact, hcap⟩ := stageDeltas_eq_ok hst
  refine ⟨hstart, hdeltas, ?_, rfl, rfl, rfl, state, st.state, hindex, rfl, hreplayed, hexact, hcap⟩
  rw [← hcapture, ← hposition, hexpected]

end Calls

section Run
variable [Layout] [ETagReader] (hash : List UInt8 → List UInt8)

def step (stage : FleetStage) : StageCall → Except ImageError FleetStage
  | .storeChunk sequence chunk => stage.storeChunk sequence chunk
  | .verify commitment => stage.verify hash commitment
  | .stageBatch batch => stage.stageBatch batch

def run (stage : FleetStage) (calls : List StageCall) : Except ImageError FleetStage :=
  calls.foldlM (step hash) stage

def bytesOf (calls : List StageCall) : List UInt8 :=
  ((calls.flatMap StageCall.stored).map Prod.snd).flatten

structure Built (fresh : FleetStage) (calls : List StageCall) (stage : FleetStage) : Prop where
  offer : stage.offer = fresh.offer
  encoded : stage.encoded = bytesOf calls
  sequences : (calls.flatMap StageCall.stored).map Prod.fst = List.range stage.nextChunk
  through : stage.through =
    ⟨fresh.through.capture, fresh.through.position + (calls.flatMap StageCall.deltas).length⟩
  cap : stage.rows ≤ fresh.caps.rows
  loading : stage.index = none →
    calls.flatMap StageCall.commitments = [] ∧ calls.flatMap StageCall.deltas = [] ∧ stage.rows = 0
  loaded : ∀ index, stage.index = some index →
    calls.flatMap StageCall.commitments = [hash (bytesOf calls)] ∧
    (bytesOf calls).length = fresh.expectedBytes ∧
    (calls.flatMap StageCall.stored).length = fresh.expectedChunks ∧
    stage.rows = countImage index ∧
    ∃ image, decode (bytesOf calls) fresh.reserved = .ok image ∧
      Replayed fresh.caps fresh.maxEventBytes image fresh.through.position
        (calls.flatMap StageCall.deltas) index

variable {hash} {fresh stage stage' : FleetStage} {calls : List StageCall}

omit [Layout] [ETagReader] in
theorem bytesOf_snoc (calls : List StageCall) (c : StageCall) :
    bytesOf (calls ++ [c]) = bytesOf calls ++ (c.stored.map Prod.snd).flatten := by
  rw [bytesOf, List.flatMap_append, List.flatMap_singleton, List.map_append, List.flatten_append,
    bytesOf]

theorem Built.stored_length (h : Built hash fresh calls stage) :
    (calls.flatMap StageCall.stored).length = stage.nextChunk := by
  rw [← List.length_map Prod.fst, h.sequences, List.length_range]

omit [Layout] [ETagReader] in
theorem new_eq_ok {expectedBytes expectedChunks decodedBytes maxEventBytes : Nat}
    {cut : JournalCursor} {caps : ImageCaps}
    (h : FleetStage.new expectedBytes expectedChunks cut decodedBytes caps maxEventBytes =
      .ok fresh) :
    (fresh.expectedBytes = expectedBytes ∧ fresh.expectedChunks = expectedChunks ∧
      fresh.through = cut ∧ fresh.caps = caps) ∧
    fresh.received = ([], 0) ∧ fresh.index = none ∧ fresh.rows = 0 := by
  simp only [FleetStage.new, ite_error_eq_ok] at h
  obtain ⟨-, h⟩ := h
  cases h
  exact ⟨⟨rfl, rfl, rfl, rfl⟩, rfl, rfl, rfl⟩

theorem built_fresh (hreceived : fresh.received = ([], 0)) (hindex : fresh.index = none)
    (hrows : fresh.rows = 0) : Built hash fresh [] fresh := by
  obtain ⟨hencoded, hnext⟩ := Prod.mk.inj hreceived
  refine ⟨rfl, hencoded, ?_, rfl, ?_, fun _ => ⟨rfl, rfl, hrows⟩, ?_⟩
  · rw [hnext]
    rfl
  · rw [hrows]
    exact Nat.zero_le _
  · intro index hsome
    cases hindex.symm.trans hsome

theorem Built.storeChunk {sequence : Nat} {chunk : List UInt8} (h : Built hash fresh calls stage)
    (hstep : stage.storeChunk sequence chunk = .ok stage') :
    Built hash fresh (calls ++ [.storeChunk sequence chunk]) stage' := by
  obtain ⟨rfl, -, hlt, rfl⟩ := storeChunk_eq_ok hstep
  have hloading : stage.index = none := by
    cases hindex : stage.index with
    | none => rfl
    | some index =>
      -- a loaded image has all its chunks
      obtain ⟨-, -, hchunks, -⟩ := h.loaded index hindex
      have hoffer : stage.expectedChunks = fresh.expectedChunks := congrArg (·.2.2.1) h.offer
      rw [h.stored_length] at hchunks
      omega
  obtain ⟨hcommitments, hdeltas, hrows⟩ := h.loading hloading
  refine ⟨h.offer, ?_, ?_, ?_, h.cap, ?_, ?_⟩
  · rw [bytesOf_snoc, ← h.encoded]
    simp [StageCall.stored]
  · rw [List.flatMap_append, List.map_append, h.sequences, List.range_succ]
    rfl
  · rw [List.flatMap_append, List.flatMap_singleton, StageCall.deltas, List.append_nil]
    exact h.through
  · intro _
    simp only [List.flatMap_append, List.flatMap_singleton, StageCall.commitments,
      StageCall.deltas, List.append_nil]
    exact ⟨hcommitments, hdeltas, hrows⟩
  · intro index hindex
    cases hloading.symm.trans hindex

theorem Built.verify {commitment : List UInt8} (h : Built hash fresh calls stage)
    (hstep : stage.verify hash commitment = .ok stage') :
    Built hash fresh (calls ++ [.verify commitment]) stage' := by
  obtain ⟨hloading, hchunks, hbytes, rfl, hoffer, hreceived, hthrough, image, hdecode, hindex,
    hrows⟩ := verify_eq_ok hstep
  obtain ⟨hcommitments, hdeltas, -⟩ := h.loading hloading
  obtain ⟨hencoded, hnext⟩ := Prod.mk.inj hreceived
  have hreserved : stage.reserved = fresh.reserved := congrArg (·.2.1) h.offer
  have hexpected : stage.expectedChunks = fresh.expectedChunks := congrArg (·.2.2.1) h.offer
  have hsame : bytesOf (calls ++ [.verify (hash stage.encoded)]) = bytesOf calls := by
    rw [bytesOf_snoc]
    exact List.append_nil _
  refine ⟨hoffer.trans h.offer, ?_, ?_, ?_, ?_, ?_, ?_⟩
  · rw [hencoded, hsame, h.encoded]
  · rw [hnext, ← h.sequences, List.flatMap_append, List.flatMap_singleton, StageCall.stored,
      List.append_nil]
  · rw [hthrough, h.through, List.flatMap_append, List.flatMap_singleton, StageCall.deltas,
      List.append_nil]
  · rw [hrows]
    exact (countImage_decode hdecode).trans_eq (congrArg (·.1.rows) h.offer)
  · intro hnone
    cases hnone.symm.trans hindex
  · rintro index hsome
    obtain rfl : image = index := Option.some.inj (hindex.symm.trans hsome)
    rw [hsame]
    simp only [List.flatMap_append, List.flatMap_singleton, StageCall.stored,
      StageCall.commitments, StageCall.deltas, List.append_nil]
    refine ⟨?_, ?_, ?_, hrows, image, ?_, ?_⟩
    · rw [hcommitments, h.encoded]
      rfl
    · rw [← h.encoded, hbytes]
      exact congrArg ImageCaps.bytes hreserved
    · rw [h.stored_length, hchunks, hexpected]
    · rw [← h.encoded, ← hreserved]
      exact hdecode
    · rw [hdeltas]
      exact .refl ..

theorem Built.stageBatch {batch : JournalBatch} (h : Built hash fresh calls stage)
    (hstep : stage.stageBatch batch = .ok stage') :
    Built hash fresh (calls ++ [.stageBatch batch]) stage' := by
  obtain ⟨-, -, hend, hoffer, hreceived, hthrough, state, state', hindex, hindex', hreplayed,
    hexact, hcap⟩ := stageBatch_eq_ok hstep
  obtain ⟨hencoded, hnext⟩ := Prod.mk.inj hreceived
  obtain ⟨hcommitments, hbytes, hchunks, hrows, image, hdecode, himage⟩ := h.loaded state hindex
  have hcaps : stage.caps = fresh.caps := congrArg (·.1) h.offer
  have hevent : stage.maxEventBytes = fresh.maxEventBytes := congrArg (·.2.2.2) h.offer
  have hsame : bytesOf (calls ++ [.stageBatch batch]) = bytesOf calls := by
    rw [bytesOf_snoc]
    exact List.append_nil _
  refine ⟨hoffer.trans h.offer, ?_, ?_, ?_, ?_, ?_, ?_⟩
  · rw [hencoded, h.encoded, hsame]
  · rw [hnext, ← h.sequences, List.flatMap_append, List.flatMap_singleton, StageCall.stored,
      List.append_nil]
  · rw [hthrough, hend, h.through, List.flatMap_append, List.flatMap_singleton, StageCall.deltas,
      List.length_append, Nat.add_assoc]
  · rw [← hcaps]
    exact hcap (h.cap.trans_eq (congrArg ImageCaps.rows hcaps.symm))
  · intro hnone
    cases hnone.symm.trans hindex'
  · rintro index hsome
    obtain rfl : state' = index := Option.some.inj (hindex'.symm.trans hsome)
    rw [hsame]
    simp only [List.flatMap_append, List.flatMap_singleton, StageCall.stored,
      StageCall.commitments, StageCall.deltas, List.append_nil]
    refine ⟨hcommitments, hbytes, hchunks, hexact hrows, image, hdecode, himage.trans ?_⟩
    rw [hcaps, hevent, h.through] at hreplayed
    exact hreplayed

theorem Built.run (hfresh : Built hash fresh [] fresh) (h : fresh.run hash calls = .ok stage) :
    Built hash fresh calls stage := by
  refine foldlM_keeps (P := fun done t => Built hash fresh done t) ?_ hfresh h
  rintro done (⟨sequence, chunk⟩ | commitment | batch) t t' - ht hstep
  · exact ht.storeChunk hstep
  · exact ht.verify hstep
  · exact ht.stageBatch hstep

variable (hash) in
/-- A call that comes in its turn: the next chunk, the verification of a complete image, or a
batch that goes on where the last one ended, in buckets the stage has. -/
def InTurn (stage : FleetStage) : StageCall → Prop
  | .storeChunk sequence chunk =>
    sequence = stage.nextChunk ∧ sequence < stage.expectedChunks ∧ chunk ≠ []
  | .verify commitment =>
    stage.index = none ∧ stage.nextChunk = stage.expectedChunks ∧
      stage.encoded.length = stage.expectedBytes ∧ commitment = hash stage.encoded
  | .stageBatch batch =>
    batch.start = stage.through ∧ batch.deltas ≠ [] ∧
      batch.through = ⟨stage.through.capture, stage.through.position + batch.deltas.length⟩ ∧
      batch.deltas.map (·.position) = List.range' (stage.through.position + 1) batch.deltas.length ∧
      ∃ state effects, stage.index = some state ∧
        List.Forall₂ (Decodes stage.caps stage.maxEventBytes) batch.deltas effects ∧
        ∀ effect ∈ effects, ∀ name ∈ effect.target, state.Holds name

theorem inTurn_of_step {c : StageCall} (h : stage.step hash c = .ok stage') :
    stage.InTurn hash c := by
  cases c with
  | storeChunk sequence chunk =>
    obtain ⟨hsequence, hchunk, hlt, -⟩ := storeChunk_eq_ok h
    exact ⟨hsequence, hlt, hchunk⟩
  | verify commitment =>
    obtain ⟨hindex, hchunks, hbytes, hhash, -⟩ := verify_eq_ok h
    exact ⟨hindex, hchunks, hbytes, hhash⟩
  | stageBatch batch =>
    obtain ⟨hstart, hdeltas, hend, -, -, -, state, state', hindex, -, hreplayed, -⟩ :=
      stageBatch_eq_ok h
    obtain ⟨effects, hdecoded, -, hheld⟩ := hreplayed.effects
    exact ⟨hstart, hdeltas, hend, hreplayed.positions, state, effects, hindex, hdecoded, hheld⟩

theorem Built.counted {index : KeyIndexState} {deltas : List JournalDelta} {st : Replaying}
    (h : Built hash fresh calls stage) (hindex : stage.index = some index)
    (hst : deltas.foldlM (stageDelta stage.caps stage.maxEventBytes)
      ⟨index, stage.staged index hindex, stage.rows, stage.through.position⟩ = .ok st) :
    st.rows = countImage st.state ∧ st.rows ≤ fresh.caps.rows ∧
    st.expected = stage.through.position + deltas.length := by
  obtain ⟨hexpected, -, hexact, hcap⟩ := stageDeltas_eq_ok hst
  obtain ⟨-, -, -, hrows, -⟩ := h.loaded index hindex
  have hcaps : stage.caps.rows = fresh.caps.rows := congrArg (·.1.rows) h.offer
  exact ⟨hexact hrows, (hcap (h.cap.trans_eq hcaps.symm)).trans_eq hcaps, hexpected⟩

end Run

/-- Calls that all succeed, in any order and with any chunks and batches, build the donor's image
with its deltas replayed in their order; the rows are counted exactly and within the cap, after
every call and after every delta of a batch; and no call out of its turn succeeds. -/
theorem staging_builds_donor_state [Layout] [ETagReader] (hash : List UInt8 → List UInt8)
    (expectedBytes expectedChunks : Nat) (cut : JournalCursor) (decodedBytes : Nat)
    (caps : ImageCaps) (maxEventBytes : Nat) (fresh stage : FleetStage) (calls : List StageCall)
    (hnew : FleetStage.new expectedBytes expectedChunks cut decodedBytes caps maxEventBytes =
      .ok fresh)
    (hrun : fresh.run hash calls = .ok stage) :
    (fresh.expectedBytes = expectedBytes ∧ fresh.expectedChunks = expectedChunks ∧
      fresh.through = cut ∧ fresh.caps = caps) ∧
    Built hash fresh calls stage ∧
    (∀ (index : KeyIndexState) (deltas : List JournalDelta) (st : Replaying)
      (hindex : stage.index = some index),
      deltas.foldlM (stageDelta stage.caps stage.maxEventBytes)
        ⟨index, stage.staged index hindex, stage.rows, stage.through.position⟩ = .ok st →
      st.rows = countImage st.state ∧ st.rows ≤ fresh.caps.rows ∧
      st.expected = stage.through.position + deltas.length) ∧
    ∀ c stage', stage.step hash c = .ok stage' → stage.InTurn hash c := by
  obtain ⟨hannounced, hreceived, hnone, hrows⟩ := new_eq_ok hnew
  have hbuilt : Built hash fresh calls stage := (built_fresh hreceived hnone hrows).run hrun
  exact ⟨hannounced, hbuilt, fun _ _ _ hindex => hbuilt.counted hindex, fun _ _ => inTurn_of_step⟩

section Sample
local instance stageRunLayout : Layout := sampleLayout
local instance stageRunParser : ETagParser := sampleETagParser

def sampleHash (bytes : List UInt8) : List UInt8 := bytes.reverse.take 4

def sampleFresh : FleetStage :=
  (FleetStage.new sampleImage.length 2 ⟨[7], 0⟩ 65536 sampleCaps 256).toOption.get
    (by decide +kernel)

def sampleCalls : List StageCall :=
  let deltas := sampleJournal.journal.records.zipIdx.map fun (record, i) => ⟨i + 1, record.effect⟩
  [.storeChunk 0 (sampleImage.take 10), .storeChunk 1 (sampleImage.drop 10),
   .verify (sampleHash sampleImage),
   .stageBatch ⟨⟨[7], 0⟩, ⟨[7], 2⟩, deltas.take 2⟩,
   .stageBatch ⟨⟨[7], 2⟩, ⟨[7], 3⟩, deltas.drop 2⟩]

def sampleBuilt : FleetStage :=
  (sampleFresh.run sampleHash sampleCalls).toOption.get (by decide +kernel)

theorem staging_builds_donor_state_sample :
    sampleBuilt.through = ⟨[7], 3⟩ ∧ sampleBuilt.index.isSome = true ∧ sampleBuilt.rows = 2 ∧
    Built sampleHash sampleFresh sampleCalls sampleBuilt :=
  ⟨by decide +kernel, by decide +kernel, by decide +kernel,
    (staging_builds_donor_state sampleHash sampleImage.length 2 ⟨[7], 0⟩ 65536 sampleCaps 256
      sampleFresh sampleBuilt sampleCalls (eq_ok_get _) (eq_ok_get _)).2.1⟩

end Sample

end FleetStage

end S3Cache.Fleet

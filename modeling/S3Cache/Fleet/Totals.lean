import S3Cache.Lib.Machine
import S3Cache.Lib.TreeSum
import S3Cache.Fleet.Reach

/-! The statistics of the index, kept by saturating replacements, against the rows they count. -/

namespace S3Cache.Index

open Fleet TreeMap

def ObjEntry.knownBytes (e : ObjEntry) : Nat := e.size.elim 0 (·.toInt.toNat)

namespace IndexStats

instance : Zero IndexStats := ⟨{}⟩

instance : Add IndexStats := ⟨fun a b => ⟨a.objects + b.objects, a.logicalBytes + b.logicalBytes⟩⟩

instance : AddCommMonoid IndexStats where
  add_assoc a b c := congrArg₂ mk (Nat.add_assoc ..) (Nat.add_assoc ..)
  zero_add a := congrArg₂ mk (Nat.zero_add _) (Nat.zero_add _)
  add_zero a := congrArg₂ mk (Nat.add_zero _) (Nat.add_zero _)
  add_comm a b := congrArg₂ mk (Nat.add_comm ..) (Nat.add_comm ..)
  nsmul := nsmulRec

variable {x y previous current : IndexStats}

@[simp] theorem objects_add : (x + y).objects = x.objects + y.objects := rfl
@[simp] theorem logicalBytes_add : (x + y).logicalBytes = x.logicalBytes + y.logicalBytes := rfl

theorem ext_iff' : x = y ↔ x.objects = y.objects ∧ x.logicalBytes = y.logicalBytes := by
  cases x
  cases y
  simp

def Small (x : IndexStats) : Prop := x.objects < 2 ^ 64 ∧ x.logicalBytes < 2 ^ 64

instance : Decidable x.Small := inferInstanceAs (Decidable (_ ∧ _))

theorem Small.left (h : (x + y).Small) : x.Small :=
  ⟨(Nat.le_add_right _ _).trans_lt h.1, (Nat.le_add_right _ _).trans_lt h.2⟩

theorem Small.right (h : (x + y).Small) : y.Small := by
  rw [add_comm] at h
  exact h.left

theorem replace_exact (h : (x + current).Small) :
    (x + previous).replace previous current = x + current := by
  obtain ⟨ho, hb⟩ := h
  simp only [objects_add, logicalBytes_add] at ho hb
  simp only [replace, saturatingAdd, ext_iff', objects_add, logicalBytes_add]
  omega

theorem replace_in (h : (x + current).Small) : x.replace {} current = x + current := by
  have hexact : (x + 0).replace 0 current = x + current := replace_exact h
  rwa [add_zero] at hexact

theorem replace_out (h : x.Small) : (x + previous).replace previous {} = x := by
  have hexact : (x + previous).replace previous 0 = x + 0 := replace_exact (by rwa [add_zero])
  rwa [add_zero] at hexact

theorem sum_forEntry (rows : List (String × ObjEntry)) :
    (rows.map fun row => forEntry row.2).sum =
      ⟨rows.length, (rows.map (·.2.knownBytes)).sum⟩ := by
  induction rows with
  | nil => rfl
  | cons row rows ih =>
    have hbytes : (forEntry row.2).logicalBytes = row.2.knownBytes := by
      unfold forEntry ObjEntry.knownBytes
      cases row.2.size <;> rfl
    rw [List.map_cons, List.sum_cons, ih, ext_iff']
    simp only [objects_add, logicalBytes_add, List.length_cons, List.map_cons, List.sum_cons,
      hbytes, and_true]
    exact Nat.add_comm 1 _

end IndexStats

open IndexStats

namespace BucketState

variable {b b' : BucketState} {previous current : IndexStats}

def trueStats (b : BucketState) : IndexStats where
  objects := b.keys.len
  logicalBytes := (b.keys.rows.map (·.2.knownBytes)).sum

theorem trueStats_eq (b : BucketState) : b.trueStats = sumOf (fun _ => forEntry) b.keys.map := by
  rw [sumOf, sum_forEntry, trueStats, KeyRows.len, ← Std.ExtTreeMap.length_toList]
  rfl

@[simp] theorem trueStats_empty : ({} : BucketState).trueStats = 0 := by
  rw [trueStats_eq]
  exact sumOf_empty

def held (b : BucketState) : KeyRows × IndexStats := (b.keys, b.stats)

theorem trueStats_congr (h : b'.held = b.held) : b'.trueStats = b.trueStats := by
  rw [trueStats_eq, trueStats_eq, show b'.keys = b.keys from congrArg Prod.fst h]

@[simp] theorem held_touch (key : String) : (b.touch key).held = b.held := by
  unfold touch
  split <;> rfl

structure Moves (b b' : BucketState) (previous current : IndexStats) : Prop where
  rows : ∃ rest, b.trueStats = rest + previous ∧ b'.trueStats = rest + current
  stats : b'.stats = b.stats.replace previous current

theorem Moves.congr {a a' : BucketState} (h : Moves a a' previous current)
    (hb : b.held = a.held) (hb' : b'.held = a'.held) : Moves b b' previous current := by
  refine ⟨?_, ?_⟩
  · rw [trueStats_congr hb, trueStats_congr hb']
    exact h.rows
  · rw [show b'.stats = a'.stats from congrArg Prod.snd hb',
      show b.stats = a.stats from congrArg Prod.snd hb]
    exact h.stats

variable [Layout]

theorem moves_setRow (b : BucketState) (key : String) (e : ObjEntry) :
    Moves b (b.setRow key e) (.ofRow (b.keys.get key)) (.forEntry e) := by
  refine ⟨⟨sumOf (fun _ => forEntry) (b.keys.map.erase key), ?_, ?_⟩, rfl⟩
  · rw [trueStats_eq, sumOf_split (fun _ => forEntry) b.keys.map key]
    rfl
  · rw [trueStats_eq]
    exact sumOf_insert ..

theorem moves_dropRow {key : String} {e : ObjEntry} (h : b.keys.get key = some e) :
    Moves b (b.dropRow key) (.forEntry e) {} := by
  have hget : b.keys.map[key]? = some e := h
  rw [dropRow, h]
  refine ⟨⟨sumOf (fun _ => forEntry) (b.keys.map.erase key), ?_, ?_⟩, rfl⟩
  · rw [trueStats_eq, sumOf_split (fun _ => forEntry) b.keys.map key, termAt, hget]
    rfl
  · rw [trueStats_eq]
    simp only [KeyRows.remove, h]
    exact (add_zero _).symm

omit [Layout] in
theorem moves_discard (h : b.stats = b.trueStats) (hkeys : b'.keys = {}) (hstats : b'.stats = {}) :
    Moves b b' b.stats {} := by
  refine ⟨⟨0, by rw [zero_add, h], ?_⟩, ?_⟩
  · rw [trueStats_eq, hkeys]
    exact sumOf_empty
  · rw [hstats]
    simp [replace, saturatingAdd]

theorem dropRow_of_none {key : String} (h : b.keys.get key = none) : b.dropRow key = b := by
  rw [dropRow, h]

theorem moves_complete {key : String} {e : ObjEntry} (h : b.keys.get key = some e)
    (fill : EntryFill) :
    Moves b { b with
        keys := b.keys.update key (·.fill fill)
        stats := b.stats.replace (.forEntry e) (.forEntry (e.fill fill)) }
      (.forEntry e) (.forEntry (e.fill fill)) := by
  have hget : b.keys.map[key]? = some e := h
  refine ⟨⟨sumOf (fun _ => forEntry) (b.keys.map.erase key), ?_, ?_⟩, rfl⟩
  · rw [trueStats_eq, sumOf_split (fun _ => forEntry) b.keys.map key, termAt, hget]
    rfl
  · rw [trueStats_eq]
    simp only [KeyRows.update, h]
    exact sumOf_insert ..

theorem held_setRow_congr (h : b'.held = b.held) (key : String) (e : ObjEntry) :
    (b'.setRow key e).held = (b.setRow key e).held := by
  have hkeys : b'.keys = b.keys := congrArg Prod.fst h
  have hstats : b'.stats = b.stats := congrArg Prod.snd h
  simp only [held, setRow, hkeys, hstats]

theorem held_dropRow_congr (h : b'.held = b.held) (key : String) :
    (b'.dropRow key).held = (b.dropRow key).held := by
  have hkeys : b'.keys = b.keys := congrArg Prod.fst h
  have hstats : b'.stats = b.stats := congrArg Prod.snd h
  simp only [dropRow, hkeys]
  cases b.keys.get key <;> simp only [held, hkeys, hstats]

theorem held_acceptPut (key : String) (e : ObjEntry) (auth : PutAuthority) :
    (b.acceptPut key e auth).held = (b.setRow key e).held := by
  have hgone : ((if b.firstPut key auth then { b with gone := b.gone.remove key } else b).setRow
      key e).held = (b.setRow key e).held := held_setRow_congr (by split <;> rfl) key e
  unfold acceptPut
  cases auth with
  | definitiveMutation => exact (held_touch key).trans hgone
  | observation => exact hgone

theorem held_acceptDel (key : String) (ts : SystemTime) :
    (b.acceptDel key ts).held = (b.dropRow key).held := by
  unfold acceptDel
  refine held_dropRow_congr ?_ key
  rw [held_touch]
  rfl

theorem held_sweepTombstones (ts : SystemTime) : (b.sweepTombstones ts).held = b.held := by
  unfold sweepTombstones
  split
  · split <;> rfl
  · rfl

theorem held_resolve (key : String) (now : SystemTime) (auth : AuthoritativeKeyState) :
    (b.resolve key now auth).held =
      match auth with
      | .present entry => (b.setRow key entry).held
      | .absent => (b.dropRow key).held := by
  cases auth with
  | present entry => exact (held_touch key).trans (held_setRow_congr rfl key entry)
  | absent =>
    refine (held_touch key).trans ?_
    exact held_dropRow_congr (by rfl) key

end BucketState

namespace KeyIndexState

variable {s s' : KeyIndexState} {name : String} {previous current : IndexStats}

def trueStats (s : KeyIndexState) : IndexStats := (s.buckets.toList.map (·.2.trueStats)).sum

def Fits (s : KeyIndexState) : Prop := s.trueStats.Small

structure Exact (s : KeyIndexState) : Prop where
  bucket : ∀ name, (s.bucket name).stats = (s.bucket name).trueStats
  total : s.stats = s.trueStats

theorem trueStats_eq (s : KeyIndexState) :
    s.trueStats = sumOf (fun _ => BucketState.trueStats) s.buckets := rfl

theorem termAt_buckets (s : KeyIndexState) (name : String) :
    termAt (fun _ => BucketState.trueStats) s.buckets name = (s.bucket name).trueStats := by
  rw [termAt, KeyIndexState.bucket]
  cases s.buckets[name]? with
  | none => exact BucketState.trueStats_empty.symm
  | some b => rfl

def others (s : KeyIndexState) (name : String) : IndexStats :=
  sumOf (fun _ => BucketState.trueStats) (s.buckets.erase name)

theorem trueStats_split (s : KeyIndexState) (name : String) :
    s.trueStats = s.others name + (s.bucket name).trueStats := by
  rw [← termAt_buckets]
  exact sumOf_split (fun _ => BucketState.trueStats) s.buckets name

theorem others_congr (h : ∀ n, name ≠ n → (s'.bucket n).held = (s.bucket n).held) :
    s'.others name = s.others name := by
  refine sumOf_congr fun n => ?_
  rw [termAt, termAt, get_erase, get_erase]
  split
  · rfl
  · next hn =>
    have hterm := BucketState.trueStats_congr (h n hn)
    rwa [← termAt_buckets, ← termAt_buckets] at hterm

theorem trueStats_congr (h : ∀ n, (s'.bucket n).held = (s.bucket n).held) :
    s'.trueStats = s.trueStats := by
  rw [trueStats_eq, trueStats_eq]
  refine sumOf_congr fun n => ?_
  rw [termAt_buckets, termAt_buckets]
  exact BucketState.trueStats_congr (h n)

theorem Exact.congr (h : s.Exact) (hheld : ∀ n, (s'.bucket n).held = (s.bucket n).held)
    (htotal : s'.stats = s.stats) : s'.Exact := by
  refine ⟨fun n => ?_, ?_⟩
  · rw [BucketState.trueStats_congr (hheld n), ← h.bucket n]
    exact congrArg Prod.snd (hheld n)
  · rw [htotal, trueStats_congr hheld, h.total]

inductive Accounted (s s' : KeyIndexState) : Prop
  | same : (∀ n, (s'.bucket n).held = (s.bucket n).held) → s'.stats = s.stats → Accounted s s'
  | moved {name : String} {previous current : IndexStats} :
      (∀ n, name ≠ n → (s'.bucket n).held = (s.bucket n).held) →
      BucketState.Moves (s.bucket name) (s'.bucket name) previous current →
      s'.stats = s.stats.replace previous current → Accounted s s'

theorem Accounted.exact (h : Accounted s s') (he : s.Exact) (hfits : s'.Fits) : s'.Exact := by
  cases h with
  | same hheld htotal => exact he.congr hheld htotal
  | @moved name previous current hheld hmoves htotal =>
    obtain ⟨rest, hprevious, hcurrent⟩ := hmoves.rows
    have hnew : s'.trueStats = s.others name + rest + current := by
      rw [trueStats_split s' name, others_congr hheld, hcurrent, add_assoc]
    have hold : s.trueStats = s.others name + rest + previous := by
      rw [trueStats_split s name, hprevious, add_assoc]
    rw [Fits, hnew] at hfits
    refine ⟨fun n => ?_, ?_⟩
    · by_cases hn : name = n
      · subst hn
        rw [hmoves.stats, he.bucket, hprevious, hcurrent, replace_exact]
        rw [add_assoc] at hfits
        exact hfits.right
      · rw [BucketState.trueStats_congr (hheld n hn), ← he.bucket n]
        exact congrArg Prod.snd (hheld n hn)
    · rw [htotal, he.total, hold, hnew, replace_exact hfits]

theorem accounted_setBucket (name : String) {b : BucketState} {t : KeyIndexState}
    (hmoves : BucketState.Moves (s.bucket name) b previous current)
    (hbuckets : t.buckets = (s.setBucket name b).buckets)
    (htotal : t.stats = s.stats.replace previous current) : Accounted s t := by
  have hmoved : BucketState.Moves (s.bucket name) (t.bucket name) previous current := by
    rw [bucket_congr hbuckets, bucket_setBucket, if_pos rfl]
    exact hmoves
  refine .moved (fun n hn => ?_) hmoved htotal
  rw [bucket_congr hbuckets, bucket_setBucket, if_neg hn]

theorem accounted_setBucket_same (name : String) {b : BucketState} {t : KeyIndexState}
    (hheld : b.held = (s.bucket name).held) (hbuckets : t.buckets = (s.setBucket name b).buckets)
    (htotal : t.stats = s.stats) : Accounted s t := by
  refine .same (fun n => ?_) htotal
  rw [bucket_congr hbuckets, bucket_setBucket]
  split
  · next hn => rw [← hn, hheld]
  · rfl

theorem Accounted.of_eq {t : KeyIndexState} (h : Accounted t s')
    (hbucket : ∀ n, t.bucket n = s.bucket n) (htotal : t.stats = s.stats) : Accounted s s' := by
  cases h with
  | same hheld hs => exact .same (fun n => by rw [hheld, hbucket]) (hs.trans htotal)
  | moved hheld hmoves hs =>
    exact .moved (fun n hn => by rw [hheld n hn, hbucket]) (hbucket _ ▸ hmoves) (by rw [hs, htotal])

section Frames

@[simp] theorem stats_withdrawUnlessNext (cut : NativeCut) (old : Nat × Nat) :
    (s.withdrawUnlessNext cut old).stats = s.stats := by
  fun_cases withdrawUnlessNext <;> rfl

@[simp] theorem stats_noteNativeCut (cut : NativeCut) : (s.noteNativeCut cut).2.stats = s.stats := by
  fun_cases noteNativeCut
  case case5 => exact stats_withdrawUnlessNext ..
  all_goals rfl

@[simp] theorem stats_noteIdentity {identity : Option DeltaIdentity} :
    (s.noteIdentity identity).2.stats = s.stats := by
  unfold noteIdentity
  split
  · exact stats_noteNativeCut _
  · rfl

@[simp] theorem stats_opened {identity : Option DeltaIdentity} (bucket : String) :
    (s.opened identity bucket).stats = s.stats := by
  have hopen : (s.opened identity bucket).stats = (s.noteIdentity identity).2.stats := by
    unfold opened openBucket
    split <;> rfl
  rw [hopen, stats_noteIdentity]

@[simp] theorem stats_journalNoop {identity : Option DeltaIdentity} :
    (s.journalNoop identity).stats = s.stats := by
  cases identity <;> rfl

@[simp] theorem stats_journalDel {identity : Option DeltaIdentity} {bucket key : String}
    (gone : Option SystemTime) (changed : Bool) :
    (s.journalDel identity bucket key gone changed).stats = s.stats := by
  unfold journalDel
  split
  · rfl
  · exact stats_journalNoop

@[simp] theorem stats_noteNativeSeal (cut : NativeCut) : (s.noteNativeSeal cut).stats = s.stats := by
  have := stats_noteNativeCut (s := s) cut
  unfold noteNativeSeal
  split <;> simp_all [journal]

@[simp] theorem stats_registerNativeWriter (cut : NativeCut) :
    (s.registerNativeWriter cut).stats = s.stats := by
  fun_cases registerNativeWriter <;> rfl

@[simp] theorem stats_renewNativeWriter (sealed : NativeCut) (epoch : Nat) :
    (s.renewNativeWriter sealed epoch).stats = s.stats := by
  fun_cases renewNativeWriter <;> rfl

@[simp] theorem stats_skipNativeGap (cut : NativeCut) : (s.skipNativeGap cut).stats = s.stats := by
  fun_cases skipNativeGap <;> rfl

end Frames

variable [Layout] {bucket key : String}

theorem accounted_put {e : ObjEntry} {auth : PutAuthority} {identity : Option DeltaIdentity} :
    Accounted s (s.applyPutWithAuthority bucket key e auth identity).2 := by
  cases ha : (s.noteIdentity identity).1 with
  | false =>
    rw [applyPutWithAuthority_duplicate ha]
    exact .same (fun n => by rw [bucket_congr buckets_noteIdentity]) stats_noteIdentity
  | true =>
    rw [applyPutWithAuthority_admitted ha]
    split
    · exact .same (fun n => by rw [bucket_congr buckets_journalNoop, bucket_opened])
        (by rw [stats_journalNoop, stats_opened])
    · refine Accounted.of_eq (t := s.opened identity bucket) ?_ (bucket_opened bucket)
        (stats_opened bucket)
      refine accounted_setBucket bucket ?_ rfl rfl
      rw [bucket_opened]
      exact (BucketState.moves_setRow _ key e).congr rfl (BucketState.held_acceptPut key e auth)

theorem held_swept (ts : SystemTime) (sweep : TombstoneSweep) :
    (s.swept bucket ts sweep).held = (s.bucket bucket).held := by
  unfold swept
  split
  · exact BucketState.held_sweepTombstones ts
  · rfl

theorem accounted_del {ts : SystemTime} {identity : Option DeltaIdentity}
    {sweep : TombstoneSweep} :
    Accounted s (s.applyDelWithIdentity bucket key ts identity sweep).2 := by
  cases ha : (s.noteIdentity identity).1 with
  | false =>
    rw [applyDelWithIdentity_duplicate ha]
    exact .same (fun n => by rw [bucket_congr buckets_noteIdentity]) stats_noteIdentity
  | true =>
    have hswept : (s.swept bucket ts sweep).held = (s.bucket bucket).held := held_swept ts sweep
    refine Accounted.of_eq (t := s.opened identity bucket) ?_ (bucket_opened bucket)
      (stats_opened bucket)
    rw [applyDelWithIdentity_admitted ha]
    simp only
    split
    · refine accounted_setBucket_same bucket ?_ (buckets_journalDel _ _)
        (stats_journalDel _ _)
      rw [bucket_opened]
      exact hswept
    · split
      · next previous hrow =>
        refine accounted_setBucket bucket ?_ (buckets_journalDel _ _)
          (stats_journalDel _ _)
        rw [bucket_opened]
        exact (BucketState.moves_dropRow hrow).congr hswept.symm
          (BucketState.held_acceptDel key ts)
      · next hrow =>
        refine accounted_setBucket_same bucket ?_ (buckets_journalDel _ _)
          (stats_journalDel _ _)
        rw [bucket_opened, BucketState.held_acceptDel, BucketState.dropRow_of_none hrow]
        exact hswept

theorem accounted_complete {fill : EntryFill} : Accounted s (s.completeEntry bucket key fill).2 := by
  fun_cases completeEntry
  case case5 b h entry hrow hsame hfilled b' =>
    refine accounted_setBucket bucket ?_ rfl rfl
    rw [show s.bucket bucket = b by simp [KeyIndexState.bucket, h]]
    exact BucketState.moves_complete hrow fill
  all_goals exact .same (fun _ => rfl) rfl

omit [Layout] in
theorem accounted_fence {token : Nat} (h : s.fenceKey bucket key = some (token, s')) :
    Accounted s s' := by
  simp only [fenceKey] at h
  split at h
  · cases h
    refine accounted_setBucket_same bucket ?_ rfl rfl
    rfl
  · cases h

theorem accounted_resolve {token : Nat} {now : SystemTime} {auth : AuthoritativeKeyState} :
    Accounted s (s.resolveUncertainKey bucket key token now auth).2 := by
  fun_cases resolveUncertainKey
  case case3 b hb ht entry _ =>
    refine accounted_setBucket bucket ?_ rfl rfl
    rw [show s.bucket bucket = b by simp [KeyIndexState.bucket, hb]]
    exact (BucketState.moves_setRow b key entry).congr rfl (BucketState.held_resolve key now _)
  case case4 b hb ht previous hrow _ =>
    refine accounted_setBucket bucket ?_ rfl rfl
    rw [show s.bucket bucket = b by simp [KeyIndexState.bucket, hb]]
    exact (BucketState.moves_dropRow hrow).congr rfl (BucketState.held_resolve key now _)
  case case5 b hb ht hrow _ =>
    refine accounted_setBucket_same bucket ?_ rfl rfl
    rw [show s.bucket bucket = b by simp [KeyIndexState.bucket, hb], BucketState.held_resolve]
    simp only [BucketState.dropRow_of_none hrow]
  all_goals exact .same (fun _ => rfl) rfl

theorem accounted_foldListed (row : String × ObjEntry) : Accounted s (s.foldListed bucket row) := by
  simp only [foldListed]
  split
  · exact accounted_setBucket bucket (BucketState.moves_setRow _ row.1 row.2) rfl rfl
  · exact .same (fun _ => rfl) rfl

omit [Layout] in
theorem accounted_begin (he : s.Exact) : Accounted s (s.beginBucketResync bucket).2 :=
  accounted_setBucket bucket (BucketState.moves_discard (he.bucket bucket) rfl rfl) rfl rfl

omit [Layout] in
theorem accounted_removeBucket (he : s.Exact) : Accounted s (s.removeBucket bucket) := by
  cases hb : s.buckets[bucket]? with
  | none =>
    rw [removeBucket, hb]
    exact .same (fun _ => rfl) rfl
  | some b =>
    have hbucket : s.bucket bucket = b := by simp [KeyIndexState.bucket, hb]
    have hgone : (s.removeBucket bucket).bucket bucket = {} := by rw [bucket_removeBucket, if_pos rfl]
    have hmoves : BucketState.Moves (s.bucket bucket) ((s.removeBucket bucket).bucket bucket)
        (s.bucket bucket).stats {} :=
      BucketState.moves_discard (he.bucket bucket) (by rw [hgone]) (by rw [hgone])
    refine .moved (fun n hn => by rw [bucket_removeBucket, if_neg hn]) hmoves ?_
    rw [removeBucket, hb, hbucket]
    rfl

omit [Layout] in
theorem foldl_replace_stats (rows : List (String × BucketState))
    (h : Small (rows.map (·.2.stats)).sum) :
    rows.foldl (fun total row => total.replace row.2.stats {}) (rows.map (·.2.stats)).sum = 0 := by
  induction rows with
  | nil => rfl
  | cons row rows ih =>
    rw [List.map_cons, List.sum_cons] at h
    rw [List.map_cons, List.sum_cons, List.foldl_cons, add_comm]
    rw [replace_out h.right]
    exact ih h.right

omit [Layout] in
theorem exact_empty : ({} : KeyIndexState).Exact := by
  refine ⟨fun name => ?_, by rw [trueStats_eq]; exact sumOf_empty.symm⟩
  simp only [KeyIndexState.bucket, Std.ExtTreeMap.getElem?_empty, Option.getD_none,
    BucketState.trueStats_empty]
  rfl

omit [Layout] in
theorem Exact.discardForGap {cut : NativeCut} (he : s.Exact) (hfits : s.Fits) :
    (s.discardForGap cut).Exact := by
  have hempty : ∀ n, ((s.discardForGap cut).bucket n).held = (({} : KeyIndexState).bucket n).held := by
    intro n
    rw [bucket_discardForGap]
    split
    · simp [KeyIndexState.bucket]
      rfl
    · next hn =>
      have hnone : s.buckets[n]? = none := by simpa using hn
      simp [KeyIndexState.bucket, hnone]
  refine exact_empty.congr hempty ?_
  have hstats : s.stats = (s.buckets.toList.map (·.2.stats)).sum := by
    rw [he.total, trueStats]
    congr 1
    refine List.map_congr_left fun row hrow => ?_
    have hb : s.bucket row.1 = row.2 := by
      rw [KeyIndexState.bucket, Std.ExtTreeMap.mem_toList_iff_getElem?_eq_some.mp hrow]
      rfl
    have hbucket := he.bucket row.1
    rw [hb] at hbucket
    exact hbucket.symm
  show (s.skipNativeGap cut).buckets.toList.foldl (fun total row => total.replace row.2.stats {})
    (s.skipNativeGap cut).stats = _
  rw [buckets_skipNativeGap, stats_skipNativeGap, hstats]
  refine foldl_replace_stats _ ?_
  rw [← hstats, he.total]
  exact hfits

theorem Exact.page {generation : Nat} {rows : List (String × ObjEntry)} (he : s.Exact)
    (hfits : ∀ done, done <+: rows → (s.syncListingIntoGeneration bucket generation done).2.Fits) :
    (s.syncListingIntoGeneration bucket generation rows).2.Exact := by
  simp only [syncListingIntoGeneration] at hfits ⊢
  have hopen : (s.invalidateCaptureForRebuild.setBucket bucket
      (s.invalidateCaptureForRebuild.bucket bucket)).Exact :=
    he.congr (fun n => by rw [bucket_listed]) rfl
  split
  · next howned =>
    simp only [howned, if_true] at hfits
    -- the totals between two rows are those after the rows folded so far
    induction rows using List.reverseRecOn with
    | nil => exact hopen
    | append_singleton rows row ih =>
      have hprefix := ih fun done hd => hfits done (hd.trans (List.prefix_append rows [row]))
      have hlast := hfits (rows ++ [row]) (List.prefix_refl _)
      simp only [List.foldl_append, List.foldl_cons, List.foldl_nil] at hlast ⊢
      exact (accounted_foldListed row).exact hprefix hlast
  · exact hopen

theorem Exact.step {c : IndexCall} (he : s.Exact) (hfits : s.Fits) (hstep : s.step c = some s')
    (hparts : ∀ part ∈ c.parts, ∀ t, s.step part = some t → t.Fits) : s'.Exact := by
  have hlast : s'.Fits := hparts c c.mem_parts s' hstep
  cases c with
  | put => cases hstep; exact accounted_put.exact he hlast
  | del => cases hstep; exact accounted_del.exact he hlast
  | observedPut => cases hstep; exact accounted_put.exact he hlast
  | complete => cases hstep; exact accounted_complete.exact he hlast
  | register cut =>
    cases hstep
    exact he.congr (fun n => by rw [bucket_congr (buckets_registerNativeWriter cut)])
      (stats_registerNativeWriter cut)
  | noteSeal cut =>
    cases hstep
    exact he.congr (fun n => by rw [bucket_congr (buckets_noteNativeSeal cut)])
      (stats_noteNativeSeal cut)
  | renew sealed epoch =>
    cases hstep
    exact he.congr (fun n => by rw [bucket_congr (buckets_renewNativeWriter sealed epoch)])
      (stats_renewNativeWriter sealed epoch)
  | gap => cases hstep; exact he.discardForGap hfits
  | fence =>
    obtain ⟨⟨token, t⟩, ht, rfl⟩ := Option.map_eq_some_iff.mp hstep
    exact (accounted_fence ht).exact he hlast
  | fenceNative bucket key cut =>
    obtain ⟨⟨token, t⟩, ht, rfl⟩ := Option.map_eq_some_iff.mp hstep
    have hnoted := he.congr (fun n => by rw [bucket_congr (buckets_noteNativeCut cut)])
      (stats_noteNativeCut cut)
    unfold fenceUncertainKeyNative at ht
    split at ht
    · next hd =>
      cases ht
      rwa [hd] at hnoted
    · next hd =>
      obtain ⟨⟨token, t⟩, hf, heq⟩ := Option.map_eq_some_iff.mp ht
      cases heq
      rw [hd] at hnoted
      exact (accounted_fence hf).exact hnoted hlast
  | fenceOwn bucket key cut =>
    obtain ⟨⟨token, t⟩, ht, rfl⟩ := Option.map_eq_some_iff.mp hstep
    have hnoted := he.congr (fun n => by rw [bucket_congr (buckets_noteNativeCut cut)])
      (stats_noteNativeCut cut)
    exact (accounted_fence ht).exact hnoted hlast
  | resolve => cases hstep; exact accounted_resolve.exact he hlast
  | resync => cases hstep; exact (accounted_begin he).exact he hlast
  | page bucket generation rows =>
    cases hstep
    refine he.page fun done hd => hparts (.page bucket generation done) ?_ _ rfl
    exact List.mem_map.mpr ⟨done, (List.mem_inits done rows).mpr hd, rfl⟩
  | finish bucket generation =>
    cases hstep
    unfold finishBucketSyncGeneration
    simp only
    split <;> exact he.congr (fun n => by
      rw [bucket_setBucket]
      split
      · next hn => subst hn; rfl
      · rfl) rfl
  | removeBucket => cases hstep; exact (accounted_removeBucket he).exact he hlast

theorem Exact.replay (he : s.Exact) (delta : IndexDelta) (hfits : (delta.apply s).Fits) :
    (delta.apply s).Exact := by
  cases delta with
  | put => exact accounted_put.exact he hfits
  | delete => exact accounted_del.exact he hfits
  | noop => exact he

end KeyIndexState

end S3Cache.Index

namespace S3Cache.Fleet

open Index Fallible TreeMap IndexStats

section
variable [Layout] {s s' live candidate : KeyIndexState} {names : List String}

omit [Layout] in
theorem accounted_fresh {b : BucketState} {name : String} (hfresh : s.bucket name = {})
    (hstats : b.stats = b.trueStats) (hsmall : b.trueStats.Small) :
    KeyIndexState.Accounted s
      ({ s with stats := s.stats.replace {} b.stats }.setBucket name b) := by
  have hmoves : BucketState.Moves (s.bucket name) b {} b.stats := by
    rw [hfresh]
    refine ⟨⟨0, by rw [BucketState.trueStats_empty]; rfl, by rw [zero_add, hstats]⟩, ?_⟩
    show b.stats = (0 : IndexStats).replace {} b.stats
    rw [replace_in (by rwa [zero_add, hstats]), zero_add]
  exact KeyIndexState.accounted_setBucket name hmoves rfl rfl

omit [Layout] in
theorem trueStats_fresh {b : BucketState} {name : String} (hfresh : s.buckets[name]? = none) :
    (s.setBucket name b).trueStats = s.trueStats + b.trueStats := by
  rw [KeyIndexState.trueStats_eq, KeyIndexState.trueStats_eq]
  exact sumOf_insert_fresh hfresh b

omit [Layout] in
theorem exact_snapshot (he : s.Exact) (hnodup : names.Nodup)
    (h : snapshotState s names = .ok s') (hfits : s'.Fits) : s'.Exact := by
  suffices H : (∀ n, n ∉ names → s'.buckets[n]? = none) ∧ (s'.Fits → s'.Exact) from H.2 hfits
  refine foldlM_keeps (P := fun done t => (∀ n, n ∉ done → t.buckets[n]? = none) ∧
    (t.Fits → t.Exact)) ?_
    ⟨fun n _ => Std.ExtTreeMap.getElem?_empty, fun _ => KeyIndexState.exact_empty⟩ h
  rintro done name t t' hpre ⟨hfresh, hexact⟩ hstep
  split at hstep
  · cases hstep
  next source hsource =>
  cases hstep
  have hname : name ∉ done := fun hmem => by
    have hdone := hpre.sublist.nodup hnodup
    exact (List.nodup_append.mp hdone).2.2 name hmem name (List.mem_singleton_self name) rfl
  have hstats : source.stats = source.trueStats := by
    have hbucket := he.bucket name
    rwa [show s.bucket name = source by rw [KeyIndexState.bucket, hsource]; rfl] at hbucket
  have hnone : t.bucket name = {} := by rw [KeyIndexState.bucket, hfresh name hname]; rfl
  refine ⟨fun n hn => ?_, fun hfit => ?_⟩
  · rw [List.mem_append, not_or, List.mem_singleton] at hn
    rw [KeyIndexState.get_setBucket, if_neg (Ne.symm hn.2)]
    exact hfresh n hn.1
  · have hsum : (t.trueStats + source.trueStats).Small := by
      have hcopy : (t.setBucket name
          { synced := true, keys := source.keys, gone := source.gone, stats := source.stats }).Fits :=
        hfit
      rw [KeyIndexState.Fits, trueStats_fresh (hfresh name hname)] at hcopy
      exact hcopy
    refine KeyIndexState.Accounted.exact ?_ (hexact hsum.left) hfit
    exact accounted_fresh hnone hstats hsum.right

omit [Layout] in
theorem beyond_of_lt {previous : Option String} {key k : String}
    (hnext : previous.any (key ≤ ·) = false) (hlt : key < k) : previous.any (k ≤ ·) = false := by
  cases previous with
  | none => rfl
  | some last =>
    have hlast : last < key := by simpa using hnext
    simpa using hlast.trans hlt

structure RowsCounted (st : RowsDecoding) : Prop where
  fresh : ∀ key, st.previous.any (key ≤ ·) = false → st.keys.get key = none
  stats : (sumOf (fun _ => forEntry) st.keys.map).Small →
    st.stats = sumOf (fun _ => forEntry) st.keys.map

theorem RowsCounted.step [ETagReader] {nameBytes : Nat} {st st' : RowsDecoding}
    (h : RowsCounted st) (hstep : decodeRow nameBytes st = .ok st') : RowsCounted st' := by
  obtain ⟨key, e, reader, budget, -, hnext, rfl⟩ := decodeRow_eq_ok hstep
  refine ⟨fun k hk => ?_, fun hsmall => ?_⟩
  · have hlt : key < k := by simpa using hk
    rw [KeyRows.get_insert, if_neg hlt.ne]
    exact h.fresh k (beyond_of_lt hnext hlt)
  · have hsum : sumOf (fun _ => forEntry) (st.keys.insert key e).map =
        sumOf (fun _ => forEntry) st.keys.map + forEntry e := sumOf_insert_fresh (h.fresh key hnext) e
    rw [hsum] at hsmall ⊢
    show st.stats.replace {} (forEntry e) = _
    rw [h.stats hsmall.left, replace_in hsmall]

structure BucketsCounted (st : Decoding) : Prop where
  fresh : ∀ name, st.previous.any (name ≤ ·) = false → st.buckets[name]? = none
  exact : KeyIndexState.Fits { buckets := st.buckets, stats := st.stats } →
    KeyIndexState.Exact { buckets := st.buckets, stats := st.stats }

theorem BucketsCounted.step [ETagReader] {caps : ImageCaps} {st st' : Decoding}
    (h : BucketsCounted st) (hstep : decodeBucket caps st = .ok st') : BucketsCounted st' := by
  obtain ⟨name, n, m, start, keyed, _, buried, hnext, ⟨hkeys, hstats, hprevious⟩, hkeyed, -, -, -,
    rfl⟩ := decodeBucket_eq_ok hstep
  have hstart : RowsCounted start := by
    refine ⟨fun key _ => ?_, fun _ => ?_⟩
    · rw [hkeys]
      exact KeyRows.get_empty key
    · rw [hkeys, hstats]
      exact sumOf_empty.symm
  have hrows : RowsCounted keyed :=
    iterate_keeps (P := fun _ => RowsCounted) (fun _ _ _ => RowsCounted.step) hstart hkeyed
  let b : BucketState :=
    { synced := true, keys := keyed.keys, gone := buried.gone, stats := keyed.stats }
  refine ⟨fun k hk => ?_, fun hfits => ?_⟩
  · have hlt : name < k := by simpa using hk
    rw [TreeMap.get_insert, if_neg hlt.ne]
    exact h.fresh k (beyond_of_lt hnext hlt)
  · let before : KeyIndexState := { buckets := st.buckets, stats := st.stats }
    have hnew : before.buckets[name]? = none := h.fresh name hnext
    have hsum : (before.trueStats + b.trueStats).Small := by
      rw [← trueStats_fresh hnew]
      exact hfits
    have hstats : b.stats = b.trueStats := by
      have hsmall := hsum.right
      rw [BucketState.trueStats_eq] at hsmall ⊢
      exact hrows.stats hsmall
    have hnone : before.bucket name = {} := by rw [KeyIndexState.bucket, hnew]; rfl
    exact (accounted_fresh hnone hstats hsum.right).exact (h.exact hsum.left) hfits

theorem exact_decode [ETagReader] {bytes : List UInt8} {caps : ImageCaps}
    (h : decode bytes caps = .ok s) (hfits : s.Fits) : s.Exact := by
  obtain ⟨st, hcounted, rfl⟩ := decode_keeps BucketsCounted h
    (fun _ _ => ⟨fun _ _ => Std.ExtTreeMap.getElem?_empty, fun _ => KeyIndexState.exact_empty⟩)
    fun _ _ => BucketsCounted.step
  exact hcounted.exact hfits

theorem accounted_applyCarried {effect : String × String × Carried}
    (h : applyCarried s effect = .ok s') : KeyIndexState.Accounted s s' := by
  obtain ⟨name, key, effect⟩ := effect
  simp only [applyCarried] at h
  split at h
  · cases h
  next b hb =>
  have hbucket : s.bucket name = b := by rw [KeyIndexState.bucket, hb]; rfl
  cases effect with
  | delete t =>
    simp only at h
    split at h
    · next previous hrow =>
      cases h
      refine KeyIndexState.accounted_setBucket name ?_ rfl rfl
      rw [hbucket]
      exact (BucketState.moves_dropRow hrow).congr rfl (BucketState.held_dropRow_congr (by rfl) key)
    · next hrow =>
      cases h
      refine KeyIndexState.accounted_setBucket_same name ?_ rfl rfl
      rw [hbucket]
      exact (BucketState.held_dropRow_congr (by rfl) key).trans
        (congrArg BucketState.held (BucketState.dropRow_of_none hrow))
  | row e =>
    cases h
    refine KeyIndexState.accounted_setBucket name ?_ rfl rfl
    rw [hbucket]
    exact BucketState.moves_setRow b key e

omit [Layout] in
theorem exact_adopt (he : candidate.Exact) (h : names.foldlM (adopt live) candidate = .ok s) :
    s.Exact := by
  refine foldlM_keeps (P := fun _ t => t.Exact) ?_ he h
  rintro done name t t' - ht hstep
  obtain ⟨b, hb, -, rfl⟩ := adopt_eq_ok hstep
  refine ht.congr (fun n => ?_) rfl
  rw [KeyIndexState.bucket_setBucket]
  split
  · next hn =>
    rw [← hn, KeyIndexState.bucket, hb]
    rfl
  · rfl

theorem exact_publish {carry : Carry} (he : candidate.Exact)
    (h : publish live candidate names carry = .ok s)
    (hfits : ∀ t, Publishes live candidate names carry t → t.Fits) : s.Exact := by
  simp only [publish, bind_eq_ok] at h
  obtain ⟨adopted, hadopt, t, hcarry, h⟩ := h
  cases h
  have hcarried : t.Exact := by
    refine (foldlM_keeps (P := fun done t => done.foldlM applyCarried adopted = .ok t ∧ t.Exact)
      ?_ ⟨rfl, exact_adopt he hadopt⟩ hcarry).2
    rintro done effect u u' hpre ⟨hrun, hu⟩ hstep
    have hrun' := foldlM_snoc hrun hstep
    exact ⟨hrun', (accounted_applyCarried hstep).exact hu
      (hfits u' ⟨adopted, done ++ [effect], hadopt, hpre, hrun'⟩)⟩
  exact hcarried.congr (fun _ => rfl) rfl

variable {alignCuts : CutAligner}

theorem fits_publish {carry : Carry} (h : publish live candidate names carry = .ok s)
    (hfits : ∀ t, Publishes live candidate names carry t → t.Fits) : s.Fits := by
  simp only [publish, bind_eq_ok] at h
  obtain ⟨adopted, hadopt, t, hcarry, h⟩ := h
  cases h
  exact hfits t ⟨adopted, _, hadopt, List.prefix_refl _, hcarry⟩

variable [ETagReader]

theorem fits_of_reached (h : Reached alignCuts KeyIndexState.Fits List.Nodup s) : s.Fits := by
  cases h with
  | empty => exact ⟨by decide +kernel, by decide +kernel⟩
  | decoded _ hfits => exact hfits
  | call _ hstep hparts => exact hparts _ (IndexCall.mem_parts _) _ hstep
  | replayed _ _ hfits => exact hfits
  | swept _ _ _ hfits => exact hfits
  | snapshot _ _ _ hfits => exact hfits
  | captured _ _ hfits => exact hfits
  | installed _ _ hinstall hfits =>
    obtain ⟨carry, hcheck, hpublish⟩ := publish_of_install hinstall
    exact fits_publish hpublish fun t => hfits carry t hcheck

/-- The statistics of every bucket and of the index are exact in every state an index comes to
through true totals of 64 bits, those between two rows of a page and between two carried effects
of an install among them. -/
theorem statistics_exact (h : Reached alignCuts KeyIndexState.Fits List.Nodup s) :
    (∀ (name : String) (b : BucketState), s.buckets[name]? = some b →
      b.stats = ⟨b.keys.len, (b.keys.rows.map (·.2.knownBytes)).sum⟩) ∧
    s.stats = (s.buckets.toList.map (·.2.trueStats)).sum := by
  suffices he : s.Exact by
    refine ⟨fun name b hb => ?_, he.total⟩
    have hbucket := he.bucket name
    rwa [show s.bucket name = b by rw [KeyIndexState.bucket, hb]; rfl] at hbucket
  induction h with
  | empty => exact KeyIndexState.exact_empty
  | decoded hdecode hfits => exact exact_decode hdecode hfits
  | call hs hstep hparts ih => exact ih.step (fits_of_reached hs) hstep hparts
  | replayed delta _ hfits ih => exact ih.replay delta hfits
  | @swept s name b cutoff _ hb _ ih =>
    refine ih.congr (fun n => ?_) rfl
    rw [KeyIndexState.bucket_setBucket]
    split
    · next hn =>
      rw [← hn, KeyIndexState.bucket, hb]
      rfl
    · rfl
  | snapshot _ hnodup hsnap hfits ih => exact exact_snapshot ih hnodup hsnap hfits
  | captured _ hbegin _ ih =>
    simp only [beginFleetCapture, ite_error_eq_ok, bind_eq_ok] at hbegin
    obtain ⟨-, size, -, -, -, snapshot, -, cuts, -, -, -, hbegin⟩ := hbegin
    cases hbegin
    exact ih.congr (fun _ => rfl) rfl
  | installed _ _ hinstall hfits _ ih =>
    obtain ⟨carry, hcheck, hpublish⟩ := publish_of_install hinstall
    exact exact_publish ih hpublish fun t => hfits carry t hcheck

end

section Sample
local instance totalsLayout : Layout := sampleLayout
local instance totalsParser : ETagParser := sampleETagParser

def sampleCounts : List IndexCall :=
  [.put "b" "k" (sampleRow 20) none, .put "b" "l" (sampleRow 20) none,
   .put "b" "k" { sampleRow 21 with size := some 8 } none, .del "b" "l" (fromMicros 22000000) none]

instance (s : KeyIndexState) : Decidable s.Fits := inferInstanceAs (Decidable (_ ∧ _))

def FitsAfter (s : KeyIndexState) (c : IndexCall) : Prop :=
  c.parts.length = 1 ∧ ∀ t ∈ s.step c, t.Fits

instance (s : KeyIndexState) (c : IndexCall) : Decidable (FitsAfter s c) :=
  inferInstanceAs (Decidable (_ ∧ _))

theorem reached_run {s s' : KeyIndexState} {ops : List IndexCall}
    (h : Machine.Runs KeyIndexState.step FitsAfter s ops s')
    (hs : Reached (fun _ _ => ⟨.exact, none⟩) KeyIndexState.Fits List.Nodup s) :
    Reached (fun _ _ => ⟨.exact, none⟩) KeyIndexState.Fits List.Nodup s' := by
  refine h.keeps (fun s c t hs hok hstep => .call hs hstep fun part hpart u hu => ?_) hs
  obtain ⟨whole, hwhole⟩ := List.length_eq_one_iff.mp hok.1
  have hc := c.mem_parts
  rw [hwhole, List.mem_singleton] at hpart hc
  exact hok.2 u (by rwa [hpart, ← hc] at hu)

def sampleCounted : KeyIndexState :=
  (Machine.run (Machine.guarded KeyIndexState.step FitsAfter) {} sampleCounts).get
    (by decide +kernel)

theorem statistics_exact_sample :
    Reached (fun _ _ => ⟨.exact, none⟩) KeyIndexState.Fits List.Nodup sampleCounted ∧
    sampleCounted.stats = ⟨1, 8⟩ ∧
    (∀ (name : String) (b : BucketState), sampleCounted.buckets[name]? = some b →
      b.stats = ⟨b.keys.len, (b.keys.rows.map (·.2.knownBytes)).sum⟩) ∧
    sampleCounted.stats = (sampleCounted.buckets.toList.map (·.2.trueStats)).sum := by
  have hreached := reached_run
    (Machine.runs_of_run_guarded (t := sampleCounted) (Option.some_get _).symm) .empty
  exact ⟨hreached, by decide +kernel, statistics_exact hreached⟩

end Sample

end S3Cache.Fleet

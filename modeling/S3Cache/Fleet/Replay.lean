import S3Cache.Fleet.Capture
import S3Cache.Fleet.ImageLaws

/-! A donor's snapshot plus its journal suffix is its live index.  While the journal is valid
the live universe stays settled and certain, and the stage a follower would hold mirrors it;
one operation either journals its whole effect on its key, or none and has none, or withdraws
the journal. -/

namespace S3Cache.Index

theorem raised_ne_none (gone : Option SystemTime) (t : SystemTime) : raised gone t ≠ none := by
  unfold raised
  split
  · simp
  · next h => cases gone <;> simp_all

namespace KeyView

def skeletal (v : KeyView) : KeyView := ⟨v.row.map ObjEntry.skeletal, v.gone, none⟩

@[simp] theorem refuses_skeletal (v : KeyView) (ts : SystemTime) :
    v.skeletal.refuses ts = v.refuses ts := by
  cases h : v.row <;> simp only [refuses, skeletal, h] <;> rfl

@[simp] theorem outdates_skeletal (v : KeyView) (ts : SystemTime) :
    v.skeletal.outdates ts = v.outdates ts := by
  cases h : v.row <;> simp only [outdates, skeletal, h] <;> rfl

theorem skeletal_put (v : KeyView) (e : ObjEntry) (auth : PutAuthority) :
    (v.put e auth).skeletal = v.skeletal.put e.skeletal .definitiveMutation := by
  simp only [put, refuses_skeletal, ObjEntry.skeletal_lastModified]
  split <;> rfl

theorem skeletal_del (v : KeyView) (ts : SystemTime) :
    (v.del ts).skeletal = v.skeletal.del ts := by
  simp only [del, outdates_skeletal]
  split <;> rfl

theorem del_eq_self {v : KeyView} {ts : SystemTime} (hf : v.fence = none)
    (hg : raised v.gone ts = v.gone) (h : v.outdates ts = true ∨ v.row = none) : v.del ts = v := by
  obtain ⟨row, gone, fence⟩ := v
  simp only at hf hg
  subst hf
  unfold del
  split
  · simp only [hg]
  · next hn =>
    rcases h with h | h
    · exact absurd h hn
    · simp only at h
      simp only [h, hg]

theorem raised_of_ne {gone : Option SystemTime} {ts : SystemTime} (h : raised gone ts ≠ gone) :
    raised gone ts = some ts := by
  unfold raised at h ⊢
  split
  · rfl
  · next hn => exact absurd (if_neg hn) h

end KeyView

namespace KeyIndexState

variable {s : KeyIndexState} {c : IndexCapture}

def KeptOrWithdrawn (c : IndexCapture) (s : KeyIndexState) : Prop :=
  ∃ c', s.capture = some c' ∧ (c'.journal.invalid = none → c' = c)

theorem keptOrWithdrawn_self (h : s.capture = some c) : KeptOrWithdrawn c s := ⟨c, h, fun _ => rfl⟩

theorem KeptOrWithdrawn.invalidateCapture (h : KeptOrWithdrawn c s) (r : Invalidation) :
    KeptOrWithdrawn c (s.invalidateCapture r) := by
  obtain ⟨c', hc, -⟩ := h
  refine ⟨c'.invalidate r, by simp [KeyIndexState.invalidateCapture, hc], fun hv => ?_⟩
  exact absurd hv (DonorJournal.invalid_invalidate _ _)

theorem KeptOrWithdrawn.noteNativeCut (h : KeptOrWithdrawn c s) (cut : NativeCut) :
    KeptOrWithdrawn c (s.noteNativeCut cut).2 := by
  fun_cases KeyIndexState.noteNativeCut
  · exact h.invalidateCapture _
  · exact h.invalidateCapture _
  · exact KeptOrWithdrawn.invalidateCapture (s := s.setCut _ _) h _
  · exact h
  · have : ∀ old, KeptOrWithdrawn c (s.withdrawUnlessNext cut old) := by
      intro old
      fun_cases KeyIndexState.withdrawUnlessNext
      · exact h.invalidateCapture _
      · exact h.invalidateCapture _
      · exact h
    exact this _

theorem KeptOrWithdrawn.noteIdentity (h : KeptOrWithdrawn c s) (identity : Option DeltaIdentity) :
    KeptOrWithdrawn c (s.noteIdentity identity).2 := by
  unfold KeyIndexState.noteIdentity
  split
  · exact h.noteNativeCut _
  · exact h

theorem KeptOrWithdrawn.openBucket (h : KeptOrWithdrawn c s) (bucket : String) :
    KeptOrWithdrawn c (s.openBucket bucket) := by
  unfold KeyIndexState.openBucket
  split
  · exact h
  · exact KeptOrWithdrawn.invalidateCapture h _

end KeyIndexState

end S3Cache.Index

namespace S3Cache.Fleet

open Index KeyIndexState

variable [Layout]

structure Mirror (b b' : BucketState) : Prop where
  idle : b.Idle
  certain : ∀ key, (b.view key).fence = none
  ordered : ∀ key, (b.view key).Ordered
  idle' : b'.Idle
  view : ∀ key, b'.view key = (b.view key).skeletal

def Mirrors (names : List String) (s stage : KeyIndexState) : Prop :=
  ∀ name ∈ names, Mirror (s.bucket name) (stage.bucket name)

omit [Layout] in
theorem Mirrors.congr {names : List String} {s s' stage : KeyIndexState}
    (h : Mirrors names s stage) (hb : s'.buckets = s.buckets) : Mirrors names s' stage :=
  fun name hn => by
    rw [bucket_congr hb]
    exact h name hn

omit [Layout] in
theorem Mirror.of_view {b b' b₁ : BucketState} (h : Mirror b b') (hi : b₁.Idle)
    (hv : ∀ key, b₁.view key = b.view key) : Mirror b₁ b' where
  idle := hi
  certain key := by rw [hv, h.certain]
  ordered key := by rw [hv]; exact h.ordered key
  idle' := h.idle'
  view key := by rw [hv, h.view]

structure Extends (c : IndexCapture) (deltas : List IndexDelta) (c' : IndexCapture) : Prop where
  valid : c.journal.invalid = none
  records : ∃ more, c'.journal.records = c.journal.records ++ more ∧
    List.Forall₂ (fun r d => IndexDelta.Encodes c.maxEventBytes c.maxNameBytes d r.effect)
      more deltas
  maxEventBytes : c'.maxEventBytes = c.maxEventBytes
  maxNameBytes : c'.maxNameBytes = c.maxNameBytes

omit [Layout] in
theorem Extends.refl {c : IndexCapture} (h : c.journal.invalid = none) : Extends c [] c :=
  ⟨h, ⟨[], by simp, .nil⟩, rfl, rfl⟩

omit [Layout] in
theorem Extends.of_journaled {c c' : IndexCapture} {d : IndexDelta} (h : c.Journaled d c') :
    Extends c [d] c' := by
  obtain ⟨r, hr, he⟩ := h.records
  exact ⟨h.valid, ⟨[r], hr, .cons he .nil⟩, h.maxEventBytes, h.maxNameBytes⟩

omit [Layout] in
theorem Extends.trans {c c' c'' : IndexCapture} {ds ds' : List IndexDelta} (h : Extends c ds c')
    (h' : Extends c' ds' c'') : Extends c (ds ++ ds') c'' := by
  obtain ⟨more, hm, hf⟩ := h.records
  obtain ⟨more', hm', hf'⟩ := h'.records
  refine ⟨h.valid, ⟨more ++ more', by rw [hm', hm, List.append_assoc], ?_⟩,
    h'.maxEventBytes.trans h.maxEventBytes, h'.maxNameBytes.trans h.maxNameBytes⟩
  rw [h.maxEventBytes, h.maxNameBytes] at hf'
  exact List.rel_append hf hf'

def Follows (names : List String) (c : IndexCapture) (stage s' : KeyIndexState) : Prop :=
  (∀ c', s'.capture = some c' → c'.journal.invalid = none) →
    ∃ c' deltas, s'.capture = some c' ∧ Extends c deltas c' ∧
      Mirrors names s' (replay stage (deltas.map IndexDelta.skeletal))

section
variable {names : List String} {s s' s₁ stage : KeyIndexState} {c : IndexCapture}
  {bucket key : String} {identity : Option DeltaIdentity}

theorem follows_of_kept (hk : KeptOrWithdrawn c s') (hm : Mirrors names s' stage) :
    Follows names c stage s' := by
  intro hv
  obtain ⟨c', hc, hkept⟩ := hk
  have hvalid := hv c' hc
  obtain rfl := hkept hvalid
  exact ⟨c', [], hc, .refl hvalid, hm⟩

theorem follows_of_record {record : IndexCapture → IndexCapture} {d : IndexDelta}
    (hrec : ∀ c, (record c).journal.invalid = none → c.Journaled d (record c))
    (hk : KeptOrWithdrawn c s₁) (hs : s'.capture = s₁.capture.map record)
    (hm : Mirrors names s' (d.skeletal.apply stage)) : Follows names c stage s' := by
  intro hv
  obtain ⟨c₁, hc, hkept⟩ := hk
  have hs' : s'.capture = some (record c₁) := by rw [hs, hc]; rfl
  have hj := hrec c₁ (hv _ hs')
  obtain rfl := hkept hj.valid
  exact ⟨record c₁, [d], hs', .of_journaled hj, hm⟩

theorem Mirror.acceptPut {b b' : BucketState} (h : Mirror b b') {key : String} {e : ObjEntry}
    {auth : PutAuthority} (hr : (b.view key).refuses e.lastModified = false) :
    Mirror (b.acceptPut key e auth) (b'.acceptPut key e.skeletal .definitiveMutation) := by
  have hput : ∀ a, (b.acceptPut key e auth).view a =
      if key = a then (b.view a).put e auth else b.view a := by
    intro a
    rw [h.idle.view_acceptPut]
    split
    · next hk =>
      subst hk
      simp [KeyView.put, hr]
    · rfl
  refine ⟨h.idle.acceptPut _ _ _, fun a => ?_, fun a => ?_, h.idle'.acceptPut _ _ _,
    fun a => ?_⟩
  · rw [h.idle.view_acceptPut]
    split
    · simp only [h.certain, ite_self]
    · exact h.certain a
  · rw [hput]
    split
    · exact (h.ordered a).put e auth
    · exact h.ordered a
  · rw [h.idle'.view_acceptPut, hput]
    split
    · next hk =>
      subst hk
      rw [KeyView.skeletal_put, KeyView.put, KeyView.refuses_skeletal]
      simp [hr, h.view]
    · exact h.view a

theorem Mirrors.replayPut {e : ObjEntry} (hm : Mirrors names s stage)
    (hother : ∀ n, bucket ≠ n → s'.bucket n = s.bucket n)
    (hself : bucket ∈ names →
      ((s.bucket bucket).view key).refuses e.lastModified = false ∧
      Mirror (s'.bucket bucket)
        ((stage.bucket bucket).acceptPut key e.skeletal .definitiveMutation)) :
    Mirrors names s' ((IndexDelta.put bucket key e).skeletal.apply stage) := by
  intro n hn
  have hstage : (stage.applyPutWithAuthority bucket key e.skeletal .definitiveMutation none).2.bucket
      n = _ := bucket_applyPutWithAuthority rfl n
  simp only [IndexDelta.skeletal, IndexDelta.apply, applyPut]
  rw [hstage]
  by_cases hbn : bucket = n
  · subst hbn
    obtain ⟨hr, hmirror⟩ := hself hn
    have h := hm bucket hn
    rw [h.idle'.refusesPut, h.view, KeyView.refuses_skeletal, ObjEntry.skeletal_lastModified, hr,
      if_pos ⟨rfl, rfl⟩]
    exact hmirror
  · rw [if_neg fun h => hbn h.1, hother n hbn]
    exact hm n hn

omit [Layout] in
theorem keptOrWithdrawn_opened (hc : s.capture = some c) :
    KeptOrWithdrawn c (s.opened identity bucket) :=
  ((keptOrWithdrawn_self hc).noteIdentity identity).openBucket bucket

theorem follows_journalNoop (hk : KeptOrWithdrawn c s) (hm : Mirrors names s stage) :
    Follows names c stage (s.journalNoop identity) := by
  cases identity with
  | none => exact follows_of_kept hk hm
  | some id =>
    exact follows_of_record (fun c h => IndexCapture.recordNativeNoop_journaled h) hk rfl hm

theorem follows_put {e : ObjEntry} {auth : PutAuthority} (hc : s.capture = some c)
    (hm : Mirrors names s stage) :
    Follows names c stage (s.applyPutWithAuthority bucket key e auth identity).2 := by
  cases ha : (s.noteIdentity identity).1 with
  | false =>
    rw [applyPutWithAuthority_duplicate ha]
    exact follows_of_kept ((keptOrWithdrawn_self hc).noteIdentity _) (hm.congr buckets_noteIdentity)
  | true =>
    have hk : KeptOrWithdrawn c (s.opened identity bucket) := keptOrWithdrawn_opened hc
    have hb : ∀ n, (s.applyPutWithAuthority bucket key e auth identity).2.bucket n = _ :=
      bucket_applyPutWithAuthority ha
    rw [applyPutWithAuthority_admitted ha] at hb ⊢
    cases hr : (s.bucket bucket).refusesPut key e.lastModified auth with
    | true =>
      refine follows_journalNoop hk fun n hn => ?_
      rw [bucket_opened]
      exact hm n hn
    | false =>
      simp only [hr, Bool.false_eq_true, if_false, and_true] at hb ⊢
      refine follows_of_record (fun c h => IndexCapture.recordPut_journaled h) hk rfl
        (hm.replayPut (fun n hn => by rw [hb, if_neg hn]) fun hn => ?_)
      have h := hm bucket hn
      rw [hb, if_pos rfl]
      exact ⟨h.idle.not_refuses hr, h.acceptPut (h.idle.not_refuses hr)⟩

theorem follows_journalDel {gone : Option SystemTime} {changed : Bool} (hk : KeptOrWithdrawn c s)
    (hdel : ∀ t, changed = true → gone = some t →
      Mirrors names s ((IndexDelta.delete bucket key t).skeletal.apply stage))
    (hnot : changed = false ∨ gone = none → Mirrors names s stage) :
    Follows names c stage (s.journalDel identity bucket key gone changed) := by
  unfold journalDel
  split
  · next t =>
    exact follows_of_record (fun c h => IndexCapture.recordDelete_journaled h) hk rfl
      (hdel t rfl rfl)
  · next h =>
    refine follows_journalNoop hk (hnot ?_)
    cases changed with
    | false => exact .inl rfl
    | true =>
      cases gone with
      | none => exact .inr rfl
      | some t => exact absurd rfl (h t rfl)

theorem Mirror.afterDel {b b' : BucketState} (h : Mirror b b') (key : String) (ts : SystemTime) :
    Mirror (b.afterDel key ts) (b'.afterDel key ts) where
  idle := h.idle.afterDel key ts
  certain a := by
    rw [h.idle.view_afterDel]
    split
    · unfold KeyView.del
      split
      · exact h.certain a
      · rfl
    · exact h.certain a
  ordered a := by
    rw [h.idle.view_afterDel]
    split
    · exact (h.ordered a).del ts
    · exact h.ordered a
  idle' := h.idle'.afterDel key ts
  view a := by
    rw [h.idle'.view_afterDel, h.idle.view_afterDel, h.view]
    split
    · rw [KeyView.skeletal_del]
    · rfl

theorem Mirrors.afterDel {ts t : SystemTime} (hm : Mirrors names s stage)
    (hb : ∀ n, s'.bucket n = if bucket = n then (s.bucket bucket).afterDel key ts else s.bucket n)
    (ht : bucket ∈ names → t = ts) :
    Mirrors names s' ((IndexDelta.delete bucket key t).skeletal.apply stage) := by
  intro n hn
  have hstage : (stage.applyDelWithIdentity bucket key t none .hold).2.bucket n = _ :=
    bucket_applyDelWithIdentity rfl n
  simp only [IndexDelta.skeletal, IndexDelta.apply, applyReplayedDel]
  have hhold : stage.swept bucket t .hold = stage.bucket bucket := if_neg fun h => by cases h.1
  rw [hb, hstage, hhold]
  by_cases hbn : bucket = n
  · subst hbn
    obtain rfl := ht hn
    rw [if_pos rfl, if_pos rfl]
    exact (hm bucket hn).afterDel key t
  · simp only [hbn, if_false]
    exact hm n hn

theorem Mirrors.afterDel_self {ts : SystemTime} (hm : Mirrors names s stage)
    (hb : ∀ n, s'.bucket n = if bucket = n then (s.bucket bucket).afterDel key ts else s.bucket n)
    (hself : bucket ∈ names →
      ((s.bucket bucket).view key).del ts = (s.bucket bucket).view key) :
    Mirrors names s' stage := by
  intro n hn
  rw [hb]
  split
  · next hbn =>
    subst hbn
    have h := hm bucket hn
    refine h.of_view (h.idle.afterDel key ts) fun a => ?_
    rw [h.idle.view_afterDel]
    split
    · next hk =>
      subst hk
      exact hself hn
    · rfl
  · exact hm n hn

theorem follows_del {ts : SystemTime} (hc : s.capture = some c) (hm : Mirrors names s stage) :
    Follows names c stage (s.applyDelWithIdentity bucket key ts identity .run).2 := by
  cases ha : (s.noteIdentity identity).1 with
  | false =>
    rw [applyDelWithIdentity_duplicate ha]
    exact follows_of_kept ((keptOrWithdrawn_self hc).noteIdentity _) (hm.congr buckets_noteIdentity)
  | true =>
    have hw : s.Unswept bucket .run := fun _ h => by simp [hc] at h
    have hk : KeptOrWithdrawn c (s.opened identity bucket) := keptOrWithdrawn_opened hc
    have hgone : bucket ∈ names → ((s.bucket bucket).entomb key ts).gone.get key =
        raised ((s.bucket bucket).view key).gone ts := fun hn => by
      have := congrArg KeyView.gone ((hm bucket hn).idle.view_entomb key key ts)
      simpa [BucketState.view] using this
    have hkset : ∀ b, KeptOrWithdrawn c ((s.opened identity bucket).setBucket bucket b) :=
      fun _ => hk
    rw [applyDelWithIdentity_admitted ha, hw.swept]
    simp only
    by_cases ho : (s.bucket bucket).outdatesDel key ts = true
    · have hb : ∀ n, ((s.opened identity bucket).setBucket bucket
          ((s.bucket bucket).entomb key ts)).bucket n =
            if bucket = n then (s.bucket bucket).afterDel key ts else s.bucket n :=
          fun n => by
        rw [bucket_setBucket, bucket_opened, BucketState.afterDel, if_pos ho]
      rw [if_pos ho]
      refine follows_journalDel (hkset _) (fun t hmoved ht => hm.afterDel hb fun hn => ?_)
        fun hnot => hm.afterDel_self hb fun hn => ?_
      · rw [hgone hn] at ht hmoved
        have hne : raised ((s.bucket bucket).view key).gone ts ≠
          ((s.bucket bucket).view key).gone := of_decide_eq_true hmoved
        rw [KeyView.raised_of_ne hne] at ht
        exact (Option.some.inj ht).symm
      · have h := hm bucket hn
        rw [h.idle.outdatesDel] at ho
        rw [hgone hn] at hnot
        refine KeyView.del_eq_self (h.certain key) ?_ (.inl ho)
        rcases hnot with hnot | hnot
        · exact not_not.mp (of_decide_eq_false hnot)
        · exact absurd hnot (raised_ne_none _ _)
    · have hb : ∀ n, ((s.opened identity bucket).setBucket bucket
          ((s.bucket bucket).acceptDel key ts)).bucket n =
            if bucket = n then (s.bucket bucket).afterDel key ts else s.bucket n :=
          fun n => by
        rw [bucket_setBucket, bucket_opened, BucketState.afterDel, if_neg ho]
      have hraised : bucket ∈ names →
          raised ((s.bucket bucket).view key).gone ts = some ts := fun hn =>
        KeyView.raised_of_not_outdates (by
          rw [← (hm bucket hn).idle.outdatesDel]
          exact Bool.not_eq_true _ ▸ ho)
      have ht : ∀ t, ((s.bucket bucket).entomb key ts).gone.get key = some t →
          bucket ∈ names → t = ts := by
        intro t ht hn
        rw [hgone hn, hraised hn] at ht
        exact (Option.some.inj ht).symm
      rw [if_neg ho]
      split
      · refine follows_journalDel (hkset ((s.bucket bucket).acceptDel key ts))
          (fun t _ hgt => hm.afterDel hb (ht t hgt)) fun hnot => hm.afterDel_self hb fun hn => ?_
        rw [hgone hn, hraised hn] at hnot
        simp at hnot
      · next hrow =>
        refine follows_journalDel (hkset _) (fun t _ hgt => hm.afterDel hb (ht t hgt))
          fun hnot => hm.afterDel_self hb fun hn => ?_
        rw [hgone hn] at hnot
        refine KeyView.del_eq_self ((hm bucket hn).certain key) ?_ (.inr hrow)
        rcases hnot with hnot | hnot
        · exact not_not.mp (of_decide_eq_false hnot)
        · exact absurd hnot (raised_ne_none _ _)

theorem Mirror.complete {b b' b₁ : BucketState} {entry : ObjEntry} {fill : EntryFill}
    (h : Mirror b b') (hrow : (b.view key).row = some entry) (hi : b₁.Idle)
    (hv : ∀ k, b₁.view k =
      if key = k then { b.view k with row := some (entry.fill fill) } else b.view k) :
    (b.view key).refuses (entry.fill fill).lastModified = false ∧
    Mirror b₁ (b'.acceptPut key (entry.fill fill).skeletal .definitiveMutation) := by
  have hr : (b.view key).refuses (entry.fill fill).lastModified = false := by
    have hgone : (b.view key).gone.any (entry.lastModified ≤ ·) = false := by
      cases hg : (b.view key).gone with
      | none => rfl
      | some g => exact decide_eq_false (not_le.mpr (h.ordered key entry g hrow hg))
    simp only [KeyView.refuses, ObjEntry.fill_lastModified, hrow, Option.any_some, lt_irrefl,
      decide_false, Bool.or_false]
    exact hgone
  have hput : Mirror (b.acceptPut key (entry.fill fill) .definitiveMutation) _ := h.acceptPut hr
  refine ⟨hr, hput.of_view hi fun k => ?_⟩
  rw [hv, h.idle.view_acceptPut, if_pos rfl]
  split
  · next hk =>
    subst hk
    simp only [h.certain]
  · rfl

theorem follows_complete {fill : EntryFill} (hc : s.capture = some c)
    (hm : Mirrors names s stage) : Follows names c stage (s.completeEntry bucket key fill).2 := by
  fun_cases KeyIndexState.completeEntry
  case case5 b hb entry hrow hsame hfilled b₁ =>
    have hbucket : s.bucket bucket = b := by simp [KeyIndexState.bucket, hb]
    refine follows_of_record (fun c h => IndexCapture.recordPut_journaled h)
      (keptOrWithdrawn_self hc) rfl (hm.replayPut (fun n hn => ?_) fun hn => ?_)
    · rw [bucket_congr (buckets_journal _), bucket_congr (buckets_account _ _), bucket_setBucket,
        if_neg hn]
    · rw [bucket_congr (buckets_journal _), bucket_congr (buckets_account _ _), bucket_setBucket,
        if_pos rfl]
      have h := hm bucket hn
      rw [hbucket] at h ⊢
      refine h.complete hrow ⟨h.idle.generation⟩ fun k => ?_
      simp only [b₁, BucketState.view, KeyRows.get_update, hrow]
      split <;> rfl
  all_goals exact follows_of_kept (keptOrWithdrawn_self hc) hm

end

end S3Cache.Fleet

import S3Cache.Fleet.Calls
import S3Cache.Fleet.WriteOrder

/-! The index states a node can come to hold, live, staged or captured, and that in each of them
a key's tombstone precedes its row. -/

namespace S3Cache.Index

open Fleet

def IndexCall.parts : IndexCall → List IndexCall
  | .page bucket generation rows => rows.inits.map (.page bucket generation)
  | c => [c]

theorem IndexCall.mem_parts (c : IndexCall) : c ∈ c.parts := by
  cases c with
  | page bucket generation rows =>
    exact List.mem_map.mpr ⟨rows, (List.mem_inits rows rows).mpr (List.prefix_refl rows), rfl⟩
  | _ => exact List.mem_singleton_self _

namespace BucketState

variable {b b' : BucketState}

def Ordered (b : BucketState) : Prop := ∀ key, (b.view key).Ordered

theorem ordered_of_no_rows (h : b.keys = {}) : b.Ordered := by
  intro key row gone hrow
  simp [view, h] at hrow

theorem Ordered.of_gone (h : b.Ordered) (hkeys : b'.keys = b.keys)
    (hgone : ∀ key, b'.gone.get key = b.gone.get key ∨ b'.gone.get key = none) : b'.Ordered := by
  intro key row t hrow ht
  simp only [view] at hrow ht
  rcases hgone key with hg | hg
  · exact h key row t (by simpa only [view, ← hkeys] using hrow) (by simpa only [view, ← hg] using ht)
  · rw [hg] at ht
    cases ht

theorem Ordered.congr (h : b.Ordered) (hkeys : b'.keys = b.keys) (hgone : b'.gone = b.gone) :
    b'.Ordered :=
  h.of_gone hkeys fun key => .inl (by rw [hgone])

theorem Ordered.unfence (h : b.Ordered) (key : String) : (b.unfence key).Ordered := h.congr rfl rfl

theorem Ordered.touch (h : b.Ordered) (key : String) : (b.touch key).Ordered := by
  intro a
  rw [view_touch]
  exact h a

variable [Layout]

theorem Ordered.setRow {key : String} {e : ObjEntry} (h : b.Ordered)
    (hgone : ∀ t ∈ b.gone.get key, t < e.lastModified) : (b.setRow key e).Ordered := by
  intro a row t hrow ht
  rw [view_setRow] at hrow ht
  split at hrow
  · next hk =>
    subst hk
    cases hrow
    rw [if_pos rfl] at ht
    exact hgone t ht
  · next hk =>
    rw [if_neg hk] at ht
    exact h a row t hrow ht

theorem Ordered.dropRow {key : String} (h : ∀ a, key ≠ a → (b.view a).Ordered) :
    (b.dropRow key).Ordered := by
  intro a row t hrow ht
  rw [view_dropRow] at hrow ht
  split at hrow
  · cases hrow
  · next hk =>
    rw [if_neg hk] at ht
    exact h a hk row t hrow ht

theorem Ordered.acceptPut {key : String} {e : ObjEntry} {auth : PutAuthority} (h : b.Ordered)
    (hr : b.refusesPut key e.lastModified auth = false) : (b.acceptPut key e auth).Ordered := by
  -- the tombstone that a first mutation of a rebuild overrides is forgotten, any other is older
  have hset : ((if b.firstPut key auth then { b with gone := b.gone.remove key } else b).setRow
      key e).Ordered := by
    split
    · refine Ordered.setRow (h.of_gone rfl fun a => ?_) fun t ht => ?_
      · rw [GoneRows.get_remove]
        split <;> simp
      · simp [GoneRows.get_remove] at ht
    · next hf =>
      refine h.setRow fun t ht => ?_
      simp only [refusesPut, Bool.or_eq_false_iff] at hr
      have hgone := hr.1.1
      rw [Bool.eq_false_iff.mpr hf, Option.mem_def.mp ht] at hgone
      simpa using hgone
  unfold BucketState.acceptPut
  cases auth with
  | definitiveMutation => exact (hset.unfence key).touch key
  | observation => exact hset

theorem Ordered.afterPut (h : b.Ordered) (key : String) (e : ObjEntry) (auth : PutAuthority) :
    (b.afterPut key e auth).Ordered := by
  unfold BucketState.afterPut
  split
  · exact h
  · next hr => exact h.acceptPut (Bool.eq_false_iff.mpr hr)

theorem view_entomb_of_ne {key a : String} (ts : SystemTime) (hk : key ≠ a) :
    (b.entomb key ts).view a = b.view a := by
  unfold BucketState.entomb
  split <;> simp [view, GoneRows.get_insert, GoneRows.get_raise, hk]

theorem Ordered.sweepTombstones (h : b.Ordered) (ts : SystemTime) :
    (b.sweepTombstones ts).Ordered := by
  unfold BucketState.sweepTombstones
  split
  · split
    · next cutoff _ =>
      exact h.of_gone rfl fun key => (GoneRows.get_sweepExpired b.gone cutoff key).imp_right (·.1)
    · exact h
  · exact h

theorem Ordered.afterDel (h : b.Ordered) (key : String) (ts : SystemTime) :
    (b.afterDel key ts).Ordered := by
  have hother : ∀ a, key ≠ a → ((b.entomb key ts).view a).Ordered := by
    intro a hk
    rw [view_entomb_of_ne ts hk]
    exact h a
  unfold BucketState.afterDel
  split
  · next ho =>
    intro a
    by_cases hk : key = a
    · subst hk
      simp only [outdatesDel, Bool.and_eq_true, Bool.not_eq_true'] at ho
      have hview : (b.entomb key ts).view key = (b.view key).del ts := by
        rw [KeyView.del, if_pos (show (b.view key).outdates ts = true from ho.2)]
        simp [BucketState.entomb, ho.1, view, GoneRows.get_raise]
      rw [hview]
      exact (h key).del ts
    · exact hother a hk
  · unfold BucketState.acceptDel
    refine Ordered.dropRow fun a hk => ?_
    rw [view_touch, view_unfence, if_neg hk]
    exact hother a hk

theorem Ordered.afterComplete (h : b.Ordered) (key : String) (fill : EntryFill) :
    (b.afterComplete key fill).Ordered := by
  unfold BucketState.afterComplete
  split
  · exact h
  next entry hentry =>
  split
  · exact h
  · intro a row t hrow ht
    simp only [view, KeyRows.get_update] at hrow ht
    split at hrow
    · next hk =>
      subst hk
      rw [hentry] at hrow
      cases hrow
      exact h key entry t hentry ht
    · exact h a row t hrow ht

theorem Ordered.afterResolve (h : b.Ordered) (key : String) (token : Nat) (now : SystemTime)
    (auth : AuthoritativeKeyState) : (b.afterResolve key token now auth).Ordered := by
  unfold BucketState.afterResolve
  split
  · intro a
    rw [view_resolve]
    split
    · intro row t hrow ht
      cases auth with
      | present entry => cases ht
      | absent => cases hrow
    · exact h a
  · exact h

theorem Ordered.foldRow (h : b.Ordered) (row : String × ObjEntry) : (b.foldRow row).Ordered := by
  unfold BucketState.foldRow
  split
  · next hl =>
    refine h.setRow fun t ht => ?_
    simp only [takesListed, Bool.and_eq_true] at hl
    simpa [Option.mem_def.mp ht] using hl.1.2
  · exact h

theorem Ordered.foldRows (h : b.Ordered) (rows : List (String × ObjEntry)) :
    (rows.foldl BucketState.foldRow b).Ordered := by
  induction rows generalizing b with
  | nil => exact h
  | cons row rows ih => exact ih (h.foldRow row)

theorem Ordered.afterPage (h : b.Ordered) (generation : Nat) (rows : List (String × ObjEntry)) :
    (b.afterPage generation rows).Ordered := by
  unfold BucketState.afterPage
  split
  · exact h.foldRows rows
  · exact h

omit [Layout] in
theorem Ordered.afterFinish (h : b.Ordered) (generation : Nat) :
    (b.afterFinish generation).Ordered := by
  unfold BucketState.afterFinish
  split
  · exact h.congr rfl rfl
  · exact h

end BucketState

end S3Cache.Index

namespace S3Cache.Fleet

open Index Fallible

section
variable [Layout]

def Publishes (live candidate : KeyIndexState) (names : List String) (carry : Carry)
    (t : KeyIndexState) : Prop :=
  ∃ adopted done, names.foldlM (adopt live) candidate = .ok adopted ∧
    done <+: carry.filter (·.2.2.isDelete) ++ carry.filter (!·.2.2.isDelete) ∧
    done.foldlM applyCarried adopted = .ok t

variable [ETagReader] (alignCuts : CutAligner) (P : KeyIndexState → Prop) (U : List String → Prop)

/-- The states an index comes to by whole operations, `P` holding of every state it passes
through on the way.  Snapshots are taken of the universes in `U`. -/
inductive Reached : KeyIndexState → Prop
  | empty : Reached {}
  | decoded {bytes : List UInt8} {caps : ImageCaps} {s : KeyIndexState} :
      decode bytes caps = .ok s → P s → Reached s
  | call {s s' : KeyIndexState} {c : IndexCall} : Reached s → s.step c = some s' →
      (∀ part ∈ c.parts, ∀ t, s.step part = some t → P t) → Reached s'
  | replayed {s : KeyIndexState} (delta : IndexDelta) : Reached s → P (delta.apply s) →
      Reached (delta.apply s)
  | swept {s : KeyIndexState} {name : String} {b : BucketState} (cutoff : SystemTime) :
      Reached s → s.buckets[name]? = some b →
      P (s.setBucket name { b with gone := (b.gone.sweepExpired cutoff).2 }) →
      Reached (s.setBucket name { b with gone := (b.gone.sweepExpired cutoff).2 })
  | snapshot {s t : KeyIndexState} {names : List String} : Reached s → U names →
      snapshotState s names = .ok t → P t → Reached t
  | captured {s s' : KeyIndexState} {host : CaptureHost}
      {admits : List JournalRecord → JournalRecord → Bool} {names : List String}
      {caps : ImageCaps} {pending : PendingFleetCapture} : Reached s →
      beginFleetCapture s host admits names caps = .ok (pending, s') → P s' → Reached s'
  | installed {live candidate s : KeyIndexState} {cuts : List NativeCut} {names : List String}
      {maxRows : Nat} : Reached live → Reached candidate →
      installFleetCandidate alignCuts live (some candidate) cuts names maxRows =
        (.ok (), s, none) →
      (∀ carry t, checkCandidate alignCuts live candidate cuts names maxRows = .ok carry →
        Publishes live candidate names carry t → P t) → Reached s

end

section
variable [Layout] {s s' : KeyIndexState}

omit [Layout] in
theorem ordered_of_buckets (h : ∀ name, (s.bucket name).Ordered) : Ordered s := h

omit [Layout] in
theorem Ordered.of_get (h : Ordered s) {name : String} {b : BucketState}
    (hb : s.buckets[name]? = some b) : b.Ordered := by
  have hbucket : (s.bucket name).Ordered := h name
  rwa [show s.bucket name = b by rw [KeyIndexState.bucket, hb]; rfl] at hbucket

theorem stable_replay {P : BucketState → Prop} (hP : KeyIndexState.Stable P)
    (hs : ∀ n, P (s.bucket n)) (delta : IndexDelta) (name : String) :
    P ((delta.apply s).bucket name) := by
  cases delta with
  | noop => exact hs name
  | put bucket key entry =>
    rw [IndexDelta.apply, KeyIndexState.applyPut, KeyIndexState.bucket_put]
    split
    · exact hP.put _ key entry _ (hs name)
    · exact hs name
  | delete bucket key deletedAt =>
    rw [IndexDelta.apply, KeyIndexState.applyReplayedDel, KeyIndexState.bucket_del]
    split
    · exact hP.del _ key deletedAt (hP.swept hs name deletedAt .hold)
    · exact hs name

theorem ordered_stable : KeyIndexState.Stable BucketState.Ordered where
  empty := BucketState.ordered_of_no_rows rfl
  discard _ _ := BucketState.ordered_of_no_rows rfl
  begun _ _ := BucketState.ordered_of_no_rows rfl
  put _ key e auth h := h.afterPut key e auth
  sweep _ ts h := h.sweepTombstones ts
  del _ key ts h := h.afterDel key ts
  complete _ key fill h := h.afterComplete key fill
  fence _ _ h := h.congr rfl rfl
  resolve _ key token now authoritative h := h.afterResolve key token now authoritative
  page _ generation rows h := h.afterPage generation rows
  finish _ generation h := h.afterFinish generation

theorem Ordered.step {c : IndexCall} (h : Ordered s) (hstep : s.step c = some s') : Ordered s' :=
  ordered_of_buckets (ordered_stable.step h hstep)

theorem Ordered.replay (h : Ordered s) (delta : IndexDelta) : Ordered (delta.apply s) :=
  ordered_of_buckets (stable_replay ordered_stable h delta)

omit [Layout] in
theorem Ordered.setBucket (h : Ordered s) {b : BucketState} (hb : b.Ordered) (name : String) :
    Ordered (s.setBucket name b) := by
  refine ordered_of_buckets fun n => ?_
  rw [KeyIndexState.bucket_setBucket]
  split
  · exact hb
  · exact h n

omit [Layout] in
theorem Ordered.snapshot {names : List String} (h : Ordered s)
    (hsnap : snapshotState s names = .ok s') : Ordered s' := by
  refine foldlM_keeps (P := fun _ t => Ordered t) ?_ (fun name => ?_) hsnap
  · intro done name t t' _ ht hstep
    split at hstep
    · cases hstep
    next source hsource =>
    cases hstep
    have hcopy : BucketState.Ordered
        { synced := true, keys := source.keys, gone := source.gone, stats := source.stats } :=
      (h.of_get hsource).congr rfl rfl
    exact Ordered.setBucket (s := { t with stats := t.stats.replace {} source.stats }) ht hcopy name
  · exact BucketState.ordered_of_no_rows (by simp [KeyIndexState.bucket])

theorem Ordered.decodeBucket [ETagReader] {caps : ImageCaps} {st st' : Decoding}
    (h : Ordered { buckets := st.buckets }) (hstep : decodeBucket caps st = .ok st') :
    Ordered { buckets := st'.buckets } := by
  obtain ⟨name, _, _, _, keyed, start, buried, -, -, -, hstart, hburied, -, rfl⟩ :=
    decodeBucket_eq_ok hstep
  have hgone : ∀ key row t, keyed.keys.get key = some row → buried.gone.get key = some t →
      t < row.lastModified := by
    refine iterate_keeps (P := fun _ (g : GoneDecoding) => ∀ key row t,
      keyed.keys.get key = some row → g.gone.get key = some t → t < row.lastModified) ?_ ?_ hburied
    · intro _ g g' hg hread key row t hrow ht
      obtain ⟨k, deletedAt, hlive, hinsert⟩ := decodeGone_eq_ok hread
      rw [hinsert, GoneRows.get_insert] at ht
      split at ht
      · next hk =>
        subst hk
        cases ht
        exact hlive row hrow
      · exact hg key row t hrow ht
    · intro key row t _ ht
      rw [hstart] at ht
      cases ht
  have hb : BucketState.Ordered
      { synced := true, keys := keyed.keys, gone := buried.gone, stats := keyed.stats } := hgone
  exact Ordered.setBucket (s := { buckets := st.buckets }) h hb name

theorem ordered_decode [ETagReader] {bytes : List UInt8} {caps : ImageCaps}
    (h : decode bytes caps = .ok s) : Ordered s := by
  obtain ⟨st, hordered, rfl⟩ := decode_keeps (fun st => Ordered { buckets := st.buckets }) h
    (fun _ _ _ => BucketState.ordered_of_no_rows (by simp [KeyIndexState.bucket]))
    fun _ _ => Ordered.decodeBucket
  exact hordered

omit [Layout] in
theorem ordered_installedView {live candidate : KeyView} (hl : live.Ordered)
    (hc : candidate.Ordered) : (installedView live candidate).Ordered := by
  have hdeleted : ∀ gone, (if tombstoneCarried gone candidate.row candidate.gone = .ok true then
      (Carried.delete gone).act candidate else candidate).Ordered := by
    intro gone
    split
    · intro row t hrow
      cases hrow
    · exact hc
  unfold installedView
  cases hr : live.row with
  | none =>
    cases hg : live.gone with
    | none => exact hc
    | some gone => exact hdeleted gone
  | some row =>
    simp only [Option.elim_some]
    split
    · next hcarried =>
      have hpeer := (before_of_rowCarried hcarried).1
      intro row' t hrow ht
      cases hrow
      cases hg : live.gone with
      | none =>
        rw [hg] at ht
        exact hpeer t ht
      | some gone =>
        rw [hg] at ht
        simp only [Option.elim_some, Carried.act] at ht
        split at ht
        · have ht : raised candidate.gone gone = some t := ht
          unfold raised at ht
          split at ht
          · cases ht
            exact hl row t hr hg
          · exact hpeer t ht
        · exact hpeer t ht
    · cases hg : live.gone with
      | none => exact hc
      | some gone => exact hdeleted gone

theorem publish_of_install {alignCuts : CutAligner}
    {live candidate : KeyIndexState} {names : List String} {cuts : List NativeCut} {maxRows : Nat}
    {stage : Option KeyIndexState}
    (h : installFleetCandidate alignCuts live (some candidate) cuts names maxRows =
      (.ok (), s, stage)) :
    ∃ carry, checkCandidate alignCuts live candidate cuts names maxRows = .ok carry ∧
      publish live candidate names carry = .ok s := by
  simp only [installFleetCandidate] at h
  split at h
  · cases h
  next carry hcheck =>
  split at h
  · cases h
  next installed hpublish =>
  cases h
  exact ⟨carry, hcheck, hpublish⟩

theorem Reached.run [ETagReader] {alignCuts : CutAligner}
    {U : List String → Prop} {ops : List IndexCall} (h : Reached alignCuts (fun _ => True) U s)
    (hrun : s.run ops = some s') : Reached alignCuts (fun _ => True) U s' := by
  induction ops generalizing s with
  | nil =>
    cases hrun
    exact h
  | cons c ops ih =>
    obtain ⟨t, ht, hrun⟩ := Option.bind_eq_some_iff.mp hrun
    exact ih (h.call ht fun _ _ _ _ => trivial) hrun

/-- A key held both as a row and as a tombstone was deleted strictly before the row was
written, in every state an index comes to. -/
theorem tombstone_precedes_row [ETagReader] {alignCuts : CutAligner}
    {P : KeyIndexState → Prop} {U : List String → Prop} (h : Reached alignCuts P U s)
    {name key : String} {b : BucketState} {row : ObjEntry} {deletedAt : SystemTime}
    (hb : s.buckets[name]? = some b) (hrow : b.keys.get key = some row)
    (hgone : b.gone.get key = some deletedAt) : deletedAt < row.lastModified := by
  suffices Ordered s by
    have hview : s.view name key = b.view key := KeyIndexState.view_of_get_some hb
    exact this name key row deletedAt (by rw [hview]; exact hrow) (by rw [hview]; exact hgone)
  clear hb hrow hgone
  induction h with
  | empty => exact fun name => BucketState.ordered_of_no_rows (by simp [KeyIndexState.bucket])
  | decoded hdecode _ => exact ordered_decode hdecode
  | call _ hstep _ ih => exact ih.step hstep
  | replayed delta _ _ ih => exact ih.replay delta
  | @swept s name b cutoff _ hb _ ih =>
    have hswept : BucketState.Ordered { b with gone := (b.gone.sweepExpired cutoff).2 } :=
      (ih.of_get hb).of_gone rfl fun key =>
        (GoneRows.get_sweepExpired b.gone cutoff key).imp_right (·.1)
    exact ih.setBucket hswept name
  | snapshot _ _ hsnap _ ih => exact ih.snapshot hsnap
  | captured _ hbegin _ ih =>
    obtain ⟨-, -, hbuckets, -⟩ := beginFleetCapture_eq_ok hbegin
    refine ordered_of_buckets fun name => ?_
    rw [KeyIndexState.bucket_congr hbuckets]
    exact ih name
  | installed _ _ hinstall _ ihlive ihcandidate =>
    intro name key
    obtain ⟨-, hrow, hgone⟩ := installFleetCandidate_view hinstall name key
    have hordered := ordered_installedView (ihlive name key) (ihcandidate name key)
    intro row t hr ht
    exact hordered row t (hrow ▸ hr) (hgone ▸ ht)

end

section Sample
local instance reachLayout : Layout := sampleLayout
local instance reachParser : ETagParser := sampleETagParser

def sampleRewrite : KeyIndexState :=
  (({} : KeyIndexState).run
    [.del "b" "k" (fromMicros 15000000) none, .put "b" "k" (sampleRow 20) none]).get
      (by decide +kernel)

theorem tombstone_precedes_row_sample :
    Reached (fun _ _ => ⟨.exact, none⟩) (fun _ => True) (fun _ => True) sampleRewrite ∧
    (sampleRewrite.buckets["b"]?).isSome = true ∧
    (sampleRewrite.bucket "b").keys.get "k" = some (sampleRow 20) ∧
    (sampleRewrite.bucket "b").gone.get "k" = some (fromMicros 15000000) ∧
    fromMicros 15000000 < (sampleRow 20).lastModified := by
  have hreached : Reached (fun _ _ => ⟨.exact, none⟩) (fun _ => True) (fun _ => True)
      sampleRewrite := Reached.empty.run (Option.some_get _).symm
  have hsome : (sampleRewrite.buckets["b"]?).isSome = true := by decide +kernel
  have hb : sampleRewrite.buckets["b"]? = some (sampleRewrite.bucket "b") := by
    rw [KeyIndexState.bucket, ← Option.some_get hsome]
    rfl
  have hrow : (sampleRewrite.bucket "b").keys.get "k" = some (sampleRow 20) := by decide +kernel
  have hgone : (sampleRewrite.bucket "b").gone.get "k" = some (fromMicros 15000000) := by
    decide +kernel
  exact ⟨hreached, hsome, hrow, hgone, tombstone_precedes_row hreached hb hrow hgone⟩

end Sample

end S3Cache.Fleet

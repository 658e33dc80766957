import S3Cache.Lib.Machine
import S3Cache.Index.Effect

/-! A rebuild against the mutations, observations and fences that race it.  A key is the rebuild's
to list until its first definitive mutation or resolution; from then on it is theirs. -/

namespace S3Cache.Index

open Fleet

inductive KeyEffect where
  | put (entry : ObjEntry)
  | del (ts : SystemTime)
  | resolve (now : SystemTime) (authoritative : AuthoritativeKeyState)
  deriving DecidableEq

inductive KeyEvent where
  | effect (x : KeyEffect)
  | report (entry : ObjEntry)
  deriving DecidableEq

def effects (l : List KeyEvent) : List KeyEffect :=
  l.filterMap fun
    | .effect x => some x
    | .report _ => none

def reports (l : List KeyEvent) : List ObjEntry :=
  l.filterMap fun
    | .effect _ => none
    | .report e => some e

structure Draft where
  view : KeyView := {}
  touched : Bool := false

def KeyEffect.on (d : Draft) : KeyEffect → Draft
  | put e => ⟨if d.touched then d.view.put e .definitiveMutation else { row := some e }, true⟩
  | del ts => ⟨if d.touched then d.view.del ts else { gone := some ts }, true⟩
  | resolve now authoritative => ⟨d.view.resolve now authoritative, true⟩

def settled (l : List KeyEffect) : Draft := l.foldl KeyEffect.on {}

namespace Draft

def observe (d : Draft) (e : ObjEntry) : Draft :=
  if d.touched || d.view.refuses e.lastModified then d
  else { d with view := { d.view with row := some e } }

def list (d : Draft) (e : ObjEntry) : Draft := if d.view.fence.isSome then d else d.observe e

end Draft

structure Filled (r e : ObjEntry) : Prop where
  lastModified : e.lastModified = r.lastModified
  storageClass : e.storageClass = r.storageClass
  size : ∀ x ∈ r.size, e.size = some x
  etag : ∀ x ∈ r.etag, e.etag = some x
  contentType : ∀ x ∈ r.contentType, e.contentType = some x
  objMeta : ∀ x ∈ r.objMeta, e.objMeta = some x

theorem Filled.refl (e : ObjEntry) : Filled e e :=
  ⟨rfl, rfl, fun _ h => h, fun _ h => h, fun _ h => h, fun _ h => h⟩

theorem Filled.fill {r e : ObjEntry} (h : Filled r e) (f : EntryFill) : Filled r (e.fill f) where
  lastModified := h.lastModified
  storageClass := h.storageClass
  size := fun x hx => by rw [ObjEntry.fill, h.size x hx]; rfl
  etag := fun x hx => by rw [ObjEntry.fill, h.etag x hx]; rfl
  contentType := fun x hx => by rw [ObjEntry.fill, h.contentType x hx]; rfl
  objMeta := fun x hx => by rw [ObjEntry.fill, h.objMeta x hx]; rfl

def Reported (rs : List ObjEntry) (row : Option ObjEntry) : Prop :=
  (row.isSome ↔ rs ≠ []) ∧
    ∀ e ∈ row, (∃ r ∈ rs, Filled r e) ∧ ∀ r ∈ rs, r.lastModified ≤ e.lastModified

structure Draft.Follows (d : Draft) (l : List KeyEvent) : Prop where
  touched : d.touched = (settled (effects l)).touched
  gone : d.view.gone = (settled (effects l)).view.gone
  owned : d.touched = true → Option.Rel Filled (settled (effects l)).view.row d.view.row
  listed : d.touched = false → Reported (reports l) d.view.row

section
variable {d d' : Draft} {l : List KeyEvent}

theorem settled_append (fx : List KeyEffect) (x : KeyEffect) :
    settled (fx ++ [x]) = x.on (settled fx) := List.foldl_append ..

theorem KeyEffect.touched_on (x : KeyEffect) : (x.on d).touched = true := by
  cases x <;> rfl

theorem settled_touched (fx : List KeyEffect) : (settled fx).touched = true ↔ fx ≠ [] := by
  induction fx using List.reverseRecOn with
  | nil => simp [settled]
  | append_singleton fx x => simp [settled_append, KeyEffect.touched_on]

@[simp] theorem effects_append_effect (x : KeyEffect) :
    effects (l ++ [.effect x]) = effects l ++ [x] := by
  simp [effects]

@[simp] theorem effects_append_report (e : ObjEntry) :
    effects (l ++ [.report e]) = effects l := by
  simp [effects]

@[simp] theorem reports_append_report (e : ObjEntry) :
    reports (l ++ [.report e]) = reports l ++ [e] := by
  simp [reports]

theorem Draft.Follows.gone_eq_none (h : d.Follows l) (ht : d.touched = false) :
    d.view.gone = none := by
  have hfx : effects l = [] := by
    by_contra hne
    have := h.touched.trans ((settled_touched _).mpr hne)
    rw [ht] at this
    cases this
  rw [h.gone, hfx]
  rfl

theorem any_newer_of_rel {r r' : Option ObjEntry} (h : Option.Rel Filled r r') (ts : SystemTime) :
    r'.any (ts < ·.lastModified) = r.any (ts < ·.lastModified) := by
  cases h with
  | some h => simp [h.lastModified]
  | none => rfl

structure KeyView.Alike (v v' : KeyView) : Prop where
  gone : v'.gone = v.gone
  row : Option.Rel Filled v.row v'.row

namespace KeyView.Alike

variable {v v' : KeyView}

theorem newer (h : v.Alike v') (ts : SystemTime) :
    v'.row.any (ts < ·.lastModified) = v.row.any (ts < ·.lastModified) := any_newer_of_rel h.row ts

theorem put (h : v.Alike v') (e : ObjEntry) (auth : PutAuthority) :
    (v.put e auth).Alike (v'.put e auth) := by
  have hr : v'.refuses e.lastModified = v.refuses e.lastModified := by
    rw [refuses, refuses, h.newer, h.gone]
  unfold KeyView.put
  rw [hr]
  split
  · exact h
  · exact ⟨h.gone, .some (.refl e)⟩

theorem del (h : v.Alike v') (ts : SystemTime) : (v.del ts).Alike (v'.del ts) := by
  have ho : v'.outdates ts = v.outdates ts := by rw [outdates, outdates, h.newer, h.gone]
  unfold KeyView.del
  rw [ho, h.gone]
  split
  · exact ⟨rfl, h.row⟩
  · exact ⟨rfl, .none⟩

end KeyView.Alike

theorem KeyView.alike_resolve {v v' : KeyView} (h : v'.gone = v.gone) (now : SystemTime)
    (auth : AuthoritativeKeyState) : (v.resolve now auth).Alike (v'.resolve now auth) := by
  cases auth with
  | present e => exact ⟨rfl, .some (.refl e)⟩
  | absent => exact ⟨by rw [resolve, resolve, h], .none⟩

theorem Draft.Follows.effect (h : d.Follows l) (x : KeyEffect) :
    (x.on d).Follows (l ++ [.effect x]) := by
  have halike : (x.on (settled (effects l))).view.Alike (x.on d).view := by
    have hsame : d.touched = true → (settled (effects l)).view.Alike d.view :=
      fun ht => ⟨h.gone, h.owned ht⟩
    cases x with
    | put e =>
      simp only [KeyEffect.on, ← h.touched]
      split
      · next ht => exact (hsame ht).put e _
      · exact ⟨rfl, .some (.refl e)⟩
    | del ts =>
      simp only [KeyEffect.on, ← h.touched]
      split
      · next ht => exact (hsame ht).del ts
      · exact ⟨rfl, .none⟩
    | resolve now auth => exact KeyView.alike_resolve h.gone now auth
  constructor
  · rw [effects_append_effect, settled_append, KeyEffect.touched_on, KeyEffect.touched_on]
  · rw [effects_append_effect, settled_append, halike.gone]
  · rw [effects_append_effect, settled_append]
    exact fun _ => halike.row
  · rw [KeyEffect.touched_on]
    exact nofun

theorem Draft.Follows.report_of (h : d.Follows l) {e : ObjEntry} (ht : d'.touched = d.touched)
    (hg : d'.view.gone = d.view.gone) (hrow : d.touched = true → d'.view.row = d.view.row)
    (hlisted : d.touched = false → Reported (reports l ++ [e]) d'.view.row) :
    d'.Follows (l ++ [.report e]) := by
  constructor
  · rw [effects_append_report, ht, h.touched]
  · rw [effects_append_report, hg, h.gone]
  · rw [effects_append_report, ht]
    exact fun ht => hrow ht ▸ h.owned ht
  · rw [reports_append_report, ht]
    exact hlisted

theorem Reported.newest {rs : List ObjEntry} {row : Option ObjEntry} (h : Reported rs row)
    {e : ObjEntry} : Reported (rs ++ [e])
      (if row.any (e.lastModified < ·.lastModified) then row else some e) := by
  obtain ⟨hsome, hnewest⟩ := h
  split
  · next hlt =>
    cases row with
    | none => cases hlt
    | some old =>
      obtain ⟨⟨r, hr, hfilled⟩, hmax⟩ := hnewest old rfl
      refine ⟨by simp, ?_⟩
      rintro _ ⟨⟩
      refine ⟨⟨r, List.mem_append_left _ hr, hfilled⟩, fun r' hr' => ?_⟩
      rcases List.mem_append.mp hr' with hr' | hr'
      · exact hmax r' hr'
      · rw [List.mem_singleton.mp hr']
        exact (of_decide_eq_true hlt).le
  · next hle =>
    refine ⟨by simp, ?_⟩
    rintro _ ⟨⟩
    refine ⟨⟨e, by simp, .refl e⟩, fun r hr => ?_⟩
    rcases List.mem_append.mp hr with hr | hr
    · obtain ⟨old, rfl⟩ := Option.isSome_iff_exists.mp (hsome.mpr (List.ne_nil_of_mem hr))
      exact ((hnewest old rfl).2 r hr).trans (by simpa using hle)
    · rw [List.mem_singleton.mp hr]

theorem Draft.Follows.report (h : d.Follows l) (e : ObjEntry) :
    (d.observe e).Follows (l ++ [.report e]) := by
  have hgone := h.gone_eq_none
  have hlisted := h.listed
  refine h.report_of ?_ ?_ ?_ ?_ <;> unfold Draft.observe
  · split <;> rfl
  · split <;> rfl
  · intro ht
    rw [ht]
    rfl
  · intro ht
    have hnew := (hlisted ht).newest (e := e)
    simp only [ht, Bool.false_or, KeyView.refuses, hgone ht, Option.any_none]
    split
    · next hr => rwa [if_pos hr] at hnew
    · next hr => rwa [if_neg hr] at hnew

theorem Filled.completed {r e : ObjEntry} (h : Filled r e) (f : EntryFill) :
    Filled r (if e.sameVersion f then e.fill f else e) := by
  split
  · exact h.fill f
  · exact h

theorem rel_completed {r r' : Option ObjEntry} (h : Option.Rel Filled r r') (f : EntryFill) :
    Option.Rel Filled r (r'.map fun e => if e.sameVersion f then e.fill f else e) := by
  cases h with
  | some h => exact .some (h.completed f)
  | none => exact .none

theorem Draft.Follows.complete (h : d.Follows l) (f : EntryFill) :
    Draft.Follows { d with view := d.view.complete f } l := by
  refine ⟨h.touched, h.gone, fun ht => rel_completed (h.owned ht) f, fun ht => ?_⟩
  obtain ⟨hsome, hnewest⟩ := h.listed ht
  refine ⟨by rw [KeyView.complete, Option.isSome_map]; exact hsome, fun e he => ?_⟩
  obtain ⟨old, hold, rfl⟩ := Option.map_eq_some_iff.mp he
  obtain ⟨⟨r, hr, hre⟩, hmax⟩ := hnewest old hold
  refine ⟨⟨r, hr, hre.completed f⟩, fun r' hr' => (hmax r' hr').trans ?_⟩
  rw [((Filled.refl old).completed f).lastModified]

end

def BucketState.draft (b : BucketState) (key : String) : Draft :=
  ⟨b.view key, b.rebuildTouched.contains key⟩

namespace BucketState

variable [Layout] {b : BucketState}

omit [Layout] in
@[simp] theorem rebuild_touch (key : String) :
    (b.touch key).rebuildGeneration = b.rebuildGeneration := by
  unfold touch
  split <;> rfl

@[simp] theorem rebuild_dropRow (key : String) :
    (b.dropRow key).rebuildGeneration = b.rebuildGeneration := by
  unfold dropRow
  split <;> rfl

@[simp] theorem touched_dropRow (key : String) :
    (b.dropRow key).rebuildTouched = b.rebuildTouched := by
  unfold dropRow
  split <;> rfl

omit [Layout] in
theorem draft_touch (hb : b.rebuildGeneration.isSome = true) (key a : String) :
    (b.touch key).draft a = if key = a then ⟨b.view a, true⟩ else b.draft a := by
  rw [draft, view_touch, touch, if_pos hb, Std.ExtTreeSet.contains_insert]
  split
  · next hk => simp [hk]
  · next hk => simp [hk, draft]

theorem draft_setRow (key a : String) (e : ObjEntry) :
    (b.setRow key e).draft a =
      if key = a then { b.draft a with view := { b.view a with row := some e } } else b.draft a := by
  rw [draft, view_setRow]
  split <;> rfl

theorem draft_dropRow (key a : String) :
    (b.dropRow key).draft a =
      if key = a then { b.draft a with view := { b.view a with row := none } } else b.draft a := by
  rw [draft, view_dropRow, touched_dropRow]
  split <;> rfl

omit [Layout] in
theorem draft_unfence (key a : String) :
    (b.unfence key).draft a =
      if key = a then { b.draft a with view := { b.view a with fence := none } } else b.draft a := by
  rw [draft, view_unfence]
  split <;> rfl

omit [Layout] in
theorem draft_setGone (a : String) (g : GoneRows) :
    { b with gone := g }.draft a =
      { b.draft a with view := { b.view a with gone := g.get a } } := rfl

theorem draft_put (hb : b.rebuildGeneration.isSome = true) (key a : String) (e : ObjEntry) :
    (b.afterPut key e .definitiveMutation).draft a =
      if key = a then (KeyEffect.put e).on (b.draft a) else b.draft a := by
  have hfirst : b.firstPut key .definitiveMutation = !b.rebuildTouched.contains key := by
    simp [firstPut, firstRebuildMutation, hb]
  have hr : b.refusesPut key e.lastModified .definitiveMutation =
      (b.rebuildTouched.contains key && (b.view key).refuses e.lastModified) := by
    cases ht : b.rebuildTouched.contains key <;>
      simp [refusesPut, hfirst, ht, KeyView.refuses, view]
  unfold afterPut acceptPut
  rw [hr, hfirst]
  by_cases hk : key = a
  · subst hk
    rw [if_pos rfl, KeyEffect.on, KeyView.put]
    cases ht : b.rebuildTouched.contains key with
    | true =>
      split
      · next hv =>
        rw [Bool.true_and] at hv
        simp [draft, ht, hv]
      · next hv =>
        rw [Bool.true_and] at hv
        simp only [Bool.not_true, Bool.false_eq_true, if_false]
        rw [draft_touch (by exact hb), if_pos rfl]
        simp [draft, ht, hv, view_unfence, view_setRow]
    | false =>
      simp only [Bool.false_and, Bool.false_eq_true, if_false, Bool.not_false, if_true]
      rw [draft_touch (by exact hb), if_pos rfl, view_unfence, view_setRow, if_pos rfl, if_pos rfl]
      simp [draft, view, ht, GoneRows.get_remove]
  · rw [if_neg hk]
    split
    · rfl
    · dsimp only
      split
      · rw [draft_touch (by exact hb), if_neg hk, draft_unfence, if_neg hk, draft_setRow, if_neg hk,
          draft_setGone, GoneRows.get_remove, if_neg hk]
        rfl
      · rw [draft_touch (by exact hb), if_neg hk, draft_unfence, if_neg hk, draft_setRow, if_neg hk]

theorem draft_observe (key a : String) (e : ObjEntry) :
    (b.afterPut key e .observation).draft a =
      if key = a then (b.draft a).observe e else b.draft a := by
  have hr : b.refusesPut key e.lastModified .observation =
      ((b.draft key).touched || (b.draft key).view.refuses e.lastModified) := by
    simp [refusesPut, firstPut, KeyView.refuses, view, draft, Bool.or_comm]
  have haccept : b.acceptPut key e .observation = b.setRow key e := rfl
  unfold afterPut
  rw [hr, haccept]
  by_cases hk : key = a
  · subst hk
    rw [if_pos rfl, Draft.observe]
    split
    · rfl
    · rw [draft_setRow, if_pos rfl]
      rfl
  · rw [if_neg hk]
    split
    · rfl
    · rw [draft_setRow, if_neg hk]

theorem foldRow_eq (row : String × ObjEntry) :
    b.foldRow row = if b.uncertainKeys.contains row.1 then b
      else b.afterPut row.1 row.2 .observation := by
  have haccept : b.acceptPut row.1 row.2 .observation = b.setRow row.1 row.2 := rfl
  have htakes : b.takesListed row.1 row.2.lastModified = (!b.uncertainKeys.contains row.1 &&
      !b.refusesPut row.1 row.2.lastModified .observation) := by
    have hgone : (b.gone.get row.1).all (· < row.2.lastModified) =
        !(b.gone.get row.1).any (row.2.lastModified ≤ ·) := by
      cases b.gone.get row.1 <;> simp [← decide_not]
    have hrow : (b.keys.get row.1).all (·.lastModified ≤ row.2.lastModified) =
        !(b.keys.get row.1).any (row.2.lastModified < ·.lastModified) := by
      cases b.keys.get row.1 <;> simp [← decide_not]
    simp only [takesListed, hgone, hrow, refusesPut, firstPut, reduceCtorEq, decide_false,
      Bool.false_and, Bool.not_false, Bool.true_and, decide_true, Bool.not_or]
    cases b.rebuildTouched.contains row.1 <;> simp [Bool.and_assoc]
  unfold foldRow afterPut
  rw [htakes, haccept]
  cases b.uncertainKeys.contains row.1 <;>
    cases b.refusesPut row.1 row.2.lastModified .observation <;> rfl

theorem draft_foldRow (row : String × ObjEntry) (a : String) :
    (b.foldRow row).draft a = if row.1 = a then (b.draft a).list row.2 else b.draft a := by
  have hfence : b.uncertainKeys.contains row.1 = (b.draft row.1).view.fence.isSome :=
    Std.ExtTreeMap.contains_eq_isSome_getElem?
  rw [foldRow_eq, hfence]
  by_cases hk : row.1 = a
  · rw [if_pos hk, ← hk, Draft.list]
    split
    · rfl
    · rw [draft_observe, if_pos rfl]
  · rw [if_neg hk]
    split
    · rfl
    · rw [draft_observe, if_neg hk]

theorem draft_del (hb : b.rebuildGeneration.isSome = true) (key a : String) (ts : SystemTime) :
    (b.afterDel key ts).draft a =
      if key = a then (KeyEffect.del ts).on (b.draft a) else b.draft a := by
  have hfirst : b.firstRebuildMutation key = !b.rebuildTouched.contains key := by
    simp [firstRebuildMutation, hb]
  have ho : b.outdatesDel key ts =
      (b.rebuildTouched.contains key && (b.view key).outdates ts) := by
    simp [outdatesDel, hfirst, KeyView.outdates, view]
  have hgone : (b.entomb key ts).gone.get a = if key = a then
      (if b.rebuildTouched.contains key then raised (b.gone.get a) ts else some ts)
      else b.gone.get a := by
    rw [entomb, hfirst]
    cases b.rebuildTouched.contains key with
    | true =>
      simp only [Bool.not_true, Bool.false_eq_true, if_false, if_true, GoneRows.get_raise]
      split
      · next hk => rw [hk]
      · rfl
    | false => simp only [Bool.not_false, Bool.false_eq_true, if_false, if_true, GoneRows.get_insert]
  have hentomb : (b.entomb key ts).draft a =
      { b.draft a with view := { b.view a with gone := (b.entomb key ts).gone.get a } } := rfl
  unfold afterDel acceptDel
  rw [ho]
  by_cases hk : key = a
  · subst hk
    rw [if_pos rfl] at hgone
    rw [if_pos rfl, KeyEffect.on, KeyView.del]
    cases ht : b.rebuildTouched.contains key with
    | true =>
      rw [ht, if_pos rfl] at hgone
      have hd : b.draft key = ⟨b.view key, true⟩ := by rw [draft, ht]
      rw [Bool.true_and, hd, if_pos rfl]
      split
      · rw [hentomb, hgone, hd]
        rfl
      · rw [draft_dropRow, if_pos rfl, draft_touch (by exact hb), if_pos rfl, view_touch,
          view_unfence, if_pos rfl, view, hgone]
        rfl
    | false =>
      rw [ht, if_neg Bool.false_ne_true] at hgone
      rw [Bool.false_and, if_neg Bool.false_ne_true, draft_dropRow, if_pos rfl,
        draft_touch (by exact hb), if_pos rfl, view_touch, view_unfence, if_pos rfl]
      simp [draft, ht, view, hgone]
  · rw [if_neg hk] at hgone
    rw [if_neg hk]
    rw [hgone] at hentomb
    split
    · exact hentomb
    · rw [draft_dropRow, if_neg hk, draft_touch (by exact hb), if_neg hk, draft_unfence, if_neg hk]
      exact hentomb

theorem draft_resolve (hb : b.rebuildGeneration.isSome = true) (key a : String) (now : SystemTime)
    (auth : AuthoritativeKeyState) :
    (b.resolve key now auth).draft a =
      if key = a then (KeyEffect.resolve now auth).on (b.draft a) else b.draft a := by
  by_cases hk : key = a
  · subst hk
    have htouch : (b.resolve key now auth).rebuildTouched.contains key = true := by
      have hgen : ∀ b' : BucketState, b'.rebuildGeneration.isSome = true →
          (b'.touch key).rebuildTouched.contains key = true := by
        intro b' hb'
        exact (congrArg Draft.touched (draft_touch hb' key key)).trans (by rw [if_pos rfl])
      cases auth with
      | present e => exact hgen _ hb
      | absent => exact hgen _ (by simpa [unfence] using hb)
    rw [if_pos rfl, draft, htouch, view_resolve, if_pos rfl]
    rfl
  · rw [if_neg hk]
    cases auth with
    | present e =>
      rw [resolve, draft_touch (by exact hb), if_neg hk, draft_unfence, if_neg hk, draft_setRow,
        if_neg hk, draft_setGone, GoneRows.get_remove, if_neg hk]
      rfl
    | absent =>
      rw [resolve, draft_touch (by simpa [unfence] using hb), if_neg hk, draft_unfence, if_neg hk,
        draft_dropRow, if_neg hk, draft_setGone, GoneRows.get_raise, if_neg hk]
      rfl

theorem draft_complete (key a : String) (fill : EntryFill) :
    (b.afterComplete key fill).draft a =
      if key = a then { b.draft a with view := (b.view a).complete fill } else b.draft a := by
  unfold afterComplete
  split
  · next hrow =>
    split
    · next hk =>
      subst hk
      simp [draft, view, KeyView.complete, hrow]
    · rfl
  · next entry hrow =>
    by_cases hk : key = a
    · subst hk
      rw [if_pos rfl]
      split
      · next hno =>
        have hsame : (if entry.sameVersion fill then entry.fill fill else entry) = entry := by
          split
          · next hv =>
            rw [hv] at hno
            exact ObjEntry.fill_of_not_filled (by simpa using hno)
          · rfl
        simp [draft, view, KeyView.complete, hrow, hsame]
      · next hyes =>
        have hv : entry.sameVersion fill = true := by simp_all
        simp [draft, view, KeyView.complete, hrow, hv, KeyRows.get_update]
    · rw [if_neg hk]
      split
      · rfl
      · simp [draft, view, KeyRows.get_update, hk]

@[simp] theorem rebuild_afterPut (key : String) (e : ObjEntry) (auth : PutAuthority) :
    (b.afterPut key e auth).rebuildGeneration = b.rebuildGeneration := by
  unfold afterPut acceptPut
  split
  · rfl
  · cases auth <;> dsimp only <;> split <;> simp [unfence, setRow]

@[simp] theorem rebuild_afterDel (key : String) (ts : SystemTime) :
    (b.afterDel key ts).rebuildGeneration = b.rebuildGeneration := by
  unfold afterDel
  split
  · rfl
  · rw [acceptDel, rebuild_dropRow, rebuild_touch]
    rfl

@[simp] theorem rebuild_afterComplete (key : String) (fill : EntryFill) :
    (b.afterComplete key fill).rebuildGeneration = b.rebuildGeneration := by
  unfold afterComplete
  split
  · rfl
  · split <;> rfl

@[simp] theorem rebuild_afterResolve (key : String) (token : Nat) (now : SystemTime)
    (auth : AuthoritativeKeyState) :
    (b.afterResolve key token now auth).rebuildGeneration = b.rebuildGeneration := by
  unfold afterResolve
  split
  · cases auth <;> simp [resolve, unfence, setRow]
  · rfl

@[simp] theorem rebuild_foldRow (row : String × ObjEntry) :
    (b.foldRow row).rebuildGeneration = b.rebuildGeneration := by
  unfold foldRow
  split <;> rfl

theorem rebuild_foldl_foldRow (rows : List (String × ObjEntry)) :
    (rows.foldl foldRow b).rebuildGeneration = b.rebuildGeneration := by
  induction rows generalizing b with
  | nil => rfl
  | cons row rows ih => rw [List.foldl_cons, ih, rebuild_foldRow]

end BucketState

section
variable {d d' : Draft} {l : List KeyEvent}

theorem Draft.Follows.congr (h : d.Follows l) (ht : d'.touched = d.touched)
    (hg : d'.view.gone = d.view.gone) (hr : d'.view.row = d.view.row) : d'.Follows l := by
  obtain ⟨h₁, h₂, h₃, h₄⟩ := h
  exact ⟨ht.trans h₁, hg.trans h₂, by rwa [ht, hr], by rwa [ht, hr]⟩

theorem Draft.Follows.page [Layout] {b : BucketState} {key : String}
    (h : (b.draft key).Follows l) (hfence : b.uncertainKeys[key]? = none)
    (rows : List (String × ObjEntry)) :
    ((rows.foldl BucketState.foldRow b).draft key).Follows
      (l ++ (rows.filter (·.1 = key)).map (.report ·.2)) := by
  induction rows generalizing b l with
  | nil => simpa using h
  | cons row rows ih =>
    have hrow := BucketState.draft_foldRow (b := b) row key
    have hsame : (b.foldRow row).uncertainKeys[key]? = none := by
      rw [BucketState.foldRow]
      split <;> exact hfence
    rw [List.foldl_cons, List.filter_cons]
    by_cases hk : row.1 = key
    · have hlist : (b.draft key).list row.2 = (b.draft key).observe row.2 := by
        rw [Draft.list, show (b.draft key).view.fence = none from hfence]
        rfl
      rw [if_pos (by simpa using hk), List.map_cons, ← List.singleton_append, ← List.append_assoc]
      rw [if_pos hk, hlist] at hrow
      exact ih (hrow ▸ h.report row.2) hsame
    · rw [if_neg (by simpa using hk)]
      rw [if_neg hk] at hrow
      exact ih (hrow ▸ h) hsame

theorem draft_fencedPage [Layout] {b : BucketState} {key : String} {token : Nat}
    (hfence : b.uncertainKeys[key]? = some token) (rows : List (String × ObjEntry)) :
    (rows.foldl BucketState.foldRow b).draft key = b.draft key := by
  induction rows generalizing b with
  | nil => rfl
  | cons row rows ih =>
    have hrow := BucketState.draft_foldRow (b := b) row key
    have hsame : (b.foldRow row).uncertainKeys[key]? = some token := by
      rw [BucketState.foldRow]
      split <;> exact hfence
    have hlist : (b.draft key).list row.2 = b.draft key := by
      rw [Draft.list, show (b.draft key).view.fence = some token from hfence]
      rfl
    rw [hlist, ite_self] at hrow
    rw [List.foldl_cons, ih hsame, hrow]

end

namespace KeyIndexState

variable [Layout]

def keyEvents (bucket key : String) (generation : Nat) (s : KeyIndexState) :
    IndexCall → List KeyEvent
  | .put b k e cut =>
    if (b = bucket ∧ (s.noteIdentity (cut.map .native)).1 = true) ∧ k = key then [.effect (.put e)]
    else []
  | .del b k ts cut =>
    if (b = bucket ∧ (s.noteIdentity (cut.map .native)).1 = true) ∧ k = key then
      [.effect (.del ts)]
    else []
  | .resolve b k token now authoritative =>
    if (b = bucket ∧ (s.bucket bucket).uncertainKeys[k]? = some token) ∧ k = key then
      [.effect (.resolve now authoritative)]
    else []
  | .observedPut b k e => if b = bucket ∧ k = key then [.report e] else []
  | .page b g rows =>
    if b = bucket ∧ g = generation ∧ (s.bucket bucket).uncertainKeys[key]? = none then
      (rows.filter (·.1 = key)).map (.report ·.2)
    else []
  | _ => []

/-- Nothing supersedes or ends the rebuild of the bucket, and no delete sweeps its tombstones. -/
def During (bucket : String) (s : KeyIndexState) : IndexCall → Prop
  | .resync b | .removeBucket b | .finish b _ => b ≠ bucket
  | .gap _ => False
  | .del b _ _ _ => b = bucket → s.Unswept bucket .run
  | _ => True

structure Building (bucket key : String) (generation : Nat) (l : List KeyEvent)
    (s : KeyIndexState) : Prop where
  current : (s.bucket bucket).syncGeneration = generation
  rebuild : (s.bucket bucket).rebuildGeneration = some generation
  follows : ((s.bucket bucket).draft key).Follows l

variable {s s' : KeyIndexState} {bucket key : String} {g : Nat} {l : List KeyEvent}

omit [Layout] in
theorem Building.isSome (h : Building bucket key g l s) :
    (s.bucket bucket).rebuildGeneration.isSome = true := by
  rw [h.rebuild]
  rfl

omit [Layout] in
theorem Building.of_bucket {l' : List KeyEvent} {b : BucketState} (h : Building bucket key g l s)
    (hb : s'.bucket bucket = b) (hg : b.syncGeneration = (s.bucket bucket).syncGeneration)
    (hr : b.rebuildGeneration = (s.bucket bucket).rebuildGeneration) (hf : (b.draft key).Follows l') :
    Building bucket key g l' s' := by
  subst hb
  exact ⟨hg.trans h.current, hr.trans h.rebuild, hf⟩

omit [Layout] in
theorem Building.frame {b : BucketState} (h : Building bucket key g l s)
    (hb : s'.bucket bucket = b) (hg : b.syncGeneration = (s.bucket bucket).syncGeneration)
    (hr : b.rebuildGeneration = (s.bucket bucket).rebuildGeneration)
    (hd : b.draft key = (s.bucket bucket).draft key) : Building bucket key g (l ++ []) s' :=
  h.of_bucket hb hg hr (by rw [List.append_nil, hd]; exact h.follows)

theorem Building.step {c : IndexCall} (h : Building bucket key g l s) (hok : s.During bucket c)
    (hs : s.step c = some s') : Building bucket key g (l ++ s.keyEvents bucket key g c) s' := by
  have hb := bucket_step hs bucket
  cases c with
  | put b k e cut =>
    rw [bucketAfter] at hb
    rw [keyEvents]
    by_cases hon : b = bucket ∧ (s.noteIdentity (cut.map .native)).1 = true
    · rw [if_pos hon] at hb
      have hd := BucketState.draft_put h.isSome k key e
      by_cases hk : k = key
      · rw [if_pos ⟨hon, hk⟩]
        rw [if_pos hk] at hd
        exact h.of_bucket hb (congrArg (·.2.1) (BucketState.counters_afterPut ..)) (by simp)
          (hd ▸ h.follows.effect (.put e))
      · rw [if_neg fun hc => hk hc.2]
        rw [if_neg hk] at hd
        exact h.frame hb (congrArg (·.2.1) (BucketState.counters_afterPut ..)) (by simp) hd
    · rw [if_neg hon] at hb
      rw [if_neg fun hc => hon hc.1]
      exact h.frame hb rfl rfl rfl
  | del b k ts cut =>
    rw [bucketAfter] at hb
    rw [keyEvents]
    by_cases hon : b = bucket ∧ (s.noteIdentity (cut.map .native)).1 = true
    · rw [if_pos hon, (hok hon.1).swept] at hb
      have hd := BucketState.draft_del h.isSome k key ts
      by_cases hk : k = key
      · rw [if_pos ⟨hon, hk⟩]
        rw [if_pos hk] at hd
        exact h.of_bucket hb (congrArg (·.2.1) (BucketState.counters_afterDel ..)) (by simp)
          (hd ▸ h.follows.effect (.del ts))
      · rw [if_neg fun hc => hk hc.2]
        rw [if_neg hk] at hd
        exact h.frame hb (congrArg (·.2.1) (BucketState.counters_afterDel ..)) (by simp) hd
    · rw [if_neg hon] at hb
      rw [if_neg fun hc => hon hc.1]
      exact h.frame hb rfl rfl rfl
  | observedPut b k e =>
    rw [bucketAfter] at hb
    rw [keyEvents]
    by_cases hon : b = bucket
    · rw [if_pos hon] at hb
      have hd := BucketState.draft_observe (b := s.bucket bucket) k key e
      by_cases hk : k = key
      · rw [if_pos ⟨hon, hk⟩]
        rw [if_pos hk] at hd
        exact h.of_bucket hb (congrArg (·.2.1) (BucketState.counters_afterPut ..)) (by simp)
          (hd ▸ h.follows.report e)
      · rw [if_neg fun hc => hk hc.2]
        rw [if_neg hk] at hd
        exact h.frame hb (congrArg (·.2.1) (BucketState.counters_afterPut ..)) (by simp) hd
    · rw [if_neg hon] at hb
      rw [if_neg fun hc => hon hc.1]
      exact h.frame hb rfl rfl rfl
  | complete b k fill =>
    rw [bucketAfter] at hb
    rw [show s.keyEvents bucket key g _ = [] from rfl, List.append_nil]
    split at hb
    · have hd := BucketState.draft_complete (b := s.bucket bucket) k key fill
      refine h.of_bucket hb (congrArg (·.2.1) (BucketState.counters_afterComplete ..)) (by simp) ?_
      rw [hd]
      split
      · exact h.follows.complete fill
      · exact h.follows
    · exact h.of_bucket hb rfl rfl h.follows
  | resolve b k token now auth =>
    rw [bucketAfter] at hb
    rw [keyEvents]
    by_cases hon : b = bucket ∧ (s.bucket bucket).uncertainKeys[k]? = some token
    · rw [if_pos hon.1, BucketState.afterResolve, if_pos hon.2] at hb
      have hkeep : (s.bucket bucket).afterResolve k token now auth =
        (s.bucket bucket).resolve k now auth := if_pos hon.2
      have hg := BucketState.counters_afterResolve (b := s.bucket bucket) k token now auth
      have hr := BucketState.rebuild_afterResolve (b := s.bucket bucket) k token now auth
      have hd := BucketState.draft_resolve h.isSome k key now auth
      rw [hkeep] at hg hr
      by_cases hk : k = key
      · rw [if_pos ⟨hon, hk⟩]
        rw [if_pos hk] at hd
        exact h.of_bucket hb (congrArg (·.2.1) hg) hr (hd ▸ h.follows.effect (.resolve now auth))
      · rw [if_neg fun hc => hk hc.2]
        rw [if_neg hk] at hd
        exact h.frame hb (congrArg (·.2.1) hg) hr hd
    · rw [if_neg fun hc => hon hc.1]
      refine h.frame (hb.trans ?_) rfl rfl rfl
      split
      · next hn => exact if_neg fun ht => hon ⟨hn, ht⟩
      · rfl
  | page b generation rows =>
    rw [bucketAfter] at hb
    rw [keyEvents]
    have hown : (s.bucket bucket).ownedBy generation = true ↔ generation = g := by
      rw [BucketState.ownedBy, h.current, h.rebuild, Bool.and_eq_true, beq_iff_eq, beq_iff_eq]
      exact ⟨fun ho => ho.1.symm, fun he => ⟨he.symm, by rw [he]⟩⟩
    by_cases hon : b = bucket ∧ generation = g
    · obtain ⟨hn, hgen⟩ := hon
      rw [if_pos hn, BucketState.afterPage, if_pos (hown.mpr hgen)] at hb
      have hg := congrArg (·.2.1) (BucketState.counters_foldl_foldRow (b := s.bucket bucket) rows)
      have hr := BucketState.rebuild_foldl_foldRow (b := s.bucket bucket) rows
      cases hf : (s.bucket bucket).uncertainKeys[key]? with
      | none =>
        rw [if_pos ⟨hn, hgen, rfl⟩]
        exact h.of_bucket hb hg hr (h.follows.page hf rows)
      | some token =>
        rw [if_neg fun hc => by cases hc.2.2]
        exact h.frame hb hg hr (draft_fencedPage hf rows)
    · rw [if_neg fun hc => hon ⟨hc.1, hc.2.1⟩]
      refine h.frame (hb.trans ?_) rfl rfl rfl
      split
      · next hn => exact if_neg fun ho => hon ⟨hn, hown.mp ho⟩
      · rfl
  | fence b k =>
    rw [bucketAfter] at hb
    rw [show s.keyEvents bucket key g _ = [] from rfl, List.append_nil]
    split at hb
    · exact h.of_bucket hb rfl rfl (h.follows.congr rfl rfl rfl)
    · exact h.of_bucket hb rfl rfl h.follows
  | fenceNative b k cut =>
    rw [bucketAfter] at hb
    rw [show s.keyEvents bucket key g _ = [] from rfl, List.append_nil]
    split at hb
    · exact h.of_bucket hb rfl rfl (h.follows.congr rfl rfl rfl)
    · exact h.of_bucket hb rfl rfl h.follows
  | fenceOwn b k cut =>
    rw [bucketAfter] at hb
    rw [show s.keyEvents bucket key g _ = [] from rfl, List.append_nil]
    split at hb
    · exact h.of_bucket hb rfl rfl (h.follows.congr rfl rfl rfl)
    · exact h.of_bucket hb rfl rfl h.follows
  | resync b =>
    rw [bucketAfter, if_neg hok] at hb
    exact h.frame hb rfl rfl rfl
  | finish b generation =>
    rw [bucketAfter, if_neg hok] at hb
    exact h.frame hb rfl rfl rfl
  | removeBucket b =>
    rw [bucketAfter, if_neg hok] at hb
    exact h.frame hb rfl rfl rfl
  | gap => exact hok.elim
  | register => exact h.frame hb rfl rfl rfl
  | noteSeal => exact h.frame hb rfl rfl rfl
  | renew => exact h.frame hb rfl rfl rfl

def history (bucket key : String) (generation : Nat) : KeyIndexState → List IndexCall →
    List KeyEvent :=
  Machine.collect KeyIndexState.step (keyEvents bucket key generation)

omit [Layout] in
theorem building_begin {s₀ s₁ : KeyIndexState} (h : s₀.beginBucketResync bucket = (g, s₁)) :
    Building bucket key g [] s₁ := by
  have hb : s₁.bucket bucket = (s₀.bucket bucket).begun := by
    rw [show s₁ = (s₀.beginBucketResync bucket).2 by rw [h], bucket_begin, if_pos rfl]
  have hg : g = (s₀.bucket bucket).discard.syncGeneration := (congrArg Prod.fst h).symm
  refine ⟨by rw [hb, hg]; rfl, by rw [hb, hg]; rfl, ?_⟩
  have hview : ((s₀.bucket bucket).begun.view key).row = none ∧
    ((s₀.bucket bucket).begun.view key).gone = none := ⟨KeyRows.get_empty key, GoneRows.get_empty key⟩
  have hempty : (s₀.bucket bucket).begun.rebuildTouched.contains key = false :=
    Std.ExtTreeSet.contains_empty
  rw [hb]
  refine ⟨hempty, hview.2, fun ht => ?_, fun _ => ⟨?_, fun e he => ?_⟩⟩
  · cases hempty.symm.trans ht
  · rw [BucketState.draft, hview.1]
    simp [reports]
  · cases hview.1.symm.trans he

theorem finished_rebuild_reflects {s₀ s₁ s₂ : KeyIndexState} {ops : List IndexCall}
    (hbegin : s₀.beginBucketResync bucket = (g, s₁))
    (hrun : Machine.Runs KeyIndexState.step (During bucket) s₁ ops s₂) :
    (s₂.finishBucketSyncGeneration bucket g).1 = true ∧
    ∀ key, let l := history bucket key g s₁ ops
      let b := (s₂.finishBucketSyncGeneration bucket g).2.bucket bucket
      b.synced = true ∧
      (effects l ≠ [] → b.gone.get key = (settled (effects l)).view.gone ∧
        Option.Rel Filled (settled (effects l)).view.row (b.keys.get key)) ∧
      (effects l = [] → b.gone.get key = none ∧ ((b.keys.get key).isSome ↔ reports l ≠ []) ∧
        ∀ e ∈ b.keys.get key, (∃ r ∈ reports l, Filled r e) ∧
          ∀ r ∈ reports l, r.lastModified ≤ e.lastModified) := by
  have hbuilt : ∀ key, Building bucket key g (history bucket key g s₁ ops) s₂ := fun key =>
    hrun.collects (P := Building bucket key g) (fun _ _ _ _ h hok hs => h.step hok hs)
      (building_begin hbegin)
  have hown : (s₂.bucket bucket).ownedBy g = true := by
    have h := hbuilt ""
    simp [BucketState.ownedBy, h.current, h.rebuild]
  refine ⟨by rw [finishBucketSyncGeneration_fst, hown], fun key => ?_⟩
  have hfollows := (hbuilt key).follows
  have htouched := hfollows.touched
  dsimp only
  rw [bucket_finish, if_pos rfl, BucketState.afterFinish, if_pos hown]
  refine ⟨rfl, fun hfx => ?_, fun hfx => ?_⟩
  · rw [(settled_touched _).mpr hfx] at htouched
    exact ⟨hfollows.gone, hfollows.owned htouched⟩
  · rw [hfx] at htouched
    exact ⟨hfollows.gone_eq_none htouched, hfollows.listed htouched⟩

end KeyIndexState

section Sample
local instance rebuildLayout : Layout := sampleLayout

def sampleStamp (seconds : UInt64) : ObjEntry :=
  ⟨some 1, fromMicros (seconds * 1000000), none, standardClass, none, none⟩

def sampleOld : KeyIndexState := (({} : KeyIndexState).applyPut "b" "old" (sampleStamp 9)).2

def sampleRace : List IndexCall :=
  [.page "b" 1 [("j", sampleStamp 3), ("k", sampleStamp 5)], .put "b" "k" (sampleStamp 1) none,
    .observedPut "b" "j" (sampleStamp 4), .page "b" 1 [("k", sampleStamp 7)]]

theorem finished_rebuild_reflects_sample :
    ∃ s, KeyIndexState.run (sampleOld.beginBucketResync "b").2 sampleRace = some s ∧
      (s.finishBucketSyncGeneration "b" 1).1 = true ∧
      Option.Rel Filled (some (sampleStamp 1))
        (((s.finishBucketSyncGeneration "b" 1).2.bucket "b").keys.get "k") ∧
      ((s.finishBucketSyncGeneration "b" 1).2.bucket "b").keys.get "old" = none := by
  have hbegin : sampleOld.beginBucketResync "b" = (1, (sampleOld.beginBucketResync "b").2) :=
    Prod.ext (by decide +kernel) rfl
  have hrun : Machine.Runs KeyIndexState.step (KeyIndexState.During "b")
      (sampleOld.beginBucketResync "b").2 sampleRace _ :=
    .cons trivial rfl (.cons trivial rfl (.cons trivial rfl (.cons trivial rfl (.nil _))))
  obtain ⟨hfinish, hkeys⟩ := KeyIndexState.finished_rebuild_reflects hbegin hrun
  have heffects : effects (KeyIndexState.history "b" "k" 1 (sampleOld.beginBucketResync "b").2
    sampleRace) = [.put (sampleStamp 1)] := by decide +kernel
  refine ⟨_, rfl, hfinish, ?_, ?_⟩
  · have h := ((hkeys "k").2.1 (by rw [heffects]; exact nofun)).2
    rwa [heffects] at h
  · have h := ((hkeys "old").2.2 (by decide +kernel)).2.1
    exact Option.not_isSome_iff_eq_none.mp fun hs => h.mp hs (by decide +kernel)

end Sample

end S3Cache.Index

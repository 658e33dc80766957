import S3Cache.Fleet.Install

/-! What an install keeps of the live index.  Per key, the installed row and tombstone are a
function of the live and the candidate's (`installedView`); the classification then decides
whether the live effects survive. -/

namespace S3Cache.Fleet

open Index Fallible

structure SameVersion (a b : ObjEntry) : Prop where
  etag : b.etag = a.etag
  size : b.size = a.size
  storage : b.storageClass = a.storageClass
  time : a.etag = none → b.lastModified = a.lastModified

theorem versionDifference_eq_none {a b : ObjEntry} :
    versionDifference a b = none ↔ SameVersion a b := by
  unfold versionDifference
  constructor
  · intro h
    split at h <;> try cases h
    split at h <;> try cases h
    split at h <;> try cases h
    split at h <;> try cases h
    next h1 h2 h3 h4 =>
    refine ⟨not_not.mp h1, not_not.mp h2, not_not.mp h3, fun h => ?_⟩
    simp only [h, Option.isNone_none, true_and, not_not] at h4
    exact h4
  · rintro ⟨h1, h2, h3, h4⟩
    cases ht : a.etag with
    | none => simp [h1, h2, h3, ht, h4 ht]
    | some t => simp [h1, h2, h3, ht]

def Ordered (s : KeyIndexState) : Prop :=
  ∀ name key row gone, (s.view name key).row = some row → (s.view name key).gone = some gone →
    gone < row.lastModified

def Carries (live candidate : KeyView) : Carried → Prop
  | .row row => live.row = some row ∧ rowCarried row candidate.row candidate.gone = .ok true
  | .delete gone =>
    live.gone = some gone ∧ tombstoneCarried gone candidate.row candidate.gone = .ok true

structure Classified (live candidate : KeyView) : Prop where
  row : ∀ row, live.row = some row → ∃ c, rowCarried row candidate.row candidate.gone = .ok c
  gone : ∀ gone, live.gone = some gone →
    ∃ c, tombstoneCarried gone candidate.row candidate.gone = .ok c

theorem refuseAt_eq_ok {α : Type} {bucket key : String} {x : Except Clause α} {a : α} :
    refuseAt bucket key x = .ok a ↔ x = .ok a := by
  cases x <;> simp [refuseAt]

theorem carriedRow_eq_ok {name : String} {b : BucketState} {row : String × ObjEntry}
    {kept : Option (String × String × Carried)} :
    carriedRow name b row = .ok kept ↔
      ∃ c, rowCarried row.2 (b.keys.get row.1) (b.gone.get row.1) = .ok c ∧
        kept = if c then some (name, row.1, .row row.2) else none := by
  simp only [carriedRow, bind_eq_ok, refuseAt_eq_ok, pure, Except.pure, Except.ok.injEq]
  exact exists_congr fun c => and_congr_right fun _ => eq_comm

theorem carriedDelete_eq_ok {name : String} {b : BucketState} {row : String × SystemTime}
    {kept : Option (String × String × Carried)} :
    carriedDelete name b row = .ok kept ↔
      ∃ c, tombstoneCarried row.2 (b.keys.get row.1) (b.gone.get row.1) = .ok c ∧
        kept = if c then some (name, row.1, .delete row.2) else none := by
  simp only [carriedDelete, bind_eq_ok, refuseAt_eq_ok, pure, Except.pure, Except.ok.injEq]
  exact exists_congr fun c => and_congr_right fun _ => eq_comm

theorem carriedRow_eq_some {name : String} {b : BucketState} {row : String × ObjEntry}
    {x : String × String × Carried} :
    carriedRow name b row = .ok (some x) ↔
      rowCarried row.2 (b.keys.get row.1) (b.gone.get row.1) = .ok true ∧
        x = (name, row.1, .row row.2) := by
  rw [carriedRow_eq_ok]
  constructor
  · rintro ⟨_ | _, hc, hx⟩
    · cases hx
    · exact ⟨hc, Option.some.inj hx⟩
  · rintro ⟨hc, rfl⟩
    exact ⟨true, hc, rfl⟩

theorem carriedDelete_eq_some {name : String} {b : BucketState} {row : String × SystemTime}
    {x : String × String × Carried} :
    carriedDelete name b row = .ok (some x) ↔
      tombstoneCarried row.2 (b.keys.get row.1) (b.gone.get row.1) = .ok true ∧
        x = (name, row.1, .delete row.2) := by
  rw [carriedDelete_eq_ok]
  constructor
  · rintro ⟨_ | _, hc, hx⟩
    · cases hx
    · exact ⟨hc, Option.some.inj hx⟩
  · rintro ⟨hc, rfl⟩
    exact ⟨true, hc, rfl⟩

theorem checkBucket_eq_ok {candidate : KeyIndexState} {maxRows : Nat} {acc acc' : Nat × Carry}
    {name : String} {b : BucketState}
    (h : checkBucket candidate maxRows acc (name, b) = .ok acc') :
    (∀ key, Classified (b.view key) (candidate.view name key)) ∧
    ∀ n key effect, (n, key, effect) ∈ acc'.2 ↔ (n, key, effect) ∈ acc.2 ∨
      name = n ∧ Carries (b.view key) (candidate.view name key) effect := by
  unfold checkBucket at h
  split at h
  · cases h
  next incoming hin =>
  have hview : ∀ key, candidate.view name key = incoming.view key :=
    fun key => KeyIndexState.view_of_get_some hin
  simp only [ite_error_eq_ok, bind_eq_ok] at h
  obtain ⟨-, rows, hrows, deletes, hdeletes, h⟩ := h
  cases h
  obtain ⟨hr, hrmem⟩ := collect_eq_ok hrows
  obtain ⟨hd, hdmem⟩ := collect_eq_ok hdeletes
  refine ⟨fun key => ⟨fun row hrow => ?_, fun gone hgone => ?_⟩, fun n key effect => ?_⟩
  · obtain ⟨kept, hk⟩ := hr _ (KeyRows.mem_rows.mpr hrow)
    obtain ⟨c, hc, -⟩ := carriedRow_eq_ok.mp hk
    exact ⟨c, hview key ▸ hc⟩
  · obtain ⟨kept, hk⟩ := hd _ (GoneRows.mem_rows.mpr hgone)
    obtain ⟨c, hc, -⟩ := carriedDelete_eq_ok.mp hk
    exact ⟨c, hview key ▸ hc⟩
  · rw [hview, List.mem_append, List.mem_append, hrmem, hdmem, or_assoc]
    refine or_congr_right ⟨?_, ?_⟩
    · rintro (⟨⟨k, e⟩, hmem, hkept⟩ | ⟨⟨k, t⟩, hmem, hkept⟩)
      · obtain ⟨hc, heq⟩ := carriedRow_eq_some.mp hkept
        cases heq
        exact ⟨rfl, KeyRows.mem_rows.mp hmem, hc⟩
      · obtain ⟨hc, heq⟩ := carriedDelete_eq_some.mp hkept
        cases heq
        exact ⟨rfl, GoneRows.mem_rows.mp hmem, hc⟩
    · rintro ⟨rfl, hcarries⟩
      cases effect with
      | row row =>
        exact .inl ⟨(key, row), KeyRows.mem_rows.mpr hcarries.1,
          carriedRow_eq_some.mpr ⟨hcarries.2, rfl⟩⟩
      | delete gone =>
        exact .inr ⟨(key, gone), GoneRows.mem_rows.mpr hcarries.1,
          carriedDelete_eq_some.mpr ⟨hcarries.2, rfl⟩⟩

theorem checkCandidate_eq_ok {alignCuts : CutAligner}
    {live candidate : KeyIndexState} {cuts : List NativeCut} {names : List String}
    {maxRows : Nat} {carry : Carry}
    (h : checkCandidate alignCuts live candidate cuts names maxRows = .ok carry) :
    (∀ name key, Classified (live.view name key) (candidate.view name key)) ∧
    ∀ name key effect, (name, key, effect) ∈ carry ↔
      Carries (live.view name key) (candidate.view name key) effect := by
  simp only [checkCandidate, bind_eq_ok] at h
  obtain ⟨-, -, ⟨rows, carry'⟩, hfold, h⟩ := h
  cases h
  have hinv := foldlM_keeps
    (P := fun done (acc : Nat × Carry) =>
      (∀ n b, (n, b) ∈ done → ∀ key, Classified (b.view key) (candidate.view n key)) ∧
      ∀ n key effect, (n, key, effect) ∈ acc.2 ↔
        ∃ b, (n, b) ∈ done ∧ Carries (b.view key) (candidate.view n key) effect)
    (by
      rintro done ⟨n, b⟩ acc acc' - ⟨hc, hm⟩ hstep
      obtain ⟨hc', hm'⟩ := checkBucket_eq_ok hstep
      refine ⟨fun n' b' hb => ?_, fun n' key effect => ?_⟩
      · rcases List.mem_append.mp hb with hb | hb
        · exact hc n' b' hb
        · obtain ⟨rfl, rfl⟩ : n' = n ∧ b' = b := by simpa using hb
          exact hc'
      · rw [hm', hm]
        constructor
        · rintro (⟨b', hb, h⟩ | ⟨rfl, h⟩)
          · exact ⟨b', by simp [hb], h⟩
          · exact ⟨b, by simp, h⟩
        · rintro ⟨b', hb, h⟩
          rcases List.mem_append.mp hb with hb | hb
          · exact .inl ⟨b', hb, h⟩
          · obtain ⟨rfl, rfl⟩ : n' = n ∧ b' = b := by simpa using hb
            exact .inr ⟨rfl, h⟩)
    (by simp) hfold
  obtain ⟨hc, hm⟩ := hinv
  have hmem : ∀ n b, (n, b) ∈ live.buckets.toList ↔ live.buckets[n]? = some b :=
    fun n b => Std.ExtTreeMap.mem_toList_iff_getElem?_eq_some
  refine ⟨fun name key => ?_, fun name key effect => ?_⟩
  · cases hb : live.buckets[name]? with
    | none =>
      rw [KeyIndexState.view_of_get_none hb]
      exact ⟨by simp, by simp⟩
    | some b =>
      rw [KeyIndexState.view_of_get_some hb]
      exact hc name b ((hmem _ _).mpr hb) key
  · rw [hm]
    simp only [hmem]
    cases hb : live.buckets[name]? with
    | none =>
      rw [KeyIndexState.view_of_get_none hb]
      cases effect <;> simp [Carries]
    | some b =>
      rw [KeyIndexState.view_of_get_some hb]
      simp

def Carried.act : Carried → KeyView → KeyView
  | .delete deletedAt, v => { v with row := none, gone := raised v.gone deletedAt }
  | .row entry, v => { v with row := some entry }

theorem raised_raised (gone : Option SystemTime) (t : SystemTime) :
    raised (raised gone t) t = raised gone t := by
  unfold raised
  cases gone with
  | none => simp
  | some g => by_cases h : g < t <;> simp [h]

theorem Carried.act_act (effect : Carried) (v : KeyView) :
    effect.act (effect.act v) = effect.act v := by
  cases effect <;> simp [act, raised_raised]

def SameRows (a b : KeyView) : Prop := a.row = b.row ∧ a.gone = b.gone

theorem SameRows.act {a b : KeyView} (h : SameRows a b) (effect : Carried) :
    SameRows (effect.act a) (effect.act b) := by
  cases effect with
  | row entry => exact ⟨rfl, h.2⟩
  | delete t => exact ⟨rfl, by simp only [Carried.act, h.2]⟩

theorem SameRows.ite {a b c d : KeyView} {p : Prop} [Decidable p] (h : SameRows a b)
    (h' : SameRows c d) : SameRows (if p then a else c) (if p then b else d) := by
  split
  · exact h
  · exact h'

section
variable [Layout]

theorem applyCarried_view {s s' : KeyIndexState} {name key : String} {effect : Carried}
    (h : applyCarried s (name, key, effect) = .ok s') (n k : String) :
    s'.view n k = if name = n ∧ key = k then effect.act (s.view n k) else s.view n k := by
  simp only [applyCarried] at h
  split at h
  · cases h
  next b hb =>
  have hset : ∀ b' : BucketState, (∀ k, b'.view k = if key = k then effect.act (b.view k)
      else b.view k) → (s.setBucket name b').view n k =
        if name = n ∧ key = k then effect.act (s.view n k) else s.view n k := by
    intro b' hb'
    rw [KeyIndexState.view, KeyIndexState.bucket_setBucket]
    by_cases hn : name = n
    · subst hn
      simp [hb', KeyIndexState.view_of_get_some hb]
    · simp [hn, KeyIndexState.view]
  cases effect with
  | delete t =>
    have hview := hset ({ b with gone := b.gone.raise key t }.dropRow key) fun k => by
      rw [BucketState.view_dropRow]
      simp only [BucketState.view, GoneRows.get_raise, Carried.act]
      split
      · next hk => subst hk; rfl
      · rfl
    simp only at h
    split at h <;> cases h <;> exact hview
  | row e =>
    cases h
    exact hset (b.setRow key e) fun k => BucketState.view_setRow key k e

theorem foldlM_applyCarried_view {carry : Carry} {s s' : KeyIndexState} {name key : String}
    (effect : Carried) (hsame : ∀ e, (name, key, e) ∈ carry → e = effect)
    (h : carry.foldlM applyCarried s = .ok s') :
    s'.view name key =
      if (name, key, effect) ∈ carry then effect.act (s.view name key) else s.view name key := by
  refine foldlM_keeps (P := fun done t => t.view name key =
    if (name, key, effect) ∈ done then effect.act (s.view name key) else s.view name key)
    ?_ (by simp) h
  rintro done ⟨n, k, e⟩ t t' hpre ht hstep
  rw [applyCarried_view hstep, ht]
  by_cases hnk : n = name ∧ k = key
  · obtain ⟨rfl, rfl⟩ := hnk
    obtain rfl : e = effect := hsame e (hpre.subset (by simp))
    by_cases hd : (n, k, e) ∈ done <;> simp [hd, Carried.act_act]
  · have hne : (name, key, effect) ≠ (n, k, e) := fun heq => hnk (by simp_all)
    simp [hnk, hne]

omit [Layout] in
theorem adopt_keeps {live s s' : KeyIndexState} {name : String} (h : adopt live s name = .ok s')
    (n k : String) : SameRows (s'.view n k) (s.view n k) := by
  simp only [adopt] at h
  split at h
  · cases h
  next b hb =>
  simp only [ite_error_eq_ok, Except.ok.injEq] at h
  obtain ⟨-, rfl⟩ := h
  rw [KeyIndexState.view, KeyIndexState.bucket_setBucket]
  split
  · next hn =>
    subst hn
    rw [KeyIndexState.view_of_get_some hb]
    cases live.buckets[name]? <;> exact ⟨rfl, rfl⟩
  · exact ⟨rfl, rfl⟩

omit [Layout] in
theorem foldlM_adopt_keeps {live s s' : KeyIndexState} {names : List String}
    (h : names.foldlM (adopt live) s = .ok s') (n k : String) :
    SameRows (s'.view n k) (s.view n k) := by
  refine foldlM_keeps (P := fun _ t => SameRows (t.view n k) (s.view n k)) ?_ ⟨rfl, rfl⟩ h
  intro done x t t' _ ht hstep
  obtain ⟨hr, hg⟩ := adopt_keeps hstep n k
  exact ⟨hr.trans ht.1, hg.trans ht.2⟩

def installedView (live candidate : KeyView) : KeyView :=
  let deleted := live.gone.elim candidate fun gone =>
    if tombstoneCarried gone candidate.row candidate.gone = .ok true then
      (Carried.delete gone).act candidate
    else candidate
  live.row.elim deleted fun row =>
    if rowCarried row candidate.row candidate.gone = .ok true then (Carried.row row).act deleted
    else deleted

theorem applyCarry_view {live candidate s s' : KeyIndexState} {carry : Carry} {name key : String}
    (hmem : ∀ effect, (name, key, effect) ∈ carry ↔
      Carries (live.view name key) (candidate.view name key) effect)
    (h : applyCarry s carry = .ok s') :
    let deleted := (live.view name key).gone.elim (s.view name key) fun gone =>
      if (name, key, .delete gone) ∈ carry then (Carried.delete gone).act (s.view name key)
      else s.view name key
    s'.view name key = (live.view name key).row.elim deleted fun row =>
      if (name, key, .row row) ∈ carry then (Carried.row row).act deleted else deleted := by
  rw [applyCarry, List.foldlM_append, bind_eq_ok] at h
  obtain ⟨t, ht, h⟩ := h
  have hdel : t.view name key = (live.view name key).gone.elim (s.view name key) fun gone =>
      if (name, key, .delete gone) ∈ carry then (Carried.delete gone).act (s.view name key)
      else s.view name key := by
    cases hg : (live.view name key).gone with
    | none =>
      rw [foldlM_applyCarried_view (.delete default) _ ht]
      · rw [if_neg]
        · rfl
        · simp [hmem, Carries, hg]
      · intro e he
        simp only [List.mem_filter, hmem] at he
        cases e <;> simp_all [Carries, Carried.isDelete]
    | some gone =>
      rw [foldlM_applyCarried_view (.delete gone) _ ht]
      · simp [Carried.isDelete]
      · intro e he
        simp only [List.mem_filter, hmem] at he
        cases e <;> simp_all [Carries, Carried.isDelete]
  simp only [← hdel]
  cases hr : (live.view name key).row with
  | none =>
    rw [foldlM_applyCarried_view (.delete default) _ h]
    · rw [if_neg]
      · rfl
      · simp [Carried.isDelete]
    · intro e he
      simp only [List.mem_filter, hmem] at he
      cases e <;> simp_all [Carries, Carried.isDelete]
  | some row =>
    rw [foldlM_applyCarried_view (.row row) _ h]
    · simp [Carried.isDelete]
    · intro e he
      simp only [List.mem_filter, hmem] at he
      cases e <;> simp_all [Carries, Carried.isDelete]

theorem publish_view {live candidate installed : KeyIndexState} {carry : Carry}
    {names : List String} {name key : String}
    (hmem : ∀ effect, (name, key, effect) ∈ carry ↔
      Carries (live.view name key) (candidate.view name key) effect)
    (h : publish live candidate names carry = .ok installed) :
    SameRows (installed.view name key)
      (installedView (live.view name key) (candidate.view name key)) := by
  simp only [publish, bind_eq_ok] at h
  obtain ⟨s, hs, s', hs', h⟩ := h
  cases h
  have hsame := foldlM_adopt_keeps hs name key
  have hview := applyCarry_view hmem hs'
  have hs'' : KeyIndexState.view { s' with nativeCuts := live.nativeCuts } name key =
    s'.view name key := rfl
  rw [hs'', hview]
  have hdel : ∀ gone, SameRows
      (if tombstoneCarried gone (candidate.view name key).row (candidate.view name key).gone =
        .ok true then (Carried.delete gone).act (s.view name key) else s.view name key)
      (if tombstoneCarried gone (candidate.view name key).row (candidate.view name key).gone =
        .ok true then (Carried.delete gone).act (candidate.view name key)
        else candidate.view name key) := fun gone => (hsame.act _).ite hsame
  cases hr : (live.view name key).row <;> cases hg : (live.view name key).gone <;>
    simp only [installedView, hmem, Carries, hr, hg, Option.elim, true_and]
  · exact hsame
  · exact hdel _
  · exact (hsame.act _).ite hsame
  · exact ((hdel _).act _).ite (hdel _)

end

section
variable {row : ObjEntry} {peer : Option ObjEntry} {deleted : Option SystemTime}

theorem covered_of_rowCarried (h : rowCarried row peer deleted = .ok false) :
    (∃ p, peer = some p ∧ SameVersion row p) ∨
    (∃ p, peer = some p ∧ wholeSeconds row.lastModified < wholeSeconds p.lastModified) ∨
    ∃ t, deleted = some t ∧ wholeSeconds row.lastModified < wholeSeconds t := by
  have hordered : ∀ p : Option (ObjEntry × RowField), rowOrdered row p deleted = .ok false →
      (∃ q, p = some q ∧ wholeSeconds row.lastModified < wholeSeconds q.1.lastModified) ∨
      ∃ t, deleted = some t ∧ wholeSeconds row.lastModified < wholeSeconds t := by
    intro p hp
    unfold rowOrdered at hp
    simp only [Bool.or_eq_true, Option.any_eq_true, laterSecond, decide_eq_true_eq] at hp
    split at hp
    · next hlater =>
      rcases hlater with ⟨t, ht, hlt⟩ | ⟨q, hq, hlt⟩
      · exact .inr ⟨t, ht, hlt⟩
      · exact .inl ⟨q, hq, hlt⟩
    · split at hp
      · cases hp
      · split at hp
        · split at hp <;> cases hp
        · cases hp
  cases peer with
  | none =>
    rcases hordered none h with ⟨q, hq, -⟩ | ht
    · cases hq
    · exact .inr (.inr ht)
  | some p =>
    simp only [rowCarried] at h
    split at h
    · next hv => exact .inl ⟨p, rfl, versionDifference_eq_none.mp hv⟩
    · next field hv =>
      rcases hordered _ h with ⟨q, hq, hlt⟩ | ht
      · cases hq
        exact .inr (.inl ⟨p, rfl, hlt⟩)
      · exact .inr (.inr ht)

theorem rowCarried_of_sameVersion {p : ObjEntry} (h : SameVersion row p) :
    rowCarried row (some p) deleted = .ok false := by
  simp [rowCarried, versionDifference_eq_none.mpr h]

variable {gone : SystemTime}

theorem covered_of_tombstoneCarried (h : tombstoneCarried gone peer deleted = .ok false) :
    (∃ t, deleted = some t ∧ gone ≤ t) ∨ ∃ p, peer = some p ∧ gone < p.lastModified := by
  unfold tombstoneCarried at h
  simp only [Option.any_eq_true, decide_eq_true_eq] at h
  split at h
  · exact .inl ‹_›
  · split at h
    · next p =>
      split at h
      · exact .inr ⟨p, rfl, ‹_›⟩
      · split at h <;> cases h
    · cases h

theorem tombstoneCarried_eq_true : tombstoneCarried gone peer deleted = .ok true ↔
    (∀ t, deleted = some t → t < gone) ∧
    ∀ p, peer = some p → wholeSeconds p.lastModified < wholeSeconds gone := by
  unfold tombstoneCarried
  constructor
  · intro h
    split at h
    · cases h
    next hd =>
    simp only [Option.any_eq_true, decide_eq_true_eq, not_exists, not_and, not_le] at hd
    refine ⟨fun t ht => hd t ht, fun p hp => ?_⟩
    subst hp
    simp only at h
    split at h
    · cases h
    split at h
    · cases h
    next hlt hne => exact lt_of_le_of_ne (wholeSeconds_mono (not_lt.mp hlt)) hne
  · rintro ⟨hd, hp⟩
    rw [if_neg (by simpa [Option.any_eq_true] using hd)]
    cases peer with
    | none => rfl
    | some p =>
      have hlt := hp p rfl
      simp only [not_lt.mpr (lt_of_wholeSeconds_lt hlt).le, hlt.ne, if_false]

end

/-- What an install owes a live key: its row's version, or something of a later whole second;
for its tombstone, one at least as late, or a row strictly later. -/
structure Preserved (live installed : KeyView) : Prop where
  row : ∀ row, live.row = some row →
    (∃ r, installed.row = some r ∧
      (SameVersion row r ∨ wholeSeconds row.lastModified < wholeSeconds r.lastModified)) ∨
    ∃ t, installed.gone = some t ∧ wholeSeconds row.lastModified < wholeSeconds t
  gone : ∀ gone, live.gone = some gone →
    (∃ t, installed.gone = some t ∧ gone ≤ t) ∨
    ∃ r, installed.row = some r ∧ gone < r.lastModified

theorem SameVersion.refl (e : ObjEntry) : SameVersion e e := ⟨rfl, rfl, rfl, fun _ => rfl⟩

theorem raised_of_lt {gone : Option SystemTime} {t : SystemTime} (h : ∀ g, gone = some g → g < t) :
    raised gone t = some t := by
  unfold raised
  rw [if_pos]
  cases gone with
  | none => rfl
  | some g => simpa using h g rfl

/-- The one live row an install loses: the candidate holds its version, stamped in an earlier
second than the live tombstone behind it, and the carried tombstone takes that row away. -/
def Clobbered (live candidate : KeyView) : Prop :=
  ∃ row gone peer, live.row = some row ∧ live.gone = some gone ∧ candidate.row = some peer ∧
    SameVersion row peer ∧ wholeSeconds peer.lastModified < wholeSeconds gone ∧
    ∀ t, candidate.gone = some t → t < gone

theorem preserved_installedView {live candidate : KeyView} (hc : Classified live candidate)
    (hord : ∀ row gone, live.row = some row → live.gone = some gone → gone < row.lastModified)
    (hn : ¬ Clobbered live candidate) : Preserved live (installedView live candidate) := by
  obtain ⟨lrow, lgone, lfence⟩ := live
  obtain ⟨crow, cgone, cfence⟩ := candidate
  constructor
  · intro row hrow
    obtain rfl : lrow = some row := hrow
    obtain ⟨carried, hcarried⟩ := hc.row row rfl
    cases carried with
    | true =>
      refine .inl ⟨row, ?_, .inl (.refl row)⟩
      simp only [installedView, Option.elim, hcarried, if_true, Carried.act]
    | false =>
      -- a covered row is safe unless a carried tombstone removes what covers it
      have hkeep : (∀ gone, lgone = some gone → tombstoneCarried gone crow cgone ≠ .ok true) →
          installedView ⟨some row, lgone, lfence⟩ ⟨crow, cgone, cfence⟩ =
            ⟨crow, cgone, cfence⟩ := by
        intro hno
        cases lgone with
        | none => simp [installedView, hcarried]
        | some gone => simp [installedView, hcarried, hno gone rfl]
      have hbefore : ∀ gone, lgone = some gone → wholeSeconds gone ≤ wholeSeconds row.lastModified :=
        fun gone hg => wholeSeconds_mono (hord row gone rfl hg).le
      rcases covered_of_rowCarried hcarried with ⟨p, hp, hv⟩ | ⟨p, hp, hlt⟩ | ⟨t, ht, hlt⟩
      · have hp' : crow = some p := hp
        rw [hkeep]
        · exact .inl ⟨p, hp', .inl hv⟩
        · intro gone hg htrue
          obtain ⟨hd, hs⟩ := tombstoneCarried_eq_true.mp htrue
          exact hn ⟨row, gone, p, rfl, hg, hp', hv, hs p hp', hd⟩
      · have hp' : crow = some p := hp
        rw [hkeep]
        · exact .inl ⟨p, hp', .inr hlt⟩
        · intro gone hg htrue
          have := (tombstoneCarried_eq_true.mp htrue).2 p hp'
          have := hbefore gone hg
          omega
      · have ht' : cgone = some t := ht
        rw [hkeep]
        · exact .inr ⟨t, ht', hlt⟩
        · intro gone hg htrue
          have := wholeSeconds_mono ((tombstoneCarried_eq_true.mp htrue).1 t ht').le
          have := hbefore gone hg
          omega
  · intro gone hgone
    obtain rfl : lgone = some gone := hgone
    obtain ⟨carried, hcarried⟩ := hc.gone gone rfl
    cases carried with
    | true =>
      have hraise := raised_of_lt (tombstoneCarried_eq_true.mp hcarried).1
      simp only at hcarried hraise
      refine .inl ⟨gone, ?_, le_rfl⟩
      cases lrow with
      | none => simp [installedView, hcarried, Carried.act, hraise]
      | some row =>
        simp only [installedView, Option.elim, hcarried, if_true]
        split <;> simp [Carried.act, hraise]
    | false =>
      have hnot : tombstoneCarried gone crow cgone ≠ .ok true := by simp [hcarried]
      cases lrow with
      | none =>
        simp only [installedView, Option.elim, hnot, if_false]
        exact covered_of_tombstoneCarried hcarried
      | some row =>
        simp only [installedView, Option.elim, hnot, if_false]
        split
        · rcases covered_of_tombstoneCarried hcarried with hd | -
          · exact .inl hd
          · exact .inr ⟨row, rfl, hord row gone rfl rfl⟩
        · exact covered_of_tombstoneCarried hcarried

theorem not_preserved_of_clobbered {live candidate installed : KeyView}
    (hord : ∀ row gone, live.row = some row → live.gone = some gone → gone < row.lastModified)
    (hs : SameRows installed (installedView live candidate)) (h : Clobbered live candidate) :
    ¬ Preserved live installed := by
  obtain ⟨row, gone, peer, hrow, hgone, hpeer, hv, hlt, hd⟩ := h
  have hcovered : rowCarried row candidate.row candidate.gone = .ok false := by
    rw [hpeer]
    exact rowCarried_of_sameVersion hv
  have hcarried : tombstoneCarried gone candidate.row candidate.gone = .ok true :=
    tombstoneCarried_eq_true.mpr ⟨hd, fun p hp => by
      obtain rfl : peer = p := by simpa [hpeer] using hp
      exact hlt⟩
  have hinst : installedView live candidate = (Carried.delete gone).act candidate := by
    simp [installedView, hrow, hgone, hcovered, hcarried]
  rw [hinst] at hs
  intro hp
  rcases hp.row row hrow with ⟨r, hr, -⟩ | ⟨t, ht, hlater⟩
  · rw [hs.1] at hr
    cases hr
  · have hraise : installed.gone = some gone := hs.2.trans (raised_of_lt hd)
    obtain rfl : gone = t := by simpa [hraise] using ht
    have := wholeSeconds_mono (hord row gone hrow hgone).le
    omega

section
variable [Layout] {alignCuts : CutAligner}
  {live candidate installed : KeyIndexState} {stage : Option KeyIndexState}
  {cuts : List NativeCut} {names : List String} {maxRows : Nat}

theorem installFleetCandidate_view
    (h : installFleetCandidate alignCuts live (some candidate) cuts names maxRows =
      (.ok (), installed, stage)) (name key : String) :
    Classified (live.view name key) (candidate.view name key) ∧
    SameRows (installed.view name key)
      (installedView (live.view name key) (candidate.view name key)) := by
  simp only [installFleetCandidate] at h
  split at h
  · cases h
  next carry hcheck =>
  obtain ⟨hclassified, hmem⟩ := checkCandidate_eq_ok hcheck
  split at h
  · cases h
  next installed' hpublish =>
  obtain ⟨-, rfl, -⟩ : True ∧ installed' = installed ∧ none = stage := by simpa using h
  exact ⟨hclassified name key, publish_view (hmem name key) hpublish⟩

/-- An install that succeeds keeps every live effect exactly when it clobbers no key. -/
theorem install_preserves_iff (hord : Ordered live)
    (h : installFleetCandidate alignCuts live (some candidate) cuts names maxRows =
      (.ok (), installed, stage)) :
    (∀ name key, Preserved (live.view name key) (installed.view name key)) ↔
      ∀ name key, ¬ Clobbered (live.view name key) (candidate.view name key) := by
  constructor
  · intro hp name key hcl
    exact not_preserved_of_clobbered (hord name key) (installFleetCandidate_view h name key).2 hcl
      (hp name key)
  · intro hn name key
    obtain ⟨hc, hr, hg⟩ := installFleetCandidate_view h name key
    have hp := preserved_installedView hc (hord name key) (hn name key)
    exact ⟨fun row hrow => hr ▸ hg ▸ hp.row row hrow, fun gone hgone => hr ▸ hg ▸ hp.gone gone hgone⟩

end

def sampleRow (seconds : UInt64) : ObjEntry where
  size := some 3
  lastModified := fromMicros (seconds * 1000000)
  etag := some (.strong "x")
  storageClass := standardClass
  contentType := none
  objMeta := none

def sampleIndex [Layout] (row : ObjEntry) (gone : Option SystemTime) : KeyIndexState :=
  ({} : KeyIndexState).setBucket "b"
    { synced := true, keys := ({} : KeyRows).insert "k" row
      gone := gone.elim {} (({} : GoneRows).insert "k" ·) }

theorem sampleIndex_ordered [Layout] {row : ObjEntry} {gone : Option SystemTime}
    (h : ∀ t ∈ gone, t < row.lastModified) : Ordered (sampleIndex row gone) := by
  intro name key r g hr hg
  rw [sampleIndex, KeyIndexState.view, KeyIndexState.bucket_setBucket] at hr hg
  by_cases hn : "b" = name
  · cases gone with
    | none => simp [hn, BucketState.view] at hg
    | some t =>
      simp only [hn, if_true, BucketState.view, KeyRows.get_insert, Option.elim,
        GoneRows.get_insert] at hr hg
      by_cases hk : "k" = key
      · obtain rfl : row = r := by simpa [hk] using hr
        obtain rfl : t = g := by simpa [hk] using hg
        exact h _ rfl
      · simp [hk] at hr
  · simp [hn, KeyIndexState.bucket] at hr

section
local instance installLayout : Layout := sampleLayout

/-- The swap of `sampleIndex` candidates with every cut aligned. -/
def sampleInstall (live candidate : KeyIndexState) :
    Except InstallRefusal Unit × KeyIndexState × Option KeyIndexState :=
  installFleetCandidate (fun _ _ => ⟨.exact, none⟩) live (some candidate) [] ["b"] 10

theorem install_preserves_sample :
    let live := sampleIndex (sampleRow 20) (some (fromMicros 15000000))
    let candidate := sampleIndex (sampleRow 20) none
    Ordered live ∧ (sampleInstall live candidate).1 = .ok () ∧
    ((∀ name key, Preserved (live.view name key)
      ((sampleInstall live candidate).2.1.view name key)) ↔
      ∀ name key, ¬ Clobbered (live.view name key) (candidate.view name key)) := by
  have hord : Ordered (sampleIndex (sampleRow 20) (some (fromMicros 15000000))) :=
    sampleIndex_ordered (by decide)
  have hok : (sampleInstall (sampleIndex (sampleRow 20) (some (fromMicros 15000000)))
    (sampleIndex (sampleRow 20) none)).1 = .ok () := by decide +kernel
  exact ⟨hord, hok, install_preserves_iff hord (Prod.ext hok rfl)⟩

/-- A live row of second 20 with its tombstone of second 15, and a candidate that holds the
same version stamped at second 10: the install leaves the tombstone alone. -/
theorem install_loses_row :
    let live := sampleIndex (sampleRow 20) (some (fromMicros 15000000))
    let candidate := sampleIndex (sampleRow 10) none
    Ordered live ∧ Ordered candidate ∧ (sampleInstall live candidate).1 = .ok () ∧
    (sampleInstall live candidate).2.1.view "b" "k" = ⟨none, some (fromMicros 15000000), none⟩ ∧
    ¬ ∀ name key, Preserved (live.view name key)
      ((sampleInstall live candidate).2.1.view name key) := by
  have hview : (sampleInstall (sampleIndex (sampleRow 20) (some (fromMicros 15000000)))
      (sampleIndex (sampleRow 10) none)).2.1.view "b" "k" =
        ⟨none, some (fromMicros 15000000), none⟩ := by decide +kernel
  have hlive : (sampleIndex (sampleRow 20) (some (fromMicros 15000000))).view "b" "k" =
    ⟨some (sampleRow 20), some (fromMicros 15000000), none⟩ := by decide +kernel
  refine ⟨sampleIndex_ordered (by decide), sampleIndex_ordered (by simp), by decide +kernel, hview,
    fun h => ?_⟩
  have hrow := (h "b" "k").row (sampleRow 20) (by rw [hlive])
  rw [hview] at hrow
  rcases hrow with ⟨r, hr, -⟩ | ⟨t, ht, hlt⟩
  · cases hr
  · cases ht
    exact absurd hlt (by decide)

end

end S3Cache.Fleet

import S3Cache.Index.Effect

/-! The index half of a definitive write on one node (`cache/proxy.rs`): stamped with the local
clock at the feed's precision, and what the index then says of the key. -/

namespace S3Cache.Index

open Fleet

namespace BucketState

variable [Layout] {b : BucketState} {key : String}

omit [Layout] in
theorem first_touch : (b.touch key).firstRebuildMutation key = false := by
  unfold touch firstRebuildMutation
  split
  · simp
  · next h => simp [h]

theorem first_dropRow (a : String) :
    (b.dropRow key).firstRebuildMutation a = b.firstRebuildMutation a := by
  unfold dropRow
  split <;> rfl

theorem view_acceptPut_of_first (hf : b.firstRebuildMutation key = true) (e : ObjEntry) :
    (b.acceptPut key e .definitiveMutation).view key = ⟨some e, none, none⟩ := by
  have hfirst : b.firstPut key .definitiveMutation = true := by rw [firstPut, hf]; rfl
  simp only [acceptPut, hfirst, if_true, view_touch, view_unfence, view_setRow]
  simp [view, GoneRows.get_remove]

theorem view_afterPut_self (e : ObjEntry) :
    (b.afterPut key e .definitiveMutation).view key =
      (b.view key).putOver (b.firstRebuildMutation key) e := by
  unfold afterPut
  cases hf : b.firstRebuildMutation key with
  | true =>
    have hr : b.refusesPut key e.lastModified .definitiveMutation = false := by
      simp [refusesPut, firstPut, hf]
    rw [hr, if_neg Bool.false_ne_true, view_acceptPut_of_first hf]
    rfl
  | false =>
    rw [refusesPut_of_later hf]
    unfold KeyView.putOver KeyView.put
    by_cases hr : (b.view key).refuses e.lastModified = true
    · simp [hr]
    · simp [hr, view_acceptPut_of_later (firstPut_of_later hf)]

theorem view_acceptDel_of_first (hf : b.firstRebuildMutation key = true) (ts : SystemTime) :
    (b.acceptDel key ts).view key = ⟨none, some ts, none⟩ := by
  simp only [acceptDel, view_dropRow, view_touch, view_unfence, if_true]
  simp [view, entomb, hf, GoneRows.get_insert]

theorem view_afterDel_self (ts : SystemTime) :
    (b.afterDel key ts).view key = (b.view key).delOver (b.firstRebuildMutation key) ts := by
  cases hf : b.firstRebuildMutation key with
  | false => rw [view_afterDel_of_later hf, if_pos rfl]; rfl
  | true =>
    have ho : b.outdatesDel key ts = false := by rw [outdatesDel, hf]; rfl
    rw [afterDel, ho, if_neg Bool.false_ne_true, view_acceptDel_of_first hf]
    rfl

theorem first_afterDel (ts : SystemTime) : (b.afterDel key ts).firstRebuildMutation key = false := by
  unfold afterDel
  split
  · next ho =>
    have hf := (Bool.and_eq_true_iff.mp ho).1
    rwa [Bool.not_eq_true'] at hf
  · rw [acceptDel, first_dropRow, first_touch]

theorem delOver_view_sweepTombstones (first : Bool) (ts : SystemTime) :
    ((b.sweepTombstones ts).view key).delOver first ts = (b.view key).delOver first ts := by
  cases first with
  | true => rfl
  | false => exact del_view_sweepTombstones key ts

theorem view_afterDel_other {a : String} (h : key ≠ a) (ts : SystemTime) :
    (b.afterDel key ts).view a = b.view a := by
  have hentomb : (b.entomb key ts).view a = b.view a := by
    unfold entomb
    split
    · simp only [view, GoneRows.get_insert, if_neg h]
    · simp only [view, GoneRows.get_raise, if_neg h]
  unfold afterDel
  split
  · exact hentomb
  · rw [acceptDel, view_dropRow, if_neg h, view_touch, view_unfence, if_neg h, hentomb]

theorem view_sweepTombstones (ts : SystemTime) (a : String) :
    (b.sweepTombstones ts).view a = b.view a ∨
      (b.sweepTombstones ts).view a = { b.view a with gone := none } := by
  unfold sweepTombstones
  split
  · split
    · next cutoff _ =>
      rcases GoneRows.get_sweepExpired b.gone cutoff a with h | ⟨h, -⟩
      · left
        simp only [view, h]
      · right
        simp only [view, h]
    · exact .inl rfl
  · exact .inl rfl

theorem first_sweepTombstones (ts : SystemTime) :
    (b.sweepTombstones ts).firstRebuildMutation key = b.firstRebuildMutation key := by
  unfold sweepTombstones
  split
  · split <;> rfl
  · rfl

end BucketState

end S3Cache.Index

namespace S3Cache.Cache

open Index KeyIndexState Fleet

structure StampedBy (v : KeyView) (t : SystemTime) : Prop where
  row : ∀ row ∈ v.row, row.lastModified ≤ t
  gone : ∀ gone ∈ v.gone, gone ≤ t

instance (v : KeyView) (t : SystemTime) : Decidable (StampedBy v t) :=
  decidable_of_iff ((∀ row ∈ v.row, row.lastModified ≤ t) ∧ ∀ gone ∈ v.gone, gone ≤ t)
    ⟨fun h => ⟨h.1, h.2⟩, fun h => ⟨h.row, h.gone⟩⟩

theorem StampedBy.mono {v : KeyView} {t u : SystemTime} (h : StampedBy v t) (htu : t ≤ u) :
    StampedBy v u :=
  ⟨fun row hr => (h.row row hr).trans htu, fun gone hg => (h.gone gone hg).trans htu⟩

theorem StampedBy.put {v : KeyView} {t : SystemTime} (h : StampedBy v t) {e : ObjEntry}
    (he : e.lastModified = t) (hgone : ∀ gone ∈ v.gone, gone < t) (auth : PutAuthority) :
    (v.put e auth).row = some e ∧ StampedBy (v.put e auth) t := by
  have hr : v.refuses e.lastModified = false := by
    rw [he, KeyView.refuses, Bool.or_eq_false_iff, Option.any_eq_false, Option.any_eq_false]
    refine ⟨fun g hg => ?_, fun row hrow => ?_⟩
    · simpa using hgone g hg
    · simpa using h.row row hrow
  have hrow : (v.put e auth).row = some e := by
    rw [KeyView.put, hr]
    rfl
  have hsame : (v.put e auth).gone = v.gone := by
    rw [KeyView.put, hr]
    rfl
  refine ⟨hrow, fun row hr => ?_, hsame ▸ h.gone⟩
  rw [hrow] at hr
  rw [← Option.some.inj hr, he]

theorem StampedBy.putOver {v : KeyView} {t : SystemTime} (h : StampedBy v t) {e : ObjEntry}
    (he : e.lastModified = t) (first : Bool) :
    StampedBy (v.putOver first e) t ∧
    ((v.putOver first e).row = some e ∨
      first = false ∧ (∃ gone ∈ v.gone, t ≤ gone) ∧ v.putOver first e = v) := by
  cases first with
  | true =>
    refine ⟨⟨fun row hr => ?_, fun gone hg => (by cases hg)⟩, .inl rfl⟩
    cases hr
    exact he.le
  | false =>
    by_cases hg : ∀ gone ∈ v.gone, gone < t
    · obtain ⟨hrow, hs⟩ := h.put he hg .definitiveMutation
      exact ⟨hs, .inl hrow⟩
    · simp only [not_forall, not_lt] at hg
      obtain ⟨gone, hgone, hle⟩ := hg
      have hr : v.refuses e.lastModified = true := by
        rw [he, KeyView.refuses, (Option.any_eq_true _ _).mpr ⟨gone, hgone, decide_eq_true hle⟩]
        rfl
      have hsame : v.putOver false e = v := if_pos hr
      rw [hsame]
      exact ⟨h, .inr ⟨rfl, ⟨gone, hgone, hle⟩, rfl⟩⟩

theorem StampedBy.del {v : KeyView} {t : SystemTime} (h : StampedBy v t) :
    (v.del t).row = none ∧ StampedBy (v.del t) t := by
  have ho : v.outdates t = false := by
    rw [KeyView.outdates, Bool.or_eq_false_iff, Option.any_eq_false, Option.any_eq_false]
    refine ⟨fun row hrow => ?_, fun g hg => ?_⟩
    · simpa using h.row row hrow
    · simpa using h.gone g hg
  have hdel : v.del t = ⟨none, some t, none⟩ := by
    rw [KeyView.del, ho, KeyView.raised_of_not_outdates ho]
    rfl
  rw [hdel]
  refine ⟨rfl, fun row hrow => absurd hrow (Option.not_mem_none row), fun g hg => ?_⟩
  rw [← Option.some.inj hg]

theorem StampedBy.delOver {v : KeyView} {t : SystemTime} (h : StampedBy v t) (first : Bool) :
    (v.delOver first t).row = none ∧ StampedBy (v.delOver first t) t := by
  cases first with
  | true =>
    refine ⟨rfl, fun row hr => (by cases hr), fun gone hg => ?_⟩
    cases hg
    exact le_rfl
  | false => exact h.del

section
variable [Layout]

def recordPut (index : KeyIndexState) (bucket key : String) (entry : ObjEntry)
    (now : SystemTime) : KeyIndexState :=
  (index.applyPut bucket key { entry with lastModified := wireStamp now }).2

def recordDel (index : KeyIndexState) (bucket key : String) (now : SystemTime) : KeyIndexState :=
  (index.applyDel bucket key (wireStamp now)).2

variable {index : KeyIndexState} {bucket key : String}

theorem view_recordPut (e : ObjEntry) (now : SystemTime) :
    (recordPut index bucket key e now).view bucket key =
      (index.view bucket key).putOver ((index.bucket bucket).firstRebuildMutation key)
        { e with lastModified := wireStamp now } := by
  unfold recordPut applyPut KeyIndexState.view
  rw [bucket_put, if_pos ⟨rfl, rfl⟩, BucketState.view_afterPut_self]

theorem view_recordDel (now : SystemTime) :
    (recordDel index bucket key now).view bucket key =
      (index.view bucket key).delOver ((index.bucket bucket).firstRebuildMutation key)
        (wireStamp now) := by
  unfold recordDel applyDel KeyIndexState.view
  rw [bucket_applyDelWithIdentity rfl, if_pos rfl, BucketState.view_afterDel_self, swept]
  split
  · rw [BucketState.first_sweepTombstones, BucketState.delOver_view_sweepTombstones]
  · rfl

theorem first_recordPut (index : KeyIndexState) (bucket key : String) (e : ObjEntry)
    (now : SystemTime) :
    ((recordPut index bucket key e now).bucket bucket).firstRebuildMutation key = false := by
  rw [recordPut, applyPut, bucket_applyPutWithAuthority rfl]
  split
  · exact BucketState.first_touch
  · next h =>
    by_contra hf
    rw [Bool.not_eq_false] at hf
    refine h ⟨rfl, ?_⟩
    simp [BucketState.refusesPut, BucketState.firstPut, hf]

theorem first_recordDel (index : KeyIndexState) (bucket key : String) (now : SystemTime) :
    ((recordDel index bucket key now).bucket bucket).firstRebuildMutation key = false := by
  rw [recordDel, applyDel, bucket_applyDelWithIdentity rfl, if_pos rfl]
  exact BucketState.first_afterDel _

theorem idle_recordPut (h : (index.bucket bucket).Idle) (e : ObjEntry) (now : SystemTime) :
    ((recordPut index bucket key e now).bucket bucket).Idle := idle_applyPutWithAuthority h rfl

theorem idle_recordDel (h : (index.bucket bucket).Idle) (now : SystemTime) :
    ((recordDel index bucket key now).bucket bucket).Idle := idle_applyDelWithIdentity h rfl

end

end S3Cache.Cache

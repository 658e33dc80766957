import S3Cache.Cache.Writer

/-! A batch delete (`cache/mutation.rs`): the origin refuses some objects of a request and deletes
the others, and the node follows it key by key. -/

namespace S3Cache.Cache

open Index KeyIndexState Fleet

structure ObjectIdentifier where
  key : String
  versionId : Option String
  deriving DecidableEq

structure ReportedObject where
  key : Option String
  versionId : Option String
  deriving DecidableEq

structure DeleteObjectsOutput where
  deleted : Option (List ReportedObject)
  errors : Option (List ReportedObject)

def reportedKeys (objects : Option (List ReportedObject)) : List String :=
  (objects.getD []).filterMap (·.key)

section
variable [Layout]

def applies (quiet : Bool) (output : DeleteObjectsOutput) (key : String) : Bool :=
  if quiet then !(reportedKeys output.errors).contains key
  else (reportedKeys output.deleted).contains key

/-- The index effects of a batch the origin has answered; `now n` is the clock at object `n`. -/
def deleteBatch (quiet : Bool) (output : DeleteObjectsOutput) (bucket : String)
    (now : Nat → SystemTime) : Nat → List ObjectIdentifier → Writer → Option Writer
  | _, [], w => some w
  | n, o :: objects, w =>
    if applies quiet output o.key then
      if o.versionId.isSome then
        (w.announceUnknown bucket o.key (now n)).bind
          (deleteBatch quiet output bucket now (n + 1) objects)
      else deleteBatch quiet output bucket now (n + 1) objects (w.recordDel bucket o.key (now n))
    else deleteBatch quiet output bucket now (n + 1) objects w

end

/-- The origin's answer to a request, whose objects are paired with whether they were deleted:
each is reported by key and version, in quiet mode only the refused ones. -/
structure Reports (quiet : Bool) (entries : List (ObjectIdentifier × Bool))
    (output : DeleteObjectsOutput) : Prop where
  errors : ∀ key version, ⟨some key, version⟩ ∈ output.errors.getD [] ↔
    (⟨key, version⟩, false) ∈ entries
  deleted : quiet = false → ∀ key version,
    ⟨some key, version⟩ ∈ output.deleted.getD [] ↔ (⟨key, version⟩, true) ∈ entries

theorem mem_reportedKeys {objects : Option (List ReportedObject)} {key : String} :
    (reportedKeys objects).contains key = true ↔ ∃ version, ⟨some key, version⟩ ∈ objects.getD [] := by
  rw [List.contains_iff_mem, reportedKeys, List.mem_filterMap]
  constructor
  · rintro ⟨⟨k, version⟩, hmem, rfl⟩
    exact ⟨version, hmem⟩
  · rintro ⟨version, hmem⟩
    exact ⟨_, hmem, rfl⟩

theorem Reports.applies_iff {quiet : Bool} {entries : List (ObjectIdentifier × Bool)}
    {output : DeleteObjectsOutput} (h : Reports quiet entries output) (key : String) :
    applies quiet output key = true ↔
      if quiet then ∀ e ∈ entries, e.1.key = key → e.2 = true
      else ∃ e ∈ entries, e.1.key = key ∧ e.2 = true := by
  unfold applies
  cases quiet with
  | true =>
    simp only [if_true, Bool.not_eq_true', Bool.eq_false_iff, ne_eq, mem_reportedKeys, h.errors]
    constructor
    · rintro hnone ⟨⟨k, version⟩, applied⟩ he rfl
      cases applied with
      | true => rfl
      | false => exact absurd ⟨version, he⟩ hnone
    · rintro hall ⟨version, he⟩
      cases hall _ he rfl
  | false =>
    simp only [Bool.false_eq_true, if_false, mem_reportedKeys, h.deleted rfl]
    constructor
    · rintro ⟨version, he⟩
      exact ⟨_, he, rfl, rfl⟩
    · rintro ⟨⟨⟨k, version⟩, applied⟩, he, rfl, rfl⟩
      exact ⟨version, he⟩

def Outlasts {α : Type} (P Q : α → Prop) (l : List α) : Prop :=
  ∃ v post, v :: post <:+ l ∧ P v ∧ ∀ u ∈ post, ¬ Q u

section
variable {α : Type} {P Q : α → Prop} {v : α} {l : List α}

theorem not_outlasts_nil : ¬ Outlasts P Q [] := by
  rintro ⟨v, post, hsuffix, -⟩
  cases List.suffix_nil.mp hsuffix

theorem outlasts_cons : Outlasts P Q (v :: l) ↔ (P v ∧ ∀ u ∈ l, ¬ Q u) ∨ Outlasts P Q l := by
  constructor
  · rintro ⟨u, post, hsuffix, hu, hpost⟩
    rcases List.suffix_cons_iff.mp hsuffix with heq | hsuffix
    · cases heq
      exact .inl ⟨hu, hpost⟩
    · exact .inr ⟨u, post, hsuffix, hu, hpost⟩
  · rintro (⟨hv, hl⟩ | ⟨u, post, hsuffix, hu, hpost⟩)
    · exact ⟨v, l, List.suffix_rfl, hv, hl⟩
    · exact ⟨u, post, List.suffix_cons_iff.mpr (.inr hsuffix), hu, hpost⟩

instance decidableOutlasts [DecidablePred P] [DecidablePred Q] :
    (l : List α) → Decidable (Outlasts P Q l)
  | [] => isFalse not_outlasts_nil
  | _ :: l => @decidable_of_iff _ _ outlasts_cons.symm (@instDecidableOr _ _ _ (decidableOutlasts l))

theorem not_outlasts_of_forall (h : ∀ u ∈ l, ¬ P u) : ¬ Outlasts P Q l := by
  rintro ⟨u, post, hsuffix, hu, -⟩
  exact h u (hsuffix.subset List.mem_cons_self) hu

end

structure Visit where
  object : ObjectIdentifier
  stamp : SystemTime
  found : KeyIndexState

namespace Visit

def Fences (key : String) (v : Visit) : Prop :=
  v.object.key = key ∧ v.object.versionId.isSome = true

def Deletes (key : String) (v : Visit) : Prop := v.object.key = key ∧ v.object.versionId = none

def First (bucket key : String) (v : Visit) : Prop :=
  (v.found.bucket bucket).firstRebuildMutation key = true

def Entombs (bucket key : String) (v : Visit) : Prop :=
  v.Deletes key ∧ (v.First bucket key ∨ ∀ t ∈ (v.found.view bucket key).gone, t ≤ v.stamp)

/-- Its delete takes the row and the fence too. -/
def Accepted (bucket key : String) (v : Visit) : Prop :=
  v.Deletes key ∧ (v.First bucket key ∨ StampedBy (v.found.view bucket key) v.stamp)

instance (key : String) (v : Visit) : Decidable (v.Fences key) :=
  inferInstanceAs (Decidable (_ ∧ _))

instance (key : String) (v : Visit) : Decidable (v.Deletes key) :=
  inferInstanceAs (Decidable (_ ∧ _))

instance (bucket key : String) (v : Visit) : Decidable (v.First bucket key) :=
  inferInstanceAs (Decidable (_ = _))

instance (bucket key : String) (v : Visit) : Decidable (v.Entombs bucket key) :=
  inferInstanceAs (Decidable (_ ∧ _))

instance (bucket key : String) (v : Visit) : Decidable (v.Accepted bucket key) :=
  inferInstanceAs (Decidable (_ ∧ _))

variable [Layout]

def Forgets (bucket key : String) (v : Visit) : Prop :=
  v.object.versionId = none ∧ v.object.key ≠ key ∧
    (v.found.view bucket key).gone.isSome = true ∧
    ((v.found.swept bucket v.stamp .run).view key).gone = none

instance (bucket key : String) (v : Visit) : Decidable (v.Forgets bucket key) :=
  inferInstanceAs (Decidable (_ ∧ _))

end Visit

section
variable [Layout]

def visits (quiet : Bool) (output : DeleteObjectsOutput) (bucket : String)
    (now : Nat → SystemTime) : Nat → List ObjectIdentifier → Writer → List Visit
  | _, [], _ => []
  | n, o :: objects, w =>
    if applies quiet output o.key then
      ⟨o, wireStamp (now n), w.index⟩ ::
        if o.versionId.isSome then
          (w.announceUnknown bucket o.key (now n)).elim []
            (visits quiet output bucket now (n + 1) objects)
        else visits quiet output bucket now (n + 1) objects (w.recordDel bucket o.key (now n))
    else visits quiet output bucket now (n + 1) objects w

inductive Trail (bucket : String) : Writer → List Visit → Writer → Prop where
  | nil (w : Writer) : Trail bucket w [] w
  | fence {w w₁ w' : Writer} {o : ObjectIdentifier} {now : SystemTime} {l : List Visit} :
    o.versionId.isSome = true → w.announceUnknown bucket o.key now = some w₁ →
    Trail bucket w₁ l w' → Trail bucket w (⟨o, wireStamp now, w.index⟩ :: l) w'
  | delete {w w' : Writer} {o : ObjectIdentifier} {now : SystemTime} {l : List Visit} :
    o.versionId = none → Trail bucket (w.recordDel bucket o.key now) l w' →
    Trail bucket w (⟨o, wireStamp now, w.index⟩ :: l) w'

variable {quiet : Bool} {output : DeleteObjectsOutput} {bucket : String}
  {now : Nat → SystemTime} {w w' : Writer} {key : String} {l : List Visit}

theorem trail_visits {n : Nat} {objects : List ObjectIdentifier}
    (h : deleteBatch quiet output bucket now n objects w = some w') :
    Trail bucket w (visits quiet output bucket now n objects w) w' := by
  induction objects generalizing n w with
  | nil =>
    cases h
    exact .nil _
  | cons o objects ih =>
    rw [deleteBatch] at h
    rw [visits]
    split at h
    · next ha =>
      rw [if_pos ha]
      split at h
      · next hversion =>
        obtain ⟨w₁, hw₁, h⟩ := Option.bind_eq_some_iff.mp h
        rw [if_pos hversion, hw₁]
        exact .fence hversion hw₁ (ih h)
      · next hversion =>
        rw [if_neg hversion]
        exact .delete (Option.not_isSome_iff_eq_none.mp hversion) (ih h)
    · next ha =>
      rw [if_neg ha]
      exact ih h

theorem applies_of_mem_visits {n : Nat} {objects : List ObjectIdentifier} {v : Visit}
    (h : v ∈ visits quiet output bucket now n objects w) :
    applies quiet output v.object.key = true := by
  induction objects generalizing n w with
  | nil => cases h
  | cons o objects ih =>
    rw [visits] at h
    split at h
    · next ha =>
      rcases List.mem_cons.mp h with rfl | h
      · exact ha
      · split at h
        · cases hw : w.announceUnknown bucket o.key (now n) with
          | none =>
            rw [hw] at h
            cases h
          | some w₁ =>
            rw [hw] at h
            exact ih h
        · exact ih h
    · exact ih h

theorem deletes_iff {n : Nat} {objects : List ObjectIdentifier}
    (h : deleteBatch quiet output bucket now n objects w = some w') {t : SystemTime} :
    (∃ v ∈ visits quiet output bucket now n objects w, v.Deletes key ∧ v.stamp = t) ↔
      ∃ i o, objects[i]? = some o ∧ o.key = key ∧ o.versionId = none ∧
        applies quiet output key = true ∧ t = wireStamp (now (n + i)) := by
  induction objects generalizing n w with
  | nil =>
    constructor
    · rintro ⟨v, hv, -⟩
      cases hv
    · rintro ⟨i, o, ho, -⟩
      cases ho
  | cons o objects ih =>
    have hsplit : (∃ i x, (o :: objects)[i]? = some x ∧ x.key = key ∧ x.versionId = none ∧
        applies quiet output key = true ∧ t = wireStamp (now (n + i))) ↔
        (o.key = key ∧ o.versionId = none ∧ applies quiet output key = true ∧
          t = wireStamp (now n)) ∨
        ∃ i x, objects[i]? = some x ∧ x.key = key ∧ x.versionId = none ∧
          applies quiet output key = true ∧ t = wireStamp (now (n + 1 + i)) := by
      constructor
      · rintro ⟨i, x, hx, hrest⟩
        cases i with
        | zero =>
          cases hx
          exact .inl hrest
        | succ i => exact .inr ⟨i, x, hx, by rwa [Nat.add_assoc, Nat.add_comm 1]⟩
      · rintro (hrest | ⟨i, x, hx, hrest⟩)
        · exact ⟨0, o, rfl, hrest⟩
        · exact ⟨i + 1, x, hx, by rwa [Nat.add_assoc, Nat.add_comm 1] at hrest⟩
    rw [hsplit]
    rw [deleteBatch] at h
    rw [visits]
    split at h
    · next ha =>
      rw [if_pos ha]
      simp only [List.exists_mem_cons_iff]
      refine or_congr ⟨fun hv => ?_, fun hv => ?_⟩ ?_
      · obtain ⟨⟨hk, hversion⟩, hstamp⟩ := hv
        exact ⟨hk, hversion, hk ▸ ha, hstamp.symm⟩
      · exact ⟨⟨hv.1, hv.2.1⟩, hv.2.2.2.symm⟩
      · split at h
        · next hversion =>
          obtain ⟨w₁, hw₁, h⟩ := Option.bind_eq_some_iff.mp h
          rw [if_pos hversion, hw₁]
          exact ih h
        · next hversion =>
          rw [if_neg hversion]
          exact ih h
    · next ha =>
      rw [if_neg ha, ih h]
      refine (or_iff_right ?_).symm
      rintro ⟨hk, -, ha', -⟩
      exact ha (hk ▸ ha')

omit [Layout] in
theorem outdates_eq_false {v : KeyView} {ts : SystemTime} :
    v.outdates ts = false ↔ StampedBy v ts := by
  rw [KeyView.outdates, Bool.or_eq_false_iff, Option.any_eq_false, Option.any_eq_false]
  constructor
  · rintro ⟨hrow, hgone⟩
    exact ⟨fun row hr => by simpa using hrow row hr, fun gone hg => by simpa using hgone gone hg⟩
  · rintro ⟨hrow, hgone⟩
    exact ⟨fun row hr => by simpa using hrow row hr, fun gone hg => by simpa using hgone gone hg⟩

omit [Layout] in
theorem isSome_fence_delOver {v : KeyView} {first : Bool} {ts : SystemTime} :
    (v.delOver first ts).fence.isSome = true ↔
      v.fence.isSome = true ∧ ¬ (first = true ∨ StampedBy v ts) := by
  rw [← outdates_eq_false]
  cases first with
  | true => simp [KeyView.delOver]
  | false =>
    cases ho : v.outdates ts with
    | true => simp [KeyView.delOver, KeyView.del, ho]
    | false => simp [KeyView.delOver, KeyView.del, ho]

omit [Layout] in
theorem gone_delOver_cases (v : KeyView) (first : Bool) (ts : SystemTime) :
    ((first = true ∨ ∀ t ∈ v.gone, t ≤ ts) ∧ (v.delOver first ts).gone = some ts) ∨
      (¬ (first = true ∨ ∀ t ∈ v.gone, t ≤ ts) ∧ (v.delOver first ts).gone = v.gone) := by
  cases first with
  | true => exact .inl ⟨.inl rfl, rfl⟩
  | false =>
    have hgone : (v.delOver false ts).gone = raised v.gone ts := by
      show (v.del ts).gone = _
      unfold KeyView.del
      split <;> rfl
    rw [hgone]
    cases hg : v.gone with
    | none => exact .inl ⟨.inr fun t ht => (by cases ht), rfl⟩
    | some t =>
      rcases lt_trichotomy t ts with hlt | rfl | hgt
      · left
        refine ⟨.inr fun u hu => ?_, by simp [raised, hlt]⟩
        cases hu
        exact hlt.le
      · left
        refine ⟨.inr fun u hu => ?_, by simp [raised]⟩
        cases hu
        exact le_rfl
      · right
        refine ⟨?_, by simp [raised, hgt.asymm]⟩
        rintro (hf | hle)
        · cases hf
        · exact absurd (hle t rfl) hgt.not_ge

theorem view_swept (s : KeyIndexState) {o : ObjectIdentifier} (ts : SystemTime)
    (hversion : o.versionId = none) (hkey : o.key ≠ key) :
    (Visit.Forgets bucket key ⟨o, ts, s⟩ ∧
        (s.swept bucket ts .run).view key = { s.view bucket key with gone := none }) ∨
      (¬ Visit.Forgets bucket key ⟨o, ts, s⟩ ∧
        (s.swept bucket ts .run).view key = s.view bucket key) := by
  have hview : (s.swept bucket ts .run).view key = s.view bucket key ∨
      (s.swept bucket ts .run).view key = { s.view bucket key with gone := none } := by
    unfold KeyIndexState.swept
    split
    · exact BucketState.view_sweepTombstones ts key
    · exact .inl rfl
  rcases hview with hsame | hswept
  · right
    refine ⟨?_, hsame⟩
    rintro ⟨-, -, hsome, hnone⟩
    rw [hsame] at hnone
    rw [show (s.view bucket key).gone = none from hnone] at hsome
    cases hsome
  · cases hg : (s.view bucket key).gone with
    | some t =>
      left
      exact ⟨⟨hversion, hkey, by rw [hg]; rfl, by rw [hswept]⟩, hswept⟩
    | none =>
      right
      refine ⟨?_, hswept.trans (by rw [← hg])⟩
      rintro ⟨-, -, hsome, -⟩
      rw [show (s.view bucket key).gone = none from hg] at hsome
      cases hsome

def KeptFenced (bucket : String) (s : KeyIndexState) (l : List Visit) (key : String) : Prop :=
  Outlasts (Visit.Fences key) (Visit.Accepted bucket key) l ∨
    (s.view bucket key).fence.isSome = true ∧ ∀ u ∈ l, ¬ u.Accepted bucket key

instance (bucket : String) (s : KeyIndexState) (l : List Visit) (key : String) :
    Decidable (KeptFenced bucket s l key) := inferInstanceAs (Decidable (_ ∨ _))

theorem Trail.fence_iff (h : Trail bucket w l w') :
    (w'.index.view bucket key).fence.isSome = true ↔ KeptFenced bucket w.index l key := by
  induction h with
  | nil w => simp [KeptFenced, not_outlasts_nil]
  | @fence w w₁ w' o now l hversion hw₁ _ ih =>
    have hnot : ¬ Visit.Accepted bucket key ⟨o, wireStamp now, w.index⟩ := fun ha => by
      rw [show o.versionId = none from ha.1.2] at hversion
      cases hversion
    have hview := Writer.view_announceUnknown hw₁ key
    rw [ih, KeptFenced, KeptFenced, outlasts_cons, List.forall_mem_cons, hview]
    by_cases hk : o.key = key
    · have hfences : Visit.Fences key ⟨o, wireStamp now, w.index⟩ := ⟨hk, hversion⟩
      simp only [if_pos hk, Option.isSome_some, true_and, hfences, hnot, not_false_eq_true]
      tauto
    · have hfences : ¬ Visit.Fences key ⟨o, wireStamp now, w.index⟩ := fun hf => hk hf.1
      simp only [if_neg hk, hfences, hnot, false_and, false_or, not_false_eq_true, true_and]
  | @delete w w' o now l hversion _ ih =>
    have hfences : ¬ Visit.Fences key ⟨o, wireStamp now, w.index⟩ := fun hf => by
      have hsome : o.versionId.isSome = true := hf.2
      rw [hversion] at hsome
      cases hsome
    rw [ih, KeptFenced, KeptFenced, outlasts_cons, List.forall_mem_cons, Writer.view_recordDel]
    by_cases hk : o.key = key
    · subst hk
      have haccepted : Visit.Accepted bucket o.key ⟨o, wireStamp now, w.index⟩ ↔
          ((w.index.bucket bucket).firstRebuildMutation o.key = true ∨
            StampedBy (w.index.view bucket o.key) (wireStamp now)) :=
        and_iff_right ⟨rfl, hversion⟩
      rw [if_pos rfl, isSome_fence_delOver, haccepted]
      tauto
    · have haccepted : ¬ Visit.Accepted bucket key ⟨o, wireStamp now, w.index⟩ :=
        fun ha => hk ha.1.1
      have hsame : ((w.index.swept bucket (wireStamp now) .run).view key).fence =
          (w.index.view bucket key).fence := by
        rcases view_swept w.index (wireStamp now) hversion hk with
          ⟨-, hv⟩ | ⟨-, hv⟩
        · rw [hv]
        · rw [hv]
      rw [if_neg hk, hsame]
      tauto

theorem Trail.gone_iff (Own : SystemTime → Prop) (h : Trail bucket w l w')
    (hown : ∀ v ∈ l, v.Deletes key → Own v.stamp) :
    (∃ t ∈ (w'.index.view bucket key).gone, Own t) ↔
      Outlasts (Visit.Entombs bucket key) (Visit.Forgets bucket key) l ∨
        (∃ t ∈ (w.index.view bucket key).gone, Own t) ∧ ∀ u ∈ l, ¬ u.Forgets bucket key := by
  induction h with
  | nil w => simp [not_outlasts_nil]
  | @fence w w₁ w' o now l hversion hw₁ _ ih =>
    have hentombs : ¬ Visit.Entombs bucket key ⟨o, wireStamp now, w.index⟩ := fun he => by
      rw [show o.versionId = none from he.1.2] at hversion
      cases hversion
    have hforgets : ¬ Visit.Forgets bucket key ⟨o, wireStamp now, w.index⟩ := fun hf => by
      rw [show o.versionId = none from hf.1] at hversion
      cases hversion
    have hsame : (w₁.index.view bucket key).gone = (w.index.view bucket key).gone := by
      rw [Writer.view_announceUnknown hw₁ key]
      split <;> rfl
    rw [ih fun v hv => hown v (List.mem_cons_of_mem _ hv), outlasts_cons, List.forall_mem_cons,
      hsame]
    simp only [hentombs, hforgets, false_and, false_or, not_false_eq_true, true_and]
  | @delete w w' o now l hversion _ ih =>
    rw [ih fun v hv => hown v (List.mem_cons_of_mem _ hv), outlasts_cons, List.forall_mem_cons,
      Writer.view_recordDel]
    by_cases hk : o.key = key
    · subst hk
      have hstamp : Own (wireStamp now) := hown _ List.mem_cons_self ⟨rfl, hversion⟩
      have hforgets : ¬ Visit.Forgets bucket o.key ⟨o, wireStamp now, w.index⟩ :=
        fun hf => hf.2.1 rfl
      have hentombs : Visit.Entombs bucket o.key ⟨o, wireStamp now, w.index⟩ ↔
          ((w.index.bucket bucket).firstRebuildMutation o.key = true ∨
            ∀ t ∈ (w.index.view bucket o.key).gone, t ≤ wireStamp now) :=
        and_iff_right ⟨rfl, hversion⟩
      rw [if_pos rfl, hentombs]
      rcases gone_delOver_cases (w.index.view bucket o.key)
        ((w.index.bucket bucket).firstRebuildMutation o.key) (wireStamp now) with
        ⟨hyes, hgone⟩ | ⟨hno, hgone⟩
      · have hnew : ∃ t ∈ some (wireStamp now), Own t := ⟨_, rfl, hstamp⟩
        rw [hgone]
        constructor
        · rintro (hrest | ⟨-, hkept⟩)
          · exact .inl (.inr hrest)
          · exact .inl (.inl ⟨hyes, hkept⟩)
        · rintro ((⟨-, hkept⟩ | hrest) | ⟨-, -, hkept⟩)
          · exact .inr ⟨hnew, hkept⟩
          · exact .inl hrest
          · exact .inr ⟨hnew, hkept⟩
      · rw [hgone]
        simp only [hno, hforgets, false_and, false_or, not_false_eq_true, true_and]
    · have hentombs : ¬ Visit.Entombs bucket key ⟨o, wireStamp now, w.index⟩ := fun he => hk he.1.1
      rw [if_neg hk]
      rcases view_swept w.index (wireStamp now) hversion hk with
        ⟨hyes, hv⟩ | ⟨hno, hv⟩
      · rw [hv]
        simp [hentombs, hyes]
      · rw [hv]
        simp only [hentombs, hno, false_and, false_or, not_false_eq_true, true_and]

theorem Trail.outlasts_of_le (h : Trail bucket w l w') {v : Visit} (hv : v ∈ l)
    (hdeletes : v.Deletes key) (hle : ∀ t ∈ (w.index.view bucket key).gone, t ≤ v.stamp)
    (hkept : ∀ u ∈ l, ¬ u.Forgets bucket key) :
    Outlasts (Visit.Entombs bucket key) (Visit.Forgets bucket key) l := by
  induction h with
  | nil w => cases hv
  | @fence w w₁ w' o now l hversion hw₁ _ ih =>
    have hsame : (w₁.index.view bucket key).gone = (w.index.view bucket key).gone := by
      rw [Writer.view_announceUnknown hw₁ key]
      split <;> rfl
    rw [List.forall_mem_cons] at hkept
    rcases List.mem_cons.mp hv with rfl | hv
    · rw [show o.versionId = none from hdeletes.2] at hversion
      cases hversion
    · exact outlasts_cons.mpr (.inr (ih hv (hsame ▸ hle) hkept.2))
  | @delete w w' o now l hversion _ ih =>
    rw [List.forall_mem_cons] at hkept
    by_cases hk : o.key = key
    · subst hk
      rcases gone_delOver_cases (w.index.view bucket o.key)
        ((w.index.bucket bucket).firstRebuildMutation o.key) (wireStamp now) with
        ⟨hyes, -⟩ | ⟨hno, hgone⟩
      · exact outlasts_cons.mpr (.inl ⟨⟨⟨rfl, hversion⟩, hyes⟩, hkept.2⟩)
      · rcases List.mem_cons.mp hv with rfl | hv
        · exact absurd (.inr hle) hno
        · refine outlasts_cons.mpr (.inr (ih hv ?_ hkept.2))
          rw [Writer.view_recordDel, if_pos rfl, hgone]
          exact hle
    · have hv : v ∈ l := (List.mem_cons.mp hv).resolve_left fun heq => by
        subst heq
        exact hk hdeletes.1
      refine outlasts_cons.mpr (.inr (ih hv ?_ hkept.2))
      rw [Writer.view_recordDel, if_neg hk]
      rcases view_swept w.index (wireStamp now) hversion hk with
        ⟨hyes, -⟩ | ⟨-, hsame⟩
      · exact absurd hyes hkept.1
      · rw [hsame]
        exact hle

theorem Trail.view_other (h : Trail bucket w l w') (hother : ∀ v ∈ l, v.object.key ≠ key) :
    ((∃ u ∈ l, u.Forgets bucket key) ∧
        w'.index.view bucket key = { w.index.view bucket key with gone := none } ∧
        (w.index.view bucket key).gone.isSome = true) ∨
      (∀ u ∈ l, ¬ u.Forgets bucket key) ∧ w'.index.view bucket key = w.index.view bucket key := by
  induction h with
  | nil w => exact .inr ⟨fun u hu => (by cases hu), rfl⟩
  | @fence w w₁ w' o now l hversion hw₁ _ ih =>
    rw [List.forall_mem_cons] at hother
    have hforgets : ¬ Visit.Forgets bucket key ⟨o, wireStamp now, w.index⟩ := fun hf => by
      rw [show o.versionId = none from hf.1] at hversion
      cases hversion
    have hsame : w₁.index.view bucket key = w.index.view bucket key := by
      rw [Writer.view_announceUnknown hw₁ key, if_neg hother.1]
    rw [List.exists_mem_cons_iff, List.forall_mem_cons, or_iff_right hforgets,
      and_iff_right hforgets, ← hsame]
    exact ih hother.2
  | @delete w w' o now l hversion _ ih =>
    rw [List.forall_mem_cons] at hother
    have hview : (w.recordDel bucket o.key now).index.view bucket key =
        (w.index.swept bucket (wireStamp now) .run).view key := by
      rw [Writer.view_recordDel, if_neg hother.1]
    have hrest := ih hother.2
    rw [List.exists_mem_cons_iff, List.forall_mem_cons]
    rcases view_swept w.index (wireStamp now) hversion hother.1 with
      ⟨hyes, hv⟩ | ⟨hno, hv⟩
    · left
      rw [hview, hv] at hrest
      refine ⟨.inl hyes, ?_, hyes.2.2.1⟩
      rcases hrest with ⟨-, -, hsome⟩ | ⟨-, hend⟩
      · cases hsome
      · exact hend
    · rw [hview, hv] at hrest
      rw [or_iff_right hno, and_iff_right hno]
      exact hrest

def Entombed (quiet : Bool) (output : DeleteObjectsOutput) (bucket : String)
    (now : Nat → SystemTime) (objects : List ObjectIdentifier) (s : KeyIndexState) (key : String) :
    Prop :=
  ∃ i o, objects[i]? = some o ∧ o.key = key ∧ o.versionId = none ∧ applies quiet output key = true ∧
    (s.view bucket key).gone = some (wireStamp (now i))

theorem entombed_iff {objects : List ObjectIdentifier}
    (h : deleteBatch quiet output bucket now 0 objects w = some w') :
    Entombed quiet output bucket now objects w'.index key ↔
      Outlasts (Visit.Entombs bucket key) (Visit.Forgets bucket key)
        (visits quiet output bucket now 0 objects w) := by
  let Own (t : SystemTime) : Prop :=
    ∃ v ∈ visits quiet output bucket now 0 objects w, v.Deletes key ∧ v.stamp = t
  have htrail := trail_visits h
  have hgone := htrail.gone_iff Own fun v hv (hd : v.Deletes key) => ⟨v, hv, hd, rfl⟩
  have hentombed : Entombed quiet output bucket now objects w'.index key ↔
      ∃ t ∈ (w'.index.view bucket key).gone, Own t := by
    constructor
    · rintro ⟨i, o, ho, hk, hversion, ha, ht⟩
      exact ⟨_, ht, (deletes_iff h).mpr ⟨i, o, ho, hk, hversion, ha, by rw [Nat.zero_add]⟩⟩
    · rintro ⟨t, ht, hown⟩
      obtain ⟨i, o, ho, hk, hversion, ha, rfl⟩ := (deletes_iff h).mp hown
      exact ⟨i, o, ho, hk, hversion, ha, by rw [← Nat.zero_add i]; exact ht⟩
  rw [hentombed, hgone, or_iff_left_iff_imp]
  rintro ⟨⟨t, ht, v, hv, hd, rfl⟩, hkept⟩
  refine htrail.outlasts_of_le hv hd (fun u hu => ?_) hkept
  rw [Option.some.inj (hu.symm.trans ht)]

end

structure FollowsOutcome [Layout] (quiet : Bool) (output : DeleteObjectsOutput) (bucket : String)
    (now : Nat → SystemTime) (entries : List (ObjectIdentifier × Bool)) (s s' : KeyIndexState) :
    Prop where
  applied : ∀ key, (∃ e ∈ entries, e.1.key = key ∧ e.2 = true) →
    (s'.view bucket key).fence.isSome = true ∨
      Entombed quiet output bucket now (entries.map Prod.fst) s' key
  deleted : ∀ key, Entombed quiet output bucket now (entries.map Prod.fst) s' key →
    (s'.view bucket key).fence = none →
    ∃ e ∈ entries, e.1.key = key ∧ e.1.versionId = none ∧ e.2 = true
  refused : ∀ key, (∃ e ∈ entries, e.1.key = key) →
    (∀ e ∈ entries, e.1.key = key → e.2 = false) → s'.view bucket key = s.view bucket key

/-- In quiet mode, a key with an object that was deleted and one that was refused is fenced already.
Any other key with an object that was deleted is fenced and no delete of it accepted since, or an
unversioned delete of it was applied, and one left its tombstone, which none behind it sweeps.  No
delete sweeps the tombstone of a key whose objects were all refused. -/
structure Unmixed [Layout] (quiet : Bool) (entries : List (ObjectIdentifier × Bool))
    (bucket : String) (s : KeyIndexState) (l : List Visit) : Prop where
  applied : ∀ key, (∃ e ∈ entries, e.1.key = key ∧ e.2 = true) →
    if quiet = true ∧ ∃ e ∈ entries, e.1.key = key ∧ e.2 = false then
      (s.view bucket key).fence.isSome = true
    else
      KeptFenced bucket s l key ∨
        (∃ e ∈ entries, e.1.key = key ∧ e.1.versionId = none ∧ e.2 = true) ∧
          Outlasts (Visit.Entombs bucket key) (Visit.Forgets bucket key) l
  refused : ∀ key, (∃ e ∈ entries, e.1.key = key) →
    (∀ e ∈ entries, e.1.key = key → e.2 = false) → ∀ u ∈ l, ¬ u.Forgets bucket key

section
variable [Layout] {quiet : Bool} {output : DeleteObjectsOutput} {bucket : String}
  {now : Nat → SystemTime} {w w' : Writer} {key : String}
  {entries : List (ObjectIdentifier × Bool)}

omit [Layout] in
theorem Reports.not_applies (h : Reports quiet entries output) (hkey : ∃ e ∈ entries, e.1.key = key)
    (hall : ∀ e ∈ entries, e.1.key = key → e.2 = false) : applies quiet output key = false := by
  rw [Bool.eq_false_iff, ne_eq, h.applies_iff]
  obtain ⟨e, he, hk⟩ := hkey
  split
  · exact fun ha => by cases (ha e he hk).symm.trans (hall e he hk)
  · rintro ⟨e', he', hk', htrue⟩
    cases htrue.symm.trans (hall e' he' hk')

omit [Layout] in
theorem Reports.applies_of_applied (h : Reports quiet entries output)
    (hkey : ∃ e ∈ entries, e.1.key = key ∧ e.2 = true) :
    applies quiet output key = true ↔
      ¬ (quiet = true ∧ ∃ e ∈ entries, e.1.key = key ∧ e.2 = false) := by
  rw [h.applies_iff]
  cases quiet with
  | true =>
    simp only [if_true, true_and, not_exists, not_and, Bool.not_eq_false]
  | false => simpa using hkey

theorem keptFenced_of_not_applies {objects : List ObjectIdentifier}
    (h : applies quiet output key = false) (s : KeyIndexState) :
    KeptFenced bucket s (visits quiet output bucket now 0 objects w) key ↔
      (s.view bucket key).fence.isSome = true := by
  have hother : ∀ v ∈ visits quiet output bucket now 0 objects w, v.object.key ≠ key := by
    rintro v hv rfl
    cases h.symm.trans (applies_of_mem_visits hv)
  have hfences := not_outlasts_of_forall (Q := Visit.Accepted bucket key)
    fun v hv (hf : Visit.Fences key v) => hother v hv hf.1
  have haccepted : ∀ u ∈ visits quiet output bucket now 0 objects w, ¬ u.Accepted bucket key :=
    fun u hu ha => hother u hu ha.1.1
  rw [KeptFenced, or_iff_right hfences, and_iff_left haccepted]

omit [Layout] in
theorem Reports.unversioned (h : Reports quiet entries output) (hq : quiet = true)
    {s : KeyIndexState}
    (hentombed : Entombed quiet output bucket now (entries.map Prod.fst) s key) :
    ∃ e ∈ entries, e.1.key = key ∧ e.1.versionId = none ∧ e.2 = true := by
  obtain ⟨i, o, ho, hk, hversion, ha, -⟩ := hentombed
  obtain ⟨e, he, rfl⟩ := List.mem_map.mp (List.mem_of_getElem? ho)
  rw [h.applies_iff, if_pos hq] at ha
  exact ⟨e, he, hk, hversion, ha e he hk⟩

end

section
local instance batchLayout : Layout := sampleLayout

def batchRow (ts : SystemTime) : ObjEntry := ⟨some 1, ts, none, standardClass, none, none⟩

def batchWriter (ts : SystemTime) : Writer where
  index := (({} : KeyIndexState).applyPut "b" "k" (batchRow ts)).2
  feed := none
  owned := fun _ hf => by cases hf

def batchEntries : List (ObjectIdentifier × Bool) :=
  [(⟨"m", none⟩, true), (⟨"m", some "v1"⟩, true), (⟨"n", none⟩, false), (⟨"k", none⟩, true)]

def batchOutput : DeleteObjectsOutput where
  deleted := some [⟨some "m", none⟩, ⟨some "m", some "v1"⟩, ⟨some "k", none⟩]
  errors := some [⟨some "n", none⟩]

end

end S3Cache.Cache

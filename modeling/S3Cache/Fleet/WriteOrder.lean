import S3Cache.Fleet.InstallLaws

/-! The classification of live effects against the true order of writes.  The index knows a
write by its stored time, which for an origin row is the true time rounded down to the whole
second; what the install decides from stored times has to hold of the true ones. -/

namespace S3Cache.Fleet

open Index

def floorSecond (t : SystemTime) : SystemTime where
  ns := t.ns / 1000000000 * 1000000000
  ge := by have := t.ge; omega
  lt := by have := t.lt; omega

theorem floorSecond_le (t : SystemTime) : floorSecond t ≤ t := by
  rw [SystemTime.le_iff]
  exact Int.ediv_mul_le _ (by decide)

theorem wholeSeconds_floorSecond (t : SystemTime) :
    wholeSeconds (floorSecond t) = wholeSeconds t := by
  simp only [wholeSeconds_eq, floorSecond]
  omega

/-- A row with the true time of its write: a write or feed stamp is that time, an origin's
answer rounds it down. -/
structure DatedRow where
  entry : ObjEntry
  written : SystemTime
  stamped : entry.lastModified = written ∨ entry.lastModified = floorSecond written

namespace DatedRow

theorem stored_le (row : DatedRow) : row.entry.lastModified ≤ row.written := by
  rcases row.stamped with h | h
  · exact h.le
  · exact h.trans_le (floorSecond_le _)

theorem wholeSeconds_written (row : DatedRow) :
    wholeSeconds row.written = wholeSeconds row.entry.lastModified := by
  rcases row.stamped with h | h
  · rw [h]
  · rw [h, wholeSeconds_floorSecond]

theorem written_lt {a b : DatedRow}
    (h : wholeSeconds a.entry.lastModified < wholeSeconds b.entry.lastModified) :
    a.written < b.written := by
  rw [← a.wholeSeconds_written, ← b.wholeSeconds_written] at h
  exact lt_of_wholeSeconds_lt h

end DatedRow

theorem before_of_rowCarried {row : ObjEntry} {peer : Option ObjEntry}
    {deleted : Option SystemTime} (h : rowCarried row peer deleted = .ok true) :
    (∀ t ∈ deleted, t < row.lastModified) ∧
    ∀ p ∈ peer, wholeSeconds p.lastModified < wholeSeconds row.lastModified := by
  have hordered : ∀ q : Option (ObjEntry × RowField), rowOrdered row q deleted = .ok true →
      (∀ t ∈ deleted, t < row.lastModified) ∧
      ∀ p ∈ q, wholeSeconds p.1.lastModified < wholeSeconds row.lastModified := by
    intro q hq
    unfold rowOrdered at hq
    simp only [Bool.or_eq_true, Option.any_eq_true, laterSecond, decide_eq_true_eq] at hq
    split at hq
    · cases hq
    next hlater =>
    split at hq
    · cases hq
    next hgone =>
    refine ⟨fun t ht => not_le.mp fun hle => hgone ⟨t, ht, hle⟩, ?_⟩
    rintro p rfl
    have hle : ¬ wholeSeconds row.lastModified < wholeSeconds p.1.lastModified :=
      fun hlt => hlater (.inr ⟨p, rfl, hlt⟩)
    simp only at hq
    split at hq
    · cases hq
    next hne => exact Nat.lt_of_le_of_ne (Nat.le_of_not_lt hle) hne
  cases peer with
  | none => exact ⟨(hordered none h).1, fun p hp => by cases hp⟩
  | some p =>
    simp only [rowCarried] at h
    split at h
    · cases h
    · next field _ =>
      obtain ⟨hgone, hrow⟩ := hordered _ h
      refine ⟨hgone, ?_⟩
      intro p' hp'
      obtain rfl : p = p' := Option.some.inj hp'
      exact hrow (p, field) rfl

/-- What the verdict on a live row says of the true times: carried, it is later than everything
the candidate holds; covered by another version or a delete, something there is later. -/
structure RowOrderly (row : DatedRow) (peer : Option DatedRow) (deleted : Option SystemTime) :
    Prop where
  carried : rowCarried row.entry (peer.map (·.entry)) deleted = .ok true →
    (∀ p ∈ peer, p.written < row.written) ∧ ∀ t ∈ deleted, t < row.written
  covered : rowCarried row.entry (peer.map (·.entry)) deleted = .ok false →
    (∀ p ∈ peer, ¬ SameVersion row.entry p.entry) →
    (∃ p ∈ peer, row.written < p.written) ∨ ∃ t ∈ deleted, row.written < t

structure TombstoneOrderly (gone : SystemTime) (peer : Option DatedRow)
    (deleted : Option SystemTime) : Prop where
  carried : tombstoneCarried gone (peer.map (·.entry)) deleted = .ok true →
    (∀ p ∈ peer, p.written < gone) ∧ ∀ t ∈ deleted, t < gone
  covered : tombstoneCarried gone (peer.map (·.entry)) deleted = .ok false →
    (∃ p ∈ peer, gone ≤ p.written) ∨ ∃ t ∈ deleted, gone ≤ t

theorem rowOrderly (row : DatedRow) (peer : Option DatedRow) (deleted : Option SystemTime) :
    RowOrderly row peer deleted where
  carried h := by
    obtain ⟨hgone, hrow⟩ := before_of_rowCarried h
    refine ⟨fun p hp => DatedRow.written_lt (hrow p.entry ?_), fun t ht => ?_⟩
    · exact Option.mem_map_of_mem _ hp
    · exact (hgone t ht).trans_le row.stored_le
  covered h hother := by
    rcases covered_of_rowCarried h with ⟨e, he, hv⟩ | ⟨e, he, hlt⟩ | ⟨t, ht, hlt⟩
    · obtain ⟨p, hp, rfl⟩ := Option.map_eq_some_iff.mp he
      exact absurd hv (hother p hp)
    · obtain ⟨p, hp, rfl⟩ := Option.map_eq_some_iff.mp he
      exact .inl ⟨p, hp, DatedRow.written_lt hlt⟩
    · rw [← row.wholeSeconds_written] at hlt
      exact .inr ⟨t, ht, lt_of_wholeSeconds_lt hlt⟩

theorem tombstoneOrderly (gone : SystemTime) (peer : Option DatedRow)
    (deleted : Option SystemTime) : TombstoneOrderly gone peer deleted where
  carried h := by
    obtain ⟨hgone, hrow⟩ := tombstoneCarried_eq_true.mp h
    refine ⟨fun p hp => ?_, hgone⟩
    have hlt := hrow p.entry (Option.mem_map_of_mem _ hp)
    rw [← p.wholeSeconds_written] at hlt
    exact lt_of_wholeSeconds_lt hlt
  covered h := by
    rcases covered_of_tombstoneCarried h with ⟨t, ht, hle⟩ | ⟨e, he, hlt⟩
    · exact .inr ⟨t, ht, hle⟩
    · obtain ⟨p, hp, rfl⟩ := Option.map_eq_some_iff.mp he
      exact .inl ⟨p, hp, (hlt.trans_le p.stored_le).le⟩

/-- The install classifies every live effect in agreement with the true order of writes,
whichever of the times it compares were rounded. -/
theorem classification_follows_true_order (peer : Option DatedRow) (deleted : Option SystemTime) :
    (∀ row : DatedRow, RowOrderly row peer deleted) ∧
    ∀ gone : SystemTime, TombstoneOrderly gone peer deleted :=
  ⟨fun row => rowOrderly row peer deleted, fun gone => tombstoneOrderly gone peer deleted⟩

end S3Cache.Fleet

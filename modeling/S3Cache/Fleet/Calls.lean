import S3Cache.Index.Effect
import S3Cache.Fleet.Capture
import S3Cache.Fleet.Install

/-! Runs of a fleet node's index: the index's own operations, a donor's captures and a follower's
installs. -/

namespace S3Cache.Fleet

open Index Fallible

inductive FleetCall where
  | call (c : IndexCall)
  | install (stage : Option KeyIndexState) (cuts : List NativeCut) (names : List String)
      (maxRows : Nat)
  | capture (host : CaptureHost) (admits : List JournalRecord → JournalRecord → Bool)
      (names : List String) (caps : ImageCaps)

section
variable [Layout] (alignCuts : CutAligner)

def FleetCall.step (s : KeyIndexState) : FleetCall → Option KeyIndexState
  | .call c => s.step c
  | .install stage cuts names maxRows =>
    some (installFleetCandidate alignCuts s stage cuts names maxRows).2.1
  | .capture host admits names caps =>
    some ((beginFleetCapture s host admits names caps).toOption.elim s (·.2))

end

structure Adopted (live b : BucketState) : Prop where
  synced : b.synced = true
  generation : b.syncGeneration = live.syncGeneration + 1
  bound : b.syncGeneration < 2 ^ 64
  epoch : live.uncertaintyEpoch ≤ b.uncertaintyEpoch
  fences : b.uncertainKeys = live.uncertainKeys

def marks (b : BucketState) : Bool × Nat × Nat × OrdMap Nat :=
  (b.synced, b.syncGeneration, b.uncertaintyEpoch, b.uncertainKeys)

section
variable {live candidate s s' : KeyIndexState} {names : List String} {name : String}

theorem marks_applyCarried [Layout] {effect : String × String × Carried}
    (h : applyCarried s effect = .ok s') (name : String) :
    marks (s'.bucket name) = marks (s.bucket name) := by
  obtain ⟨n, key, effect⟩ := effect
  simp only [applyCarried] at h
  split at h
  · cases h
  next b hb =>
  have hset : ∀ b', marks b' = marks b →
      marks ((s.setBucket n b').bucket name) = marks (s.bucket name) := by
    intro b' hb'
    rw [KeyIndexState.bucket_setBucket]
    split
    · next hn =>
      subst hn
      rw [hb', KeyIndexState.bucket, hb]
      rfl
    · rfl
  cases effect with
  | delete t =>
    have hdrop := hset ({ b with gone := b.gone.raise key t }.dropRow key) (by
      unfold BucketState.dropRow
      split <;> rfl)
    simp only at h
    split at h <;> cases h <;> exact hdrop
  | row e =>
    cases h
    exact hset (b.setRow key e) rfl

theorem marks_applyCarry [Layout] {carry : Carry} (h : applyCarry s carry = .ok s')
    (name : String) : marks (s'.bucket name) = marks (s.bucket name) := by
  refine foldlM_keeps (P := fun _ t => marks (t.bucket name) = marks (s.bucket name)) ?_ rfl h
  intro done effect t t' _ ht hstep
  exact (marks_applyCarried hstep name).trans ht

theorem adopt_eq_ok (h : adopt live s name = .ok s') :
    ∃ b, s.buckets[name]? = some b ∧ (live.buckets[name]?).elim 0 (·.syncGeneration) + 1 < 2 ^ 64 ∧
      s' = s.setBucket name
        { b with
          syncGeneration := (live.buckets[name]?).elim 0 (·.syncGeneration) + 1
          uncertaintyEpoch := (live.buckets[name]?).elim b.uncertaintyEpoch (·.uncertaintyEpoch)
          uncertainKeys := (live.buckets[name]?).elim b.uncertainKeys (·.uncertainKeys) } := by
  simp only [adopt] at h
  split at h
  · cases h
  next b hb =>
  simp only [ite_error_eq_ok, Except.ok.injEq] at h
  obtain ⟨hbound, rfl⟩ := h
  refine ⟨b, hb, not_le.mp hbound, ?_⟩
  cases live.buckets[name]? <;> rfl

structure AdoptedFrom (live : Option BucketState) (candidate b : BucketState) : Prop where
  synced : b.synced = candidate.synced
  generation : b.syncGeneration = live.elim 0 (·.syncGeneration) + 1
  bound : b.syncGeneration < 2 ^ 64
  epoch : b.uncertaintyEpoch = live.elim candidate.uncertaintyEpoch (·.uncertaintyEpoch)
  fences : b.uncertainKeys = live.elim candidate.uncertainKeys (·.uncertainKeys)

theorem foldlM_adopt (h : names.foldlM (adopt live) candidate = .ok s) (hname : name ∈ names) :
    AdoptedFrom live.buckets[name]? (candidate.bucket name) (s.bucket name) := by
  refine (foldlM_keeps
    (P := fun done t =>
      (name ∉ done → t.bucket name = candidate.bucket name) ∧
      (name ∈ done → AdoptedFrom live.buckets[name]? (candidate.bucket name) (t.bucket name)))
    ?_ ⟨fun _ => rfl, nofun⟩ h).2 hname
  rintro done n t t' - ⟨hout, hin⟩ hstep
  obtain ⟨b, hb, hbound, rfl⟩ := adopt_eq_ok hstep
  rw [KeyIndexState.bucket_setBucket]
  split
  · next hn =>
    subst hn
    have hbucket : t.bucket n = b := by rw [KeyIndexState.bucket, hb]; rfl
    rw [hbucket] at hout hin
    refine ⟨fun hno => absurd (List.mem_append_right done (List.mem_singleton_self n)) hno,
      fun _ => ?_⟩
    by_cases hd : n ∈ done
    · -- a name listed twice is adopted twice, with the same outcome
      have hb' := hin hd
      exact ⟨hb'.synced, rfl, hbound, by rw [hb'.epoch]; cases live.buckets[n]? <;> rfl,
        by rw [hb'.fences]; cases live.buckets[n]? <;> rfl⟩
    · rw [hout hd] at *
      exact ⟨rfl, rfl, hbound, rfl, rfl⟩
  · next hn =>
    have hmem : name ∈ done ++ [n] ↔ name ∈ done := by simp [Ne.symm hn]
    rw [hmem]
    exact ⟨hout, hin⟩

theorem pairwise_of_ascending {names : List String} (h : ascending names = true) :
    names.Pairwise (· < ·) := by
  rw [← List.isChain_iff_pairwise]
  induction names with
  | nil => exact .nil
  | cons a names ih =>
    cases names with
    | nil => exact .singleton a
    | cons b names =>
      rw [ascending, Bool.and_eq_true, decide_eq_true_eq] at h
      exact .cons_cons h.1 (ih h.2)

theorem mem_of_size_eq {m : OrdMap BucketState} (hnodup : names.Nodup)
    (hsize : m.size = names.length) (hall : ∀ n ∈ names, ∃ b, m[n]? = some b) {n : String}
    {b : BucketState} (hn : m[n]? = some b) : n ∈ names := by
  have hsub : names ⊆ m.keys := by
    intro x hx
    obtain ⟨b, hb⟩ := hall x hx
    exact Std.ExtTreeMap.mem_keys.mpr (Std.ExtTreeMap.mem_iff_isSome_getElem?.mpr (by simp [hb]))
  have hlen : m.keys.length ≤ names.length := by rw [Std.ExtTreeMap.length_keys, hsize]
  have hperm := (hnodup.subperm hsub).perm_of_length_le hlen
  exact hperm.mem_iff.mpr
    (Std.ExtTreeMap.mem_keys.mpr (Std.ExtTreeMap.mem_iff_isSome_getElem?.mpr (by simp [hn])))

theorem checkShape_eq_ok {alignCuts : CutAligner}
    {cuts : List NativeCut} (h : checkShape alignCuts live candidate cuts names = .ok ()) :
    (∀ n b, live.buckets[n]? = some b → n ∈ names ∧ b.rebuildGeneration = none) ∧
    (∀ n b, candidate.buckets[n]? = some b → n ∈ names) ∧
    ∀ n ∈ names, (candidate.bucket n).synced = true ∧ (candidate.bucket n).uncertainKeys = ∅ := by
  simp only [checkShape, ite_error_eq_ok, bind_eq_ok, not_or] at h
  obtain ⟨⟨-, hasc, hsize⟩, _, hlive, h⟩ := h
  have hcandidate : ∀ n ∈ names, ∃ b, candidate.buckets[n]? = some b ∧ b.synced = true ∧
      b.uncertainKeys = ∅ := by
    intro n hn
    split at h
    · cases h
    · cases h
    · have hcheck := forM_eq_ok h n hn
      split at hcheck
      · cases hcheck
      next b hb =>
      simp only [ite_error_eq_ok, Bool.or_eq_true, not_or, Bool.not_eq_true', Bool.not_eq_false]
        at hcheck
      exact ⟨b, hb, hcheck.1.1, Std.ExtTreeMap.isEmpty_iff.mp hcheck.1.2⟩
  refine ⟨?_, ?_, ?_⟩
  · intro n b hb
    have hcheck := forM_eq_ok hlive (n, b) (Std.ExtTreeMap.mem_toList_iff_getElem?_eq_some.mpr hb)
    simp only [ite_error_eq_ok] at hcheck
    obtain ⟨hn, hr, -⟩ := hcheck
    exact ⟨not_not.mp hn, Option.not_isSome_iff_eq_none.mp hr⟩
  · intro n b hb
    have hnodup : names.Nodup :=
      (pairwise_of_ascending (by simpa using hasc)).imp fun hlt => hlt.ne
    refine mem_of_size_eq hnodup (not_not.mp hsize) (fun x hx => ?_) hb
    obtain ⟨b, hb, -⟩ := hcandidate x hx
    exact ⟨b, hb⟩
  · intro n hn
    obtain ⟨b, hb, hs, hf⟩ := hcandidate n hn
    have hbucket : candidate.bucket n = b := by rw [KeyIndexState.bucket, hb]; rfl
    rw [hbucket]
    exact ⟨hs, hf⟩

theorem setBucket_isSome {b b' : BucketState} {n : String} (hb : s.buckets[n]? = some b)
    (name : String) : (s.setBucket n b').buckets[name]?.isSome = s.buckets[name]?.isSome := by
  rw [KeyIndexState.get_setBucket]
  split
  · next hn => subst hn; rw [hb]; rfl
  · rfl

theorem publish_isSome [Layout] {carry : Carry}
    (h : publish live candidate names carry = .ok s) (name : String) :
    s.buckets[name]?.isSome = candidate.buckets[name]?.isSome := by
  simp only [publish, bind_eq_ok] at h
  obtain ⟨t, hadopt, t', hcarry, h⟩ := h
  cases h
  have ht : t.buckets[name]?.isSome = candidate.buckets[name]?.isSome := by
    refine foldlM_keeps
      (P := fun _ u => u.buckets[name]?.isSome = candidate.buckets[name]?.isSome) ?_ rfl hadopt
    rintro done n u u' - hu hstep
    obtain ⟨b, hb, -, rfl⟩ := adopt_eq_ok hstep
    exact (setBucket_isSome hb name).trans hu
  refine foldlM_keeps
    (P := fun _ u => u.buckets[name]?.isSome = candidate.buckets[name]?.isSome) ?_ ht hcarry
  rintro done ⟨n, key, effect⟩ u u' - hu hstep
  simp only [applyCarried] at hstep
  split at hstep
  · cases hstep
  next b hb =>
  have hset := fun b' => (@setBucket_isSome u b b' n hb name).trans hu
  cases effect with
  | delete =>
    simp only at hstep
    split at hstep <;> cases hstep <;> exact hset _
  | row =>
    cases hstep
    exact hset _

theorem bucket_capture [Layout] {host : CaptureHost}
    {admits : List JournalRecord → JournalRecord → Bool}
    {names : List String} {caps : ImageCaps} (name : String) :
    ((beginFleetCapture s host admits names caps).toOption.elim s (·.2)).bucket name =
      s.bucket name := by
  cases h : beginFleetCapture s host admits names caps with
  | error => rfl
  | ok attached =>
    obtain ⟨-, -, hb, -⟩ := beginFleetCapture_eq_ok h
    exact KeyIndexState.bucket_congr hb name

theorem bucket_install [Layout] (alignCuts : CutAligner)
    (live : KeyIndexState) (stage : Option KeyIndexState) (cuts : List NativeCut)
    (names : List String) (maxRows : Nat) (name : String) :
    let r := installFleetCandidate alignCuts live stage cuts names maxRows
    (r.1 ≠ .ok () ∧ r.2.1 = live) ∨ r.1 = .ok () ∧
      (live.buckets[name]? = none ∧ r.2.1.buckets[name]? = none ∨
        Adopted (live.bucket name) (r.2.1.bucket name)) := by
  simp only [installFleetCandidate]
  split
  · exact .inl ⟨nofun, rfl⟩
  next candidate =>
  split
  · exact .inl ⟨nofun, rfl⟩
  next carry hcheck =>
  split
  · exact .inl ⟨nofun, rfl⟩
  next installed hpublish =>
  refine .inr ⟨rfl, ?_⟩
  rw [checkCandidate, bind_eq_ok] at hcheck
  obtain ⟨_, hshape, -⟩ := hcheck
  obtain ⟨hlive, honly, hcandidate⟩ := checkShape_eq_ok hshape
  by_cases hname : name ∈ names
  · right
    simp only [publish, bind_eq_ok] at hpublish
    obtain ⟨t, hadopt, t', hcarry, hpublish⟩ := hpublish
    cases hpublish
    have ha := foldlM_adopt hadopt hname
    have hmarks := marks_applyCarry hcarry name
    simp only [marks, Prod.mk.injEq] at hmarks
    obtain ⟨hsynced, hgen, hepoch, hfences⟩ := hmarks
    obtain ⟨hsync, hno⟩ := hcandidate name hname
    show Adopted (live.bucket name) (t'.bucket name)
    rw [KeyIndexState.bucket]
    refine ⟨hsynced.trans (ha.synced.trans hsync), hgen.trans (ha.generation.trans ?_),
      hgen ▸ ha.bound, ?_, hfences.trans (ha.fences.trans ?_)⟩
    · cases live.buckets[name]? <;> rfl
    · rw [hepoch, ha.epoch]
      cases live.buckets[name]? with
      | none => exact Nat.zero_le _
      | some b => exact le_rfl
    · cases live.buckets[name]? with
      | none => exact hno
      | some b => rfl
  · left
    refine ⟨Option.eq_none_iff_forall_ne_some.mpr fun b hb => hname (hlive name b hb).1, ?_⟩
    have hsame := publish_isSome hpublish name
    cases hc : candidate.buckets[name]? with
    | none =>
      rw [hc] at hsame
      exact Option.not_isSome_iff_eq_none.mp (Bool.eq_false_iff.mp hsame)
    | some b => exact absurd (honly name b hc) hname

end

end S3Cache.Fleet

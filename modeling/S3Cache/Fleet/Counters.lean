import S3Cache.Lib.Machine
import S3Cache.Fleet.Calls
import S3Cache.Fleet.InstallLaws

/-! The two counters of a bucket: the generation a scan presents and the epoch fence tokens are
drawn from.  Both only grow while the bucket's entry stands, and both start over with a new
entry. -/

namespace S3Cache.Fleet

open Index KeyIndexState

section
variable [Layout] (alignCuts : CutAligner)

def FleetCall.Advances (bucket : String) (s : KeyIndexState) : FleetCall → Prop
  | .call (.resync b) => b = bucket
  | .call (.gap _) => s.buckets.contains bucket = true
  | .install stage cuts names maxRows =>
    (installFleetCandidate alignCuts s stage cuts names maxRows).1 = .ok ()
  | _ => False

end

section
variable [Layout] {s s' : KeyIndexState} {bucket : String}

def FleetCall.removes (bucket : String) : FleetCall → Bool
  | .call (.removeBucket b) => b = bucket
  | _ => false

inductive Turned (bucket : String) (s s' : KeyIndexState) : IndexCall → Prop
  | same (c : IndexCall) : (s'.bucket bucket).counters = (s.bucket bucket).counters →
    Turned bucket s s' c
  | advance (c : IndexCall) :
    c = .resync bucket ∨ s.buckets.contains bucket = true ∧ (∃ cut, c = .gap cut) →
    (s'.bucket bucket).counters = (false, ((s.bucket bucket).syncGeneration + 1) % 2 ^ 64,
      (s.bucket bucket).uncertaintyEpoch) → Turned bucket s s' c
  | fence (c : IndexCall) (key : String) : c = .fence bucket key ∨
    (∃ cut, c = .fenceNative bucket key cut) ∨ (∃ cut, c = .fenceOwn bucket key cut) →
    (s'.bucket bucket).counters = ((s.bucket bucket).synced, (s.bucket bucket).syncGeneration,
      (s.bucket bucket).uncertaintyEpoch + 1) → Turned bucket s s' c
  | finish (generation : Nat) : (s.bucket bucket).ownedBy generation = true →
    (s'.bucket bucket).counters = (true, (s.bucket bucket).syncGeneration,
      (s.bucket bucket).uncertaintyEpoch) → Turned bucket s s' (.finish bucket generation)
  | remove : s'.bucket bucket = {} → Turned bucket s s' (.removeBucket bucket)

theorem turned_of_step {c : IndexCall} (h : s.step c = some s') (bucket : String) :
    Turned bucket s s' c := by
  have hb := bucket_step h bucket
  cases c with
  | put =>
    apply Turned.same
    rw [hb, bucketAfter]
    split <;> simp
  | del =>
    apply Turned.same
    rw [hb, bucketAfter]
    split
    · rw [BucketState.counters_afterDel, swept]
      split <;> simp
    · rfl
  | observedPut =>
    apply Turned.same
    rw [hb, bucketAfter]
    split <;> simp
  | complete =>
    apply Turned.same
    rw [hb, bucketAfter]
    split <;> simp
  | register => exact .same _ (by rw [hb]; rfl)
  | noteSeal => exact .same _ (by rw [hb]; rfl)
  | renew => exact .same _ (by rw [hb]; rfl)
  | gap cut =>
    rw [bucketAfter] at hb
    split at hb
    · next hc => exact .advance _ (.inr ⟨hc, cut, rfl⟩) (by rw [hb]; rfl)
    · exact .same _ (by rw [hb])
  | fence b key =>
    rw [bucketAfter] at hb
    split at hb
    · next he => exact .fence _ key (.inl (by rw [he])) (by rw [hb]; rfl)
    · exact .same _ (by rw [hb])
  | fenceNative b key cut =>
    rw [bucketAfter] at hb
    split at hb
    · next he => exact .fence _ key (.inr (.inl ⟨cut, by rw [he.1]⟩)) (by rw [hb]; rfl)
    · exact .same _ (by rw [hb])
  | fenceOwn b key cut =>
    rw [bucketAfter] at hb
    split at hb
    · next he => exact .fence _ key (.inr (.inr ⟨cut, by rw [he]⟩)) (by rw [hb]; rfl)
    · exact .same _ (by rw [hb])
  | resolve =>
    apply Turned.same
    rw [hb, bucketAfter]
    split <;> simp
  | resync b =>
    rw [bucketAfter] at hb
    split at hb
    · next he => exact .advance _ (.inl (by rw [he])) (by rw [hb]; rfl)
    · exact .same _ (by rw [hb])
  | page =>
    apply Turned.same
    rw [hb, bucketAfter]
    split <;> simp
  | finish b generation =>
    rw [bucketAfter] at hb
    split at hb
    · next he =>
      subst he
      rw [BucketState.afterFinish] at hb
      split at hb
      · next hown => exact .finish generation hown (by rw [hb]; rfl)
      · exact .same _ (by rw [hb])
    · exact .same _ (by rw [hb])
  | removeBucket b =>
    rw [bucketAfter] at hb
    split at hb
    · next he =>
      subst he
      exact .remove hb
    · exact .same _ (by rw [hb])

omit [Layout] in
theorem bucket_eq_of_none (hs : s.buckets[bucket]? = none) (hs' : s'.buckets[bucket]? = none) :
    s'.bucket bucket = s.bucket bucket := by
  rw [KeyIndexState.bucket, KeyIndexState.bucket, hs, hs']

variable {alignCuts : CutAligner}

theorem generation_step {c : FleetCall} (h : c.step alignCuts s = some s') (bucket : String)
    (hroom : (s.bucket bucket).syncGeneration + 1 < 2 ^ 64) :
    (s'.bucket bucket).syncGeneration = (s.bucket bucket).syncGeneration ∨
    c.Advances alignCuts bucket s ∧
      (s'.bucket bucket).syncGeneration = (s.bucket bucket).syncGeneration + 1 ∨
    c.removes bucket = true ∧ (s'.bucket bucket).syncGeneration = 0 := by
  cases c with
  | call c =>
    cases turned_of_step h bucket with
    | same _ hc => exact .inl (congrArg (·.2.1) hc)
    | advance _ hc hcount =>
      have hg : (s'.bucket bucket).syncGeneration =
          ((s.bucket bucket).syncGeneration + 1) % 2 ^ 64 := congrArg (·.2.1) hcount
      rw [Nat.mod_eq_of_lt hroom] at hg
      refine .inr (.inl ⟨?_, hg⟩)
      rcases hc with rfl | ⟨hin, cut, rfl⟩
      · rfl
      · exact hin
    | fence _ _ _ hcount => exact .inl (congrArg (·.2.1) hcount)
    | finish _ _ hcount => exact .inl (congrArg (·.2.1) hcount)
    | remove hb => exact .inr (.inr ⟨decide_eq_true rfl, by rw [hb]⟩)
  | install stage cuts names maxRows =>
    cases h
    rcases bucket_install alignCuts s stage cuts names maxRows bucket with
      ⟨-, he⟩ | ⟨hok, ⟨hn, hn'⟩ | ha⟩
    · exact .inl (by rw [he])
    · exact .inl (by rw [bucket_eq_of_none hn hn'])
    · exact .inr (.inl ⟨hok, ha.generation⟩)
  | capture host admits names caps =>
    cases h
    exact .inl (by rw [bucket_capture])

def FleetCall.Supersedes (alignCuts : CutAligner) (bucket : String) (s : KeyIndexState) :
    FleetCall → Prop
  | .call (.resync b) | .call (.removeBucket b) => b = bucket
  | .call (.gap _) => True
  | .install stage cuts names maxRows =>
    (installFleetCandidate alignCuts s stage cuts names maxRows).1 = .ok ()
  | _ => False

theorem superseded_step {c : FleetCall} (h : c.step alignCuts s = some s')
    (hsup : c.Supersedes alignCuts bucket s)
    (hroom : (s.bucket bucket).syncGeneration + 1 < 2 ^ 64) :
    c.Advances alignCuts bucket s ∧
      (s'.bucket bucket).syncGeneration = (s.bucket bucket).syncGeneration + 1 ∨
    (c.removes bucket = true ∨ (s.bucket bucket).syncGeneration = 0) ∧
      (s'.bucket bucket).syncGeneration = 0 := by
  have hmod := Nat.mod_eq_of_lt hroom
  cases c with
  | call c =>
    have hb := bucket_step h bucket
    cases c with
    | resync b =>
      cases (show b = bucket from hsup)
      rw [bucketAfter, if_pos rfl] at hb
      exact .inl ⟨rfl, by rw [hb]; exact hmod⟩
    | removeBucket b =>
      cases (show b = bucket from hsup)
      rw [bucketAfter, if_pos rfl] at hb
      exact .inr ⟨.inl (decide_eq_true rfl), by rw [hb]⟩
    | gap cut =>
      rw [bucketAfter] at hb
      split at hb
      · next hin => exact .inl ⟨hin, by rw [hb]; exact hmod⟩
      · next hin =>
        have hzero : (s.bucket bucket).syncGeneration = 0 := by
          rw [KeyIndexState.bucket, Std.ExtTreeMap.getElem?_eq_none_of_contains_eq_false
            (Bool.eq_false_iff.mpr hin)]
          rfl
        exact .inr ⟨.inr hzero, hb ▸ hzero⟩
    | _ => exact hsup.elim
  | install stage cuts names maxRows =>
    cases h
    rcases bucket_install alignCuts s stage cuts names maxRows bucket with
      ⟨hne, -⟩ | ⟨hok, ⟨hn, hn'⟩ | ha⟩
    · exact (hne hsup).elim
    · have hzero : (s.bucket bucket).syncGeneration = 0 := by rw [KeyIndexState.bucket, hn]; rfl
      exact .inr ⟨.inr hzero, by rwa [bucket_eq_of_none hn hn']⟩
    · exact .inl ⟨hok, ha.generation⟩
  | capture => exact hsup.elim

/-- The operations, with a flag that says whether the bucket has been removed. -/
abbrev removing (alignCuts : CutAligner) (bucket : String) :
    KeyIndexState × Bool → FleetCall → Option (KeyIndexState × Bool) :=
  Machine.watched (FleetCall.step alignCuts) fun _ c => c.removes bucket

/-- Once the bucket has been removed, no operation moves its new counter on to `g` again. -/
def Unreset (alignCuts : CutAligner) (bucket : String) (g : Nat) (x : KeyIndexState × Bool)
    (c : FleetCall) : Prop :=
  x.2 = true → c.Advances alignCuts bucket x.1 → (x.1.bucket bucket).syncGeneration + 1 ≠ g

def From (bucket : String) (m n : Nat) (x : KeyIndexState × Bool) : Prop :=
  (x.1.bucket bucket).syncGeneration ≤ n ∧ (x.2 = false → m ≤ (x.1.bucket bucket).syncGeneration)

variable {x y : KeyIndexState × Bool}

theorem Unreset.ne {g : Nat} {c : FleetCall} (h : Unreset alignCuts bucket g x c)
    (hge : x.2 = false → g ≤ (x.1.bucket bucket).syncGeneration)
    (hadv : c.Advances alignCuts bucket x.1) : (x.1.bucket bucket).syncGeneration + 1 ≠ g := by
  cases hx : x.2 with
  | false =>
    have := hge hx
    omega
  | true => exact h hx hadv

theorem From.step {m n : Nat} {c : FleetCall} (h : From bucket m n x)
    (hc : removing alignCuts bucket x c = some y) (hn : n + 1 < 2 ^ 64) :
    From bucket m (n + 1) y := by
  obtain ⟨hle, hge⟩ := h
  obtain ⟨hc, hy⟩ := Machine.watched_eq_some.mp hc
  rw [From, hy, Bool.or_eq_false_iff]
  rcases generation_step hc bucket (by omega) with he | ⟨-, he⟩ | ⟨hr, he⟩
  · exact ⟨by omega, fun hx => he ▸ hge hx.1⟩
  · exact ⟨by omega, fun hx => he ▸ Nat.le_succ_of_le (hge hx.1)⟩
  · exact ⟨by omega, fun hx => absurd (hr.symm.trans hx.2) nofun⟩

theorem From.run {m n : Nat} {l : List FleetCall} (h : From bucket m n x)
    (hrun : Machine.run (removing alignCuts bucket) x l = some y) (hn : n + l.length < 2 ^ 64) :
    From bucket m (n + l.length) y := by
  refine (Machine.runs_of_run hrun).counts (P := fun k t => k < 2 ^ 64 → From bucket m k t) ?_
    (fun _ => h) hn
  intro k t c t' ht _ hc hk
  exact (ht (by omega)).step hc hk

def Past (bucket : String) (g n : Nat) (x : KeyIndexState × Bool) : Prop :=
  From bucket (g + 1) n x ∧ (x.1.bucket bucket).syncGeneration ≠ g

theorem Past.step {g n : Nat} {c : FleetCall} (h : Past bucket g n x) (hg : g ≠ 0)
    (hok : Unreset alignCuts bucket g x c) (hc : removing alignCuts bucket x c = some y)
    (hn : n + 1 < 2 ^ 64) : Past bucket g (n + 1) y := by
  refine ⟨h.1.step hc hn, ?_⟩
  obtain ⟨⟨hle, hge⟩, hne⟩ := h
  obtain ⟨hc, -⟩ := Machine.watched_eq_some.mp hc
  rcases generation_step hc bucket (by omega) with he | ⟨hadv, he⟩ | ⟨-, he⟩
  · rwa [he]
  · rw [he]
    exact hok.ne (fun hx => Nat.le_of_succ_le (hge hx)) hadv
  · rw [he]
    exact hg.symm

theorem Past.run {g n : Nat} {l : List FleetCall} (h : Past bucket g n x) (hg : g ≠ 0)
    (hrun : Machine.Runs (removing alignCuts bucket) (Unreset alignCuts bucket g) x l y)
    (hn : n + l.length < 2 ^ 64) : Past bucket g (n + l.length) y := by
  refine hrun.counts (P := fun k t => k < 2 ^ 64 → Past bucket g k t) ?_ (fun _ => h) hn
  intro k t c t' ht hok hc hk
  exact (ht (by omega)).step hg hok hc hk

theorem From.superseded {g n : Nat} {c : FleetCall} (h : From bucket g n x) (hg : g ≠ 0)
    (hsup : c.Supersedes alignCuts bucket x.1) (hok : Unreset alignCuts bucket g x c)
    (hc : removing alignCuts bucket x c = some y) (hn : n + 1 < 2 ^ 64) :
    Past bucket g (n + 1) y := by
  obtain ⟨hle, hge⟩ := h
  obtain ⟨hc, hy⟩ := Machine.watched_eq_some.mp hc
  rw [Past, From, hy, Bool.or_eq_false_iff]
  rcases superseded_step hc hsup (by omega) with ⟨hadv, he⟩ | ⟨hgone, he⟩
  · refine ⟨⟨by omega, fun hx => he ▸ Nat.succ_le_succ (hge hx.1)⟩, ?_⟩
    rw [he]
    exact hok.ne hge hadv
  · refine ⟨⟨by omega, fun hx => ?_⟩, by omega⟩
    rcases hgone with hr | hzero
    · rw [hx.2] at hr
      cases hr
    · have := hge hx.1
      omega

omit [Layout] in
theorem ownedBy_eq_false {g : Nat} {b : BucketState} (h : b.syncGeneration ≠ g) :
    b.ownedBy g = false := by
  simp [BucketState.ownedBy, h]

theorem superseded_scan_rejected {l₀ l₁ l₂ : List FleetCall} {s₀ s₁ s : KeyIndexState}
    {x₂ : KeyIndexState × Bool} {removed : Bool} {c : FleetCall} {g : Nat}
    (h₀ : Machine.run (FleetCall.step alignCuts) {} l₀ = some s₀)
    (hbegin : s₀.beginBucketResync bucket = (g, s₁))
    (h₁ : Machine.run (removing alignCuts bucket) (s₁, false) l₁ = some x₂)
    (hsup : c.Supersedes alignCuts bucket x₂.1)
    (h₂ : Machine.Runs (removing alignCuts bucket) (Unreset alignCuts bucket g) x₂ (c :: l₂)
      (s, removed))
    (hlen : l₀.length + 1 + l₁.length + 1 + l₂.length < 2 ^ 64) :
    (∀ rows, (s.syncListingIntoGeneration bucket g rows).1 = none ∧
      (s.syncListingIntoGeneration bucket g rows).2.bucket bucket = s.bucket bucket) ∧
    (s.finishBucketSyncGeneration bucket g).1 = false ∧
      (s.finishBucketSyncGeneration bucket g).2.bucket bucket = s.bucket bucket := by
  have hs₀ : (s₀.bucket bucket).syncGeneration ≤ l₀.length := by
    have := (Machine.runs_of_run h₀).counts (n := 0)
      (P := fun k t => k < 2 ^ 64 → (t.bucket bucket).syncGeneration ≤ k)
      (fun k t c t' ht _ hc hk => by
        have := ht (by omega)
        rcases generation_step hc bucket (by omega) with he | ⟨-, he⟩ | ⟨-, he⟩ <;> omega)
      (fun _ => Nat.zero_le _)
    simpa using this (by omega)
  have hg : (s₁.bucket bucket).syncGeneration = g ∧ g = (s₀.bucket bucket).syncGeneration + 1 := by
    have hb : s₁.bucket bucket = (s₀.bucket bucket).begun := by
      rw [show s₁ = (s₀.beginBucketResync bucket).2 by rw [hbegin], bucket_begin, if_pos rfl]
    have hgen : g = (s₀.bucket bucket).discard.syncGeneration :=
      (congrArg Prod.fst hbegin).symm
    exact ⟨by rw [hb, hgen]; rfl, hgen.trans (Nat.mod_eq_of_lt (by omega))⟩
  have hs₁ : From bucket g (l₀.length + 1) (s₁, false) :=
    ⟨hg.1.trans_le (by omega), fun _ => hg.1.ge⟩
  have hs₂ : From bucket g (l₀.length + 1 + l₁.length) x₂ := hs₁.run h₁ (by omega)
  cases h₂ with
  | cons hok hc h₂ =>
  have hpast := (hs₂.superseded (by omega) hsup hok hc (by omega)).run (by omega) h₂ hlen
  have hown : (s.bucket bucket).ownedBy g = false := ownedBy_eq_false hpast.2
  refine ⟨fun rows => ⟨?_, ?_⟩, ?_, ?_⟩
  · rw [syncListingIntoGeneration_fst, hown]
    rfl
  · rw [bucket_page, if_pos rfl, BucketState.afterPage, hown]
    rfl
  · rw [finishBucketSyncGeneration_fst, hown]
  · rw [bucket_finish, if_pos rfl, BucketState.afterFinish, hown]
    rfl

end

section Sample
local instance countersLayout : Layout := sampleLayout

def sampleStep : KeyIndexState → FleetCall → Option KeyIndexState :=
  FleetCall.step fun _ _ => ⟨.exact, none⟩

def sampleRescan : KeyIndexState :=
  (Machine.run sampleStep {} [.call (.resync "b"), .call (.resync "b"),
    .call (.gap ⟨[1], 1, 1⟩), .call (.removeBucket "b"), .call (.resync "b")]).get
    (by decide +kernel)

/-- The bucket is removed under its second scan, and the new entry's first scan is begun. -/
theorem superseded_scan_rejected_sample :
    (sampleRescan.bucket "b").syncGeneration = 1 ∧
    (sampleRescan.finishBucketSyncGeneration "b" 2).1 = false ∧
    (sampleRescan.finishBucketSyncGeneration "b" 1).1 = true := by
  let step := removing (fun _ _ => ⟨.exact, none⟩) "b"
  let begun : KeyIndexState := (({} : KeyIndexState).beginBucketResync "b").2
  let again : KeyIndexState := (begun.beginBucketResync "b").2
  let gapped : KeyIndexState := again.discardForGap ⟨[1], 1, 1⟩
  have h₀ : Machine.run sampleStep {} [.call (.resync "b")] = some begun := rfl
  have hbegin : begun.beginBucketResync "b" = (2, again) := rfl
  have h₁ : Machine.run step (again, false) [.call (.gap ⟨[1], 1, 1⟩)] = some (gapped, false) :=
    rfl
  have hsup : FleetCall.Supersedes (fun _ _ => ⟨.exact, none⟩) "b" gapped
    (.call (.removeBucket "b")) := rfl
  have h₂ : Machine.Runs step (Unreset (fun _ _ => ⟨.exact, none⟩) "b" 2) (gapped, false)
      [.call (.removeBucket "b"), .call (.resync "b")] (sampleRescan, true) :=
    .cons (fun h => by cases h) rfl
      (.cons (fun _ _ => by decide +kernel) (by rfl) (.nil _))
  exact ⟨by decide +kernel, (superseded_scan_rejected h₀ hbegin h₁ hsup h₂ (by decide)).2.1,
    by decide +kernel⟩

/-- The bucket is removed under a scan and rebuilt from nothing: the new rebuild has the old one's
generation. -/
def sampleReborn : KeyIndexState :=
  (Machine.run sampleStep {} [.call (.resync "b"), .call (.removeBucket "b"),
    .call (.resync "b")]).get (by decide +kernel)

theorem removed_scan_publishes :
    (({} : KeyIndexState).beginBucketResync "b").1 = 1 ∧
    (sampleReborn.syncListingIntoGeneration "b" 1 [("k", (sampleRow 1))]).1 = some 1 ∧
    ((sampleReborn.syncListingIntoGeneration "b" 1 [("k", (sampleRow 1))]).2.bucket "b").keys.get
      "k" = some (sampleRow 1) ∧
    (sampleReborn.finishBucketSyncGeneration "b" 1).1 = true ∧
    ((sampleReborn.finishBucketSyncGeneration "b" 1).2.bucket "b").synced = true := by
  decide +kernel

end Sample

section
variable [Layout] {s s' : KeyIndexState} {bucket : String}

def FleetCall.issued (bucket : String) (s : KeyIndexState) : FleetCall → Option Nat
  | .call (.fence b key) => if b = bucket then (s.fenceKey b key).map (·.1) else none
  | .call (.fenceNative b key cut) =>
    if b = bucket then (s.fenceUncertainKeyNative b key cut).bind (·.1) else none
  | .call (.fenceOwn b key cut) =>
    if b = bucket then (s.fenceOwnUncertainKey b key cut).map (·.1) else none
  | _ => none

variable {alignCuts : CutAligner}

omit [Layout] in
theorem token_fenceKey {key : String} {token : Nat} (h : s.fenceKey bucket key = some (token, s')) :
    token = (s.bucket bucket).uncertaintyEpoch + 1 ∧ (s'.bucket bucket).uncertaintyEpoch = token := by
  simp only [fenceKey] at h
  split at h
  · obtain ⟨rfl, rfl⟩ := Prod.mk.inj (Option.some.inj h)
    rw [bucket_setBucket, if_pos rfl]
    exact ⟨rfl, rfl⟩
  · cases h

omit [Layout] in
theorem Turned.epoch_le {c : IndexCall} (h : Turned bucket s s' c)
    (hc : c ≠ .removeBucket bucket) :
    (s.bucket bucket).uncertaintyEpoch ≤ (s'.bucket bucket).uncertaintyEpoch := by
  cases h with
  | same _ hcount => exact (congrArg (·.2.2) hcount).ge
  | advance _ _ hcount => exact (congrArg (·.2.2) hcount).ge
  | fence _ _ _ hcount => exact (Nat.le_succ _).trans (congrArg (·.2.2) hcount).ge
  | finish _ _ hcount => exact (congrArg (·.2.2) hcount).ge
  | remove => exact absurd rfl hc

theorem epoch_step {c : FleetCall} (h : c.step alignCuts s = some s') (bucket : String) :
    (c.issued bucket s = none ∧ (s.bucket bucket).uncertaintyEpoch ≤
      (s'.bucket bucket).uncertaintyEpoch) ∨
    (c.issued bucket s = some ((s.bucket bucket).uncertaintyEpoch + 1) ∧
      (s'.bucket bucket).uncertaintyEpoch = (s.bucket bucket).uncertaintyEpoch + 1) ∨
    c.removes bucket = true ∧ c.issued bucket s = none := by
  cases c with
  | install stage cuts names maxRows =>
    left
    refine ⟨rfl, ?_⟩
    cases h
    rcases bucket_install alignCuts s stage cuts names maxRows bucket with
      ⟨-, he⟩ | ⟨-, ⟨hn, hn'⟩ | ha⟩
    · rw [he]
    · rw [bucket_eq_of_none hn hn']
    · exact ha.epoch
  | capture host admits names caps =>
    left
    cases h
    exact ⟨rfl, by rw [bucket_capture]⟩
  | call c =>
    have hle := (turned_of_step h bucket).epoch_le
    cases c with
    | fence b key =>
      by_cases hb : b = bucket
      · subst hb
        obtain ⟨⟨token, t⟩, ht, rfl⟩ := Option.map_eq_some_iff.mp h
        obtain ⟨rfl, he⟩ := token_fenceKey ht
        exact .inr (.inl ⟨by simp [FleetCall.issued, ht], he⟩)
      · exact .inl ⟨if_neg hb, hle nofun⟩
    | fenceNative b key cut =>
      by_cases hb : b = bucket
      · subst hb
        obtain ⟨⟨token, t⟩, ht, rfl⟩ := Option.map_eq_some_iff.mp h
        have hcut := bucket_congr (buckets_noteNativeCut (s := s) cut) b
        cases hn : s.noteNativeCut cut with
        | mk fresh noted =>
          rw [hn] at hcut
          cases fresh with
          | false => exact .inl ⟨by simp [FleetCall.issued, fenceUncertainKeyNative, hn], hle nofun⟩
          | true =>
            simp only [fenceUncertainKeyNative, hn] at ht
            obtain ⟨⟨token, t⟩, hf, ht⟩ := Option.map_eq_some_iff.mp ht
            cases ht
            obtain ⟨rfl, he⟩ := token_fenceKey hf
            rw [hcut] at he hf
            exact .inr (.inl ⟨by simp [FleetCall.issued, fenceUncertainKeyNative, hn, hf], he⟩)
      · exact .inl ⟨if_neg hb, hle nofun⟩
    | fenceOwn b key cut =>
      by_cases hb : b = bucket
      · subst hb
        obtain ⟨⟨token, t⟩, ht, rfl⟩ := Option.map_eq_some_iff.mp h
        obtain ⟨rfl, he⟩ := token_fenceKey ht
        rw [bucket_congr (buckets_noteNativeCut cut)] at he ht
        exact .inr (.inl ⟨by simp [FleetCall.issued, ht], he⟩)
      · exact .inl ⟨if_neg hb, hle nofun⟩
    | removeBucket b =>
      by_cases hb : b = bucket
      · exact .inr (.inr ⟨decide_eq_true hb, rfl⟩)
      · exact .inl ⟨rfl, hle fun he => hb (IndexCall.removeBucket.inj he)⟩
    | _ => exact .inl ⟨rfl, hle nofun⟩

def tokens (alignCuts : CutAligner) (bucket : String) : KeyIndexState → List FleetCall → List Nat :=
  Machine.collect (FleetCall.step alignCuts) fun s c => (c.issued bucket s).toList

/-- The operations, with a flag that says whether the bucket has been removed with a token drawn
from its entry. -/
abbrev spending (alignCuts : CutAligner) (bucket : String) :
    KeyIndexState × Bool → FleetCall → Option (KeyIndexState × Bool) :=
  Machine.watched (FleetCall.step alignCuts) fun s c =>
    c.removes bucket && (s.bucket bucket).uncertaintyEpoch != 0

/-- No token is drawn from the entry of a bucket that was removed with one drawn. -/
def Unspent (bucket : String) (x : KeyIndexState × Bool) (c : FleetCall) : Prop :=
  x.2 = true → c.issued bucket x.1 = none

theorem collect_spending (x : KeyIndexState × Bool) (l : List FleetCall) :
    Machine.collect (spending alignCuts bucket) (fun x c => (c.issued bucket x.1).toList) x l =
      tokens alignCuts bucket x.1 l :=
  Machine.collect_watched (f := fun s (c : FleetCall) => (c.issued bucket s).toList) _ x

theorem tokens_of_run {l : List FleetCall} {y : KeyIndexState × Bool}
    (h : Machine.Runs (spending alignCuts bucket) (Unspent bucket) (s, false) l y) :
    (tokens alignCuts bucket s l).Pairwise (· < ·) := by
  rw [← collect_spending (s, false)]
  refine (h.collects (P := fun done x => done.Pairwise (· < ·) ∧
    (x.2 = false → ∀ token ∈ done, token ≤ (x.1.bucket bucket).uncertaintyEpoch)) ?_
    ⟨.nil, fun _ _ h => absurd h List.not_mem_nil⟩).1
  rintro done x c y ⟨hpair, hbound⟩ hok hs
  obtain ⟨hs, hy⟩ := Machine.watched_eq_some.mp hs
  rw [hy, Bool.or_eq_false_iff]
  rcases epoch_step hs bucket with ⟨hn, hmono⟩ | ⟨hn, he⟩ | ⟨hrem, hn⟩
  · rw [hn, Option.toList_none, List.append_nil]
    exact ⟨hpair, fun hx token ht => (hbound hx.1 token ht).trans hmono⟩
  · -- a token is drawn: the flag is down, so that the earlier ones are below the epoch
    have hx : x.2 = false := Bool.eq_false_iff.mpr fun hx => by
      rw [hok hx] at hn
      cases hn
    rw [hn, Option.toList_some, he]
    refine ⟨List.pairwise_append.mpr ⟨hpair, List.pairwise_singleton _ _, ?_⟩, fun _ => ?_⟩
    · intro old hold new hnew
      rw [List.mem_singleton.mp hnew]
      exact Nat.lt_succ_of_le (hbound hx old hold)
    · intro token ht
      rcases List.mem_append.mp ht with ht | ht
      · exact (hbound hx token ht).trans (Nat.le_succ _)
      · exact (List.mem_singleton.mp ht).le
  · rw [hn, Option.toList_none, List.append_nil]
    refine ⟨hpair, fun hx token ht => ?_⟩
    have hzero : (x.1.bucket bucket).uncertaintyEpoch = 0 := by simpa [hrem] using hx.2
    exact ((hbound hx.1 token ht).trans hzero.le).trans (Nat.zero_le _)

theorem resolveUncertainKey_eq_false {key : String} {token : Nat}
    (h : (s.bucket bucket).uncertainKeys[key]? ≠ some token) (now : SystemTime)
    (auth : AuthoritativeKeyState) : s.resolveUncertainKey bucket key token now auth = (false, s) := by
  unfold resolveUncertainKey
  split
  · rfl
  · next b hb =>
    rw [KeyIndexState.bucket, hb] at h
    exact if_pos h

theorem tokens_never_reused {l₁ l₂ : List FleetCall} {s₀ s₁ s₂ : KeyIndexState}
    {spent₁ spent₂ : Bool}
    (h₁ : Machine.Runs (spending alignCuts bucket) (Unspent bucket) (s₀, false) l₁ (s₁, spent₁))
    (h₂ : Machine.Runs (spending alignCuts bucket) (Unspent bucket) (s₁, spent₁) l₂
      (s₂, spent₂)) :
    (tokens alignCuts bucket s₀ (l₁ ++ l₂)).Pairwise (· < ·) ∧
    ∀ old ∈ tokens alignCuts bucket s₀ l₁, ∀ new ∈ tokens alignCuts bucket s₁ l₂, ∀ key,
      (s₂.bucket bucket).uncertainKeys[key]? = some new →
      s₂.uncertainKeyIsCurrent bucket key old = false ∧
      ∀ now auth, s₂.resolveUncertainKey bucket key old now auth = (false, s₂) := by
  have hpair := tokens_of_run (h₁.append h₂)
  have hsplit : tokens alignCuts bucket s₀ (l₁ ++ l₂) =
      tokens alignCuts bucket s₀ l₁ ++ tokens alignCuts bucket s₁ l₂ := by
    rw [← collect_spending (s₀, false), Machine.collect_append h₁, collect_spending,
      collect_spending]
  refine ⟨hpair, fun old ho new hn key hkey => ?_⟩
  rw [hsplit] at hpair
  have hlt : old < new := (List.pairwise_append.mp hpair).2.2 old ho new hn
  have hne : (s₂.bucket bucket).uncertainKeys[key]? ≠ some old := by
    rw [hkey]
    exact fun he => hlt.ne' (Option.some.inj he)
  exact ⟨by simpa [uncertainKeyIsCurrent] using hne, resolveUncertainKey_eq_false hne⟩

end

section Sample
local instance tokensLayout : Layout := sampleLayout

def sampleFenced : KeyIndexState :=
  (sampleStep {} (.call (.fence "b" "k"))).get (by decide +kernel)

def sampleTwice : KeyIndexState :=
  (Machine.run sampleStep sampleFenced [.call (.resync "b"), .call (.fence "b" "k")]).get
    (by decide +kernel)

theorem tokens_never_reused_sample :
    sampleTwice.uncertainKeyIsCurrent "b" "k" 2 = true ∧
    sampleTwice.uncertainKeyIsCurrent "b" "k" 1 = false := by
  let step := spending (fun _ _ => ⟨.exact, none⟩) "b"
  have h₁ : Machine.Runs step (Unspent "b") ({}, false) [.call (.fence "b" "k")]
      (sampleFenced, false) :=
    .cons (fun h => by cases h) rfl (.nil _)
  have h₂ : Machine.Runs step (Unspent "b") (sampleFenced, false)
      [.call (.resync "b"), .call (.fence "b" "k")] (sampleTwice, false) :=
    .cons (fun h => by cases h) rfl (.cons (fun h => by cases h) rfl (.nil _))
  refine ⟨by decide +kernel, ?_⟩
  exact ((tokens_never_reused h₁ h₂).2 1 (by decide +kernel) 2 (by decide +kernel) "k"
    (by decide +kernel)).1

/-- The bucket is removed under the reconciliation of a fence, and the key is fenced again. -/
def sampleRefenced : KeyIndexState :=
  (Machine.run sampleStep {} [.call (.fence "b" "k"), .call (.removeBucket "b"),
    .call (.fence "b" "k")]).get (by decide +kernel)

theorem removed_token_reused :
    tokens (fun _ _ => ⟨.exact, none⟩) "b" {} [.call (.fence "b" "k"), .call (.removeBucket "b"),
      .call (.fence "b" "k")] = [1, 1] ∧
    sampleRefenced.uncertainKeyIsCurrent "b" "k" 1 = true ∧
    (sampleRefenced.resolveUncertainKey "b" "k" 1 .unixEpoch (.present (sampleRow 1))).1 = true := by
  decide +kernel

end Sample

end S3Cache.Fleet

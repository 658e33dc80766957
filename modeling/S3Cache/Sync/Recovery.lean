import S3Cache.Fleet.Calls
import S3Cache.Index.ScanLaws

/-! The origin rebuild of a recovery (`sync/volatile.rs`): every bucket that is configured or held
is begun anew, then scanned, and the first scan that fails ends the rebuild. -/

namespace S3Cache.Sync

open Index Fleet

def maxRecoveryBuckets : Nat := 4096

def recoveryBuckets (configured : List String) (s : KeyIndexState) : Option (List String) :=
  if maxRecoveryBuckets < s.buckets.size ∨
      maxRecoveryBuckets < s.buckets.size + configured.length then none
  else some (Std.ExtTreeSet.ofList (configured ++ s.buckets.keys)).toList

theorem mem_recoveryBuckets {configured names : List String} {s : KeyIndexState} {name : String}
    (h : recoveryBuckets configured s = some names) :
    name ∈ names ↔ name ∈ configured ∨ s.Holds name := by
  obtain ⟨-, h⟩ := Option.ite_none_left_eq_some.mp h
  cases h
  rw [Std.ExtTreeSet.mem_toList, Std.ExtTreeSet.mem_ofList, List.contains_iff_mem, List.mem_append,
    Std.ExtTreeMap.mem_keys, Std.ExtTreeMap.mem_iff_isSome_getElem?]
  rfl

theorem nodup_recoveryBuckets {configured names : List String} {s : KeyIndexState}
    (h : recoveryBuckets configured s = some names) : names.Nodup := by
  obtain ⟨-, h⟩ := Option.ite_none_left_eq_some.mp h
  cases h
  exact Std.ExtTreeSet.distinct_toList.imp fun hne => by
    rintro rfl
    exact hne Std.ReflCmp.compare_self

inductive AdapterError where
  | adapterError
  deriving DecidableEq

def beginAll : List String → KeyIndexState → List (String × Nat) × KeyIndexState
  | [], s => ([], s)
  | name :: names, s =>
    let (generation, s) := s.beginBucketResync name
    let (generations, s) := beginAll names s
    ((name, generation) :: generations, s)

section
variable {ε : Type} [ETagParser] [Layout]
  (list : Option String → Nat → OriginListRequest → Except ε OriginPage) (scan : String → ScanRun)

def scanAll : List (String × Nat) → KeyIndexState → Except AdapterError Unit × KeyIndexState
  | [], s => (.ok (), s)
  | (name, generation) :: generations, s =>
    match syncBucketGeneration list name generation (scan name) s with
    | (.ok _, s) => scanAll generations s
    | (.error _, s) => (.error .adapterError, s)

def rebuildOrigin (configured : List String) (s : KeyIndexState) :
    Except AdapterError Unit × KeyIndexState :=
  match recoveryBuckets configured s with
  | none => (.error .adapterError, s)
  | some names =>
    let (generations, s) := beginAll names s
    scanAll list scan generations s

end

/-- A bucket as its rebuild is to leave it: synced, with the origin's keys but for fenced ones. -/
def Rebuilt [ETagParser] (origin : Origin) (scan : String → ScanRun) (s : KeyIndexState)
    (name : String) : Prop :=
  ∀ objects ∈ origin.objects name, (s.bucket name).synced = true ∧
    ∀ key, (s.bucket name).uncertainKeys[key]? = none →
      (s.bucket name).keys.get key = objects[key]?.map fun o => o.entry ((scan name).now key)

def Begun (s : KeyIndexState) (name : String) (generation : Nat) : Prop :=
  ∀ row, Listing generation (s.bucket name).uncertainKeys row ∅ (s.bucket name)

theorem Begun.congr {s s' : KeyIndexState} {name : String} {generation : Nat}
    (h : Begun s name generation) (hs : s'.bucket name = s.bucket name) :
    Begun s' name generation := by
  unfold Begun
  rw [hs]
  exact h

theorem beginAll_begun {names : List String} (hnodup : names.Nodup) (s : KeyIndexState) :
    (beginAll names s).1.map Prod.fst = names ∧
      (∀ p ∈ (beginAll names s).1, Begun (beginAll names s).2 p.1 p.2) ∧
      ∀ n ∉ names, (beginAll names s).2.bucket n = s.bucket n := by
  induction names generalizing s with
  | nil => exact ⟨rfl, nofun, fun _ _ => rfl⟩
  | cons name names ih =>
    obtain ⟨hname, hnodup⟩ := List.nodup_cons.mp hnodup
    obtain ⟨hfst, hbegun, hframe⟩ := ih hnodup (s.beginBucketResync name).2
    refine ⟨congrArg (name :: ·) hfst, List.forall_mem_cons.mpr ⟨?_, hbegun⟩, fun n hn => ?_⟩
    · refine Begun.congr (fun row => ?_) (hframe name hname)
      have h : Listing _ _ row ∅ ((s.beginBucketResync name).2.bucket name) :=
        Listing.beginBucketResync row
      rw [h.fenced]
      exact h
    · rw [List.mem_cons, not_or] at hn
      exact (hframe n hn.2).trans (by rw [KeyIndexState.bucket_begin, if_neg (Ne.symm hn.1)])

section
variable [ETagParser] [Layout] {origin : Origin} {scan : String → ScanRun} {s : KeyIndexState}

theorem joinScans_gone {bucket : String} (ho : origin.objects bucket = none) (generation : Nat)
    (now : String → SystemTime) (schedule : List Nat) (scans : List RangeScan) (s : KeyIndexState) :
    (∃ e, (joinScans origin.list bucket generation now schedule scans s).1 = .error e) ∨
      (joinScans origin.list bucket generation now schedule scans s).1 = .ok scans := by
  induction schedule with
  | nil => exact .inr rfl
  | cons i schedule ih =>
    rw [joinScans]
    split
    · exact ih
    · split
      · exact ih
      · left
        simp only [RangeScan.advance, Origin.list, ho]
        exact ⟨_, rfl⟩

theorem syncBucketGeneration_gone {bucket : String} (ho : origin.objects bucket = none)
    (generation : Nat) (run : ScanRun) (s : KeyIndexState) (n : Nat) :
    (syncBucketGeneration origin.list bucket generation run s).1 ≠ .ok n := by
  unfold syncBucketGeneration
  split
  · nofun
  · next boundaries _ =>
    have hjoin := joinScans_gone ho generation run.now run.schedule (startScans boundaries) s
    split
    · nofun
    · next scans s₁ hj =>
      rw [hj] at hjoin
      obtain ⟨e, he⟩ | hscans := hjoin
      · cases he
      · cases hscans
        have hopen : (startScans boundaries).all (·.finished) = false := by
          cases boundaries <;> rfl
        rw [hopen]
        nofun

theorem scanAll_ok {pending : List (String × Nat)} (hnodup : (pending.map Prod.fst).Nodup)
    (hasc : ∀ name, (scan name).prefixes.Pairwise (· < ·))
    (hfair : ∀ name, (scan name).Fair origin name)
    (hpending : ∀ p ∈ pending, (origin.objects p.1).isSome = true ∧ Begun s p.1 p.2) :
    ∃ s', scanAll origin.list scan pending s = (.ok (), s') ∧
      (∀ p ∈ pending, Rebuilt origin scan s' p.1) ∧
      ∀ n ∉ pending.map Prod.fst, s'.bucket n = s.bucket n := by
  induction pending generalizing s with
  | nil => exact ⟨s, rfl, nofun, fun _ _ => rfl⟩
  | cons p pending ih =>
    obtain ⟨name, generation⟩ := p
    obtain ⟨hname, hnodup⟩ := List.nodup_cons.mp hnodup
    obtain ⟨⟨hsome, hbegun⟩, hpending⟩ := List.forall_mem_cons.mp hpending
    obtain ⟨objects, ho⟩ := Option.isSome_iff_exists.mp hsome
    obtain ⟨s₁, hscan, hsynced, hfences, hrows, hframe₁⟩ :=
      syncBucketGeneration_ok ho (hasc name) (hfair name) (hbegun _)
    have hother : ∀ p ∈ pending, p.1 ≠ name := fun p hp he =>
      hname (List.mem_map.mpr ⟨p, hp, he⟩)
    obtain ⟨s', hrest, hrebuilt, hframe⟩ := ih hnodup fun p hp =>
      ⟨(hpending p hp).1, (hpending p hp).2.congr (hframe₁ p.1 (hother p hp))⟩
    refine ⟨s', by rw [scanAll, hscan]; exact hrest, List.forall_mem_cons.mpr ⟨?_, hrebuilt⟩,
      fun n hn => ?_⟩
    · intro objects' ho'
      obtain rfl : objects = objects' := Option.some_inj.mp (ho.symm.trans ho')
      rw [hframe name hname]
      exact ⟨hsynced, fun key hkey => hrows key (hfences ▸ hkey)⟩
    · rw [List.map_cons, List.mem_cons, not_or] at hn
      exact (hframe n hn.2).trans (hframe₁ n hn.1)

theorem scanAll_exists {pending : List (String × Nat)}
    (h : (scanAll origin.list scan pending s).1 = .ok ()) :
    ∀ p ∈ pending, (origin.objects p.1).isSome = true := by
  induction pending generalizing s with
  | nil => nofun
  | cons p pending ih =>
    obtain ⟨name, generation⟩ := p
    rw [scanAll] at h
    split at h
    · next n s₁ hscan =>
      refine List.forall_mem_cons.mpr ⟨?_, ih h⟩
      by_contra hnone
      refine syncBucketGeneration_gone (Option.not_isSome_iff_eq_none.mp hnone) generation
        (scan name) s n ?_
      rw [hscan]
    · cases h

/-- The rebuild succeeds, and does what it is for, exactly when the buckets are within the bound
and every bucket the index holds is still there. -/
theorem rebuild_succeeds_iff (origin : Origin) (scan : String → ScanRun) (configured : List String)
    (hconfigured : ∀ name ∈ configured, (origin.objects name).isSome = true)
    (hasc : ∀ name, (scan name).prefixes.Pairwise (· < ·))
    (hfair : ∀ name, (scan name).Fair origin name) (s : KeyIndexState) :
    ((rebuildOrigin origin.list scan configured s).1 = .ok () ∧
      (∀ name ∈ configured, Rebuilt origin scan (rebuildOrigin origin.list scan configured s).2 name) ∧
      ∀ name, origin.objects name = none →
        ((rebuildOrigin origin.list scan configured s).2.bucket name).synced = false) ↔
    s.buckets.size + configured.length ≤ maxRecoveryBuckets ∧
      ∀ name, s.Holds name → (origin.objects name).isSome = true := by
  unfold rebuildOrigin
  cases hnames : recoveryBuckets configured s with
  | none =>
    refine ⟨fun h => (nomatch h.1), fun h => ?_⟩
    have hbound : ¬ (maxRecoveryBuckets < s.buckets.size ∨
        maxRecoveryBuckets < s.buckets.size + configured.length) := by
      have := h.1
      omega
    rw [recoveryBuckets, if_neg hbound] at hnames
    cases hnames
  | some names =>
    have hbound := (Option.ite_none_left_eq_some.mp hnames).1
    have hmem : ∀ {name}, name ∈ names ↔ name ∈ configured ∨ s.Holds name :=
      mem_recoveryBuckets hnames
    have hnodup := nodup_recoveryBuckets hnames
    obtain ⟨hfst, hbegun, hframe⟩ := beginAll_begun hnodup s
    have hpending : ∀ {name}, name ∈ names →
        ∃ generation, (name, generation) ∈ (beginAll names s).1 := by
      intro name hname
      rw [← hfst] at hname
      obtain ⟨p, hp, rfl⟩ := List.mem_map.mp hname
      exact ⟨p.2, hp⟩
    constructor
    · rintro ⟨hok, -⟩
      refine ⟨by omega, fun name hname => ?_⟩
      obtain ⟨generation, hp⟩ := hpending (hmem.mpr (.inr hname))
      exact scanAll_exists hok _ hp
    · rintro ⟨-, hheld⟩
      have hexists : ∀ p ∈ (beginAll names s).1, (origin.objects p.1).isSome = true := by
        intro p hp
        have hname : p.1 ∈ names := hfst ▸ List.mem_map_of_mem hp
        exact (hmem.mp hname).elim (hconfigured p.1) (hheld p.1)
      obtain ⟨s', hscan, hrebuilt, hframe'⟩ := scanAll_ok (by rwa [hfst]) hasc hfair
        fun p hp => ⟨hexists p hp, hbegun p hp⟩
      dsimp only
      rw [hscan]
      refine ⟨rfl, fun name hname => ?_, fun name hnone => ?_⟩
      · obtain ⟨generation, hp⟩ := hpending (hmem.mpr (.inl hname))
        exact hrebuilt _ hp
      · have hname : name ∉ names := fun hname => by
          obtain ⟨generation, hp⟩ := hpending hname
          have := hexists _ hp
          rw [hnone] at this
          cases this
        rw [hframe' name (by rwa [hfst]), hframe name hname]
        have habsent : s.buckets[name]? = none :=
          Option.not_isSome_iff_eq_none.mp fun hh => hname (hmem.mpr (.inr hh))
        rw [KeyIndexState.bucket, habsent]
        rfl

end

theorem sampleRun_fair_all (name : String) : sampleRun.Fair sampleOrigin name := by
  by_cases hname : name = "b"
  · rw [hname]
    exact sampleRun_fair
  · intro boundaries hb i range hi
    obtain rfl : ["c/", "m/"] = boundaries := Option.some_inj.mp hb
    have hpages : (sampleOrigin.cut name range.lower).pages.length = 1 := by
      simp [sampleOrigin, PageCut.singles, objectsAfter, hname]
    rw [hpages]
    rcases i with _ | _ | _ | n
    · decide +kernel
    · decide +kernel
    · decide +kernel
    · cases hi

section
local instance recoveryLayout : Layout := sampleLayout
local instance recoveryParser : ETagParser := sampleETagParser

def sampleStale : KeyIndexState :=
  (({} : KeyIndexState).run
    [.put "b" "stale" (({} : ListedObject).entry .unixEpoch) (some ⟨[1], 1, 1⟩)]).get
    (by decide +kernel)

theorem rebuild_succeeds_iff_sample :
    ((sampleStale.bucket "b").keys.get "stale").isSome = true ∧
    (sampleOrigin.objects "b").any (·.contains "stale") = false ∧
    (rebuildOrigin sampleOrigin.list (fun _ => sampleRun) ["b"] sampleStale).1 = .ok () ∧
    ∀ name ∈ ["b"], Rebuilt sampleOrigin (fun _ => sampleRun)
      (rebuildOrigin sampleOrigin.list (fun _ => sampleRun) ["b"] sampleStale).2 name := by
  have hnames : sampleStale.buckets.keys = ["b"] := by decide +kernel
  have hheld : ∀ name, sampleStale.Holds name → (sampleOrigin.objects name).isSome = true := by
    intro name h
    have hmem : name ∈ sampleStale.buckets.keys :=
      Std.ExtTreeMap.mem_keys.mpr (Std.ExtTreeMap.mem_iff_isSome_getElem?.mpr h)
    rw [hnames, List.mem_singleton] at hmem
    rw [hmem]
    rfl
  obtain ⟨hok, hrebuilt, -⟩ := (rebuild_succeeds_iff sampleOrigin (fun _ => sampleRun) ["b"]
    (by decide) (fun _ => by decide) sampleRun_fair_all sampleStale).mpr
    ⟨by decide +kernel, hheld⟩
  exact ⟨by decide +kernel, by decide +kernel, hok, hrebuilt⟩

/-- A put of another bucket, since deleted at the origin, blocks the recovery. -/
theorem rebuild_blocked_by_gone_bucket :
    ∃ s, ({} : KeyIndexState).run
        [.put "a" "k" (({} : ListedObject).entry .unixEpoch) (some ⟨[1], 1, 1⟩)] = some s ∧
      (rebuildOrigin sampleOrigin.list (fun _ => sampleRun) ["b"] s).1 = .error .adapterError ∧
      ((rebuildOrigin sampleOrigin.list (fun _ => sampleRun) ["b"] s).2.bucket "b").synced = false :=
  ⟨_, rfl, by decide +kernel, by decide +kernel⟩

end

end S3Cache.Sync

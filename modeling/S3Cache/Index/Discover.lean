import Mathlib.Data.List.Sort
import Mathlib.Data.List.Destutter
import S3Cache.Index.ScanLaws

/-! How a scan finds the boundaries of its ranges (`discover_boundaries`, `index/scan.rs`): a
breadth-first walk of the origin's common prefixes with a budget of requests. -/

namespace S3Cache.Index

open Fleet

def maxWorkers : Nat := 64
def maxDiscoveryRequests : Nat := 64
def maxPrefixDepth : Nat := 8

structure ScanConfig where
  workers : Nat
  discoveryBudget : Nat

def ScanConfig.bounded (config : ScanConfig) : ScanConfig where
  workers := min (max config.workers 1) maxWorkers
  discoveryBudget := min config.discoveryBudget maxDiscoveryRequests

/-- A LIST with the delimiter `/`. -/
structure DiscoveryRequest where
  bucket : String
  keyPrefix : String
  continuationToken : Option String

structure DiscoveryPage where
  commonPrefixes : List (Option String)
  isTruncated : Option Bool
  nextContinuationToken : Option String

inductive Siblings where
  | failed
  | incomplete
  | complete (children : List String)

structure Discovery where
  queue : List String
  best : List String := []
  used : Nat := 0
  ended : Bool := false
  asked : List String := []

def sortDedup (children : List String) : List String :=
  (children.insertionSort (· ≤ ·)).destutter (· ≠ ·)

section
variable {ε : Type} (list : Nat → DiscoveryRequest → Except ε DiscoveryPage) (bucket : String)

def siblings (keyPrefix : String) :
    Nat → Nat → Option String → List String → Siblings × Nat
  | 0, used, _, _ => (.incomplete, used)
  | left + 1, used, token, children =>
    match list used ⟨bucket, keyPrefix, token⟩ with
    | .error _ => (.failed, used + 1)
    | .ok page =>
      let children := children ++ page.commonPrefixes.filterMap id
      if children.isEmpty then (.failed, used + 1)
      else if !page.isTruncated.getD false then (.complete children, used + 1)
      else
        match page.nextContinuationToken with
        | none => (.incomplete, used + 1)
        | some next => siblings keyPrefix left (used + 1) (some next) children

variable (config : ScanConfig)

def Discovery.turn (d : Discovery) : Discovery :=
  if d.ended then d
  else
    match d.queue with
    | [] => { d with ended := true }
    | keyPrefix :: queue =>
      if config.discoveryBudget ≤ d.used then { d with queue, ended := true }
      else
        let asked := d.asked ++ [keyPrefix]
        match siblings list bucket keyPrefix (config.discoveryBudget - d.used) d.used none [] with
        | (.failed, used) => { d with queue, used, ended := true, asked }
        | (.incomplete, used) => { d with queue, used, ended := true, asked }
        | (.complete children, used) =>
          let children := sortDedup children
          let best := if d.best.length < children.length then children else d.best
          if config.workers * 8 ≤ best.length then { queue, best, used, ended := true, asked }
          else if keyPrefix.toList.count '/' < maxPrefixDepth then
            { queue := queue ++ children, best, used, ended := false, asked }
          else { queue, best, used, ended := false, asked }

def discover : Discovery :=
  if config.workers = 1 ∨ config.discoveryBudget = 0 then { queue := [], ended := true }
  else (Discovery.turn list bucket config)^[config.discoveryBudget + 1] { queue := [""] }

def discoverBoundaries : Option (List String) :=
  chooseBoundaries (discover list bucket config).best config.workers

end

/-! ### One turn -/

theorem sortDedup_ascending (children : List String) :
    (sortDedup children).Pairwise (· < ·) := by
  have hsorted : (sortDedup children).Pairwise (· ≤ ·) :=
    (List.pairwise_insertionSort (· ≤ ·) children).sublist (List.destutter_sublist ..)
  have hchain : (sortDedup children).IsChain (· ≠ ·) := List.isChain_destutter ..
  refine List.isChain_iff_pairwise.mp (List.isChain_iff_getElem.mpr fun i hi => ?_)
  exact lt_of_le_of_ne (List.pairwise_iff_getElem.mp hsorted _ _ _ hi (Nat.lt_succ_self i))
    (List.isChain_iff_getElem.mp hchain i hi)

theorem mem_of_mem_sortDedup {children : List String} {child : String}
    (h : child ∈ sortDedup children) : child ∈ children :=
  List.mem_insertionSort (· ≤ ·) |>.mp ((List.destutter_sublist ..).subset h)

section
variable {ε : Type} {list : Nat → DiscoveryRequest → Except ε DiscoveryPage} {bucket : String}
  {config : ScanConfig} {P : String → String → Prop}

/-- Whatever else an origin answers, what it lists under a prefix stands in `P` to it. -/
def Lists (list : Nat → DiscoveryRequest → Except ε DiscoveryPage) (P : String → String → Prop) :
    Prop :=
  ∀ used request page, list used request = .ok page →
    ∀ child, some child ∈ page.commonPrefixes → P request.keyPrefix child

theorem siblings_used (keyPrefix : String) (left used : Nat) (token : Option String)
    (children : List String) :
    let used' := (siblings list bucket keyPrefix left used token children).2
    used ≤ used' ∧ used' ≤ used + left ∧ (0 < left → used < used') := by
  induction left generalizing used token children with
  | zero => exact ⟨le_rfl, le_rfl, fun h => absurd h (lt_irrefl 0)⟩
  | succ left ih =>
    unfold siblings
    split
    · exact ⟨by omega, by omega, by omega⟩
    · next page _ =>
      simp only
      split_ifs
      · exact ⟨by omega, by omega, by omega⟩
      · exact ⟨by omega, by omega, by omega⟩
      · split
        · exact ⟨by omega, by omega, by omega⟩
        · next next _ =>
          obtain ⟨hlo, hhi, -⟩ := ih (used + 1) (some next)
            (children ++ page.commonPrefixes.filterMap id)
          exact ⟨by omega, by omega, fun _ => by omega⟩

theorem siblings_lists (hlist : Lists list P) {keyPrefix : String} {left used used' : Nat}
    {token : Option String} {children children' : List String}
    (h : siblings list bucket keyPrefix left used token children = (.complete children', used'))
    (hc : ∀ child ∈ children, P keyPrefix child) : ∀ child ∈ children', P keyPrefix child := by
  induction left generalizing used token children with
  | zero => cases h
  | succ left ih =>
    unfold siblings at h
    split at h
    · cases h
    · next page hpage =>
      have hmore : ∀ child ∈ children ++ page.commonPrefixes.filterMap id, P keyPrefix child := by
        intro child hchild
        rcases List.mem_append.mp hchild with hchild | hchild
        · exact hc child hchild
        · exact hlist _ _ _ hpage child (by simpa using hchild)
      simp only at h
      split_ifs at h
      · cases h
      · cases h
        exact hmore
      · split at h
        · cases h
        · exact ih h hmore

inductive Discovery.Turned (config : ScanConfig) (P : String → String → Prop) (d : Discovery) :
    Discovery → Prop where
  | stop (queue : List String) : queue <:+ d.queue →
    Turned config P d { d with queue, ended := true }
  | fail (keyPrefix : String) (queue : List String) (used : Nat) :
    d.queue = keyPrefix :: queue → d.used < used → used ≤ config.discoveryBudget →
    Turned config P d { d with queue, used, ended := true, asked := d.asked ++ [keyPrefix] }
  | list (keyPrefix : String) (queue more children : List String) (used : Nat) (ended : Bool) :
    d.queue = keyPrefix :: queue → d.used < used → used ≤ config.discoveryBudget →
    (∀ child ∈ children, P keyPrefix child) → children.Pairwise (· < ·) →
    (more = [] ∨ more = children ∧ keyPrefix.toList.count '/' < maxPrefixDepth) →
    Turned config P d
      { queue := queue ++ more
        best := if d.best.length < children.length then children else d.best
        used
        ended
        asked := d.asked ++ [keyPrefix] }

theorem Discovery.turn_of_ended {d : Discovery} (h : d.ended = true) :
    d.turn list bucket config = d := by
  rw [turn, if_pos h]

theorem Discovery.turned (hlist : Lists list P) {d : Discovery} (h : d.ended = false) :
    Turned config P d (d.turn list bucket config) := by
  unfold turn
  rw [if_neg (Bool.eq_false_iff.mp h)]
  split
  · next hq =>
    exact .stop d.queue (List.suffix_refl _)
  · next keyPrefix queue hq =>
    by_cases hbudget : config.discoveryBudget ≤ d.used
    · rw [if_pos hbudget]
      exact .stop queue (hq ▸ List.suffix_cons keyPrefix queue)
    · rw [if_neg hbudget]
      have hused := @siblings_used _ list bucket keyPrefix (config.discoveryBudget - d.used)
        d.used none []
      have hbound : d.used + (config.discoveryBudget - d.used) = config.discoveryBudget := by omega
      simp only [hbound] at hused
      obtain ⟨-, hhi, hlt⟩ := hused
      have hlt := hlt (by omega)
      split
      · next hs =>
        rw [hs] at hlt hhi
        exact .fail keyPrefix queue _ hq hlt hhi
      · next hs =>
        rw [hs] at hlt hhi
        exact .fail keyPrefix queue _ hq hlt hhi
      · next children used hs =>
        rw [hs] at hlt hhi
        have hP : ∀ child ∈ sortDedup children, P keyPrefix child := fun child hc =>
          siblings_lists hlist hs (fun _ hc => absurd hc List.not_mem_nil) child
            (mem_of_mem_sortDedup hc)
        have hturn := fun more ended => @Turned.list config P d keyPrefix queue more
          (sortDedup children) used ended hq hlt hhi hP (sortDedup_ascending children)
        have hkept := fun ended => hturn [] ended (.inl rfl)
        rw [List.append_nil] at hkept
        simp only
        by_cases hmany : config.workers * 8 ≤ (if d.best.length < (sortDedup children).length
            then sortDedup children else d.best).length
        · rw [if_pos hmany]
          exact hkept true
        · rw [if_neg hmany]
          by_cases hdepth : keyPrefix.toList.count '/' < maxPrefixDepth
          · rw [if_pos hdepth]
            exact hturn _ false (.inr ⟨rfl, hdepth⟩)
          · rw [if_neg hdepth]
            exact hkept false

theorem Discovery.iterate_keeps (hlist : Lists list P) {I : Discovery → Prop}
    (hturn : ∀ d d', d.ended = false → I d → Turned config P d d' → I d') (n : Nat)
    {d : Discovery} (h : I d) : I ((Discovery.turn list bucket config)^[n] d) := by
  induction n with
  | zero => exact h
  | succ n ih =>
    rw [Function.iterate_succ_apply']
    cases hended : ((Discovery.turn list bucket config)^[n] d).ended with
    | true =>
      rw [turn_of_ended hended]
      exact ih
    | false => exact hturn _ _ hended ih (turned hlist hended)

theorem discover_keeps (hlist : Lists list P) {I : Discovery → Prop}
    (hturn : ∀ d d', d.ended = false → I d → Discovery.Turned config P d d' → I d')
    (hnone : I { queue := [], ended := true }) (hstart : I { queue := [""] }) :
    I (discover list bucket config) := by
  unfold discover
  split
  · exact hnone
  · exact Discovery.iterate_keeps hlist hturn _ hstart

/-! ### Any answers -/

theorem lists_any : Lists list fun _ _ => True := fun _ _ _ _ _ _ => trivial

structure Discovery.Within (config : ScanConfig) (d : Discovery) : Prop where
  ascending : d.best.Pairwise (· < ·)
  used : d.used ≤ config.discoveryBudget

theorem Discovery.Within.turned {d d' : Discovery} (h : d.Within config)
    (ht : Turned config P d d') : d'.Within config := by
  cases ht with
  | stop queue _ => exact ⟨h.ascending, h.used⟩
  | fail keyPrefix queue used _ _ hused => exact ⟨h.ascending, hused⟩
  | list keyPrefix queue more children used ended _ _ hused _ hasc _ =>
    refine ⟨?_, hused⟩
    show (if d.best.length < children.length then children else d.best).Pairwise (· < ·)
    split
    · exact hasc
    · exact h.ascending

theorem discover_within : (discover list bucket config).Within config :=
  discover_keeps lists_any (fun _ _ _ h => h.turned) ⟨.nil, Nat.zero_le _⟩ ⟨.nil, Nat.zero_le _⟩

theorem Discovery.iterate_counts (n : Nat) (d : Discovery) :
    ((Discovery.turn list bucket config)^[n] d).ended = true ∨
      n ≤ ((Discovery.turn list bucket config)^[n] d).used := by
  induction n with
  | zero => exact .inr (Nat.zero_le _)
  | succ n ih =>
    rw [Function.iterate_succ_apply']
    cases hended : ((Discovery.turn list bucket config)^[n] d).ended with
    | true =>
      rw [turn_of_ended hended]
      exact .inl hended
    | false =>
      have hn := ih.resolve_left (Bool.eq_false_iff.mp hended)
      generalize (Discovery.turn list bucket config)^[n] d = e at hended hn ⊢
      have ht : Turned config (fun _ _ => True) e (e.turn list bucket config) :=
        turned lists_any hended
      generalize e.turn list bucket config = e' at ht ⊢
      cases ht with
      | stop queue _ => exact .inl rfl
      | fail keyPrefix queue used _ _ _ => exact .inl rfl
      | list keyPrefix queue more children used ended _ hlt =>
        exact .inr (Nat.lt_of_le_of_lt hn hlt)

theorem discover_ended : (discover list bucket config).ended = true := by
  have hused : (discover list bucket config).used ≤ config.discoveryBudget := discover_within.used
  unfold discover at hused ⊢
  split
  · rfl
  · next h =>
    rw [if_neg h] at hused
    refine (Discovery.iterate_counts (config.discoveryBudget + 1) _).resolve_right fun hle => ?_
    omega

end

theorem length_of_mapM_eq_some {α β : Type} {f : α → Option β} {xs : List α} {ys : List β}
    (h : xs.mapM f = some ys) : ys.length = xs.length := by
  induction xs generalizing ys with
  | nil =>
    cases h
    rfl
  | cons x xs ih =>
    simp only [List.mapM_cons, Option.bind_eq_bind, Option.bind_eq_some_iff] at h
    obtain ⟨y, -, rest, hrest, h⟩ := h
    cases h
    rw [List.length_cons, List.length_cons, ih hrest]

theorem length_chooseBoundaries {prefixes boundaries : List String} {workers : Nat}
    (h : chooseBoundaries prefixes workers = some boundaries) :
    boundaries.length ≤ workers - 1 := by
  rw [length_of_mapM_eq_some h, List.length_range']
  omega

/-- `sync_bucket_generation` with the discovery that comes first. -/
def scanBucket {ε δ : Type} [ETagParser] [Layout]
    (list : Option String → Nat → OriginListRequest → Except ε OriginPage)
    (listPrefixes : Nat → DiscoveryRequest → Except δ DiscoveryPage) (bucket : String)
    (generation : Nat) (config : ScanConfig) (now : String → SystemTime) (schedule : List Nat)
    (s : KeyIndexState) : Except (ScanError ε) Nat × KeyIndexState :=
  syncBucketGeneration list bucket generation
    { prefixes := (discover listPrefixes bucket config.bounded).best
      workers := config.bounded.workers
      now
      schedule } s

section
variable [ETagParser] [Layout] {δ : Type} {bucket : String} {objects : OrdMap ListedObject}

/-- The discovery only gives hints.  Whatever the origin answers it, it ends within its budget, and
a scan of the ranges it leads to indexes exactly the origin's keys. -/
theorem discovery_only_hints (listPrefixes : Nat → DiscoveryRequest → Except δ DiscoveryPage)
    (config : ScanConfig) (origin : Origin) (ho : origin.objects bucket = some objects)
    (s : KeyIndexState) (hfences : (s.bucket bucket).uncertainKeys = ∅) :
    (discover listPrefixes bucket config.bounded).ended = true ∧
    (discover listPrefixes bucket config.bounded).used ≤ min config.discoveryBudget 64 ∧
    ∃ boundaries, discoverBoundaries listPrefixes bucket config.bounded = some boundaries ∧
      boundaries.Pairwise (· < ·) ∧ boundaries.length ≤ min (config.workers - 1) 63 ∧
      (∀ key, (ranges boundaries).countP (·.contains key) = 1) ∧
      ∀ now schedule,
        (∀ i range, (ranges boundaries)[i]? = some range →
          (origin.cut bucket range.lower).pages.length ≤ schedule.count i) →
        ∃ s', scanBucket origin.list listPrefixes bucket (s.beginBucketResync bucket).1 config now
            schedule (s.beginBucketResync bucket).2 = (.ok objects.size, s') ∧
          (s'.bucket bucket).synced = true ∧
          ∀ key, (s'.bucket bucket).keys.get key =
            objects[key]?.map fun o => o.entry (now key) := by
  have hwithin : (discover listPrefixes bucket config.bounded).Within config.bounded :=
    discover_within
  obtain ⟨boundaries, hb, hasc⟩ := chooseBoundaries_ascending hwithin.ascending
    config.bounded.workers
  have hlength : boundaries.length ≤ min (config.workers - 1) 63 := by
    have hle := length_chooseBoundaries hb
    simp only [ScanConfig.bounded, maxWorkers] at hle
    omega
  refine ⟨discover_ended, hwithin.used, boundaries, hb, hasc, hlength, countP_ranges hasc,
    fun now schedule hfair => ?_⟩
  have hnone : ∀ key, (s.bucket bucket).uncertainKeys[key]? = none := fun key => by
    rw [hfences]
    exact Std.ExtTreeMap.getElem?_empty
  let run : ScanRun :=
    ⟨(discover listPrefixes bucket config.bounded).best, config.bounded.workers, now, schedule⟩
  have hrunfair : run.Fair origin bucket := fun boundaries' hb' => by
    obtain rfl : boundaries = boundaries' := Option.some.inj (hb.symm.trans hb')
    exact hfair
  obtain ⟨s', hscan, hsynced, -, hrows, -⟩ :=
    syncBucketGeneration_ok ho hwithin.ascending hrunfair (Listing.beginBucketResync _)
  exact ⟨s', hscan, hsynced, fun key => hrows key (hnone key)⟩

end

def sampleTree (_ : Nat) (request : DiscoveryRequest) : Except Unit DiscoveryPage :=
  if request.keyPrefix = "" then
    .ok (if request.continuationToken.isNone then ⟨[some "m/", none], some true, some "t"⟩
      else ⟨[some "c/", some "m/"], none, none⟩)
  else .error ()

section
local instance discoverLayout : Layout := sampleLayout
local instance discoverParser : ETagParser := sampleETagParser

theorem discovery_only_hints_sample :
    discoverBoundaries sampleTree "b" (ScanConfig.mk 3 4).bounded = some ["c/", "m/"] ∧
    (discover sampleTree "b" (ScanConfig.mk 3 4).bounded).used = 3 ∧
    ∃ s', scanBucket sampleOrigin.list sampleTree "b" 1 ⟨3, 4⟩ (fun _ => .unixEpoch)
        sampleRun.schedule (({} : KeyIndexState).beginBucketResync "b").2 =
          (.ok sampleObjects.size, s') ∧ (s'.bucket "b").synced = true := by
  have hbounds : discoverBoundaries sampleTree "b" (ScanConfig.mk 3 4).bounded =
      some ["c/", "m/"] := by decide +kernel
  obtain ⟨-, -, boundaries, hb, -, -, -, hscan⟩ := discovery_only_hints sampleTree ⟨3, 4⟩
    sampleOrigin (if_pos rfl) {} rfl
  obtain rfl : ["c/", "m/"] = boundaries := Option.some.inj (hbounds.symm.trans hb)
  obtain ⟨s', hscan, hsynced, -⟩ := hscan (fun _ => .unixEpoch) sampleRun.schedule
    (sampleRun_fair _ (by decide +kernel))
  exact ⟨hbounds, by decide +kernel, s', hscan, hsynced⟩

end

/-! ### An origin that lists a tree -/

/-- `child` is one segment below `parent`. -/
def IsChild (parent child : String) : Prop :=
  ∃ segment, '/' ∉ segment ∧ child.toList = parent.toList ++ segment ++ ['/']

def IsParent (keyPrefix : String) : Prop := ∀ c ∈ keyPrefix.toList.getLast?, c = '/'

theorem IsChild.isParent {parent child : String} (h : IsChild parent child) : IsParent child := by
  obtain ⟨segment, -, h⟩ := h
  intro c hc
  rw [h, List.getLast?_concat] at hc
  exact (Option.mem_some_iff.mp hc).symm

theorem IsChild.ne_empty {parent child : String} (h : IsChild parent child) : child ≠ "" := by
  rintro rfl
  obtain ⟨segment, -, h⟩ := h
  simp at h

theorem IsChild.count {parent child : String} (h : IsChild parent child) :
    child.toList.count '/' = parent.toList.count '/' + 1 := by
  obtain ⟨segment, hs, h⟩ := h
  rw [h, List.count_append, List.count_append, List.count_eq_zero_of_not_mem hs]
  rfl

theorem IsChild.parent_unique {p q child : String} (hp : IsChild p child) (hq : IsChild q child)
    (hpp : IsParent p) (hqp : IsParent q) : p = q := by
  obtain ⟨s, hs, hp⟩ := hp
  obtain ⟨t, ht, hq⟩ := hq
  have heq : p.toList ++ s = q.toList ++ t := List.append_cancel_right (hp.symm.trans hq)
  -- the longer of the two would end in a delimiter of the other's segment
  rcases List.append_eq_append_iff.mp heq with ⟨rest, hrest, hseg⟩ | ⟨rest, hrest, hseg⟩
  · rcases List.eq_nil_or_concat rest with rfl | ⟨init, c, rfl⟩
    · exact String.toList_inj.mp (by simpa using hrest.symm)
    · have hc : c = '/' := hqp c (by rw [hrest]; simp)
      exact absurd (by rw [hseg, ← hc]; simp) hs
  · rcases List.eq_nil_or_concat rest with rfl | ⟨init, c, rfl⟩
    · exact String.toList_inj.mp (by simpa using hrest)
    · have hc : c = '/' := hpp c (by rw [hrest]; simp)
      exact absurd (by rw [hseg, ← hc]; simp) ht

structure Discovery.Walked (d : Discovery) : Prop where
  distinct : (d.asked ++ d.queue).Nodup
  shallow : ∀ k ∈ d.asked ++ d.queue, k.toList.count '/' ≤ maxPrefixDepth
  parents : ∀ k ∈ d.asked ++ d.queue, IsParent k
  born : ∀ k ∈ d.asked ++ d.queue, k = "" ∨ ∃ p ∈ d.asked, IsChild p k
  siblings : d.best = [] ∨ ∃ p ∈ d.asked, ∀ b ∈ d.best, IsChild p b

section
variable {ε : Type} {list : Nat → DiscoveryRequest → Except ε DiscoveryPage} {bucket : String}
  {config : ScanConfig}

theorem Discovery.Walked.fresh {d : Discovery} (h : d.Walked) {k child : String}
    (hk : k ∈ d.queue) (hchild : IsChild k child) : child ∉ d.asked ++ d.queue := by
  intro hmem
  obtain hroot | ⟨p, hp, hpc⟩ := h.born child hmem
  · exact hchild.ne_empty hroot
  · have hpk : p = k := hpc.parent_unique hchild (h.parents p (List.mem_append_left _ hp))
      (h.parents k (List.mem_append_right _ hk))
    exact (List.nodup_append.mp h.distinct).2.2 p hp k hk hpk

theorem Discovery.Walked.turned {d d' : Discovery} (h : d.Walked)
    (ht : Turned config IsChild d d') : d'.Walked := by
  cases ht with
  | stop queue hsuffix =>
    have hsub : (d.asked ++ queue).Sublist (d.asked ++ d.queue) :=
      (List.append_sublist_append_left _).mpr hsuffix.sublist
    exact ⟨h.distinct.sublist hsub, fun k hk => h.shallow k (hsub.subset hk),
      fun k hk => h.parents k (hsub.subset hk), fun k hk => h.born k (hsub.subset hk), h.siblings⟩
  | fail keyPrefix queue used hq _ _ =>
    have hknown : (d.asked ++ [keyPrefix]) ++ queue = d.asked ++ d.queue := by simp [hq]
    exact
      { distinct := hknown ▸ h.distinct
        shallow := fun k hk => h.shallow k (hknown ▸ hk)
        parents := fun k hk => h.parents k (hknown ▸ hk)
        born := fun k hk => (h.born k (hknown ▸ hk)).imp_right fun ⟨p, hp, hpk⟩ =>
          ⟨p, List.mem_append_left _ hp, hpk⟩
        siblings := h.siblings.imp_right fun ⟨p, hp, hb⟩ => ⟨p, List.mem_append_left _ hp, hb⟩ }
  | list keyPrefix queue more children used ended hq _ _ hchildren hasc hmore =>
    have hknown : (d.asked ++ [keyPrefix]) ++ (queue ++ more) = (d.asked ++ d.queue) ++ more := by
      simp [hq]
    have hkq : keyPrefix ∈ d.queue := hq ▸ List.mem_cons_self
    have hnodup : more.Nodup := by
      rcases hmore with rfl | ⟨rfl, -⟩
      · exact List.nodup_nil
      · exact hasc.imp fun hlt => ne_of_lt hlt
    have hnew : ∀ k ∈ more, IsChild keyPrefix k ∧ keyPrefix.toList.count '/' < maxPrefixDepth := by
      intro k hk
      rcases hmore with rfl | ⟨rfl, hdepth⟩
      · exact absurd hk List.not_mem_nil
      · exact ⟨hchildren k hk, hdepth⟩
    refine ⟨?_, fun k hk => ?_, fun k hk => ?_, fun k hk => ?_, ?_⟩
    · show ((d.asked ++ [keyPrefix]) ++ (queue ++ more)).Nodup
      rw [hknown, List.nodup_append]
      refine ⟨h.distinct, hnodup, fun a ha b hb hab => ?_⟩
      exact h.fresh hkq (hnew b hb).1 (hab ▸ ha)
    · rcases List.mem_append.mp (hknown ▸ hk) with hk | hk
      · exact h.shallow k hk
      · rw [(hnew k hk).1.count]
        exact (hnew k hk).2
    · rcases List.mem_append.mp (hknown ▸ hk) with hk | hk
      · exact h.parents k hk
      · exact (hnew k hk).1.isParent
    · rcases List.mem_append.mp (hknown ▸ hk) with hk | hk
      · exact (h.born k hk).imp_right fun ⟨p, hp, hpk⟩ => ⟨p, List.mem_append_left _ hp, hpk⟩
      · exact .inr ⟨keyPrefix, List.mem_append_right _ (List.mem_singleton_self _), (hnew k hk).1⟩
    · simp only
      split
      · exact .inr ⟨keyPrefix, List.mem_append_right _ (List.mem_singleton_self _), hchildren⟩
      · exact h.siblings.imp_right fun ⟨p, hp, hb⟩ => ⟨p, List.mem_append_left _ hp, hb⟩

theorem Discovery.length_asked {d d' : Discovery} {P : String → String → Prop}
    (h : d.asked.length ≤ d.used) (ht : Turned config P d d') : d'.asked.length ≤ d'.used := by
  cases ht with
  | stop queue _ => exact h
  | fail keyPrefix queue used _ hlt _ =>
    simp only [List.length_append, List.length_singleton]
    omega
  | list keyPrefix queue more children used ended _ hlt =>
    simp only [List.length_append, List.length_singleton]
    omega

/-- Against an origin that lists a tree the walk never spends a request on a prefix it has had or
on one more than eight levels down, and its candidates are children of one of the prefixes. -/
theorem discovery_asks_once (hlist : Lists list IsChild) (config : ScanConfig) :
    let d := discover list bucket config.bounded
    d.asked.Nodup ∧ d.asked.length ≤ d.used ∧ d.used ≤ min config.discoveryBudget 64 ∧
    (∀ k ∈ d.asked, k.toList.count '/' ≤ 8 ∧ (k = "" ∨ ∃ p ∈ d.asked, IsChild p k)) ∧
    (d.best = [] ∨ ∃ p ∈ d.asked, ∀ b ∈ d.best, IsChild p b) := by
  intro d
  have hwalked : d.Walked := by
    refine discover_keeps hlist (fun _ _ _ h => h.turned) ?_ ?_
    · exact ⟨.nil, fun _ h => absurd h List.not_mem_nil, fun _ h => absurd h List.not_mem_nil,
        fun _ h => absurd h List.not_mem_nil, .inl rfl⟩
    · refine ⟨List.nodup_singleton _, ?_, ?_, ?_, .inl rfl⟩ <;>
        intro k hk <;> obtain rfl := List.mem_singleton.mp hk
      · exact Nat.zero_le _
      · intro c hc
        cases hc
      · exact .inl rfl
  have hlength : d.asked.length ≤ d.used :=
    discover_keeps (I := fun d => d.asked.length ≤ d.used) hlist
      (fun _ _ _ => Discovery.length_asked) le_rfl le_rfl
  have hsub : ∀ k ∈ d.asked, k ∈ d.asked ++ d.queue := fun k hk => List.mem_append_left _ hk
  exact ⟨(List.nodup_append.mp hwalked.distinct).1, hlength, discover_within.used,
    fun k hk => ⟨hwalked.shallow k (hsub k hk), hwalked.born k (hsub k hk)⟩, hwalked.siblings⟩

end

theorem sampleTree_lists : Lists sampleTree IsChild := by
  intro used request page h child hchild
  unfold sampleTree at h
  split at h
  · next hroot =>
    rw [hroot]
    cases h
    split at hchild
    · obtain rfl : child = "m/" := by simpa using hchild
      exact ⟨['m'], by decide, by decide⟩
    · have hone : child = "c/" ∨ child = "m/" := by simpa using hchild
      obtain rfl | rfl := hone
      · exact ⟨['c'], by decide, by decide⟩
      · exact ⟨['m'], by decide, by decide⟩
  · cases h

theorem discovery_asks_once_sample :
    (discover sampleTree "b" (ScanConfig.mk 3 4).bounded).asked = ["", "c/"] ∧
    (discover sampleTree "b" (ScanConfig.mk 3 4).bounded).asked.Nodup :=
  ⟨by decide +kernel, (discovery_asks_once sampleTree_lists ⟨3, 4⟩).1⟩

end S3Cache.Index

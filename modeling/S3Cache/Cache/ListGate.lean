import S3Cache.Lib.Machine
import S3Cache.Fleet.Counters
import S3Cache.Index.ListPage
import S3Cache.Sync.Recovery

/-! LIST handlers of a replicated node (`cache/service.rs`) against the feed's gaps
(`sync/coherence.rs`), the recovery and the removal of buckets.  A gap discards the index and then
signals the recovery, which closes the gate and moves its generation on; the gate opens again once
a rebuild or an install has gone through. -/

namespace S3Cache.Cache

open Index Fleet Sync

structure LocalReadFence where
  recoveryGeneration : Nat
  bodyGeneration : Nat

structure ListRequest where
  input : ListObjectsV2Input
  resumeAfter : Option String

/-- `held` is the bucket the page was computed from.  `removed` says that the bucket was removed
after the handler's test of it, and `gap` that the page was computed between a gap's discard and
its signal. -/
inductive ListPhase where
  | idle
  | started (fence : LocalReadFence)
  | tested (fence : LocalReadFence) (removed : Bool)
  | fresh (fence : LocalReadFence) (removed : Bool)
  | paged (fence : LocalReadFence) (removed gap : Bool) (held : Option BucketState)
      (output : ListObjectsV2Output)
  | answered (held : Option BucketState) (output : ListObjectsV2Output)
  | forwarded

namespace ListPhase

def answer : ListPhase → Option (Option BucketState × ListObjectsV2Output)
  | answered held output => some (held, output)
  | _ => none

theorem eq_answered {p : ListPhase} {held : Option BucketState} {output : ListObjectsV2Output}
    (h : p.answer = some (held, output)) : p = .answered held output := by
  cases p with
  | answered => cases h; rfl
  | _ => cases h

def markRemoved (now : Bool) : ListPhase → ListPhase
  | tested fence removed => tested fence (removed || now)
  | fresh fence removed => fresh fence (removed || now)
  | p => p

theorem markRemoved_false (p : ListPhase) : p.markRemoved false = p := by
  cases p with
  | tested | fresh => simp [markRemoved]
  | _ => rfl

def doubtful (unsignalled : Bool) : ListPhase → Bool
  | paged _ removed gap _ _ => removed || gap && unsignalled
  | _ => false

end ListPhase

inductive Recovery where
  | serving
  | waiting
  | beginning (todo : List String) (begun : List (String × Nat))
  | scanning (todo : List (String × Nat))
  | ready

namespace Recovery

def mayServe : Recovery → Bool
  | serving => true
  | _ => false

def Owes (name : String) : Recovery → Prop
  | serving | ready => False
  | waiting => True
  | beginning todo begun => name ∈ todo ∨ name ∈ begun.map Prod.fst
  | scanning todo => name ∈ todo.map Prod.fst

theorem eq_serving : {r : Recovery} → r.mayServe = true → r = serving
  | serving, _ => rfl

end Recovery

structure ListNode (ι : Type) where
  index : KeyIndexState := {}
  generation : Nat := 0
  recovery : Recovery := .waiting
  bodyGeneration : Nat := 1
  gap : Bool := false
  phase : ι → ListPhase := fun _ => .idle

inductive HandlerStep where
  | start
  | isSynced
  | barrier (allowed : Bool)
  | page
  | gate (modeAllows : Bool)

inductive ListStep (ι : Type) where
  | handler (i : ι) (h : HandlerStep)
  | discard (missedThrough : NativeCut)
  | signal
  | distrust
  | attempt
  | beginNext
  | fold (rows : List (String × ObjEntry))
  | finishNext
  | abandon
  | install (stage : Option KeyIndexState) (cuts : List NativeCut) (names : List String)
      (maxRows : Nat)
  | reopen
  | removeBucket (bucket : String)
  | call (c : IndexCall)

def ListStep.removes {ι : Type} (name : String) : ListStep ι → Bool
  | .removeBucket bucket => bucket = name
  | _ => false

def ordinary : IndexCall → Bool
  | .gap _ | .resync _ | .page _ _ _ | .finish _ _ | .removeBucket _ => false
  | _ => true

namespace ListNode

variable {ι : Type}

def handle [TokenText] (s : ListNode ι) (r : ListRequest) :
    HandlerStep → ListPhase → Option ListPhase
  | .start, .idle => some (.started ⟨s.generation, s.bodyGeneration⟩)
  | .isSynced, .started f =>
    some (if (s.index.bucket r.input.bucket).synced then .tested f false else .forwarded)
  | .barrier allowed, .tested f removed =>
    some (if s.recovery.mayServe && allowed then .fresh f removed else .forwarded)
  | .page, .fresh f removed =>
    match s.index.listFromIndex r.input r.resumeAfter with
    | some output => some (.paged f removed s.gap s.index.buckets[r.input.bucket]? output)
    | none => some .forwarded
  | .gate modeAllows, .paged f _ _ held output =>
    some (if s.bodyGeneration = f.bodyGeneration ∧ s.recovery.mayServe = true ∧
        s.generation = f.recoveryGeneration ∧ modeAllows = true then .answered held output
      else .forwarded)
  | _, _ => none

section
variable [DecidableEq ι]

def setPhase (s : ListNode ι) (i : ι) (p : ListPhase) : ListNode ι :=
  { s with phase := Function.update s.phase i p }

variable [Layout] [TokenText] (req : ι → ListRequest) (configured : List String)
  (alignCuts : CutAligner)

def step (s : ListNode ι) : ListStep ι → Option (ListNode ι)
  | .handler i h => (s.handle (req i) h (s.phase i)).map (s.setPhase i)
  | .discard missedThrough =>
    if s.gap then none else some { s with index := s.index.discardForGap missedThrough, gap := true }
  | .signal =>
    some { s with generation := s.generation + 1, recovery := .waiting, gap := false }
  | .distrust => some { s with bodyGeneration := s.bodyGeneration + 1 }
  | .attempt =>
    match s.recovery with
    | .waiting =>
      some { s with
        recovery := (recoveryBuckets configured s.index).elim .waiting (.beginning · []) }
    | _ => none
  | .beginNext =>
    match s.recovery with
    | .beginning (name :: todo) begun =>
      let (generation, index) := s.index.beginBucketResync name
      some { s with index, recovery := .beginning todo (begun ++ [(name, generation)]) }
    | .beginning [] begun => some { s with recovery := .scanning begun }
    | _ => none
  | .fold rows =>
    match s.recovery with
    | .scanning ((name, generation) :: todo) =>
      let (kept, index) := s.index.syncListingIntoGeneration name generation rows
      some { s with
        index
        recovery := if kept.isSome then .scanning ((name, generation) :: todo) else .waiting }
    | _ => none
  | .finishNext =>
    match s.recovery with
    | .scanning ((name, generation) :: todo) =>
      let (finished, index) := s.index.finishBucketSyncGeneration name generation
      some { s with index, recovery := if finished then .scanning todo else .waiting }
    | .scanning [] => some { s with recovery := .ready }
    | _ => none
  | .abandon =>
    match s.recovery with
    | .serving => none
    | _ => some { s with recovery := .waiting }
  | .install stage cuts names maxRows =>
    match s.recovery with
    | .waiting =>
      let r := installFleetCandidate alignCuts s.index stage cuts names maxRows
      some { s with index := r.2.1, recovery := if r.1 = .ok () then .ready else .waiting }
    | _ => none
  | .reopen =>
    match s.recovery with
    | .ready => some { s with recovery := .serving }
    | _ => none
  | .removeBucket bucket =>
    some { s with
      index := s.index.removeBucket bucket
      phase := fun i => (s.phase i).markRemoved (bucket = (req i).input.bucket) }
  | .call c => if ordinary c then (s.index.step c).map ({ s with index := · }) else none

/-- The final gate is not tested for a page that was computed after the removal of its bucket,
and not between a gap's discard and its signal for a page computed there as well. -/
def Careful (s : ListNode ι) : ListStep ι → Prop
  | .handler i (.gate _) => (s.phase i).doubtful s.gap = false
  | _ => True

instance decidableCareful (s : ListNode ι) : (a : ListStep ι) → Decidable (s.Careful a)
  | .handler _ (.gate _) => inferInstanceAs (Decidable (_ = _))
  | .handler _ .start | .handler _ .isSynced | .handler _ (.barrier _) | .handler _ .page
  | .discard _ | .signal | .distrust | .attempt | .beginNext | .fold _ | .finishNext | .abandon
  | .install _ _ _ _ | .reopen | .removeBucket _ | .call _ => isTrue trivial

end

def Complete [TokenText] (r : ListRequest) (held : Option BucketState)
    (output : ListObjectsV2Output) : Prop :=
  ∃ b, held = some b ∧ b.synced = true ∧ b.uncertainKeys = ∅ ∧
    listObjectsV2FromIndex (some b.keys) r.input r.resumeAfter = some output

def Tracked (s : ListNode ι) (name : String) : Prop :=
  s.index.Holds name ∧ ((s.index.bucket name).synced = true ∨ s.recovery.Owes name)

section
variable {s s' : ListNode ι} {name : String}

theorem holds_of_synced {s : KeyIndexState} (h : (s.bucket name).synced = true) :
    s.Holds name := by
  rw [KeyIndexState.bucket] at h
  rw [KeyIndexState.Holds]
  cases hb : s.buckets[name]? with
  | none =>
    rw [hb] at h
    cases h
  | some => rfl

theorem Tracked.of_synced (h : (s.index.bucket name).synced = true) : s.Tracked name :=
  ⟨holds_of_synced h, .inl h⟩

theorem synced_of_ordinary [Layout] {s s' : KeyIndexState} {c : IndexCall} (hc : ordinary c = true)
    (h : s.step c = some s') (name : String) :
    (s'.bucket name).synced = (s.bucket name).synced := by
  cases turned_of_step h name with
  | same _ hcount => exact congrArg (·.1) hcount
  | advance _ hadv =>
    rcases hadv with rfl | ⟨-, cut, rfl⟩ <;> cases hc
  | fence _ _ _ hcount => exact congrArg (·.1) hcount
  | finish => cases hc
  | remove => cases hc

end

section
variable [DecidableEq ι] [Layout] [TokenText] {req : ι → ListRequest} {configured : List String}
  {alignCuts : CutAligner} {s s' : ListNode ι} {name : String}

theorem Tracked.step {a : ListStep ι} (h : s.Tracked name)
    (hs : s.step req configured alignCuts a = some s') (hgen : s'.generation = s.generation)
    (hkeep : a ≠ .removeBucket name) : s'.gap = true ∨ s'.Tracked name := by
  obtain ⟨hholds, howes⟩ := h
  cases a with
  | handler i a =>
    obtain ⟨p, -, rfl⟩ := Option.map_eq_some_iff.mp hs
    exact .inr ⟨hholds, howes⟩
  | discard cut =>
    obtain ⟨-, hs⟩ := Option.ite_none_left_eq_some.mp hs
    cases hs
    exact .inl rfl
  | signal =>
    cases hs
    exact absurd hgen (Nat.succ_ne_self _)
  | distrust =>
    cases hs
    exact .inr ⟨hholds, howes⟩
  | attempt =>
    simp only [ListNode.step] at hs
    split at hs
    · cases hs
      refine .inr ⟨hholds, .inr ?_⟩
      cases hnames : recoveryBuckets configured s.index with
      | none => trivial
      | some names => exact .inl ((mem_recoveryBuckets hnames).mpr (.inr hholds))
    · cases hs
  | beginNext =>
    simp only [ListNode.step] at hs
    split at hs
    · next n todo begun hr =>
      cases hs
      rw [hr] at howes
      refine .inr ⟨hholds.step (c := .resync n) rfl nofun, ?_⟩
      rw [Recovery.Owes, KeyIndexState.bucket_begin, List.map_append, List.mem_append]
      by_cases hn : n = name
      · exact .inr (.inr (.inr (by simp [hn])))
      · rw [if_neg hn]
        rcases howes with hsync | hin | hin
        · exact .inl hsync
        · exact .inr (.inl ((List.mem_cons.mp hin).resolve_left (Ne.symm hn)))
        · exact .inr (.inr (.inl hin))
    · next begun hr =>
      cases hs
      rw [hr] at howes
      exact .inr ⟨hholds, howes.imp_right fun hin => hin.resolve_left nofun⟩
    · cases hs
  | fold rows =>
    simp only [ListNode.step] at hs
    split at hs
    · next n g todo hr =>
      cases hs
      rw [hr] at howes
      refine .inr ⟨hholds.step (c := .page n g rows) rfl nofun, ?_⟩
      have hsame : ((s.index.syncListingIntoGeneration n g rows).2.bucket name).synced =
          (s.index.bucket name).synced := by
        rw [KeyIndexState.bucket_page]
        split
        · exact congrArg (·.1) (BucketState.counters_afterPage g rows)
        · rfl
      dsimp only
      rw [hsame]
      split
      · exact howes
      · exact .inr trivial
    · cases hs
  | finishNext =>
    simp only [ListNode.step] at hs
    split at hs
    · next n g todo hr =>
      cases hs
      rw [hr] at howes
      refine .inr ⟨hholds.step (c := .finish n g) rfl nofun, ?_⟩
      dsimp only
      split
      · next hok =>
        rw [KeyIndexState.bucket_finish]
        by_cases hn : n = name
        · rw [KeyIndexState.finishBucketSyncGeneration_fst, hn] at hok
          rw [if_pos hn, BucketState.afterFinish, if_pos hok]
          exact .inl rfl
        · rw [if_neg hn]
          exact howes.imp_right fun hin => (List.mem_cons.mp hin).resolve_left (Ne.symm hn)
      · exact .inr trivial
    · next hr =>
      cases hs
      rw [hr] at howes
      exact .inr ⟨hholds, .inl (howes.resolve_right List.not_mem_nil)⟩
    · cases hs
  | abandon =>
    simp only [ListNode.step] at hs
    split at hs
    · cases hs
    · cases hs
      exact .inr ⟨hholds, .inr trivial⟩
  | install stage cuts names maxRows =>
    simp only [ListNode.step] at hs
    split at hs
    · cases hs
      rcases bucket_install alignCuts s.index stage cuts names maxRows name with
        ⟨hne, he⟩ | ⟨-, ⟨hn, -⟩ | ha⟩
      · rw [if_neg hne, he]
        exact .inr ⟨hholds, .inr trivial⟩
      · rw [KeyIndexState.Holds, hn] at hholds
        cases hholds
      · exact .inr (.of_synced ha.synced)
    · cases hs
  | reopen =>
    simp only [ListNode.step] at hs
    split at hs
    · next hr =>
      cases hs
      rw [hr] at howes
      exact .inr ⟨hholds, .inl (howes.resolve_right id)⟩
    · cases hs
  | removeBucket b =>
    cases hs
    have hb : b ≠ name := fun he => hkeep (by rw [he])
    refine .inr ⟨hholds.step (c := .removeBucket b) rfl fun he => hb (IndexCall.removeBucket.inj he),
      ?_⟩
    rwa [KeyIndexState.bucket_removeBucket, if_neg hb]
  | call c =>
    obtain ⟨hc, hs⟩ := Option.ite_none_right_eq_some.mp hs
    obtain ⟨index, hstep, rfl⟩ := Option.map_eq_some_iff.mp hs
    refine .inr ⟨hholds.step hstep ?_, by rwa [synced_of_ordinary hc hstep name]⟩
    rintro rfl
    cases hc

/-- What holds of a handler in each phase.  Once the generation has moved on from the one it
captured, its final gate stays shut. -/
def Sound (s : ListNode ι) (r : ListRequest) : ListPhase → Prop
  | .idle | .forwarded => True
  | .started f => f.recoveryGeneration ≤ s.generation
  | .tested f removed => f.recoveryGeneration ≤ s.generation ∧
      (f.recoveryGeneration = s.generation →
        removed = true ∨ s.gap = true ∨ s.Tracked r.input.bucket)
  | .fresh f removed => f.recoveryGeneration ≤ s.generation ∧
      (f.recoveryGeneration = s.generation → s.recovery = .serving ∧
        (removed = true ∨ s.gap = true ∨ s.Tracked r.input.bucket))
  | .paged f removed gap held output => f.recoveryGeneration ≤ s.generation ∧
      (f.recoveryGeneration = s.generation →
        removed = true ∨ (gap = true ∧ s.gap = true) ∨ Complete r held output)
  | .answered held output => Complete r held output

omit [DecidableEq ι] [Layout] in
theorem complete_of_list {r : ListRequest} {output : ListObjectsV2Output}
    (hsync : (s.index.bucket r.input.bucket).synced = true)
    (hlist : s.index.listFromIndex r.input r.resumeAfter = some output) :
    Complete r s.index.buckets[r.input.bucket]? output := by
  obtain ⟨b, hb⟩ := Option.isSome_iff_exists.mp (holds_of_synced hsync)
  rw [KeyIndexState.bucket, hb] at hsync
  rw [KeyIndexState.listFromIndex, hb] at hlist
  obtain ⟨hfenced, hlist⟩ := Option.ite_none_left_eq_some.mp hlist
  refine ⟨b, hb, hsync, ?_, hlist⟩
  simpa [Std.ExtTreeMap.isEmpty_iff] using hfenced

omit [DecidableEq ι] [Layout] in
theorem Sound.handle {r : ListRequest} {a : HandlerStep} {p p' : ListPhase} (h : s.Sound r p)
    (hgap : ∀ modeAllows, a = .gate modeAllows → p.doubtful s.gap = false)
    (ha : s.handle r a p = some p') : s.Sound r p' := by
  unfold ListNode.handle at ha
  split at ha
  · cases ha
    exact le_rfl
  · cases ha
    split
    · next hsync => exact ⟨h, fun _ => .inr (.inr (.of_synced hsync))⟩
    · trivial
  · cases ha
    split
    · next hserve =>
      have hserve := Recovery.eq_serving (Bool.and_eq_true_iff.mp hserve).1
      exact ⟨h.1, fun he => ⟨hserve, h.2 he⟩⟩
    · trivial
  · split at ha
    · next hlist =>
      cases ha
      refine ⟨h.1, fun he => ?_⟩
      obtain ⟨hserve, hremoved | hgap | ⟨-, hsync⟩⟩ := h.2 he
      · exact .inl hremoved
      · exact .inr (.inl ⟨hgap, hgap⟩)
      · rw [hserve] at hsync
        exact .inr (.inr (complete_of_list (hsync.resolve_right id) hlist))
    · cases ha
      trivial
  · next modeAllows f removed gap held output =>
    cases ha
    split
    · next hpass =>
      have hdoubt : (removed || gap && s.gap) = false := hgap _ rfl
      rcases h.2 hpass.2.2.1.symm with hr | ⟨hg, hs⟩ | hc
      · simp [hr] at hdoubt
      · simp [hg, hs] at hdoubt
      · exact hc
    · trivial
  · cases ha

theorem step_frame {a : ListStep ι} (ha : ∀ i h, a ≠ .handler i h)
    (hs : s.step req configured alignCuts a = some s') :
    (∀ i, s'.phase i = (s.phase i).markRemoved (a.removes (req i).input.bucket)) ∧
    s.generation ≤ s'.generation ∧ (s'.generation = s.generation →
      (s.gap = true → s'.gap = true) ∧ (s.recovery = .serving → s'.recovery = .serving)) := by
  have hphase : ∀ i, (s.phase i).markRemoved false = s.phase i :=
    fun i => (s.phase i).markRemoved_false
  -- a step of the recovery is not one of a serving node
  have hquiet : ∀ {t : ListNode ι} {r : Recovery}, s.recovery = r → r ≠ .serving →
      t.phase = s.phase → t.generation = s.generation → t.gap = s.gap →
      (∀ i, t.phase i = (s.phase i).markRemoved false) ∧
      s.generation ≤ t.generation ∧ (t.generation = s.generation →
        (s.gap = true → t.gap = true) ∧ (s.recovery = .serving → t.recovery = .serving)) :=
    fun hr hne hp hg hgap => ⟨fun i => by rw [hphase, hp], hg.ge,
      fun _ => ⟨hgap ▸ id, fun hs => absurd (hr.symm.trans hs) hne⟩⟩
  cases a with
  | handler i h => exact absurd rfl (ha i h)
  | discard cut =>
    obtain ⟨-, hs⟩ := Option.ite_none_left_eq_some.mp hs
    cases hs
    exact ⟨fun i => (hphase i).symm, le_rfl, fun _ => ⟨fun _ => rfl, id⟩⟩
  | signal =>
    cases hs
    exact ⟨fun i => (hphase i).symm, Nat.le_succ _, fun he => absurd he (Nat.succ_ne_self _)⟩
  | distrust =>
    cases hs
    exact ⟨fun i => (hphase i).symm, le_rfl, fun _ => ⟨id, id⟩⟩
  | attempt =>
    simp only [ListNode.step] at hs
    split at hs
    · next hr => cases hs; exact hquiet hr nofun rfl rfl rfl
    · cases hs
  | beginNext =>
    simp only [ListNode.step] at hs
    split at hs
    · next hr => cases hs; exact hquiet hr nofun rfl rfl rfl
    · next hr => cases hs; exact hquiet hr nofun rfl rfl rfl
    · cases hs
  | fold rows =>
    simp only [ListNode.step] at hs
    split at hs
    · next hr => cases hs; exact hquiet hr nofun rfl rfl rfl
    · cases hs
  | finishNext =>
    simp only [ListNode.step] at hs
    split at hs
    · next hr => cases hs; exact hquiet hr nofun rfl rfl rfl
    · next hr => cases hs; exact hquiet hr nofun rfl rfl rfl
    · cases hs
  | abandon =>
    simp only [ListNode.step] at hs
    split at hs
    · cases hs
    · next hr => cases hs; exact hquiet rfl hr rfl rfl rfl
  | install stage cuts names maxRows =>
    simp only [ListNode.step] at hs
    split at hs
    · next hr => cases hs; exact hquiet hr nofun rfl rfl rfl
    · cases hs
  | reopen =>
    simp only [ListNode.step] at hs
    split at hs
    · next hr => cases hs; exact hquiet hr nofun rfl rfl rfl
    · cases hs
  | removeBucket b =>
    cases hs
    exact ⟨fun _ => rfl, le_rfl, fun _ => ⟨id, id⟩⟩
  | call c =>
    obtain ⟨-, hs⟩ := Option.ite_none_right_eq_some.mp hs
    obtain ⟨index, -, rfl⟩ := Option.map_eq_some_iff.mp hs
    exact ⟨fun i => (hphase i).symm, le_rfl, fun _ => ⟨id, id⟩⟩

theorem Sound.frame {a : ListStep ι} {r : ListRequest} {p : ListPhase} (h : s.Sound r p)
    (ha : ∀ i h, a ≠ .handler i h) (hs : s.step req configured alignCuts a = some s') :
    s'.Sound r (p.markRemoved (a.removes r.input.bucket)) := by
  obtain ⟨-, hle, hsame⟩ := step_frame ha hs
  -- a handler of this generation was one of it before the step
  have hback : ∀ {f : LocalReadFence}, f.recoveryGeneration ≤ s.generation →
      f.recoveryGeneration = s'.generation →
      f.recoveryGeneration = s.generation ∧ s'.generation = s.generation := by
    intro f hf he
    omega
  have htrack : ∀ {removed : Bool}, s'.generation = s.generation →
      removed = true ∨ s.gap = true ∨ s.Tracked r.input.bucket →
      (removed || a.removes r.input.bucket) = true ∨ s'.gap = true ∨
        s'.Tracked r.input.bucket := by
    rintro removed he (hr | hg | ht)
    · exact .inl (by rw [hr]; rfl)
    · exact .inr (.inl ((hsame he).1 hg))
    · by_cases hremove : a = .removeBucket r.input.bucket
      · exact .inl (by simp [hremove, ListStep.removes])
      · exact .inr (ht.step hs he hremove)
  cases p with
  | idle => trivial
  | forwarded => trivial
  | started f => exact (show _ ≤ _ from h).trans hle
  | tested f removed =>
    refine ⟨h.1.trans hle, fun he => ?_⟩
    obtain ⟨he, hgen⟩ := hback h.1 he
    exact htrack hgen (h.2 he)
  | fresh f removed =>
    refine ⟨h.1.trans hle, fun he => ?_⟩
    obtain ⟨he, hgen⟩ := hback h.1 he
    exact ⟨(hsame hgen).2 (h.2 he).1, htrack hgen (h.2 he).2⟩
  | paged f removed gap held output =>
    refine ⟨h.1.trans hle, fun he => ?_⟩
    obtain ⟨he, hgen⟩ := hback h.1 he
    exact (h.2 he).imp_right fun h => h.imp_left fun hg => ⟨hg.1, (hsame hgen).1 hg.2⟩
  | answered => exact h

theorem sound_step {a : ListStep ι} (h : ∀ i, s.Sound (req i) (s.phase i))
    (hok : s.Careful a) (hs : s.step req configured alignCuts a = some s') (i : ι) :
    s'.Sound (req i) (s'.phase i) := by
  by_cases ha : ∃ j b, a = .handler j b
  · obtain ⟨j, b, rfl⟩ := ha
    obtain ⟨p, hp, rfl⟩ := Option.map_eq_some_iff.mp hs
    refine (Function.forall_update_iff s.phase (p := fun i p => s.Sound (req i) p)).mpr
      ⟨?_, fun k _ => h k⟩ i
    refine (h j).handle ?_ hp
    rintro modeAllows rfl
    exact hok
  · push Not at ha
    rw [(step_frame ha hs).1]
    exact (h i).frame ha hs

theorem answered_from_complete {s₀ : ListNode ι} {l : List (ListStep ι)}
    (hstart : ∀ i, s₀.phase i = .idle)
    (hrun : Machine.Runs (step req configured alignCuts) Careful s₀ l s) {i : ι}
    {held : Option BucketState} {output : ListObjectsV2Output}
    (hanswer : s.phase i = .answered held output) : Complete (req i) held output := by
  have hsound := hrun.keeps (P := fun s => ∀ i, s.Sound (req i) (s.phase i))
    (fun s a t h hok hs => sound_step h hok hs) (fun i => by rw [hstart i]; trivial) i
  rwa [hanswer] at hsound

end

end ListNode

section Sample
local instance listGateLayout : Layout := sampleLayout
local instance listGateTokens : TokenText := ⟨(·.cursor)⟩

def sampleRequest : Unit → ListRequest := fun _ => ⟨{ bucket := "b" }, none⟩

abbrev sampleListStep : ListNode Unit → ListStep Unit → Option (ListNode Unit) :=
  ListNode.step sampleRequest ["b"] fun _ _ => ⟨.exact, none⟩

def sampleServing : ListNode Unit :=
  (Machine.run sampleListStep {} [.attempt, .beginNext, .beginNext, .fold [("k", sampleRow 1)],
    .finishNext, .finishNext, .reopen]).get (by decide +kernel)

def sampleListed : ListNode Unit :=
  (Machine.run (Machine.guarded sampleListStep ListNode.Careful) sampleServing
    [.handler () .start, .handler () .isSynced, .handler () (.barrier true), .handler () .page,
      .discard ⟨[1], 1, 1⟩, .handler () (.gate true)]).get (by decide +kernel)

theorem answered_from_complete_sample :
    ∃ held output, sampleListed.phase () = .answered held output ∧
      output.contents.map (·.map (·.key)) = some ["k"] ∧
      ListNode.Complete (sampleRequest ()) held output := by
  obtain ⟨⟨held, output⟩, hx⟩ := Option.isSome_iff_exists.mp
    (show (sampleListed.phase ()).answer.isSome = true by decide +kernel)
  have hkeys : (sampleListed.phase ()).answer.bind (·.2.contents.map (·.map (·.key))) =
    some ["k"] := by decide +kernel
  rw [hx] at hkeys
  have hanswer := ListPhase.eq_answered hx
  exact ⟨held, output, hanswer, hkeys,
    ListNode.answered_from_complete (fun _ => rfl)
      (Machine.runs_of_run_guarded (Option.some_get _).symm) hanswer⟩

def sampleGapped : ListNode Unit :=
  (Machine.run sampleListStep sampleServing
    [.handler () .start, .handler () .isSynced, .handler () (.barrier true),
      .discard ⟨[1], 1, 1⟩, .handler () .page, .handler () (.gate true)]).get (by decide +kernel)

def sampleRemoved : ListNode Unit :=
  (Machine.run sampleListStep sampleServing
    [.handler () .start, .handler () .isSynced, .handler () (.barrier true),
      .removeBucket "b", .handler () .page, .handler () (.gate true)]).get (by decide +kernel)

theorem empty_page_answered :
    ((sampleServing.index.bucket "b").keys.get "k").isSome = true ∧
    (sampleGapped.phase ()).answer.map (fun (held, output) =>
      (held.map (·.synced), output.contents, output.isTruncated)) =
        some (some false, none, false) ∧
    (sampleRemoved.phase ()).answer.map (fun (held, output) =>
      (held.map (·.synced), output.contents, output.isTruncated)) =
        some (none, none, false) := by
  decide +kernel

end Sample

end S3Cache.Cache

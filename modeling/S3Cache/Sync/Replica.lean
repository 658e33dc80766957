import S3Cache.Fleet.Coverage
import S3Cache.Fleet.Calls
import S3Cache.Index.Rebuild
import S3Cache.Sync.Lives

/-! A node that applies its peers' feeds (`sync/coherence.rs`) through their restarts and through
gaps, while it writes to its own feed and its recovery rebuilds the index from the origin.  The
loop takes up one item at a time; its effects come one by one, with the rest of the node in
between. -/

namespace S3Cache.Sync

open Index Fleet KeyIndexState Utf8 Fallible

/-! ### The apply loop -/

structure Renewal where
  sealed : WriteToken
  epoch : Nat
  deriving DecidableEq

structure Crossing where
  renewal : Option Renewal := none
  sealed : Option WriteToken := none
  deriving DecidableEq

inductive ApplyEffect where
  | noteNativeSeal (token : WriteToken)
  | renewNativeWriter (sealed : WriteToken) (epoch : Nat)
  | applyFeedIndex (token : WriteToken) (event : IndexEvent)
  | discardForGap (missedThrough : WriteToken)
  | observeSeal (token : WriteToken)
  | observeRenewal (sealed : WriteToken) (epoch : Nat)
  | forgetCrossing
  | invalidateHot (token : WriteToken)
  | feedGap
  | advance (token : WriteToken)

def PeerWrite.arm : PeerWrite → List ApplyEffect
  | sealed token => [.noteNativeSeal token, .observeSeal token, .advance token]
  | renewed last epoch =>
    [.renewNativeWriter last epoch, .observeRenewal last epoch, .advance ⟨epoch, 0⟩]
  | wrote token event => [.applyFeedIndex token event, .invalidateHot token, .advance token]
  | gap missedThrough =>
    [.forgetCrossing, .discardForGap missedThrough, .feedGap, .advance missedThrough]

def eventCall [ETagParser] (peer : String) (token : WriteToken) (event : IndexEvent) : IndexCall :=
  let ts := fromMicros event.tsUs
  let cut := nativeCut peer token
  if event.op.describesNothing then .fenceNative event.bucket event.key cut
  else
    match event.op with
    | .put size etag contentType storageClass =>
      .put event.bucket event.key (eventEntry ts size etag contentType storageClass) (some cut)
    | .del => .del event.bucket event.key ts (some cut)

theorem step_eventCall [ETagParser] [Layout] (s : KeyIndexState) (peer : String)
    (token : WriteToken) (event : IndexEvent) :
    s.step (eventCall peer token event) = (applyFeedIndex s peer token event).map (·.2) := by
  unfold eventCall applyFeedIndex
  dsimp only
  split
  · rfl
  · cases event.op <;> rfl

def unknownEvent (bucket key : String) (tsUs : UInt64) : IndexEvent := ⟨.unknown, bucket, key, tsUs⟩

inductive Folds [ETagParser] (writer : String) (token : WriteToken) :
    IndexEvent → IndexCall → Prop
  | peer (event : IndexEvent) : Folds writer token event (eventCall writer token event)
  | put (bucket key : String) (entry : ObjEntry) : Folds writer token (putEvent bucket key entry)
      (.put bucket key entry (some (nativeCut writer token)))
  | del (bucket key : String) (ts : SystemTime) : Folds writer token (delEvent bucket key ts)
      (.del bucket key ts (some (nativeCut writer token)))
  | unknown (bucket key : String) (tsUs : UInt64) :
      Folds writer token (unknownEvent bucket key tsUs)
        (.fenceOwn bucket key (nativeCut writer token))

def takes (s : KeyIndexState) : IndexCall → Bool
  | .put _ _ _ cut | .del _ _ _ cut => (s.noteIdentity (cut.map .native)).1
  | .noteSeal cut | .fenceNative _ _ cut => (s.noteNativeCut cut).1
  | _ => true

/-! ### The node -/

structure Rebuild where
  writers : String → Writer
  index : KeyIndexState
  calls : List FleetCall := []

structure Replica where
  me : String
  writers : String → Writer
  index : KeyIndexState
  cursor : String → WriteToken
  loop : Option (String × PeerWrite × Nat) := none
  frontier : String → Option WriteToken := fun _ => none
  crossings : String → Crossing := fun _ => {}
  generation : Nat := 0
  mayServe : Bool := false
  bodyGeneration : Nat := 1
  rebuilt : String → Option Rebuild := fun _ => none

inductive ReplicaStep where
  | publish (node : String) (event : IndexEvent)
  | sealFeed (node : String)
  | restart (node : String) (epoch : Nat)
  | ownPut (bucket key : String) (entry : ObjEntry)
  | ownDel (bucket key : String) (ts : SystemTime)
  | ownUnknown (bucket key : String) (tsUs : UInt64)
  | take (peer : String) (item : PeerWrite)
  | work
  | call (c : FleetCall)
  | lapse
  | distrust
  | reopen

def FleetCall.plain : FleetCall → Bool
  | .call c => (IndexCall.writer c).isNone
  | .capture _ _ _ _ => true
  | .install _ _ _ _ => false

namespace Replica

/-- The node's boot: copies that outlived the process are suspect, and every feed is taken up from
the start of the life its writer is in. -/
def start (me : String) (writers : String → Writer) : Replica where
  me
  writers
  index := ({} : KeyIndexState).registerNativeWriter (writers me).life.feed.ownPosition
  cursor p := if p = me then (writers p).last else ⟨(writers p).life.feed.epoch, 0⟩

def setWriter (r : Replica) (node : String) (w : Writer) : Replica :=
  { r with writers := Function.update r.writers node w }

def setOwn (r : Replica) (w : Writer) : Replica :=
  { r.setWriter r.me w with cursor := Function.update r.cursor r.me w.last }

def rebuiltAfter (r : Replica) (c : FleetCall) (index : KeyIndexState) (bucket : String) :
    Option Rebuild :=
  let more := (r.rebuilt bucket).map fun x => { x with calls := x.calls ++ [c] }
  match c with
  | .call (.gap _) => none
  | .call (.removeBucket b) => if b = bucket then none else more
  | .call (.resync b) => if b = bucket then some { writers := r.writers, index } else more
  | _ => more

def indexed (r : Replica) (c : FleetCall) (index : KeyIndexState) : Replica :=
  { r with index, rebuilt := r.rebuiltAfter c index }

section
variable [Layout] (alignCuts : CutAligner)

def perform (r : Replica) (c : FleetCall) : Option Replica :=
  (c.step alignCuts r.index).map (r.indexed c)

def own (r : Replica) (event : IndexEvent) (call : NativeCut → IndexCall) : Option Replica := do
  let w ← (r.writers r.me).publish event
  (r.setOwn w).perform alignCuts (.call (call w.life.feed.ownPosition))

variable [ETagParser]

def exec (r : Replica) (peer : String) (item : PeerWrite) : ApplyEffect → Option Replica
  | .noteNativeSeal token => r.perform alignCuts (.call (.noteSeal (nativeCut peer token)))
  | .renewNativeWriter sealed epoch =>
    r.perform alignCuts (.call (.renew (nativeCut peer sealed) epoch))
  | .applyFeedIndex token event => do
    let (_, index) ← applyFeedIndex r.index peer token event
    return r.indexed (.call (eventCall peer token event)) index
  | .discardForGap missedThrough =>
    r.perform alignCuts (.call (.gap (nativeCut peer missedThrough)))
  | .observeSeal token =>
    some { r with
      crossings := Function.update r.crossings peer { r.crossings peer with sealed := some token } }
  | .observeRenewal sealed epoch =>
    some { r with
      crossings := Function.update r.crossings peer { renewal := some ⟨sealed, epoch⟩ } }
  | .forgetCrossing => some { r with crossings := Function.update r.crossings peer {} }
  -- the bodies are not part of this state
  | .invalidateHot _ => some r
  | .feedGap => some { r with generation := r.generation + 1, mayServe := false }
  | .advance token =>
    some { r with
      frontier := Function.update r.frontier peer
        (some ((r.frontier peer).elim token (max token)))
      cursor := Function.update r.cursor peer (item.through (r.cursor peer)) }

def work (r : Replica) : Option Replica := do
  let (peer, item, done) ← r.loop
  let r ← r.exec alignCuts peer item (← item.arm[done]?)
  return { r with loop := if done + 1 < item.arm.length then some (peer, item, done + 1) else none }

def step (r : Replica) : ReplicaStep → Option Replica
  | .publish node event =>
    if node = r.me then none else ((r.writers node).publish event).map (r.setWriter node)
  | .sealFeed node =>
    if node = r.me then none else (r.writers node).sealFeed.map (r.setWriter node)
  | .restart node epoch =>
    if node = r.me then none else ((r.writers node).restart epoch).map (r.setWriter node)
  | .ownPut bucket key entry =>
    r.own alignCuts (putEvent bucket key entry) fun cut => .put bucket key entry (some cut)
  | .ownDel bucket key ts =>
    r.own alignCuts (delEvent bucket key ts) fun cut => .del bucket key ts (some cut)
  | .ownUnknown bucket key tsUs =>
    r.own alignCuts (unknownEvent bucket key tsUs) fun cut => .fenceOwn bucket key cut
  | .take peer item =>
    if peer ≠ r.me ∧ r.loop.isNone ∧ (r.writers peer).Delivers (r.cursor peer) item then
      some { r with loop := some (peer, item, 0) }
    else none
  | .work => r.work alignCuts
  | .call c => if FleetCall.plain c then r.perform alignCuts c else none
  | .lapse => some { r with generation := r.generation + 1, mayServe := false }
  | .distrust => some { r with bodyGeneration := r.bodyGeneration + 1 }
  | .reopen => some { r with mayServe := true }

end

end Replica

/-! ### Cuts -/

section
variable {s s' : KeyIndexState}

theorem nativeCuts_capture [Layout] {host : CaptureHost}
    {admits : List JournalRecord → JournalRecord → Bool} {names : List String} {caps : ImageCaps} :
    ((beginFleetCapture s host admits names caps).toOption.elim s (·.2)).nativeCuts =
      s.nativeCuts := by
  cases h : beginFleetCapture s host admits names caps with
  | error => rfl
  | ok attached =>
    simp only [beginFleetCapture, ite_error_eq_ok, bind_eq_ok] at h
    obtain ⟨-, size, -, -, -, snapshot, -, cuts, -, -, -, h⟩ := h
    cases h
    rfl

theorem noteNativeCut_ahead {cut : NativeCut}
    (h : ∀ old, s.nativeCuts[cut.writer]? = some old →
      (⟨cut.writer, old.1, old.2⟩ : NativeCut).Nameable ∧ old.1 = cut.epoch ∧
        old.2 < cut.sequence) :
    (s.noteNativeCut cut).1 = true ∧ ∀ c, (s.noteNativeCut cut).2.nativeCuts[cut.writer]? = some c →
      (⟨cut.writer, c.1, c.2⟩ : NativeCut).Nameable ∧ c = (cut.epoch, cut.sequence) := by
  have hset : ∀ c, (s.nativeCuts.insert cut.writer (cut.epoch, cut.sequence))[cut.writer]? = some c →
      c = (cut.epoch, cut.sequence) := fun c hc => by
    rw [TreeMap.get_insert, if_pos rfl] at hc
    exact (Option.some.inj hc).symm
  fun_cases noteNativeCut
  case case1 hbad =>
    refine ⟨rfl, fun c hc => ?_⟩
    obtain ⟨hname, he, hlt⟩ := h c hc
    have hnamed := hname.named
    have hshort := hname.short
    have hepoch := hname.epoch
    simp only [Bool.or_eq_true, List.isEmpty_iff, decide_eq_true_eq, beq_iff_eq] at hbad
    simp only at hnamed hshort hepoch
    rcases hbad with ((hbad | hbad) | hbad) | hbad
    · exact absurd hbad hnamed
    · omega
    · omega
    · omega
  case case2 hnone _ =>
    refine ⟨rfl, fun c hc => ?_⟩
    cases hnone.symm.trans hc
  case case3 hgood hnone _ =>
    refine ⟨rfl, fun c hc => ?_⟩
    obtain rfl := hset c hc
    simp only [Bool.or_eq_true, List.isEmpty_iff, decide_eq_true_eq, beq_iff_eq, not_or] at hgood
    exact ⟨⟨hgood.1.1.1, not_lt.mp hgood.1.1.2, hgood.1.2⟩, rfl⟩
  case case4 old hold hdup =>
    have := (h old hold).2
    omega
  case case5 old hold _ =>
    refine ⟨rfl, fun c hc => ?_⟩
    obtain ⟨hname, he, -⟩ := h old hold
    obtain rfl := hset c (by simpa [setCut] using hc)
    exact ⟨⟨hname.named, hname.short, he ▸ hname.epoch⟩, rfl⟩

end

def CutsAt (s : KeyIndexState) (reached : String → WriteToken) : Prop :=
  ∀ p c, s.nativeCuts[utf8 p]? = some c → (⟨utf8 p, c.1, c.2⟩ : NativeCut).Nameable ∧
    c = ((reached p).epoch, (reached p).seq)

section
variable [Layout] {s s' : KeyIndexState} {reached : String → WriteToken} {p : String}

theorem CutsAt.frame (h : CutsAt s reached) {c : IndexCall} (hs : s.step c = some s')
    (hw : IndexCall.writer c = none) : CutsAt s' reached := fun q cut hq =>
  h q cut (by rwa [nativeCuts_of_writer hs (by simp [hw])] at hq)

theorem CutsAt.move (h : CutsAt s reached) {c : IndexCall} (hs : s.step c = some s')
    (hw : IndexCall.writer c = some (utf8 p)) {t : WriteToken}
    (hc : ∀ cut, s'.nativeCuts[utf8 p]? = some cut →
      (⟨utf8 p, cut.1, cut.2⟩ : NativeCut).Nameable ∧ cut = (t.epoch, t.seq)) :
    CutsAt s' (Function.update reached p t) := fun q cut hq => by
  by_cases hqp : q = p
  · subst hqp
    rw [Function.update_self]
    exact hc cut hq
  · rw [Function.update_of_ne hqp]
    refine h q cut ?_
    rwa [nativeCuts_of_writer hs] at hq
    rw [hw]
    exact fun he => hqp (utf8_injective (Option.some.inj he)).symm

omit [Layout] in
theorem CutsAt.next (h : CutsAt s reached) (p : String) :
    (s.noteNativeCut (nativeCut p (reached p).next)).1 = true ∧
      ∀ c, (s.noteNativeCut (nativeCut p (reached p).next)).2.nativeCuts[utf8 p]? = some c →
        (⟨utf8 p, c.1, c.2⟩ : NativeCut).Nameable ∧
          c = ((reached p).next.epoch, (reached p).next.seq) :=
  noteNativeCut_ahead fun old hold => by
    obtain ⟨hname, rfl⟩ := h p old hold
    exact ⟨hname, rfl, Nat.lt_succ_self _⟩

theorem CutsAt.eventCall [ETagParser] (h : CutsAt s reached) {event : IndexEvent}
    (hs : s.step (eventCall p (reached p).next event) = some s') :
    takes s (Sync.eventCall p (reached p).next event) = true ∧
      CutsAt s' (Function.update reached p (reached p).next) := by
  obtain ⟨htakes, hcuts⟩ := h.next p
  unfold Sync.eventCall at hs ⊢
  dsimp only at hs ⊢
  split at hs
  · next hd =>
    rw [if_pos hd]
    refine ⟨htakes, h.move hs rfl fun cut hcut => hcuts cut ?_⟩
    obtain ⟨⟨token, t⟩, ht, rfl⟩ := Option.map_eq_some_iff.mp hs
    rwa [nativeCuts_fenceNative ht] at hcut
  · next hd =>
    rw [if_neg hd]
    cases hop : event.op with
    | put size etag contentType storageClass =>
      rw [hop] at hs
      refine ⟨htakes, h.move hs rfl fun cut hcut => hcuts cut ?_⟩
      cases hs
      rwa [nativeCuts_put] at hcut
    | del =>
      rw [hop] at hs
      refine ⟨htakes, h.move hs rfl fun cut hcut => hcuts cut ?_⟩
      cases hs
      rwa [nativeCuts_del] at hcut

theorem CutsAt.noteSeal (h : CutsAt s reached)
    (hs : s.step (.noteSeal (nativeCut p (reached p).next)) = some s') :
    CutsAt s' (Function.update reached p (reached p).next) := by
  refine h.move hs rfl fun cut hcut => (h.next p).2 cut ?_
  cases hs
  rwa [nativeCuts_noteNativeSeal] at hcut

theorem CutsAt.renew (h : CutsAt s reached) {epoch : Nat} (he : (reached p).epoch < epoch)
    (hs : s.step (.renew (nativeCut p (reached p)) epoch) = some s') :
    CutsAt s' (Function.update reached p ⟨epoch, 0⟩) := by
  refine h.move hs rfl fun cut hcut => ?_
  cases hs
  unfold renewNativeWriter at hcut
  split at hcut
  · next hnone => cases hnone.symm.trans hcut
  · next old hold =>
    obtain ⟨hname, rfl⟩ := h p old hold
    rw [if_neg (by simpa using he)] at hcut
    have hcut : (s.nativeCuts.insert (utf8 p) (epoch, 0))[utf8 p]? = some cut := by
      split at hcut <;> exact hcut
    rw [TreeMap.get_insert, if_pos rfl] at hcut
    cases hcut
    exact ⟨⟨hname.named, hname.short, (Nat.zero_lt_of_lt he).ne'⟩, rfl⟩

omit [Layout] in
theorem CutsAt.register (h : CutsAt s reached) {t : WriteToken} (ht : reached p = t) :
    CutsAt (s.registerNativeWriter (nativeCut p t)) reached := fun q c hc => by
  fun_cases registerNativeWriter s (nativeCut p t)
  case case1 h₁ => exact h q c (by rwa [registerNativeWriter, if_pos h₁] at hc)
  case case2 h₁ h₂ => exact h q c (by rwa [registerNativeWriter, if_neg h₁, if_pos h₂] at hc)
  case case3 h₁ h₂ =>
    rw [registerNativeWriter, if_neg h₁, if_neg h₂, nativeCuts_invalidateCapture] at hc
    change (s.nativeCuts.insert (utf8 p) (t.epoch, t.seq))[utf8 q]? = some c at hc
    rw [TreeMap.get_insert] at hc
    split at hc
    · next hq =>
      obtain rfl := utf8_injective hq
      cases hc
      simp only [Bool.or_eq_true, List.isEmpty_iff, decide_eq_true_eq, beq_iff_eq, not_or] at h₁
      exact ⟨⟨h₁.1.1.1, not_lt.mp h₁.1.1.2, h₁.1.2⟩, by rw [ht]⟩
    · exact h q c hc

theorem CutsAt.gap (h : CutsAt s reached) {missed : WriteToken}
    (hs : s.step (.gap (nativeCut p missed)) = some s') :
    CutsAt s' (Function.update reached p (max (reached p) missed)) := by
  refine h.move hs rfl fun cut hcut => ?_
  cases hs
  have hcut : (s.skipNativeGap (nativeCut p missed)).nativeCuts[utf8 p]? = some cut := hcut
  unfold skipNativeGap at hcut
  split at hcut
  · next hnone => cases hnone.symm.trans hcut
  · next old hold =>
    obtain ⟨hname, rfl⟩ := h p old hold
    split at hcut
    · next hbehind =>
      cases hold.symm.trans hcut
      rw [max_eq_left (WriteToken.le_iff.mpr hbehind)]
      exact ⟨hname, rfl⟩
    · next hahead =>
      have hcut : (s.nativeCuts.insert (utf8 p) (missed.epoch, missed.seq))[utf8 p]? = some cut :=
        hcut
      rw [TreeMap.get_insert, if_pos rfl] at hcut
      cases hcut
      have hlt : reached p < missed := not_le.mp fun hle => hahead (WriteToken.le_iff.mp hle)
      rw [max_eq_right hlt.le]
      refine ⟨⟨hname.named, hname.short, fun hzero => hname.epoch ?_⟩, rfl⟩
      have := WriteToken.lt_iff.mp hlt
      simp only at hzero ⊢
      omega

end

/-! ### Rebuilds -/

section
variable [Layout] {s s' : KeyIndexState} {bucket : String}

def Live (b : BucketState) : Prop := b.synced = true ∨ b.rebuildGeneration.isSome = true

omit [Layout] in
theorem Live.congr {b b' : BucketState} (h : Live b') (hs : b'.synced = b.synced)
    (hr : b'.rebuildGeneration = b.rebuildGeneration) : Live b :=
  h.imp hs.symm.trans (fun h => by rwa [hr] at h)

omit [Layout] in
theorem Live.of_counters {b b' : BucketState} (h : Live b') (hs : b'.counters = b.counters)
    (hr : b'.rebuildGeneration = b.rebuildGeneration) : Live b := h.congr (congrArg (·.1) hs) hr

omit [Layout] in
theorem not_live_discard (b : BucketState) : ¬ Live b.discard := by
  rintro (h | h) <;> cases h

theorem live_of_step {c : IndexCall} (hs : s.step c = some s') (h : Live (s'.bucket bucket)) :
    c = .resync bucket ∨
      Live (s.bucket bucket) ∧ (∀ cut, c ≠ .gap cut) ∧ c ≠ .removeBucket bucket := by
  rw [bucket_step hs] at h
  have hif : ∀ {p : Prop} [Decidable p] {b : BucketState},
      Live (if p then b else s.bucket bucket) → (Live b → Live (s.bucket bucket)) →
      Live (s.bucket bucket) := by
    intro p _ b h hb
    split at h
    · exact hb h
    · exact h
  have hgap : ∀ cut, c ≠ .gap cut := by
    rintro cut rfl
    rw [bucketAfter] at h
    split at h
    · exact not_live_discard _ h
    · next habsent =>
      have hnone : s.buckets[bucket]? = none := Std.ExtTreeMap.getElem?_eq_none habsent
      rw [KeyIndexState.bucket, hnone] at h
      rcases h with h | h <;> cases h
  have hremove : c ≠ .removeBucket bucket := by
    rintro rfl
    rw [bucketAfter, if_pos rfl] at h
    rcases h with h | h <;> cases h
  cases c with
  | put | observedPut | complete | resolve =>
    exact .inr ⟨hif h fun h => h.of_counters (by simp) (by simp), hgap, hremove⟩
  | del b key ts cut =>
    refine .inr ⟨hif h fun h => ?_, hgap, hremove⟩
    have h := h.of_counters (BucketState.counters_afterDel ..) (BucketState.rebuild_afterDel ..)
    have hsweep : ((s.bucket bucket).sweepTombstones ts).rebuildGeneration =
        (s.bucket bucket).rebuildGeneration := by
      fun_cases BucketState.sweepTombstones <;> rfl
    unfold swept at h
    exact hif h fun h => h.of_counters (by simp) hsweep
  | register | noteSeal | renew => exact .inr ⟨h, hgap, hremove⟩
  | gap missedThrough => exact absurd rfl (hgap missedThrough)
  | fence b key => exact .inr ⟨hif h fun h => h.congr rfl rfl, hgap, hremove⟩
  | fenceNative | fenceOwn => exact .inr ⟨hif h fun h => h, hgap, hremove⟩
  | resync b =>
    by_cases hb : b = bucket
    · exact .inl (by rw [hb])
    · rw [bucketAfter, if_neg hb] at h
      exact .inr ⟨h, hgap, hremove⟩
  | page b generation rows =>
    refine .inr ⟨hif h fun h => ?_, hgap, hremove⟩
    unfold BucketState.afterPage at h
    exact hif h fun h => h.of_counters (BucketState.counters_foldl_foldRow rows)
      (BucketState.rebuild_foldl_foldRow rows)
  | finish b generation =>
    refine .inr ⟨hif h fun h => ?_, hgap, hremove⟩
    unfold BucketState.afterFinish at h
    split at h
    · next hown =>
      rw [BucketState.ownedBy, Bool.and_eq_true, beq_iff_eq, beq_iff_eq] at hown
      exact .inr (by rw [hown.2]; rfl)
    · exact h
  | removeBucket b =>
    rw [bucketAfter, if_neg fun hb => hremove (by rw [hb])] at h
    exact .inr ⟨h, hgap, hremove⟩

end

section
variable [Layout] [ETagParser] (alignCuts : CutAligner)

def Rebuild.taken (x : Rebuild) : List IndexCall :=
  Machine.collect (FleetCall.step alignCuts)
    (fun s c => match c with
      | .call c => if takes s c then [c] else []
      | _ => [])
    x.index x.calls

/-- The rebuild accounts for the write: it was published when the rebuild began, or it has been
folded in since. -/
def Rebuild.Covers (x : Rebuild) (p : String) (t : WriteToken) (event : IndexEvent) : Prop :=
  (x.writers p).Wrote t event ∨ ∃ c ∈ x.taken alignCuts, Folds p t event c

structure Fresh (writers : String → Writer) (index : KeyIndexState)
    (reached : String → WriteToken) (rebuilt : String → Option Rebuild) : Prop where
  runs : ∀ b, ∀ x ∈ rebuilt b,
    Machine.run (FleetCall.step alignCuts) x.index x.calls = some index
  began : ∀ b, ∀ x ∈ rebuilt b, ∃ s : KeyIndexState, x.index = (s.beginBucketResync b).2
  live : ∀ b, Live (index.bucket b) → (rebuilt b).isSome = true
  covers : ∀ b, ∀ x ∈ rebuilt b, ∀ p t event, t ≤ reached p → (writers p).Wrote t event →
    event.bucket = b → x.Covers alignCuts p t event

variable {alignCuts} {r : Replica} {c : FleetCall} {writers writers' : String → Writer}
  {index s' : KeyIndexState} {reached reached' : String → WriteToken}
  {rebuilt : String → Option Rebuild}

theorem Fresh.congr (h : Fresh alignCuts writers index reached rebuilt)
    (hnew : ∀ p t event, t ≤ reached' p → (writers' p).Wrote t event →
      t ≤ reached p ∧ (writers p).Wrote t event) :
    Fresh alignCuts writers' index reached' rebuilt where
  runs := h.runs
  began := h.began
  live := h.live
  covers b x hx p t event ht hw he :=
    h.covers b x hx p t event (hnew p t event ht hw).1 (hnew p t event ht hw).2 he

omit [ETagParser] in
theorem taken_snoc {x : Rebuild} {s : KeyIndexState} {c : IndexCall}
    (h : Machine.run (FleetCall.step alignCuts) x.index x.calls = some s) :
    ({ x with calls := x.calls ++ [.call c] } : Rebuild).taken alignCuts =
      x.taken alignCuts ++ if takes s c then [c] else [] := by
  unfold Rebuild.taken
  rw [Machine.collect_append (Machine.runs_of_run h)]
  simp only [Machine.collect]
  cases FleetCall.step alignCuts s (.call c) <;> simp

theorem Rebuild.Covers.snoc {x : Rebuild} {s : KeyIndexState} {p : String} {t : WriteToken}
    {event : IndexEvent} (h : x.Covers alignCuts p t event)
    (hrun : Machine.run (FleetCall.step alignCuts) x.index x.calls = some s) (c : FleetCall) :
    ({ x with calls := x.calls ++ [c] } : Rebuild).Covers alignCuts p t event := by
  refine h.imp_right fun ⟨d, hd, hf⟩ => ⟨d, ?_, hf⟩
  unfold Rebuild.taken at hd ⊢
  rw [Machine.collect_append (Machine.runs_of_run hrun)]
  exact List.mem_append_left _ hd

omit [Layout] [ETagParser]

theorem rebuiltAfter_cases {b : String} {x : Rebuild} (h : x ∈ r.rebuiltAfter c s' b) :
    (c = .call (.resync b) ∧ x = { writers := r.writers, index := s' }) ∨
      (∀ cut, c ≠ .call (.gap cut)) ∧
        ∃ y ∈ r.rebuilt b, x = { y with calls := y.calls ++ [c] } := by
  have hmore : x ∈ (r.rebuilt b).map (fun x => { x with calls := x.calls ++ [c] }) →
      ∃ y ∈ r.rebuilt b, x = { y with calls := y.calls ++ [c] } := by
    intro hx
    obtain ⟨y, hy, rfl⟩ := Option.mem_map.mp hx
    exact ⟨y, hy, rfl⟩
  unfold Replica.rebuiltAfter at h
  dsimp only at h
  split at h
  · cases h
  · split at h
    · cases h
    · exact .inr ⟨fun _ h => (by cases h), hmore h⟩
  · next b' =>
    split at h
    · next hb =>
      cases h
      exact .inl ⟨by rw [hb], rfl⟩
    · exact .inr ⟨fun _ h => (by cases h), hmore h⟩
  · next hgap _ _ => exact .inr ⟨fun cut he => hgap cut he, hmore h⟩

theorem isSome_rebuiltAfter {b : String} (h : (r.rebuilt b).isSome = true)
    (hgap : ∀ cut, c ≠ .call (.gap cut)) (hremove : c ≠ .call (.removeBucket b)) :
    (r.rebuiltAfter c s' b).isSome = true := by
  have hmore : ((r.rebuilt b).map fun x =>
      ({ x with calls := x.calls ++ [c] } : Rebuild)).isSome = true := by
    rwa [Option.isSome_map]
  unfold Replica.rebuiltAfter
  dsimp only
  split
  · exact absurd rfl (hgap _)
  · rw [if_neg fun he => hremove (by rw [he])]
    exact hmore
  · split
    · rfl
    · exact hmore
  · exact hmore

variable [Layout] [ETagParser]

theorem Fresh.indexed (h : Fresh alignCuts writers r.index reached r.rebuilt)
    (hs : c.step alignCuts r.index = some s')
    (hc : ∀ stage cuts names maxRows, c ≠ .install stage cuts names maxRows)
    (hnew : ∀ p t event, t ≤ reached' p → (r.writers p).Wrote t event →
      (t ≤ reached p ∧ (writers p).Wrote t event) ∨
      (∃ c₀, c = .call c₀ ∧ takes r.index c₀ = true ∧ Folds p t event c₀) ∨
      ∃ cut, c = .call (.gap cut)) :
    Fresh alignCuts r.writers s' reached' (r.rebuiltAfter c s') where
  runs b x hx := by
    obtain ⟨-, rfl⟩ | ⟨-, y, hy, rfl⟩ := rebuiltAfter_cases hx
    · rfl
    · unfold Machine.run
      rw [List.foldlM_append]
      have hrun := h.runs b y hy
      unfold Machine.run at hrun
      rw [hrun]
      simpa using hs
  began b x hx := by
    obtain ⟨rfl, rfl⟩ | ⟨-, y, hy, rfl⟩ := rebuiltAfter_cases hx
    · cases hs
      exact ⟨r.index, rfl⟩
    · exact h.began b y hy
  live b hb := by
    cases c with
    | call c₀ =>
      rcases live_of_step hs hb with rfl | ⟨hold, hgap, hremove⟩
      · simp [Replica.rebuiltAfter]
      · refine isSome_rebuiltAfter (h.live b hold) (fun cut he => ?_) fun he => ?_
        · exact hgap cut (FleetCall.call.inj he)
        · exact hremove (FleetCall.call.inj he)
    | capture host admits names caps =>
      cases hs
      rw [bucket_capture] at hb
      exact isSome_rebuiltAfter (h.live b hb) (fun _ h => (by cases h))
        fun h => (by cases h)
    | install stage cuts names maxRows => exact absurd rfl (hc stage cuts names maxRows)
  covers b x hx p t event ht hw he := by
    obtain ⟨rfl, rfl⟩ | ⟨hgap, y, hy, rfl⟩ := rebuiltAfter_cases hx
    · exact .inl hw
    · rcases hnew p t event ht hw with ⟨hle, hold⟩ | ⟨c₀, rfl, htakes, hf⟩ | ⟨cut, hcut⟩
      · exact (h.covers b y hy p t event hle hold he).snoc (h.runs b y hy) c
      · refine .inr ⟨c₀, ?_, hf⟩
        rw [taken_snoc (h.runs b y hy), if_pos htakes]
        exact List.mem_append_right _ (List.mem_singleton_self c₀)
      · exact absurd hcut (hgap cut)

end

end S3Cache.Sync

import S3Cache.Lib.Machine
import S3Cache.Fleet.Donor
import S3Cache.Fleet.Stage

/-! The captures of a donor (`index/fleet/capture.rs`).  A capture's journal is shared: the index
appends to it while it is attached, and whoever encodes or offers the image holds the other end.
A new capture takes the place of the old one, encoding runs away from the index, and a holder may
be dropped at any time, also long after its capture was replaced. -/

namespace S3Cache.Fleet

open Index KeyIndexState Fallible

structure PendingImage where
  snapshot : Option KeyIndexState
  size : ImageSize
  encodedImage : Option (List UInt8) := none

inductive Holder where
  | pending (p : PendingImage)
  | donor (image : List UInt8) (size : ImageSize)

def Holder.image : Holder → Option (List UInt8)
  | .pending p => p.encodedImage
  | .donor image _ => some image

def Holder.size : Holder → ImageSize
  | .pending p => p.size
  | .donor _ size => size

/-- An ingress is named by its place in the order in which they were begun.  `attached` says
whose journal `live.capture` is, and `retired` has those the index let go of. -/
structure DonorNode where
  live : KeyIndexState
  attached : Option Nat := none
  retired : Nat → Option IndexCapture := fun _ => none
  holders : Nat → Option Holder := fun _ => none
  begun : Nat := 0

inductive DonorEvent where
  | call (c : IndexCall)
  | install (stage : Option KeyIndexState) (cuts : List NativeCut) (maxRows : Nat)
  | begin (host : CaptureHost) (admits : List JournalRecord → JournalRecord → Bool)
  | encode (id : Nat)
  | finish (id : Nat) (accepted : Bool)
  | retire (id : Nat)
  | drop (id : Nat)
  | retireService

section
variable [Layout] (alignCuts : CutAligner) (names : List String) (caps : ImageCaps)

/-- `PendingFleetCapture::encode`, which takes the snapshot whether or not it encodes. -/
def PendingImage.encode (p : PendingImage) : Except ImageError Unit × PendingImage :=
  match p.snapshot with
  | none => (.error .corrupt, p)
  | some snapshot =>
    match PendingFleetCapture.encode ⟨snapshot, p.size⟩ names caps with
    | .error e => (.error e, { p with snapshot := none })
    | .ok image => (.ok (), { p with snapshot := none, encodedImage := some image })

namespace DonorNode

def detach (node : DonorNode) (reason : Invalidation) : DonorNode :=
  match node.attached with
  | none => node
  | some id =>
    { node with
      live := { node.live with capture := none }
      attached := none
      retired := Function.update node.retired id (node.live.capture.map (·.invalidate reason)) }

def beginFleetCapture (node : DonorNode) (host : CaptureHost)
    (admits : List JournalRecord → JournalRecord → Bool) : Except ImageError DonorNode := do
  let (pending, live) ← Fleet.beginFleetCapture node.live host admits names caps
  let node := node.detach .donorLost
  return { node with
    live
    attached := some node.begun
    holders := Function.update node.holders node.begun
      (some (.pending { snapshot := some pending.snapshot, size := pending.size }))
    begun := node.begun + 1 }

def hasFleetCapture (node : DonorNode) (id : Nat) : Bool := node.attached = some id

def retireFleetCapture (node : DonorNode) (id : Nat) : DonorNode :=
  if node.hasFleetCapture id then node.detach .donorLost else node

def retireFleetService (node : DonorNode) : DonorNode := node.detach .donorLost

def dropHolder (node : DonorNode) (id : Nat) : DonorNode :=
  { node.retireFleetCapture id with holders := Function.update node.holders id none }

/-- `accepted` is the journal's own answer to the finish.  A pending capture that does not finish
is dropped. -/
def finish (node : DonorNode) (id : Nat) (p : PendingImage) (accepted : Bool) : DonorNode :=
  match p.encodedImage with
  | none => node.dropHolder id
  | some image =>
    if node.hasFleetCapture id ∧ accepted then
      { node with holders := Function.update node.holders id (some (.donor image p.size)) }
    else node.dropHolder id

def installFleetCandidate (node : DonorNode) (stage : Option KeyIndexState) (cuts : List NativeCut)
    (maxRows : Nat) : DonorNode :=
  match Fleet.installFleetCandidate alignCuts node.live stage cuts names maxRows with
  | (.ok (), live, _) => { node.detach .rebuild with live }
  | (.error _, _, _) => node

/-- `none` for a call that panics and for a holder that is not there. -/
def step (node : DonorNode) : DonorEvent → Option DonorNode
  | .call c => (node.live.step c).map fun live => { node with live }
  | .install stage cuts maxRows =>
    some (node.installFleetCandidate alignCuts names stage cuts maxRows)
  | .begin host admits =>
    some ((node.beginFleetCapture names caps host admits).toOption.getD node)
  | .encode id =>
    match node.holders id with
    | some (.pending p) =>
      some { node with
        holders := Function.update node.holders id (some (.pending (p.encode names caps).2)) }
    | _ => none
  | .finish id accepted =>
    match node.holders id with
    | some (.pending p) => some (node.finish id p accepted)
    | _ => none
  | .retire id => some (node.retireFleetCapture id)
  | .drop id => some (node.dropHolder id)
  | .retireService => some node.retireFleetService

def journalOf (node : DonorNode) (id : Nat) : Option IndexCapture :=
  if node.attached = some id then node.live.capture else node.retired id

end DonorNode

end

/-! ### What holds of every ingress -/

section
variable [Layout] {alignCuts : CutAligner}
  {names : List String} {caps : ImageCaps} {node node' : DonorNode}

structure Holder.Of (names : List String) (caps : ImageCaps) (pending : PendingFleetCapture)
    (h : Holder) : Prop where
  size : h.size = pending.size
  snapshot : ∀ p snapshot, h = .pending p → p.snapshot = some snapshot → snapshot = pending.snapshot
  image : ∀ image ∈ h.image, pending.encode names caps = .ok image

def Tracks (names : List String) (caps : ImageCaps) (live : KeyIndexState)
    (holder : Option Holder) : Prop :=
  ∃ before host admits pending s ops,
    Fleet.beginFleetCapture before host admits names caps = .ok (pending, s) ∧
    s.run ops = some live ∧ ∀ h ∈ holder, h.Of names caps pending

structure DonorNode.Sound (names : List String) (caps : ImageCaps) (node : DonorNode) : Prop where
  begun : ∀ id ∈ node.attached, id < node.begun
  withdrawn : ∀ id c, node.attached ≠ some id → node.retired id = some c → c.journal.invalid ≠ none
  tracks : ∀ id ∈ node.attached, Tracks names caps node.live (node.holders id)

theorem PendingImage.encode_of {p : PendingImage} {pending : PendingFleetCapture}
    (h : Holder.Of names caps pending (.pending p)) :
    Holder.Of names caps pending (.pending (p.encode names caps).2) := by
  unfold encode
  split
  · exact h
  · next snapshot hsnapshot =>
    obtain rfl := h.snapshot p snapshot rfl hsnapshot
    have hsize : p.size = pending.size := h.size
    have hpending : (⟨pending.snapshot, p.size⟩ : PendingFleetCapture) = pending := by rw [hsize]
    rw [hpending]
    split
    · refine ⟨hsize, ?_, h.image⟩
      rintro _ _ ⟨rfl⟩ hs
      cases hs
    · next image himage =>
      refine ⟨hsize, ?_, fun image' himage' => ?_⟩
      · rintro _ _ ⟨rfl⟩ hs
        cases hs
      obtain rfl : image = image' := Option.some.inj himage'
      exact himage

theorem Tracks.congr {live : KeyIndexState} {holder holder' : Option Holder}
    (h : Tracks names caps live holder)
    (hof : ∀ pending, (∀ x ∈ holder, x.Of names caps pending) →
      ∀ x ∈ holder', x.Of names caps pending) : Tracks names caps live holder' := by
  obtain ⟨before, host, admits, pending, s, ops, hbegin, hrun, hholder⟩ := h
  exact ⟨before, host, admits, pending, s, ops, hbegin, hrun, hof pending hholder⟩

theorem Tracks.call {live live' : KeyIndexState} {holder : Option Holder} {c : IndexCall}
    (h : Tracks names caps live holder) (hstep : live.step c = some live') :
    Tracks names caps live' holder := by
  obtain ⟨before, host, admits, pending, s, ops, hbegin, hrun, hholder⟩ := h
  refine ⟨before, host, admits, pending, s, ops ++ [c], hbegin, ?_, hholder⟩
  unfold KeyIndexState.run at hrun ⊢
  rw [List.foldlM_append, hrun]
  simpa using hstep

theorem Tracks.capture {live : KeyIndexState} {holder : Option Holder}
    (h : Tracks names caps live holder) : ∃ c, live.capture = some c := by
  obtain ⟨before, host, admits, pending, s, ops, hbegin, hrun, -⟩ := h
  obtain ⟨-, -, -, hcapture⟩ := beginFleetCapture_eq_ok hbegin
  cases hc : live.capture with
  | some c => exact ⟨c, rfl⟩
  | none =>
    have hm : Mirrors [] s {} := fun _ hn => by cases hn
    obtain ⟨c, -, hc', -⟩ := follows_run hcapture hm hrun fun c hc' => by cases hc.symm.trans hc'
    cases hc.symm.trans hc'

namespace DonorNode

omit [Layout] in
theorem attached_detach (reason : Invalidation) : (node.detach reason).attached = none := by
  unfold detach
  split
  · assumption
  · rfl

omit [Layout] in
theorem begun_detach (reason : Invalidation) : (node.detach reason).begun = node.begun := by
  unfold detach
  split <;> rfl

theorem Sound.detach (h : node.Sound names caps) (reason : Invalidation) :
    (node.detach reason).Sound names caps := by
  have hnone : (node.detach reason).attached = none := attached_detach reason
  refine ⟨fun id hid => ?_, fun id c _ hretired => ?_, fun id hid => ?_⟩
  · rw [hnone] at hid
    cases hid
  · unfold DonorNode.detach at hretired
    split at hretired
    · next hattached => exact h.withdrawn id c (by rw [hattached]; simp) hretired
    · next other hattached =>
      simp only [Function.update_apply] at hretired
      split at hretired
      · obtain ⟨c', -, rfl⟩ := Option.map_eq_some_iff.mp hretired
        exact DonorJournal.invalid_invalidate _ _
      · next hne =>
        refine h.withdrawn id c (fun heq => hne ?_) hretired
        exact Option.some.inj (heq.symm.trans hattached)
  · rw [hnone] at hid
    cases hid

theorem Sound.retireFleetCapture (h : node.Sound names caps) (id : Nat) :
    (node.retireFleetCapture id).Sound names caps := by
  unfold DonorNode.retireFleetCapture
  split
  · exact h.detach _
  · exact h

theorem Sound.setHolder (h : node.Sound names caps) (id : Nat) (holder : Option Holder)
    (hof : node.attached = some id → ∀ pending,
      (∀ x ∈ node.holders id, x.Of names caps pending) → ∀ x ∈ holder, x.Of names caps pending) :
    Sound names caps { node with holders := Function.update node.holders id holder } := by
  refine ⟨h.begun, h.withdrawn, fun other hother => ?_⟩
  show Tracks names caps node.live (Function.update node.holders id holder other)
  rw [Function.update_apply]
  split
  · next heq =>
    subst heq
    exact (h.tracks other hother).congr (hof hother)
  · exact h.tracks other hother

theorem Sound.dropHolder (h : node.Sound names caps) (id : Nat) :
    (node.dropHolder id).Sound names caps := by
  have hholders : (node.retireFleetCapture id).holders = node.holders := by
    unfold DonorNode.retireFleetCapture DonorNode.detach
    split
    · split <;> rfl
    · rfl
  have hset := (h.retireFleetCapture id).setHolder id none fun _ _ _ _ hx => by cases hx
  rw [hholders] at hset
  exact hset

theorem Sound.beginFleetCapture (h : node.Sound names caps) {host : CaptureHost}
    {admits : List JournalRecord → JournalRecord → Bool}
    (hbegin : node.beginFleetCapture names caps host admits = .ok node') :
    node'.Sound names caps := by
  unfold DonorNode.beginFleetCapture at hbegin
  obtain ⟨⟨pending, live⟩, hlive, hnode⟩ := bind_eq_ok.mp hbegin
  cases hnode
  have hdetached : (node.detach .donorLost).Sound names caps := h.detach .donorLost
  refine ⟨fun id hid => ?_, fun id c hid hretired => ?_, fun id hid => ?_⟩
  · obtain rfl := Option.some.inj hid
    exact Nat.lt_succ_self _
  · refine hdetached.withdrawn id c ?_ hretired
    rw [attached_detach]
    simp
  · obtain rfl := Option.some.inj hid
    refine ⟨node.live, host, admits, pending, live, [], hlive, rfl, fun x hx => ?_⟩
    simp only [Function.update_self, Option.mem_def, Option.some.injEq] at hx
    subst hx
    refine ⟨rfl, ?_, fun _ himage => (Option.not_mem_none _ himage).elim⟩
    rintro _ _ ⟨rfl⟩ hs
    exact (Option.some.inj hs).symm

theorem Sound.finish (h : node.Sound names caps) {id : Nat} {p : PendingImage} (accepted : Bool)
    (hp : node.holders id = some (.pending p)) : (node.finish id p accepted).Sound names caps := by
  unfold DonorNode.finish
  split
  · exact h.dropHolder id
  · next image himage =>
    split
    · refine h.setHolder id _ fun _ pending hof x hx => ?_
      have hpending := hof _ hp
      cases hx
      refine ⟨hpending.size, fun _ _ heq => (by cases heq), fun image' himage' => ?_⟩
      obtain rfl : image = image' := Option.some.inj himage'
      exact hpending.image image himage
    · exact h.dropHolder id

theorem Sound.step (h : node.Sound names caps) {event : DonorEvent}
    (hstep : node.step alignCuts names caps event = some node') : node'.Sound names caps := by
  cases event with
  | call c =>
    obtain ⟨live, hlive, rfl⟩ := Option.map_eq_some_iff.mp hstep
    exact ⟨h.begun, h.withdrawn, fun id hid => (h.tracks id hid).call hlive⟩
  | install stage cuts maxRows =>
    cases hstep
    unfold DonorNode.installFleetCandidate
    split
    · have hdetached : (node.detach .rebuild).Sound names caps := h.detach .rebuild
      have hnone : (node.detach .rebuild).attached = none := attached_detach .rebuild
      refine ⟨hdetached.begun, hdetached.withdrawn, fun id hid => ?_⟩
      cases hnone.symm.trans hid
    · exact h
  | begin host admits =>
    cases hstep
    cases hbegin : node.beginFleetCapture names caps host admits with
    | error e => exact h
    | ok next => exact h.beginFleetCapture hbegin
  | encode id =>
    simp only [DonorNode.step] at hstep
    split at hstep
    · next p hp =>
      cases hstep
      refine h.setHolder id _ fun _ pending hof x hx => ?_
      cases hx
      exact PendingImage.encode_of (hof _ hp)
    · cases hstep
  | finish id accepted =>
    simp only [DonorNode.step] at hstep
    split at hstep
    · next p hp =>
      cases hstep
      exact h.finish accepted hp
    · cases hstep
  | retire id =>
    cases hstep
    exact h.retireFleetCapture id
  | drop id =>
    cases hstep
    exact h.dropHolder id
  | retireService =>
    cases hstep
    exact h.detach _

theorem sound_run {live : KeyIndexState} {events : List DonorEvent}
    (hrun : Machine.run (step alignCuts names caps) { live } events = some node) :
    node.Sound names caps :=
  Machine.run_keeps hrun (fun _ _ _ h hstep => h.step hstep)
    ⟨fun _ h => (Option.not_mem_none _ h).elim, fun _ _ _ h => (Option.not_mem_none _ h).elim,
      fun _ h => (Option.not_mem_none _ h).elim⟩

theorem attached_step {event : DonorEvent}
    (hstep : node.step alignCuts names caps event = some node') :
    node'.attached = none ∨ node'.attached = node.attached ∨
    ∃ host admits pending, event = .begin host admits ∧
      Fleet.beginFleetCapture node.live host admits names caps = .ok (pending, node'.live) := by
  have hdetach : ∀ reason, (node.detach reason).attached = none := fun _ => attached_detach _
  have hretire : ∀ id, (node.retireFleetCapture id).attached = none ∨
      (node.retireFleetCapture id).attached = node.attached := fun id => by
    unfold retireFleetCapture
    split
    · exact .inl (hdetach _)
    · exact .inr rfl
  cases event with
  | call c =>
    obtain ⟨live, -, rfl⟩ := Option.map_eq_some_iff.mp hstep
    exact .inr (.inl rfl)
  | install stage cuts maxRows =>
    cases hstep
    unfold DonorNode.installFleetCandidate
    split
    · exact .inl (hdetach _)
    · exact .inr (.inl rfl)
  | begin host admits =>
    cases hstep
    cases hbegin : node.beginFleetCapture names caps host admits with
    | error e => exact .inr (.inl rfl)
    | ok next =>
      unfold DonorNode.beginFleetCapture at hbegin
      obtain ⟨⟨pending, live⟩, hlive, hnext⟩ := bind_eq_ok.mp hbegin
      cases hnext
      exact .inr (.inr ⟨host, admits, pending, rfl, hlive⟩)
  | encode id =>
    simp only [DonorNode.step] at hstep
    split at hstep
    · cases hstep
      exact .inr (.inl rfl)
    · cases hstep
  | finish id accepted =>
    simp only [DonorNode.step] at hstep
    split at hstep
    · cases hstep
      unfold DonorNode.finish
      split
      · exact (hretire id).imp_right .inl
      · split
        · exact .inr (.inl rfl)
        · exact (hretire id).imp_right .inl
    · cases hstep
  | retire id =>
    cases hstep
    exact (hretire id).imp_right .inl
  | drop id =>
    cases hstep
    exact (hretire id).imp_right .inl
  | retireService =>
    cases hstep
    exact .inl (hdetach _)

structure Grew (node node' : DonorNode) : Prop where
  begun : node.begun ≤ node'.begun
  attached : ∀ id < node.begun, node'.attached = some id → node.attached = some id
  holders : ∀ id < node.begun, node'.attached = some id → ∀ image size,
    node.holders id = some (.donor image size) → node'.holders id = some (.donor image size)
  journal : ∀ id < node.begun, node'.attached = some id → ∀ c',
    node'.live.capture = some c' → c'.journal.invalid = none →
    ∃ c, node.live.capture = some c ∧ c.journal.invalid = none ∧
      c'.maxEventBytes = c.maxEventBytes ∧ c.journal.records <+: c'.journal.records

omit [Layout] in
theorem Grew.refl (node : DonorNode) : node.Grew node :=
  ⟨le_rfl, fun _ _ h => h, fun _ _ _ _ _ h => h,
    fun _ _ _ c hc hvalid => ⟨c, hc, hvalid, rfl, List.prefix_refl _⟩⟩

omit [Layout] in
theorem Grew.of_none (hbegun : node.begun ≤ node'.begun) (h : node'.attached = none) :
    node.Grew node' := by
  refine ⟨hbegun, fun _ _ hid => ?_, fun _ _ hid => ?_, fun _ _ hid => ?_⟩ <;> cases h.symm.trans hid

omit [Layout] in
theorem Grew.detach (reason : Invalidation) : node.Grew (node.detach reason) :=
  .of_none (begun_detach reason).ge (attached_detach reason)

omit [Layout] in
theorem Grew.setHolder (id : Nat) (holder : Option Holder)
    (h : ∀ image size, node.attached = some id → node.holders id ≠ some (.donor image size)) :
    node.Grew { node with holders := Function.update node.holders id holder } := by
  refine ⟨le_rfl, fun _ _ h => h, fun other _ hother image size hh => ?_,
    fun _ _ _ c hc hvalid => ⟨c, hc, hvalid, rfl, List.prefix_refl _⟩⟩
  simp only [Function.update_apply]
  split
  · next heq =>
    subst heq
    exact absurd hh (h image size hother)
  · exact hh

omit [Layout] in
theorem Grew.dropHolder (id : Nat) : node.Grew (node.dropHolder id) := by
  unfold DonorNode.dropHolder DonorNode.retireFleetCapture
  split
  · exact .of_none (begun_detach .donorLost).ge (attached_detach .donorLost)
  · next hnot => exact .setHolder id none fun _ _ hid => absurd (decide_eq_true hid) hnot

theorem Grew.call (h : node.Sound names caps) {live : KeyIndexState} {c : IndexCall}
    (hstep : node.live.step c = some live) : node.Grew { node with live } := by
  refine ⟨le_rfl, fun _ _ h => h, fun _ _ _ _ _ h => h, fun id _ hid c' hc' hvalid => ?_⟩
  obtain ⟨c, hc⟩ := (h.tracks id hid).capture
  have hm : Mirrors [] node.live {} := fun _ hn => by cases hn
  have hv : ∀ c'', live.capture = some c'' → c''.journal.invalid = none := fun c'' hc'' => by
    obtain rfl : c' = c'' := Option.some.inj (hc'.symm.trans hc'')
    exact hvalid
  obtain ⟨c'', _, hc'', hext, -⟩ := follows_step hc hm hstep hv
  obtain rfl : c' = c'' := Option.some.inj (hc'.symm.trans hc'')
  obtain ⟨more, hmore, -⟩ := hext.records
  exact ⟨c, hc, hext.valid, hext.maxEventBytes, more, hmore.symm⟩

theorem Grew.step (h : node.Sound names caps) {event : DonorEvent}
    (hstep : node.step alignCuts names caps event = some node') : node.Grew node' := by
  cases event with
  | call c =>
    obtain ⟨live, hlive, rfl⟩ := Option.map_eq_some_iff.mp hstep
    exact .call h hlive
  | install stage cuts maxRows =>
    cases hstep
    unfold DonorNode.installFleetCandidate
    split
    · exact .of_none (begun_detach .rebuild).ge (attached_detach .rebuild)
    · exact .refl node
  | begin host admits =>
    cases hstep
    cases hbegin : node.beginFleetCapture names caps host admits with
    | error e => exact .refl node
    | ok next =>
      unfold DonorNode.beginFleetCapture at hbegin
      obtain ⟨⟨pending, live⟩, -, hnext⟩ := bind_eq_ok.mp hbegin
      cases hnext
      -- the capture attached now is none of those begun before
      have hnew : ∀ id < node.begun, ¬ some (node.detach .donorLost).begun = some id :=
        fun id hlt hid => by
          rw [begun_detach] at hid
          exact absurd (Option.some.inj hid) hlt.ne'
      exact ⟨(begun_detach .donorLost).ge.trans (Nat.le_succ _),
        fun id hlt hid => absurd hid (hnew id hlt), fun id hlt hid => absurd hid (hnew id hlt),
        fun id hlt hid => absurd hid (hnew id hlt)⟩
  | encode id =>
    simp only [DonorNode.step] at hstep
    split at hstep
    · next p hp =>
      cases hstep
      exact .setHolder id _ fun image size _ hh => by cases hp.symm.trans hh
    · cases hstep
  | finish id accepted =>
    simp only [DonorNode.step] at hstep
    split at hstep
    · next p hp =>
      cases hstep
      unfold DonorNode.finish
      split
      · exact .dropHolder id
      · split
        · exact .setHolder id _ fun image size _ hh => by cases hp.symm.trans hh
        · exact .dropHolder id
    · cases hstep
  | retire id =>
    cases hstep
    unfold DonorNode.retireFleetCapture
    split
    · exact .detach .donorLost
    · exact .refl node
  | drop id =>
    cases hstep
    exact .dropHolder id
  | retireService =>
    cases hstep
    exact .detach .donorLost

end DonorNode

/-- `s` has the rows of `live`, skeletal, and its tombstones. -/
def Replicates (names : List String) (live s : KeyIndexState) : Prop :=
  ∀ name ∈ names, ∀ key,
    (s.bucket name).gone.get key = (live.bucket name).gone.get key ∧
    (s.bucket name).keys.get key = ((live.bucket name).keys.get key).map ObjEntry.skeletal

omit [Layout] in
theorem Mirrors.replicates {live s : KeyIndexState} (h : Mirrors names live s) :
    Replicates names live s := by
  intro name hname key
  have hview := (h name hname).view key
  exact ⟨congrArg KeyView.gone hview, congrArg KeyView.row hview⟩

theorem Tracks.mirrors [ETagParser] {live : KeyIndexState} {holder : Holder} {c : IndexCapture}
    {image : List UInt8} (h : Tracks names caps live (some holder)) (hc : live.capture = some c)
    (hvalid : c.journal.invalid = none) (himage : holder.image = some image) :
    Covers caps caps holder.size names ∧ 0 < holder.size.decodedBytes ∧
    image.length = holder.size.encodedBytes ∧ c.maxNameBytes = caps.nameBytes ∧
    ∀ caps', Covers caps' caps holder.size names → ∃ stage, decode image caps' = .ok stage ∧
      ∃ deltas, List.Forall₂
          (fun r d => IndexDelta.Encodes c.maxEventBytes c.maxNameBytes d r.effect)
          c.journal.records deltas ∧
        Mirrors names live (replay stage (deltas.map IndexDelta.skeletal)) := by
  obtain ⟨before, host, admits, pending, s, ops, hbegin, hrun, hholder⟩ := h
  have hof := hholder holder rfl
  have hencode := hof.image image himage
  obtain ⟨hsize, -, -, hcapture⟩ := beginFleetCapture_eq_ok hbegin
  have hlength : image.length = pending.size.encodedBytes := by
    simp only [PendingFleetCapture.encode, bind_eq_ok, ite_error_eq_ok] at hencode
    obtain ⟨_, -, -, hencode⟩ := hencode
    exact (encode_eq_ok hencode).2.1
  have hv : ∀ c', live.capture = some c' → c'.journal.invalid = none := by
    intro c' hc'
    obtain rfl : c = c' := Option.some.inj (hc.symm.trans hc')
    exact hvalid
  rw [hof.size]
  obtain ⟨hself, hspent, -⟩ := talliedSize_eq_ok hsize
  -- the ceilings of the journal are those it began with
  have hceilings : c.maxNameBytes = caps.nameBytes := by
    obtain ⟨stage, -, hm⟩ := mirrors_begin hbegin hencode hself
    obtain ⟨c', _, hc', hext, -⟩ := follows_run hcapture hm hrun hv
    obtain rfl : c = c' := Option.some.inj (hc.symm.trans hc')
    exact hext.maxNameBytes
  refine ⟨hself, hspent, hlength, hceilings, fun caps' hcov => ?_⟩
  obtain ⟨stage, hdecode, hm⟩ := mirrors_begin hbegin hencode hcov
  obtain ⟨c', deltas, hc', hext, hm'⟩ := follows_run hcapture hm hrun hv
  obtain rfl : c = c' := Option.some.inj (hc.symm.trans hc')
  obtain ⟨more, hmore, hrel⟩ := hext.records
  rw [List.nil_append] at hmore
  rw [hext.maxEventBytes, hext.maxNameBytes, hmore]
  exact ⟨stage, hdecode, deltas, hrel, hm'⟩

/-- Over any run of captures begun, replaced, encoded, finished and dropped among the operations
of the index: a capture whose journal is still valid is the attached one, the journal decodes, and
its image with its journal is the live index. -/
theorem valid_capture_is_live [ETagParser] {live : KeyIndexState} {events : List DonorEvent}
    (hrun : Machine.run (DonorNode.step alignCuts names caps) { live } events = some node)
    {id : Nat} {c : IndexCapture} (hc : node.journalOf id = some c)
    (hvalid : c.journal.invalid = none) :
    node.hasFleetCapture id = true ∧
    ∀ holder image, node.holders id = some holder → holder.image = some image →
      (∀ budget, IndexDelta.maxDeltaCharge ≤ budget → ∃ deltas,
        decodeJournal c.journal.records c.maxEventBytes caps.nameBytes budget = .ok deltas) ∧
      ∀ caps', Covers caps' caps holder.size names → ∃ stage, decode image caps' = .ok stage ∧
        ∀ budget deltas,
          decodeJournal c.journal.records c.maxEventBytes caps.nameBytes budget = .ok deltas →
          Replicates names node.live (replay stage deltas) := by
  have hsound := DonorNode.sound_run hrun
  unfold DonorNode.journalOf at hc
  split at hc
  · next hattached =>
    refine ⟨decide_eq_true hattached, fun holder image hholder himage => ?_⟩
    have htracks := hsound.tracks id hattached
    rw [hholder] at htracks
    obtain ⟨hself, -, -, hnames, hmirrors⟩ := htracks.mirrors hc hvalid himage
    rw [← hnames]
    refine ⟨fun budget hbudget => ?_, fun caps' hcov => ?_⟩
    · obtain ⟨-, -, effects, hrel, -⟩ := hmirrors caps hself
      obtain ⟨-, -, -, -, -, -, -, -, -, -, hcap⟩ := ImageCaps.validate_eq_ok hself.valid
      exact ⟨_, decodeJournal_of_encodes hrel (hnames ▸ hcap) hbudget⟩
    · obtain ⟨stage, hdecode, effects, hrel, hm⟩ := hmirrors caps' hcov
      refine ⟨stage, hdecode, fun budget deltas hdeltas => ?_⟩
      obtain rfl := eq_of_decodeJournal hrel hdeltas
      exact hm.replicates
  · next hattached => exact absurd hvalid (hsound.withdrawn id c hattached hc)

end

section Sample
local instance capturesLayout : Layout := sampleLayout
local instance capturesParser : ETagParser := sampleETagParser

def sampleLife : List DonorEvent :=
  [.begin sampleHost fun _ _ => true, .call (.put "b" "l" sampleDonorRow (some ⟨[1], 1, 1⟩)),
   .begin sampleHost fun _ _ => true, .encode 0, .drop 0,
   .call (.put "b" "m" sampleDonorRow (some ⟨[1], 1, 2⟩)), .encode 1,
   .call (.del "b" "k" (fromMicros 21000000) (some ⟨[1], 1, 3⟩)), .finish 1 true]

def sampleDonorNode : DonorNode :=
  (Machine.run (DonorNode.step (fun _ _ => ⟨.pending, none⟩) ["b"] sampleCaps) { live := sampleDonor }
    sampleLife).get (by decide +kernel)

def sampleAttached : IndexCapture := (sampleDonorNode.journalOf 1).get (by decide +kernel)

theorem valid_capture_is_live_sample :
    sampleAttached.journal.invalid = none ∧ sampleAttached.journal.records.length = 2 ∧
    (sampleDonorNode.holders 1).bind Holder.image ≠ none ∧
    sampleDonorNode.hasFleetCapture 1 = true := by
  have hrun : Machine.run (DonorNode.step (fun _ _ => ⟨.pending, none⟩) ["b"] sampleCaps)
      { live := sampleDonor } sampleLife = some sampleDonorNode := (Option.some_get _).symm
  have hc : sampleDonorNode.journalOf 1 = some sampleAttached := (Option.some_get _).symm
  have hvalid : sampleAttached.journal.invalid = none := by decide +kernel
  exact ⟨hvalid, by decide +kernel, by decide +kernel, (valid_capture_is_live hrun hc hvalid).1⟩

end Sample

end S3Cache.Fleet

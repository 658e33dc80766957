import S3Cache.Cache.Observe
import S3Cache.Lib.Machine

/-! One read of a key racing writes of it through the same node (`cache/proxy.rs`, `tier.rs`).
The read registers a fence before its request leaves, and folds what the origin answered into the
index only while no write has marked that fence; a refused range promotion folds the bare size
without one.  The writes do not overlap each other. -/

namespace S3Cache.Cache

open Index KeyIndexState Fleet

inductive ReadKind where
  | get
  | promote
  | head
  deriving DecidableEq

inductive Mutation where
  | put (entry : ObjEntry) (object : ObservedObject)
  | del

def Mutation.object : Mutation → Option ObservedObject
  | put _ o => some o
  | del => none

structure Describes (e : ObjEntry) (o : ObservedObject) : Prop where
  size : e.size = none ∨ e.size = o.size
  etag : e.etag = none ∨ e.etag = o.etag
  storageClass : e.storageClass = o.storageClass
  contentType : e.contentType = none ∨ e.contentType = o.contentType
  objMeta : e.objMeta = none ∨ e.objMeta = some o.objMeta

instance (e : ObjEntry) (o : ObservedObject) : Decidable (Describes e o) :=
  decidable_of_iff ((e.size = none ∨ e.size = o.size) ∧ (e.etag = none ∨ e.etag = o.etag) ∧
      e.storageClass = o.storageClass ∧ (e.contentType = none ∨ e.contentType = o.contentType) ∧
      (e.objMeta = none ∨ e.objMeta = some o.objMeta))
    ⟨fun ⟨a, b, c, d, f⟩ => ⟨a, b, c, d, f⟩, fun ⟨a, b, c, d, f⟩ => ⟨a, b, c, d, f⟩⟩

def ObservedObject.time (o : ObservedObject) : Option SystemTime := o.lastModified.bind originTime

def ObservedObject.TimedBy (o : ObservedObject) (clock : SystemTime) : Prop :=
  ∃ t ∈ o.time, t ≤ wireStamp clock

instance (o : ObservedObject) (clock : SystemTime) : Decidable (o.TimedBy clock) :=
  decidable_of_iff (o.time.any (· ≤ wireStamp clock) = true) (by
    simp [ObservedObject.TimedBy, Option.any_eq_true])

inductive Handler where
  | resting
  | committed (m : Mutation)
  | fenced (m : Mutation)

inductive ReadPhase where
  | waiting
  | chosen
  | sent
  | answered (o : ObservedObject)
  /-- The commit lock is held, and the index was found to hold no row to complete. -/
  | unindexed (o : ObservedObject)
  | refused (size : Int64)
  | finished

def fits (cap : Nat) (size : Int64) : Bool := 0 ≤ size && size.toNatClampNeg ≤ cap

def ReadKind.starts (cap : Nat) (indexSize : Option Int64) : ReadKind → Bool
  | get => !indexSize.any fun size => 0 ≤ size && !fits cap size
  | promote => indexSize.any (fits cap)
  | head => true

def ReadKind.received (cap : Nat) (buffered : Bool) (o : ObservedObject) : ReadKind → ReadPhase
  | head => .answered o
  | get => if o.size.any (fits cap) && buffered then .answered o else .finished
  | promote =>
    if o.size.any (fits cap) && buffered then .answered o
    else
      match o.size with
      | some size => if 0 ≤ size then .refused size else .finished
      | none => .finished

structure Race where
  index : KeyIndexState
  clock : SystemTime
  origin : Option ObservedObject
  handler : Handler := .resting
  phase : ReadPhase := .waiting
  stale : Bool := false
  applied : Bool := false
  alone : KeyIndexState

inductive RaceStep where
  | choose
  | send
  | answer (buffered : Bool)
  | commit (canCommit : Bool)
  | addRow (now : SystemTime)
  | sizeOnly (now : SystemTime)
  | originCommit (m : Mutation) (now : SystemTime)
  | fence
  | apply (now : SystemTime)
  | preInvalidate

namespace Race

def read (s : Race) (now : SystemTime) : Option Race :=
  if s.clock ≤ now then some { s with clock := now } else none

def unlocked (s : Race) : Bool :=
  match s.phase with
  | .unindexed _ => false
  | _ => true

variable [Layout]

def observedPut (bucket key : String) (s : Race) (e : ObjEntry) : Race :=
  { s with index := (s.index.applyObservedPut bucket key e).2, phase := .finished }

def record (bucket key : String) (s : Race) (now : SystemTime) : Mutation → Race
  | .put e _ =>
    { s with
      index := recordPut s.index bucket key e now
      alone := recordPut s.alone bucket key e now
      handler := .resting, applied := true }
  | .del =>
    { s with
      index := recordDel s.index bucket key now
      alone := recordDel s.alone bucket key now
      handler := .resting, applied := true }

def commitFold (bucket key : String) (s : Race) (o : ObservedObject) : Race :=
  match s.index.completeEntry bucket key o.fill with
  | (.notIndexed, index) => { s with index, phase := .unindexed o }
  | (_, index) => { s with index, phase := .finished }

def Commits (s : Race) : Mutation → Prop
  | .put e o => Describes e o ∧ o.TimedBy s.clock
  | .del => True

instance (s : Race) (m : Mutation) : Decidable (s.Commits m) :=
  match m with
  | .put _ _ => inferInstanceAs (Decidable (_ ∧ _))
  | .del => isTrue trivial

def step (kind : ReadKind) (cap : Nat) (bucket key : String) (s : Race) : RaceStep → Option Race
  | .choose =>
    match s.phase with
    | .waiting =>
      if kind.starts cap ((s.index.view bucket key).row.bind ObjEntry.size) then
        some { s with phase := .chosen }
      else none
    | _ => none
  | .send =>
    match s.phase with
    | .chosen =>
      some { s with
        phase := .sent, stale := false, applied := false, alone := s.index }
    | _ => none
  | .answer buffered =>
    match s.phase with
    | .sent =>
      some { s with phase := s.origin.elim .finished fun o => kind.received cap buffered o }
    | _ => none
  | .commit canCommit =>
    match s.phase with
    | .answered o =>
      if !s.stale && canCommit then some (s.commitFold bucket key o)
      else some { s with phase := .finished }
    | _ => none
  | .addRow now =>
    match s.phase with
    | .unindexed o => (s.read now).map fun s => s.observedPut bucket key (o.entry now)
    | _ => none
  | .sizeOnly now =>
    match s.phase with
    | .refused size => (s.read now).map fun s => s.observedPut bucket key (sizeOnlyEntry size now)
    | _ => none
  | .originCommit m now =>
    match s.handler with
    | .resting =>
      (s.read now).bind fun s =>
        if s.Commits m then some { s with origin := m.object, handler := .committed m } else none
    | _ => none
  | .fence =>
    match s.handler with
    | .committed m => if s.unlocked then some { s with handler := .fenced m, stale := true } else none
    | _ => none
  | .apply now =>
    match s.handler with
    | .fenced m => (s.read now).map fun s => s.record bucket key now m
    | _ => none
  | .preInvalidate => if s.unlocked then some { s with stale := true } else none

def Careful (s : Race) : RaceStep → Prop
  | .sizeOnly _ => s.applied = false
  | _ => True

instance (s : Race) (a : RaceStep) : Decidable (s.Careful a) := by
  unfold Careful
  split <;> infer_instance

end Race

/-- What the index says of a key was stamped by `t`, and its row after its tombstone. -/
structure Sound (v : KeyView) (t : SystemTime) : Prop extends StampedBy v t where
  ordered : v.Ordered

namespace Sound

variable {v w : KeyView} {t : SystemTime} {e : ObjEntry} {auth : PutAuthority}

theorem mono {u : SystemTime} (h : Sound v t) (htu : t ≤ u) : Sound v u :=
  ⟨h.toStampedBy.mono htu, h.ordered⟩

theorem put (h : Sound v t) (he : e.lastModified ≤ t) (auth : PutAuthority) :
    Sound (v.put e auth) t := by
  refine ⟨⟨fun row hr => ?_, fun gone hg => ?_⟩, h.ordered.put e auth⟩
  · unfold KeyView.put at hr
    split at hr
    · exact h.row row hr
    · cases hr
      exact he
  · unfold KeyView.put at hg
    split at hg
    · exact h.gone gone hg
    · exact h.gone gone hg

theorem row_put (h : Sound v t) (he : e.lastModified = t) :
    (v.put e auth).row = if v.gone.any (t ≤ ·) then none else some e := by
  by_cases hg : v.gone.any (t ≤ ·) = true
  · obtain ⟨g, hgone, hle⟩ := Option.any_eq_true _ _ |>.mp hg
    have hnone : v.row = none := by
      refine Option.eq_none_iff_forall_not_mem.mpr fun row hrow => ?_
      have hlt := h.ordered row g hrow hgone
      exact absurd (h.row row hrow) (not_le.mpr ((of_decide_eq_true hle).trans_lt hlt))
    have hr : v.refuses e.lastModified = true := by
      rw [he, KeyView.refuses, hg]
      rfl
    rw [KeyView.put, if_pos hr, if_pos hg, hnone]
  · have hgone : ∀ g ∈ v.gone, g < t := fun g hgm =>
      not_le.mp fun hle => hg (Option.any_eq_true _ _ |>.mpr ⟨g, hgm, decide_eq_true hle⟩)
    rw [if_neg hg, (h.toStampedBy.put he hgone auth).1]

theorem putOver (h : Sound v t) (he : e.lastModified = t) (first : Bool) :
    Sound (v.putOver first e) t := by
  refine ⟨(h.toStampedBy.putOver he first).1, ?_⟩
  cases first with
  | true => exact fun row gone _ hg => (by cases hg)
  | false => exact h.ordered.put e _

theorem row_putOver (h : Sound v t) (he : e.lastModified = t) (first : Bool) :
    (v.putOver first e).row = if !first && v.gone.any (t ≤ ·) then none else some e := by
  cases first with
  | true => rfl
  | false => exact h.row_put he

theorem delOver (h : Sound v t) (first : Bool) :
    (v.delOver first t).row = none ∧ Sound (v.delOver first t) t := by
  refine ⟨(h.toStampedBy.delOver first).1, (h.toStampedBy.delOver first).2, ?_⟩
  exact fun row gone hr => absurd ((h.toStampedBy.delOver first).1.symm.trans hr) (by simp)

end Sound

@[simp] theorem gone_put (v : KeyView) (e : ObjEntry) (auth : PutAuthority) :
    (v.put e auth).gone = v.gone := by
  unfold KeyView.put
  split <;> rfl

theorem gone_putOver (v : KeyView) (e : ObjEntry) (first : Bool) :
    (v.putOver first e).gone = if first then none else v.gone := by
  cases first with
  | true => rfl
  | false => exact gone_put v e _

theorem gone_delOver (v : KeyView) (ts : SystemTime) (first : Bool) :
    (v.delOver first ts).gone = if first then some ts else raised v.gone ts := by
  cases first with
  | true => rfl
  | false =>
    unfold KeyView.delOver KeyView.del
    split
    · contradiction
    · split <;> rfl

theorem Describes.fill {e : ObjEntry} {o : ObservedObject} (h : Describes e o) {now : SystemTime}
    (ht : (o.entry now).lastModified = e.lastModified) :
    e.sameVersion o.fill = true ∧ o.entry now = e.fill o.fill := by
  obtain ⟨hsize, hetag, hclass, htype, hmeta⟩ := h
  constructor
  · rcases hsize with hs | hs <;> rcases hetag with he | he <;>
      simp only [ObjEntry.sameVersion, ObservedObject.fill, hs, he] <;>
      cases o.etag <;> simp
  · obtain ⟨size, time, etag, storage, ctype, m⟩ := e
    simp only at hsize hetag hclass htype hmeta ht
    simp only [ObservedObject.entry] at ht
    rcases hsize with rfl | rfl <;> rcases hetag with rfl | rfl <;> rcases htype with rfl | rfl <;>
      rcases hmeta with rfl | rfl <;>
      simp [ObservedObject.entry, ObjEntry.fill, ObservedObject.fill, hclass, ht]

/-- The row is what the writes alone leave, or that row with the fields it lacked filled in from
an answer of the same version. -/
def Close (row alone : Option ObjEntry) (origin : Option ObservedObject) : Prop :=
  row = alone ∨ ∃ e o, alone = some e ∧ origin = some o ∧ e.sameVersion o.fill = true ∧
    row = some (e.fill o.fill)

def Tracks (v : KeyView) : Option ObservedObject → Prop
  | none => v.row = none
  | some o => ∃ t ∈ o.time, (∀ e ∈ v.row, Describes e o ∧ t ≤ e.lastModified) ∧
      (v.row = none → ∃ g ∈ v.gone, t ≤ g)

theorem close_complete {v : KeyView} {alone : Option ObjEntry} {o : ObservedObject}
    (h : v.row = alone) : Close (v.complete o.fill).row alone (some o) := by
  cases hrow : v.row with
  | none =>
    left
    rw [KeyView.complete, hrow, ← h, hrow]
    rfl
  | some e =>
    by_cases hv : e.sameVersion o.fill = true
    · right
      exact ⟨e, o, by rw [← h, hrow], rfl, hv, by simp [KeyView.complete, hrow, hv]⟩
    · left
      simp [KeyView.complete, hrow, hv, ← h]

theorem Tracks.close_put {v alone : KeyView} {o : ObservedObject} (h : Tracks alone (some o))
    (hrow : v.row = alone.row) (hgone : v.gone = alone.gone) (now : SystemTime) :
    Close (v.put (o.entry now) .observation).row alone.row (some o) := by
  obtain ⟨t, ht, hsome, hnone⟩ := h
  have htime : (o.entry now).lastModified = t := by
    have ht : o.lastModified.bind originTime = some t := ht
    simp [ObservedObject.entry, ht]
  unfold KeyView.put
  split
  · exact .inl hrow
  · next hr =>
    simp only [KeyView.refuses, htime, Bool.or_eq_true, not_or, Option.any_eq_true,
      decide_eq_true_eq, not_exists, not_and] at hr
    cases ha : alone.row with
    | none =>
      obtain ⟨g, hg, hle⟩ := hnone ha
      exact absurd hle (hr.1 g (hgone ▸ hg))
    | some e =>
      obtain ⟨hd, hle⟩ := hsome e ha
      have heq : t = e.lastModified :=
        le_antisymm hle (not_lt.mp (hr.2 e (hrow.trans ha)))
      obtain ⟨hv, hfill⟩ := hd.fill (htime.trans heq)
      exact .inr ⟨e, o, rfl, rfl, hv, congrArg some hfill⟩

def Handler.mutation : Handler → Option Mutation
  | resting => none
  | committed m | fenced m => some m

def ReadPhase.answer : ReadPhase → Option ObservedObject
  | answered o | unindexed o => some o
  | _ => none

def Mutation.Described : Mutation → Prop
  | put e o => Describes e o
  | del => True

theorem ObservedObject.TimedBy.mono {o : ObservedObject} {t u : SystemTime} (h : o.TimedBy t)
    (htu : t ≤ u) : o.TimedBy u :=
  let ⟨time, ht, hle⟩ := h
  ⟨time, ht, hle.trans (wireStamp_mono htu)⟩

theorem ObservedObject.TimedBy.entry_le {o : ObservedObject} {clock : SystemTime}
    (h : o.TimedBy clock) (now : SystemTime) :
    (o.entry now).lastModified ≤ wireStamp clock := by
  obtain ⟨t, ht, hle⟩ := h
  have ht : o.lastModified.bind originTime = some t := ht
  simpa [ObservedObject.entry, ht] using hle

namespace Race

structure Inv (bucket key : String) (s : Race) : Prop where
  sound : Sound (s.index.view bucket key) (wireStamp s.clock)
  soundAlone : Sound (s.alone.view bucket key) (wireStamp s.clock)
  gone : (s.index.view bucket key).gone = (s.alone.view bucket key).gone
  first : (s.index.bucket bucket).firstRebuildMutation key =
    (s.alone.bucket bucket).firstRebuildMutation key
  timed : ∀ o ∈ s.origin, o.TimedBy s.clock
  pending : ∀ m ∈ s.handler.mutation, s.origin = m.object ∧ m.Described
  heard : ∀ o ∈ s.phase.answer, o.TimedBy s.clock
  /-- An answer nobody fenced is the origin's object still, or its write has yet to fence. -/
  upToDate : ∀ o ∈ s.phase.answer, s.stale = false →
    s.origin = some o ∨ ∃ m, s.handler = .committed m
  locked : s.unlocked = false → s.stale = false
  exact : s.phase ≠ .finished → (s.index.view bucket key).row = (s.alone.view bucket key).row
  settled : s.handler = .resting → s.applied = true →
    Close (s.index.view bucket key).row (s.alone.view bucket key).row s.origin ∧
      Tracks (s.alone.view bucket key) s.origin

variable {bucket key : String} {s t : Race}

theorem Inv.read (h : s.Inv bucket key) {now : SystemTime} (hr : s.read now = some t) :
    t.Inv bucket key ∧ t = { s with clock := now } := by
  obtain ⟨hle, heq⟩ := Option.ite_none_right_eq_some.mp hr
  cases heq
  have hw := wireStamp_mono hle
  exact ⟨⟨h.sound.mono hw, h.soundAlone.mono hw, h.gone, h.first,
    fun o ho => (h.timed o ho).mono hle, h.pending, fun o ho => (h.heard o ho).mono hle,
    h.upToDate, h.locked, h.exact, h.settled⟩, rfl⟩

theorem Inv.moveTo (h : s.Inv bucket key) {p : ReadPhase} (hs : s.phase ≠ .finished)
    (hp : ∀ o ∈ p.answer, s.origin = some o) (hu : { s with phase := p }.unlocked = true) :
    { s with phase := p }.Inv bucket key where
  sound := h.sound
  soundAlone := h.soundAlone
  gone := h.gone
  first := h.first
  timed := h.timed
  pending := h.pending
  heard o ho := h.timed o (hp o ho)
  upToDate o ho _ := .inl (hp o ho)
  locked hl := by simp [hu] at hl
  exact _ := h.exact hs
  settled := h.settled

theorem Inv.finish (h : s.Inv bucket key) {index : KeyIndexState}
    (hsound : Sound (index.view bucket key) (wireStamp s.clock))
    (hgone : (index.view bucket key).gone = (s.index.view bucket key).gone)
    (hfirst : (index.bucket bucket).firstRebuildMutation key =
      (s.index.bucket bucket).firstRebuildMutation key)
    (hclose : s.handler = .resting → s.applied = true →
      Close (index.view bucket key).row (s.alone.view bucket key).row s.origin) :
    { s with index, phase := .finished }.Inv bucket key where
  sound := hsound
  soundAlone := h.soundAlone
  gone := hgone.trans h.gone
  first := hfirst.trans h.first
  timed := h.timed
  pending := h.pending
  heard o ho := absurd ho (Option.not_mem_none o)
  upToDate o ho := absurd ho (Option.not_mem_none o)
  locked hl := by cases hl
  exact hp := absurd rfl hp
  settled hr ha := ⟨hclose hr ha, (h.settled hr ha).2⟩

theorem Inv.originCommit (h : s.Inv bucket key) {m : Mutation} (hm : s.Commits m) :
    { s with origin := m.object, handler := .committed m }.Inv bucket key where
  sound := h.sound
  soundAlone := h.soundAlone
  gone := h.gone
  first := h.first
  timed o ho := by
    cases m with
    | put e o' =>
      cases ho
      exact hm.2
    | del => cases ho
  pending m' hm' := by
    cases hm'
    refine ⟨rfl, ?_⟩
    cases m with
    | put e o => exact hm.1
    | del => trivial
  heard := h.heard
  upToDate _ _ _ := .inr ⟨m, rfl⟩
  locked := h.locked
  exact := h.exact
  settled hr := by cases hr

theorem Inv.fence (h : s.Inv bucket key) {m : Mutation} (hm : s.handler = .committed m)
    (hu : s.unlocked = true) : { s with handler := .fenced m, stale := true }.Inv bucket key where
  sound := h.sound
  soundAlone := h.soundAlone
  gone := h.gone
  first := h.first
  timed := h.timed
  pending m' hm' := h.pending m' (by rw [hm]; exact hm')
  heard := h.heard
  upToDate _ _ hs := by cases hs
  locked hl := absurd hu (by rw [show s.unlocked = false from hl]; decide)
  exact := h.exact
  settled hr := by cases hr

theorem Inv.preInvalidate (h : s.Inv bucket key) (hu : s.unlocked = true) :
    { s with stale := true }.Inv bucket key where
  sound := h.sound
  soundAlone := h.soundAlone
  gone := h.gone
  first := h.first
  timed := h.timed
  pending := h.pending
  heard := h.heard
  upToDate _ _ hs := by cases hs
  locked hl := absurd hu (by rw [show s.unlocked = false from hl]; decide)
  exact := h.exact
  settled := h.settled

theorem Inv.applied (h : s.Inv bucket key) {m : Mutation} (hm : s.handler = .fenced m)
    {index alone : KeyIndexState} (hsound : Sound (index.view bucket key) (wireStamp s.clock))
    (halone : Sound (alone.view bucket key) (wireStamp s.clock))
    (hgone : (index.view bucket key).gone = (alone.view bucket key).gone)
    (hfirst : (index.bucket bucket).firstRebuildMutation key =
      (alone.bucket bucket).firstRebuildMutation key)
    (hrow : (index.view bucket key).row = (alone.view bucket key).row)
    (htracks : Tracks (alone.view bucket key) s.origin) :
    { s with index, alone, handler := .resting, applied := true }.Inv bucket key where
  sound := hsound
  soundAlone := halone
  gone := hgone
  first := hfirst
  timed := h.timed
  pending m hm := absurd hm (Option.not_mem_none m)
  heard := h.heard
  upToDate o ho hs := by
    rcases h.upToDate o ho hs with horigin | ⟨m', hm'⟩
    · exact .inl horigin
    · rw [hm] at hm'
      cases hm'
  locked := h.locked
  exact _ := hrow
  settled _ _ := ⟨.inl hrow, htracks⟩

theorem answer_received {kind : ReadKind} {cap : Nat} {buffered : Bool} {o o' : ObservedObject}
    (h : o' ∈ (kind.received cap buffered o).answer) : o' = o := by
  unfold ReadKind.received at h
  cases kind <;> simp only at h <;> repeat' split at h
  all_goals simp_all [ReadPhase.answer]

theorem unlocked_received (s : Race) (kind : ReadKind) (cap : Nat) (buffered : Bool)
    (o : ObservedObject) : { s with phase := kind.received cap buffered o }.unlocked = true := by
  cases hr : kind.received cap buffered o with
  | unindexed =>
    unfold ReadKind.received at hr
    cases kind <;> simp only at hr <;> repeat' split at hr
    all_goals cases hr
  | _ => rfl

theorem Inv.answer (h : s.Inv bucket key) (hp : s.phase = .sent) (kind : ReadKind) (cap : Nat)
    (buffered : Bool) :
    { s with phase := s.origin.elim .finished fun o => kind.received cap buffered o }.Inv
      bucket key := by
  refine h.moveTo (by rw [hp]; exact ReadPhase.noConfusion) (fun o' hm => ?_) ?_
  · cases ho : s.origin with
    | none =>
      rw [ho] at hm
      cases hm
    | some o =>
      rw [ho] at hm
      rw [answer_received hm]
  · cases ho : s.origin with
    | none => rfl
    | some o => exact s.unlocked_received kind cap buffered o

theorem Inv.send (h : s.Inv bucket key) :
    { s with
      phase := .sent, stale := false, applied := false, alone := s.index }.Inv bucket key where
  sound := h.sound
  soundAlone := h.sound
  gone := rfl
  first := rfl
  timed := h.timed
  pending := h.pending
  heard o ho := absurd ho (Option.not_mem_none o)
  upToDate o ho := absurd ho (Option.not_mem_none o)
  locked _ := rfl
  exact _ := rfl
  settled _ ha := by cases ha

variable [Layout]

theorem Inv.observedPut (h : s.Inv bucket key) {e : ObjEntry}
    (he : e.lastModified ≤ wireStamp s.clock)
    (hclose : s.handler = .resting → s.applied = true →
      Close (s.index.view bucket key).row (s.alone.view bucket key).row s.origin →
      Close ((s.index.view bucket key).put e .observation).row (s.alone.view bucket key).row
        s.origin) :
    (s.observedPut bucket key e).Inv bucket key := by
  refine h.finish ?_ ?_ (first_applyObservedPut key key e) fun hr ha => ?_
  all_goals
    rcases view_applyObservedPut key e with hv | hv <;> rw [hv]
  · exact h.sound
  · exact h.sound.put he _
  · exact gone_put _ _ _
  · exact (h.settled hr ha).1
  · exact hclose hr ha (h.settled hr ha).1

theorem Inv.commitFold (h : s.Inv bucket key) {o : ObservedObject} (hp : s.phase = .answered o)
    (hs : s.stale = false) : (s.commitFold bucket key o).Inv bucket key := by
  obtain ⟨hview, hnone, hgeneration, htouched⟩ := completeEntry_spec s.index bucket key o.fill
  have hfirst : ((s.index.completeEntry bucket key o.fill).2.bucket bucket).firstRebuildMutation key =
      (s.index.bucket bucket).firstRebuildMutation key := by
    simp only [BucketState.firstRebuildMutation, hgeneration, htouched]
  have hexact := h.exact (by rw [hp]; exact ReadPhase.noConfusion)
  have ho : o ∈ s.phase.answer := by rw [hp]; rfl
  have hsound : Sound ((s.index.view bucket key).complete o.fill) (wireStamp s.clock) := by
    refine ⟨⟨fun row hrow => ?_, h.sound.gone⟩, fun row gone hrow hgone => ?_⟩
    all_goals
      obtain ⟨e, he, rfl⟩ := Option.map_eq_some_iff.mp hrow
      split
    · exact h.sound.row e he
    · exact h.sound.row e he
    · exact h.sound.ordered e gone he hgone
    · exact h.sound.ordered e gone he hgone
  have hfinish := h.finish (hview ▸ hsound) (by rw [hview]; rfl) hfirst fun hr ha => by
    rcases h.upToDate o ho hs with horigin | ⟨m, hm⟩
    · rw [hview, horigin]
      exact close_complete hexact
    · rw [hm] at hr
      cases hr
  unfold Race.commitFold
  split
  · next index heq =>
    rw [heq] at hview hnone hfirst
    have hrow := hnone.mp rfl
    have hsame : index.view bucket key = s.index.view bucket key :=
      hview.trans (KeyView.complete_of_none hrow _)
    exact
      { sound := hsame ▸ h.sound
        soundAlone := h.soundAlone
        gone := hsame ▸ h.gone
        first := hfirst.trans h.first
        timed := h.timed
        pending := h.pending
        heard := fun _ hm => h.heard _ (by rw [hp]; exact hm)
        upToDate := fun _ hm => h.upToDate _ (by rw [hp]; exact hm)
        locked := fun _ => hs
        exact := fun _ => hsame ▸ hexact
        settled := hsame ▸ h.settled }
  · next heq =>
    rw [heq] at hfinish
    exact hfinish

theorem Inv.record (h : s.Inv bucket key) {m : Mutation} (hm : s.handler = .fenced m) :
    (s.record bucket key s.clock m).Inv bucket key := by
  obtain ⟨horigin, hdesc⟩ := h.pending m (by rw [hm]; rfl)
  cases m with
  | del =>
    have hv := h.sound.delOver ((s.index.bucket bucket).firstRebuildMutation key)
    have ha := h.soundAlone.delOver ((s.alone.bucket bucket).firstRebuildMutation key)
    have hfirst := (first_recordDel s.index bucket key s.clock).trans
      (first_recordDel s.alone bucket key s.clock).symm
    refine h.applied hm (view_recordDel s.clock ▸ hv.2) (view_recordDel s.clock ▸ ha.2) ?_ hfirst ?_ ?_
    · rw [view_recordDel, view_recordDel, gone_delOver, gone_delOver, h.gone, h.first]
    · rw [view_recordDel, view_recordDel, hv.1, ha.1]
    · rw [horigin, view_recordDel]
      exact ha.1
  | put e o =>
    have hrow := h.sound.row_putOver (e := { e with lastModified := wireStamp s.clock }) rfl
      ((s.index.bucket bucket).firstRebuildMutation key)
    have hrowA := h.soundAlone.row_putOver (e := { e with lastModified := wireStamp s.clock }) rfl
      ((s.alone.bucket bucket).firstRebuildMutation key)
    have hfirst := (first_recordPut s.index bucket key e s.clock).trans
      (first_recordPut s.alone bucket key e s.clock).symm
    refine h.applied hm (view_recordPut e s.clock ▸ h.sound.putOver rfl _)
      (view_recordPut e s.clock ▸ h.soundAlone.putOver rfl _) ?_ hfirst ?_ ?_
    · rw [view_recordPut, view_recordPut, gone_putOver, gone_putOver, h.gone, h.first]
    · rw [view_recordPut, view_recordPut, hrow, hrowA, h.gone, h.first]
    · obtain ⟨t, ht, hle⟩ := h.timed o (horigin ▸ rfl)
      rw [horigin, view_recordPut]
      refine ⟨t, ht, fun row hmem => ?_, fun hnone => ?_⟩
      · rw [hrowA] at hmem
        split at hmem
        · cases hmem
        · cases hmem
          exact ⟨⟨hdesc.size, hdesc.etag, hdesc.storageClass, hdesc.contentType, hdesc.objMeta⟩, hle⟩
      · rw [hrowA] at hnone
        split at hnone
        · next hg =>
          obtain ⟨hf, hg⟩ := Bool.and_eq_true_iff.mp hg
          obtain ⟨g, hgone, hg⟩ := Option.any_eq_true _ _ |>.mp hg
          refine ⟨g, ?_, hle.trans (of_decide_eq_true hg)⟩
          rwa [gone_putOver, if_neg (by simpa using hf)]
        · cases hnone

theorem Inv.addRow (h : s.Inv bucket key) {o : ObservedObject} (hp : s.phase = .unindexed o)
    (now : SystemTime) : (s.observedPut bucket key (o.entry now)).Inv bucket key := by
  have ho : o ∈ s.phase.answer := by rw [hp]; rfl
  have hs : s.stale = false := h.locked (by rw [unlocked, hp])
  refine h.observedPut ((h.heard o ho).entry_le now) fun hr ha _ => ?_
  rcases h.upToDate o ho hs with horigin | ⟨m, hm⟩
  · have htracks := (h.settled hr ha).2
    rw [horigin] at htracks ⊢
    exact htracks.close_put (h.exact (by rw [hp]; exact ReadPhase.noConfusion)) h.gone now
  · rw [hm] at hr
    cases hr

theorem Inv.step {kind : ReadKind} {cap : Nat} {a : RaceStep} (h : s.Inv bucket key)
    (hok : s.Careful a) (hs : s.step kind cap bucket key a = some t) : t.Inv bucket key := by
  cases a with
  | choose =>
    simp only [Race.step] at hs
    split at hs
    · next hp =>
      obtain ⟨-, hs⟩ := Option.ite_none_right_eq_some.mp hs
      cases hs
      exact h.moveTo (by rw [hp]; exact ReadPhase.noConfusion)
        (fun o ho => absurd ho (Option.not_mem_none o)) rfl
    · cases hs
  | send =>
    simp only [Race.step] at hs
    split at hs
    · cases hs
      exact h.send
    · cases hs
  | answer buffered =>
    simp only [Race.step] at hs
    split at hs
    · next hp =>
      cases hs
      exact h.answer hp kind cap buffered
    · cases hs
  | commit canCommit =>
    simp only [Race.step] at hs
    split at hs
    · next o hp =>
      split at hs
      · next hc =>
        cases hs
        exact h.commitFold hp (by simpa using (Bool.and_eq_true_iff.mp hc).1)
      · cases hs
        exact h.moveTo (by rw [hp]; exact ReadPhase.noConfusion)
          (fun o ho => absurd ho (Option.not_mem_none o)) rfl
    · cases hs
  | addRow now =>
    simp only [Race.step] at hs
    split at hs
    · next o hp =>
      obtain ⟨u, hr, rfl⟩ := Option.map_eq_some_iff.mp hs
      obtain ⟨hu, rfl⟩ := h.read hr
      exact hu.addRow hp now
    · cases hs
  | sizeOnly now =>
    simp only [Race.step] at hs
    split at hs
    · obtain ⟨u, hr, rfl⟩ := Option.map_eq_some_iff.mp hs
      obtain ⟨hu, rfl⟩ := h.read hr
      refine hu.observedPut le_rfl fun _ ha => ?_
      rw [show s.applied = false from hok] at ha
      cases ha
    · cases hs
  | originCommit m now =>
    simp only [Race.step] at hs
    split at hs
    · obtain ⟨u, hr, hs⟩ := Option.bind_eq_some_iff.mp hs
      obtain ⟨hu, rfl⟩ := h.read hr
      obtain ⟨hm, hs⟩ := Option.ite_none_right_eq_some.mp hs
      cases hs
      exact hu.originCommit hm
    · cases hs
  | fence =>
    simp only [Race.step] at hs
    split at hs
    · next hm =>
      obtain ⟨hu, hs⟩ := Option.ite_none_right_eq_some.mp hs
      cases hs
      exact h.fence hm hu
    · cases hs
  | apply now =>
    simp only [Race.step] at hs
    split at hs
    · next hm =>
      obtain ⟨u, hr, rfl⟩ := Option.map_eq_some_iff.mp hs
      obtain ⟨hu, rfl⟩ := h.read hr
      exact hu.record hm
    · cases hs
  | preInvalidate =>
    obtain ⟨hu, hs⟩ := Option.ite_none_right_eq_some.mp hs
    cases hs
    exact h.preInvalidate hu

def start (index : KeyIndexState) (clock : SystemTime)
    (origin : Option ObservedObject) : Race where
  index := index
  clock := clock
  origin := origin
  alone := index

/-- In every run whose read is careful, once the writes have finished and one was applied since the
request left, the key's tombstone is what the writes alone leave, its row is that row but for fields
filled in, and a deleted key has none. -/
theorem mutations_prevail {kind : ReadKind} {cap : Nat} {index : KeyIndexState}
    {clock : SystemTime} {origin : Option ObservedObject} {l : List RaceStep}
    (hsound : Sound (index.view bucket key) (wireStamp clock))
    (htimed : ∀ o ∈ origin, o.TimedBy clock)
    (hrun : Machine.Runs (step kind cap bucket key) Careful
      (start index clock origin) l s)
    (hwrites : s.handler = .resting) (happlied : s.applied = true) :
    (s.index.view bucket key).gone = (s.alone.view bucket key).gone ∧
    Close (s.index.view bucket key).row (s.alone.view bucket key).row s.origin ∧
    (s.origin = none → (s.index.view bucket key).row = none) := by
  have h0 : (start index clock origin).Inv bucket key :=
    { sound := hsound
      soundAlone := hsound
      gone := rfl
      first := rfl
      timed := htimed
      pending := fun m hm => absurd hm (Option.not_mem_none m)
      heard := fun o ho => absurd ho (Option.not_mem_none o)
      upToDate := fun o ho => absurd ho (Option.not_mem_none o)
      locked := fun _ => rfl
      exact := fun _ => rfl
      settled := fun _ ha => by cases ha }
  have h := hrun.keeps (fun _ _ _ h hok hs => h.step hok hs) h0
  obtain ⟨hclose, htracks⟩ := h.settled hwrites happlied
  refine ⟨h.gone, hclose, fun ho => ?_⟩
  rw [ho] at hclose htracks
  rcases hclose with heq | ⟨e, o, -, hnone, -⟩
  · exact heq.trans htracks
  · cases hnone

end Race

section Sample
local instance readRaceLayout : Layout := sampleLayout

def sampleObject (size : Int64) (eTag : String) : ObservedObject :=
  ⟨some size, some 1, some (.strong eTag), some "text/plain", standardClass, {}⟩

def sampleEntry (eTag : String) : ObjEntry :=
  ⟨some 3, .unixEpoch, some (.strong eTag), standardClass, none, none⟩

def second (n : UInt64) : SystemTime := fromMicros (n * 1000000)

def sampleRace : Race :=
  (Machine.run (Machine.guarded (Race.step .get 10 "b" "k") Race.Careful)
    (.start (({} : KeyIndexState).beginBucketResync "b").2 (second 5) none)
    [.originCommit (.put (sampleEntry "a") (sampleObject 3 "a")) (second 6), .fence, .choose, .send,
      .answer true, .commit true, .apply (second 7), .addRow (second 8)]).get (by decide +kernel)

theorem mutations_prevail_sample :
    (sampleRace.index.view "b" "k").row = some { sampleEntry "a" with lastModified := second 7 } ∧
    Close (sampleRace.index.view "b" "k").row (sampleRace.alone.view "b" "k").row
      sampleRace.origin := by
  have hempty : (({} : KeyIndexState).beginBucketResync "b").2.view "b" "k" = {} := by decide +kernel
  have hsound : Sound ((({} : KeyIndexState).beginBucketResync "b").2.view "b" "k")
      (wireStamp (second 5)) := by
    rw [hempty]
    exact ⟨⟨fun row hr => absurd hr (Option.not_mem_none row),
      fun gone hg => absurd hg (Option.not_mem_none gone)⟩, fun row gone hr => by cases hr⟩
  refine ⟨by decide +kernel, (Race.mutations_prevail hsound
    (fun o ho => absurd ho (Option.not_mem_none o))
    (Machine.runs_of_run_guarded (Option.some_get _).symm) ?_ ?_).2.1⟩
  · rfl
  · decide +kernel

/-- A range promotion refused for its size, with the key deleted while its request was out. -/
def sampleResurrection : Race :=
  (Machine.run (Race.step .promote 10 "b" "k")
    (.start (recordPut {} "b" "k" (sampleEntry "a") (second 2)) (second 5)
      (some (sampleObject 100 "z")))
    [.choose, .send, .answer true, .originCommit .del (second 6), .fence, .apply (second 7),
      .sizeOnly (second 8)]).get (by decide +kernel)

theorem size_only_resurrects :
    sampleResurrection.applied = true ∧ sampleResurrection.origin.isNone = true ∧
    (sampleResurrection.alone.view "b" "k").row = none ∧
    (sampleResurrection.index.view "b" "k").row = some (sizeOnlyEntry 100 (second 8)) := by
  decide +kernel

end Sample

end S3Cache.Cache

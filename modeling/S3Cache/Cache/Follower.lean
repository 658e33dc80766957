import S3Cache.Cache.Reads
import S3Cache.Lib.Machine
import S3Cache.Sync.Feed

/-! A replicated node applying its peers' describable writes of one key (`sync/coherence.rs`)
while it serves reads of it.  An event is acknowledged once the index has moved and the hot copy is
gone; the warm copy is retired later. -/

namespace S3Cache.Cache

open Index Tier KeyIndexState Fleet Sync

structure PeerEvent where
  peer : String
  token : WriteToken
  event : IndexEvent
  object : Option OriginObject

def PeerEvent.Describes [ETagParser] (bucket key : String) (e : PeerEvent) : Prop :=
  e.event.bucket = bucket ∧ e.event.key = key ∧
  match e.event.op, e.object with
  | .put _ (some tag) _ _, some o => o.etag = ETagParser.parse tag
  | .del, none => True
  | _, _ => False

instance PeerEvent.decidableDescribes [ETagParser] (bucket key : String) (e : PeerEvent) :
    Decidable (e.Describes bucket key) := by
  unfold PeerEvent.Describes
  split <;> infer_instance

inductive Applying where
  | idle
  | fenced (n : Nat)
  | applied (n : Nat)
  | marked (n : Nat)
  | evicted (n : Nat)
  deriving DecidableEq

structure Follower (ι : Type) where
  reads : Reads ι
  events : List PeerEvent := []
  loop : Applying := .idle
  spawned : Nat := 0
  retiring : Nat := 0
  applied : Bool := false
  evicted : Bool := false
  acked : Bool := false
  rows : List ObjEntry := []
  fresh : ι → Bool := fun _ => false

inductive FollowerStep (ι : Type) where
  | read (i : ι) (a : ReadStep)
  | tier (a : TierStep)
  | write (e : PeerEvent)
  | deliver (n : Nat)
  | advance
  | retireFence
  | retire (dropped : Bool)

namespace Follower

variable {ι : Type} [DecidableEq ι] [Fintype ι] [Layout] [ETagParser]

def advance (n : Nat) (s : Follower ι) : Option (Follower ι) :=
  match s.loop with
  | .idle => none
  | .fenced m =>
    if s.reads.Quiet then
      match s.events[m]? with
      | some e =>
        match applyFeedIndex s.reads.index e.peer e.token e.event with
        | some (_, index) =>
          some { s with
            reads := { s.reads with index }, loop := .applied m
            applied := s.applied || decide (m = n) }
        | none => none
      | none => none
    else none
  | .applied m => some { s with reads := s.reads.fenceFills, loop := .marked m }
  | .marked m =>
    if s.reads.Quiet then
      some { s with
        reads := s.reads.evictHot, loop := .evicted m, evicted := s.evicted || decide (m = n) }
    else none
  | .evicted m =>
    some { s with loop := .idle, spawned := s.spawned + 1, acked := s.acked || decide (m = n) }

def move (bucket key : String) (n : Nat) (s : Follower ι) :
    FollowerStep ι → Option (Follower ι)
  | .read i a =>
    (s.reads.read bucket key i a).map fun reads =>
      match a with
      | .start => { s with reads, fresh := Function.update s.fresh i s.acked }
      | _ => { s with reads }
  | .tier a => some { s with reads := s.reads.tier a }
  | .write e =>
    if e.Describes bucket key then
      some { s with
        reads := { s.reads with origin := e.object, version := s.reads.version + 1 }
        events := s.events ++ [e] }
    else none
  | .deliver m =>
    if s.loop = .idle ∧ m < s.events.length then
      some { s with reads := s.reads.fenceFills, loop := .fenced m }
    else none
  | .advance => s.advance n
  | .retireFence =>
    if 0 < s.spawned then
      some { s with
        reads := s.reads.fenceFills, spawned := s.spawned - 1, retiring := s.retiring + 1 }
    else none
  | .retire dropped =>
    if 0 < s.retiring ∧ s.reads.Quiet then
      some { s with reads := s.reads.evict dropped, retiring := s.retiring - 1 }
    else none

def noteRow (bucket key : String) (s : Follower ι) : Follower ι :=
  if s.applied then { s with rows := (s.reads.index.view bucket key).row.toList ++ s.rows } else s

def step (bucket key : String) (n : Nat) (s : Follower ι) (a : FollowerStep ι) :
    Option (Follower ι) := (s.move bucket key n a).map (·.noteRow bucket key)

end Follower

/-- The copy was fetched after the `n`th write, or a row held since it was applied proves it. -/
def Vouched (n : Nat) (rows : List ObjEntry) (c : Copy) : Prop :=
  n < c.version ∨ ∃ row ∈ rows, ProvenBy row c.obj

theorem Vouched.marked {n : Nat} {rows : List ObjEntry} {c : Copy} (g : Nat)
    (h : Vouched n rows c) : Vouched n rows (c.marked g) := h

theorem Vouched.append {n : Nat} {rows : List ObjEntry} {c : Copy} (h : Vouched n rows c)
    (more : List ObjEntry) : Vouched n (more ++ rows) c := by
  rcases h with h | ⟨row, hr, hp⟩
  · exact .inl h
  · exact .inr ⟨row, List.mem_append_right more hr, hp⟩

namespace Follower

variable {ι : Type} {bucket key : String} {n : Nat} {s t : Follower ι}

def Barred (n : Nat) (s : Follower ι) : Prop := s.loop = .fenced n ∨ s.applied = true

def Noted (bucket key : String) (s : Follower ι) : Prop :=
  s.applied = true → ∀ row ∈ (s.reads.index.view bucket key).row, row ∈ s.rows

theorem Barred.applied (h : s.Barred n) (hl : ∀ m, s.loop ≠ .fenced m) : s.applied = true :=
  h.resolve_left (hl n)

structure Inv (n : Nat) (s : Follower ι) : Prop where
  replicated : s.reads.replicated = true
  formed : s.reads.Formed
  length : s.events.length = s.reads.version
  delivered : ∀ m, s.loop = .fenced m → m < s.reads.version
  loop : s.loop = .applied n ∨ s.loop = .marked n ∨ s.loop = .evicted n → s.applied = true
  gone : s.loop = .evicted n → s.evicted = true
  order : (s.acked = true → s.evicted = true) ∧ (s.evicted = true → s.applied = true)
  written : s.Barred n → n < s.reads.version
  barred : s.Barred n → ∀ i, (s.reads.phase i).unfenced = true →
    ∀ c ∈ (s.reads.phase i).answer, n < c.version
  landed : s.applied = true → ∀ i, ∀ c ∈ (s.reads.phase i).answer, n < c.version
  unfresh : s.evicted = false → ∀ i, s.fresh i = false
  safe : s.evicted = true → ∃ mark, s.reads.Safe mark (Vouched n s.rows) (s.fresh · = true)

theorem Inv.frame (h : s.Inv n) {reads : Reads ι}
    (hsafe : ∀ {mark Good fresh}, s.reads.Safe mark Good fresh → reads.Safe mark Good fresh)
    (hrep : reads.replicated = s.reads.replicated) (hversion : reads.version = s.reads.version)
    (hanswer : ∀ i, ∀ c ∈ (reads.phase i).answer, c ∈ (s.reads.phase i).answer)
    (hunfenced : ∀ i, (reads.phase i).unfenced = true → (s.reads.phase i).unfenced = true) :
    { s with reads }.Inv n :=
  { h with
    replicated := hrep.trans h.replicated
    formed := hsafe h.formed
    length := h.length.trans hversion.symm
    delivered := fun m hm => hversion ▸ h.delivered m hm
    written := fun hb => hversion ▸ h.written hb
    barred := fun hb i hu c hc => h.barred hb i (hunfenced i hu) c (hanswer i c hc)
    landed := fun ha i c hc => h.landed ha i c (hanswer i c hc)
    safe := fun he => let ⟨mark, hm⟩ := h.safe he; ⟨mark, hsafe hm⟩ }

theorem Inv.fenceFills (h : s.Inv n) :
    { s with reads := s.reads.fenceFills }.Inv n :=
  h.frame (fun hs => hs.fenceFills) rfl rfl (fun _ _ hc => Reading.answer_of_fenced hc)
    fun i hi => by simp [Reads.fenceFills] at hi

theorem Inv.evict (h : s.Inv n) (dropped : Bool) :
    { s with reads := s.reads.evict dropped }.Inv n :=
  h.frame (fun hs => hs.evict dropped) rfl rfl (fun _ _ hc => hc) fun _ hi => hi

theorem Inv.tier (h : s.Inv n) (a : TierStep) :
    { s with reads := s.reads.tier a }.Inv n := by
  refine h.frame (fun hs => hs.tier a) ?_ ?_ ?_ ?_ <;> cases a <;>
    first | rfl | exact fun _ _ hc => hc | exact fun _ hi => hi

theorem Inv.noteRow (h : s.Inv n) :
    (s.noteRow bucket key).Inv n ∧ (s.noteRow bucket key).Noted bucket key := by
  unfold Follower.noteRow
  split
  · refine ⟨{ h with safe := fun he => ?_ }, fun _ row hr => ?_⟩
    · obtain ⟨mark, hm⟩ := h.safe he
      exact ⟨mark, hm.mono (fun _ g hg => hg.marked g) fun _ hg => hg.append _⟩
    · exact List.mem_append_left _ (Option.mem_toList.mpr hr)
  · next ha => exact ⟨h, fun ha' => absurd ha' ha⟩

theorem Inv.apply (h : s.Inv n) {m : Nat} (hl : s.loop = .fenced m) (hq : s.reads.Quiet)
    (index : KeyIndexState) :
    { s with
      reads := { s.reads with index }, loop := .applied m
      applied := s.applied || decide (m = n) }.Inv n := by
  have hbarred : (s.applied || decide (m = n)) = true → s.Barred n := by
    intro ha
    rcases Bool.or_eq_true_iff.mp ha with ha | hm
    · exact .inr ha
    · exact .inl (by rw [hl, of_decide_eq_true hm])
  refine ⟨h.replicated, h.formed.congr index _ _, h.length, fun _ hm => (by cases hm), fun hm => ?_,
    fun hm => (by cases hm), ⟨h.order.1, fun he => ?_⟩,
    fun hb => h.written (hbarred (hb.applied fun _ hm => by cases hm)),
    fun hb => h.barred (hbarred (hb.applied fun _ hm => by cases hm)),
    fun ha i c hc => ?_, h.unfresh, fun he => ?_⟩
  · rcases hm with hm | hm | hm
    · cases hm
      simp
    · cases hm
    · cases hm
  · simp [h.order.2 he]
  · exact h.barred (hbarred ha) i (Reading.unfenced_of_answer hc (hq i)) c hc
  · obtain ⟨mark, hm⟩ := h.safe he
    exact ⟨mark, hm.congr index _ _⟩

theorem Inv.deliver (h : s.Inv n) {m : Nat} (hm : m < s.events.length) :
    { s with reads := s.reads.fenceFills, loop := .fenced m }.Inv n := by
  have hf := h.fenceFills
  refine ⟨hf.replicated, hf.formed, hf.length, fun _ hm' => ?_, fun hm' => ?_, fun hm' => ?_,
    hf.order, fun hb => ?_, fun _ i hu => ?_, hf.landed, hf.unfresh, hf.safe⟩
  · cases hm'
    exact h.length ▸ hm
  · rcases hm' with hm' | hm' | hm' <;> cases hm'
  · cases hm'
  · rcases hb with hb | hb
    · cases hb
      exact h.length ▸ hm
    · exact h.written (.inr hb)
  · simp [Reads.fenceFills] at hu

theorem Inv.evictHot (h : s.Inv n) {m : Nat} (hl : s.loop = .marked m) :
    { s with
      reads := s.reads.evictHot, loop := .evicted m
      evicted := s.evicted || decide (m = n) }.Inv n := by
  have happlied : (s.evicted || decide (m = n)) = true → s.applied = true := by
    intro he
    rcases Bool.or_eq_true_iff.mp he with he | hm
    · exact h.order.2 he
    · exact h.loop (.inr (.inl (by rw [hl, of_decide_eq_true hm])))
  refine ⟨h.replicated, h.formed.evictHot, h.length, fun _ hm => (by cases hm), fun hm => ?_,
    fun hm => ?_, ⟨fun ha => ?_, happlied⟩,
    fun hb => h.written (.inr (hb.applied fun _ hm => by cases hm)),
    fun hb => h.barred (.inr (hb.applied fun _ hm => by cases hm)),
    h.landed, fun he => ?_, fun he => ?_⟩
  · rcases hm with hm | hm | hm
    · cases hm
    · cases hm
    · cases hm
      exact h.loop (.inr (.inl hl))
  · cases hm
    simp
  · simp [h.order.1 ha]
  · exact h.unfresh (Bool.or_eq_false_iff.mp he).1
  · by_cases hev : s.evicted = true
    · obtain ⟨mark, hm⟩ := h.safe hev
      exact ⟨mark, hm.evictHot⟩
    · have hfresh := h.unfresh (Bool.eq_false_of_not_eq_true hev)
      have hrep := h.replicated
      refine ⟨_, h.formed.evictHot.cut (fun _ g hg => hg.marked g) rfl (fun hr => ?_)
        (fun i c hc => .inl (h.landed (happlied he) i c hc)) fun i hi => ?_⟩
      · rw [show s.reads.replicated = false from hr] at hrep
        cases hrep
      · rw [hfresh i] at hi
        cases hi

theorem Inv.ack (h : s.Inv n) {m : Nat} (hl : s.loop = .evicted m) :
    { s with loop := .idle, spawned := s.spawned + 1, acked := s.acked || decide (m = n) }.Inv n := by
  refine ⟨h.replicated, h.formed, h.length, fun _ hm => (by cases hm), fun hm => ?_,
    fun hm => (by cases hm), ⟨fun ha => ?_, h.order.2⟩,
    fun hb => h.written (.inr (hb.applied fun _ hm => by cases hm)),
    fun hb => h.barred (.inr (hb.applied fun _ hm => by cases hm)), h.landed, h.unfresh, h.safe⟩
  · rcases hm with hm | hm | hm <;> cases hm
  · rcases Bool.or_eq_true_iff.mp ha with ha | hm
    · exact h.order.1 ha
    · exact h.gone (by rw [hl, of_decide_eq_true hm])

theorem Inv.write (h : s.Inv n) (e : PeerEvent) :
    { s with
      reads := { s.reads with origin := e.object, version := s.reads.version + 1 }
      events := s.events ++ [e] }.Inv n :=
  { h with
    formed := h.formed.congr _ e.object _
    length := by simp [h.length]
    delivered := fun m hm => Nat.lt_succ_of_lt (h.delivered m hm)
    written := fun hb => Nat.lt_succ_of_lt (h.written hb)
    safe := fun he => let ⟨mark, hm⟩ := h.safe he; ⟨mark, hm.congr _ e.object _⟩ }

variable [DecidableEq ι] [Fintype ι] [Layout]

theorem Inv.read (h : s.Inv n) (hnoted : s.Noted bucket key) {i : ι} {a : ReadStep}
    {reads : Reads ι} (hs : s.reads.read bucket key i a = some reads) : { s with reads }.Inv n := by
  obtain ⟨-, hversion, hrep, -⟩ := Reads.read_frame hs
  refine ⟨hrep.trans h.replicated,
    h.formed.read (fun _ _ _ _ _ _ => trivial) (fun _ _ _ _ => trivial) hs,
    h.length.trans hversion.symm, fun m hm => hversion ▸ h.delivered m hm, h.loop, h.gone, h.order,
    fun hb => hversion ▸ h.written hb, fun hb j hu c hc => ?_, fun ha j c hc => ?_, h.unfresh,
    fun he => ?_⟩
  · rcases Reads.answer_read hs hc with ⟨hc', hu'⟩ | ⟨o, -, rfl⟩
    · exact h.barred hb j (hu' hu) c hc'
    · exact h.written hb
  · rcases Reads.answer_read hs hc with ⟨hc', -⟩ | ⟨o, -, rfl⟩
    · exact h.landed ha j c hc'
    · exact h.written (.inr ha)
  · obtain ⟨mark, hsafe⟩ := h.safe he
    have ha := h.order.2 he
    refine ⟨mark, hsafe.read (fun k g _ _ hp _ => ?_) (fun _ _ o _ => ?_) hs⟩
    · obtain ⟨row, hrow, hsame⟩ := Option.any_eq_true _ _ |>.mp (Bool.and_eq_true_iff.mp hp).2
      exact .inr ⟨row, hnoted ha row hrow, provenBy_of_compareEntryBody (by simpa using hsame)⟩
    · exact .inl (h.written (.inr ha))

omit [Fintype ι] [Layout] in
theorem Inv.freshen (h : s.Inv n) {i : ι} (hi : (s.reads.phase i).handle = none) :
    { s with fresh := Function.update s.fresh i s.acked }.Inv n := by
  refine { h with unfresh := fun he j => ?_, safe := fun he => ?_ }
  · have hacked : s.acked = false := by
      by_contra ha
      rw [h.order.1 (Bool.eq_true_of_not_eq_false ha)] at he
      cases he
    simp only [Function.update_apply, hacked]
    split
    · rfl
    · exact h.unfresh he j
  · obtain ⟨mark, hsafe⟩ := h.safe he
    exact ⟨mark, hsafe.freshen hi fun j hj => by
      simp only [Function.update_apply] at hj
      split at hj
      · exact .inl ‹_›
      · exact .inr hj⟩

variable [ETagParser]

omit [DecidableEq ι] in
theorem Inv.advance (h : s.Inv n) (hs : s.advance n = some t) : t.Inv n := by
  unfold Follower.advance at hs
  split at hs
  · cases hs
  · next m hl =>
    obtain ⟨hq, hs⟩ := Option.ite_none_right_eq_some.mp hs
    split at hs
    · split at hs
      · cases hs
        exact h.apply hl hq _
      · cases hs
    · cases hs
  · next m hl =>
    cases hs
    have hf := h.fenceFills
    refine { hf with
      delivered := fun _ hm => by cases hm
      loop := fun hm => ?_
      gone := fun hm => by cases hm
      written := fun hb => hf.written (.inr (hb.applied fun _ hm => by cases hm))
      barred := fun hb => hf.barred (.inr (hb.applied fun _ hm => by cases hm)) }
    rcases hm with hm | hm | hm
    · cases hm
    · cases hm
      exact h.loop (.inl hl)
    · cases hm
  · next m hl =>
    obtain ⟨-, hs⟩ := Option.ite_none_right_eq_some.mp hs
    cases hs
    exact h.evictHot hl
  · next m hl =>
    cases hs
    exact h.ack hl

theorem Inv.step (h : s.Inv n) (hnoted : s.Noted bucket key) {a : FollowerStep ι}
    (hs : s.step bucket key n a = some t) : t.Inv n ∧ t.Noted bucket key := by
  obtain ⟨u, hu, rfl⟩ := Option.map_eq_some_iff.mp hs
  suffices hinv : u.Inv n from hinv.noteRow
  cases a with
  | read i a =>
    obtain ⟨reads, hr, rfl⟩ := Option.map_eq_some_iff.mp hu
    have hread := h.read hnoted hr
    cases a with
    | start => exact hread.freshen (Reads.handle_start hr)
    | _ => exact hread
  | tier a =>
    cases hu
    exact h.tier a
  | write e =>
    obtain ⟨-, hu⟩ := Option.ite_none_right_eq_some.mp hu
    cases hu
    exact h.write e
  | deliver m =>
    obtain ⟨hm, hu⟩ := Option.ite_none_right_eq_some.mp hu
    cases hu
    exact h.deliver hm.2
  | advance => exact h.advance hu
  | retireFence =>
    obtain ⟨-, hu⟩ := Option.ite_none_right_eq_some.mp hu
    cases hu
    exact { h.fenceFills with }
  | retire =>
    obtain ⟨-, hu⟩ := Option.ite_none_right_eq_some.mp hu
    cases hu
    exact { h.evict _ with }

/-- Once a peer's write is acknowledged, a read that starts then is answered from a local copy
only if the copy was fetched after the write, or if the index held, since it applied the write, a
row that proves the copy. -/
theorem acknowledged_not_contradicted {reads : Reads ι} {l : List (FollowerStep ι)} {i : ι}
    {h : Nat} (hreplicated : reads.replicated = true) (hformed : reads.Formed)
    (hversion : reads.version = 0)
    (hrun : Machine.run (step bucket key n) { reads } l = some s)
    (hfresh : s.fresh i = true) (hserved : s.reads.phase i = .served h) :
    Vouched n s.rows (s.reads.heap h) := by
  have h0 : ({ reads } : Follower ι).Inv n ∧ ({ reads } : Follower ι).Noted bucket key := by
    refine ⟨⟨hreplicated, hformed, hversion.symm, fun _ hm => (by cases hm), fun hm => ?_,
      fun hm => (by cases hm), ⟨fun ha => (by cases ha), fun he => (by cases he)⟩, fun hb => ?_,
      fun hb => ?_, fun ha => (by cases ha), fun _ _ => rfl, fun he => (by cases he)⟩,
      fun ha => by cases ha⟩
    · rcases hm with hm | hm | hm <;> cases hm
    · rcases hb with hb | hb <;> cases hb
    · rcases hb with hb | hb <;> cases hb
  obtain ⟨hinv, -⟩ : s.Inv n ∧ s.Noted bucket key :=
    Machine.run_keeps (P := fun s => s.Inv n ∧ s.Noted bucket key) hrun
      (fun _ _ _ h hs => h.1.step h.2 hs) h0
  cases he : s.evicted with
  | false =>
    rw [hinv.unfresh he i] at hfresh
    cases hfresh
  | true =>
    obtain ⟨mark, hsafe⟩ := hinv.safe he
    exact hsafe.served i h hfresh hserved

end Follower

section Sample
local instance followerLayout : Layout := sampleLayout
local instance followerParser : ETagParser := sampleETagParser

def samplePeerPut : PeerEvent where
  peer := "p"
  token := ⟨1, 1⟩
  event := ⟨.put (some 3) (some (etagText (.strong "z"))) none none, "b", "k", 5⟩
  object := some (sampleOrigin "z")

def sampleFollower : Follower Bool :=
  (Machine.run (Follower.step "b" "k" 0) { reads := sampleReads }
    [.write samplePeerPut, .deliver 0, .advance, .advance, .advance, .advance, .read true .start,
      .read true .lookup, .read true (.register 1), .read true .get, .read true (.commit true),
      .read true (.insert true .unixEpoch), .read false .start, .read false .lookup,
      .read false .check]).get (by decide +kernel)

theorem acknowledged_not_contradicted_sample :
    sampleFollower.reads.phase false = .served 0 ∧
    Vouched 0 sampleFollower.rows (sampleFollower.reads.heap 0) := by
  have hserved : sampleFollower.reads.phase false = .served 0 := by rfl
  exact ⟨hserved, Follower.acknowledged_not_contradicted rfl formed_sampleReads rfl
    (Option.some_get _).symm (by decide +kernel) hserved⟩

end Sample

end S3Cache.Cache

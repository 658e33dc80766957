import S3Cache.Cache.Record
import S3Cache.Lib.Machine
import S3Cache.Tier.Copies

/-! Overlapping writes of one key through one node (`cache/mutation.rs`).  Each handler takes its
steps in order, the origin serialises the commits, and the steps of different handlers
interleave freely. -/

namespace S3Cache.Cache

open Index Tier KeyIndexState Fleet

/-- A `PutObject` as `CachingProxy::put` prepares it: the entry without its `ETag`, the origin's
`ETag` once it answers, whether the body was buffered for a fill, and the trust generation read
before the write. -/
structure PutRequest where
  entry : ObjEntry
  eTag : ETag
  written : Bool
  generation : Nat

inductive Request where
  | put (p : PutRequest)
  | del

/-- What the write leaves at the origin. -/
def Request.eTag : Request → Option ETag
  | put p => some p.eTag
  | del => none

inductive Phase where
  | arrived
  | preInvalidated
  | committed
  | answered
  | invalidated
  | inserted
  | finished
  deriving DecidableEq

def Phase.cleaned : Phase → Bool
  | invalidated | inserted | finished => true
  | _ => false

def Request.Indexed : Request → Option ObjEntry → Prop
  | put p, row => ∃ e, row = some e ∧ e.etag = some p.eTag
  | del, row => row = none

def Request.Current : Request → CachedObject → Prop
  | put p, obj => obj.eTag = some p.eTag
  | del, _ => False

instance (r : Request) (obj : CachedObject) : Decidable (r.Current obj) :=
  match r with
  | .put _ => inferInstanceAs (Decidable (_ = _))
  | .del => isFalse id

theorem Request.Indexed.congr {r r' : Request} (h : r.eTag = r'.eTag) {row : Option ObjEntry}
    (hi : r.Indexed row) : r'.Indexed row := by
  cases r with
  | del =>
    cases r' with
    | put q => cases h
    | del => exact hi
  | put p =>
    cases r' with
    | put q =>
      obtain ⟨e, he, htag⟩ := hi
      exact ⟨e, he, htag.trans h⟩
    | del => cases h

theorem Request.Current.congr {r r' : Request} (h : r.eTag = r'.eTag) {obj : CachedObject}
    (hc : r.Current obj) : r'.Current obj := by
  cases r with
  | del => exact hc.elim
  | put p =>
    cases r' with
    | put q => exact hc.trans h
    | del => cases h

structure Writes (ι : Type) where
  phase : ι → Phase
  commits : List ι := []
  copies : Copies
  index : KeyIndexState
  clock : SystemTime

inductive WriteStep (ι : Type) where
  | go (i : ι) (now : SystemTime) (kept dropped : Bool)
  | evictHot
  | evictWarm

def writtenObject (p : PutRequest) (now : SystemTime) : CachedObject :=
  ({ eTag := some p.eTag, lastModified := some now } : CachedObject).markTrusted p.generation

namespace Writes

variable {ι : Type} [DecidableEq ι]

def moveTo (s : Writes ι) (i : ι) (p : Phase) : Writes ι :=
  { s with phase := Function.update s.phase i p }

def invalidate (s : Writes ι) (dropped : Bool) : Writes ι :=
  { s with copies := s.copies.invalidate dropped }

def commit (s : Writes ι) (i : ι) : Writes ι := { s with commits := i :: s.commits }

def read (s : Writes ι) (now : SystemTime) : Option (Writes ι) :=
  if s.clock < now then some { s with clock := now } else none

section
variable [Layout]

def putStep (bucket key : String) (s : Writes ι) (i : ι) (p : PutRequest) (now : SystemTime)
    (kept dropped : Bool) : Option (Writes ι) :=
  match s.phase i with
  | .arrived => some ((s.invalidate dropped).moveTo i .preInvalidated)
  | .preInvalidated => some ((s.commit i).moveTo i .committed)
  | .committed => some (s.moveTo i .answered)
  | .answered => some ((s.invalidate dropped).moveTo i .invalidated)
  | .invalidated =>
    if p.written then
      (s.read now).map fun s =>
        { s with copies := s.copies.insert (writtenObject p now) kept }.moveTo i .inserted
    else some (s.moveTo i .inserted)
  | .inserted =>
    (s.read now).map fun s =>
      { s with index := recordPut s.index bucket key { p.entry with etag := some p.eTag } now }
        |>.moveTo i .finished
  | .finished => none

def delStep (bucket key : String) (s : Writes ι) (i : ι) (now : SystemTime) (dropped : Bool) :
    Option (Writes ι) :=
  match s.phase i with
  | .arrived => some ((s.commit i).moveTo i .committed)
  | .committed => some (s.moveTo i .answered)
  | .answered => some ((s.invalidate dropped).moveTo i .invalidated)
  | .invalidated =>
    (s.read now).map fun s =>
      { s with index := recordDel s.index bucket key now }.moveTo i .finished
  | .preInvalidated | .inserted | .finished => none

def step (req : ι → Request) (bucket key : String) (s : Writes ι) : WriteStep ι → Option (Writes ι)
  | .go i now kept dropped =>
    match req i with
    | .put p => s.putStep bucket key i p now kept dropped
    | .del => s.delStep bucket key i now dropped
  | .evictHot => some { s with copies := s.copies.invalidateHot }
  | .evictWarm => some { s with copies := s.copies.evictWarm }

end

def Agrees (req : ι → Request) (bucket key : String) (s : Writes ι) : Prop :=
  ∀ i ∈ s.commits.head?, (req i).Indexed (s.index.view bucket key).row ∧
    s.copies.All (req i).Current

def fills (req : ι → Request) (s : Writes ι) (i : ι) : Bool :=
  match req i with
  | .put p => p.written && s.phase i == .invalidated
  | .del => false

def indexes (req : ι → Request) (s : Writes ι) (i : ι) : Bool :=
  match req i with
  | .put _ => s.phase i == .inserted
  | .del => s.phase i == .invalidated

/-- The invalidation behind the last commit leaves no warm copy of another version.  A handler fills
the tiers only while the last committed one left the same version or has not invalidated yet, and
indexes only while it left the same version or has not indexed yet; and the last one stamps no put
in the microsecond of the key's tombstone. -/
def Orderly (req : ι → Request) (bucket key : String) (s : Writes ι) : WriteStep ι → Prop
  | .go i now _ dropped =>
    (s.phase i = .answered → s.commits.head? = some i →
      dropped = true ∨ ∀ obj ∈ s.copies.warm, (req i).Current obj) ∧
    (s.fills req i = true →
      ∀ j ∈ s.commits.head?, (req i).eTag = (req j).eTag ∨ (s.phase j).cleaned = false) ∧
    (s.indexes req i = true →
      (∀ j ∈ s.commits.head?, (req i).eTag = (req j).eTag ∨ s.phase j ≠ .finished) ∧
      (s.phase i = .inserted → s.commits.head? = some i →
        (s.index.bucket bucket).firstRebuildMutation key = false →
        ∀ gone ∈ (s.index.view bucket key).gone, gone < wireStamp now))
  | _ => True

instance (req : ι → Request) (bucket key : String) (s : Writes ι) (a : WriteStep ι) :
    Decidable (Orderly req bucket key s a) :=
  match a with
  | .go _ _ _ _ => inferInstanceAs (Decidable ((_ → _ → _) ∧ (_ → _) ∧ (_ → _)))
  | .evictHot => isTrue trivial
  | .evictWarm => isTrue trivial

structure Inv (req : ι → Request) (bucket key : String) (s : Writes ι) : Prop where
  stamps : StampedBy (s.index.view bucket key) (wireStamp s.clock)
  indexed : ∀ i ∈ s.commits.head?, s.phase i = .finished →
    (req i).Indexed (s.index.view bucket key).row
  current : ∀ i ∈ s.commits.head?, (s.phase i).cleaned = true → s.copies.All (req i).Current

variable {req : ι → Request} {bucket key : String} {s t : Writes ι} {i : ι} {p : Phase}

theorem phase_moveTo (j : ι) : (s.moveTo i p).phase j = if j = i then p else s.phase j :=
  Function.update_apply ..

theorem Inv.moveTo (h : Inv req bucket key s) (hfin : p ≠ .finished)
    (hclean : p.cleaned = true → (s.phase i).cleaned = true) : Inv req bucket key (s.moveTo i p) where
  stamps := h.stamps
  indexed j hj hp := by
    rw [phase_moveTo] at hp
    split at hp
    · exact absurd hp hfin
    · exact h.indexed j hj hp
  current j hj hp := by
    rw [phase_moveTo] at hp
    split at hp
    · next hji =>
      subst hji
      exact h.current j hj (hclean hp)
    · exact h.current j hj hp

theorem Inv.invalidate (h : Inv req bucket key s) (hfin : p ≠ .finished) {dropped : Bool}
    (hlast : p.cleaned = true → s.commits.head? = some i →
      dropped = true ∨ ∀ obj ∈ s.copies.warm, (req i).Current obj) :
    Inv req bucket key ((s.invalidate dropped).moveTo i p) where
  stamps := h.stamps
  indexed j hj hp := by
    rw [phase_moveTo] at hp
    split at hp
    · exact absurd hp hfin
    · exact h.indexed j hj hp
  current j hj hp := by
    rw [phase_moveTo] at hp
    split at hp
    · next hji =>
      subst hji
      exact Copies.all_invalidate (hlast hp hj)
    · exact Copies.all_invalidate (.inr (h.current j hj hp).2)

theorem Inv.commit (h : Inv req bucket key s) :
    Inv req bucket key ((s.commit i).moveTo i .committed) where
  stamps := h.stamps
  indexed j hj hp := by
    obtain rfl : i = j := Option.some.inj hj
    rw [phase_moveTo, if_pos rfl] at hp
    cases hp
  current j hj hp := by
    obtain rfl : i = j := Option.some.inj hj
    rw [phase_moveTo, if_pos rfl] at hp
    cases hp

omit [DecidableEq ι] in
theorem Inv.read (h : Inv req bucket key s) {now : SystemTime} (hr : s.read now = some t) :
    Inv req bucket key t ∧ t = { s with clock := now } ∧ s.clock < now := by
  obtain ⟨hlt, heq⟩ := Option.ite_none_right_eq_some.mp hr
  cases heq
  exact ⟨⟨h.stamps.mono (wireStamp_mono hlt.le), h.indexed, h.current⟩, rfl, hlt⟩

theorem Inv.insert (h : Inv req bucket key s) {obj : CachedObject} {kept : Bool}
    (hi : (s.phase i).cleaned = true)
    (hobj : (req i).Current obj ∧ (req i).Current obj.stored)
    (hlast : ∀ j ∈ s.commits.head?, (req i).eTag = (req j).eTag ∨ (s.phase j).cleaned = false) :
    Inv req bucket key ({ s with copies := s.copies.insert obj kept }.moveTo i .inserted) where
  stamps := h.stamps
  indexed j hj hp := by
    rw [phase_moveTo] at hp
    split at hp
    · cases hp
    · exact h.indexed j hj hp
  current j hj hp := by
    have hclean : (s.phase j).cleaned = true := by
      rw [phase_moveTo] at hp
      split at hp
      · next hji => rw [hji, hi]
      · exact hp
    rcases hlast j hj with hsame | hdirty
    · exact (h.current j hj hclean).insert (hobj.1.congr hsame) (hobj.2.congr hsame) kept
    · rw [hdirty] at hclean
      cases hclean

theorem Inv.record (h : Inv req bucket key s) {index : KeyIndexState} (hi : (s.phase i).cleaned = true)
    (hstamps : StampedBy (index.view bucket key) (wireStamp s.clock))
    (hindexed : ∀ j ∈ s.commits.head?, j = i ∨ s.phase j = .finished →
      (req j).Indexed (index.view bucket key).row) :
    Inv req bucket key ({ s with index }.moveTo i .finished) where
  stamps := hstamps
  indexed j hj hp := by
    rw [phase_moveTo] at hp
    split at hp
    · next hji => exact hindexed j hj (.inl hji)
    · exact hindexed j hj (.inr hp)
  current j hj hp := by
    rw [phase_moveTo] at hp
    split at hp
    · next hji =>
      subst hji
      exact h.current j hj hi
    · exact h.current j hj hp

theorem Inv.recordPut [Layout] (h : Inv req bucket key s) (hi : s.phase i = .inserted)
    {p : PutRequest} (hreq : req i = .put p)
    (hlast : ∀ j ∈ s.commits.head?, (req i).eTag = (req j).eTag ∨ s.phase j ≠ .finished)
    (hgone : s.commits.head? = some i → (s.index.bucket bucket).firstRebuildMutation key = false →
      ∀ gone ∈ (s.index.view bucket key).gone, gone < wireStamp s.clock) :
    Inv req bucket key ({ s with
      index := Cache.recordPut s.index bucket key
        { p.entry with etag := some p.eTag } s.clock }.moveTo i
        .finished) := by
  obtain ⟨hstamps, htaken⟩ := h.stamps.putOver
    (e := { p.entry with etag := some p.eTag, lastModified := wireStamp s.clock }) rfl
    ((s.index.bucket bucket).firstRebuildMutation key)
  rw [← view_recordPut { p.entry with etag := some p.eTag } s.clock] at hstamps htaken
  refine h.record (by rw [hi]; rfl) hstamps fun j hj hp => ?_
  rcases htaken with hrow | ⟨hfirst, ⟨gone, hmem, hle⟩, hsame⟩
  · have hindexed : (req i).Indexed
        ((Cache.recordPut s.index bucket key { p.entry with etag := some p.eTag } s.clock).view
          bucket key).row := by
      rw [hreq, hrow]
      exact ⟨_, rfl, rfl⟩
    rcases hlast j hj with htag | hopen
    · exact hindexed.congr htag
    · exact (hp.resolve_right hopen) ▸ hindexed
  -- a put that a tombstone refuses changes nothing, and is not the last one's
  · rcases hp with rfl | hfin
    · exact absurd (hgone hj hfirst gone hmem) hle.not_gt
    · rw [hsame]
      exact h.indexed j hj hfin

theorem Inv.recordDel [Layout] (h : Inv req bucket key s) (hi : s.phase i = .invalidated)
    (hreq : req i = .del)
    (hlast : ∀ j ∈ s.commits.head?, (req i).eTag = (req j).eTag ∨ s.phase j ≠ .finished) :
    Inv req bucket key
      ({ s with index := Cache.recordDel s.index bucket key s.clock }.moveTo i .finished) := by
  obtain ⟨hrow, hstamps⟩ := h.stamps.delOver ((s.index.bucket bucket).firstRebuildMutation key)
  rw [← view_recordDel s.clock] at hrow hstamps
  refine h.record (by rw [hi]; rfl) hstamps fun j hj hp => ?_
  have hindexed :
      (req i).Indexed ((Cache.recordDel s.index bucket key s.clock).view bucket key).row := by
    rw [hreq]
    exact hrow
  rcases hlast j hj with htag | hopen
  · exact hindexed.congr htag
  · exact (hp.resolve_right hopen) ▸ hindexed

theorem Inv.step [Layout] (h : Inv req bucket key s) {a : WriteStep ι}
    (hok : Orderly req bucket key s a)
    (hs : s.step req bucket key a = some t) : Inv req bucket key t := by
  cases a with
  | evictHot =>
    cases hs
    exact ⟨h.stamps, h.indexed, fun i hi hp => (h.current i hi hp).invalidateHot⟩
  | evictWarm =>
    cases hs
    exact ⟨h.stamps, h.indexed, fun i hi hp => (h.current i hi hp).evictWarm⟩
  | go i now kept dropped =>
    obtain ⟨hdrop, hfill, hindex⟩ := hok
    cases hreq : req i with
    | put p =>
      simp only [Writes.step, hreq, putStep] at hs
      simp only [fills, indexes, hreq] at hfill hindex
      cases hphase : s.phase i <;> simp only [hphase] at hs hdrop hfill hindex
      case arrived => cases hs; exact h.invalidate (by decide) fun hc => by cases hc
      case preInvalidated => cases hs; exact h.commit
      case committed => cases hs; exact h.moveTo (by decide) (fun hc => by cases hc)
      case answered => cases hs; exact h.invalidate (by decide) fun _ => hdrop trivial
      case invalidated =>
        split at hs
        · next hw =>
          obtain ⟨u, hr, rfl⟩ := Option.map_eq_some_iff.mp hs
          obtain ⟨hu, rfl, -⟩ := h.read hr
          refine hu.insert ?_ ?_ (by rw [hreq]; exact hfill (by simp [hw]))
          · simp only [hphase]
            rfl
          · simp only [hreq, Request.Current, writtenObject, CachedObject.markTrusted,
              CachedObject.stored, and_self]
        · cases hs
          refine h.moveTo (by decide) fun _ => ?_
          rw [hphase]
          rfl
      case inserted =>
        obtain ⟨u, hr, rfl⟩ := Option.map_eq_some_iff.mp hs
        obtain ⟨hu, rfl, -⟩ := h.read hr
        obtain ⟨hlast, hgone⟩ := hindex rfl
        exact hu.recordPut hphase hreq (by rw [hreq]; exact hlast) (hgone trivial)
      case finished => cases hs
    | del =>
      simp only [Writes.step, hreq, delStep] at hs
      simp only [fills, indexes, hreq] at hfill hindex
      cases hphase : s.phase i <;> simp only [hphase] at hs hdrop hfill hindex
      case arrived => cases hs; exact h.commit
      case committed => cases hs; exact h.moveTo (by decide) (fun hc => by cases hc)
      case answered => cases hs; exact h.invalidate (by decide) fun _ => hdrop trivial
      case invalidated =>
        obtain ⟨u, hr, rfl⟩ := Option.map_eq_some_iff.mp hs
        obtain ⟨hu, rfl, -⟩ := h.read hr
        exact hu.recordDel hphase hreq (by rw [hreq]; exact (hindex rfl).1)
      all_goals cases hs

def start (copies : Copies) (index : KeyIndexState) (clock : SystemTime) : Writes ι where
  phase _ := .arrived
  copies := copies
  index := index
  clock := clock

/-- In every run whose handlers are orderly, once all have finished the index and the tiers agree
with the last commit. -/
theorem agrees_of_orderly [Layout] {copies : Copies} {index : KeyIndexState} {clock : SystemTime}
    {l : List (WriteStep ι)} (hnothing : index.view bucket key = {})
    (hrun : Machine.Runs (step req bucket key) (Orderly req bucket key)
      (start copies index clock) l s)
    (hdone : ∀ i, s.phase i = .finished) : Agrees req bucket key s := by
  have h0 : Inv req bucket key (start copies index clock : Writes ι) := by
    refine ⟨⟨fun row hr => ?_, fun gone hg => ?_⟩, fun i hi => ?_, fun i hi => ?_⟩
    · simp [start, hnothing] at hr
    · simp [start, hnothing] at hg
    · cases hi
    · cases hi
  have h := hrun.keeps (fun _ _ _ h hok hs => h.step hok hs) h0
  intro i hi
  have hp := hdone i
  exact ⟨h.indexed i hi hp, h.current i hi (by rw [hp]; rfl)⟩

end Writes

section Sample
local instance overlapLayout : Layout := sampleLayout

def sampleWrite (eTag : String) : Request := .put
  { entry := ⟨some 3, .unixEpoch, none, standardClass, none, none⟩
    eTag := .strong eTag, written := true, generation := 1 }

def sampleSteps (i : Bool) (start : UInt64) (n : Nat) (dropped : Bool) : List (WriteStep Bool) :=
  (List.range n).map fun k => .go i (fromMicros (start + UInt64.ofNat k)) true dropped

def sampleWrites : Writes Bool := .start {} {} .unixEpoch

def sampleRebuilding : KeyIndexState := (({} : KeyIndexState).beginBucketResync "b").2

def sampleOrdered : Writes Bool :=
  (Machine.run (Machine.guarded (Writes.step (fun i => if i then .del else sampleWrite "a") "b" "k")
      (Writes.Orderly (fun i => if i then .del else sampleWrite "a") "b" "k"))
    (.start { warm := some ⟨some (.strong "z"), none, 0⟩ } sampleRebuilding .unixEpoch)
    (sampleSteps false 1 2 false ++ sampleSteps true 10 2 true ++ sampleSteps false 20 4 false ++
      sampleSteps true 30 2 true)).get (by decide +kernel)

theorem agrees_of_orderly_sample :
    (∀ i, sampleOrdered.phase i = .finished) ∧ sampleOrdered.commits = [true, false] ∧
    Writes.Agrees (fun i => if i then .del else sampleWrite "a") "b" "k" sampleOrdered := by
  have hdone : ∀ i, sampleOrdered.phase i = .finished := by decide +kernel
  exact ⟨hdone, by decide +kernel, Writes.agrees_of_orderly (by decide +kernel)
    (Machine.runs_of_run_guarded (Option.some_get _).symm) hdone⟩

/-- Two puts that overlap: `a` commits first and finishes last. -/
def sampleOverlap : Writes Bool :=
  (Machine.run (Writes.step (fun i => if i then sampleWrite "z" else sampleWrite "a") "b" "k")
    sampleWrites (sampleSteps false 1 2 true ++ sampleSteps true 10 6 true ++
      sampleSteps false 20 4 true)).get
    (by decide +kernel)

theorem overlap_leaves_stale :
    (∀ i, sampleOverlap.phase i = .finished) ∧ sampleOverlap.commits = [true, false] ∧
    ((sampleOverlap.index.view "b" "k").row.bind ObjEntry.etag) = some (.strong "a") ∧
    (sampleOverlap.copies.hot.bind CachedObject.eTag) = some (.strong "a") ∧
    ¬ Writes.Agrees (fun i => if i then sampleWrite "z" else sampleWrite "a") "b" "k"
      sampleOverlap := by
  have hcommits : sampleOverlap.commits = [true, false] := by decide +kernel
  have hrow : ((sampleOverlap.index.view "b" "k").row.bind ObjEntry.etag) =
      some (.strong "a") := by decide +kernel
  refine ⟨by decide +kernel, hcommits, hrow, by decide +kernel, fun h => ?_⟩
  obtain ⟨⟨e, he, hetag⟩, -⟩ := h true (by rw [hcommits]; rfl)
  rw [he, Option.bind_some, hetag] at hrow
  exact absurd hrow (by decide)

end Sample

end S3Cache.Cache

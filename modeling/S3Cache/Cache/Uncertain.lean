import S3Cache.Cache.Reads
import S3Cache.Lib.Machine

/-! An undescribable write of a key (`cache/proxy.rs`, `sync/coherence.rs`): the node's own or a
peer's, it fences the key, drops the local copies, and leaves an origin HEAD to resolve the fence.
Reads of the key go on meanwhile. -/

namespace S3Cache.Cache

open Index Tier KeyIndexState Fleet

inductive Stage where
  | idle
  | fillsFenced
  | fenced
  | marked
  | clean
  deriving DecidableEq

def Stage.barred : Stage → Bool
  | marked | clean => true
  | _ => false

inductive HeadTask where
  | waiting
  | asked (answer : Option OriginObject)
  | finished

def HeadTask.sent : HeadTask → Bool
  | waiting => false
  | _ => true

structure Doubt (ι : Type) where
  reads : Reads ι
  peer : Bool
  stage : Stage := .idle
  token : Nat := 0
  head : HeadTask := .waiting
  took : Bool := false
  retiring : Bool := false
  resolved : Option (Option OriginObject) := none
  fresh : ι → Bool := fun _ => false

inductive DoubtStep (ι : Type) where
  | read (i : ι) (a : ReadStep)
  | tier (a : TierStep)
  | announce (cut : NativeCut) (dropped : Bool)
  | retireFence
  | retire (dropped : Bool)
  | effect (object : Option OriginObject)
  | ask
  | resolve (now : SystemTime)

def authoritative (answer : Option OriginObject) (now : SystemTime) : AuthoritativeKeyState :=
  answer.elim .absent fun o => .present (o.toObservedObject.entry now)

namespace Doubt

variable {ι : Type} [DecidableEq ι] [Fintype ι]

section
variable [Layout]

def fenceIndex (bucket key : String) (s : Doubt ι) (cut : NativeCut) :
    Option (Nat × KeyIndexState) :=
  if s.peer then
    match s.reads.index.fenceUncertainKeyNative bucket key cut with
    | some (some token, index) => some (token, index)
    | _ => none
  else if s.reads.replicated then s.reads.index.fenceOwnUncertainKey bucket key cut
  else s.reads.index.fenceKey bucket key

def setIndex (s : Doubt ι) (index : KeyIndexState) : Doubt ι :=
  { s with reads := { s.reads with index } }

def announce (bucket key : String) (s : Doubt ι) (cut : NativeCut) (dropped : Bool) :
    Option (Doubt ι) :=
  match s.stage with
  | .idle =>
    if s.peer then some { s with reads := s.reads.fenceFills, stage := .fillsFenced }
    else (s.fenceIndex bucket key cut).map fun (token, index) =>
      { s.setIndex index with token, stage := .fenced }
  | .fillsFenced =>
    if s.reads.Quiet then
      (s.fenceIndex bucket key cut).map fun (token, index) =>
        { s.setIndex index with token, stage := .fenced }
    else none
  | .fenced => some { s with reads := s.reads.fenceFills, stage := .marked }
  | .marked =>
    if s.reads.Quiet then
      some { s with
        reads := if s.peer then s.reads.evictHot else s.reads.evict dropped, stage := .clean }
    else none
  | .clean => none

def spawned (s : Doubt ι) : Bool :=
  match s.stage with
  | .fenced | .marked | .clean => true
  | _ => false

def resolve (bucket key : String) (s : Doubt ι) (now : SystemTime) (answer : Option OriginObject) :
    Doubt ι :=
  match s.reads.index.resolveUncertainKey bucket key s.token now (authoritative answer now) with
  | (true, index) => { s.setIndex index with head := .finished, resolved := some answer }
  | (false, index) => { s.setIndex index with head := .finished }

def step (bucket key : String) (s : Doubt ι) : DoubtStep ι → Option (Doubt ι)
  | .read i a =>
    (s.reads.read bucket key i a).map fun reads =>
      match a with
      | .start => { s with reads, fresh := Function.update s.fresh i s.resolved.isSome }
      | _ => { s with reads }
  | .tier a => some { s with reads := s.reads.tier a }
  | .announce cut dropped => s.announce bucket key cut dropped
  | .retireFence =>
    if s.peer ∧ s.stage = .clean then
      some { s with reads := s.reads.fenceFills, retiring := true }
    else none
  | .retire dropped =>
    if s.retiring ∧ s.reads.Quiet then
      some { s with reads := s.reads.evict dropped, retiring := false }
    else none
  | .effect object =>
    if s.took ∨ s.resolved.isSome then none
    else some { s with
      reads := { s.reads with origin := object, version := s.reads.version + 1 }, took := true }
  | .ask =>
    match s.head with
    | .waiting =>
      if s.spawned ∧ s.reads.index.uncertainKeyIsCurrent bucket key s.token then
        some { s with head := .asked s.reads.origin }
      else none
    | _ => none
  | .resolve now =>
    match s.head with
    | .asked answer => some (s.resolve bucket key now answer)
    | _ => none

end

def decided (s : Doubt ι) : Bool := s.took || s.head.sent

end Doubt

def Resolved : Option (Option OriginObject) → Copy → Prop
  | some (some o), c => c.obj.eTag = o.etag
  | _, _ => False

instance : (r : Option (Option OriginObject)) → (c : Copy) → Decidable (Resolved r c)
  | some (some _), _ => inferInstanceAs (Decidable (_ = _))
  | some none, _ => isFalse id
  | none, _ => isFalse id

namespace Doubt

variable {ι : Type}

def Good (s : Doubt ι) (c : Copy) : Prop := s.decided = true ∧ Resolved (some s.reads.origin) c

instance (s : Doubt ι) (c : Copy) : Decidable (s.Good c) := inferInstanceAs (Decidable (_ ∧ _))

/-- The fence is resolved only once the invalidation is done, which on a single node leaves no
warm copy of another version; until the resolution no read behind it compares such a copy with the
index, and none registers a fill while the write may still take effect; and the write does so
before the HEAD reads the origin, or not at all. -/
def Careful (s : Doubt ι) : DoubtStep ι → Prop
  | .resolve _ => s.stage = .clean
  | .announce _ dropped => s.stage = .marked → s.reads.replicated = false →
    dropped = true ∨ ∀ c ∈ s.reads.warm, s.Good c
  | .read i .compare => s.stage = .clean → s.resolved.isSome = true ∨
    ∀ h ∈ (s.reads.phase i).handle, s.Good (s.reads.heap h)
  | .read _ (.register _) => s.stage.barred = true → s.decided = true
  | .effect _ => s.head.sent = false
  | _ => True

instance (s : Doubt ι) (a : DoubtStep ι) : Decidable (s.Careful a) := by
  unfold Careful
  split <;> infer_instance

end Doubt

def ResolvedRow : Option OriginObject → Option ObjEntry → Prop
  | some o, row => ∃ e, row = some e ∧ e.etag = o.etag
  | none, row => row = none

theorem Resolved.marked {r : Option (Option OriginObject)} {c : Copy} (g : Nat)
    (h : Resolved r c) : Resolved r (c.marked g) := by
  rcases r with - | - | o
  · exact h
  · exact h
  · exact h

theorem ResolvedRow.proves {ι : Type} {bucket key : String} {s : Reads ι} {c : Copy}
    {answer : Option OriginObject} (h : ResolvedRow answer (s.index.view bucket key).row)
    (hp : s.proves bucket key c = true) : Resolved (some answer) c := by
  obtain ⟨e, he, hsame⟩ := Option.any_eq_true _ _ |>.mp (Bool.and_eq_true_iff.mp hp).2
  cases answer with
  | none =>
    rw [show (s.index.view bucket key).row = none from h] at he
    cases he
  | some o =>
    obtain ⟨e', he', htag⟩ := h
    obtain rfl : e' = e := Option.some.inj (he'.symm.trans he)
    obtain ⟨tag, -, hentry, hobj, -⟩ := provenBy_of_compareEntryBody (by simpa using hsame)
    rw [Resolved, hobj, ← htag, hentry]

theorem ResolvedRow.observe [Layout] {bucket key : String} {index : KeyIndexState}
    {answer : Option OriginObject} (h : ResolvedRow answer (index.view bucket key).row)
    {o : OriginObject} {v : Nat} (ho : Resolved (some answer) (o.copy v)) (now : SystemTime) :
    ResolvedRow answer ((observe index bucket key o.toObservedObject now).view bucket key).row := by
  cases answer with
  | none => exact ho.elim
  | some current =>
    obtain ⟨e, he, htag⟩ := h
    rw [view_observe_of_row he, KeyView.complete, he]
    refine ⟨_, rfl, ?_⟩
    have ho : o.etag = current.etag := ho
    dsimp only
    split
    · simp [ObjEntry.fill, ObservedObject.fill, htag, ho]
    · exact htag

namespace Doubt

variable {ι : Type} {bucket key : String} {s t : Doubt ι}

structure Inv (bucket key : String) (s : Doubt ι) : Prop where
  single : s.reads.replicated = false → s.peer = false
  waiting : s.head.sent = false → s.resolved = none
  asked : ∀ answer, s.head = .asked answer → s.reads.origin = answer ∧ s.resolved = none
  barred : s.stage.barred = true → s.decided = false → ∀ i, (s.reads.phase i).unfenced = false
  /-- A fill registered behind the marking may only land what the fence is resolved as. -/
  pending : s.stage = .marked → ∀ i, (s.reads.phase i).unfenced = true →
    ∀ c ∈ (s.reads.phase i).answer, s.Good c
  formed : s.stage ≠ .clean → s.resolved = none ∧ s.reads.Safe 0 (fun _ => True) fun _ => False
  clean : s.stage = .clean → ∃ mark, s.reads.Safe mark s.Good (s.fresh · = true)
  settled : ∀ answer, s.resolved = some answer →
    s.reads.origin = answer ∧ ResolvedRow answer (s.reads.index.view bucket key).row
  begun : ∀ i, s.fresh i = true → s.resolved.isSome = true

theorem Good.marked {c : Copy} (g : Nat) (h : s.Good c) : s.Good (c.marked g) :=
  ⟨h.1, Resolved.marked g h.2⟩

theorem Good.congr {c : Copy} (h : s.Good c) (hd : s.decided = true → t.decided = true)
    (ho : t.reads.origin = s.reads.origin) : t.Good c := ⟨hd h.1, ho ▸ h.2⟩

theorem Inv.resolved_none (h : s.Inv bucket key) (hd : s.decided = false) : s.resolved = none :=
  h.waiting (Bool.or_eq_false_iff.mp hd).2

theorem Inv.decided_of_fetching (h : s.Inv bucket key) (hb : s.stage.barred = true) {i : ι}
    {g : Nat} (hp : s.reads.phase i = .fetching g false) : s.decided = true := by
  by_contra hd
  have hu := h.barred hb (Bool.eq_false_of_not_eq_true hd) i
  rw [hp] at hu
  cases hu

theorem Inv.frame (h : s.Inv bucket key) {reads : Reads ι}
    (hsafe : ∀ {mark Good fresh}, s.reads.Safe mark Good fresh → reads.Safe mark Good fresh)
    (hrep : reads.replicated = s.reads.replicated) (horigin : reads.origin = s.reads.origin)
    (hunfenced : ∀ i, (reads.phase i).unfenced = true → (s.reads.phase i).unfenced = true)
    (hanswer : ∀ i, ∀ c ∈ (reads.phase i).answer, c ∈ (s.reads.phase i).answer)
    (hindex : reads.index = s.reads.index) : { s with reads }.Inv bucket key where
  single hr := h.single (hrep ▸ hr)
  waiting := h.waiting
  asked answer ha := ⟨horigin.trans (h.asked answer ha).1, (h.asked answer ha).2⟩
  barred hb hd i := by
    by_contra hu
    have := h.barred hb hd i
    simp_all
  pending hm i hu c hc :=
    (h.pending hm i (hunfenced i hu) c (hanswer i c hc)).congr id horigin
  formed hc := ⟨(h.formed hc).1, hsafe (h.formed hc).2⟩
  clean hc :=
    let ⟨mark, hm⟩ := h.clean hc
    ⟨mark, (hsafe hm).mono (fun _ g => Good.marked g) fun _ hg => hg.congr id horigin⟩
  settled answer ha := by
    obtain ⟨ho, hrow⟩ := h.settled answer ha
    exact ⟨horigin.trans ho, hindex ▸ hrow⟩
  begun := h.begun

theorem Inv.fenceFills (h : s.Inv bucket key) :
    { s with reads := s.reads.fenceFills }.Inv bucket key :=
  h.frame (fun hs => hs.fenceFills) rfl rfl (fun i hi => by simp [Reads.fenceFills] at hi)
    (fun _ _ hc => Reading.answer_of_fenced hc) rfl

theorem Inv.evict (h : s.Inv bucket key) (dropped : Bool) :
    { s with reads := s.reads.evict dropped }.Inv bucket key :=
  h.frame (fun hs => hs.evict dropped) rfl rfl (fun _ hi => hi) (fun _ _ hc => hc) rfl

theorem Inv.tier (h : s.Inv bucket key) (a : TierStep) :
    { s with reads := s.reads.tier a }.Inv bucket key := by
  refine h.frame (fun hs => hs.tier a) ?_ ?_ ?_ ?_ ?_ <;> cases a <;>
    first | rfl | exact fun _ hi => hi | exact fun _ _ hc => hc

theorem Inv.fence (h : s.Inv bucket key) (hs : s.stage.barred = false) (index : KeyIndexState)
    (token : Nat) : { s.setIndex index with token, stage := .fenced }.Inv bucket key := by
  have hc : s.stage ≠ .clean := by
    intro hc
    rw [hc] at hs
    cases hs
  obtain ⟨hr, hsafe⟩ := h.formed hc
  exact
    { single := h.single
      waiting := h.waiting
      asked := h.asked
      barred := fun hb => by cases hb
      pending := fun hm => by cases hm
      formed := fun _ => ⟨hr, hsafe.congr index _ _⟩
      clean := fun hc' => by cases hc'
      settled := fun answer ha => by
        rw [show s.resolved = _ from ha] at hr
        cases hr
      begun := h.begun }

theorem Inv.dropCopies (h : s.Inv bucket key) (hs : s.stage = .marked) (hq : s.reads.Quiet)
    {reads : Reads ι} (hsafe : reads.Safe 0 (fun _ => True) fun _ => False)
    (hphase : reads.phase = s.reads.phase) (horigin : reads.origin = s.reads.origin)
    (hrep : reads.replicated = s.reads.replicated) (hhot : reads.hot = none)
    (hwarm : reads.replicated = false → ∀ c ∈ reads.warm, s.Good c) :
    { s with reads, stage := .clean }.Inv bucket key := by
  obtain ⟨hr, -⟩ := h.formed (by rw [hs]; decide)
  have hgood : ∀ c, s.Good c → { s with reads, stage := .clean }.Good c :=
    fun c hc => hc.congr id horigin
  refine ⟨fun hr' => h.single (hrep ▸ hr'), h.waiting,
    fun answer ha => ⟨horigin.trans (h.asked answer ha).1, hr⟩, fun _ hd i => ?_,
    fun hm => (by cases hm), fun hc => absurd rfl hc, fun _ => ⟨reads.next, ?_⟩,
    fun answer ha => ?_, h.begun⟩
  · rw [hphase]
    exact h.barred (by rw [hs]; rfl) hd i
  · refine hsafe.cut (fun c g => Good.marked g) hhot (fun hr' c hc => hgood c (hwarm hr' c hc))
      (fun i c hc => ?_) fun i hi => ?_
    · rw [hphase] at hc
      exact hgood c (h.pending hs i (Reading.unfenced_of_answer hc (hq i)) c hc)
    · have hsome := h.begun i hi
      rw [hr] at hsome
      cases hsome
  · rw [show s.resolved = _ from ha] at hr
    cases hr

section
variable [Fintype ι]

theorem Inv.announce (h : s.Inv bucket key) {cut : NativeCut} {dropped : Bool}
    (hok : s.Careful (.announce cut dropped))
    (hs : s.announce bucket key cut dropped = some t) : t.Inv bucket key := by
  unfold Doubt.announce at hs
  split at hs
  · next hstage =>
    split at hs
    · cases hs
      have hf := h.fenceFills
      exact { hf with
        barred := fun hb => by cases hb
        pending := fun hm => by cases hm
        formed := fun _ => hf.formed (by rw [hstage]; decide)
        clean := fun hc => by cases hc }
    · obtain ⟨⟨token, index⟩, -, rfl⟩ := Option.map_eq_some_iff.mp hs
      exact h.fence (by rw [hstage]; rfl) index token
  · next hstage =>
    obtain ⟨-, hs⟩ := Option.ite_none_right_eq_some.mp hs
    obtain ⟨⟨token, index⟩, -, rfl⟩ := Option.map_eq_some_iff.mp hs
    exact h.fence (by rw [hstage]; rfl) index token
  · next hstage =>
    cases hs
    have hf := h.fenceFills
    exact { hf with
      barred := fun _ _ i => by simp [Reads.fenceFills]
      pending := fun _ i hu => by simp [Reads.fenceFills] at hu
      formed := fun _ => hf.formed (by rw [hstage]; decide)
      clean := fun hc => by cases hc }
  · next hstage =>
    obtain ⟨hq, hs⟩ := Option.ite_none_right_eq_some.mp hs
    cases hs
    obtain ⟨-, hsafe⟩ := h.formed (by rw [hstage]; decide)
    cases hp : s.peer with
    | true =>
      have hd := h.dropCopies hstage hq hsafe.evictHot rfl rfl rfl rfl fun hrep => by
        rw [h.single hrep] at hp
        cases hp
      simpa [hp] using hd
    | false =>
      have hd := h.dropCopies hstage hq (hsafe.evict dropped) rfl rfl rfl rfl fun hrep c hc => by
        obtain ⟨hkept, hc⟩ := Reads.mem_warm_evict hc
        exact (hok hstage hrep).resolve_left (Bool.eq_false_iff.mp hkept) c hc
      simpa [hp] using hd
  · cases hs

end

variable [Layout]

theorem Inv.resolve (h : s.Inv bucket key) (hs : s.stage = .clean) {answer : Option OriginObject}
    (ha : s.head = .asked answer) (now : SystemTime) :
    (s.resolve bucket key now answer).Inv bucket key := by
  obtain ⟨mark, hsafe⟩ := h.clean hs
  obtain ⟨horigin, hr⟩ := h.asked answer ha
  have hunfresh : ∀ i, s.fresh i = false := fun i => by
    by_contra hf
    have hsome := h.begun i (Bool.eq_true_of_not_eq_false hf)
    rw [hr] at hsome
    cases hsome
  have hdecided : (s.took || true) = true := Bool.or_true _
  have hsafe' : ∀ index, { s.reads with index }.Safe mark
      (fun c => (s.took || true) = true ∧ Resolved (some s.reads.origin) c) (s.fresh · = true) :=
    fun index => (hsafe.mono (fun _ g hg => ⟨hg.1, Resolved.marked g hg.2⟩)
      fun _ hg => ⟨hdecided, hg.2⟩).congr index _ _
  unfold Doubt.resolve
  split
  · next index heq =>
    have hrow : ResolvedRow answer (index.view bucket key).row := by
      have hview := view_resolveUncertainKey (show _ = true by rw [heq])
      rw [heq] at hview
      rw [hview]
      cases answer with
      | none => rfl
      | some o => exact ⟨_, rfl, rfl⟩
    refine ⟨h.single, fun hn => (by cases hn), fun _ hn => (by cases hn), fun _ hd => ?_,
      fun hm => ?_, fun hc => absurd hs hc, fun _ => ⟨mark, hsafe' index⟩, fun answer' ha' => ?_,
      fun _ _ => rfl⟩
    · cases hdecided.symm.trans hd
    · rw [show s.stage = _ from hm] at hs
      cases hs
    · cases ha'
      exact ⟨horigin, hrow⟩
  · next index heq =>
    refine ⟨h.single, fun hn => (by cases hn), fun _ hn => (by cases hn), fun _ hd => ?_,
      fun hm => ?_, fun hc => absurd hs hc, fun _ => ⟨mark, hsafe' index⟩, fun answer' ha' => ?_,
      h.begun⟩
    · cases hdecided.symm.trans hd
    · rw [show s.stage = _ from hm] at hs
      cases hs
    · rw [show s.resolved = _ from ha'] at hr
      cases hr

variable [DecidableEq ι] [Fintype ι]

theorem Inv.unfenced_read (h : s.Inv bucket key) {i : ι} {a : ReadStep} {reads : Reads ι}
    (hs : s.reads.read bucket key i a = some reads) (hok : s.Careful (.read i a))
    (hb : s.stage.barred = true) (hd : s.decided = false) (j : ι) :
    (reads.phase j).unfenced = false := by
  have hreg : ∀ g, a ≠ .register g := by
    rintro g rfl
    cases hd.symm.trans (hok hb)
  by_contra hu
  have hbefore := Reads.unfenced_read hreg hs (Bool.eq_true_of_not_eq_false hu)
  rw [h.barred hb hd j] at hbefore
  cases hbefore

theorem Inv.read_dirty (h : s.Inv bucket key) {i : ι} {a : ReadStep} {reads : Reads ι}
    (hs : s.reads.read bucket key i a = some reads) (hc : s.stage ≠ .clean)
    (hok : s.Careful (.read i a)) : { s with reads }.Inv bucket key := by
  obtain ⟨hr, hsafe⟩ := h.formed hc
  obtain ⟨horigin, -, hrep, -⟩ := Reads.read_frame hs
  refine ⟨fun hr' => h.single (hrep ▸ hr'), h.waiting,
    fun answer ha => ⟨horigin.trans (h.asked answer ha).1, hr⟩, h.unfenced_read hs hok,
    fun hm j hu c hc => ?_,
    fun _ => ⟨hr, hsafe.read (fun _ _ _ _ _ _ => trivial) (fun _ _ _ _ => trivial) hs⟩,
    fun hc' => absurd hc' hc, fun answer ha => ?_, h.begun⟩
  · have hb : s.stage.barred = true := by rw [show s.stage = _ from hm]; rfl
    have hd : s.decided = true := by
      by_contra hd
      rw [h.unfenced_read hs hok hb (Bool.eq_false_of_not_eq_true hd) j] at hu
      cases hu
    rcases Reads.answer_read hs hc with ⟨hc', hu'⟩ | ⟨o, ho, rfl⟩
    · exact (h.pending hm j (hu' hu) c hc').congr id horigin
    · refine Good.congr (s := s) ⟨hd, ?_⟩ id horigin
      rw [show s.reads.origin = some o from ho]
      rfl
  · rw [show s.resolved = _ from ha] at hr
    cases hr

theorem Inv.read_clean (h : s.Inv bucket key) {i : ι} {a : ReadStep} {reads : Reads ι}
    (hs : s.reads.read bucket key i a = some reads) (hc : s.stage = .clean)
    (hok : s.Careful (.read i a)) : { s with reads }.Inv bucket key := by
  obtain ⟨mark, hsafe⟩ := h.clean hc
  obtain ⟨horigin, -, hrep, hindex⟩ := Reads.read_frame hs
  have hbarred : s.stage.barred = true := by rw [hc]; rfl
  have hsafe' : reads.Safe mark s.Good (s.fresh · = true) := by
    refine hsafe.read (fun k g hp ha hproves _ => ?_) (fun g hp o ho => ?_) hs
    · subst ha
      rcases hok hc with hsome | hgood
      · obtain ⟨answer, hr⟩ := Option.isSome_iff_exists.mp hsome
        obtain ⟨ho, hrow⟩ := h.settled answer hr
        refine ⟨?_, ho ▸ hrow.proves hproves⟩
        by_contra hd
        cases (h.resolved_none (Bool.eq_false_of_not_eq_true hd)).symm.trans hr
      · exact hgood k (by rw [hp]; rfl)
    · refine ⟨h.decided_of_fetching hbarred hp, ?_⟩
      rw [show s.reads.origin = some o from ho]
      rfl
  refine ⟨fun hr' => h.single (hrep ▸ hr'), h.waiting,
    fun answer ha => ⟨horigin.trans (h.asked answer ha).1, (h.asked answer ha).2⟩,
    h.unfenced_read hs hok, fun hm => ?_, fun hc' => absurd hc hc',
    fun _ => ⟨mark, hsafe'.mono (fun _ g => Good.marked g) fun _ hg => hg.congr id horigin⟩,
    fun answer hr => ?_, h.begun⟩
  · rw [show s.stage = _ from hm] at hc
    cases hc
  obtain ⟨ho, hrow⟩ := h.settled answer hr
  refine ⟨horigin.trans ho, ?_⟩
  rcases hindex with heq | ⟨g, stale, o, v, now, hp, heq⟩
  · rw [heq]
    exact hrow
  · rw [heq]
    have hgood := hsafe.answer i (o.copy v) (by rw [hp]; rfl)
    exact hrow.observe (ho ▸ hgood.2) now

omit [Layout] [Fintype ι] in
theorem Inv.freshen (h : s.Inv bucket key) {i : ι} (hi : (s.reads.phase i).handle = none) :
    { s with fresh := Function.update s.fresh i s.resolved.isSome }.Inv bucket key :=
  { h with
    clean := fun hc => by
      obtain ⟨mark, hsafe⟩ := h.clean hc
      exact ⟨mark, hsafe.freshen hi fun j hj => by
        simp only [Function.update_apply] at hj
        split at hj
        · exact .inl ‹_›
        · exact .inr hj⟩
    begun := fun j hj => by
      simp only [Function.update_apply] at hj
      split at hj
      · exact hj
      · exact h.begun j hj }

omit [Layout] [Fintype ι] [DecidableEq ι] in
theorem Inv.effect (h : s.Inv bucket key) (hd : s.decided = false) (object : Option OriginObject)
    (version : Nat) :
    { s with
      reads := { s.reads with origin := object, version }, took := true }.Inv bucket key where
  single := h.single
  waiting := h.waiting
  asked answer ha := by
    have hsent := (Bool.or_eq_false_iff.mp hd).2
    rw [show s.head = _ from ha] at hsent
    cases hsent
  barred _ hd' := by cases (Bool.true_or s.head.sent).symm.trans hd'
  pending hm i hu := by
    have hb := h.barred (by rw [show s.stage = _ from hm]; rfl) hd i
    rw [show (s.reads.phase i).unfenced = _ from hu] at hb
    cases hb
  formed hc := ⟨(h.formed hc).1, (h.formed hc).2.congr _ object version⟩
  clean hc := by
    obtain ⟨mark, hsafe⟩ := h.clean hc
    refine ⟨mark, (hsafe.mono (fun _ g => Good.marked g) fun _ hg => ?_).congr _ object version⟩
    cases hd.symm.trans hg.1
  settled answer ha := by cases (h.resolved_none hd).symm.trans ha
  begun := h.begun

omit [Layout] [Fintype ι] [DecidableEq ι] in
theorem Inv.ask (h : s.Inv bucket key) (hr : s.resolved = none) :
    { s with head := .asked s.reads.origin }.Inv bucket key where
  single := h.single
  waiting hn := by cases hn
  asked answer ha := by
    cases ha
    exact ⟨rfl, hr⟩
  barred _ hd := by cases (Bool.or_true s.took).symm.trans hd
  pending hm i hu c hc := (h.pending hm i hu c hc).congr (fun _ => Bool.or_true _) rfl
  formed := h.formed
  clean hc :=
    let ⟨mark, hsafe⟩ := h.clean hc
    ⟨mark, hsafe.mono (fun _ g => Good.marked g) fun _ hg => hg.congr (fun _ => Bool.or_true _) rfl⟩
  settled := h.settled
  begun := h.begun

theorem Inv.step (h : s.Inv bucket key) {a : DoubtStep ι} (hok : s.Careful a)
    (hs : s.step bucket key a = some t) : t.Inv bucket key := by
  cases a with
  | read i a =>
    obtain ⟨reads, hr, rfl⟩ := Option.map_eq_some_iff.mp hs
    have hread : { s with reads }.Inv bucket key := by
      by_cases hc : s.stage = .clean
      · exact h.read_clean hr hc hok
      · exact h.read_dirty hr hc hok
    cases a with
    | start =>
      exact hread.freshen (Reads.handle_start hr)
    | _ => exact hread
  | tier a =>
    cases hs
    exact h.tier a
  | announce cut dropped => exact h.announce hok hs
  | retireFence =>
    obtain ⟨-, hs⟩ := Option.ite_none_right_eq_some.mp hs
    cases hs
    exact { h.fenceFills with }
  | retire dropped =>
    obtain ⟨-, hs⟩ := Option.ite_none_right_eq_some.mp hs
    cases hs
    exact { h.evict dropped with }
  | effect object =>
    simp only [Doubt.step] at hs
    split at hs
    · cases hs
    · next hn =>
      cases hs
      have htook : s.took = false := Bool.eq_false_of_not_eq_true (not_or.mp hn).1
      exact h.effect (Bool.or_eq_false_iff.mpr ⟨htook, hok⟩) object _
  | ask =>
    simp only [Doubt.step] at hs
    split at hs
    · next hh =>
      obtain ⟨-, hs⟩ := Option.ite_none_right_eq_some.mp hs
      cases hs
      exact h.ask (h.waiting (by rw [hh]; rfl))
    · cases hs
  | resolve now =>
    simp only [Doubt.step] at hs
    split at hs
    · next answer ha =>
      cases hs
      exact h.resolve hok ha now
    · cases hs

/-- In every run whose steps are careful, a read that starts once the HEAD has resolved the fence
is answered from a local copy only if that copy has the resolved version's `ETag`, and from none
when the key was resolved as absent. -/
theorem served_as_resolved {reads : Reads ι} {peer : Bool} {l : List (DoubtStep ι)} {i : ι} {h : Nat}
    (hformed : reads.Formed) (hpeer : reads.replicated = false → peer = false)
    (hrun : Machine.Runs (step bucket key) Careful { reads, peer } l s)
    (hfresh : s.fresh i = true) (hserved : s.reads.phase i = .served h) :
    ∃ o, s.resolved = some (some o) ∧ (s.reads.heap h).obj.eTag = o.etag := by
  have h0 : ({ reads, peer } : Doubt ι).Inv bucket key :=
    { single := hpeer
      waiting := fun _ => rfl
      asked := fun _ ha => by cases ha
      barred := fun hb => by cases hb
      pending := fun hm => by cases hm
      formed := fun _ => ⟨rfl, hformed⟩
      clean := fun hc => by cases hc
      settled := fun _ ha => by cases ha
      begun := fun _ hf => by cases hf }
  have hinv := hrun.keeps (fun _ _ _ h hok hs => h.step hok hs) h0
  obtain ⟨answer, hr⟩ := Option.isSome_iff_exists.mp (hinv.begun i hfresh)
  have hc : s.stage = .clean := by
    by_contra hc
    cases (hinv.formed hc).1.symm.trans hr
  obtain ⟨mark, hsafe⟩ := hinv.clean hc
  obtain ⟨-, hgood⟩ := hsafe.served i h hfresh hserved
  rw [(hinv.settled answer hr).1] at hgood
  cases answer with
  | none => exact hgood.elim
  | some o => exact ⟨o, hr, hgood⟩

end Doubt

section Sample
local instance uncertainLayout : Layout := sampleLayout

def sampleCut : NativeCut := ⟨[1], 1, 1⟩

def sampleResolved : Doubt Bool :=
  (Machine.run (Machine.guarded (Doubt.step "b" "k") Doubt.Careful)
    { reads := sampleReads, peer := false }
    [.announce sampleCut true, .announce sampleCut true, .announce sampleCut true,
      .effect (some (sampleOrigin "z")),
      .ask, .resolve .unixEpoch, .read true .start, .read true .lookup, .read true (.register 1),
      .read true .get, .read true (.commit true), .read true (.insert true .unixEpoch),
      .read false .start, .read false .lookup, .read false .check]).get (by decide +kernel)

theorem served_as_resolved_sample :
    sampleResolved.reads.phase false = .served 0 ∧
    ∃ o, sampleResolved.resolved = some (some o) ∧
      (sampleResolved.reads.heap 0).obj.eTag = o.etag := by
  have hserved : sampleResolved.reads.phase false = .served 0 := by rfl
  exact ⟨hserved, Doubt.served_as_resolved formed_sampleReads (by decide)
    (Machine.runs_of_run_guarded (Option.some_get _).symm) (by decide +kernel) hserved⟩

/-- A read that passed its uncertainty check before the fence registers its fill once the copies
are dropped, and lands the old body after the resolution; the next read is answered from it. -/
def sampleSlipped : Doubt Bool :=
  (Machine.run (Doubt.step "b" "k") { reads := sampleReads, peer := false }
    [.read true .start, .read true .lookup, .announce sampleCut true, .announce sampleCut true,
      .announce sampleCut true, .read true (.register 1), .read true .get,
      .effect (some (sampleOrigin "z")), .ask, .resolve .unixEpoch, .read true (.commit true),
      .read true (.insert true .unixEpoch), .read false .start, .read false .lookup,
      .read false .check]).get (by decide +kernel)

theorem stale_body_served :
    sampleSlipped.fresh false = true ∧ sampleSlipped.reads.phase false = .served 0 ∧
    (sampleSlipped.resolved.bind id).bind (·.etag) = some (.strong "z") ∧
    (sampleSlipped.reads.heap 0).obj.eTag = some (.strong "a") := by
  refine ⟨by decide +kernel, by rfl, by decide +kernel, by decide +kernel⟩

end Sample

end S3Cache.Cache

import S3Cache.Cache.Reads
import S3Cache.Cache.Record
import S3Cache.Lib.Machine

/-! A node without gossip, its persistent warm tier and the handlers that write one key
(`cache/mutation.rs`), with a crash between any two steps.  A restart keeps the origin and the warm
tier only. -/

namespace S3Cache.Cache

open Index Tier KeyIndexState Fleet

inductive Write where
  | put (o : OriginObject) (written : Bool)
  | copy (o : OriginObject)
  | completeUpload (o : OriginObject)
  | delete
  | deleteBatch

namespace Write

def object : Write → Option OriginObject
  | put o _ | copy o | completeUpload o => some o
  | delete | deleteBatch => none

def preInvalidates : Write → Bool
  | put _ _ | copy _ => true
  | completeUpload _ | delete | deleteBatch => false

def kept (version : Nat) (now : SystemTime) : Write → Option Copy
  | put o true => some ⟨⟨o.etag, some now, 0⟩, version⟩
  | _ => none

end Write

inductive Serving where
  | idle
  | preFenced (w : Write)
  | forwarded (w : Write)
  | committed (w : Write)
  | postFenced (w : Write)
  | dropped (w : Write)
  | inserted (w : Write)

def Serving.exposed : Serving → Bool
  | committed _ | postFenced _ => true
  | _ => false

def Serving.landed : Serving → Option Write
  | committed w | postFenced w | dropped w => some w
  | _ => none

structure Node (ι : Type) where
  reads : Reads ι
  serving : Serving := .idle
  failed : Bool := false
  restarted : Bool := false

inductive NodeStep (ι : Type) where
  | read (i : ι) (a : ReadStep)
  | tier (a : TierStep)
  | receive (w : Write)
  | serve (kept dropped : Bool) (now : SystemTime)
  | crash

namespace Node

variable {ι : Type} [DecidableEq ι] [Fintype ι] [Layout]

def keep (s : Node ι) (w : Write) (kept : Bool) (now : SystemTime) : Reads ι :=
  match w.kept s.reads.version now with
  | some c =>
    { s.reads.alloc (c.marked s.reads.generation) with
      warm := if kept then some c else s.reads.warm }
  | none => s.reads

def record (bucket key : String) (index : KeyIndexState) (w : Write) (now : SystemTime) :
    KeyIndexState :=
  match w.object with
  | some o => recordPut index bucket key (o.toObservedObject.entry now) now
  | none => recordDel index bucket key now

def evict (s : Node ι) (dropped : Bool) : Node ι :=
  { s with reads := s.reads.evict dropped, failed := !dropped }

def serve (bucket key : String) (s : Node ι) (kept dropped : Bool) (now : SystemTime) :
    Option (Node ι) :=
  match s.serving with
  | .idle => none
  | .preFenced w =>
    if s.reads.Quiet then some { s.evict dropped with serving := .forwarded w } else none
  | .forwarded w =>
    some { s with
      reads := { s.reads with origin := w.object, version := s.reads.version + 1 }
      serving := .committed w, restarted := false }
  | .committed w => some { s with reads := s.reads.fenceFills, serving := .postFenced w }
  | .postFenced w =>
    if s.reads.Quiet then some { s.evict dropped with serving := .dropped w } else none
  | .dropped w => some { s with reads := s.keep w kept now, serving := .inserted w }
  | .inserted w =>
    some { s with
      reads := { s.reads with index := record bucket key s.reads.index w now }, serving := .idle }

def crash (s : Node ι) : Node ι where
  reads := { s.reads with index := {}, hot := none, generation := 1, phase := fun _ => .idle }
  restarted := true

def step (bucket key : String) (s : Node ι) : NodeStep ι → Option (Node ι)
  | .read i a => (s.reads.read bucket key i a).map fun reads => { s with reads }
  | .tier a => some { s with reads := s.reads.tier a }
  | .receive w =>
    match s.serving with
    | .idle =>
      if w.preInvalidates then some { s with reads := s.reads.fenceFills, serving := .preFenced w }
      else some { s with serving := .forwarded w }
    | _ => none
  | .serve kept dropped now => s.serve bucket key kept dropped now
  | .crash => some s.crash

/-- The node crashes only while no write is at the origin whose invalidation is still to come or
has failed to delete the warm copy, unless the warm tier holds no older version. -/
def Careful (s : Node ι) : NodeStep ι → Prop
  | .crash => (s.serving.exposed = false ∧ s.failed = false) ∨
    ∀ c ∈ s.reads.warm, c.version = s.reads.version
  | _ => True

instance (s : Node ι) (a : NodeStep ι) : Decidable (s.Careful a) :=
  match a with
  | .crash => inferInstanceAs (Decidable (_ ∨ _))
  | .read _ _ | .tier _ | .receive _ | .serve _ _ _ => isTrue trivial

end Node

def Current {ι : Type} (s : Reads ι) (c : Copy) : Prop :=
  ∃ o, s.origin = some o ∧ c.version = s.version ∧ c.obj.eTag = o.etag

theorem Current.congr {ι : Type} {s t : Reads ι} {c : Copy} (h : Current s c)
    (ho : t.origin = s.origin) (hv : t.version = s.version) : Current t c := by
  unfold Current
  rw [ho, hv]
  exact h

structure Known {ι : Type} (s : Reads ι) (c : Copy) : Prop where
  le : c.version ≤ s.version
  current : c.version = s.version → Current s c

theorem Current.known {ι : Type} {s : Reads ι} {c : Copy} (h : Current s c) : Known s c :=
  ⟨h.elim fun _ ho => ho.2.1.le, fun _ => h⟩

theorem Known.congr {ι : Type} {s t : Reads ι} {c : Copy} (h : Known s c)
    (ho : t.origin = s.origin) (hv : t.version = s.version) : Known t c :=
  ⟨hv ▸ h.le, fun hc => (h.current (hc.trans hv)).congr ho hv⟩

theorem Known.commit {ι : Type} {s : Reads ι} {c : Copy} (h : Known s c)
    (object : Option OriginObject) :
    Known { s with origin := object, version := s.version + 1 } c :=
  ⟨h.le.trans (Nat.le_succ _), fun hc => absurd h.le (hc ▸ Nat.not_succ_le_self _)⟩

theorem current_copy {ι : Type} {s : Reads ι} {o : OriginObject} (ho : o ∈ s.origin) :
    Current s (o.copy s.version) := ⟨o, ho, rfl, rfl⟩

namespace Node

variable {ι : Type} {bucket key : String} {s t : Node ι}

structure Inv (s : Node ι) : Prop where
  single : s.reads.replicated = false
  formed : s.reads.Formed
  unsuspecting : ∀ i k g, s.reads.phase i ≠ .suspect k g
  known : ∀ c ∈ s.reads.warm, Known s.reads c
  heard : ∀ i, ∀ c ∈ (s.reads.phase i).answer, Known s.reads c
  warm : s.serving.exposed = false → s.failed = false → ∀ c ∈ s.reads.warm, Current s.reads c
  answer : s.serving.exposed = false → ∀ i, ∀ c ∈ (s.reads.phase i).answer, Current s.reads c
  fenced : ∀ w, s.serving = .postFenced w → ∀ i, (s.reads.phase i).unfenced = true →
    ∀ c ∈ (s.reads.phase i).answer, Current s.reads c
  object : ∀ w ∈ s.serving.landed, s.reads.origin = w.object
  safe : s.restarted = true → s.serving.landed = none ∧
    ∃ mark, s.reads.Safe mark (Current s.reads) fun _ => True

theorem Inv.frame (h : s.Inv) {reads : Reads ι}
    (hsafe : ∀ {mark Good fresh}, s.reads.Safe mark Good fresh → reads.Safe mark Good fresh)
    (hrep : reads.replicated = s.reads.replicated) (ho : reads.origin = s.reads.origin)
    (hv : reads.version = s.reads.version) (hwarm : ∀ c ∈ reads.warm, c ∈ s.reads.warm)
    (hanswer : ∀ i, ∀ c ∈ (reads.phase i).answer, c ∈ (s.reads.phase i).answer)
    (hunfenced : ∀ i, (reads.phase i).unfenced = true → (s.reads.phase i).unfenced = true)
    (hsuspect : ∀ i k g, reads.phase i = .suspect k g → s.reads.phase i = .suspect k g) :
    { s with reads }.Inv where
  single := hrep.trans h.single
  formed := hsafe h.formed
  unsuspecting i k g hp := h.unsuspecting i k g (hsuspect i k g hp)
  known c hc := (h.known c (hwarm c hc)).congr ho hv
  heard i c hc := (h.heard i c (hanswer i c hc)).congr ho hv
  warm he hf c hc := (h.warm he hf c (hwarm c hc)).congr ho hv
  answer he i c hc := (h.answer he i c (hanswer i c hc)).congr ho hv
  fenced w hw i hu c hc := (h.fenced w hw i (hunfenced i hu) c (hanswer i c hc)).congr ho hv
  object w hw := ho.trans (h.object w hw)
  safe hr := by
    obtain ⟨he, mark, hm⟩ := h.safe hr
    exact ⟨he, mark, (hsafe hm).mono (fun c g hc => hc) fun c hc => hc.congr ho hv⟩

theorem Inv.fenceFills (h : s.Inv) : { s with reads := s.reads.fenceFills }.Inv := by
  refine h.frame (fun hs => hs.fenceFills) rfl rfl rfl (fun _ hc => hc)
    (fun _ _ hc => Reading.answer_of_fenced hc) (fun i hi => ?_) fun i k g hp => ?_
  · simp [Reads.fenceFills] at hi
  · exact Reading.eq_of_fenced hp rfl

theorem Inv.evict (h : s.Inv) (dropped : Bool) : (s.evict dropped).Inv := by
  have hf : { s with reads := s.reads.evict dropped }.Inv :=
    h.frame (fun hs => hs.evict dropped) rfl rfl rfl (fun _ hc => (Reads.mem_warm_evict hc).2)
      (fun _ _ hc => hc) (fun _ hi => hi) fun _ _ _ hp => hp
  refine { hf with warm := fun _ hd c hc => ?_ }
  obtain ⟨hkept, -⟩ := Reads.mem_warm_evict hc
  rw [hkept] at hd
  cases hd

theorem Inv.tier (h : s.Inv) (a : TierStep) : { s with reads := s.reads.tier a }.Inv := by
  cases a with
  | evictHot =>
    exact h.frame (fun hs => hs.evictHot) rfl rfl rfl (fun _ hc => hc) (fun _ _ hc => hc)
      (fun _ hi => hi) fun _ _ _ hp => hp
  | evictWarm =>
    exact h.frame (fun hs => hs.evictWarm) rfl rfl rfl
      (fun c hc => absurd hc (Option.not_mem_none c)) (fun _ _ hc => hc) (fun _ hi => hi)
      fun _ _ _ hp => hp
  | distrust =>
    exact h.frame (fun hs => hs.tier .distrust) rfl rfl rfl (fun _ hc => hc) (fun _ _ hc => hc)
      (fun _ hi => hi) fun _ _ _ hp => hp

theorem Inv.moveTo (h : s.Inv) {p : Serving} (hs : s.serving.exposed = false)
    (hp : p.landed = none) : { s with serving := p }.Inv where
  single := h.single
  formed := h.formed
  unsuspecting := h.unsuspecting
  known := h.known
  heard := h.heard
  warm _ := h.warm hs
  answer _ := h.answer hs
  fenced w hw := by
    rw [show p = _ from hw] at hp
    cases hp
  object w hw := by
    rw [show p.landed = _ from hw] at hp
    cases hp
  safe hr := ⟨hp, (h.safe hr).2⟩

theorem Inv.commit (h : s.Inv) (w : Write) :
    { s with
      reads := { s.reads with origin := w.object, version := s.reads.version + 1 }
      serving := .committed w, restarted := false }.Inv where
  single := h.single
  formed := h.formed.congr _ w.object _
  unsuspecting := h.unsuspecting
  known c hc := (h.known c hc).commit w.object
  heard i c hc := (h.heard i c hc).commit w.object
  warm he := by cases he
  answer he := by cases he
  fenced w' hw := by cases hw
  object w' hw := by
    cases hw
    rfl
  safe hr := by cases hr

theorem Inv.fenceBehind (h : s.Inv) {w : Write} (hw : s.serving = .committed w) :
    { s with reads := s.reads.fenceFills, serving := .postFenced w }.Inv := by
  have hf := h.fenceFills
  refine ⟨hf.single, hf.formed, hf.unsuspecting, hf.known, hf.heard, fun he => (by cases he),
    fun he => (by cases he), fun _ _ i hu => ?_, fun w' hw' => ?_, fun hr => ?_⟩
  · simp [Reads.fenceFills] at hu
  · cases hw'
    exact h.object w (by rw [hw]; rfl)
  · have he := (h.safe hr).1
    rw [hw] at he
    cases he

theorem Inv.dropBehind (h : s.Inv) {w : Write} (hw : s.serving = .postFenced w)
    (hq : s.reads.Quiet) (dropped : Bool) :
    { s.evict dropped with serving := .dropped w }.Inv := by
  have he := h.evict dropped
  refine ⟨he.single, he.formed, he.unsuspecting, he.known, he.heard, fun _ hd c hc => ?_,
    fun _ i c hc => ?_, fun w' hw' => (by cases hw'), fun w' hw' => ?_, fun hr => ?_⟩
  · obtain ⟨hkept, -⟩ := Reads.mem_warm_evict hc
    rw [show dropped = _ from hkept] at hd
    cases hd
  · exact (h.fenced w hw i (Reading.unfenced_of_answer hc (hq i)) c hc).congr rfl rfl
  · cases hw'
    exact h.object w (by rw [hw]; rfl)
  · have hl := (h.safe hr).1
    rw [hw] at hl
    cases hl

theorem Inv.keep (h : s.Inv) {w : Write} (hw : s.serving = .dropped w) (kept : Bool)
    (now : SystemTime) : { s with reads := s.keep w kept now, serving := .inserted w }.Inv := by
  have hexposed : s.serving.exposed = false := by rw [hw]; rfl
  have hmove := h.moveTo (p := .inserted w) hexposed rfl
  have horigin := h.object w (by rw [hw]; rfl)
  have hrestarted : s.restarted ≠ true := fun hr => by
    have hl := (h.safe hr).1
    rw [hw] at hl
    cases hl
  unfold Node.keep
  split
  · next c hc =>
    have hcurrent : Current s.reads c ∧ c.obj.trustedGen = 0 := by
      cases w with
      | put o written =>
        cases written with
        | true =>
          cases hc
          exact ⟨⟨o, horigin, rfl, rfl⟩, rfl⟩
        | false => cases hc
      | _ => cases hc
    have hwarm : ∀ c' ∈ (if kept then some c else s.reads.warm), c' = c ∨ c' ∈ s.reads.warm := by
      intro c' hc'
      cases kept with
      | true => exact .inl (Option.some.inj hc').symm
      | false => exact .inr hc'
    refine ⟨h.single, h.formed.insert trivial hcurrent.2 kept, h.unsuspecting, fun c' hc' => ?_,
      fun i c' hc' => (h.heard i c' hc').congr rfl rfl, fun _ hf c' hc' => ?_,
      fun _ i c' hc' => (h.answer hexposed i c' hc').congr rfl rfl, fun w' hw' => (by cases hw'),
      fun w' hw' => (by cases hw'), fun hr => absurd hr hrestarted⟩
    · rcases hwarm c' hc' with rfl | hc'
      · exact hcurrent.1.known.congr rfl rfl
      · exact (h.known c' hc').congr rfl rfl
    · rcases hwarm c' hc' with rfl | hc'
      · exact hcurrent.1.congr rfl rfl
      · exact (h.warm hexposed hf c' hc').congr rfl rfl
  · exact hmove

theorem Inv.warm_of_careful (h : s.Inv) (hok : s.Careful .crash) :
    ∀ c ∈ s.reads.warm, Current s.reads c := fun c hc => by
  rcases hok with ⟨he, hf⟩ | hv
  · exact h.warm he hf c hc
  · exact (h.known c hc).current (hv c hc)

theorem Inv.crash (h : s.Inv) (hok : s.Careful .crash) : s.crash.Inv := by
  have hwarm := h.warm_of_careful hok
  have hsafe : s.crash.reads.Safe s.reads.next (Current s.crash.reads) fun _ => True :=
    { marked := fun c g hc => hc
      generation := le_rfl
      le := le_rfl
      hot := fun k hk => absurd hk (Option.not_mem_none k)
      licensed := fun k hk hn => absurd hn hk.not_gt
      warm := fun _ c hc => (hwarm c hc).congr rfl rfl
      suspect := h.formed.suspect
      matched := fun _ _ _ hp => by cases hp
      answer := fun _ c hc => absurd hc (Option.not_mem_none c)
      handle := fun _ k hk => absurd hk (Option.not_mem_none k)
      hotHandle := fun k hk => absurd hk (Option.not_mem_none k)
      begun := fun _ _ k hk => absurd hk (Option.not_mem_none k)
      served := fun _ _ _ hp => by cases hp }
  exact
    { single := h.single
      formed :=
        { hsafe with
          marked := fun _ _ _ => trivial
          le := Nat.zero_le _
          hot := fun _ _ => Nat.zero_le _
          licensed := fun _ _ _ _ => trivial
          warm := fun _ _ _ => trivial
          matched := fun _ _ _ _ _ => trivial
          answer := fun _ _ _ => trivial
          begun := fun _ hf => hf.elim
          served := fun _ _ _ _ => trivial }
      unsuspecting := fun _ _ _ => Reading.noConfusion
      known := fun c hc => (h.known c hc).congr rfl rfl
      heard := fun _ c hc => absurd hc (Option.not_mem_none c)
      warm := fun _ _ c hc => (hwarm c hc).congr rfl rfl
      answer := fun _ _ c hc => absurd hc (Option.not_mem_none c)
      fenced := fun _ hw => by cases hw
      object := fun w hw => absurd hw (Option.not_mem_none w)
      safe := fun _ => ⟨rfl, s.reads.next, hsafe⟩ }

variable [DecidableEq ι] [Fintype ι] [Layout]

theorem Inv.read (h : s.Inv) {i : ι} {a : ReadStep} {reads : Reads ι}
    (hs : s.reads.read bucket key i a = some reads) : { s with reads }.Inv := by
  obtain ⟨ho, hv, hrep, -⟩ := Reads.read_frame hs
  refine ⟨hrep.trans h.single,
    h.formed.read (fun _ _ _ _ _ _ => trivial) (fun _ _ _ _ => trivial) hs,
    fun j k g hp => h.unsuspecting j k g (Reads.suspect_read h.single hs hp), fun c hc => ?_,
    fun j c hc => ?_, fun he hf c hc => ?_, fun he j c hc => ?_, fun w hw j hu c hc => ?_,
    fun w hw => ho.trans (h.object w hw),
    fun hr => ?_⟩
  · rcases Reads.warm_read hs hc with hc' | hc'
    · exact (h.known c hc').congr ho hv
    · exact (h.heard i c hc').congr ho hv
  · rcases Reads.answer_read hs hc with ⟨hc', -⟩ | ⟨o, hmem, rfl⟩
    · exact (h.heard j c hc').congr ho hv
    · exact (current_copy hmem).known.congr ho hv
  · rcases Reads.warm_read hs hc with hc' | hc'
    · exact (h.warm he hf c hc').congr ho hv
    · exact (h.answer he i c hc').congr ho hv
  · rcases Reads.answer_read hs hc with ⟨hc', -⟩ | ⟨o, hmem, rfl⟩
    · exact (h.answer he j c hc').congr ho hv
    · exact (current_copy hmem).congr ho hv
  · rcases Reads.answer_read hs hc with ⟨hc', hu'⟩ | ⟨o, hmem, rfl⟩
    · exact (h.fenced w hw j (hu' hu) c hc').congr ho hv
    · exact (current_copy hmem).congr ho hv
  · obtain ⟨hl, mark, hsafe⟩ := h.safe hr
    refine ⟨hl, mark, (hsafe.read (fun k g hp => absurd hp (h.unsuspecting i k g))
      (fun _ _ _ hmem => current_copy hmem) hs).mono (fun _ _ hc => hc) fun c hc => ?_⟩
    exact hc.congr ho hv

omit [DecidableEq ι] in
theorem Inv.serve (h : s.Inv) {kept dropped : Bool} {now : SystemTime}
    (hs : s.serve bucket key kept dropped now = some t) : t.Inv := by
  unfold Node.serve at hs
  split at hs
  · cases hs
  · next w hw =>
    obtain ⟨-, hs⟩ := Option.ite_none_right_eq_some.mp hs
    cases hs
    exact (h.evict dropped).moveTo (p := .forwarded w) (by rw [Node.evict, hw]; rfl) rfl
  · next w hw =>
    cases hs
    exact h.commit w
  · next w hw =>
    cases hs
    exact h.fenceBehind hw
  · next w hw =>
    obtain ⟨hq, hs⟩ := Option.ite_none_right_eq_some.mp hs
    cases hs
    exact h.dropBehind hw hq dropped
  · next w hw =>
    cases hs
    exact h.keep hw kept now
  · next w hw =>
    cases hs
    have hmove := h.moveTo (p := .idle) (by rw [hw]; rfl) rfl
    exact hmove.frame (fun hsafe => hsafe.congr _ _ _) rfl rfl rfl (fun _ hc => hc)
      (fun _ _ hc => hc) (fun _ hi => hi) fun _ _ _ hp => hp

theorem Inv.step (h : s.Inv) {a : NodeStep ι} (hok : s.Careful a)
    (hs : s.step bucket key a = some t) : t.Inv := by
  cases a with
  | read i a =>
    obtain ⟨reads, hr, rfl⟩ := Option.map_eq_some_iff.mp hs
    exact h.read hr
  | tier a =>
    cases hs
    exact h.tier a
  | receive w =>
    simp only [Node.step] at hs
    split at hs
    · next hw =>
      split at hs
      · cases hs
        exact h.fenceFills.moveTo (p := .preFenced w) (by rw [hw]; rfl) rfl
      · cases hs
        exact h.moveTo (p := .forwarded w) (by rw [hw]; rfl) rfl
    · cases hs
  | serve kept dropped now => exact h.serve hs
  | crash =>
    cases hs
    exact h.crash hok

/-- In every run whose crashes spare the window behind a commit and find no warm delete failed
there, a read after a restart is answered from a local copy only if that copy is of
the object the origin holds. -/
theorem warm_survives_crash {reads : Reads ι} {l : List (NodeStep ι)} {i : ι} {h : Nat}
    (hsingle : reads.replicated = false) (hformed : reads.Formed)
    (hwarm : ∀ c ∈ reads.warm, Current reads c) (hidle : ∀ i, reads.phase i = .idle)
    (hrun : Machine.Runs (step bucket key) Careful { reads } l s)
    (hrestarted : s.restarted = true) (hserved : s.reads.phase i = .served h) :
    Current s.reads (s.reads.heap h) := by
  have h0 : ({ reads } : Node ι).Inv :=
    { single := hsingle
      formed := hformed
      unsuspecting := fun i k g hp => by
        rw [show reads.phase i = _ from hidle i] at hp
        cases hp
      known := fun c hc => (hwarm c hc).known
      heard := fun i c hc => by
        rw [show reads.phase i = _ from hidle i] at hc
        cases hc
      warm := fun _ _ => hwarm
      answer := fun _ i c hc => by
        rw [show reads.phase i = _ from hidle i] at hc
        cases hc
      fenced := fun _ hw => by cases hw
      object := fun w hw => absurd hw (Option.not_mem_none w)
      safe := fun hr => by cases hr }
  obtain ⟨-, mark, hsafe⟩ := (hrun.keeps (fun _ _ _ h hok hs => h.step hok hs) h0).safe hrestarted
  exact hsafe.served i h trivial hserved

end Node

section Sample
local instance crashLayout : Layout := sampleLayout

def sampleSingle : Reads Bool := { sampleReads with replicated := false }

def sampleCrash (l : List (NodeStep Bool)) : List (NodeStep Bool) :=
  ([.read true .start, .read true .lookup, .read true (.register 1), .read true .get,
    .read true (.commit true), .read true (.insert true .unixEpoch)] : List (NodeStep Bool)) ++ l ++
  ([.crash, .read false .start, .read false .lookup, .read false .check] : List (NodeStep Bool))

def sampleServed : List (NodeStep Bool) :=
  [.receive (.put (sampleOrigin "z") true), .serve true false .unixEpoch,
    .serve true true .unixEpoch, .serve true true .unixEpoch, .serve true true .unixEpoch,
    .serve true true .unixEpoch, .serve true true .unixEpoch]

def sampleSurvivor : Node Bool :=
  (Machine.run (Machine.guarded (Node.step "b" "k") Node.Careful) { reads := sampleSingle }
    (sampleCrash sampleServed)).get (by decide +kernel)

theorem warm_survives_crash_sample :
    sampleSurvivor.reads.phase false = .served 2 ∧
    (sampleSurvivor.reads.heap 2).obj.eTag = some (.strong "z") ∧
    Current sampleSurvivor.reads (sampleSurvivor.reads.heap 2) := by
  have hserved : sampleSurvivor.reads.phase false = .served 2 := by rfl
  have hformed : sampleSingle.Formed :=
    { formed_sampleReads with
      licensed := fun _ _ _ _ => trivial
      warm := fun _ _ _ => trivial }
  have hrun : Machine.Runs (Node.step "b" "k") Node.Careful { reads := sampleSingle }
      (sampleCrash sampleServed) sampleSurvivor :=
    Machine.runs_of_run_guarded (Option.some_get _).symm
  exact ⟨hserved, by decide +kernel, Node.warm_survives_crash rfl hformed
    (fun c hc => absurd hc (Option.not_mem_none c)) (fun _ => rfl) hrun (by decide +kernel) hserved⟩

def sampleOrphan : Node Bool :=
  (Machine.run (Node.step "b" "k") { reads := sampleSingle }
    (sampleCrash [.receive .delete, .serve true true .unixEpoch])).get (by decide +kernel)

theorem crash_leaves_deleted_body :
    sampleOrphan.restarted = true ∧ sampleOrphan.reads.phase false = .served 1 ∧
    sampleOrphan.reads.origin.isNone = true ∧
    (sampleOrphan.reads.heap 1).obj.eTag = some (.strong "a") := by
  refine ⟨by decide +kernel, by rfl, by decide +kernel, by decide +kernel⟩

end Sample

end S3Cache.Cache

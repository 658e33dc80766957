import S3Cache.Cache.Observe
import S3Cache.Tier.Copies

/-! Reads of one key through the local tiers (`cache/proxy.rs`, `tier.rs`): the lookup that
promotes a warm copy, the proof a suspect copy needs, and the fill behind a miss.  The hot tier
hands out shared handles, so marking a copy trusted is seen by everyone who holds it. -/

namespace S3Cache.Index

open Tier

inductive BodyMatch where
  | same
  | missingIdentity
  | etagMismatch
  | timestampMismatch
  deriving DecidableEq

def bodyMtimeSlack : Nat := 1000000000

def compareEntryBody (entry : ObjEntry) (obj : CachedObject) : BodyMatch :=
  match entry.etag, obj.eTag, obj.lastModified with
  | some indexed, some cached, some filledAt =>
    if indexed ≠ cached then .etagMismatch
    else if filledAt < (entry.lastModified.checkedSub bodyMtimeSlack).getD entry.lastModified then
      .timestampMismatch
    else .same
  | _, _, _ => .missingIdentity

def ProvenBy (entry : ObjEntry) (obj : CachedObject) : Prop :=
  ∃ tag at_, entry.etag = some tag ∧ obj.eTag = some tag ∧ obj.lastModified = some at_ ∧
    entry.lastModified.ns ≤ at_.ns + bodyMtimeSlack

theorem provenBy_of_compareEntryBody {entry : ObjEntry} {obj : CachedObject}
    (h : compareEntryBody entry obj = .same) : ProvenBy entry obj := by
  unfold compareEntryBody at h
  split at h
  · next indexed cached filledAt he hc hl =>
    split at h
    · cases h
    · next heq =>
      split at h
      · cases h
      · next hle =>
        obtain rfl := not_not.mp heq
        refine ⟨indexed, filledAt, he, hc, hl, ?_⟩
        have hle := SystemTime.le_iff.mp (not_lt.mp hle)
        unfold SystemTime.checkedSub at hle
        split at hle
        · simp only [Option.getD_some] at hle
          omega
        · simp only [Option.getD_none] at hle
          omega
  · cases h

end S3Cache.Index

namespace S3Cache.Cache

open Index Tier KeyIndexState Fleet

structure OriginObject extends ObservedObject where
  timestamp : Option SystemTime

structure Copy where
  obj : CachedObject
  version : Nat
  deriving DecidableEq

def Copy.marked (c : Copy) (generation : Nat) : Copy := { c with obj := c.obj.markTrusted generation }

def OriginObject.copy (o : OriginObject) (version : Nat) : Copy := ⟨⟨o.etag, o.timestamp, 0⟩, version⟩

inductive Reading where
  | idle
  | probing
  | holding (h : Nat)
  | suspect (h g : Nat)
  | matched (h g : Nat)
  | rejected
  | dropping
  | fetching (g : Nat) (stale : Bool)
  | fetched (g : Nat) (stale : Bool) (o : OriginObject) (version : Nat)
  | inserting (g : Nat) (stale : Bool) (o : OriginObject) (version : Nat)
  | served (h : Nat)
  | done

namespace Reading

def handle : Reading → Option Nat
  | holding h | suspect h _ | matched h _ | served h => some h
  | _ => none

def fenced : Reading → Reading
  | fetching g _ => fetching g true
  | fetched g _ o v => fetched g true o v
  | inserting g _ o v => inserting g true o v
  | p => p

def landing : Reading → Bool
  | inserting _ stale _ _ => stale
  | _ => false

def unfenced : Reading → Bool
  | fetching _ stale | fetched _ stale _ _ | inserting _ stale _ _ => !stale
  | _ => false

/-- The answer a fill may still land: it has passed its commit check, or no write has fenced it. -/
def answer : Reading → Option Copy
  | fetched _ false o v | inserting _ _ o v => some (o.copy v)
  | _ => none

@[simp] theorem unfenced_fenced (p : Reading) : p.fenced.unfenced = false := by
  cases p <;> rfl

theorem eq_of_fenced {p q : Reading} (h : p.fenced = q) (hq : q.handle.isSome = true) : p = q := by
  subst h
  cases p with
  | fetching | fetched | inserting => cases hq
  | _ => rfl

@[simp] theorem handle_fenced (p : Reading) : p.fenced.handle = p.handle := by
  cases p <;> rfl

theorem unfenced_of_answer {p : Reading} {c : Copy} (h : c ∈ p.answer) (hl : p.landing = false) :
    p.unfenced = true := by
  cases p with
  | fetched g stale o v =>
    cases stale with
    | false => rfl
    | true => cases h
  | inserting g stale o v =>
    obtain rfl : stale = false := hl
    rfl
  | _ => cases h

theorem answer_of_fenced {p : Reading} {c : Copy} (h : c ∈ p.fenced.answer) : c ∈ p.answer := by
  cases p with
  | inserting => exact h
  | _ => cases h

end Reading

structure Reads (ι : Type) where
  replicated : Bool
  index : KeyIndexState
  origin : Option OriginObject
  version : Nat
  hot : Option Nat := none
  warm : Option Copy := none
  heap : Nat → Copy
  next : Nat
  generation : Nat
  phase : ι → Reading

inductive ReadStep where
  | start
  | lookup
  | check
  | compare
  | mark
  | fence
  | drop (dropped : Bool)
  | register (g : Nat)
  | get
  | commit (serving : Bool)
  | insert (kept : Bool) (now : SystemTime)
  | leave

inductive TierStep where
  | evictHot
  | evictWarm
  | distrust

namespace Reads

variable {ι : Type}

def uncertain (bucket key : String) (s : Reads ι) : Bool := (s.index.view bucket key).fence.isSome

def fenceFills (s : Reads ι) : Reads ι := { s with phase := fun i => (s.phase i).fenced }

def Quiet (s : Reads ι) : Prop := ∀ i, (s.phase i).landing = false

instance [Fintype ι] (s : Reads ι) : Decidable s.Quiet := inferInstanceAs (Decidable (∀ _, _))

def evict (s : Reads ι) (dropped : Bool) : Reads ι :=
  { s with hot := none, warm := if dropped then none else s.warm }

def evictHot (s : Reads ι) : Reads ι := { s with hot := none }

def alloc (s : Reads ι) (c : Copy) : Reads ι :=
  { s with heap := Function.update s.heap s.next c, hot := some s.next, next := s.next + 1 }

def lookup (s : Reads ι) : Option Nat × Reads ι :=
  match s.hot, s.warm with
  | some h, _ => (some h, s)
  | none, some c => (some s.next, s.alloc c)
  | none, none => (none, s)

def trusts (s : Reads ι) (c : Copy) : Bool := !s.replicated || c.obj.trusted s.generation

def proves (bucket key : String) (s : Reads ι) (c : Copy) : Bool :=
  (s.index.bucket bucket).synced &&
    (s.index.view bucket key).row.any fun entry => compareEntryBody entry c.obj == .same

def tier (s : Reads ι) : TierStep → Reads ι
  | .evictHot => s.evictHot
  | .evictWarm => { s with warm := none }
  | .distrust => { s with generation := s.generation + 1 }

section
variable [DecidableEq ι]

def moveTo (s : Reads ι) (i : ι) (p : Reading) : Reads ι :=
  { s with phase := Function.update s.phase i p }

def setHeap (s : Reads ι) (h : Nat) (c : Copy) : Reads ι :=
  { s with heap := Function.update s.heap h c }

variable [Fintype ι] [Layout]

def read (bucket key : String) (s : Reads ι) (i : ι) (a : ReadStep) : Option (Reads ι) :=
  match s.phase i, a with
  | .idle, .start => some (s.moveTo i (if s.uncertain bucket key then .done else .probing))
  | .probing, .lookup =>
    match s.lookup with
    | (some h, s) => some (s.moveTo i (.holding h))
    | (none, s) => some s
  | .holding h, .check =>
    some (s.moveTo i (if s.trusts (s.heap h) then .served h else .suspect h s.generation))
  | .suspect h g, .compare =>
    some (s.moveTo i (if s.proves bucket key (s.heap h) then .matched h g else .rejected))
  | .matched h g, .mark => some ((s.setHeap h ((s.heap h).marked g)).moveTo i (.served h))
  | .rejected, .fence => some (s.fenceFills.moveTo i .dropping)
  | .dropping, .drop dropped =>
    if s.Quiet then some ((s.evict dropped).moveTo i .probing) else none
  | .probing, .register g =>
    -- the generation was read at some earlier moment
    if 1 ≤ g ∧ g ≤ s.generation then some (s.moveTo i (.fetching g false)) else none
  | .fetching g stale, .get =>
    match s.origin with
    | some o => some (s.moveTo i (.fetched g stale o s.version))
    | none => some (s.moveTo i .done)
  | .fetched g stale o v, .commit serving =>
    if !stale && s.generation == g && serving && !s.uncertain bucket key then
      some (s.moveTo i (.inserting g stale o v))
    else some (s.moveTo i .done)
  | .inserting g _ o v, .insert kept now =>
    some ({ s.alloc ((o.copy v).marked g) with
      index := observe s.index bucket key o.toObservedObject now
      warm := if kept then some (o.copy v) else s.warm }.moveTo i .done)
  | _, .leave => some (s.moveTo i .done)
  | _, _ => none

end

def Licensed (s : Reads ι) (c : Copy) : Prop := s.replicated = false ∨ c.obj.trustedGen ≠ 0

structure Safe (mark : Nat) (Good : Copy → Prop) (fresh : ι → Prop) (s : Reads ι) : Prop where
  marked : ∀ c g, Good c → Good (c.marked g)
  generation : 1 ≤ s.generation
  le : mark ≤ s.next
  hot : ∀ h ∈ s.hot, mark ≤ h
  licensed : ∀ h, mark ≤ h → h < s.next → s.Licensed (s.heap h) → Good (s.heap h)
  warm : s.replicated = false → ∀ c ∈ s.warm, Good c
  suspect : ∀ c ∈ s.warm, c.obj.trustedGen = 0
  matched : ∀ i h g, s.phase i = .matched h g → mark ≤ h → Good (s.heap h)
  answer : ∀ i, ∀ c ∈ (s.phase i).answer, Good c
  handle : ∀ i, ∀ h ∈ (s.phase i).handle, h < s.next
  hotHandle : ∀ h ∈ s.hot, h < s.next
  begun : ∀ i, fresh i → ∀ h ∈ (s.phase i).handle, mark ≤ h
  served : ∀ i h, fresh i → s.phase i = .served h → Good (s.heap h)

def Formed (s : Reads ι) : Prop := s.Safe 0 (fun _ => True) fun _ => False

variable {mark : Nat} {Good : Copy → Prop} {fresh : ι → Prop} {s t : Reads ι}

theorem Safe.mono {Good' : Copy → Prop} (h : s.Safe mark Good fresh)
    (hmarked : ∀ c g, Good' c → Good' (c.marked g)) (himp : ∀ c, Good c → Good' c) :
    s.Safe mark Good' fresh :=
  { h with
    marked := hmarked
    licensed := fun k hk hn hl => himp _ (h.licensed k hk hn hl)
    warm := fun hr c hc => himp _ (h.warm hr c hc)
    matched := fun i k g hp hk => himp _ (h.matched i k g hp hk)
    answer := fun i c hc => himp _ (h.answer i c hc)
    served := fun i k hf hp => himp _ (h.served i k hf hp) }

theorem Safe.cut {Good' : Copy → Prop} {fresh' : ι → Prop} (h : s.Safe mark Good fresh)
    (hmarked : ∀ c g, Good' c → Good' (c.marked g)) (hhot : s.hot = none)
    (hwarm : s.replicated = false → ∀ c ∈ s.warm, Good' c)
    (hanswer : ∀ i, ∀ c ∈ (s.phase i).answer, Good' c) (hfresh : ∀ i, ¬ fresh' i) :
    s.Safe s.next Good' fresh' where
  marked := hmarked
  generation := h.generation
  le := le_rfl
  hot k hk := by
    rw [hhot] at hk
    cases hk
  licensed k hk hn := absurd hn hk.not_gt
  warm := hwarm
  suspect := h.suspect
  matched i k g hp hk := by
    have hlt := h.handle i k (by rw [hp]; rfl)
    exact absurd hlt hk.not_gt
  answer := hanswer
  handle := h.handle
  hotHandle := h.hotHandle
  begun i hi := absurd hi (hfresh i)
  served i k hi := absurd hi (hfresh i)

theorem Safe.congr (h : s.Safe mark Good fresh) (index : KeyIndexState)
    (origin : Option OriginObject) (version : Nat) :
    { s with index, origin, version }.Safe mark Good fresh :=
  { h with }

theorem Safe.evictHot (h : s.Safe mark Good fresh) : s.evictHot.Safe mark Good fresh :=
  { h with
    hot := fun k hk => absurd hk (Option.not_mem_none k)
    hotHandle := fun k hk => absurd hk (Option.not_mem_none k) }

theorem Safe.evictWarm (h : s.Safe mark Good fresh) :
    { s with warm := none }.Safe mark Good fresh :=
  { h with
    warm := fun _ c hc => absurd hc (Option.not_mem_none c)
    suspect := fun c hc => absurd hc (Option.not_mem_none c) }

theorem Safe.evict (h : s.Safe mark Good fresh) (dropped : Bool) :
    (s.evict dropped).Safe mark Good fresh := by
  cases dropped with
  | true => exact h.evictHot.evictWarm
  | false => exact h.evictHot

theorem mem_warm_evict {dropped : Bool} {c : Copy} (h : c ∈ (s.evict dropped).warm) :
    dropped = false ∧ c ∈ s.warm := by
  cases dropped with
  | true => cases h
  | false => exact ⟨rfl, h⟩

theorem Safe.tier (h : s.Safe mark Good fresh) (a : TierStep) : (s.tier a).Safe mark Good fresh := by
  cases a with
  | evictHot => exact h.evictHot
  | evictWarm => exact h.evictWarm
  | distrust => exact { h with generation := Nat.le_add_left 1 _ }

theorem Safe.fenceFills (h : s.Safe mark Good fresh) : s.fenceFills.Safe mark Good fresh :=
  { h with
    matched := fun i k g hp => h.matched i k g (Reading.eq_of_fenced hp rfl)
    answer := fun i c hc => h.answer i c (Reading.answer_of_fenced hc)
    handle := fun i k hk => h.handle i k (by simpa [Reads.fenceFills] using hk)
    begun := fun i hf k hk => h.begun i hf k (by simpa [Reads.fenceFills] using hk)
    served := fun i k hf hp => h.served i k hf (Reading.eq_of_fenced hp rfl) }

theorem Safe.alloc (h : s.Safe mark Good fresh) {c : Copy}
    (hc : s.Licensed c → Good c) : (s.alloc c).Safe mark Good fresh where
  marked := h.marked
  generation := h.generation
  le := h.le.trans (Nat.le_succ _)
  hot k hk := by
    obtain rfl : s.next = k := Option.some.inj hk
    exact h.le
  licensed k hk hn hl := by
    simp only [Reads.alloc, Function.update_apply] at hn hl ⊢
    split at hl
    · next heq =>
      rw [if_pos heq]
      exact hc hl
    · next hne =>
      rw [if_neg hne]
      exact h.licensed k hk (by omega) hl
  warm := h.warm
  suspect := h.suspect
  matched i k g hp hk := by
    have hlt := h.handle i k (by rw [show s.phase i = _ from hp]; rfl)
    simp only [Reads.alloc, Function.update_apply, if_neg hlt.ne]
    exact h.matched i k g hp hk
  answer := h.answer
  handle i k hk := (h.handle i k hk).trans (Nat.lt_succ_self _)
  hotHandle k hk := by
    obtain rfl : s.next = k := Option.some.inj hk
    exact Nat.lt_succ_self _
  begun := h.begun
  served i k hf hp := by
    have hlt := h.handle i k (by rw [show s.phase i = _ from hp]; rfl)
    simp only [Reads.alloc, Function.update_apply, if_neg hlt.ne]
    exact h.served i k hf hp

theorem Safe.trusts (h : s.Safe mark Good fresh) {k : Nat} (hk : mark ≤ k) (hn : k < s.next)
    (ht : s.trusts (s.heap k) = true) : Good (s.heap k) := by
  refine h.licensed k hk hn ?_
  rcases Bool.or_eq_true_iff.mp ht with hr | hg
  · exact .inl (by simpa using hr)
  · refine .inr fun h0 => ?_
    have hgen := h.generation
    rw [CachedObject.trusted, h0, beq_iff_eq] at hg
    omega

theorem Safe.insert (h : s.Safe mark Good fresh) {c : Copy} {g : Nat} (hc : Good c)
    (h0 : c.obj.trustedGen = 0) (kept : Bool) :
    { s.alloc (c.marked g) with warm := if kept then some c else s.warm }.Safe
      mark Good fresh := by
  have halloc := h.alloc (c := c.marked g) fun _ => h.marked c g hc
  cases kept with
  | false => exact halloc
  | true =>
    exact
      { halloc with
        warm := fun _ c' hc' => Option.some.inj hc' ▸ hc
        suspect := fun c' hc' => Option.some.inj hc' ▸ h0 }

section
variable [DecidableEq ι] {i : ι} {p : Reading}

theorem phase_moveTo (j : ι) : (s.moveTo i p).phase j = if j = i then p else s.phase j :=
  Function.update_apply ..

theorem Safe.moveTo (h : s.Safe mark Good fresh)
    (hmatched : ∀ k g, p = .matched k g → mark ≤ k → Good (s.heap k))
    (hanswer : ∀ c ∈ p.answer, Good c) (hhandle : ∀ k ∈ p.handle, k < s.next)
    (hbegun : fresh i → ∀ k ∈ p.handle, mark ≤ k)
    (hserved : ∀ k, fresh i → p = .served k → Good (s.heap k)) :
    (s.moveTo i p).Safe mark Good fresh :=
  { h with
    matched := fun j k g hp => by
      rw [phase_moveTo] at hp
      split at hp
      · exact hmatched k g hp
      · exact h.matched j k g hp
    answer := fun j c hc => by
      rw [phase_moveTo] at hc
      split at hc
      · exact hanswer c hc
      · exact h.answer j c hc
    handle := fun j k hk => by
      rw [phase_moveTo] at hk
      split at hk
      · exact hhandle k hk
      · exact h.handle j k hk
    begun := fun j hf k hk => by
      rw [phase_moveTo] at hk
      split at hk
      · next hji => exact hbegun (hji ▸ hf) k hk
      · exact h.begun j hf k hk
    served := fun j k hf hp => by
      rw [phase_moveTo] at hp
      split at hp
      · next hji => exact hserved k (hji ▸ hf) hp
      · exact h.served j k hf hp }

theorem Safe.moveTo_holding (h : s.Safe mark Good fresh) {k : Nat} (hn : k < s.next)
    (hm : fresh i → mark ≤ k) : (s.moveTo i (.holding k)).Safe mark Good fresh :=
  h.moveTo (fun _ _ hp => by cases hp) (fun c hc => absurd hc (Option.not_mem_none c))
    (fun _ hk => Option.some.inj hk ▸ hn) (fun hf _ hk => Option.some.inj hk ▸ hm hf)
    fun _ _ hp => by cases hp

theorem Safe.moveTo_answer (h : s.Safe mark Good fresh) (hh : p.handle = none)
    (ha : ∀ c ∈ p.answer, Good c) : (s.moveTo i p).Safe mark Good fresh := by
  refine h.moveTo (fun k g hp => ?_) ha (fun k hk => ?_) (fun _ k hk => ?_) fun k _ hp => ?_
  · rw [hp] at hh
    cases hh
  · rw [hh] at hk
    cases hk
  · rw [hh] at hk
    cases hk
  · rw [hp] at hh
    cases hh

theorem Safe.moveTo_bare (h : s.Safe mark Good fresh) (hh : p.handle = none)
    (ha : p.answer = none) : (s.moveTo i p).Safe mark Good fresh :=
  h.moveTo_answer hh fun c hc => by
    rw [ha] at hc
    cases hc

theorem Safe.markServed (h : s.Safe mark Good fresh) {k g : Nat} (hp : s.phase i = .matched k g) :
    ((s.setHeap k ((s.heap k).marked g)).moveTo i (.served k)).Safe mark Good fresh := by
  have hlt : k < s.next := h.handle i k (by rw [hp]; rfl)
  have hgood : mark ≤ k → Good ((s.heap k).marked g) := fun hk =>
    h.marked _ g (h.matched i k g hp hk)
  have hkeep : ∀ j, (mark ≤ j → Good (s.heap j)) → mark ≤ j →
      Good (Function.update s.heap k ((s.heap k).marked g) j) := by
    intro j hj hm
    rw [Function.update_apply]
    split
    · next heq =>
      subst heq
      exact hgood hm
    · exact hj hm
  have hset : (s.setHeap k ((s.heap k).marked g)).Safe mark Good fresh :=
    { h with
      licensed := fun j hj hn hl => by
        simp only [setHeap, Function.update_apply] at hl ⊢
        split at hl
        · next heq =>
          subst heq
          rw [if_pos rfl]
          exact hgood hj
        · next hne =>
          rw [if_neg hne]
          exact h.licensed j hj hn hl
      matched := fun j k' g' hp' hk' => hkeep k' (h.matched j k' g' hp') hk'
      served := fun j k' hf hp' =>
        hkeep k' (fun _ => h.served j k' hf hp')
          (h.begun j hf k' (by rw [show s.phase j = _ from hp']; rfl)) }
  refine hset.moveTo (fun k' g' hq => ?_) (fun c hc => ?_) (fun k' hk' => ?_) (fun hf k' hk' => ?_)
    fun k' hf hq => ?_
  · cases hq
  · cases hc
  · cases hk'
    exact hlt
  · cases hk'
    exact h.begun i hf k (by rw [hp]; rfl)
  · cases hq
    exact hkeep k (fun hk => h.matched i k g hp hk) (h.begun i hf k (by rw [hp]; rfl))

theorem unfenced_moveTo {j : ι} (hp : p.unfenced = false)
    (h : ((s.moveTo i p).phase j).unfenced = true) : (s.phase j).unfenced = true := by
  rw [phase_moveTo] at h
  split at h
  · rw [hp] at h
    cases h
  · exact h

omit [DecidableEq ι] in
theorem Safe.freshen {fresh' : ι → Prop} (h : s.Safe mark Good fresh)
    (hi : (s.phase i).handle = none) (hfresh : ∀ j, fresh' j → j = i ∨ fresh j) :
    s.Safe mark Good fresh' := by
  refine { h with begun := fun j hj k hk => ?_, served := fun j k hj hp => ?_ }
  · rcases hfresh j hj with rfl | hj
    · rw [hi] at hk
      cases hk
    · exact h.begun j hj k hk
  · rcases hfresh j hj with rfl | hj
    · rw [hp] at hi
      cases hi
    · exact h.served j k hj hp

variable [Fintype ι] [Layout] {bucket key : String} {a : ReadStep}

inductive Took (bucket key : String) (s : Reads ι) (i : ι) : ReadStep → Reads ι → Prop where
  | bare {a : ReadStep} (p : Reading) : p.handle = none → p.answer = none →
    (p.unfenced = true → ∃ g, a = .register g) → Took bucket key s i a (s.moveTo i p)
  | miss : Took bucket key s i .lookup s
  | hit {h : Nat} : s.hot = some h → Took bucket key s i .lookup (s.moveTo i (.holding h))
  | promote {c : Copy} : s.warm = some c →
    Took bucket key s i .lookup ((s.alloc c).moveTo i (.holding s.next))
  | serve {h : Nat} : s.phase i = .holding h → s.trusts (s.heap h) = true →
    Took bucket key s i .check (s.moveTo i (.served h))
  | doubt {h : Nat} : s.phase i = .holding h → s.trusts (s.heap h) = false →
    Took bucket key s i .check (s.moveTo i (.suspect h s.generation))
  | prove {h g : Nat} : s.phase i = .suspect h g → s.proves bucket key (s.heap h) = true →
    Took bucket key s i .compare (s.moveTo i (.matched h g))
  | mark {h g : Nat} : s.phase i = .matched h g →
    Took bucket key s i .mark ((s.setHeap h ((s.heap h).marked g)).moveTo i (.served h))
  | fence : Took bucket key s i .fence (s.fenceFills.moveTo i .dropping)
  | drop {dropped : Bool} :
    Took bucket key s i (.drop dropped) ((s.evict dropped).moveTo i .probing)
  | get {g : Nat} {stale : Bool} {o : OriginObject} : s.phase i = .fetching g stale →
    s.origin = some o → Took bucket key s i .get (s.moveTo i (.fetched g stale o s.version))
  | commit {g v : Nat} {o : OriginObject} {serving : Bool} : s.phase i = .fetched g false o v →
    Took bucket key s i (.commit serving) (s.moveTo i (.inserting g false o v))
  | insert {g v : Nat} {stale kept : Bool} {o : OriginObject} {now : SystemTime} :
    s.phase i = .inserting g stale o v →
    Took bucket key s i (.insert kept now)
      ({ s.alloc ((o.copy v).marked g) with
        index := observe s.index bucket key o.toObservedObject now
        warm := if kept then some (o.copy v) else s.warm }.moveTo i .done)

theorem took_of_read (hs : s.read bucket key i a = some t) : Took bucket key s i a t := by
  have hdone : ∀ {a : ReadStep}, Took bucket key s i a (s.moveTo i .done) :=
    .bare .done rfl rfl fun hu => by cases hu
  unfold Reads.read at hs
  split at hs
  · cases hs
    split
    · exact hdone
    · exact .bare .probing rfl rfl fun hu => by cases hu
  · unfold Reads.lookup at hs
    cases hhot : s.hot with
    | some h =>
      simp only [hhot] at hs
      cases hs
      exact .hit hhot
    | none =>
      cases hwarm : s.warm with
      | some c =>
        simp only [hhot, hwarm] at hs
        cases hs
        exact .promote hwarm
      | none =>
        simp only [hhot, hwarm] at hs
        cases hs
        exact .miss
  · next hp =>
    cases hs
    split
    · next ht => exact .serve hp ht
    · next ht => exact .doubt hp (Bool.eq_false_of_not_eq_true ht)
  · next hp =>
    cases hs
    split
    · next hv => exact .prove hp hv
    · exact .bare .rejected rfl rfl fun hu => by cases hu
  · next hp =>
    cases hs
    exact .mark hp
  · cases hs
    exact .fence
  · obtain ⟨-, hs⟩ := Option.ite_none_right_eq_some.mp hs
    cases hs
    exact .drop
  · next g _ =>
    obtain ⟨-, hs⟩ := Option.ite_none_right_eq_some.mp hs
    cases hs
    exact .bare (.fetching g false) rfl rfl fun _ => ⟨g, rfl⟩
  · next hp =>
    split at hs
    · next ho =>
      cases hs
      exact .get hp ho
    · cases hs
      exact hdone
  · next g stale o v serving hp =>
    split at hs
    · next hok =>
      cases hs
      obtain rfl : stale = false := by simp_all
      exact .commit hp
    · cases hs
      exact hdone
  · next hp =>
    cases hs
    exact .insert hp
  · cases hs
    exact hdone
  · cases hs

theorem Safe.read (h : s.Safe mark Good fresh)
    (hproves : ∀ k g, s.phase i = .suspect k g → a = .compare →
      s.proves bucket key (s.heap k) = true → mark ≤ k → Good (s.heap k))
    (hget : ∀ g, s.phase i = .fetching g false → ∀ o ∈ s.origin, Good (o.copy s.version))
    (hs : s.read bucket key i a = some t) : t.Safe mark Good fresh := by
  have hheld : ∀ {k : Nat}, (s.phase i).handle = some k →
      k < s.next ∧ (fresh i → mark ≤ k) := fun hk => ⟨h.handle i _ hk, fun hf => h.begun i hf _ hk⟩
  cases took_of_read hs with
  | bare p hh ha => exact h.moveTo_bare hh ha
  | miss => exact h
  | hit hhot =>
    exact h.moveTo_holding (h.hotHandle _ hhot) fun _ => h.hot _ hhot
  | promote hwarm =>
    refine (h.alloc fun hl => ?_).moveTo_holding (Nat.lt_succ_self _) fun _ => h.le
    rcases hl with hr | hne
    · exact h.warm hr _ hwarm
    · exact absurd (h.suspect _ hwarm) hne
  | serve hp ht =>
    obtain ⟨hn, hm⟩ := hheld (by rw [hp]; rfl)
    refine h.moveTo (fun _ _ hq => (by cases hq)) (fun c hc => (by cases hc))
      (fun k hk => (by cases hk; exact hn)) (fun hf k hk => (by cases hk; exact hm hf))
      fun k hf hq => ?_
    cases hq
    exact h.trusts (hm hf) hn ht
  | doubt hp _ =>
    obtain ⟨hn, hm⟩ := hheld (by rw [hp]; rfl)
    exact h.moveTo (fun _ _ hq => (by cases hq)) (fun c hc => (by cases hc))
      (fun k hk => (by cases hk; exact hn)) (fun hf k hk => (by cases hk; exact hm hf))
      fun k hf hq => by cases hq
  | prove hp hv =>
    obtain ⟨hn, hm⟩ := hheld (by rw [hp]; rfl)
    refine h.moveTo (fun k g hq hk => ?_) (fun c hc => (by cases hc))
      (fun k hk => (by cases hk; exact hn)) (fun hf k hk => (by cases hk; exact hm hf))
      fun k hf hq => (by cases hq)
    cases hq
    exact hproves _ _ hp rfl hv hk
  | mark hp => exact h.markServed hp
  | fence => exact h.fenceFills.moveTo_bare rfl rfl
  | drop => exact (h.evict _).moveTo_bare rfl rfl
  | @get g stale o hp ho =>
    refine h.moveTo_answer rfl fun c hc => ?_
    cases stale with
    | true => cases hc
    | false =>
      cases hc
      exact hget g hp o ho
  | commit hp =>
    refine h.moveTo_answer rfl fun c hc => h.answer i c ?_
    rw [hp]
    exact hc
  | @insert g v stale kept o now hp =>
    have hc : Good (o.copy v) := h.answer i _ (by rw [hp]; rfl)
    exact ((h.insert hc rfl kept).congr _ _ _).moveTo_bare rfl rfl

theorem read_frame (hs : s.read bucket key i a = some t) :
    t.origin = s.origin ∧ t.version = s.version ∧ t.replicated = s.replicated ∧
    (t.index = s.index ∨ ∃ g stale o v now, s.phase i = .inserting g stale o v ∧
      t.index = observe s.index bucket key o.toObservedObject now) := by
  cases took_of_read hs with
  | insert hp => exact ⟨rfl, rfl, rfl, .inr ⟨_, _, _, _, _, hp, rfl⟩⟩
  | _ => exact ⟨rfl, rfl, rfl, .inl rfl⟩

theorem unfenced_read {j : ι} (ha : ∀ g, a ≠ .register g) (hs : s.read bucket key i a = some t)
    (h : (t.phase j).unfenced = true) : (s.phase j).unfenced = true := by
  have hkeep : ∀ {p q : Reading}, ((s.moveTo i q).phase j).unfenced = true → s.phase i = p →
      q.unfenced = p.unfenced → (s.phase j).unfenced = true := by
    intro p q hu hp hq
    rw [phase_moveTo] at hu
    split at hu
    · next hji => rw [hji, hp, ← hq, hu]
    · exact hu
  cases took_of_read hs with
  | bare p _ _ hreg =>
    rw [phase_moveTo] at h
    split at h
    · obtain ⟨g, rfl⟩ := hreg h
      exact absurd rfl (ha g)
    · exact h
  | miss => exact h
  | fence =>
    have hf := unfenced_moveTo rfl h
    simp [fenceFills] at hf
  | get hp _ => exact hkeep h hp rfl
  | commit hp => exact hkeep h hp rfl
  | _ => exact unfenced_moveTo rfl h

theorem answer_read {j : ι} {c : Copy} (hs : s.read bucket key i a = some t)
    (hc : c ∈ (t.phase j).answer) :
    c ∈ (s.phase j).answer ∧ ((t.phase j).unfenced = true → (s.phase j).unfenced = true) ∨
    ∃ o ∈ s.origin, c = o.copy s.version := by
  have hmove : ∀ {q : Reading}, t.phase = Function.update s.phase i q →
      c ∉ q.answer →
      c ∈ (s.phase j).answer ∧ ((t.phase j).unfenced = true → (s.phase j).unfenced = true) := by
    intro q ht hq
    rw [ht, Function.update_apply] at hc ⊢
    split at hc
    · exact absurd hc hq
    · next hji =>
      rw [if_neg hji]
      exact ⟨hc, id⟩
  cases took_of_read hs with
  | bare p _ ha _ => exact .inl (hmove rfl fun h => by rw [ha] at h; cases h)
  | miss => exact .inl ⟨hc, id⟩
  | fence =>
    rw [phase_moveTo] at hc
    split at hc
    · cases hc
    · next hji =>
      rw [phase_moveTo, if_neg hji]
      refine .inl ⟨Reading.answer_of_fenced hc, fun hu => ?_⟩
      simp [fenceFills] at hu
  | @get g stale o hp ho =>
    rw [phase_moveTo] at hc
    split at hc
    · cases stale with
      | true => cases hc
      | false =>
        cases hc
        exact .inr ⟨o, ho, rfl⟩
    · next hji =>
      rw [phase_moveTo, if_neg hji]
      exact .inl ⟨hc, id⟩
  | commit hp =>
    rw [phase_moveTo] at hc ⊢
    split at hc
    · next hji =>
      rw [if_pos hji, hji, hp]
      exact .inl ⟨hc, id⟩
    · next hji =>
      rw [if_neg hji]
      exact .inl ⟨hc, id⟩
  | _ => exact .inl (hmove rfl fun h => by cases h)

theorem warm_read {c : Copy} (hs : s.read bucket key i a = some t) (hc : c ∈ t.warm) :
    c ∈ s.warm ∨ c ∈ (s.phase i).answer := by
  cases took_of_read hs with
  | drop => exact .inl (mem_warm_evict hc).2
  | @insert g v stale kept o now hp =>
    rw [hp]
    cases kept with
    | true => exact .inr hc
    | false => exact .inl hc
  | _ => exact .inl hc

theorem suspect_read {j : ι} {k g : Nat} (hr : s.replicated = false)
    (hs : s.read bucket key i a = some t) (hp : t.phase j = .suspect k g) :
    s.phase j = .suspect k g := by
  have hmove : ∀ {q : Reading}, t.phase = Function.update s.phase i q → q ≠ .suspect k g →
      s.phase j = .suspect k g := by
    intro q ht hq
    rw [ht, Function.update_apply] at hp
    split at hp
    · exact absurd hp hq
    · exact hp
  cases took_of_read hs with
  | bare p hh =>
    refine hmove rfl fun hq => ?_
    rw [hq] at hh
    cases hh
  | miss => exact hp
  | @doubt h _ ht => simp [trusts, hr] at ht
  | fence =>
    rw [phase_moveTo] at hp
    split at hp
    · cases hp
    · exact Reading.eq_of_fenced hp rfl
  | _ => exact hmove rfl Reading.noConfusion

theorem handle_start (hs : s.read bucket key i .start = some t) : (t.phase i).handle = none := by
  cases took_of_read hs with
  | bare p hh =>
    rw [phase_moveTo, if_pos rfl]
    exact hh

end

end Reads

section Sample

def sampleOrigin (eTag : String) : OriginObject where
  size := some 3
  lastModified := some 1
  etag := some (.strong eTag)
  contentType := none
  storageClass := standardClass
  objMeta := {}
  timestamp := originTime 1

def sampleReads : Reads Bool where
  replicated := true
  index := {}
  origin := some (sampleOrigin "a")
  version := 0
  heap _ := ⟨⟨none, none, 0⟩, 0⟩
  next := 0
  generation := 1
  phase _ := .idle

theorem formed_sampleReads : sampleReads.Formed where
  marked _ _ _ := trivial
  generation := le_rfl
  le := le_rfl
  hot _ _ := Nat.zero_le _
  licensed _ _ _ _ := trivial
  warm _ _ _ := trivial
  suspect c hc := absurd hc (Option.not_mem_none c)
  matched _ _ _ _ _ := trivial
  answer _ _ _ := trivial
  handle _ h hh := absurd hh (Option.not_mem_none h)
  hotHandle h hh := absurd hh (Option.not_mem_none h)
  begun _ hf := hf.elim
  served _ _ _ _ := trivial

end Sample

end S3Cache.Cache

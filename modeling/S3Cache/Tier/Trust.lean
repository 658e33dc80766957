import S3Cache.Lib.Machine
import S3Cache.Tier.Copies

/-! Trust in cached bodies (`tier.rs`, `cache/proxy.rs`, `cache/mutation.rs`).  A copy may be
served without proof while it carries the current trust generation.  Fills and revalidations each
read the generation first and stamp what they read on a copy that others may hold; nothing orders
them against one another, against a distrust or against a restart. -/

namespace S3Cache.Tier

open Index

inductive Proof where
  | fetch
  | write
  | comparison
  deriving DecidableEq

structure ProvedCopy where
  obj : CachedObject
  proofs : List (Proof × Nat) := []
  deriving DecidableEq

inductive Stamper where
  | sampled (p : Proof) (g : Nat)
  | asked (p : Proof) (g began : Nat)
  | filled (p : Proof) (g began h : Nat)
  | holding (h : Nat)
  | suspect (h g : Nat)
  | comparing (h g began : Nat)
  | stamping (p : Proof) (g began h : Nat)
  | inserting (h : Nat)
  | done
  deriving DecidableEq

namespace Stamper

def sample : Stamper → Option Nat
  | sampled _ g | asked _ g _ | filled _ g _ _ | suspect _ g | comparing _ g _
  | stamping _ g _ _ => some g
  | _ => none

def proof : Stamper → Option (Nat × Nat)
  | asked _ g began | filled _ g began _ | comparing _ g began | stamping _ g began _ =>
    some (g, began)
  | _ => none

end Stamper

structure Trust where
  clock : Nat := 0
  generation : Nat := 1
  since : Nat := 0
  distrusts : Nat := 0
  heap : List ProvedCopy := []
  hot : CacheKey → Option Nat := fun _ => none
  warm : CacheKey → Option CachedObject
  tasks : List (CacheKey × Stamper) := []

inductive TrustEvent where
  | fill (key : CacheKey) (write : Bool)
  | ask (i : Nat)
  | answer (i : Nat) (eTag : Option ETag) (lastModified : Option SystemTime)
  | commit (i : Nat) (accepted : Bool)
  | stamp (i : Nat)
  | insert (i : Nat) (kept : Bool)
  | lookup (key : CacheKey)
  | sample (i : Nat)
  | compare (i : Nat)
  | judge (i : Nat) (proved dropped : Bool)
  | leave (i : Nat)
  | distrust
  | invalidate (key : CacheKey) (dropped : Bool)
  | evictHot (key : CacheKey)
  | evictWarm (key : CacheKey)
  | flush
  | restart
  deriving DecidableEq

namespace Trust

def begin (s : Trust) (key : CacheKey) (t : Stamper) : Trust :=
  { s with tasks := s.tasks ++ [(key, t)] }

def moveTo (s : Trust) (i : Nat) (key : CacheKey) (t : Stamper) : Trust :=
  { s with tasks := s.tasks.set i (key, t) }

def alloc (s : Trust) (obj : CachedObject) : Trust :=
  { s with heap := s.heap ++ [{ obj := obj.stored }] }

def invalidate (s : Trust) (key : CacheKey) (dropped : Bool) : Trust :=
  { s with
    hot := Function.update s.hot key none
    warm := if dropped then Function.update s.warm key none else s.warm }

def insert (s : Trust) (key : CacheKey) (h : Nat) (obj : CachedObject) (kept : Bool) : Trust :=
  { s with
    hot := Function.update s.hot key (some h)
    warm := if kept then Function.update s.warm key (some obj) else s.warm }

def mark (c : ProvedCopy) (p : Proof) (g began : Nat) : ProvedCopy :=
  ⟨c.obj.markTrusted g, (p, began) :: c.proofs⟩

def restarted (s : Trust) : Trust :=
  { s with generation := 1, since := s.clock, heap := [], hot := fun _ => none, tasks := [] }

def act (s : Trust) : TrustEvent → Option Trust
  | .fill key write => some (s.begin key (.sampled (if write then .write else .fetch) s.generation))
  | .ask i =>
    match s.tasks[i]? with
    | some (key, .sampled p g) => some (s.moveTo i key (.asked p g s.clock))
    | _ => none
  | .answer i eTag lastModified =>
    match s.tasks[i]? with
    | some (key, .asked p g began) =>
      some ((s.alloc ⟨eTag, lastModified, 0⟩).moveTo i key (.filled p g began s.heap.length))
    | _ => none
  | .commit i accepted =>
    match s.tasks[i]? with
    | some (key, .filled p g began h) =>
      -- a read fill checks the generation again, a write fill does not
      if p = .write ∨ (s.generation = g ∧ accepted) then
        some (s.moveTo i key (.stamping p g began h))
      else some (s.moveTo i key .done)
    | _ => none
  | .stamp i =>
    match s.tasks[i]? with
    | some (key, .stamping p g began h) =>
      some ({ s with heap := s.heap.modify h (mark · p g began) }.moveTo i key
        (if p = Proof.comparison then .done else .inserting h))
    | _ => none
  | .insert i kept =>
    match s.tasks[i]? with
    | some (key, .inserting h) =>
      (s.heap[h]?).map fun c => (s.insert key h c.obj kept).moveTo i key .done
    | _ => none
  | .lookup key =>
    match s.hot key, s.warm key with
    | some h, _ => some (s.begin key (.holding h))
    | none, some obj =>
      some ({ s.alloc obj with hot := Function.update s.hot key (some s.heap.length) }.begin key
        (.holding s.heap.length))
    | none, none => some s
  | .sample i =>
    match s.tasks[i]? with
    | some (key, .holding h) =>
      (s.heap[h]?).map fun c =>
        s.moveTo i key (if c.obj.trusted s.generation then .done else .suspect h s.generation)
    | _ => none
  | .compare i =>
    match s.tasks[i]? with
    | some (key, .suspect h g) => some (s.moveTo i key (.comparing h g s.clock))
    | _ => none
  | .judge i proved dropped =>
    match s.tasks[i]? with
    | some (key, .comparing h g began) =>
      if proved then some (s.moveTo i key (.stamping .comparison g began h))
      else some ((s.invalidate key dropped).moveTo i key .done)
    | _ => none
  | .leave i => (s.tasks[i]?).map fun t => s.moveTo i t.1 .done
  | .distrust =>
    some { s with
      generation := (s.generation + 1) % 2 ^ 64, since := s.clock, distrusts := s.distrusts + 1 }
  | .invalidate key dropped => some (s.invalidate key dropped)
  | .evictHot key => some { s with hot := Function.update s.hot key none }
  | .evictWarm key => some { s with warm := Function.update s.warm key none }
  | .flush => some { s with hot := fun _ => none, warm := fun _ => none }
  | .restart => some s.restarted

def step (s : Trust) (e : TrustEvent) : Option Trust := act { s with clock := s.clock + 1 } e

def Vouched (s : Trust) (c : ProvedCopy) : Prop := ∃ p ∈ c.proofs, s.since < p.2

structure Inv (s : Trust) : Prop where
  generation : 1 ≤ s.generation ∧ s.generation ≤ s.distrusts + 1
  since : s.since ≤ s.clock
  sampled : ∀ t ∈ s.tasks, ∀ g ∈ t.2.sample, g ≤ s.generation
  begun : ∀ t ∈ s.tasks, ∀ b ∈ t.2.proof, b.1 = s.generation → s.since < b.2
  stamped : ∀ c ∈ s.heap, c.obj.trustedGen ≤ s.generation
  vouched : ∀ c ∈ s.heap, c.obj.trustedGen = s.generation → s.Vouched c

/-- A task that may stand in `s`. -/
structure Fits (s : Trust) (t : Stamper) : Prop where
  sampled : ∀ g ∈ t.sample, g ≤ s.generation
  begun : ∀ b ∈ t.proof, b.1 = s.generation → s.since < b.2

variable {s s' : Trust} {i : Nat} {key : CacheKey} {t : Stamper}

theorem Inv.fits (h : Inv s) (ht : s.tasks[i]? = some (key, t)) : s.Fits t :=
  ⟨h.sampled _ (List.mem_of_getElem? ht), h.begun _ (List.mem_of_getElem? ht)⟩

theorem Inv.withTasks (h : Inv s) {tasks : List (CacheKey × Stamper)}
    (ht : ∀ u ∈ tasks, u ∈ s.tasks ∨ s.Fits u.2) : Inv { s with tasks } where
  generation := h.generation
  since := h.since
  sampled u hu g hg := (ht u hu).elim (fun hold => h.sampled u hold g hg) fun hf => hf.sampled g hg
  begun u hu b hb := (ht u hu).elim (fun hold => h.begun u hold b hb) fun hf => hf.begun b hb
  stamped := h.stamped
  vouched := h.vouched

theorem Inv.begin (h : Inv s) (ht : s.Fits t) : Inv (s.begin key t) :=
  h.withTasks fun u hu => by
    rcases List.mem_append.mp hu with hold | hnew
    · exact .inl hold
    · exact .inr (List.mem_singleton.mp hnew ▸ ht)

theorem Inv.moveTo (h : Inv s) (ht : s.Fits t) : Inv (s.moveTo i key t) :=
  h.withTasks fun u hu => by
    rcases List.mem_or_eq_of_mem_set hu with hold | hnew
    · exact .inl hold
    · exact .inr (hnew ▸ ht)

theorem fits_done : s.Fits .done := ⟨nofun, nofun⟩

theorem fits_holding {h : Nat} : s.Fits (.holding h) := ⟨nofun, nofun⟩

theorem fits_inserting {h : Nat} : s.Fits (.inserting h) := ⟨nofun, nofun⟩

theorem Inv.alloc (h : Inv s) (obj : CachedObject) : Inv (s.alloc obj) where
  generation := h.generation
  since := h.since
  sampled := h.sampled
  begun := h.begun
  stamped c hc := by
    rcases List.mem_append.mp hc with hold | hnew
    · exact h.stamped c hold
    · rw [List.mem_singleton.mp hnew]
      exact Nat.zero_le _
  vouched c hc hg := by
    rcases List.mem_append.mp hc with hold | hnew
    · exact h.vouched c hold hg
    · rw [List.mem_singleton.mp hnew] at hg
      have hpos : 1 ≤ s.generation := h.generation.1
      have hzero : 0 = s.generation := hg
      omega

theorem Inv.tiers (h : Inv s) (hot : CacheKey → Option Nat) (warm : CacheKey → Option CachedObject) :
    Inv { s with hot, warm } :=
  ⟨h.generation, h.since, h.sampled, h.begun, h.stamped, h.vouched⟩

theorem mem_modify {α : Type} {f : α → α} {l : List α} {n : Nat} {b : α} (h : b ∈ l.modify n f) :
    b ∈ l ∨ ∃ a ∈ l, b = f a := by
  obtain ⟨j, hj⟩ := List.mem_iff_getElem?.mp h
  rw [List.getElem?_modify] at hj
  obtain ⟨a, ha, rfl⟩ := Option.map_eq_some_iff.mp hj
  split
  · exact .inr ⟨a, List.mem_of_getElem? ha, rfl⟩
  · exact .inl (List.mem_of_getElem? ha)

theorem Inv.stamp (h : Inv s) {p : Proof} {g began n : Nat} (hg : g ≤ s.generation)
    (hb : g = s.generation → s.since < began) :
    Inv { s with heap := s.heap.modify n (mark · p g began) } where
  generation := h.generation
  since := h.since
  sampled := h.sampled
  begun := h.begun
  stamped c hc := by
    rcases mem_modify hc with hold | ⟨a, -, rfl⟩
    · exact h.stamped c hold
    · exact hg
  vouched c hc heq := by
    rcases mem_modify hc with hold | ⟨a, -, rfl⟩
    · exact h.vouched c hold heq
    · exact ⟨_, List.mem_cons_self, hb heq⟩

theorem Inv.distrust (h : Inv s) (hroom : s.distrusts + 2 < 2 ^ 64) :
    Inv { s with
      generation := (s.generation + 1) % 2 ^ 64, since := s.clock, distrusts := s.distrusts + 1 } := by
  have hgen := h.generation
  have hmod : (s.generation + 1) % 2 ^ 64 = s.generation + 1 := Nat.mod_eq_of_lt (by omega)
  refine ⟨⟨by simp only [hmod]; omega, by simp only [hmod]; omega⟩, le_rfl, fun t ht g hg => ?_,
    fun t ht b hb heq => ?_, fun c hc => ?_, fun c hc heq => ?_⟩
  · have := h.sampled t ht g hg
    simp only [hmod]
    omega
  · have hsample : b.1 ∈ t.2.sample := by
      cases ht2 : t.2 <;> simp [ht2, Stamper.proof, Stamper.sample] at hb ⊢ <;> exact hb ▸ rfl
    have := h.sampled t ht b.1 hsample
    simp only [hmod] at heq
    omega
  · have := h.stamped c hc
    simp only [hmod]
    omega
  · have := h.stamped c hc
    simp only [hmod] at heq
    omega

theorem inv_restarted : Inv s.restarted where
  generation := ⟨le_rfl, Nat.le_add_left 1 s.distrusts⟩
  since := le_rfl
  sampled t ht := by simp [restarted] at ht
  begun t ht := by simp [restarted] at ht
  stamped c hc := by simp [restarted] at hc
  vouched c hc := by simp [restarted] at hc

theorem inv_start {warm : CacheKey → Option CachedObject} : Inv { warm } where
  generation := ⟨le_rfl, le_rfl⟩
  since := le_rfl
  sampled t ht := by simp at ht
  begun t ht := by simp at ht
  stamped c hc := by simp at hc
  vouched c hc := by simp at hc

theorem Inv.act (h : Inv s) (hnow : s.since < s.clock) {e : TrustEvent} (hs : s.act e = some s')
    (hroom : s'.distrusts + 1 < 2 ^ 64) : Inv s' := by
  cases e with
  | fill key write =>
    cases hs
    exact h.begin ⟨fun g hg => (Option.some.inj hg).ge, nofun⟩
  | ask i =>
    simp only [Trust.act] at hs
    split at hs
    · next key p g ht =>
      cases hs
      have hfits := h.fits ht
      exact h.moveTo ⟨hfits.sampled, fun b hb _ => by cases hb; exact hnow⟩
    · cases hs
  | answer i eTag lastModified =>
    simp only [Trust.act] at hs
    split at hs
    · next key p g began ht =>
      cases hs
      have hfits := h.fits ht
      exact (h.alloc _).moveTo ⟨hfits.sampled, hfits.begun⟩
    · cases hs
  | commit i accepted =>
    simp only [Trust.act] at hs
    split at hs
    · next key p g began n ht =>
      have hfits := h.fits ht
      split at hs
      · cases hs
        exact h.moveTo ⟨hfits.sampled, hfits.begun⟩
      · cases hs
        exact h.moveTo fits_done
    · cases hs
  | stamp i =>
    simp only [Trust.act] at hs
    split at hs
    · next key p g began n ht =>
      cases hs
      have hfits := h.fits ht
      refine (h.stamp (hfits.sampled g rfl) (hfits.begun (g, began) rfl)).moveTo ?_
      split
      · exact fits_done
      · exact fits_inserting
    · cases hs
  | insert i kept =>
    simp only [Trust.act] at hs
    split at hs
    · next key n ht =>
      obtain ⟨c, -, rfl⟩ := Option.map_eq_some_iff.mp hs
      exact (h.tiers _ _).moveTo fits_done
    · cases hs
  | lookup key =>
    simp only [Trust.act] at hs
    split at hs
    · cases hs
      exact h.begin fits_holding
    · cases hs
      exact ((h.alloc _).tiers _ _).begin fits_holding
    · cases hs
      exact h
  | sample i =>
    simp only [Trust.act] at hs
    split at hs
    · next key n ht =>
      obtain ⟨c, -, rfl⟩ := Option.map_eq_some_iff.mp hs
      refine h.moveTo ?_
      split
      · exact fits_done
      · exact ⟨fun g hg => (Option.some.inj hg).ge, nofun⟩
    · cases hs
  | compare i =>
    simp only [Trust.act] at hs
    split at hs
    · next key n g ht =>
      cases hs
      have hfits := h.fits ht
      exact h.moveTo ⟨hfits.sampled, fun b hb _ => by cases hb; exact hnow⟩
    · cases hs
  | judge i proved dropped =>
    simp only [Trust.act] at hs
    split at hs
    · next key n g began ht =>
      have hfits := h.fits ht
      split at hs
      · cases hs
        exact h.moveTo ⟨hfits.sampled, hfits.begun⟩
      · cases hs
        exact (h.tiers _ _).moveTo fits_done
    · cases hs
  | leave i =>
    obtain ⟨t, -, rfl⟩ := Option.map_eq_some_iff.mp hs
    exact h.moveTo fits_done
  | distrust =>
    cases hs
    exact h.distrust hroom
  | invalidate key dropped =>
    cases hs
    exact h.tiers _ _
  | evictHot key =>
    cases hs
    exact h.tiers _ _
  | evictWarm key =>
    cases hs
    exact h.tiers _ _
  | flush =>
    cases hs
    exact h.tiers _ _
  | restart =>
    cases hs
    exact inv_restarted

theorem distrusts_step {e : TrustEvent} (h : s.step e = some s') :
    s'.distrusts = s.distrusts + [e].count .distrust := by
  cases e with
  | fill | distrust | invalidate | evictHot | evictWarm | flush | restart => cases h; rfl
  | leave i =>
    obtain ⟨t, -, rfl⟩ := Option.map_eq_some_iff.mp h
    rfl
  | ask | answer =>
    simp only [step, act] at h
    split at h <;> cases h
    rfl
  | compare =>
    simp only [step, act] at h
    split at h <;> cases h
    rfl
  | commit | judge =>
    simp only [step, act] at h
    split at h
    · split at h <;> cases h <;> rfl
    · cases h
  | stamp =>
    simp only [step, act] at h
    split at h <;> cases h
    rfl
  | insert | sample =>
    simp only [step, act] at h
    split at h
    · obtain ⟨c, -, rfl⟩ := Option.map_eq_some_iff.mp h
      rfl
    · cases h
  | lookup =>
    simp only [step, act] at h
    split at h <;> cases h <;> rfl

theorem distrusts_run {events : List TrustEvent} (h : Machine.run step s events = some s') :
    s'.distrusts = s.distrusts + events.count .distrust := by
  induction events generalizing s with
  | nil =>
    cases h
    rfl
  | cons e events ih =>
    obtain ⟨t, ht, h⟩ := Option.bind_eq_some_iff.mp h
    rw [ih h, distrusts_step ht, Nat.add_assoc, ← List.count_append]
    rfl

theorem Inv.step (h : Inv s) {e : TrustEvent} (hs : s.step e = some s')
    (hroom : s'.distrusts + 1 < 2 ^ 64) : Inv s' := by
  have htick : Inv { s with clock := s.clock + 1 } :=
    ⟨h.generation, h.since.trans (Nat.le_succ _), h.sampled, h.begun, h.stamped, h.vouched⟩
  exact htick.act (Nat.lt_succ_of_le h.since) hs hroom

/-- Trust stamps never outlive a distrust.  Whatever fills and revalidations run at once, on
whatever keys, with distrusts, evictions and restarts between any two of their steps: a copy that
is trusted under the current generation was proved by an origin fetch, an origin write or an index
comparison that began after the generation took its value.  A copy that came off the warm tier
starts without any such proof. -/
theorem trusted_since_distrust {warm : CacheKey → Option CachedObject} {events : List TrustEvent}
    (h : Machine.run step { warm } events = some s)
    (hcalls : events.count .distrust + 1 < 2 ^ 64) :
    ∀ c ∈ s.heap, c.obj.trusted s.generation = true →
      ∃ p began, (p, began) ∈ c.proofs ∧ s.since < began := by
  have hinv : s.distrusts + 1 < 2 ^ 64 → Inv s :=
    Machine.run_keeps (P := fun t => t.distrusts + 1 < 2 ^ 64 → Inv t) h
      (fun t e u ht hs hroom => by
        have := distrusts_step hs
        exact (ht (by omega)).step hs hroom)
      fun _ => inv_start
  have hcount : s.distrusts = 0 + events.count .distrust := distrusts_run h
  intro c hc htrusted
  have heq : c.obj.trustedGen = s.generation := by simpa [CachedObject.trusted] using htrusted
  obtain ⟨⟨p, began⟩, hp, hlt⟩ := (hinv (by omega)).vouched c hc heq
  exact ⟨p, began, hp, hlt⟩

def sampleTrust : List TrustEvent :=
  [.fill ("b", "k") true, .ask 0, .answer 0 (some (.strong "e")) none, .distrust, .commit 0 true,
   .stamp 0, .insert 0 true, .lookup ("b", "k"), .sample 1, .compare 1, .judge 1 true true, .stamp 1]

theorem trusted_since_distrust_sample :
    ∃ s, Machine.run step { warm := fun _ => none } sampleTrust = some s ∧
      ∃ c ∈ s.heap, c.obj.trusted s.generation = true ∧
        ∃ p began, (p, began) ∈ c.proofs ∧ s.since < began := by
  have hrun : ∃ s, Machine.run step { warm := fun _ => none } sampleTrust = some s ∧
      ∃ c ∈ s.heap, c.obj.trusted s.generation = true := ⟨_, rfl, _, List.mem_singleton_self _, rfl⟩
  obtain ⟨s, hs, c, hc, htrusted⟩ := hrun
  exact ⟨s, hs, c, hc, htrusted, trusted_since_distrust hs (by decide) c hc htrusted⟩

theorem run_distrusts (n : Nat) (hs : s.generation < 2 ^ 64) :
    ∃ t, Machine.run step s (List.replicate n .distrust) = some t ∧ t.heap = s.heap ∧
      t.generation = (s.generation + n) % 2 ^ 64 := by
  induction n generalizing s with
  | zero => exact ⟨s, rfl, rfl, (Nat.mod_eq_of_lt hs).symm⟩
  | succ n ih =>
    obtain ⟨t, hrun, hheap, hgen⟩ := @ih { s with
      clock := s.clock + 1, generation := (s.generation + 1) % 2 ^ 64, since := s.clock + 1
      distrusts := s.distrusts + 1 } (Nat.mod_lt _ (by decide))
    refine ⟨t, hrun, hheap, ?_⟩
    rw [hgen, Nat.mod_add_mod, Nat.add_assoc, Nat.add_comm 1]

/-- One distrust call fewer than the counter has values: the generation is zero, and so is the
stamp of a copy just decoded. -/
theorem wrapped_generation_trusts :
    ∃ events s, Machine.run step { warm := fun _ => some ⟨none, none, 0⟩ } events = some s ∧
      events.count .distrust < 2 ^ 64 ∧
      ∃ c ∈ s.heap, c.obj.trusted s.generation = true ∧ c.proofs = [] := by
  obtain ⟨t, ht, hheap, hgen⟩ : ∃ t, step { warm := fun _ => some ⟨none, none, 0⟩ }
      (.lookup ("b", "k")) = some t ∧ t.heap = [⟨⟨none, none, 0⟩, []⟩] ∧ t.generation = 1 :=
    ⟨_, rfl, rfl, rfl⟩
  obtain ⟨s, hrun, hkept, hwrapped⟩ := @run_distrusts t (2 ^ 64 - 1) (by rw [hgen]; decide)
  refine ⟨.lookup ("b", "k") :: List.replicate (2 ^ 64 - 1) .distrust, s, ?_, ?_, ?_⟩
  · exact (Machine.Runs.cons trivial ht (Machine.runs_of_run hrun)).run
  · rw [List.count_cons_of_ne (by decide), List.count_replicate_self]
    omega
  · refine ⟨⟨⟨none, none, 0⟩, []⟩, by rw [hkept, hheap]; exact List.mem_singleton_self _, ?_, rfl⟩
    rw [hwrapped, hgen]
    rfl

end Trust

end S3Cache.Tier

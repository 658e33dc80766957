import S3Cache.Lib.LockOrder
import S3Cache.Lib.Machine
import Mathlib.Data.List.Pairwise
import Mathlib.Logic.Function.Basic

/-! The fences of one key's fills and observations (`tier.rs`).  Each registers a flag and a
commit lock before its request leaves; `fence_key` marks every flag registered and then takes the
locks in the order of registration.  Fills and calls are any number, and each may be cancelled. -/

namespace S3Cache.Tier

inductive FillPhase where
  | idle
  | registered
  | answered (at_ : Nat)
  | locked (at_ : Nat)
  | passed (at_ : Nat)
  | folded (at_ : Nat)
  | refused
  | committed
  | released
  | done
  deriving DecidableEq

namespace FillPhase

def active : FillPhase → Bool
  | idle | done => false
  | _ => true

def holds : FillPhase → Bool
  | locked _ | passed _ | folded _ | refused | committed => true
  | _ => false

def landing : FillPhase → Bool
  | passed _ | folded _ => true
  | _ => false

def answer : FillPhase → Option Nat
  | answered v | locked v | passed v | folded v => some v
  | _ => none

theorem holds_of_landing : {p : FillPhase} → p.landing = true → p.holds = true
  | passed _, _ | folded _, _ => rfl

theorem active_of_answer : {p : FillPhase} → {a : Nat} → a ∈ p.answer → p.active = true
  | answered _, _, _ | locked _, _, _ | passed _, _, _ | folded _, _, _ => rfl

end FillPhase

inductive CallPhase (φ : Type) where
  | idle
  | marking (seen : Nat) (marked todo : List φ)
  | locking (seen : Nat) (held todo : List φ)
  | returned (seen : Nat) (held : List φ)
  | dropped (seen : Nat) (snapshot : List φ)
  | cancelled
  deriving DecidableEq

namespace CallPhase

variable {φ : Type}

def seen : CallPhase φ → Option Nat
  | marking v _ _ | locking v _ _ | returned v _ | dropped v _ => some v
  | idle | cancelled => none

def snapshot : CallPhase φ → List φ
  | marking _ done todo | locking _ done todo => done ++ todo
  | returned _ all | dropped _ all => all
  | idle | cancelled => []

def marked : CallPhase φ → List φ
  | marking _ done _ => done
  | p => p.snapshot

def taken : CallPhase φ → List φ
  | locking _ held _ => held
  | returned _ all | dropped _ all => all
  | _ => []

def held : CallPhase φ → List φ
  | locking _ held _ => held
  | returned _ all => all
  | _ => []

def hasReturned : CallPhase φ → Bool
  | returned _ _ | dropped _ _ => true
  | _ => false

theorem marked_of_taken {p : CallPhase φ} {f : φ} (h : f ∈ p.taken) : f ∈ p.marked := by
  cases p with
  | locking => exact List.mem_append_left _ h
  | returned => exact h
  | dropped => exact h
  | _ => cases h

theorem taken_of_returned {p : CallPhase φ} {f : φ} (hp : p.hasReturned = true)
    (h : f ∈ p.snapshot) : f ∈ p.taken := by
  cases p with
  | returned => exact h
  | dropped => exact h
  | _ => cases hp

theorem seen_of_returned : {p : CallPhase φ} → p.hasReturned = true → ∃ v, v ∈ p.seen
  | returned v _, _ | dropped v _, _ => ⟨v, rfl⟩

end CallPhase

inductive Party (φ κ : Type) where
  | fill (f : φ)
  | call (k : κ)
  deriving DecidableEq

structure Fences (φ κ : Type) where
  registry : List φ := []
  order : φ → Nat := fun _ => 0
  next : Nat := 0
  stale : φ → Bool := fun _ => false
  lock : φ → Option (Party φ κ) := fun _ => none
  fill : φ → FillPhase := fun _ => .idle
  call : κ → CallPhase φ := fun _ => .idle
  version : Nat := 0

inductive FenceStep (φ κ : Type) where
  | register (f : φ)
  | answer (f : φ)
  | lock (f : φ)
  | test (f : φ) (canCommit : Bool)
  | fold (f : φ)
  | insert (f : φ)
  | release (f : φ)
  | cancel (f : φ)
  | deregister (f : φ)
  | write
  | snapshot (k : κ)
  | mark (k : κ)
  | take (k : κ)
  | drop (k : κ)
  | abandon (k : κ)

namespace Fences

variable {φ κ : Type} [DecidableEq φ]

def setFill (s : Fences φ κ) (f : φ) (p : FillPhase) : Fences φ κ :=
  { s with fill := Function.update s.fill f p }

def setLock (s : Fences φ κ) (f : φ) (p : Option (Party φ κ)) : Fences φ κ :=
  { s with lock := Function.update s.lock f p }

def setCall [DecidableEq κ] (s : Fences φ κ) (k : κ) (p : CallPhase φ) : Fences φ κ :=
  { s with call := Function.update s.call k p }

def releaseFill (s : Fences φ κ) (f : φ) : Fences φ κ :=
  if (s.fill f).holds then s.setLock f none else s

def releaseCall [DecidableEq κ] (s : Fences φ κ) (k : κ) : Fences φ κ :=
  { s with lock := fun f => if s.lock f = some (.call k) then none else s.lock f }

def step [DecidableEq κ] (s : Fences φ κ) : FenceStep φ κ → Option (Fences φ κ)
  | .register f =>
    match s.fill f with
    | .idle =>
      some ({ s with
        registry := s.registry ++ [f], order := Function.update s.order f s.next
        next := s.next + 1 }.setFill f .registered)
    | _ => none
  | .answer f =>
    match s.fill f with
    | .registered => some (s.setFill f (.answered s.version))
    | _ => none
  | .lock f =>
    match s.fill f, s.lock f with
    | .answered v, none => some ((s.setLock f (some (.fill f))).setFill f (.locked v))
    | _, _ => none
  | .test f canCommit =>
    match s.fill f with
    | .locked v => some (s.setFill f (if !s.stale f && canCommit then .passed v else .refused))
    | _ => none
  | .fold f =>
    match s.fill f with
    | .passed v => some (s.setFill f (.folded v))
    | _ => none
  | .insert f =>
    match s.fill f with
    | .folded _ => some (s.setFill f .committed)
    | _ => none
  -- an observation has only the fold, a fill also inserts the body
  | .release f =>
    match s.fill f with
    | .refused | .folded _ | .committed => some ((s.setLock f none).setFill f .released)
    | _ => none
  | .cancel f =>
    if (s.fill f).active then some ((s.releaseFill f).setFill f .released) else none
  | .deregister f =>
    match s.fill f with
    | .released => some ({ s with registry := s.registry.filter (· ≠ f) }.setFill f .done)
    | _ => none
  | .write => some { s with version := s.version + 1 }
  | .snapshot k =>
    match s.call k with
    | .idle => some (s.setCall k (.marking s.version [] s.registry))
    | _ => none
  | .mark k =>
    match s.call k with
    | .marking v done (f :: todo) =>
      some ({ s with stale := Function.update s.stale f true }.setCall k
        (.marking v (done ++ [f]) todo))
    | .marking v done [] => some (s.setCall k (.locking v [] done))
    | _ => none
  | .take k =>
    match s.call k with
    | .locking v held (f :: todo) =>
      match s.lock f with
      | none => some ((s.setLock f (some (.call k))).setCall k (.locking v (held ++ [f]) todo))
      | some _ => none
    | .locking v held [] => some (s.setCall k (.returned v held))
    | _ => none
  | .drop k =>
    match s.call k with
    | .returned v held => some ((s.releaseCall k).setCall k (.dropped v held))
    | _ => none
  | .abandon k =>
    match s.call k with
    | .marking _ _ _ | .locking _ _ _ => some ((s.releaseCall k).setCall k .cancelled)
    | _ => none

def wants (s : Fences φ κ) : Party φ κ → Option φ
  | .fill f =>
    match s.fill f with
    | .answered _ => some f
    | _ => none
  | .call k =>
    match s.call k with
    | .locking _ _ (f :: _) => some f
    | _ => none

section

variable {s t : Fences φ κ} {f : φ} {k : κ}

structure Snapped (s : Fences φ κ) (v : Nat) (snapshot : List φ) : Prop where
  seen : v ≤ s.version
  sorted : snapshot.Pairwise (s.order · < s.order ·)
  known : ∀ f ∈ snapshot, s.fill f ≠ .idle
  later : ∀ f, f ∉ snapshot → ∀ a ∈ (s.fill f).answer, v ≤ a

structure Inv (s : Fences φ κ) : Prop where
  registered : ∀ f, (s.fill f).active = true → f ∈ s.registry
  known : ∀ f ∈ s.registry, s.fill f ≠ .idle
  sorted : s.registry.Pairwise (s.order · < s.order ·)
  bounded : ∀ f, s.fill f ≠ .idle → s.order f < s.next
  answered : ∀ f, ∀ a ∈ (s.fill f).answer, a ≤ s.version
  own : ∀ f, (s.fill f).holds = true ↔ s.lock f = some (.fill f)
  foreign : ∀ f g, s.lock f = some (.fill g) → g = f
  held : ∀ f k, s.lock f = some (.call k) → f ∈ (s.call k).held
  snapped : ∀ k, ∀ v ∈ (s.call k).seen, s.Snapped v (s.call k).snapshot
  marked : ∀ k, ∀ f ∈ (s.call k).marked, s.stale f = true
  barred : ∀ k, ∀ f ∈ (s.call k).taken, (s.fill f).landing = false

omit [DecidableEq φ] in
theorem inv_init : Inv ({} : Fences φ κ) where
  registered _ h := nomatch h
  known _ h := nomatch h
  sorted := .nil
  bounded _ h := absurd rfl h
  answered _ _ h := nomatch h
  own _ := by simp [FillPhase.holds]
  foreign _ _ h := nomatch h
  held _ _ h := nomatch h
  snapped _ _ h := nomatch h
  marked _ _ h := nomatch h
  barred _ _ h := nomatch h

theorem Snapped.setFill {v : Nat} {snapshot : List φ} (h : s.Snapped v snapshot) {p : FillPhase}
    {l : Option (Party φ κ)} (hp : p ≠ .idle)
    (ha : ∀ a ∈ p.answer, a ∈ (s.fill f).answer ∨ a = s.version) :
    ((s.setLock f l).setFill f p).Snapped v snapshot where
  seen := h.seen
  sorted := h.sorted
  known := (Function.forall_update_iff s.fill (p := fun g q => g ∈ snapshot → q ≠ .idle)).mpr
    ⟨fun _ => hp, fun g _ => h.known g⟩
  later := (Function.forall_update_iff s.fill
      (p := fun g q => g ∉ snapshot → ∀ a ∈ q.answer, v ≤ a)).mpr <| by
    refine ⟨?_, fun g _ => h.later g⟩
    intro hf a hmem
    rcases ha a hmem with hmem | rfl
    · exact h.later f hf a hmem
    · exact h.seen

theorem Inv.moveFill (h : Inv s) {p : FillPhase} {l : Option (Party φ κ)} (hp : p ≠ .idle)
    (hidle : s.fill f ≠ .idle) (hact : p.active = true → (s.fill f).active = true)
    (hown : p.holds = true ↔ l = some (.fill f)) (hfill : ∀ g, l = some (.fill g) → g = f)
    (hcall : ∀ k, l = some (.call k) → s.lock f = some (.call k))
    (hland : p.landing = true → (s.fill f).landing = true ∨ s.stale f = false)
    (ha : ∀ a ∈ p.answer, a ∈ (s.fill f).answer ∨ a = s.version) :
    Inv ((s.setLock f l).setFill f p) where
  registered := (Function.forall_update_iff s.fill
      (p := fun g q => q.active = true → g ∈ s.registry)).mpr
    ⟨fun hp => h.registered f (hact hp), fun g _ => h.registered g⟩
  known := (Function.forall_update_iff s.fill (p := fun g q => g ∈ s.registry → q ≠ .idle)).mpr
    ⟨fun _ => hp, fun g _ => h.known g⟩
  sorted := h.sorted
  bounded := (Function.forall_update_iff s.fill
      (p := fun g q => q ≠ .idle → s.order g < s.next)).mpr
    ⟨fun _ => h.bounded f hidle, fun g _ => h.bounded g⟩
  answered := (Function.forall_update_iff s.fill
      (p := fun _ q => ∀ a ∈ q.answer, a ≤ s.version)).mpr <| by
    refine ⟨?_, fun g _ => h.answered g⟩
    intro a hmem
    rcases ha a hmem with hmem | rfl
    · exact h.answered f a hmem
    · exact le_rfl
  own g := by
    show (Function.update s.fill f p g).holds = true ↔
      Function.update s.lock f l g = some (.fill g)
    rcases eq_or_ne g f with rfl | hne
    · rwa [Function.update_self, Function.update_self]
    · rw [Function.update_of_ne hne, Function.update_of_ne hne]
      exact h.own g
  foreign := (Function.forall_update_iff s.lock
      (p := fun g o => ∀ g', o = some (.fill g') → g' = g)).mpr ⟨hfill, fun g _ => h.foreign g⟩
  held := (Function.forall_update_iff s.lock
      (p := fun g o => ∀ k, o = some (.call k) → g ∈ (s.call k).held)).mpr
    ⟨fun k hk => h.held f k (hcall k hk), fun g _ => h.held g⟩
  snapped k v hv := (h.snapped k v hv).setFill hp ha
  marked := h.marked
  barred k := (Function.forall_update_iff s.fill
      (p := fun g q => g ∈ (s.call k).taken → q.landing = false)).mpr <| by
    refine ⟨?_, fun g _ => h.barred k g⟩
    intro hf
    -- its lock has been taken from it, so its flag is set and it was not landing before
    rw [Bool.eq_false_iff]
    intro hpl
    rcases hland hpl with hl | hst
    · exact Bool.false_ne_true ((h.barred k f hf).symm.trans hl)
    · exact Bool.false_ne_true (hst.symm.trans (h.marked k f (CallPhase.marked_of_taken hf)))

theorem setLock_self : s.setLock f (s.lock f) = s := by
  simp only [setLock, Function.update_eq_self]

theorem Inv.moveFill_same (h : Inv s) {p : FillPhase} (hp : p ≠ .idle) (hidle : s.fill f ≠ .idle)
    (hact : p.active = true → (s.fill f).active = true) (hholds : p.holds = (s.fill f).holds)
    (hland : p.landing = true → (s.fill f).landing = true ∨ s.stale f = false)
    (ha : ∀ a ∈ p.answer, a ∈ (s.fill f).answer ∨ a = s.version) : Inv (s.setFill f p) := by
  have hmove := h.moveFill (l := s.lock f) hp hidle hact (hholds ▸ h.own f) (h.foreign f)
    (fun _ hk => hk) hland ha
  rwa [setLock_self] at hmove

theorem Inv.endFill (h : Inv s) (hact : (s.fill f).active = true) :
    Inv ((s.releaseFill f).setFill f .released) := by
  have hidle : s.fill f ≠ .idle := by
    intro he
    rw [he] at hact
    cases hact
  rw [releaseFill]
  split
  · exact h.moveFill nofun hidle (fun _ => hact) (by simp [FillPhase.holds]) nofun nofun nofun
      nofun
  · next hno =>
    exact h.moveFill_same nofun hidle (fun _ => hact) (Bool.eq_false_iff.mpr hno).symm nofun nofun

theorem Inv.register (h : Inv s) (hf : s.fill f = .idle) :
    Inv ({ s with
      registry := s.registry ++ [f], order := Function.update s.order f s.next
      next := s.next + 1 }.setFill f .registered) := by
  have hold : ∀ g, s.fill g ≠ .idle → g ≠ f := by
    rintro g hg rfl
    exact hg hf
  have hsorted : ∀ l : List φ, (∀ g ∈ l, s.fill g ≠ .idle) → l.Pairwise (s.order · < s.order ·) →
      l.Pairwise (Function.update s.order f s.next · < Function.update s.order f s.next ·) := by
    intro l hl hp
    refine hp.imp_of_mem ?_
    intro a b ha hb hab
    rwa [Function.update_of_ne (hold a (hl a ha)), Function.update_of_ne (hold b (hl b hb))]
  have hlock : s.lock f ≠ some (.fill f) := by
    intro hl
    have hh := (h.own f).mpr hl
    rw [hf] at hh
    cases hh
  exact {
    registered := (Function.forall_update_iff s.fill
        (p := fun g q => q.active = true → g ∈ s.registry ++ [f])).mpr
      ⟨fun _ => List.mem_append_right _ (List.mem_singleton_self f),
        fun g _ hg => List.mem_append_left _ (h.registered g hg)⟩
    known := (Function.forall_update_iff s.fill
        (p := fun g q => g ∈ s.registry ++ [f] → q ≠ .idle)).mpr <| by
      refine ⟨nofun, ?_⟩
      intro g hne hg
      rcases List.mem_append.mp hg with hg | hg
      · exact h.known g hg
      · exact absurd (List.mem_singleton.mp hg) hne
    sorted := by
      refine List.pairwise_append.mpr ⟨hsorted _ h.known h.sorted, List.pairwise_singleton _ _, ?_⟩
      intro a ha b hb
      obtain rfl := List.mem_singleton.mp hb
      show Function.update s.order b s.next a < Function.update s.order b s.next b
      rw [Function.update_self, Function.update_of_ne (hold a (h.known a ha))]
      exact h.bounded a (h.known a ha)
    bounded g := by
      show Function.update s.fill f .registered g ≠ .idle →
        Function.update s.order f s.next g < s.next + 1
      rcases eq_or_ne g f with rfl | hne
      · rw [Function.update_self, Function.update_self]
        exact fun _ => Nat.lt_succ_self _
      · rw [Function.update_of_ne hne, Function.update_of_ne hne]
        exact fun hg => Nat.lt_succ_of_lt (h.bounded g hg)
    answered := (Function.forall_update_iff s.fill
        (p := fun _ q => ∀ a ∈ q.answer, a ≤ s.version)).mpr ⟨nofun, fun g _ => h.answered g⟩
    own := (Function.forall_update_iff s.fill
        (p := fun g q => q.holds = true ↔ s.lock g = some (.fill g))).mpr
      ⟨iff_of_false Bool.false_ne_true hlock, fun g _ => h.own g⟩
    foreign := h.foreign
    held := h.held
    snapped k v hv := by
      have hsn := h.snapped k v hv
      have hmove := hsn.setFill (f := f) (p := .registered) (l := s.lock f) nofun nofun
      rw [setLock_self] at hmove
      exact { hmove with sorted := hsorted _ hsn.known hsn.sorted }
    marked := h.marked
    barred k := (Function.forall_update_iff s.fill
        (p := fun g q => g ∈ (s.call k).taken → q.landing = false)).mpr
      ⟨fun _ => rfl, fun g _ => h.barred k g⟩ }

theorem Inv.deregister (h : Inv s) (hf : s.fill f = .released) :
    Inv ({ s with registry := s.registry.filter (· ≠ f) }.setFill f .done) := by
  have hdone : Inv (s.setFill f .done) :=
    h.moveFill_same nofun (by simp [hf]) nofun (by simp [hf, FillPhase.holds]) nofun nofun
  exact { hdone with
    registered := (Function.forall_update_iff s.fill
        (p := fun g q => q.active = true → g ∈ s.registry.filter (· ≠ f))).mpr
      ⟨nofun, fun g hne hg => List.mem_filter.mpr ⟨h.registered g hg, decide_eq_true hne⟩⟩
    known g hg := hdone.known g (List.mem_of_mem_filter hg)
    sorted := hdone.sorted.filter _
    snapped k v hv := { hdone.snapped k v hv with } }

omit [DecidableEq φ] in
theorem Inv.write (h : Inv s) : Inv { s with version := s.version + 1 } :=
  { h with
    answered := fun f a ha => Nat.le_succ_of_le (h.answered f a ha)
    snapped := fun k v hv =>
      { h.snapped k v hv with seen := Nat.le_succ_of_le (h.snapped k v hv).seen } }

omit [DecidableEq φ] in
theorem Inv.moveCall [DecidableEq κ] (h : Inv s) {p : CallPhase φ} {stale : φ → Bool}
    {lock : φ → Option (Party φ κ)} (hstale : ∀ f, s.stale f = true → stale f = true)
    (hfills : ∀ f g, lock f = some (.fill g) ↔ s.lock f = some (.fill g))
    (hothers : ∀ f k', k' ≠ k → lock f = some (.call k') → s.lock f = some (.call k'))
    (hheld : ∀ f, lock f = some (.call k) → f ∈ p.held)
    (hsnap : ∀ v ∈ p.seen, s.Snapped v p.snapshot) (hmark : ∀ f ∈ p.marked, stale f = true)
    (hbar : ∀ f ∈ p.taken, (s.fill f).landing = false) :
    Inv ({ s with stale := stale, lock := lock }.setCall k p) where
  registered := h.registered
  known := h.known
  sorted := h.sorted
  bounded := h.bounded
  answered := h.answered
  own f := (h.own f).trans (hfills f f).symm
  foreign f g hg := h.foreign f g ((hfills f g).mp hg)
  held f := (Function.forall_update_iff s.call
      (p := fun k' q => lock f = some (.call k') → f ∈ q.held)).mpr
    ⟨hheld f, fun k' hne hk => h.held f k' (hothers f k' hne hk)⟩
  snapped := (Function.forall_update_iff s.call
      (p := fun _ q => ∀ v ∈ q.seen, Snapped _ v q.snapshot)).mpr
    ⟨fun v hv => { hsnap v hv with }, fun k' _ v hv => { h.snapped k' v hv with }⟩
  marked := (Function.forall_update_iff s.call
      (p := fun _ q => ∀ f ∈ q.marked, stale f = true)).mpr
    ⟨hmark, fun k' _ f hf => hstale f (h.marked k' f hf)⟩
  barred := (Function.forall_update_iff s.call
      (p := fun _ q => ∀ f ∈ q.taken, (s.fill f).landing = false)).mpr
    ⟨hbar, fun k' _ => h.barred k'⟩

variable [DecidableEq κ]

omit [DecidableEq φ] in
theorem Inv.moveCall_same (h : Inv s) {p : CallPhase φ} {stale : φ → Bool}
    (hstale : ∀ f, s.stale f = true → stale f = true) (hheld : ∀ f ∈ (s.call k).held, f ∈ p.held)
    (hsnap : ∀ v ∈ p.seen, s.Snapped v p.snapshot) (hmark : ∀ f ∈ p.marked, stale f = true)
    (hbar : ∀ f ∈ p.taken, (s.fill f).landing = false) :
    Inv ({ s with stale := stale }.setCall k p) :=
  h.moveCall hstale (fun _ _ => Iff.rfl) (fun _ _ _ hk => hk) (fun f hk => hheld f (h.held f k hk))
    hsnap hmark hbar

theorem Inv.endCall (h : Inv s) {p : CallPhase φ} (hsnap : ∀ v ∈ p.seen, s.Snapped v p.snapshot)
    (hmark : ∀ f ∈ p.marked, s.stale f = true) (hbar : ∀ f ∈ p.taken, (s.fill f).landing = false) :
    Inv ((s.releaseCall k).setCall k p) := by
  refine h.moveCall (fun _ hf => hf) ?_ ?_ ?_ hsnap hmark hbar
  · intro f g
    split
    · next he => simp [he]
    · exact Iff.rfl
  · intro f k' hne
    split
    · nofun
    · exact fun hk => hk
  · intro f
    split
    · nofun
    · next hno => exact fun hk => absurd hk hno

omit [DecidableEq φ] in
theorem Inv.snapshot (h : Inv s) (hk : s.call k = .idle) :
    Inv (s.setCall k (.marking s.version [] s.registry)) := by
  refine h.moveCall_same (fun _ hf => hf) ?_ ?_ nofun nofun
  · rw [hk]
    nofun
  · rintro v ⟨rfl⟩
    exact
      { seen := le_rfl
        sorted := h.sorted
        known := h.known
        later := fun f hf a ha =>
          absurd (h.registered f (FillPhase.active_of_answer ha)) hf }

theorem Inv.mark (h : Inv s) {v : Nat} {marked todo : List φ}
    (hk : s.call k = .marking v marked (f :: todo)) :
    Inv ({ s with stale := Function.update s.stale f true }.setCall k
      (.marking v (marked ++ [f]) todo)) := by
  have hsnap := h.snapped k v (by rw [hk]; rfl)
  have hmark := h.marked k
  rw [hk] at hsnap hmark
  refine h.moveCall_same ?_ (by rw [hk]; nofun) ?_ ?_ nofun
  · intro g hg
    rw [Function.update_apply]
    split
    · rfl
    · exact hg
  · rintro w ⟨rfl⟩
    rwa [CallPhase.snapshot, List.append_assoc, List.singleton_append]
  · intro g hg
    rw [Function.update_apply]
    split
    · rfl
    · next hne =>
      rcases List.mem_append.mp hg with hg | hg
      · exact hmark g hg
      · exact absurd (List.mem_singleton.mp hg) hne

theorem Inv.take (h : Inv s) {v : Nat} {held todo : List φ}
    (hk : s.call k = .locking v held (f :: todo)) (hfree : s.lock f = none) :
    Inv ((s.setLock f (some (.call k))).setCall k (.locking v (held ++ [f]) todo)) := by
  have hsnap := h.snapped k v (by rw [hk]; rfl)
  have hmark := h.marked k
  have hbar := h.barred k
  have hheld := fun g => h.held g k
  rw [hk] at hsnap hmark hbar hheld
  have hassoc : (held ++ [f]) ++ todo = held ++ f :: todo := by
    rw [List.append_assoc, List.singleton_append]
  refine h.moveCall (fun _ hf => hf) ?_ ?_ ?_ ?_ ?_ ?_
  · exact (Function.forall_update_iff s.lock
      (p := fun g o => ∀ g', o = some (.fill g') ↔ s.lock g = some (.fill g'))).mpr
      ⟨by simp [hfree], fun _ _ _ => Iff.rfl⟩
  · exact (Function.forall_update_iff s.lock
      (p := fun g o => ∀ k', k' ≠ k → o = some (.call k') → s.lock g = some (.call k'))).mpr
      ⟨fun k' hne he => absurd (by simpa using he.symm) hne, fun _ _ _ _ hk => hk⟩
  · exact (Function.forall_update_iff s.lock
      (p := fun g o => o = some (.call k) → g ∈ held ++ [f])).mpr
      ⟨fun _ => List.mem_append_right _ (List.mem_singleton_self f),
        fun g _ hg => List.mem_append_left _ (hheld g hg)⟩
  · rintro w ⟨rfl⟩
    rwa [CallPhase.snapshot, hassoc]
  · intro g hg
    apply hmark g
    show g ∈ held ++ f :: todo
    rw [← hassoc]
    exact hg
  · intro g hg
    rcases List.mem_append.mp hg with hg | hg
    · exact hbar g hg
    · -- nobody has this lock, so its fill is not about to land anything
      obtain rfl := List.mem_singleton.mp hg
      rw [Bool.eq_false_iff]
      intro hl
      have hown := (h.own g).mp (FillPhase.holds_of_landing hl)
      rw [hfree] at hown
      cases hown

theorem Inv.step (h : Inv s) {a : FenceStep φ κ} (hs : s.step a = some t) : Inv t := by
  cases a with
  | register f =>
    simp only [Fences.step] at hs
    split at hs <;> cases hs
    next hf => exact h.register hf
  | answer f =>
    simp only [Fences.step] at hs
    split at hs <;> cases hs
    next hf =>
      refine h.moveFill_same nofun (by simp [hf]) (fun _ => by rw [hf]; rfl) (by rw [hf]; rfl)
        nofun ?_
      rintro a ⟨rfl⟩
      exact .inr rfl
  | lock f =>
    simp only [Fences.step] at hs
    split at hs <;> cases hs
    next v hf hfree =>
      refine h.moveFill nofun (by simp [hf]) (fun _ => by rw [hf]; rfl) ?_ ?_ nofun nofun ?_
      · exact iff_of_true rfl rfl
      · rintro g ⟨rfl⟩
        rfl
      · rw [hf]
        exact fun a ha => .inl ha
  | test f canCommit =>
    simp only [Fences.step] at hs
    split at hs <;> cases hs
    next v hf =>
      split
      · next htest =>
        refine h.moveFill_same nofun (by simp [hf]) (fun _ => by rw [hf]; rfl) (by rw [hf]; rfl)
          (fun _ => .inr ?_) ?_
        · simpa using (Bool.and_eq_true_iff.mp htest).1
        · rw [hf]
          exact fun a ha => .inl ha
      · exact h.moveFill_same nofun (by simp [hf]) (fun _ => by rw [hf]; rfl) (by rw [hf]; rfl)
          nofun nofun
  | fold f =>
    simp only [Fences.step] at hs
    split at hs <;> cases hs
    next v hf =>
      refine h.moveFill_same nofun (by simp [hf]) (fun _ => by rw [hf]; rfl) (by rw [hf]; rfl)
        (fun _ => .inl (by rw [hf]; rfl)) ?_
      rw [hf]
      exact fun a ha => .inl ha
  | insert f =>
    simp only [Fences.step] at hs
    split at hs <;> cases hs
    next v hf =>
      exact h.moveFill_same nofun (by simp [hf]) (fun _ => by rw [hf]; rfl) (by rw [hf]; rfl)
        nofun nofun
  | release f =>
    simp only [Fences.step] at hs
    split at hs <;> cases hs
    all_goals
      next hf =>
      exact h.moveFill nofun (by simp [hf]) (fun _ => by rw [hf]; rfl)
        (by simp [FillPhase.holds]) nofun nofun nofun nofun
  | cancel f =>
    simp only [Fences.step] at hs
    split at hs <;> cases hs
    next hact => exact h.endFill hact
  | deregister f =>
    simp only [Fences.step] at hs
    split at hs <;> cases hs
    next hf => exact h.deregister hf
  | write =>
    cases hs
    exact h.write
  | snapshot k =>
    simp only [Fences.step] at hs
    split at hs <;> cases hs
    next hk => exact h.snapshot hk
  | mark k =>
    simp only [Fences.step] at hs
    split at hs <;> cases hs
    · next hk => exact h.mark hk
    · next v marked hk =>
      have hsnap := h.snapped k v (by rw [hk]; rfl)
      have hmark := h.marked k
      rw [hk] at hsnap hmark
      refine h.moveCall_same (fun _ hf => hf) (by rw [hk]; nofun) ?_ hmark nofun
      rintro w ⟨rfl⟩
      rwa [CallPhase.snapshot, List.append_nil] at hsnap
  | take k =>
    simp only [Fences.step] at hs
    split at hs
    · next hk =>
      split at hs <;> cases hs
      next hfree => exact h.take hk hfree
    · next v held hk =>
      cases hs
      have hsnap := h.snapped k v (by rw [hk]; rfl)
      have hmark := h.marked k
      have hbar := h.barred k
      rw [hk] at hsnap hmark hbar
      rw [CallPhase.snapshot, List.append_nil] at hsnap
      refine h.moveCall_same (fun _ hf => hf) ?_ ?_ ?_ hbar
      · rw [hk]
        exact fun _ hf => hf
      · rintro w ⟨rfl⟩
        exact hsnap
      · exact fun f hf => hmark f (List.mem_append_left _ hf)
    · cases hs
  | drop k =>
    simp only [Fences.step] at hs
    split at hs <;> cases hs
    next v held hk =>
      have hsnap := h.snapped k
      have hmark := h.marked k
      have hbar := h.barred k
      rw [hk] at hsnap hmark hbar
      exact h.endCall hsnap hmark hbar
  | abandon k =>
    simp only [Fences.step] at hs
    split at hs <;> cases hs
    all_goals exact h.endCall nofun nofun nofun

theorem call_step {a : FenceStep φ κ} (hs : s.step a = some t) :
    t.call = s.call ∨ ∃ k p, t.call = Function.update s.call k p ∧ (s.call k = .idle ∨
      p ≠ .idle ∧ ∀ v ∈ p.seen, v ∈ (s.call k).seen ∧ p.snapshot = (s.call k).snapshot) := by
  cases a with
  | snapshot k =>
    simp only [step] at hs
    split at hs <;> cases hs
    next hk => exact .inr ⟨k, _, rfl, .inl hk⟩
  | mark k =>
    simp only [step] at hs
    split at hs <;> cases hs
    · next hk =>
      refine .inr ⟨k, _, rfl, .inr ⟨nofun, fun v hv => ?_⟩⟩
      rw [hk]
      exact ⟨hv, by simp [CallPhase.snapshot]⟩
    · next hk =>
      refine .inr ⟨k, _, rfl, .inr ⟨nofun, fun v hv => ?_⟩⟩
      rw [hk]
      exact ⟨hv, by simp [CallPhase.snapshot]⟩
  | take k =>
    simp only [step] at hs
    split at hs
    · next hk =>
      split at hs <;> cases hs
      refine .inr ⟨k, _, rfl, .inr ⟨nofun, fun v hv => ?_⟩⟩
      rw [hk]
      exact ⟨hv, by simp [CallPhase.snapshot]⟩
    · next hk =>
      cases hs
      refine .inr ⟨k, _, rfl, .inr ⟨nofun, fun v hv => ?_⟩⟩
      rw [hk]
      exact ⟨hv, by simp [CallPhase.snapshot]⟩
    · cases hs
  | drop k =>
    simp only [step] at hs
    split at hs <;> cases hs
    next hk =>
      refine .inr ⟨k, _, rfl, .inr ⟨nofun, fun v hv => ?_⟩⟩
      rw [hk]
      exact ⟨hv, rfl⟩
  | abandon k =>
    simp only [step] at hs
    split at hs <;> cases hs
    all_goals exact .inr ⟨k, _, rfl, .inr ⟨nofun, nofun⟩⟩
  | cancel f =>
    simp only [step, releaseFill] at hs
    split at hs <;> cases hs
    split <;> exact .inl rfl
  | _ =>
    simp only [step] at hs
    first
    | cases hs; exact .inl rfl
    | split at hs <;> cases hs <;> exact .inl rfl

theorem snapshot_step {a : FenceStep φ κ} {v : Nat} {snapshot : List φ}
    (h : s.call k ≠ .idle ∧ ∀ w ∈ (s.call k).seen, w = v ∧ (s.call k).snapshot = snapshot)
    (hs : s.step a = some t) :
    t.call k ≠ .idle ∧ ∀ w ∈ (t.call k).seen, w = v ∧ (t.call k).snapshot = snapshot := by
  rcases call_step hs with he | ⟨k', p, he, hp⟩
  · rwa [he]
  · rw [he]
    rcases eq_or_ne k k' with rfl | hne
    · rw [Function.update_self]
      rcases hp with hidle | ⟨hp, hsame⟩
      · exact absurd hidle h.1
      · refine ⟨hp, fun w hw => ?_⟩
        rw [(hsame w hw).2]
        exact h.2 w (hsame w hw).1
    · rwa [Function.update_of_ne hne]

omit [DecidableEq φ] [DecidableEq κ] in
theorem Inv.ordered (h : Inv s) : LockOrder.Ordered s.wants s.lock s.order := by
  intro p r r' hw hh
  cases p with
  | fill f =>
    obtain rfl := h.foreign r' f hh
    have hown := (h.own f).mpr hh
    simp only [wants] at hw
    split at hw
    · next hf =>
      rw [hf] at hown
      cases hown
    · cases hw
  | call k =>
    simp only [wants] at hw
    split at hw <;> cases hw
    next v held todo hk =>
      have hmem := h.held r' k hh
      have hsnap := h.snapped k v (by rw [hk]; rfl)
      rw [hk] at hmem hsnap
      exact (List.pairwise_append.mp hsnap.sorted).2.2 r' hmem r List.mem_cons_self

omit [DecidableEq φ] [DecidableEq κ] in
theorem Inv.wants_bounded (h : Inv s) (p : Party φ κ) (r : φ) (hw : s.wants p = some r) :
    s.order r < s.next := by
  apply h.bounded r
  cases p with
  | fill f =>
    simp only [wants] at hw
    split at hw <;> cases hw
    next hf => simp [hf]
  | call k =>
    simp only [wants] at hw
    split at hw <;> cases hw
    next v held todo hk =>
      have hsnap := h.snapped k v (by rw [hk]; rfl)
      rw [hk] at hsnap
      exact hsnap.known r (List.mem_append_right _ List.mem_cons_self)

omit [DecidableEq φ] [DecidableEq κ] in
theorem Inv.lands_later (h : Inv s) (hk : (s.call k).hasReturned = true)
    (hland : (s.fill f).landing = true) : f ∉ (s.call k).snapshot ∧
      ∀ v ∈ (s.call k).seen, ∀ a ∈ (s.fill f).answer, v ≤ a := by
  have hout : f ∉ (s.call k).snapshot := by
    intro hf
    have hbar := h.barred k f (CallPhase.taken_of_returned hk hf)
    exact Bool.false_ne_true (hbar.symm.trans hland)
  exact ⟨hout, fun v hv => (h.snapped k v hv).later f hout⟩

theorem landing_of_commit (hs : s.step (.fold f) = some t ∨ s.step (.insert f) = some t) :
    (s.fill f).landing = true := by
  rcases hs with hs | hs
  all_goals
    simp only [step] at hs
    split at hs <;> cases hs
    next hf => rw [hf]; rfl

theorem fences_exclude {l : List (FenceStep φ κ)} (hrun : Machine.run step {} l = some s) :
    (∀ k s' l' t f u, s.step (.snapshot k) = some s' → Machine.run step s' l' = some t →
      (t.call k).hasReturned = true → t.step (.fold f) = some u ∨ t.step (.insert f) = some u →
      f ∉ s.registry ∧ ∀ a ∈ (t.fill f).answer, s.version ≤ a) ∧
    ∀ S : Set (Party φ κ), S.Nonempty → ¬ LockOrder.Deadlocked s.wants s.lock S := by
  have hinv : Inv s := Machine.run_keeps hrun (fun _ _ _ h hs => h.step hs) inv_init
  constructor
  · intro k s' l' t f u hs hrun' hret hc
    have hinv' : Inv t :=
      Machine.run_keeps hrun' (fun _ _ _ h hs => h.step hs) (hinv.step hs)
    have hsnap := Machine.run_keeps hrun' (fun _ _ _ h hs => snapshot_step h hs)
      (P := fun t => t.call k ≠ .idle ∧
        ∀ w ∈ (t.call k).seen, w = s.version ∧ (t.call k).snapshot = s.registry) ?_
    · obtain ⟨hout, hlater⟩ := hinv'.lands_later hret (landing_of_commit hc)
      obtain ⟨v, hv⟩ := CallPhase.seen_of_returned hret
      obtain ⟨rfl, hreg⟩ := hsnap.2 v hv
      exact ⟨hreg ▸ hout, hlater _ hv⟩
    · simp only [step] at hs
      split at hs <;> cases hs
      simp only [setCall, Function.update_self]
      refine ⟨nofun, ?_⟩
      rintro w ⟨rfl⟩
      exact ⟨rfl, rfl⟩
  · intro S hS
    exact LockOrder.not_deadlocked hinv.ordered hinv.wants_bounded hS

end

def sampleFences : Fences (Fin 2) (Fin 1) :=
  (Machine.run step {} [.register 0, .answer 0, .write]).get (by decide +kernel)

def sampleSnapped : Fences (Fin 2) (Fin 1) :=
  (sampleFences.step (.snapshot 0)).get (by decide +kernel)

def sampleReturned : Fences (Fin 2) (Fin 1) :=
  (Machine.run step sampleSnapped [.register 1, .answer 1, .mark 0, .mark 0, .take 0, .take 0,
    .lock 1, .test 1 true]).get (by decide +kernel)

theorem fences_exclude_sample :
    (sampleReturned.call 0).hasReturned = true ∧ (sampleReturned.fill 1).landing = true ∧
    1 ∉ sampleFences.registry ∧
    (∀ a ∈ (sampleReturned.fill 1).answer, sampleFences.version ≤ a) ∧
    ¬ LockOrder.Deadlocked sampleFences.wants sampleFences.lock Set.univ := by
  have hmain := fences_exclude (s := sampleFences) (Option.some_get _).symm
  obtain ⟨hout, hlater⟩ := hmain.1 0 sampleSnapped _ sampleReturned 1
    ((sampleReturned.step (.fold 1)).get (by decide +kernel)) (Option.some_get _).symm
    (Option.some_get _).symm (by decide +kernel) (.inl (Option.some_get _).symm)
  exact ⟨by decide +kernel, by decide +kernel, hout, hlater, hmain.2 _ ⟨.fill 0, trivial⟩⟩

end Fences

end S3Cache.Tier

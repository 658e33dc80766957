import S3Cache.Tier.Copies
import S3Cache.Tier.Fence

/-! Reading one key through the tiers (`TieredCache::get_or_fetch_with_commit`, `tier.rs`).  A
reader probes, and on a miss queues at the key's gate, probes again behind it and only then asks
the origin.  Any number of readers, observations and mutations take their steps in any order;
readers may be cancelled, a warm hit is promoted a step after it was read, and copies may go at any
time.  A reader whose copy does not prove valid fences the key like a mutation. -/

namespace S3Cache.Tier

/-- One key's gate in a `tierstore::SingleFlight`, which lets a caller in while nobody is behind
it. -/
class SingleFlight (φ : Type) where
  State : Type
  free : State
  holder : State → Option φ
  acquire : State → φ → Option State
  release : State → φ → Option State
  holder_free : holder free = none
  holder_acquire : ∀ {g g' f}, acquire g f = some g' → holder g = none ∧ holder g' = some f
  holder_release : ∀ {g g' f}, release g f = some g' → holder g = some f ∧ holder g' = none

inductive ReadPhase (κ ε : Type) where
  | observation
  | arrived
  | promoting (obj : CachedObject) (behind : Bool)
  | judging (obj : CachedObject) (behind : Bool)
  | refusing (k : κ) (behind : Bool)
  | waiting
  | gated
  | filling (answer : Option CachedObject)
  | unwinding (result : Option (Except ε CachedObject))
  | leaving (result : Option (Except ε CachedObject))
  | returned (result : Option (Except ε CachedObject))

namespace ReadPhase

variable {κ ε : Type}

def holdsGate : ReadPhase κ ε → Bool
  | promoting _ behind | judging _ behind | refusing _ behind => behind
  | gated | filling _ | unwinding _ | leaving _ => true
  | observation | arrived | waiting | returned _ => false

def outside : ReadPhase κ ε → Bool
  | arrived | promoting _ _ | judging _ _ | refusing _ _ | waiting | gated => true
  | _ => false

def isFilling : ReadPhase κ ε → Bool
  | filling _ => true
  | _ => false

end ReadPhase

def FillPhase.pending : FillPhase → Bool
  | registered | answered _ | locked _ | passed _ | folded _ => true
  | _ => false

structure Fills (φ κ ε : Type) [SingleFlight φ] where
  fences : Fences φ κ := {}
  copies : Copies := {}
  gate : SingleFlight.State φ := SingleFlight.free
  reader : φ → ReadPhase κ ε
  readers : κ → Bool := fun _ => false
  asked : Nat := 0
  lost : Nat := 0

inductive FillEvent (φ κ ε : Type) where
  | look (f : φ) (failed : Bool)
  | promote (f : φ)
  | judge (f : φ) (verdict : Option CachedObject)
  | refuse (f : φ) (k : κ)
  | discard (f : φ) (dropped : Bool)
  | acquire (f : φ)
  | answer (f : φ) (result : Except ε CachedObject)
  | lock (f : φ)
  | test (f : φ) (canCommit : Bool)
  | fold (f : φ)
  | insert (f : φ) (kept : Bool)
  | release (f : φ)
  | leave (f : φ)
  | ungate (f : φ)
  | cancel (f : φ)
  | fence (e : FenceStep φ κ)
  | invalidate (k : κ) (dropped : Bool)
  | invalidateHot (k : κ)
  | store (obj : CachedObject) (kept : Bool)
  | evictHot
  | evictWarm
  | flush (dropped : Bool)

def FenceStep.target {φ κ : Type} : FenceStep φ κ → Option φ
  | register f | answer f | lock f | test f _ | fold f | insert f | release f | cancel f
  | deregister f => some f
  | write | snapshot _ | mark _ | take _ | drop _ | abandon _ => none

def FenceStep.ends {φ κ : Type} : FenceStep φ κ → Option κ
  | drop k | abandon k => some k
  | _ => none

namespace Fills

variable {φ κ ε : Type} [DecidableEq φ] [SingleFlight φ]

def moveTo (s : Fills φ κ ε) (f : φ) (p : ReadPhase κ ε) : Fills φ κ ε :=
  { s with reader := Function.update s.reader f p }

def lose (s : Fills φ κ ε) : Fills φ κ ε := { s with lost := s.lost + 1 }

section
variable [DecidableEq κ]

def fenced (s : Fills φ κ ε) (e : FenceStep φ κ) (f : φ) (p : ReadPhase κ ε) :
    Option (Fills φ κ ε) :=
  (s.fences.step e).map fun fences => { s with fences }.moveTo f p

def fetch (s : Fills φ κ ε) (f : φ) : Option (Fills φ κ ε) :=
  { s with asked := s.asked + 1 }.fenced (.register f) f (.filling none)

def miss (s : Fills φ κ ε) (f : φ) (behind : Bool) : Option (Fills φ κ ε) :=
  if behind then s.fetch f else some (s.moveTo f .waiting)

def probe (s : Fills φ κ ε) (f : φ) (behind failed : Bool) : Option (Fills φ κ ε) :=
  match s.copies.hot, s.copies.warm with
  | some obj, _ => some (s.moveTo f (.judging obj behind))
  | none, some obj =>
    if failed then s.lose.miss f behind else some (s.moveTo f (.promoting obj behind))
  | none, none => s.miss f behind

def endCall (s : Fills φ κ ε) (k : κ) : Option (Fills φ κ ε) :=
  match s.fences.call k with
  | .returned _ _ => (s.fences.step (.drop k)).map fun fences => { s with fences }
  | _ => (s.fences.step (.abandon k)).map fun fences => { s with fences }

def step (s : Fills φ κ ε) : FillEvent φ κ ε → Option (Fills φ κ ε)
  | .look f failed =>
    match s.reader f with
    | .arrived => s.probe f false failed
    | .gated => s.probe f true failed
    | _ => none
  | .promote f =>
    match s.reader f with
    | .promoting obj behind =>
      some ({ s with copies := { s.copies with hot := some obj } }.moveTo f (.judging obj behind))
    | _ => none
  | .judge f verdict =>
    match s.reader f, verdict with
    | .judging _ true, some valid => some (s.moveTo f (.leaving (some (.ok valid))))
    | .judging _ false, some valid => some (s.moveTo f (.returned (some (.ok valid))))
    -- the copy is gone by the time it is looked up again
    | .judging _ behind, none => s.lose.miss f behind
    | _, _ => none
  | .refuse f k =>
    match s.reader f with
    | .judging _ behind =>
      { s with readers := Function.update s.readers k true }.fenced (.snapshot k) f
        (.refusing k behind)
    | _ => none
  | .discard f dropped =>
    match s.reader f with
    | .refusing k behind =>
      match s.fences.call k with
      | .returned _ _ =>
        ({ s.lose with copies := s.copies.invalidate dropped }.endCall k).bind (·.miss f behind)
      | _ => none
    | _ => none
  | .acquire f =>
    match s.reader f with
    | .waiting =>
      (SingleFlight.acquire s.gate f).map fun gate => { s with gate }.moveTo f .gated
    | _ => none
  | .answer f result =>
    match s.reader f, result with
    | .filling none, .ok obj => s.fenced (.answer f) f (.filling (some obj))
    -- an error goes past the commit
    | .filling none, .error e => s.lose.fenced (.cancel f) f (.unwinding (some (.error e)))
    | _, _ => none
  | .lock f =>
    match s.reader f with
    | .filling answer => s.fenced (.lock f) f (.filling answer)
    | _ => none
  | .test f canCommit =>
    match s.reader f with
    | .filling answer =>
      (if s.fences.stale f || !canCommit then s.lose else s).fenced (.test f canCommit) f
        (.filling answer)
    | _ => none
  | .fold f =>
    match s.reader f with
    | .filling answer => s.fenced (.fold f) f (.filling answer)
    | _ => none
  | .insert f kept =>
    match s.reader f with
    | .filling (some obj) =>
      { s with copies := s.copies.insert obj kept }.fenced (.insert f) f (.filling (some obj))
    | _ => none
  | .release f =>
    match s.reader f, s.fences.fill f with
    -- a fill that folded inserts before it lets its lock go
    | .filling _, .folded _ => none
    | .filling (some obj), _ => s.fenced (.release f) f (.unwinding (some (.ok obj)))
    | _, _ => none
  | .leave f =>
    match s.reader f with
    | .unwinding result => s.fenced (.deregister f) f (.leaving result)
    | _ => none
  | .ungate f =>
    match s.reader f with
    | .leaving result =>
      (SingleFlight.release s.gate f).map fun gate => { s with gate }.moveTo f (.returned result)
    | _ => none
  | .cancel f =>
    match s.reader f with
    | .arrived | .waiting | .promoting _ false | .judging _ false =>
      some (s.moveTo f (.returned none))
    | .gated | .promoting _ true | .judging _ true => some (s.moveTo f (.leaving none))
    | .refusing k behind =>
      (s.endCall k).map (·.moveTo f (if behind then .leaving none else .returned none))
    | .filling _ => s.lose.fenced (.cancel f) f (.unwinding none)
    | _ => none
  | .fence e =>
    match e, e.target.map s.reader with
    | .insert _, _ => none
    | e, none | e, some .observation =>
      -- a reader ends its own calls
      if e.ends.any s.readers then none
      else (s.fences.step e).map fun fences => { s with fences }
    | _, _ => none
  -- under the locks `fence_key` returned
  | .invalidate k dropped =>
    match s.readers k, s.fences.call k with
    | false, .returned _ _ => some { s.lose with copies := s.copies.invalidate dropped }
    | _, _ => none
  | .invalidateHot k =>
    match s.readers k, s.fences.call k with
    | false, .returned _ _ => some { s.lose with copies := s.copies.invalidateHot }
    | _, _ => none
  | .store obj kept => some { s with copies := s.copies.insert obj kept }
  | .evictHot => some { s.lose with copies := s.copies.invalidateHot }
  | .evictWarm => some { s.lose with copies := s.copies.evictWarm }
  | .flush dropped => some { s.lose with copies := s.copies.invalidate dropped }

end

/-! ### The gate -/

variable {s t : Fills φ κ ε} {f g : φ} {p : ReadPhase κ ε}

structure Inv (s : Fills φ κ ε) : Prop where
  fences : s.fences.Inv
  gate : ∀ f, (s.reader f).holdsGate = true ↔ SingleFlight.holder s.gate = some f
  outside : ∀ f, (s.reader f).outside = true → s.fences.fill f = .idle

theorem reader_moveTo (g : φ) : (s.moveTo f p).reader g = if g = f then p else s.reader g :=
  Function.update_apply ..

theorem Inv.moveTo (h : Inv s) (hgate : p.holdsGate = (s.reader f).holdsGate)
    (hout : p.outside = true → s.fences.fill f = .idle) : Inv (s.moveTo f p) where
  fences := h.fences
  gate g := by
    rw [reader_moveTo]
    split
    · next heq =>
      subst heq
      rw [hgate]
      exact h.gate g
    · exact h.gate g
  outside g := by
    rw [reader_moveTo]
    split
    · next heq =>
      subst heq
      exact hout
    · exact h.outside g

omit [DecidableEq φ] in
theorem Inv.copies (h : Inv s) (copies : Copies) (asked lost : Nat) :
    Inv { s with copies, asked, lost } :=
  ⟨h.fences, h.gate, h.outside⟩

theorem Inv.acquire (h : Inv s) (hf : s.reader f = .waiting) {gate : SingleFlight.State φ}
    (hgate : SingleFlight.acquire s.gate f = some gate) :
    Inv ({ s with gate }.moveTo f .gated) := by
  obtain ⟨hfree, hmine⟩ := SingleFlight.holder_acquire hgate
  refine ⟨h.fences, fun g => ?_, fun g => ?_⟩
  · show _ ↔ SingleFlight.holder gate = some g
    rw [reader_moveTo, hmine]
    split
    · next heq =>
      subst heq
      exact iff_of_true rfl rfl
    · next hne =>
      refine iff_of_false ?_ fun hg => hne (Option.some.inj hg).symm
      rw [h.gate, hfree]
      simp
  · rw [reader_moveTo]
    split
    · next heq =>
      subst heq
      exact fun _ => h.outside g (by rw [hf]; rfl)
    · exact h.outside g

theorem Inv.ungate (h : Inv s) {result : Option (Except ε CachedObject)}
    {gate : SingleFlight.State φ} (hgate : SingleFlight.release s.gate f = some gate) :
    Inv ({ s with gate }.moveTo f (.returned result)) := by
  obtain ⟨hmine, hfree⟩ := SingleFlight.holder_release hgate
  refine ⟨h.fences, fun g => ?_, fun g => ?_⟩
  · show _ ↔ SingleFlight.holder gate = some g
    rw [reader_moveTo, hfree]
    split
    · exact iff_of_false Bool.false_ne_true fun hg => by cases hg
    · next hne =>
      refine iff_of_false ?_ fun hg => by cases hg
      rw [h.gate, hmine]
      exact fun hg => hne (Option.some.inj hg).symm
  · rw [reader_moveTo]
    split
    · intro hout
      cases hout
    · exact h.outside g

section
variable [DecidableEq κ]

omit [SingleFlight φ] in
theorem fill_step {a b : Fences φ κ} {e : FenceStep φ κ} (hs : a.step e = some b)
    (hg : e.target ≠ some g) : b.fill g = a.fill g := by
  cases e with
  | cancel f =>
    simp only [Fences.step, Fences.releaseFill] at hs
    split at hs <;> cases hs
    have hne : g ≠ f := fun heq => hg (congrArg some heq.symm)
    split <;> exact Function.update_of_ne hne _ _
  | take k =>
    simp only [Fences.step] at hs
    split at hs
    · split at hs <;> cases hs
      rfl
    · cases hs
      rfl
    · cases hs
  | write =>
    cases hs
    rfl
  | snapshot k | mark k | drop k | abandon k =>
    simp only [Fences.step] at hs
    split at hs <;> cases hs <;> rfl
  | register f | answer f | lock f | test f canCommit | fold f | insert f | release f
  | deregister f =>
    have hne : g ≠ f := fun heq => hg (congrArg some heq.symm)
    simp only [Fences.step] at hs
    split at hs <;> cases hs <;> exact Function.update_of_ne hne _ _

theorem fenced_eq_some {e : FenceStep φ κ} (hs : s.fenced e f p = some t) :
    ∃ fences, s.fences.step e = some fences ∧ t = { s with fences }.moveTo f p := by
  obtain ⟨fences, hfences, rfl⟩ := Option.map_eq_some_iff.mp hs
  exact ⟨fences, hfences, rfl⟩

theorem fence_eq_some {e : FenceStep φ κ} (hs : s.step (.fence e) = some t) :
    ∃ fences, s.fences.step e = some fences ∧
      (∀ f, e.target = some f → s.reader f = .observation) ∧ t = { s with fences } := by
  simp only [Fills.step] at hs
  split at hs
  · cases hs
  · next hnone =>
    obtain ⟨-, hs⟩ := Option.ite_none_left_eq_some.mp hs
    obtain ⟨fences, hfences, rfl⟩ := Option.map_eq_some_iff.mp hs
    refine ⟨fences, hfences, fun f hf => ?_, rfl⟩
    rw [hf] at hnone
    cases hnone
  · next hobserver =>
    obtain ⟨-, hs⟩ := Option.ite_none_left_eq_some.mp hs
    obtain ⟨fences, hfences, rfl⟩ := Option.map_eq_some_iff.mp hs
    refine ⟨fences, hfences, fun f hf => ?_, rfl⟩
    rw [hf] at hobserver
    exact Option.some.inj hobserver
  · cases hs

theorem endCall_eq_some {k : κ} (hs : s.endCall k = some t) :
    ∃ e fences, FenceStep.target e = none ∧ s.fences.step e = some fences ∧
      t = { s with fences } := by
  unfold Fills.endCall at hs
  split at hs
  · obtain ⟨fences, hfences, rfl⟩ := Option.map_eq_some_iff.mp hs
    exact ⟨_, fences, rfl, hfences, rfl⟩
  · obtain ⟨fences, hfences, rfl⟩ := Option.map_eq_some_iff.mp hs
    exact ⟨_, fences, rfl, hfences, rfl⟩

theorem Inv.call (h : Inv s) {e : FenceStep φ κ} (he : e.target = none) {fences : Fences φ κ}
    (hs : s.fences.step e = some fences) (readers : κ → Bool) :
    Inv { s with fences, readers } := by
  refine ⟨h.fences.step hs, h.gate, fun g hg => ?_⟩
  exact (fill_step hs (by rw [he]; simp)).trans (h.outside g hg)

theorem Inv.endCall (h : Inv s) {k : κ} (hs : s.endCall k = some t) :
    Inv t ∧ t.reader = s.reader := by
  obtain ⟨e, fences, he, hfences, rfl⟩ := endCall_eq_some hs
  exact ⟨h.call he hfences s.readers, rfl⟩

theorem Inv.fenced (h : Inv s) {e : FenceStep φ κ} (hs : s.fenced e f p = some t)
    (he : e.target = some f) (hf : (s.reader f).holdsGate = true) (hp : p.holdsGate = true)
    (hout : p.outside = false) : Inv t := by
  obtain ⟨fences, hfences, rfl⟩ := fenced_eq_some hs
  have hmoved := h.moveTo (hp.trans hf.symm) fun hp => absurd hp (Bool.eq_false_iff.mp hout)
  refine ⟨h.fences.step hfences, hmoved.gate, fun g hg => ?_⟩
  have hne : g ≠ f := by
    rintro rfl
    rw [reader_moveTo, if_pos rfl, hout] at hg
    cases hg
  rw [reader_moveTo, if_neg hne] at hg
  exact (fill_step hfences (by rw [he]; simpa using hne.symm)).trans (h.outside g hg)

theorem Inv.miss (h : Inv s) {behind : Bool} (hf : (s.reader f).holdsGate = behind)
    (hout : (s.reader f).outside = true) (hs : s.miss f behind = some t) : Inv t := by
  unfold Fills.miss at hs
  split at hs
  · next hbehind =>
    exact (h.copies s.copies (s.asked + 1) s.lost).fenced hs rfl (hf.trans hbehind) rfl rfl
  · next hbehind =>
    cases hs
    refine h.moveTo ?_ fun _ => h.outside f hout
    rw [hf, Bool.eq_false_iff.mpr hbehind]
    rfl

theorem Inv.probe (h : Inv s) {behind failed : Bool} (hf : (s.reader f).holdsGate = behind)
    (hout : (s.reader f).outside = true) (hs : s.probe f behind failed = some t) : Inv t := by
  unfold Fills.probe at hs
  split at hs
  · cases hs
    exact h.moveTo hf.symm fun _ => h.outside f hout
  · split at hs
    · exact (h.copies s.copies s.asked (s.lost + 1)).miss hf hout hs
    · cases hs
      exact h.moveTo hf.symm fun _ => h.outside f hout
  · exact h.miss hf hout hs

theorem Inv.step (h : Inv s) {e : FillEvent φ κ ε} (hs : s.step e = some t) : Inv t := by
  cases e with
  | look f failed =>
    simp only [Fills.step] at hs
    split at hs
    · next hf => exact h.probe (by rw [hf]; rfl) (by rw [hf]; rfl) hs
    · next hf => exact h.probe (by rw [hf]; rfl) (by rw [hf]; rfl) hs
    · cases hs
  | promote f =>
    simp only [Fills.step] at hs
    split at hs <;> cases hs
    next hf =>
      refine (h.copies _ s.asked s.lost).moveTo ?_ fun _ => h.outside f (by rw [hf]; rfl)
      show _ = (s.reader f).holdsGate
      rw [hf]
      rfl
  | judge f verdict =>
    simp only [Fills.step] at hs
    split at hs
    · next hf =>
      cases hs
      exact h.moveTo (by rw [hf]; rfl) fun hp => by cases hp
    · next hf =>
      cases hs
      exact h.moveTo (by rw [hf]; rfl) fun hp => by cases hp
    · next hf =>
      exact (h.copies s.copies s.asked (s.lost + 1)).miss
        (congrArg ReadPhase.holdsGate hf) (congrArg ReadPhase.outside hf) hs
    · cases hs
  | refuse f k =>
    simp only [Fills.step] at hs
    split at hs
    · next hf =>
      obtain ⟨fences, hfences, rfl⟩ := fenced_eq_some hs
      refine (h.call (e := .snapshot k) rfl hfences _).moveTo
        (congrArg ReadPhase.holdsGate hf).symm fun _ => ?_
      exact (fill_step hfences (by simp [FenceStep.target])).trans (h.outside f (by rw [hf]; rfl))
    · cases hs
  | discard f dropped =>
    simp only [Fills.step] at hs
    split at hs
    · next hf =>
      split at hs
      · obtain ⟨u, hu, hs⟩ := Option.bind_eq_some_iff.mp hs
        obtain ⟨hinv, hreader⟩ := (h.copies _ s.asked (s.lost + 1)).endCall hu
        have hfu : u.reader f = s.reader f := congrFun hreader f
        rw [hf] at hfu
        exact hinv.miss (congrArg ReadPhase.holdsGate hfu) (congrArg ReadPhase.outside hfu) hs
      · cases hs
    · cases hs
  | acquire f =>
    simp only [Fills.step] at hs
    split at hs
    · next hf =>
      obtain ⟨gate, hgate, rfl⟩ := Option.map_eq_some_iff.mp hs
      exact h.acquire hf hgate
    · cases hs
  | answer f result =>
    simp only [Fills.step] at hs
    split at hs
    · next hf => exact h.fenced hs rfl (congrArg ReadPhase.holdsGate hf) rfl rfl
    · next hf =>
      exact (h.copies s.copies s.asked (s.lost + 1)).fenced hs rfl
        (congrArg ReadPhase.holdsGate hf) rfl rfl
    · cases hs
  | lock | fold | leave =>
    simp only [Fills.step] at hs
    split at hs
    · next hf => exact h.fenced hs rfl (congrArg ReadPhase.holdsGate hf) rfl rfl
    · cases hs
  | test f canCommit =>
    simp only [Fills.step] at hs
    split at hs
    · next hf =>
      split at hs
      · exact (h.copies s.copies s.asked (s.lost + 1)).fenced hs rfl
          (congrArg ReadPhase.holdsGate hf) rfl rfl
      · exact h.fenced hs rfl (congrArg ReadPhase.holdsGate hf) rfl rfl
    · cases hs
  | insert f kept =>
    simp only [Fills.step] at hs
    split at hs
    · next obj hf =>
      exact (h.copies (s.copies.insert obj kept) s.asked s.lost).fenced hs rfl
        (congrArg ReadPhase.holdsGate hf) rfl rfl
    · cases hs
  | release f =>
    simp only [Fills.step] at hs
    split at hs
    · cases hs
    · next hf _ => exact h.fenced hs rfl (congrArg ReadPhase.holdsGate hf) rfl rfl
    · cases hs
  | ungate f =>
    simp only [Fills.step] at hs
    split at hs
    · obtain ⟨gate, hgate, rfl⟩ := Option.map_eq_some_iff.mp hs
      exact h.ungate hgate
    · cases hs
  | cancel f =>
    simp only [Fills.step] at hs
    split at hs
    case h_10 => cases hs
    case h_9 hf =>
      exact (h.copies s.copies s.asked (s.lost + 1)).fenced hs rfl
        (congrArg ReadPhase.holdsGate hf) rfl rfl
    case h_8 k behind hf =>
      obtain ⟨u, hu, rfl⟩ := Option.map_eq_some_iff.mp hs
      obtain ⟨hinv, hreader⟩ := h.endCall hu
      have hfu : u.reader f = s.reader f := congrFun hreader f
      rw [hf] at hfu
      refine hinv.moveTo ?_ fun hp => ?_
      · rw [hfu]
        cases behind <;> rfl
      · cases behind <;> cases hp
    all_goals
      next hf =>
      cases hs
      exact h.moveTo (by rw [hf]; rfl) fun hp => by cases hp
  | fence e =>
    obtain ⟨fences, hfences, htarget, rfl⟩ := fence_eq_some hs
    refine ⟨h.fences.step hfences, h.gate, fun g hg => ?_⟩
    rw [fill_step hfences fun heq => ?_]
    · exact h.outside g hg
    · have hobserver : s.reader g = .observation := htarget g heq
      have hg : (s.reader g).outside = true := hg
      rw [hobserver] at hg
      cases hg
  | invalidate | invalidateHot =>
    simp only [Fills.step] at hs
    split at hs
    · cases hs
      exact h.copies _ _ _
    · cases hs
  | store | evictHot | evictWarm | flush =>
    cases hs
    exact h.copies _ _ _

/-! ### What a request is due to -/

omit [DecidableEq φ] [DecidableEq κ] in
def Fetching (s : Fills φ κ ε) (f : φ) : Prop :=
  (s.reader f).isFilling = true ∧ (s.fences.fill f).pending = true

omit [DecidableEq φ] [DecidableEq κ] in
def Held (s : Fills φ κ ε) : Prop :=
  s.copies.hot ≠ none ∨ s.copies.warm ≠ none ∨ ∃ f, s.Fetching f

structure Paid (s : Fills φ κ ε) : Prop where
  bound : s.asked ≤ s.lost + 1
  free : ¬ s.Held → s.asked ≤ s.lost

omit [DecidableEq φ] [DecidableEq κ] in
theorem Paid.keep (h : Paid s) (hasked : t.asked = s.asked) (hlost : t.lost = s.lost)
    (hheld : s.Held → t.Held) : Paid t := by
  refine ⟨hasked ▸ hlost ▸ h.bound, fun hnot => ?_⟩
  rw [hasked, hlost]
  exact h.free fun hs => hnot (hheld hs)

omit [DecidableEq φ] [DecidableEq κ] in
theorem Paid.lose (h : Paid s) (hasked : t.asked = s.asked) (hlost : t.lost = s.lost + 1) :
    Paid t := by
  have hbound := h.bound
  exact ⟨by omega, fun _ => by omega⟩

omit [DecidableEq φ] [DecidableEq κ] in
theorem Paid.fetch (h : Paid s) (hasked : t.asked = s.asked + 1) (hheld : t.Held)
    (hpaid : t.lost = s.lost ∧ ¬ s.Held ∨ t.lost = s.lost + 1) : Paid t := by
  have hbound := h.bound
  refine ⟨?_, fun hnot => absurd hheld hnot⟩
  rcases hpaid with ⟨hlost, hnot⟩ | hlost
  · have hfree := h.free hnot
    omega
  · omega

theorem Held.call (h : s.Held) {e : FenceStep φ κ} (he : e.target = none) {fences : Fences φ κ}
    (hs : s.fences.step e = some fences) (readers : κ → Bool) :
    { s with fences, readers }.Held := by
  rcases h with hcopy | hcopy | ⟨g, hg, hpending⟩
  · exact .inl hcopy
  · exact .inr (.inl hcopy)
  · refine .inr (.inr ⟨g, hg, ?_⟩)
    show (fences.fill g).pending = true
    rwa [fill_step hs (by rw [he]; simp)]

omit [DecidableEq φ] [DecidableEq κ] in
theorem Inv.not_held (h : Inv s) (hf : (s.reader f).holdsGate = true)
    (hnot : (s.reader f).isFilling = false) (hhot : s.copies.hot = none)
    (hwarm : s.copies.warm = none) : ¬ s.Held := by
  rintro (hcopy | hcopy | ⟨g, hg, -⟩)
  · exact hcopy hhot
  · exact hcopy hwarm
  · have hgate : (s.reader g).holdsGate = true := by
      cases hr : s.reader g with
      | filling answer => rfl
      | _ =>
        rw [hr] at hg
        cases hg
    have hsame := ((h.gate f).mp hf).symm.trans ((h.gate g).mp hgate)
    obtain rfl := Option.some.inj hsame
    exact Bool.false_ne_true (hnot.symm.trans hg)

omit [DecidableEq κ] in
theorem Held.moveTo (h : s.Held) (hf : (s.reader f).isFilling = false) : (s.moveTo f p).Held := by
  rcases h with hcopy | hcopy | ⟨g, hg, hpending⟩
  · exact .inl hcopy
  · exact .inr (.inl hcopy)
  · refine .inr (.inr ⟨g, ?_, hpending⟩)
    have hne : g ≠ f := by
      rintro rfl
      exact Bool.false_ne_true (hf.symm.trans hg)
    rwa [reader_moveTo, if_neg hne]

theorem Held.fenced (h : s.Held) {e : FenceStep φ κ} (hs : s.fenced e f p = some t)
    (he : e.target = some f) (hf : ¬ s.Fetching f) : t.Held := by
  obtain ⟨fences, hfences, rfl⟩ := fenced_eq_some hs
  rcases h with hcopy | hcopy | ⟨g, hg, hpending⟩
  · exact .inl hcopy
  · exact .inr (.inl hcopy)
  · have hne : g ≠ f := by
      rintro rfl
      exact hf ⟨hg, hpending⟩
    refine .inr (.inr ⟨g, ?_, ?_⟩)
    · rwa [reader_moveTo, if_neg hne]
    · show (fences.fill g).pending = true
      rwa [fill_step hfences (by rw [he]; simpa using hne.symm)]

theorem held_of_pending {e : FenceStep φ κ} (hs : s.fenced e f p = some t)
    (hp : p.isFilling = true)
    (hpending : ∀ b, s.fences.step e = some b → (b.fill f).pending = true) : t.Held := by
  obtain ⟨fences, hfences, rfl⟩ := fenced_eq_some hs
  refine .inr (.inr ⟨f, ?_, hpending fences hfences⟩)
  rwa [reader_moveTo, if_pos rfl]

omit [SingleFlight φ] in
theorem pending_step {a b : Fences φ κ} {e : FenceStep φ κ} (hs : a.step e = some b)
    (he : e = .register f ∨ e = .answer f ∨ e = .lock f ∨ e = .fold f ∨
      ∃ canCommit, e = .test f canCommit ∧ (a.stale f || !canCommit) = false) :
    (b.fill f).pending = true := by
  rcases he with rfl | rfl | rfl | rfl | ⟨canCommit, rfl, htest⟩
  all_goals
    simp only [Fences.step] at hs
    split at hs <;> cases hs
    simp only [Fences.setFill, Function.update_self]
  iterate 4 rfl
  simp only [Bool.or_eq_false_iff, Bool.not_eq_false'] at htest
  rw [htest.1, htest.2]
  rfl

theorem asked_fenced {e : FenceStep φ κ} (hs : s.fenced e f p = some t) :
    t.asked = s.asked ∧ t.lost = s.lost := by
  obtain ⟨fences, -, rfl⟩ := fenced_eq_some hs
  exact ⟨rfl, rfl⟩

theorem Paid.fetched (h : Paid s) {u : Fills φ κ ε} (hu : u.asked = s.asked)
    (hpaid : u.lost = s.lost ∧ ¬ s.Held ∨ u.lost = s.lost + 1) (hs : u.fetch f = some t) :
    Paid t := by
  have hcounts := asked_fenced hs
  refine h.fetch (hcounts.1.trans (congrArg (· + 1) hu)) ?_ ?_
  · exact held_of_pending hs rfl fun b hb => pending_step hb (.inl rfl)
  · rw [hcounts.2]
    exact hpaid

theorem Paid.missed (h : Paid s) {u : Fills φ κ ε} {behind : Bool} (hu : u.asked = s.asked)
    (hlost : u.lost = s.lost + 1) (hs : u.miss f behind = some t) : Paid t := by
  unfold Fills.miss at hs
  split at hs
  · exact h.fetched hu (.inr hlost) hs
  · cases hs
    exact h.lose hu hlost

theorem Paid.probe (hinv : Inv s) (h : Paid s) {behind failed : Bool}
    (hf : (s.reader f).holdsGate = behind) (hnot : (s.reader f).isFilling = false)
    (hs : s.probe f behind failed = some t) : Paid t := by
  unfold Fills.probe at hs
  split at hs
  · cases hs
    exact h.keep rfl rfl fun hh => hh.moveTo hnot
  · split at hs
    · exact h.missed (u := s.lose) rfl rfl hs
    · cases hs
      exact h.keep rfl rfl fun hh => hh.moveTo hnot
  · next hhot hwarm =>
    unfold Fills.miss at hs
    split at hs
    · next hbehind =>
      exact h.fetched rfl (.inl ⟨rfl, hinv.not_held (hf.trans hbehind) hnot hhot hwarm⟩) hs
    · cases hs
      exact h.keep rfl rfl fun hh => hh.moveTo hnot

theorem Paid.fenced (h : Paid s) {e : FenceStep φ κ} (hs : s.fenced e f p = some t)
    (hheld : s.Held → t.Held) : Paid t :=
  h.keep (asked_fenced hs).1 (asked_fenced hs).2 hheld

theorem Paid.fencedLose (h : Paid s) {e : FenceStep φ κ} (hs : s.lose.fenced e f p = some t) :
    Paid t :=
  h.lose (asked_fenced hs).1 (asked_fenced hs).2

theorem Paid.step (hinv : Inv s) (h : Paid s) {e : FillEvent φ κ ε} (hs : s.step e = some t) :
    Paid t := by
  cases e with
  | look f failed =>
    simp only [Fills.step] at hs
    split at hs
    · next hf => exact h.probe hinv (by rw [hf]; rfl) (by rw [hf]; rfl) hs
    · next hf => exact h.probe hinv (by rw [hf]; rfl) (by rw [hf]; rfl) hs
    · cases hs
  | promote f =>
    simp only [Fills.step] at hs
    split at hs <;> cases hs
    exact h.keep rfl rfl fun _ => .inl (by simp [Fills.moveTo])
  | judge f verdict =>
    simp only [Fills.step] at hs
    split at hs
    · next hf =>
      cases hs
      exact h.keep rfl rfl fun hh => hh.moveTo (by rw [hf]; rfl)
    · next hf =>
      cases hs
      exact h.keep rfl rfl fun hh => hh.moveTo (by rw [hf]; rfl)
    · exact h.missed (u := s.lose) rfl rfl hs
    · cases hs
  | refuse f k =>
    simp only [Fills.step] at hs
    split at hs
    · next hf =>
      obtain ⟨fences, hfences, rfl⟩ := fenced_eq_some hs
      refine h.keep rfl rfl fun hh => (hh.call (e := .snapshot k) rfl hfences _).moveTo ?_
      exact congrArg ReadPhase.isFilling hf
    · cases hs
  | discard f dropped =>
    simp only [Fills.step] at hs
    split at hs
    · split at hs
      · obtain ⟨u, hu, hs⟩ := Option.bind_eq_some_iff.mp hs
        obtain ⟨e, fences, -, -, rfl⟩ := endCall_eq_some hu
        exact h.missed (by rfl) (by rfl) hs
      · cases hs
    · cases hs
  | acquire f =>
    simp only [Fills.step] at hs
    split at hs
    · next hf =>
      obtain ⟨gate, -, rfl⟩ := Option.map_eq_some_iff.mp hs
      exact h.keep rfl rfl fun hh => (Held.moveTo hh (by rw [hf]; rfl) : (s.moveTo f .gated).Held)
    · cases hs
  | answer f result =>
    simp only [Fills.step] at hs
    split at hs
    · exact h.fenced hs fun _ =>
        held_of_pending hs rfl fun b hb => pending_step hb (.inr (.inl rfl))
    · exact h.fencedLose hs
    · cases hs
  | lock f =>
    simp only [Fills.step] at hs
    split at hs
    · exact h.fenced hs fun _ =>
        held_of_pending hs rfl fun b hb => pending_step hb (.inr (.inr (.inl rfl)))
    · cases hs
  | test f canCommit =>
    simp only [Fills.step] at hs
    split at hs
    · split at hs
      · exact h.fencedLose hs
      · next htest =>
        exact h.fenced hs fun _ => held_of_pending hs rfl fun b hb =>
          pending_step hb (.inr (.inr (.inr (.inr ⟨canCommit, rfl, Bool.eq_false_iff.mpr htest⟩))))
    · cases hs
  | fold f =>
    simp only [Fills.step] at hs
    split at hs
    · exact h.fenced hs fun _ =>
        held_of_pending hs rfl fun b hb => pending_step hb (.inr (.inr (.inr (.inl rfl))))
    · cases hs
  | insert f kept =>
    simp only [Fills.step] at hs
    split at hs
    · next obj hf =>
      obtain ⟨fences, -, rfl⟩ := fenced_eq_some hs
      exact h.keep rfl rfl fun _ => .inl (by simp [Fills.moveTo, Copies.insert])
    · cases hs
  | release f =>
    simp only [Fills.step] at hs
    split at hs
    · cases hs
    · next hfolded =>
      refine h.fenced hs fun hh => hh.fenced hs rfl ?_
      -- only a fill that is through or was refused lets its lock go
      rintro ⟨-, hpending⟩
      obtain ⟨fences, hfences, -⟩ := fenced_eq_some hs
      simp only [Fences.step] at hfences
      split at hfences
      · next hfill => simp [hfill, FillPhase.pending] at hpending
      · next hfill => exact hfolded _ hfill
      · next hfill => simp [hfill, FillPhase.pending] at hpending
      · cases hfences
    · cases hs
  | leave f =>
    simp only [Fills.step] at hs
    split at hs
    · next hf =>
      refine h.fenced hs fun hh => hh.fenced hs rfl ?_
      rintro ⟨hfilling, -⟩
      rw [hf] at hfilling
      cases hfilling
    · cases hs
  | ungate f =>
    simp only [Fills.step] at hs
    split at hs
    · next result hf =>
      obtain ⟨gate, -, rfl⟩ := Option.map_eq_some_iff.mp hs
      exact h.keep rfl rfl fun hh =>
        (Held.moveTo hh (by rw [hf]; rfl) : (s.moveTo f (.returned result)).Held)
    · cases hs
  | cancel f =>
    simp only [Fills.step] at hs
    split at hs
    case h_10 => cases hs
    case h_9 hf => exact h.fencedLose hs
    case h_8 hf =>
      obtain ⟨u, hu, rfl⟩ := Option.map_eq_some_iff.mp hs
      obtain ⟨e, fences, he, hfences, rfl⟩ := endCall_eq_some hu
      exact h.keep rfl rfl fun hh =>
        (hh.call he hfences s.readers).moveTo (congrArg ReadPhase.isFilling hf)
    all_goals
      next hf =>
      cases hs
      exact h.keep rfl rfl fun hh => hh.moveTo (by rw [hf]; rfl)
  | fence e =>
    obtain ⟨fences, hfences, htarget, rfl⟩ := fence_eq_some hs
    refine h.keep rfl rfl ?_
    rintro (hcopy | hcopy | ⟨g, hg, hpending⟩)
    · exact .inl hcopy
    · exact .inr (.inl hcopy)
    · refine .inr (.inr ⟨g, hg, ?_⟩)
      show (fences.fill g).pending = true
      rwa [fill_step hfences fun heq => ?_]
      rw [htarget g heq] at hg
      cases hg
  | invalidate | invalidateHot =>
    simp only [Fills.step] at hs
    split at hs
    · cases hs
      exact h.lose rfl rfl
    · cases hs
  | store obj kept =>
    cases hs
    exact h.keep rfl rfl fun _ => .inl (by simp [Copies.insert])
  | evictHot | evictWarm | flush =>
    cases hs
    exact h.lose rfl rfl

/-! ### Whole runs -/

omit [DecidableEq φ] [DecidableEq κ] in
theorem inv_start {copies : Copies} {reader : φ → ReadPhase κ ε}
    (h : ∀ f, reader f = .arrived ∨ reader f = .observation) :
    Inv ({ copies, reader } : Fills φ κ ε) := by
  refine ⟨Fences.inv_init, fun f => iff_of_false ?_ ?_, fun _ _ => rfl⟩
  · show ¬ (reader f).holdsGate = true
    rcases h f with hf | hf <;> simp [hf, ReadPhase.holdsGate]
  · show ¬ SingleFlight.holder (SingleFlight.free : SingleFlight.State φ) = some f
    simp [SingleFlight.holder_free]

theorem run_keeps {copies : Copies} {reader : φ → ReadPhase κ ε} {events : List (FillEvent φ κ ε)}
    (hstart : ∀ f, reader f = .arrived ∨ reader f = .observation)
    (hrun : Machine.run step { copies, reader } events = some s) : Inv s ∧ Paid s :=
  Machine.run_keeps (P := fun s => Inv s ∧ Paid s) hrun
    (fun _ _ _ h hs => ⟨h.1.step hs, h.2.step h.1 hs⟩)
    ⟨inv_start hstart, Nat.zero_le _, fun _ => le_rfl⟩

/-- The origin is asked once.  However readers, observations, mutations and evictions interleave, no
two readers of a key have a request out at a time, and but for one every request is due to a loss:
an eviction, an invalidation, a copy that did not prove valid or could not be read, a refused
commit, an error of the origin or a reader cancelled in its fill. -/
theorem origin_asked_once {copies : Copies} {reader : φ → ReadPhase κ ε}
    {events : List (FillEvent φ κ ε)}
    (hstart : ∀ f, reader f = .arrived ∨ reader f = .observation)
    (hrun : Machine.run step { copies, reader } events = some s) :
    (∀ f g, (s.reader f).isFilling = true → (s.reader g).isFilling = true → f = g) ∧
    s.asked ≤ s.lost + 1 ∧ (s.asked = s.lost + 1 → s.Held) := by
  obtain ⟨hinv, hpaid⟩ := run_keeps hstart hrun
  have hgate : ∀ f, (s.reader f).isFilling = true → SingleFlight.holder s.gate = some f := by
    intro f hf
    refine (hinv.gate f).mp ?_
    cases hr : s.reader f with
    | filling answer => rfl
    | _ =>
      rw [hr] at hf
      cases hf
  refine ⟨fun f g hf hg => Option.some.inj ((hgate f hf).symm.trans (hgate g hg)), hpaid.bound,
    fun hall => ?_⟩
  by_contra hnot
  have hfree := hpaid.free hnot
  omega

def wants (s : Fills φ κ ε) : Party φ κ → Option (Option φ)
  | .fill f =>
    match s.reader f with
    | .waiting => some none
    | _ => (s.fences.wants (.fill f)).map some
  | .call k => (s.fences.wants (.call k)).map some

def acting (s : Fills φ κ ε) (f : φ) : Party φ κ :=
  match s.reader f with
  | .refusing k _ => .call k
  | _ => .fill f

def holder (s : Fills φ κ ε) : Option φ → Option (Party φ κ)
  | none => (SingleFlight.holder s.gate).map s.acting
  | some f => s.fences.lock f

def rank (s : Fills φ κ ε) : Option φ → Nat
  | none => 0
  | some f => s.fences.order f + 1

omit [DecidableEq φ] [DecidableEq κ] in
theorem Inv.ordered (h : Inv s) : LockOrder.Ordered s.wants s.holder s.rank := by
  intro p r r' hw hh
  have hlocks : ∀ w, (s.fences.wants p).map some = some w → s.rank r' < s.rank w := by
    intro w hmap
    obtain ⟨x, hx, rfl⟩ := Option.map_eq_some_iff.mp hmap
    cases r' with
    | none => exact Nat.succ_pos _
    | some y => exact Nat.succ_lt_succ (h.fences.ordered p x y hx hh)
  cases p with
  | call k => exact hlocks r hw
  | fill f =>
    simp only [Fills.wants] at hw
    split at hw
    · next hf =>
      -- who waits for the gate has nothing yet
      cases r' with
      | none =>
        obtain ⟨g, hg, heq⟩ := Option.map_eq_some_iff.mp hh
        obtain rfl : g = f := by
          unfold Fills.acting at heq
          split at heq
          · cases heq
          · exact Party.fill.inj heq
        have hbehind := (h.gate g).mpr hg
        rw [hf] at hbehind
        cases hbehind
      | some y =>
        obtain rfl := h.fences.foreign y f hh
        have hown := (h.fences.own f).mpr hh
        rw [h.outside f (by rw [hf]; rfl)] at hown
        cases hown
    · exact hlocks r hw

/-- Between the gate and the commit locks nobody waits in a circle, whatever the readers and the
mutations are about: a reader that fences the key behind the gate waits for locks only. -/
theorem gate_never_deadlocks {copies : Copies} {reader : φ → ReadPhase κ ε}
    {events : List (FillEvent φ κ ε)}
    (hstart : ∀ f, reader f = .arrived ∨ reader f = .observation)
    (hrun : Machine.run step { copies, reader } events = some s) :
    (∀ f, SingleFlight.holder s.gate = some f → (s.reader f).holdsGate = true) ∧
    ∀ S : Set (Party φ κ), S.Nonempty → ¬ LockOrder.Deadlocked s.wants s.holder S := by
  obtain ⟨hinv, -⟩ := run_keeps hstart hrun
  refine ⟨fun f hf => (hinv.gate f).mpr hf, fun S hS => ?_⟩
  have hlocks : ∀ p w, (s.fences.wants p).map some = some w → s.rank w < s.fences.next + 1 := by
    intro p w hmap
    obtain ⟨x, hx, rfl⟩ := Option.map_eq_some_iff.mp hmap
    exact Nat.succ_lt_succ (hinv.fences.wants_bounded p x hx)
  have hbound : ∀ p r, s.wants p = some r → s.rank r < s.fences.next + 1 := by
    intro p r hw
    cases p with
    | call k => exact hlocks _ r hw
    | fill f =>
      simp only [Fills.wants] at hw
      split at hw
      · cases hw
        exact Nat.succ_pos _
      · exact hlocks _ r hw
  exact LockOrder.not_deadlocked hinv.ordered hbound hS

end

section Sample

local instance sampleFlight : SingleFlight (Bool ⊕ Unit) where
  State := Option (Bool ⊕ Unit)
  free := none
  holder := id
  acquire gate f := if gate = none then some (some f) else none
  release gate f := if gate = some f then some none else none
  holder_free := rfl
  holder_acquire h := by
    obtain ⟨hfree, h⟩ := Option.ite_none_right_eq_some.mp h
    exact ⟨hfree, (Option.some.inj h).symm⟩
  holder_release h := by
    obtain ⟨hmine, h⟩ := Option.ite_none_right_eq_some.mp h
    exact ⟨hmine, (Option.some.inj h).symm⟩

def sampleReaders (f : Bool ⊕ Unit) : ReadPhase Unit Unit :=
  if f.isLeft then .arrived else .observation

def sampleReads : List (FillEvent (Bool ⊕ Unit) Unit Unit) :=
  let leader := .inl true
  let follower := .inl false
  let observer := .inr ()
  [.look leader false, .look follower false, .acquire leader, .look leader false,
   .fence (.register observer), .answer leader (.ok ⟨none, none, 1⟩), .lock leader,
   .test leader true, .fold leader, .insert leader true, .release leader, .leave leader,
   .ungate leader, .acquire follower, .look follower false, .fence (.answer observer),
   .fence (.lock observer), .refuse follower (), .fence (.mark ()), .fence (.mark ())]

def sampleRead : Fills (Bool ⊕ Unit) Unit Unit :=
  (Machine.run step { reader := sampleReaders } sampleReads).get (by decide +kernel)

theorem sampleReaders_start (f : Bool ⊕ Unit) :
    sampleReaders f = .arrived ∨ sampleReaders f = .observation := by
  cases f with
  | inl b => exact .inl rfl
  | inr u => exact .inr rfl

theorem origin_asked_once_sample :
    sampleRead.asked = 1 ∧ sampleRead.lost = 0 ∧ sampleRead.Held := by
  have hrun : Machine.run step { reader := sampleReaders } sampleReads = some sampleRead :=
    (Option.some_get _).symm
  have hasked : sampleRead.asked = sampleRead.lost + 1 := by decide +kernel
  exact ⟨by decide +kernel, by decide +kernel,
    (origin_asked_once sampleReaders_start hrun).2.2 hasked⟩

theorem gate_never_deadlocks_sample :
    sampleRead.holder none = some (.call ()) ∧
    sampleRead.wants (.call ()) = some (some (.inr ())) ∧
    sampleRead.holder (some (.inr ())) = some (.fill (.inr ())) ∧
    ¬ LockOrder.Deadlocked sampleRead.wants sampleRead.holder {.call (), .fill (.inr ())} := by
  have hrun : Machine.run step { reader := sampleReaders } sampleReads = some sampleRead :=
    (Option.some_get _).symm
  exact ⟨by decide +kernel, by decide +kernel, by decide +kernel,
    (gate_never_deadlocks sampleReaders_start hrun).2 _ ⟨.call (), .inl rfl⟩⟩

end Sample

end Fills

end S3Cache.Tier

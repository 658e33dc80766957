import S3Cache.Sync.Replica

/-! What holds of an applying node in every run: its index and its cached bodies account for each
feed as far as the node has come with it. -/

namespace S3Cache.Sync

open Index Fleet KeyIndexState Utf8

/-- How many of an item's effects are done when the index has moved. -/
@[simp]
def PeerWrite.indexAt : PeerWrite → Nat
  | .gap _ => 2
  | _ => 1

def ReplicaStep.inner : ReplicaStep → Bool
  | .publish _ _ | .sealFeed _ | .restart _ _ => false
  | _ => true

def ReplicaStep.feed (me : String) : ReplicaStep → String
  | .publish node _ | .sealFeed node | .restart node _ => node
  | _ => me

inductive Arm : PeerWrite → Nat → ApplyEffect → Prop
  | noteNativeSeal (t : WriteToken) : Arm (.sealed t) 0 (.noteNativeSeal t)
  | observeSeal (t : WriteToken) : Arm (.sealed t) 1 (.observeSeal t)
  | advanceSeal (t : WriteToken) : Arm (.sealed t) 2 (.advance t)
  | renewNativeWriter (t : WriteToken) (e : Nat) : Arm (.renewed t e) 0 (.renewNativeWriter t e)
  | observeRenewal (t : WriteToken) (e : Nat) : Arm (.renewed t e) 1 (.observeRenewal t e)
  | advanceRenewal (t : WriteToken) (e : Nat) : Arm (.renewed t e) 2 (.advance ⟨e, 0⟩)
  | applyFeedIndex (t : WriteToken) (event : IndexEvent) :
      Arm (.wrote t event) 0 (.applyFeedIndex t event)
  | invalidateHot (t : WriteToken) (event : IndexEvent) : Arm (.wrote t event) 1 (.invalidateHot t)
  | advanceWrite (t : WriteToken) (event : IndexEvent) : Arm (.wrote t event) 2 (.advance t)
  | forgetCrossing (t : WriteToken) : Arm (.gap t) 0 .forgetCrossing
  | discardForGap (t : WriteToken) : Arm (.gap t) 1 (.discardForGap t)
  | feedGap (t : WriteToken) : Arm (.gap t) 2 .feedGap
  | advanceGap (t : WriteToken) : Arm (.gap t) 3 (.advance t)

theorem arm_of_getElem? {item : PeerWrite} {k : Nat} {e : ApplyEffect}
    (h : item.arm[k]? = some e) : Arm item k e := by
  cases item with
  | gap t =>
    rcases k with _ | _ | _ | _ | k <;> cases h <;> constructor
  | wrote | sealed | renewed =>
    rcases k with _ | _ | _ | k <;> cases h <;> constructor

namespace Replica

def reach (r : Replica) (after : PeerWrite → Nat) (p : String) : WriteToken :=
  match r.loop with
  | some (q, item, done) =>
    if q = p ∧ after item ≤ done then item.through (r.cursor p) else r.cursor p
  | none => r.cursor p

variable {r r' : Replica} {after : PeerWrite → Nat} {p : String} {item : PeerWrite} {k : Nat}

theorem reach_of_idle (h : r.loop = none) : r.reach after = r.cursor := by
  funext p
  rw [reach, h]

theorem reach_of_lt (h : r.loop = some (p, item, k)) (hk : k < after item) :
    r.reach after = r.cursor := by
  funext q
  rw [reach, h]
  exact if_neg fun hc => absurd hc.2 (Nat.not_le.mpr hk)

theorem reach_of_le (h : r.loop = some (p, item, k)) (hk : after item ≤ k) :
    r.reach after = Function.update r.cursor p (item.through (r.cursor p)) := by
  funext q
  rw [reach, h]
  dsimp only
  by_cases hq : q = p
  · subst hq
    rw [Function.update_self, if_pos ⟨rfl, hk⟩]
  · rw [Function.update_of_ne hq, if_neg fun hc => hq hc.1.symm]

theorem reach_succ (hl : r.loop = some (p, item, k)) (hl' : r'.loop = some (p, item, k + 1))
    (hc : r'.cursor = r.cursor) (after : PeerWrite → Nat) :
    r'.reach after = if after item = k + 1 then
      Function.update r.cursor p (item.through (r.cursor p)) else r.reach after := by
  rcases lt_trichotomy (after item) (k + 1) with hlt | heq | hgt
  · rw [if_neg hlt.ne, reach_of_le hl (Nat.le_of_lt_succ hlt), reach_of_le hl' hlt.le, hc]
  · rw [if_pos heq, reach_of_le hl' heq.le, hc]
  · rw [if_neg hgt.ne', reach_of_lt hl (Nat.lt_of_succ_lt hgt), reach_of_lt hl' hgt, hc]

theorem reach_end (hl : r.loop = some (p, item, k)) (hl' : r'.loop = none)
    (hc : r'.cursor = Function.update r.cursor p (item.through (r.cursor p)))
    (hk : after item ≤ k) : r'.reach after = r.reach after := by
  rw [reach_of_idle hl', reach_of_le hl hk, hc]

section
variable [Layout] [ETagParser] (alignCuts : CutAligner)

structure Inv (r : Replica) : Prop where
  named : (r.writers r.me).life.feed.me = r.me
  unsealed : (r.writers r.me).life.sealed = false
  own : r.cursor r.me = (r.writers r.me).last
  within : ∀ p, r.cursor p ≤ (r.writers p).last
  loop : ∀ p item k, r.loop = some (p, item, k) →
    p ≠ r.me ∧ (r.writers p).Delivers (r.cursor p) item
  frontier : ∀ p, ∀ t ∈ r.frontier p, t ≤ r.cursor p
  cuts : CutsAt r.index (r.reach PeerWrite.indexAt)
  fresh : Fresh alignCuts r.writers r.index (r.reach PeerWrite.indexAt) r.rebuilt

variable {alignCuts}

theorem Inv.reach_le (h : r.Inv alignCuts) (after : PeerWrite → Nat) (p : String) :
    r.reach after p ≤ (r.writers p).last := by
  unfold reach
  split
  · next q item k hl =>
    split
    · next hq =>
      obtain ⟨rfl, -⟩ := hq
      exact (h.loop q item k hl).2.through_le (h.within q)
    · exact h.within p
  · exact h.within p

theorem Inv.setWriter {node : String} {w : Writer} (h : r.Inv alignCuts) (hn : node ≠ r.me)
    (hg : (r.writers node).Grows w) : (r.setWriter node w).Inv alignCuts := by
  have hgrows : ∀ p, (r.writers p).Grows ((r.setWriter node w).writers p) := Writer.grows_update hg
  have hme : (r.setWriter node w).writers r.me = r.writers r.me := Function.update_of_ne hn.symm ..
  have hold : ∀ after p t event, t ≤ r.reach after p →
      ((r.setWriter node w).writers p).Wrote t event → (r.writers p).Wrote t event :=
    fun after p t event ht hw => (hgrows p).old t event hw (ht.trans (h.reach_le after p))
  exact
    { named := (congrArg (·.life.feed.me) hme).trans h.named
      unsealed := (congrArg (·.life.sealed) hme).trans h.unsealed
      own := h.own.trans (congrArg Writer.last hme).symm
      within := fun p => (h.within p).trans (hgrows p).last
      loop := fun p item k hl => ⟨(h.loop p item k hl).1, (h.loop p item k hl).2.grows (hgrows p)⟩
      frontier := h.frontier
      cuts := h.cuts
      fresh := h.fresh.congr fun p t event ht hw => ⟨ht, hold _ p t event ht hw⟩ }

omit [Layout] [ETagParser] in
theorem reach_own {t : WriteToken} (hloop : r'.loop = r.loop)
    (hcursor : r'.cursor = Function.update r.cursor r.me t)
    (hpeer : ∀ p item k, r.loop = some (p, item, k) → p ≠ r.me) :
    r'.reach after = Function.update (r.reach after) r.me t := by
  funext q
  rw [reach, hloop, hcursor]
  by_cases hq : q = r.me
  · subst hq
    rw [Function.update_self, Function.update_self]
    split
    · next p item k hl => exact if_neg fun hc => hpeer p item k hl hc.1
    · rfl
  · rw [Function.update_of_ne hq, Function.update_of_ne hq]
    rfl

omit [ETagParser] in
theorem perform_eq_some {c : FleetCall} (h : r.perform alignCuts c = some r') :
    ∃ s', c.step alignCuts r.index = some s' ∧ r' = r.indexed c s' := by
  obtain ⟨s', hs, rfl⟩ := Option.map_eq_some_iff.mp h
  exact ⟨s', hs, rfl⟩

omit [ETagParser] in
theorem own_eq_some {event : IndexEvent} {call : NativeCut → IndexCall}
    (h : r.own alignCuts event call = some r') :
    ∃ w s', (r.writers r.me).publish event = some w ∧
      r.index.step (call w.life.feed.ownPosition) = some s' ∧
      r' = (r.setOwn w).indexed (.call (call w.life.feed.ownPosition)) s' := by
  obtain ⟨w, hw, h⟩ := Option.bind_eq_some_iff.mp h
  obtain ⟨s', hs, rfl⟩ := perform_eq_some h
  exact ⟨w, s', hw, hs, rfl⟩

theorem Inv.ownWrite (h : r.Inv alignCuts) {event : IndexEvent} {call : NativeCut → IndexCall}
    (hown : r.own alignCuts event call = some r')
    (hwriter : ∀ cut, IndexCall.writer (call cut) = some cut.writer)
    (hcuts : ∀ (s s' : KeyIndexState) cut, s.step (call cut) = some s' →
      s'.nativeCuts = (s.noteNativeCut cut).2.nativeCuts)
    (htakes : ∀ (s : KeyIndexState) cut, (s.noteNativeCut cut).1 = true → takes s (call cut) = true)
    (hfolds : ∀ t, Folds r.me t event (call (nativeCut r.me t))) : r'.Inv alignCuts := by
  obtain ⟨w, s', hw, hs, rfl⟩ := own_eq_some hown
  obtain ⟨hgrows, hlast, hwrote, hfeed, hopen⟩ := Writer.grows_publish hw
  have hcut : w.life.feed.ownPosition = nativeCut r.me w.last := by
    rw [WriteFeed.ownPosition, hgrows.me, h.named, nativeCut, Writer.last, Life.last, hopen]
    rfl
  rw [hcut] at hs ⊢
  have hreach : ∀ after, reach ((r.setOwn w).indexed (.call (call (nativeCut r.me w.last))) s')
      after = Function.update (r.reach after) r.me w.last := fun after =>
    reach_own rfl rfl fun p item k hl => (h.loop p item k hl).1
  have hself : ∀ after, r.reach after r.me = (r.writers r.me).last := by
    intro after
    rw [← h.own]
    unfold reach
    split
    · next p item k hl => exact if_neg fun hc => (h.loop p item k hl).1 hc.1
    · rfl
  have hnext : (r.reach PeerWrite.indexAt r.me).next = w.last := by rw [hself, hlast]
  obtain ⟨htaken, hmoved⟩ := hnext ▸ h.cuts.next r.me
  have hother : ∀ {p}, p ≠ r.me → (r.setWriter r.me w).writers p = r.writers p := fun hp =>
    Function.update_of_ne hp ..
  have hme : (r.setWriter r.me w).writers r.me = w := Function.update_self ..
  refine
    { named := (congrArg (·.life.feed.me) hme).trans (hgrows.me.trans h.named)
      unsealed := (congrArg (·.life.sealed) hme).trans hopen
      own := (Function.update_self ..).trans (congrArg Writer.last hme).symm
      within := update_le_iff.mpr ⟨(congrArg Writer.last hme).ge, fun p hp => ?_⟩
      loop := fun p item k hl => ⟨(h.loop p item k hl).1, ?_⟩
      frontier := fun p t ht => (h.frontier p t ht).trans
        (le_update_self_iff.mpr (h.own ▸ hgrows.last) p)
      cuts := ?_
      fresh := ?_ }
  · exact (h.within p).trans (congrArg Writer.last (hother hp)).ge
  · have hp := (h.loop p item k hl).1
    show ((r.setWriter r.me w).writers p).Delivers (Function.update r.cursor r.me w.last p) item
    rw [hother hp, Function.update_of_ne hp]
    exact (h.loop p item k hl).2
  · rw [hreach]
    exact h.cuts.move hs (hwriter _) fun cut hcut => hmoved cut (by rwa [hcuts _ _ _ hs] at hcut)
  · rw [hreach]
    refine Fresh.indexed (r := r.setOwn w) h.fresh hs (fun _ _ _ _ h => (by cases h))
      fun p t event' ht hw' => ?_
    change ((r.setWriter r.me w).writers p).Wrote t event' at hw'
    by_cases hp : p = r.me
    · subst hp
      rw [Function.update_self] at ht
      rw [hme] at hw'
      rw [hlast] at ht
      rcases WriteToken.le_or_eq_next ht with hle | rfl
      · exact .inl ⟨by rwa [hself], hgrows.old t event' hw' hle⟩
      · rw [← hlast] at hw' ⊢
        obtain rfl := hwrote.unique hw'
        exact .inr (.inl ⟨_, rfl, htakes _ _ htaken, hfolds _⟩)
    · rw [Function.update_of_ne hp] at ht
      rw [hother hp] at hw'
      exact .inl ⟨ht, hw'⟩

theorem work_eq_some (h : r.work alignCuts = some r') :
    ∃ p item k e r₁, r.loop = some (p, item, k) ∧ Arm item k e ∧
      r.exec alignCuts p item e = some r₁ ∧
      r' = { r₁ with loop := if k + 1 < item.arm.length then some (p, item, k + 1) else none } := by
  obtain ⟨⟨p, item, k⟩, hl, h⟩ := Option.bind_eq_some_iff.mp h
  obtain ⟨e, he, h⟩ := Option.bind_eq_some_iff.mp h
  obtain ⟨r₁, hr, h⟩ := Option.bind_eq_some_iff.mp h
  cases h
  exact ⟨p, item, k, e, r₁, hl, arm_of_getElem? he, hr, rfl⟩

theorem Inv.noted (h : r.Inv alignCuts) (hl : r.loop = some (p, item, k))
    (crossings : String → Crossing) (generation : Nat) (mayServe : Bool)
    (hindex : item.indexAt ≠ k + 1) :
    ({ r with crossings, generation, mayServe, loop := some (p, item, k + 1) } : Replica).Inv
      alignCuts := by
  have hreach : reach { r with crossings, generation, mayServe, loop := some (p, item, k + 1) }
      PeerWrite.indexAt = r.reach PeerWrite.indexAt := by
    rw [reach_succ hl (by rfl) (by rfl), if_neg hindex]
  exact
    { h with
      loop := fun q item' k' hl' => by
        cases hl'
        exact h.loop p item k hl
      cuts := by rw [hreach]; exact h.cuts
      fresh := by rw [hreach]; exact h.fresh }

theorem Inv.advanced (h : r.Inv alignCuts) (hl : r.loop = some (p, item, k)) {t : WriteToken}
    (ht : t ≤ item.through (r.cursor p)) (hindex : item.indexAt ≤ k) :
    ({ r with
      frontier := Function.update r.frontier p (some ((r.frontier p).elim t (max t)))
      cursor := Function.update r.cursor p (item.through (r.cursor p))
      loop := none } : Replica).Inv alignCuts := by
  obtain ⟨hp, hd⟩ := h.loop p item k hl
  have hreach : reach { r with
      frontier := Function.update r.frontier p (some ((r.frontier p).elim t (max t)))
      cursor := Function.update r.cursor p (item.through (r.cursor p))
      loop := none } PeerWrite.indexAt = r.reach PeerWrite.indexAt := reach_end hl rfl rfl hindex
  exact
    { h with
      own := by
        show Function.update r.cursor p _ r.me = _
        rw [Function.update_of_ne hp.symm]
        exact h.own
      within := update_le_iff.mpr
        ⟨hd.through_le (h.within p), fun q _ => h.within q⟩
      loop := fun _ _ _ h => (by cases h)
      frontier := fun q t' ht' => by
        change t' ∈ Function.update r.frontier p _ q at ht'
        show t' ≤ Function.update r.cursor p _ q
        by_cases hq : q = p
        · subst hq
          rw [Function.update_self] at ht' ⊢
          cases ht'
          cases hf : r.frontier q with
          | none => exact ht
          | some t₀ => exact max_le ht ((h.frontier q t₀ hf).trans hd.le_through)
        · rw [Function.update_of_ne hq] at ht' ⊢
          exact h.frontier q t' ht'
      cuts := by rw [hreach]; exact h.cuts
      fresh := by rw [hreach]; exact h.fresh }

theorem Inv.indexEffect (h : r.Inv alignCuts) (hl : r.loop = some (p, item, k)) {c : IndexCall}
    {s' : KeyIndexState} (hs : r.index.step c = some s') (hindex : item.indexAt = k + 1)
    (hcuts : CutsAt s' (Function.update r.cursor p (item.through (r.cursor p))))
    (hnew : ∀ t event, t ≤ item.through (r.cursor p) → (r.writers p).Wrote t event →
      t ≤ r.cursor p ∨ takes r.index c = true ∧ Folds p t event c ∨ ∃ cut, c = .gap cut) :
    ({ r.indexed (.call c) s' with loop := some (p, item, k + 1) } : Replica).Inv alignCuts := by
  obtain ⟨hp, hd⟩ := h.loop p item k hl
  have hbefore : r.reach PeerWrite.indexAt = r.cursor := reach_of_lt hl (by omega)
  have hafter : reach { r.indexed (.call c) s' with loop := some (p, item, k + 1) }
      PeerWrite.indexAt = Function.update r.cursor p (item.through (r.cursor p)) := by
    rw [reach_succ hl (by rfl) (by rfl), if_pos hindex]
  have hfresh := h.fresh
  rw [hbefore] at hfresh
  exact
    { h with
      loop := fun q item' k' hl' => by
        cases hl'
        exact ⟨hp, hd⟩
      cuts := by
        rw [hafter]
        exact hcuts
      fresh := by
        rw [hafter]
        refine hfresh.indexed (c := .call c) hs (fun _ _ _ _ h => (by cases h))
          fun q t event ht hw => ?_
        by_cases hq : q = p
        · subst hq
          rw [Function.update_self] at ht
          rcases hnew t event ht hw with hle | ⟨htakes, hf⟩ | ⟨cut, rfl⟩
          · exact .inl ⟨hle, hw⟩
          · exact .inr (.inl ⟨c, rfl, htakes, hf⟩)
          · exact .inr (.inr ⟨cut, rfl⟩)
        · rw [Function.update_of_ne hq] at ht
          exact .inl ⟨ht, hw⟩ }

theorem Inv.work (h : r.Inv alignCuts) (hw : r.work alignCuts = some r') : r'.Inv alignCuts := by
  obtain ⟨p, item, k, e, r₁, hl, ha, he, rfl⟩ := work_eq_some hw
  obtain ⟨hp, hd⟩ := h.loop p item k hl
  have hcuts : k < item.indexAt → CutsAt r.index r.cursor := fun hk => reach_of_lt hl hk ▸ h.cuts
  cases ha with
  | observeSeal | observeRenewal | forgetCrossing | invalidateHot | feedGap =>
    cases he
    exact h.noted hl _ _ _ (by simp)
  | advanceSeal | advanceRenewal | advanceWrite =>
    cases he
    exact h.advanced hl le_rfl (by simp)
  | advanceGap t =>
    cases he
    exact h.advanced hl (le_max_right _ _) (by simp)
  | noteNativeSeal t =>
    obtain ⟨s', hs, rfl⟩ := perform_eq_some he
    obtain ⟨rfl, hsealed⟩ := hd
    refine h.indexEffect hl hs rfl ((hcuts (by simp)).noteSeal hs) fun t event ht hwrote => .inl ?_
    rcases WriteToken.le_or_eq_next ht with hle | rfl
    · exact hle
    · exact absurd (hsealed.silent hwrote rfl) (lt_irrefl _)
  | renewNativeWriter t epoch =>
    obtain ⟨s', hs, rfl⟩ := perform_eq_some he
    obtain ⟨rfl, hrenews⟩ := hd
    exact h.indexEffect hl hs rfl ((hcuts (by simp)).renew hrenews.epoch_lt hs)
      fun t event ht hwrote => .inl (hrenews.nothing_between hwrote ht)
  | applyFeedIndex t event =>
    obtain ⟨⟨b, s'⟩, hs, h₁⟩ := Option.bind_eq_some_iff.mp he
    cases h₁
    obtain ⟨rfl, hwrote⟩ := hd
    have hs : r.index.step (eventCall p (r.cursor p).next event) = some s' := by
      rw [step_eventCall, hs]
      rfl
    obtain ⟨htakes, hcuts⟩ := (hcuts (by simp)).eventCall hs
    refine h.indexEffect hl hs rfl hcuts fun t event' ht hwrote' => ?_
    rcases WriteToken.le_or_eq_next ht with hle | rfl
    · exact .inl hle
    · obtain rfl := hwrote.unique hwrote'
      exact .inr (.inl ⟨htakes, .peer event⟩)
  | discardForGap t =>
    obtain ⟨s', hs, rfl⟩ := perform_eq_some he
    exact h.indexEffect hl hs rfl ((hcuts (by simp)).gap hs)
      fun _ _ _ _ => .inr (.inr ⟨_, rfl⟩)

theorem Inv.call (h : r.Inv alignCuts) {c : FleetCall} (hc : FleetCall.plain c = true)
    (hr : r.perform alignCuts c = some r') : r'.Inv alignCuts := by
  obtain ⟨s', hs, rfl⟩ := perform_eq_some hr
  have hinstall : ∀ stage cuts names maxRows, c ≠ .install stage cuts names maxRows := by
    rintro stage cuts names maxRows rfl
    cases hc
  have hcuts : CutsAt s' (r.reach PeerWrite.indexAt) := by
    cases c with
    | call c => exact h.cuts.frame hs (Option.isNone_iff_eq_none.mp hc)
    | capture host admits names caps =>
      cases hs
      intro p cut hcut
      exact h.cuts p cut (by rwa [nativeCuts_capture] at hcut)
    | install stage cuts names maxRows => cases hc
  exact
    { h with
      cuts := hcuts
      fresh := h.fresh.indexed hs hinstall fun p t event ht hw => .inl ⟨ht, hw⟩ }

theorem setWriter_of_step {a : ReplicaStep} (ha : a.inner = false)
    (hs : r.step alignCuts a = some r') : ∃ w, a.feed r.me ≠ r.me ∧
      (r.writers (a.feed r.me)).Grows w ∧ r' = r.setWriter (a.feed r.me) w := by
  cases a with
  | publish node event =>
    obtain ⟨hn, hs⟩ := Option.ite_none_left_eq_some.mp hs
    obtain ⟨w, hw, rfl⟩ := Option.map_eq_some_iff.mp hs
    exact ⟨w, hn, (Writer.grows_publish hw).1, rfl⟩
  | sealFeed node =>
    obtain ⟨hn, hs⟩ := Option.ite_none_left_eq_some.mp hs
    obtain ⟨w, hw, rfl⟩ := Option.map_eq_some_iff.mp hs
    exact ⟨w, hn, Writer.grows_sealFeed hw, rfl⟩
  | restart node epoch =>
    obtain ⟨hn, hs⟩ := Option.ite_none_left_eq_some.mp hs
    obtain ⟨w, hw, rfl⟩ := Option.map_eq_some_iff.mp hs
    exact ⟨w, hn, Writer.grows_restart hw, rfl⟩
  | _ => cases ha

theorem Inv.step {a : ReplicaStep} (h : r.Inv alignCuts) (hs : r.step alignCuts a = some r') :
    r'.Inv alignCuts := by
  cases a with
  | publish | sealFeed | restart =>
    obtain ⟨w, hn, hg, rfl⟩ := setWriter_of_step rfl hs
    exact h.setWriter hn hg
  | ownPut bucket key entry =>
    rw [Replica.step] at hs
    refine h.ownWrite hs (fun _ => rfl) (fun s s' cut hs => ?_) (fun _ _ h => h)
      (fun t => .put bucket key entry)
    cases hs
    exact nativeCuts_put
  | ownDel bucket key ts =>
    rw [Replica.step] at hs
    refine h.ownWrite hs (fun _ => rfl) (fun s s' cut hs => ?_) (fun _ _ h => h)
      (fun t => .del bucket key ts)
    cases hs
    exact nativeCuts_del
  | ownUnknown bucket key tsUs =>
    rw [Replica.step] at hs
    refine h.ownWrite hs (fun _ => rfl) (fun s s' cut hs => ?_) (fun _ _ _ => rfl)
      (fun t => .unknown bucket key tsUs)
    obtain ⟨⟨token, t⟩, ht, rfl⟩ := Option.map_eq_some_iff.mp hs
    exact nativeCuts_fenceKey ht
  | take peer item =>
    obtain ⟨⟨hp, hidle, hd⟩, hs⟩ := Option.ite_none_right_eq_some.mp hs
    cases hs
    have hidle : r.loop = none := Option.isNone_iff_eq_none.mp hidle
    have hindex : 0 < item.indexAt := by cases item <;> simp
    have hreach : reach { r with loop := some (peer, item, 0) } PeerWrite.indexAt =
        r.reach PeerWrite.indexAt := by
      rw [reach_of_lt (by rfl) hindex, reach_of_idle hidle]
    exact
      { h with
        loop := fun p item' k hl => by
          cases hl
          exact ⟨hp, hd⟩
        cuts := by rw [hreach]; exact h.cuts
        fresh := by rw [hreach]; exact h.fresh }
  | work => exact h.work hs
  | call c =>
    obtain ⟨hc, hs⟩ := Option.ite_none_right_eq_some.mp hs
    exact h.call hc hs
  | lapse | distrust | reopen =>
    cases hs
    exact { h with }

theorem inv_start {me : String} {writers : String → Writer}
    (hnamed : (writers me).life.feed.me = me) (hopen : (writers me).life.sealed = false) :
    (start me writers).Inv alignCuts := by
  have hown : (writers me).life.feed.ownPosition = nativeCut me (writers me).last := by
    rw [WriteFeed.ownPosition, hnamed, nativeCut, Writer.last, Life.last, hopen]
    rfl
  have hreach : ∀ after, (start me writers).reach after = (start me writers).cursor :=
    fun _ => reach_of_idle rfl
  refine
    { named := hnamed
      unsealed := hopen
      own := if_pos rfl
      within := fun p => ?_
      loop := fun _ _ _ h => (by cases h)
      frontier := fun _ _ h => (by cases h)
      cuts := ?_
      fresh := ?_ }
  · show (if p = me then _ else _) ≤ (writers p).last
    split
    · exact le_rfl
    · exact WriteToken.le_iff.mpr (.inr ⟨rfl, Nat.zero_le _⟩)
  · rw [hreach]
    show CutsAt (({} : KeyIndexState).registerNativeWriter (writers me).life.feed.ownPosition) _
    rw [hown]
    refine CutsAt.register (fun p c hc => ?_) (if_pos rfl)
    simp at hc
  · rw [hreach]
    exact
      { runs := fun _ _ h => (by cases h)
        began := fun _ _ h => (by cases h)
        live := fun b hb => by
          rcases live_of_step (c := .register _) rfl hb with h | ⟨h | h, -, -⟩ <;> cases h
        covers := fun _ _ h => (by cases h) }

structure Advances (node : String) (r r' : Replica) : Prop where
  me : r'.me = r.me
  writers : ∃ w, (r.writers node).Grows w ∧ r'.writers = Function.update r.writers node w
  cursor : ∀ p, r.cursor p ≤ r'.cursor p
  rebuilt : ∀ b, ∀ x ∈ r'.rebuilt b, x.writers = r'.writers ∨
    ∃ y ∈ r.rebuilt b, x.writers = y.writers

section
variable {node : String}
omit [Layout] [ETagParser]

theorem Advances.grows (h : r.Advances node r') (p : String) :
    (r.writers p).Grows (r'.writers p) := by
  obtain ⟨w, hg, hw⟩ := h.writers
  rw [hw]
  exact Writer.grows_update hg p

theorem advances_setWriter {w : Writer} (hg : (r.writers node).Grows w) :
    r.Advances node (r.setWriter node w) :=
  ⟨rfl, ⟨w, hg, rfl⟩, fun _ => le_rfl, fun _ x hx => .inr ⟨x, hx, rfl⟩⟩

theorem Advances.indexed (h : r.Advances node r') {c : FleetCall} {s' : KeyIndexState} :
    r.Advances node (r'.indexed c s') :=
  { h with
    rebuilt := fun b x hx => by
      obtain ⟨-, rfl⟩ | ⟨-, y, hy, rfl⟩ := rebuiltAfter_cases hx
      · exact .inl rfl
      · exact h.rebuilt b y hy }

theorem Advances.refl (r : Replica) : r.Advances node r :=
  ⟨rfl, ⟨r.writers node, .refl _, (Function.update_eq_self ..).symm⟩, fun _ => le_rfl,
    fun _ x hx => .inr ⟨x, hx, rfl⟩⟩

end

theorem Inv.advances_work {node : String} (h : r.Inv alignCuts)
    (hw : r.work alignCuts = some r') : r.Advances node r' := by
  obtain ⟨p, item, k, e, r₁, hl, ha, he, rfl⟩ := work_eq_some hw
  have hd := (h.loop p item k hl).2
  have hsame : r.Advances node r₁ → r.Advances node { r₁ with
      loop := if k + 1 < item.arm.length then some (p, item, k + 1) else none } :=
    fun h => { h with }
  refine hsame ?_
  cases e with
  | noteNativeSeal | renewNativeWriter | discardForGap =>
    obtain ⟨s', -, rfl⟩ := perform_eq_some he
    exact (Advances.refl r).indexed
  | applyFeedIndex token event =>
    obtain ⟨⟨b, s'⟩, -, h₁⟩ := Option.bind_eq_some_iff.mp he
    cases h₁
    exact (Advances.refl r).indexed
  | observeSeal | observeRenewal | forgetCrossing | invalidateHot | feedGap =>
    cases he
    exact { Advances.refl r with }
  | advance token =>
    cases he
    exact { Advances.refl r with cursor := le_update_self_iff.mpr hd.le_through }

theorem Inv.advances {a : ReplicaStep} (h : r.Inv alignCuts) (hs : r.step alignCuts a = some r') :
    r.Advances (a.feed r.me) r' := by
  cases a with
  | publish | sealFeed | restart =>
    obtain ⟨w, -, hg, rfl⟩ := setWriter_of_step rfl hs
    exact advances_setWriter hg
  | ownPut | ownDel | ownUnknown =>
    rw [Replica.step] at hs
    obtain ⟨w, s', hw, -, rfl⟩ := own_eq_some hs
    have hg := (Writer.grows_publish hw).1
    have hset : r.Advances r.me (r.setOwn w) :=
      { advances_setWriter hg with
        cursor := le_update_self_iff.mpr (h.own ▸ hg.last) }
    exact hset.indexed
  | take =>
    obtain ⟨-, hs⟩ := Option.ite_none_right_eq_some.mp hs
    cases hs
    exact { Advances.refl r with }
  | work => exact h.advances_work hs
  | call c =>
    obtain ⟨s', -, rfl⟩ := perform_eq_some (Option.ite_none_right_eq_some.mp hs).2
    exact (Advances.refl r).indexed
  | lapse | distrust | reopen =>
    cases hs
    exact { Advances.refl r with }

variable (alignCuts) in
/-- The node's index has come, by its own operations, from the start of the last rebuild of the
bucket, and the write was published by then or has been folded in since. -/
def Accounts (r : Replica) (bucket : String) (p : String) (t : WriteToken) (event : IndexEvent) :
    Prop :=
  ∃ x ∈ r.rebuilt bucket, (∃ s : KeyIndexState, x.index = (s.beginBucketResync bucket).2) ∧
    Machine.run (FleetCall.step alignCuts) x.index x.calls = some r.index ∧
    x.Covers alignCuts p t event

theorem Inv.accounts (h : r.Inv alignCuts) {t : WriteToken} {event : IndexEvent}
    (hsynced : (r.index.bucket event.bucket).synced = true)
    (ht : t ≤ r.reach PeerWrite.indexAt p) (hw : (r.writers p).Wrote t event) :
    r.Accounts alignCuts event.bucket p t event := by
  obtain ⟨x, hx⟩ := Option.isSome_iff_exists.mp (h.fresh.live event.bucket (.inl hsynced))
  exact ⟨x, hx, h.fresh.began _ x hx, h.fresh.runs _ x hx, h.fresh.covers _ x hx p t event ht hw rfl⟩

theorem Inv.cursor_le_reach (h : r.Inv alignCuts) (after : PeerWrite → Nat) (p : String) :
    r.cursor p ≤ r.reach after p := by
  unfold reach
  split
  · next q item k hl =>
    split
    · next hq =>
      obtain ⟨rfl, -⟩ := hq
      exact (h.loop q item k hl).2.le_through
    · exact le_rfl
  · exact le_rfl

end

end Replica

section Sample

def sampleWriters (p : String) : Writer where
  life := { feed := { me := p, epoch := 1 } }
  descending := List.pairwise_singleton _ _

def sampleFeedWrite : IndexEvent := unknownEvent "b" "k" 5

end Sample

end S3Cache.Sync

import S3Cache.Sync.ReplicaRun

/-! The evidence of planned stops that the recovery is given (`sync/stop.rs`): what a node has
noted of a peer's seals and restarts is true of the peer's feed, and the index has the lives it
speaks of whole. -/

namespace S3Cache.Sync

open Index Fleet KeyIndexState Utf8

namespace Replica

def crossingOf (r : Replica) (peer : String) : Crossing := r.crossings peer

def noted (r : Replica) (p : String) : WriteToken := r.reach (fun _ => 2) p

structure Crossed (r : Replica) : Prop where
  own : r.crossings r.me = {}
  sealed : ∀ p, ∀ t ∈ (r.crossings p).sealed, (r.writers p).SealedAt t ∧ r.noted p = t
  renewal : ∀ p, ∀ x ∈ (r.crossings p).renewal,
    (r.writers p).Renews x.sealed x.epoch ∧ (r.noted p).epoch = x.epoch
  gap : ∀ p t k, r.loop = some (p, .gap t, k) → k ≠ 0 → r.crossings p = {}

variable {r r' : Replica} {p : String} {item : PeerWrite} {k : Nat}

theorem Crossed.congr (h : r.Crossed) (hme : r'.me = r.me) (hcrossings : r'.crossings = r.crossings)
    (hnoted : ∀ p, p ≠ r.me → r'.noted p = r.noted p)
    (hgrows : ∀ p, (r.writers p).Grows (r'.writers p))
    (hgap : ∀ p t k, r'.loop = some (p, .gap t, k) → k ≠ 0 → r.crossings p = {}) : r'.Crossed where
  own := by rw [hme, hcrossings]; exact h.own
  sealed q t ht := by
    rw [hcrossings] at ht
    rw [hnoted q fun hq => by rw [hq, h.own] at ht; cases ht]
    exact ⟨(hgrows q).sealedAt t (h.sealed q t ht).1, (h.sealed q t ht).2⟩
  renewal q x hx := by
    rw [hcrossings] at hx
    rw [hnoted q fun hq => by rw [hq, h.own] at hx; cases hx]
    exact ⟨(hgrows q).renews _ _ (h.renewal q x hx).1, (h.renewal q x hx).2⟩
  gap q t j hl hj := by rw [hcrossings]; exact hgap q t j hl hj

theorem noted_succ (hl : r.loop = some (p, item, k)) (hl' : r'.loop = some (p, item, k + 1))
    (hc : r'.cursor = r.cursor) :
    r'.noted p = if k = 1 then item.through (r.cursor p) else r.noted p := by
  unfold noted
  rw [reach_succ hl hl' hc]
  by_cases hk : k = 1
  · rw [if_pos (by omega), if_pos hk, Function.update_self]
  · rw [if_neg (by omega), if_neg hk]

theorem Crossed.effect (h : r.Crossed) (hp : p ≠ r.me) (hl : r.loop = some (p, item, k))
    (hme : r'.me = r.me) (hwriters : r'.writers = r.writers) (hcursor : r'.cursor = r.cursor)
    (hl' : r'.loop = some (p, item, k + 1)) {c : Crossing}
    (hcrossings : r'.crossings = Function.update r.crossings p c)
    (hsealed : ∀ t ∈ c.sealed, (r.writers p).SealedAt t ∧
      (if k = 1 then item.through (r.cursor p) else r.noted p) = t)
    (hrenewal : ∀ x ∈ c.renewal, (r.writers p).Renews x.sealed x.epoch ∧
      (if k = 1 then item.through (r.cursor p) else r.noted p).epoch = x.epoch)
    (hgap : ∀ t, item = .gap t → c = {}) : r'.Crossed := by
  have hother : ∀ q, q ≠ p → r'.noted q = r.noted q := fun q hq => by
    unfold noted
    rw [reach_succ hl hl' hcursor]
    split
    · next h2 => rw [Function.update_of_ne hq, reach_of_lt hl (by omega)]
    · rfl
  refine ⟨?_, fun q t ht => ?_, fun q x hx => ?_, fun q t j hlj hj => ?_⟩
  · rw [hme, hcrossings, Function.update_of_ne hp.symm]
    exact h.own
  · rw [hcrossings] at ht
    rw [hwriters]
    by_cases hq : q = p
    · subst hq
      rw [Function.update_self] at ht
      rw [noted_succ hl hl' hcursor]
      exact hsealed t ht
    · rw [Function.update_of_ne hq] at ht
      rw [hother q hq]
      exact h.sealed q t ht
  · rw [hcrossings] at hx
    rw [hwriters]
    by_cases hq : q = p
    · subst hq
      rw [Function.update_self] at hx
      rw [noted_succ hl hl' hcursor]
      exact hrenewal x hx
    · rw [Function.update_of_ne hq] at hx
      rw [hother q hq]
      exact h.renewal q x hx
  · cases hl'.symm.trans hlj
    rw [hcrossings, Function.update_self]
    exact hgap t rfl

theorem Crossed.quiet (h : r.Crossed) (hp : p ≠ r.me) (hl : r.loop = some (p, item, k))
    (hme : r'.me = r.me) (hwriters : r'.writers = r.writers) (hcursor : r'.cursor = r.cursor)
    (hl' : r'.loop = some (p, item, k + 1)) (hcrossings : r'.crossings = r.crossings)
    (hk : k ≠ 1) (hgap : ∀ t, item = .gap t → k ≠ 0) : r'.Crossed := by
  refine h.effect hp hl hme hwriters hcursor hl' (c := r.crossings p) ?_ (fun t ht => ?_)
    (fun x hx => ?_) fun t ht => ?_
  · rw [hcrossings, Function.update_eq_self]
  · rw [if_neg hk]
    exact h.sealed p t ht
  · rw [if_neg hk]
    exact h.renewal p x hx
  · subst ht
    exact h.gap p t k hl (hgap t rfl)

theorem Crossed.advanced (h : r.Crossed) (hl : r.loop = some (p, item, k)) (hk : 2 ≤ k)
    {frontier : String → Option WriteToken} : ({ r with
      frontier
      cursor := Function.update r.cursor p (item.through (r.cursor p))
      loop := none } : Replica).Crossed := by
  refine h.congr rfl rfl (fun q _ => ?_) (fun _ => .refl _) fun _ _ _ h => (by cases h)
  unfold noted
  rw [reach_end hl (by rfl) (by rfl) hk]

section
variable [Layout] [ETagParser] {alignCuts : CutAligner}

theorem Crossed.work (h : r.Crossed) (hinv : r.Inv alignCuts) (hw : r.work alignCuts = some r') :
    r'.Crossed := by
  obtain ⟨p, item, k, e, r₁, hl, ha, he, rfl⟩ := work_eq_some hw
  obtain ⟨hp, hd⟩ := hinv.loop p item k hl
  -- in the middle of an item the notes still stand at its beginning
  have hbegin : k ≤ 1 → r.noted p = r.cursor p := fun hk =>
    congrFun (reach_of_lt hl (by omega)) p
  cases ha with
  | noteNativeSeal | renewNativeWriter =>
    obtain ⟨s', -, rfl⟩ := perform_eq_some he
    exact h.quiet hp hl rfl rfl rfl rfl rfl (by decide) fun _ h => (by cases h)
  | applyFeedIndex t event =>
    obtain ⟨⟨b, s'⟩, -, h₁⟩ := Option.bind_eq_some_iff.mp he
    cases h₁
    exact h.quiet hp hl rfl rfl rfl rfl rfl (by decide) fun _ h => (by cases h)
  | feedGap t =>
    cases he
    exact h.quiet hp hl rfl rfl rfl rfl rfl (by decide) fun _ _ => by decide
  | advanceSeal | advanceRenewal | advanceWrite =>
    cases he
    exact h.advanced hl le_rfl
  | advanceGap t =>
    cases he
    exact h.advanced hl (by decide)
  | observeSeal t =>
    cases he
    obtain ⟨rfl, hsealed⟩ := hd
    refine h.effect hp hl rfl rfl rfl rfl rfl (fun t ht => ?_) (fun x hx => ?_)
      fun _ h => (by cases h)
    · cases ht
      exact ⟨hsealed, if_pos rfl⟩
    · refine ⟨(h.renewal p x hx).1, ?_⟩
      rw [← (h.renewal p x hx).2, hbegin le_rfl]
      rfl
  | observeRenewal t epoch =>
    cases he
    obtain ⟨rfl, hrenews⟩ := hd
    refine h.effect hp hl rfl rfl rfl rfl rfl (fun _ h => (by cases h)) (fun x hx => ?_)
      fun _ h => (by cases h)
    cases hx
    exact ⟨hrenews, rfl⟩
  | invalidateHot t event =>
    cases he
    obtain ⟨rfl, hwrote⟩ := hd
    refine h.effect hp hl rfl rfl rfl rfl (Function.update_eq_self p _).symm (fun t ht => ?_)
      (fun x hx => ?_) fun _ h => (by cases h)
    · -- nothing is written past a seal
      obtain ⟨hsealed, hat⟩ := h.sealed p t ht
      rw [hbegin le_rfl] at hat
      subst hat
      exact absurd (hsealed.silent hwrote rfl) (WriteToken.lt_next _).asymm
    · refine ⟨(h.renewal p x hx).1, ?_⟩
      rw [← (h.renewal p x hx).2, hbegin le_rfl]
      rfl
  | forgetCrossing t =>
    cases he
    exact h.effect hp hl rfl rfl rfl rfl rfl (fun _ h => (by cases h))
      (fun _ h => (by cases h)) fun _ _ => rfl
  | discardForGap t =>
    obtain ⟨s', -, rfl⟩ := perform_eq_some he
    have hclear := h.gap p t 1 hl (by decide)
    refine h.effect hp hl rfl rfl rfl rfl (c := {}) ?_ (fun _ h => (by cases h))
      (fun _ h => (by cases h)) fun _ _ => rfl
    rw [← hclear]
    exact (Function.update_eq_self p _).symm

theorem Crossed.step {a : ReplicaStep} (h : r.Crossed) (hinv : r.Inv alignCuts)
    (hs : r.step alignCuts a = some r') : r'.Crossed := by
  have ha := hinv.advances hs
  have hsame : r'.crossings = r.crossings → (∀ q, q ≠ r.me → r'.noted q = r.noted q) →
      r'.loop = r.loop → r'.Crossed := fun hc hn hl =>
    h.congr ha.me hc hn ha.grows (by rw [hl]; exact h.gap)
  cases a with
  | publish | sealFeed | restart =>
    obtain ⟨w, -, -, rfl⟩ := setWriter_of_step rfl hs
    exact hsame rfl (fun _ _ => rfl) rfl
  | ownPut | ownDel | ownUnknown =>
    rw [Replica.step] at hs
    obtain ⟨w, s', -, -, rfl⟩ := own_eq_some hs
    refine hsame rfl (fun q hq => ?_) rfl
    unfold noted
    rw [reach_own (by rfl) (by rfl) fun p item k hl => (hinv.loop p item k hl).1,
      Function.update_of_ne hq]
  | take peer item =>
    obtain ⟨⟨-, hidle, -⟩, hs⟩ := Option.ite_none_right_eq_some.mp hs
    cases hs
    refine h.congr rfl rfl (fun q _ => ?_) (fun _ => .refl _) fun q t k hl hk => ?_
    · unfold noted
      rw [reach_of_lt (by rfl) (by decide), reach_of_idle (Option.isNone_iff_eq_none.mp hidle)]
    · cases hl
      exact absurd rfl hk
  | work => exact h.work hinv hs
  | call c =>
    obtain ⟨s', -, rfl⟩ := perform_eq_some (Option.ite_none_right_eq_some.mp hs).2
    exact hsame rfl (fun _ _ => rfl) rfl
  | lapse | distrust | reopen =>
    cases hs
    exact hsame rfl (fun _ _ => rfl) rfl

theorem Inv.noted_le (h : r.Inv alignCuts) (p : String) :
    r.noted p ≤ r.reach PeerWrite.indexAt p := by
  unfold Replica.noted reach
  split
  · next q item k hl =>
    have hle : item.indexAt ≤ 2 := by cases item <;> simp
    split
    · next hq => rw [if_pos ⟨hq.1, hle.trans hq.2⟩]
    · split
      · next hq =>
        obtain ⟨rfl, -⟩ := hq
        exact (h.loop q item k hl).2.le_through
      · exact le_rfl
  · exact le_rfl

/-- In every run the evidence a node keeps of a peer's planned stops is true: a noted seal ended
the life it names, a noted renewal began the life right after a sealed one, and a bucket that
answers accounts for every write the peer made up to there. -/
theorem crossing_evidence_is_true {me : String} {writers : String → Writer}
    {steps : List ReplicaStep} (hnamed : (writers me).life.feed.me = me)
    (hopen : (writers me).life.sealed = false)
    (hrun : Machine.run (Replica.step alignCuts) (start me writers) steps = some r) (p : String) :
    (∀ t ∈ (r.crossingOf p).sealed, (r.writers p).SealedAt t ∧
      ∀ t' event, (r.writers p).Wrote t' event → t'.epoch ≤ t.epoch →
        (r.index.bucket event.bucket).synced = true →
        r.Accounts alignCuts event.bucket p t' event) ∧
    ∀ x ∈ (r.crossingOf p).renewal, (r.writers p).Renews x.sealed x.epoch ∧
      ∀ t' event, (r.writers p).Wrote t' event → t'.epoch < x.epoch →
        (r.index.bucket event.bucket).synced = true →
        r.Accounts alignCuts event.bucket p t' event := by
  have hkept : r.Inv alignCuts ∧ r.Crossed := by
    refine Machine.run_keeps (P := fun r => r.Inv alignCuts ∧ r.Crossed) hrun
      (fun _ _ _ h hs => ⟨h.1.step hs, h.2.step h.1 hs⟩) ⟨inv_start hnamed hopen, ?_⟩
    exact ⟨rfl, fun _ _ h => (by cases h), fun _ _ h => (by cases h), fun _ _ _ h => (by cases h)⟩
  obtain ⟨hinv, hcrossed⟩ := hkept
  refine ⟨fun t ht => ?_, fun x hx => ?_⟩
  · obtain ⟨hsealed, hat⟩ := hcrossed.sealed p t ht
    refine ⟨hsealed, fun t' event hw hepoch hsynced => hinv.accounts hsynced ?_ hw⟩
    refine le_trans ?_ (hinv.noted_le p)
    rw [hat]
    rcases hepoch.lt_or_eq with hlt | heq
    · exact WriteToken.le_iff.mpr (.inl hlt)
    · exact (hsealed.silent hw heq).le
  · obtain ⟨hrenews, hat⟩ := hcrossed.renewal p x hx
    refine ⟨hrenews, fun t' event hw hepoch hsynced => hinv.accounts hsynced ?_ hw⟩
    refine le_trans ?_ (hinv.noted_le p)
    exact WriteToken.le_iff.mpr (.inl (hat ▸ hepoch))

end

section Sample
local instance crossingLayout : Layout := sampleLayout
local instance crossingParser : ETagParser := sampleETagParser

def sampleStop : List ReplicaStep :=
  [.call (.call (.resync "b")), .call (.call (.finish "b" 1)), .publish "q" sampleFeedWrite,
   .take "q" (.wrote ⟨1, 1⟩ sampleFeedWrite), .work, .work, .sealFeed "q", .work,
   .take "q" (.sealed ⟨1, 2⟩), .work, .work, .work]

def sampleStopped : Replica :=
  (Machine.run (Replica.step fun _ _ => ⟨.exact, none⟩) (start "p" sampleWriters) sampleStop).get
    (by decide +kernel)

theorem crossing_evidence_is_true_sample :
    (sampleStopped.crossingOf "q").sealed = some ⟨1, 2⟩ ∧
      sampleStopped.Accounts (fun _ _ => ⟨.exact, none⟩) "b" "q" ⟨1, 1⟩ sampleFeedWrite := by
  have hsealed : (sampleStopped.crossingOf "q").sealed = some ⟨1, 2⟩ := by decide +kernel
  have hrun : Machine.run (Replica.step fun _ _ => ⟨.exact, none⟩) (start "p" sampleWriters)
      sampleStop = some sampleStopped := (Option.some_get _).symm
  exact ⟨hsealed, ((crossing_evidence_is_true rfl rfl hrun "q").1 _ hsealed).2 ⟨1, 1⟩ sampleFeedWrite
    (by decide +kernel) (by decide) (by decide +kernel)⟩

end Sample

end Replica

end S3Cache.Sync

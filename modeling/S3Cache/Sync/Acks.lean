import S3Cache.Sync.ReplicaRun

/-! A write's wait for the cluster (`sync/coherence.rs`), in a fleet whose nodes apply one another's
feeds, acknowledge them, stop, crash and boot again. -/

namespace S3Cache.Sync

open Index Fleet KeyIndexState Utf8

/-! ### The wait -/

inductive Consistency where
  | strong
  | strongAcks
  | bounded
  deriving DecidableEq

inductive Capability where
  | acks
  | lease
  | bounded
  | other (name : String)
  deriving DecidableEq

def waitsOn (capabilities : List Capability) : Bool :=
  capabilities.contains .acks || capabilities.isEmpty

def waitsOnUnleased (capabilities : List Capability) : Bool :=
  waitsOn capabilities && !capabilities.contains .lease

inductive CoherenceOutcome where
  | allApplied
  | leaseLapsed (stragglers : List String)
  | timedOut (waitingOn : List String)

inductive WriteWait where
  | applied
  | lapsed (stragglers : List String)
  | stalled (waitingOn lapsed : List String)

def WriteWait.guaranteed : WriteWait → Bool
  | applied | lapsed _ => true
  | stalled _ _ => false

def waitLeased (coherent : CoherenceOutcome) (insured : Bool) : WriteWait :=
  match coherent, insured with
  | .timedOut waitingOn, _ => .stalled waitingOn []
  | .leaseLapsed stragglers, false => .stalled [] stragglers
  | .allApplied, false => .stalled [] []
  | .leaseLapsed stragglers, true => .lapsed stragglers
  | .allApplied, true => .applied

structure WaitAnswers where
  coherent : CoherenceOutcome
  insured : Bool
  acked : Bool

def waitClusterApplied (consistency : Consistency) (leases : Bool) (answers : WaitAnswers) :
    WriteWait :=
  match consistency, leases with
  | .bounded, _ => .applied
  | .strong, true => waitLeased answers.coherent answers.insured
  | .strong, false | .strongAcks, _ => if answers.acked then .applied else .stalled [] []

structure WaitView where
  members : List String
  capabilities : String → List Capability
  holders : List String

namespace WaitView

def selected (v : WaitView) (writer : String) (select : List Capability → Bool) : List String :=
  v.members.filter fun m => m ≠ writer && select (v.capabilities m)

def covered (v : WaitView) : CoherenceOutcome → List String
  | .allApplied => v.holders
  | .leaseLapsed stragglers => v.holders.filter (· ∉ stragglers)
  | .timedOut _ => []

def awaited (v : WaitView) (consistency : Consistency) (leases : Bool) (writer : String)
    (coherent : CoherenceOutcome) : List String :=
  match consistency, leases with
  | .bounded, _ => []
  | .strong, true => v.selected writer waitsOnUnleased ++ v.covered coherent
  | .strong, false | .strongAcks, _ => v.selected writer waitsOn

end WaitView

structure WaitAnswers.Truthful (answers : WaitAnswers) (v : WaitView) (writer : String)
    (acked : String → Bool) : Prop where
  coherent : ∀ m ∈ v.covered answers.coherent, acked m = true
  insured : answers.insured = true → ∀ m ∈ v.selected writer waitsOnUnleased, acked m = true
  acked : answers.acked = true → ∀ m ∈ v.selected writer waitsOn, acked m = true

instance (answers : WaitAnswers) (v : WaitView) (writer : String) (acked : String → Bool) :
    Decidable (answers.Truthful v writer acked) :=
  decidable_of_iff ((∀ m ∈ v.covered answers.coherent, acked m = true) ∧
      (answers.insured = true → ∀ m ∈ v.selected writer waitsOnUnleased, acked m = true) ∧
      (answers.acked = true → ∀ m ∈ v.selected writer waitsOn, acked m = true))
    ⟨fun h => ⟨h.1, h.2.1, h.2.2⟩, fun h => ⟨h.coherent, h.insured, h.acked⟩⟩

theorem acked_of_guaranteed {consistency : Consistency} {leases : Bool} {answers : WaitAnswers}
    {v : WaitView} {writer : String} {acked : String → Bool}
    (ht : answers.Truthful v writer acked)
    (hg : (waitClusterApplied consistency leases answers).guaranteed = true) :
    ∀ m ∈ v.awaited consistency leases writer answers.coherent, acked m = true := by
  have hacked : (if answers.acked then WriteWait.applied else .stalled [] []).guaranteed = true →
      ∀ m ∈ v.selected writer waitsOn, acked m = true := fun h => ht.acked (by
    by_contra hno
    rw [if_neg hno] at h
    cases h)
  cases consistency with
  | bounded => exact fun _ hm => (by cases hm)
  | strongAcks => exact hacked hg
  | strong =>
    cases leases with
    | false => exact hacked hg
    | true =>
      intro m hm
      rcases List.mem_append.mp hm with hm | hm
      · refine ht.insured ?_ m hm
        by_contra hno
        rw [waitClusterApplied, waitLeased.eq_def] at hg
        rw [Bool.not_eq_true] at hno
        rw [hno] at hg
        cases hc : answers.coherent <;> rw [hc] at hg <;> cases hg
      · exact ht.coherent m hm

/-! ### What a node has seen -/

structure Replica.Since (boot : String → Writer) (r : Replica) : Prop where
  writers : ∀ p t event, (boot p).Wrote t event → (r.writers p).Wrote t event
  rebuilt : ∀ b, ∀ x ∈ r.rebuilt b, ∀ p t event, (boot p).Wrote t event →
    (x.writers p).Wrote t event

theorem Replica.Since.advances {boot : String → Writer} {r r' : Replica} {node : String}
    (h : r.Since boot) (ha : r.Advances node r') : r'.Since boot := by
  have hnow : ∀ p t event, (boot p).Wrote t event → (r'.writers p).Wrote t event :=
    fun p t event hw => (ha.grows p).wrote t event (h.writers p t event hw)
  refine ⟨hnow, fun b x hx => ?_⟩
  rcases ha.rebuilt b x hx with he | ⟨y, hy, he⟩
  · rwa [he]
  · rw [he]
    exact h.rebuilt b y hy

/-! ### The nodes -/

structure UpNode where
  replica : Replica
  boot : String → Writer

structure Guaranteed where
  writer : String
  token : WriteToken
  applied : List String
  deriving DecidableEq

structure Nodes where
  writers : String → Writer
  up : String → Option UpNode := fun _ => none
  ledger : String → String → Option WriteToken := fun _ _ => none
  guaranteed : List Guaranteed := []

inductive NodesStep where
  | inner (node : String) (a : ReplicaStep)
  | stop (node : String)
  | crash (node : String)
  | boot (node : String) (epoch : Nat)
  | record (node peer : String)
  | ackWrite (writer : String) (token : WriteToken) (consistency : Consistency) (leases : Bool)
      (view : WaitView) (answers : WaitAnswers)

namespace Nodes

def move (f : Nodes) (node : String) (w : Writer) (n : Option UpNode) : Nodes :=
  { f with
    writers := Function.update f.writers node w
    up := fun q => if q = node then n
      else (f.up q).map fun m => { m with replica := m.replica.setWriter node w } }

def acked (f : Nodes) (peer : String) (t : WriteToken) (node : String) : Bool :=
  (f.ledger node peer).any fun a => decide (t ≤ a)

section
variable [Layout] [ETagParser] (alignCuts : CutAligner)

def step (f : Nodes) : NodesStep → Option Nodes
  | .inner node a => do
    let n ← f.up node
    if a.inner then
      let r ← n.replica.step alignCuts a
      return f.move node (r.writers node) (some { n with replica := r })
    else none
  | .stop node => do
    let _ ← f.up node
    let w ← (f.writers node).sealFeed
    return f.move node w none
  | .crash node => some (f.move node (f.writers node) none)
  | .boot node epoch => do
    if (f.up node).isSome then none else
    let w ← (f.writers node).restart epoch
    let writers := Function.update f.writers node w
    return f.move node w (some ⟨.start node writers, writers⟩)
  | .record node peer => do
    let n ← f.up node
    let t ← n.replica.frontier peer
    return { f with
      ledger := Function.update f.ledger node (Function.update (f.ledger node) peer (some t)) }
  | .ackWrite writer token consistency leases view answers =>
    if token ≤ (f.writers writer).last ∧
        answers.Truthful view writer (f.acked writer token) then
      if (waitClusterApplied consistency leases answers).guaranteed then
        let applied := view.awaited consistency leases writer answers.coherent
        some { f with guaranteed := ⟨writer, token, applied⟩ :: f.guaranteed }
      else some f
    else none

/-- Every write of the peer's up to the position has come to the node, or was there as it booted. -/
def Reached (f : Nodes) (node peer : String) (t : WriteToken) : Prop :=
  t ≤ (f.writers peer).last ∧ ∀ n ∈ f.up node, ∀ t' event, t' ≤ t →
    (f.writers peer).Wrote t' event → t' ≤ n.replica.cursor peer ∨ (n.boot peer).Wrote t' event

structure UpNode.Inv (writers : String → Writer) (q : String) (n : UpNode) : Prop where
  me : n.replica.me = q
  writers : n.replica.writers = writers
  replica : n.replica.Inv alignCuts
  since : n.replica.Since n.boot

structure Inv (f : Nodes) : Prop where
  named : ∀ p, (f.writers p).life.feed.me = p
  up : ∀ q, ∀ n ∈ f.up q, UpNode.Inv alignCuts f.writers q n
  ledger : ∀ q p, ∀ t ∈ f.ledger q p, f.Reached q p t
  guaranteed : ∀ g ∈ f.guaranteed, g.token ≤ (f.writers g.writer).last ∧
    ∀ q ∈ g.applied, f.Reached q g.writer g.token

end

section
variable {f f' : Nodes} {node peer : String} {w : Writer} {n : Option UpNode} {t : WriteToken}

theorem up_move {q : String} {m : UpNode} (h : m ∈ (f.move node w n).up q) :
    q = node ∧ m ∈ n ∨ q ≠ node ∧ ∃ m₀ ∈ f.up q,
      m = { m₀ with replica := m₀.replica.setWriter node w } := by
  change m ∈ (if q = node then n else _) at h
  split at h
  · next hq => exact .inl ⟨hq, h⟩
  · next hq =>
    obtain ⟨m₀, hm₀, rfl⟩ := Option.mem_map.mp h
    exact .inr ⟨hq, m₀, hm₀, rfl⟩

theorem Reached.mono {q p : String} {t₀ : WriteToken} (h : f.Reached q p t) (ht : t₀ ≤ t) :
    f.Reached q p t₀ :=
  ⟨ht.trans h.1, fun m hm t' event ht' => h.2 m hm t' event (ht'.trans ht)⟩

theorem Reached.move {q p : String} (h : f.Reached q p t) (hw : (f.writers node).Grows w)
    (hn : ∀ m ∈ n, (∃ m₀ ∈ f.up node, m.boot = m₀.boot ∧
        ∀ p, m₀.replica.cursor p ≤ m.replica.cursor p) ∨ m.boot = (f.move node w n).writers) :
    (f.move node w n).Reached q p t := by
  refine ⟨h.1.trans (Writer.grows_update hw p).last, fun m hm t' event ht' hwrote => ?_⟩
  have hold : (f.writers p).Wrote t' event :=
    (Writer.grows_update hw p).old t' event hwrote (ht'.trans h.1)
  rcases up_move hm with ⟨rfl, hmn⟩ | ⟨-, m₀, hm₀, rfl⟩
  · rcases hn m hmn with ⟨m₀, hm₀, hboot, hcursor⟩ | hboot
    · rw [hboot]
      exact (h.2 m₀ hm₀ t' event ht' hold).imp_left fun hle => hle.trans (hcursor p)
    · rw [hboot]
      exact .inr hwrote
  · exact h.2 m₀ hm₀ t' event ht' hold

section
variable [Layout] [ETagParser] {alignCuts : CutAligner}

theorem Inv.move (h : f.Inv alignCuts) (hw : (f.writers node).Grows w)
    (hup : ∀ m ∈ n, UpNode.Inv alignCuts (f.move node w n).writers node m)
    (hn : ∀ m ∈ n, (∃ m₀ ∈ f.up node, m.boot = m₀.boot ∧
        ∀ p, m₀.replica.cursor p ≤ m.replica.cursor p) ∨ m.boot = (f.move node w n).writers) :
    (f.move node w n).Inv alignCuts where
  named p := (Writer.grows_update hw p).me.trans (h.named p)
  up q m hm := by
    rcases up_move hm with ⟨rfl, hmn⟩ | ⟨hq, m₀, hm₀, rfl⟩
    · exact hup m hmn
    · obtain ⟨hme, hwriters, hreplica, hsince⟩ := h.up q m₀ hm₀
      have hg : (m₀.replica.writers node).Grows w := by rwa [hwriters]
      refine ⟨hme, ?_, hreplica.setWriter (by rw [hme]; exact Ne.symm hq) hg,
        hsince.advances (Replica.advances_setWriter hg)⟩
      show Function.update m₀.replica.writers node w = _
      rw [hwriters]
      rfl
  ledger q p t ht := (h.ledger q p t ht).move hw hn
  guaranteed g hg := by
    obtain ⟨hlast, happlied⟩ := h.guaranteed g hg
    exact ⟨hlast.trans (Writer.grows_update hw _).last, fun q hq => (happlied q hq).move hw hn⟩

omit [Layout] [ETagParser] in
theorem feed_of_inner {a : ReplicaStep} {me : String} (ha : a.inner = true) : a.feed me = me := by
  cases a <;> first | rfl | cases ha

theorem Inv.inner {a : ReplicaStep} {m : UpNode} {r : Replica} (h : f.Inv alignCuts)
    (hm : f.up node = some m) (ha : a.inner = true) (hs : m.replica.step alignCuts a = some r) :
    (f.move node (r.writers node) (some { m with replica := r })).Inv alignCuts := by
  obtain ⟨hme, hwriters, hreplica, hsince⟩ := h.up node m hm
  have hadvances := hreplica.advances hs
  rw [hme, feed_of_inner ha] at hadvances
  obtain ⟨w, hg, hr⟩ := hadvances.writers
  have hw : r.writers node = w := by rw [hr, Function.update_self]
  rw [hwriters] at hg hr
  rw [hw]
  refine h.move hg (fun m' hm' => ?_) fun m' hm' => ?_
  · cases hm'
    exact ⟨hadvances.me.trans hme, hr, hreplica.step hs, hsince.advances hadvances⟩
  · cases hm'
    exact .inl ⟨m, hm, rfl, hadvances.cursor⟩

theorem Inv.boot {epoch : Nat} (h : f.Inv alignCuts)
    (hw : (f.writers node).restart epoch = some w) :
    (f.move node w (some ⟨.start node (Function.update f.writers node w),
      Function.update f.writers node w⟩)).Inv alignCuts := by
  have hg := Writer.grows_restart hw
  have hself : Function.update f.writers node w node = w := Function.update_self ..
  refine h.move hg (fun m hm => ?_) fun m hm => ?_
  · cases hm
    refine ⟨rfl, rfl, Replica.inv_start ?_ ?_, ⟨fun _ _ _ h => h, ?_⟩⟩
    · rw [hself, hg.me, h.named]
    · rw [hself]
      exact Writer.open_of_restart hw
    · exact fun _ _ hx => (by cases hx)
  · cases hm
    exact .inr rfl

theorem Inv.record {m : UpNode} (h : f.Inv alignCuts) (hm : f.up node = some m)
    (ht : m.replica.frontier peer = some t) :
    ({ f with
      ledger := Function.update f.ledger node (Function.update (f.ledger node) peer (some t)) } :
      Nodes).Inv alignCuts := by
  have hreached : f.Reached node peer t := by
    have hcursor := (h.up node m hm).replica.frontier peer t ht
    refine ⟨?_, fun m' hm' t' event ht' _ => .inl ?_⟩
    · rw [← (h.up node m hm).writers]
      exact hcursor.trans ((h.up node m hm).replica.within peer)
    · cases hm.symm.trans hm'
      exact ht'.trans hcursor
  refine ⟨h.named, h.up, fun q p a ha => ?_, h.guaranteed⟩
  change a ∈ Function.update f.ledger node _ q p at ha
  show f.Reached q p a
  by_cases hq : q = node
  · subst hq
    rw [Function.update_self] at ha
    by_cases hp : p = peer
    · subst hp
      rw [Function.update_self] at ha
      cases ha
      exact hreached
    · rw [Function.update_of_ne hp] at ha
      exact h.ledger q p a ha
  · rw [Function.update_of_ne hq] at ha
    exact h.ledger q p a ha

theorem Inv.reached_of_acked (h : f.Inv alignCuts) (ha : f.acked peer t node = true) :
    f.Reached node peer t := by
  obtain ⟨a, hl, hle⟩ := (Option.any_eq_true ..).mp ha
  exact (h.ledger node peer a hl).mono (of_decide_eq_true hle)

theorem Inv.step {a : NodesStep} (h : f.Inv alignCuts) (hs : f.step alignCuts a = some f') :
    f'.Inv alignCuts := by
  cases a with
  | inner node a =>
    obtain ⟨m, hm, hs⟩ := Option.bind_eq_some_iff.mp hs
    obtain ⟨ha, hs⟩ := Option.ite_none_right_eq_some.mp hs
    obtain ⟨r, hr, hs⟩ := Option.bind_eq_some_iff.mp hs
    cases hs
    exact h.inner hm ha hr
  | stop node =>
    obtain ⟨m, -, hs⟩ := Option.bind_eq_some_iff.mp hs
    obtain ⟨w, hw, hs⟩ := Option.bind_eq_some_iff.mp hs
    cases hs
    exact h.move (Writer.grows_sealFeed hw) (fun _ hm => (by cases hm)) fun _ hm => (by cases hm)
  | crash node =>
    cases hs
    exact h.move (.refl _) (fun _ hm => (by cases hm)) fun _ hm => (by cases hm)
  | boot node epoch =>
    obtain ⟨-, hs⟩ := Option.ite_none_left_eq_some.mp hs
    obtain ⟨w, hw, hs⟩ := Option.bind_eq_some_iff.mp hs
    cases hs
    exact h.boot hw
  | record node peer =>
    obtain ⟨m, hm, hs⟩ := Option.bind_eq_some_iff.mp hs
    obtain ⟨t, ht, hs⟩ := Option.bind_eq_some_iff.mp hs
    cases hs
    exact h.record hm ht
  | ackWrite writer token consistency leases view answers =>
    obtain ⟨⟨hlast, htruthful⟩, hs⟩ := Option.ite_none_right_eq_some.mp hs
    split at hs
    · next hg =>
      cases hs
      refine ⟨h.named, h.up, h.ledger, fun g hg' => ?_⟩
      rcases List.mem_cons.mp hg' with rfl | hg'
      · exact ⟨hlast, fun q hq => h.reached_of_acked (acked_of_guaranteed htruthful hg q hq)⟩
      · exact h.guaranteed g hg'
    · cases hs
      exact h

theorem Inv.applied (h : f.Inv alignCuts) {q p : String} {m : UpNode} {event : IndexEvent}
    (hm : f.up q = some m) (hw : (f.writers p).Wrote t event)
    (ht : t ≤ m.replica.cursor p ∨ (m.boot p).Wrote t event)
    (hsynced : (m.replica.index.bucket event.bucket).synced = true) :
    m.replica.Accounts alignCuts event.bucket p t event := by
  obtain ⟨-, hwriters, hreplica, hsince⟩ := h.up q m hm
  rw [← hwriters] at hw
  rcases ht with hle | hboot
  · exact hreplica.accounts hsynced (hle.trans (hreplica.cursor_le_reach _ p)) hw
  · obtain ⟨x, hx⟩ := Option.isSome_iff_exists.mp (hreplica.fresh.live event.bucket (.inl hsynced))
    exact ⟨x, hx, hreplica.fresh.began _ x hx, hreplica.fresh.runs _ x hx,
      .inl (hsince.rebuilt _ x hx p t event hboot)⟩

/-- In every run of the fleet, through crashes, planned stops, new lives, gaps and rebuilds: once a
wait has vouched for a write, neither the writer nor a node the wait rests on answers from an
index without it. -/
theorem guaranteed_write_is_applied {writers : String → Writer} {steps : List NodesStep}
    (hnamed : ∀ p, (writers p).life.feed.me = p)
    (hrun : Machine.run (Nodes.step alignCuts) { writers } steps = some f) {g : Guaranteed}
    (hg : g ∈ f.guaranteed) {q : String} (hq : q = g.writer ∨ q ∈ g.applied) {m : UpNode}
    (hm : f.up q = some m) {event : IndexEvent} (ht : t ≤ g.token)
    (hw : (f.writers g.writer).Wrote t event)
    (hsynced : (m.replica.index.bucket event.bucket).synced = true) :
    m.replica.Accounts alignCuts event.bucket g.writer t event := by
  have hinv : f.Inv alignCuts := by
    refine Machine.run_keeps hrun (fun _ _ _ h hs => h.step hs) ⟨hnamed, ?_, ?_, ?_⟩
    · exact fun _ _ hn => (by cases hn)
    · exact fun _ _ _ hn => (by cases hn)
    · exact fun _ hn => (by cases hn)
  refine hinv.applied hm hw ?_ hsynced
  rcases hq with rfl | hq
  · obtain ⟨hme, hwriters, hreplica, -⟩ := hinv.up _ m hm
    refine .inl ?_
    rw [← hme] at hw ⊢
    rw [hreplica.own, hwriters]
    exact hw.le_last
  · exact ((hinv.guaranteed g hg).2 q hq).2 m hm t event ht hw

end

end

section Sample
local instance acksLayout : Layout := sampleLayout
local instance acksParser : ETagParser := sampleETagParser

def sampleLives : List NodesStep :=
  let view : WaitView := ⟨["p", "q"], fun _ => [.acks], []⟩
  [.boot "p" 2, .boot "q" 2, .inner "p" (.ownUnknown "b" "k" 5),
   .inner "q" (.take "p" (.wrote ⟨2, 1⟩ sampleFeedWrite)), .inner "q" .work, .inner "q" .work,
   .inner "q" .work, .record "q" "p",
   .ackWrite "p" ⟨2, 1⟩ .strongAcks false view ⟨.allApplied, false, true⟩, .crash "q",
   .boot "q" 3, .inner "q" (.call (.call (.resync "b"))), .inner "q" (.call (.call (.finish "b" 1)))]

def sampleNodes : Nodes :=
  (Machine.run (Nodes.step fun _ _ => ⟨.exact, none⟩) { writers := sampleWriters } sampleLives).get
    (by decide +kernel)

def sampleUp : UpNode := (sampleNodes.up "q").get (by decide +kernel)

theorem guaranteed_write_is_applied_sample :
    sampleUp.replica.Accounts (fun _ _ => ⟨.exact, none⟩) "b" "p" ⟨2, 1⟩ sampleFeedWrite := by
  have hrun : Machine.run (Nodes.step fun _ _ => ⟨.exact, none⟩) { writers := sampleWriters }
      sampleLives = some sampleNodes := (Option.some_get _).symm
  have hup : sampleNodes.up "q" = some sampleUp := (Option.some_get _).symm
  have hg : (⟨"p", ⟨2, 1⟩, ["q"]⟩ : Guaranteed) ∈ sampleNodes.guaranteed := by decide +kernel
  have hw : (sampleNodes.writers "p").Wrote ⟨2, 1⟩ sampleFeedWrite := by decide +kernel
  exact guaranteed_write_is_applied (fun _ => rfl) hrun hg (.inr (List.mem_singleton_self _)) hup
    le_rfl hw (by decide +kernel)

end Sample

end Nodes

end S3Cache.Sync

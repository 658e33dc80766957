import S3Cache.Cache.ListGate
import S3Cache.Sync.ReplicaRun

/-! A read answered from node-local state (`cache/proxy.rs`) beside the apply loop: its fence, the
freshness barrier with the session token a client echoes, and the gate the answer passes last. -/

namespace S3Cache.Cache

open Index Fleet Sync

inductive BarrierPhase where
  | fenced
  | awaiting (todo : List String)
  | behind (member : String) (head : WriteToken) (todo : List String)
  | unverified (writer : String) (token : WriteToken)
  | routed
  | sampled (held : Replica)
  | answered (held : Replica)
  | origin

namespace BarrierPhase

def answer : BarrierPhase → Option Replica
  | answered held => some held
  | _ => none

theorem eq_answered {p : BarrierPhase} {held : Replica} (h : p.answer = some held) :
    p = .answered held := by
  cases p with
  | answered => cases h; rfl
  | _ => cases h

end BarrierPhase

structure LocalRead where
  fence : LocalReadFence
  header : Option String
  heads : List (String × WriteToken) := []
  phase : BarrierPhase := .fenced

inductive BarrierStep where
  | node (a : ReplicaStep)
  | begin (header : Option String)
  | licence (modeAllows : Bool) (members : List String)
  | next (head : Option WriteToken)
  | reached
  | timeout
  | token
  | sample
  | gate (modeAllows : Bool)

structure ReadNode where
  replica : Replica
  read : Option LocalRead := none

def reached (r : Replica) (peer : String) (t : WriteToken) : Bool :=
  (r.frontier peer).any fun f => decide (t ≤ f)

def LocalRead.move (r : Replica) (x : LocalRead) : BarrierStep → Option LocalRead
  | .licence modeAllows members =>
    match x.phase with
    | .fenced =>
      some { x with phase := if r.mayServe && modeAllows then .awaiting members else .origin }
    | _ => none
  | .next head =>
    match x.phase with
    | .awaiting (member :: todo) =>
      if member = r.me then some { x with phase := .awaiting todo }
      else
        match head with
        | none => some { x with phase := .awaiting todo }
        | some head =>
          some { x with heads := (member, head) :: x.heads, phase := .behind member head todo }
    | _ => none
  | .token =>
    match x.phase with
    | .awaiting [] =>
      match x.header.bind parseToken with
      -- a garbled token is ignored
      | none => some { x with phase := .routed }
      | some (writer, token) =>
        some { x with phase := if writer = r.me then .routed else .unverified writer token }
    | _ => none
  | .reached =>
    match x.phase with
    | .behind member head todo =>
      if reached r member head then some { x with phase := .awaiting todo } else none
    | .unverified writer token =>
      if reached r writer token then some { x with phase := .routed } else none
    | _ => none
  | .timeout =>
    match x.phase with
    | .behind _ _ _ | .unverified _ _ => some { x with phase := .origin }
    | _ => none
  | .sample =>
    match x.phase with
    | .routed => some { x with phase := .sampled r }
    | _ => none
  | .gate modeAllows =>
    match x.phase with
    | .sampled held =>
      some { x with
        phase := if r.bodyGeneration = x.fence.bodyGeneration ∧ r.mayServe = true ∧
            r.generation = x.fence.recoveryGeneration ∧ modeAllows = true then .answered held
          else .origin }
    | _ => none
  | _ => none

section
variable [Layout] [ETagParser] (alignCuts : CutAligner)

def ReadNode.step (n : ReadNode) : BarrierStep → Option ReadNode
  | .node a => (n.replica.step alignCuts a).map fun replica => { n with replica }
  | .begin header =>
    some { n with
      read := some ⟨⟨n.replica.generation, n.replica.bodyGeneration⟩, header, [], .fenced⟩ }
  | a => do
    let x ← (← n.read).move n.replica a
    return { n with read := some x }

namespace LocalRead

def Awaited (x : LocalRead) (r : Replica) : Prop := ∀ m h, (m, h) ∈ x.heads → h ≤ r.cursor m

def Verified (x : LocalRead) (r : Replica) : Prop :=
  ∀ w t, x.header.bind parseToken = some (w, t) → w ≠ r.me → t ≤ r.cursor w

def SoundAt (x : LocalRead) (r : Replica) : BarrierPhase → Prop
  | .fenced => x.heads = []
  | .awaiting _ => x.Awaited r
  | .behind member head _ =>
    ∀ m h, (m, h) ∈ x.heads → (m, h) = (member, head) ∨ h ≤ r.cursor m
  | .unverified writer token =>
    x.Awaited r ∧ x.header.bind parseToken = some (writer, token)
  | .routed => x.Awaited r ∧ x.Verified r
  | .sampled held | .answered held =>
    held.Inv alignCuts ∧ held.me = r.me ∧ x.Awaited held ∧ x.Verified held
  | .origin => True

def Sound (x : LocalRead) (r : Replica) : Prop := x.SoundAt alignCuts r x.phase

end LocalRead

structure ReadNode.Inv (n : ReadNode) : Prop where
  replica : n.replica.Inv alignCuts
  sound : ∀ x ∈ n.read, x.Sound alignCuts n.replica

variable {alignCuts} {x x' : LocalRead} {r r' : Replica} {n n' : ReadNode}

omit [Layout] [ETagParser] in
theorem LocalRead.Awaited.advances {node : String} (h : x.Awaited r)
    (ha : r.Advances node r') : x.Awaited r' :=
  fun m t hm => (h m t hm).trans (ha.cursor m)

theorem LocalRead.Sound.advances {node : String} (h : x.Sound alignCuts r)
    (ha : r.Advances node r') : x.Sound alignCuts r' := by
  unfold Sound at h ⊢
  generalize x.phase = phase at h
  cases phase with
  | fenced => exact h
  | awaiting todo => exact LocalRead.Awaited.advances h ha
  | behind member head todo =>
    exact fun m t hm => (h m t hm).imp_right fun hle => hle.trans (ha.cursor m)
  | unverified writer token => exact ⟨h.1.advances ha, h.2⟩
  | routed =>
    refine ⟨h.1.advances ha, fun w t hw hne => ?_⟩
    exact (h.2 w t hw (by rwa [ha.me] at hne)).trans (ha.cursor w)
  | sampled held | answered held => exact ⟨h.1, h.2.1.trans ha.me.symm, h.2.2⟩
  | origin => trivial

theorem le_cursor_of_reached (h : r.Inv alignCuts) {p : String} {t : WriteToken}
    (hr : reached r p t = true) : t ≤ r.cursor p := by
  obtain ⟨f, hf, ht⟩ := (Option.any_eq_true ..).mp hr
  exact (of_decide_eq_true ht).trans (h.frontier p f hf)

theorem LocalRead.Sound.move (hr : r.Inv alignCuts) (h : x.Sound alignCuts r) {a : BarrierStep}
    (hm : x.move r a = some x') : x'.Sound alignCuts r := by
  unfold Sound at h
  cases a with
  | node | begin => cases hm
  | licence modeAllows members =>
    dsimp only [LocalRead.move] at hm
    split at hm
    · next hp =>
      rw [hp] at h
      cases hm
      by_cases hserve : (r.mayServe && modeAllows) = true
      · simp only [Sound, hserve, if_true]
        intro m t ht
        rw [show x.heads = [] from h] at ht
        cases ht
      · simp only [Sound, hserve]
        trivial
    · cases hm
  | next head =>
    dsimp only [LocalRead.move] at hm
    split at hm
    · next member todo hp =>
      rw [hp] at h
      split at hm
      · cases hm
        exact h
      · cases head with
        | none =>
          cases hm
          exact h
        | some head =>
          cases hm
          exact fun m t ht => (List.mem_cons.mp ht).imp_right (h m t)
    · cases hm
  | token =>
    dsimp only [LocalRead.move] at hm
    split at hm
    · next hp =>
      rw [hp] at h
      split at hm
      · next hnone =>
        cases hm
        exact ⟨h, fun w t hw => by cases hnone.symm.trans hw⟩
      · next writer token hsome =>
        cases hm
        by_cases hme : writer = r.me
        · simp only [Sound, hme, if_true]
          refine ⟨h, fun w t hw hne => absurd ?_ hne⟩
          cases hsome.symm.trans hw
          exact hme
        · simp only [Sound, hme, if_false]
          exact ⟨h, hsome⟩
    · cases hm
  | reached =>
    dsimp only [LocalRead.move] at hm
    split at hm
    · next member head todo hp =>
      rw [hp] at h
      obtain ⟨hreached, hm⟩ := Option.ite_none_right_eq_some.mp hm
      cases hm
      intro m t ht
      rcases h m t ht with he | hle
      · cases he
        exact le_cursor_of_reached hr hreached
      · exact hle
    · next writer token hp =>
      rw [hp] at h
      obtain ⟨hreached, hm⟩ := Option.ite_none_right_eq_some.mp hm
      cases hm
      refine ⟨h.1, fun w t hw _ => ?_⟩
      cases h.2.symm.trans hw
      exact le_cursor_of_reached hr hreached
    · cases hm
  | timeout =>
    dsimp only [LocalRead.move] at hm
    split at hm
    · cases hm
      trivial
    · cases hm
      trivial
    · cases hm
  | sample =>
    dsimp only [LocalRead.move] at hm
    split at hm
    · next hp =>
      rw [hp] at h
      cases hm
      exact ⟨hr, rfl, h⟩
    · cases hm
  | gate modeAllows =>
    dsimp only [LocalRead.move] at hm
    split at hm
    · next held hp =>
      rw [hp] at h
      cases hm
      by_cases hgate : r.bodyGeneration = x.fence.bodyGeneration ∧ r.mayServe = true ∧
          r.generation = x.fence.recoveryGeneration ∧ modeAllows = true
      · simp only [Sound, if_pos hgate]
        exact h
      · simp only [Sound, if_neg hgate]
        trivial
    · cases hm

theorem ReadNode.Inv.step {a : BarrierStep} (h : n.Inv alignCuts)
    (hs : n.step alignCuts a = some n') : n'.Inv alignCuts := by
  have hread : ∀ a, ((do
      let x ← (← n.read).move n.replica a
      return { n with read := some x }) : Option ReadNode) = some n' → n'.Inv alignCuts := by
    intro a hs
    obtain ⟨x, hx, hs⟩ := Option.bind_eq_some_iff.mp hs
    obtain ⟨x', hm, hs⟩ := Option.bind_eq_some_iff.mp hs
    cases hs
    refine ⟨h.replica, fun y hy => ?_⟩
    cases hy
    exact (h.sound x hx).move h.replica hm
  cases a with
  | node a =>
    obtain ⟨r', hr', rfl⟩ := Option.map_eq_some_iff.mp hs
    have ha := h.replica.advances hr'
    exact ⟨h.replica.step hr', fun x hx => (h.sound x hx).advances ha⟩
  | begin header =>
    cases hs
    refine ⟨h.replica, fun x hx => ?_⟩
    cases hx
    rfl
  | licence modeAllows members => exact hread (.licence modeAllows members) hs
  | next head => exact hread (.next head) hs
  | reached => exact hread .reached hs
  | timeout => exact hread .timeout hs
  | token => exact hread .token hs
  | sample => exact hread .sample hs
  | gate modeAllows => exact hread (.gate modeAllows) hs

omit [Layout] [ETagParser] in
def LocalRead.WaitsFor (x : LocalRead) (p : String) (t : WriteToken) : Prop :=
  (∃ head, (p, head) ∈ x.heads ∧ t ≤ head) ∨
    x.header = some (tokenHeader p t) ∧ t.epoch < 2 ^ 64 ∧ t.seq < 2 ^ 64

omit [Layout] [ETagParser] in
theorem LocalRead.WaitsFor.le_cursor {p : String} {t : WriteToken} (h : x.WaitsFor p t)
    (hp : p ≠ r.me) (ha : x.Awaited r) (hv : x.Verified r) : t ≤ r.cursor p := by
  rcases h with ⟨head, hhead, hle⟩ | ⟨hheader, hepoch, hseq⟩
  · exact hle.trans (ha p head hhead)
  · exact hv p t (by rw [hheader]; exact parseToken_tokenHeader p hepoch hseq) hp

section
variable {me : String} {writers : String → Sync.Writer} {steps : List BarrierStep} {held : Replica}

theorem inv_of_run (hnamed : (writers me).life.feed.me = me)
    (hopen : (writers me).life.sealed = false)
    (hrun : Machine.run (ReadNode.step alignCuts) { replica := .start me writers } steps = some n) :
    n.Inv alignCuts := by
  refine Machine.run_keeps hrun (fun _ _ _ h hs => h.step hs) ?_
  exact ⟨Replica.inv_start hnamed hopen, fun _ hx => (by cases hx)⟩

/-- Through every interleaving with the node's writes, its peers' restarts and gaps, rebuilds and
captures: a read answered from a synced bucket accounts for every write of the node's own, every
write at or before a head its barrier read, and the write whose token the client echoed. -/
theorem answered_index_is_fresh (hnamed : (writers me).life.feed.me = me)
    (hopen : (writers me).life.sealed = false)
    (hrun : Machine.run (ReadNode.step alignCuts) { replica := .start me writers } steps = some n)
    (hx : n.read = some x) (hanswered : x.phase.answer = some held) {p : String} {t : WriteToken}
    {event : IndexEvent} (hwrote : (held.writers p).Wrote t event)
    (hsynced : (held.index.bucket event.bucket).synced = true)
    (hwaits : p = held.me ∨ x.WaitsFor p t) :
    held.Accounts alignCuts event.bucket p t event := by
  have hsound := (inv_of_run hnamed hopen hrun).sound x hx
  unfold LocalRead.Sound at hsound
  rw [BarrierPhase.eq_answered hanswered] at hsound
  obtain ⟨hinv, -, hawaited, hverified⟩ := hsound
  refine hinv.accounts hsynced (le_trans ?_ (hinv.cursor_le_reach _ p)) hwrote
  by_cases hp : p = held.me
  · rw [hp] at hwrote ⊢
    rw [hinv.own]
    exact hwrote.le_last
  · exact (hwaits.resolve_left hp).le_cursor hp hawaited hverified

end

end

section Sample
local instance barrierLayout : Layout := sampleLayout
local instance barrierParser : ETagParser := sampleETagParser

def sampleBarrier : List BarrierStep :=
  [.node (.call (.call (.resync "b"))), .node (.call (.call (.finish "b" 1))), .node .reopen,
   .node (.publish "q" sampleFeedWrite), .begin (some "q:2:1"), .licence true ["p", "q"],
   .next none, .next (some ⟨1, 1⟩), .node (.take "q" (.wrote ⟨1, 1⟩ sampleFeedWrite)),
   .node .work, .node (.sealFeed "q"), .node .work, .node .work, .reached,
   .node (.restart "q" 2), .node (.publish "q" sampleFeedWrite), .token,
   .node (.take "q" (.sealed ⟨1, 2⟩)), .node .work, .node .work, .node .work,
   .node (.take "q" (.renewed ⟨1, 2⟩ 2)), .node .work, .node .work, .node .work,
   .node (.take "q" (.wrote ⟨2, 1⟩ sampleFeedWrite)), .node .work, .node .work, .node .work,
   .reached, .sample, .gate true]

def sampleReadNode : ReadNode :=
  (Machine.run (ReadNode.step fun _ _ => ⟨.exact, none⟩)
    { replica := .start "p" sampleWriters } sampleBarrier).get (by decide +kernel)

def sampleLocalRead : LocalRead := sampleReadNode.read.get (by decide +kernel)

def sampleHeld : Replica := sampleLocalRead.phase.answer.get (by decide +kernel)

theorem sampleReadNode_run : Machine.run (ReadNode.step fun _ _ => ⟨.exact, none⟩)
    { replica := .start "p" sampleWriters } sampleBarrier = some sampleReadNode :=
  (Option.some_get _).symm

theorem sampleReadNode_read : sampleReadNode.read = some sampleLocalRead :=
  (Option.some_get _).symm

theorem sampleLocalRead_answer : sampleLocalRead.phase.answer = some sampleHeld :=
  (Option.some_get _).symm

theorem sampleLocalRead_waits : sampleLocalRead.WaitsFor "q" ⟨2, 1⟩ :=
  .inr ⟨by decide +kernel, by decide, by decide⟩

theorem sampleHeld_wrote : (sampleHeld.writers "q").Wrote ⟨2, 1⟩ sampleFeedWrite := by
  decide +kernel

theorem answered_index_is_fresh_sample :
    sampleHeld.Accounts (fun _ _ => ⟨.exact, none⟩) "b" "q" ⟨2, 1⟩ sampleFeedWrite :=
  answered_index_is_fresh rfl rfl sampleReadNode_run sampleReadNode_read sampleLocalRead_answer
    sampleHeld_wrote (by decide +kernel) (.inr sampleLocalRead_waits)

end Sample

end S3Cache.Cache

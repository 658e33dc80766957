import S3Cache.Cache.Tail

/-! A planned stop (`cache/stop.rs`): admission of mutations is closed, the tails already admitted
finish, and then the write feed is sealed.  Mutations and stop calls are any number, and their
steps interleave freely. -/

namespace S3Cache.Cache

structure TailCount where
  running : Int := 0
  closed : Bool := false
  deriving DecidableEq

inductive StopCall where
  | draining
  | drained
  | over
  deriving DecidableEq

inductive FeedAct where
  | publish
  | sealed
  deriving DecidableEq

structure Stopping where
  count : TailCount := {}
  mutations : List MutationTail := []
  stops : List StopCall := []
  feed : List FeedAct := []
  deriving DecidableEq

/-- `publishes` says whether the work does in this step. -/
inductive StopEvent where
  | track (keys : List String)
  | tail (i : Nat) (t : TailStep) (publishes : Bool)
  | close
  | drained (j : Nat)
  | giveUp (j : Nat)
  | sealFeed (j : Nat)
  deriving DecidableEq

def TailHandler.guards : TailHandler → Nat
  | .tracked => 1
  | .shared => 2
  | .gone => 0
  | _ => 1

def Task.guards : Task → Nat
  | .working | .leaving _ => 1
  | .unspawned | .ended _ => 0

def MutationTail.guards (m : MutationTail) : Nat := m.handler.guards + m.task.guards

/-- What a step does to the count: `share` and the drops of a guard. -/
def TailStep.delta : TailStep → Int
  | .share => 1
  | .dropGuard | .leave => -1
  | _ => 0

def TailStep.publishes (works : Bool) : TailStep → Bool
  | .work => works
  | .announce | .advertise => true
  | _ => false

namespace Stopping

def guards (s : Stopping) : Nat := (s.mutations.map MutationTail.guards).sum

/-- `sync` says whether the node has a write feed. -/
def step (sync : Bool) (s : Stopping) : StopEvent → Option Stopping
  | .track keys =>
    if s.count.closed then some s
    else some { s with
      count.running := s.count.running + 1, mutations := s.mutations ++ [{ keys }] }
  | .tail i t works => do
    let m ← s.mutations[i]?
    let m' ← m.step t
    return { s with
      count.running := s.count.running + t.delta, mutations := s.mutations.set i m'
      feed := if sync ∧ t.publishes works then s.feed ++ [.publish] else s.feed }
  | .close => some { s with count.closed := true, stops := s.stops ++ [.draining] }
  | .drained j =>
    if s.stops[j]? = some .draining ∧ sync ∧ s.count.running = 0 then
      some { s with stops := s.stops.set j .drained }
    else none
  | .giveUp j =>
    if s.stops[j]? = some .draining then some { s with stops := s.stops.set j .over } else none
  | .sealFeed j =>
    if s.stops[j]? = some .drained then
      some { s with stops := s.stops.set j .over, feed := s.feed ++ [.sealed] }
    else none

end Stopping

theorem MutationTail.guards_step {m m' : MutationTail} {t : TailStep} (h : m.step t = some m') :
    0 < m.guards ∧ (m'.guards : Int) = m.guards + t.delta := by
  obtain ⟨keys, handler, task⟩ := m
  cases t with
  | share =>
    obtain ⟨rfl, h⟩ := Option.ite_none_right_eq_some.mp h
    cases h
    simp [guards, TailHandler.guards, TailStep.delta]
    omega
  | spawn =>
    obtain ⟨⟨rfl, rfl⟩, h⟩ := Option.ite_none_right_eq_some.mp h
    cases h
    simp [guards, TailHandler.guards, Task.guards, TailStep.delta]
  | work =>
    obtain ⟨rfl, h⟩ := Option.ite_none_right_eq_some.mp h
    cases h
    simp [guards, Task.guards, TailStep.delta]
  | stop died =>
    obtain ⟨rfl, h⟩ := Option.ite_none_right_eq_some.mp h
    cases h
    simp [guards, Task.guards, TailStep.delta]
  | dropGuard =>
    cases task <;> cases h
    simp [guards, Task.guards, TailStep.delta]
  | join =>
    cases handler <;> cases task with
    | ended died =>
      cases died <;> cases h <;> simp [guards, TailHandler.guards, Task.guards, TailStep.delta]
    | _ => cases h
  | announce =>
    cases handler with
    | announcing keys =>
      cases keys <;> cases h
      simp [guards, TailHandler.guards, TailStep.delta]
    | _ => cases h
  | advertise =>
    cases handler <;> cases h
    simp [guards, TailHandler.guards, TailStep.delta]
  | settle =>
    obtain ⟨rfl, h⟩ := Option.ite_none_right_eq_some.mp h
    cases h
    simp [guards, TailHandler.guards, TailStep.delta]
  | answer =>
    obtain ⟨rfl, h⟩ := Option.ite_none_right_eq_some.mp h
    cases h
    simp [guards, TailHandler.guards, TailStep.delta]
  | hangUp =>
    cases handler <;> cases h <;> simp [guards, TailHandler.guards, TailStep.delta]
  | leave =>
    obtain ⟨rfl, h⟩ := Option.ite_none_right_eq_some.mp h
    cases h
    simp [guards, TailHandler.guards, TailStep.delta]

namespace Stopping

variable {sync : Bool} {s s' : Stopping} {e : StopEvent}

theorem guards_set {i : Nat} {m : MutationTail} {l : List MutationTail} (h : l[i]? = some m)
    (m' : MutationTail) :
    (((l.set i m').map MutationTail.guards).sum : Int) =
      (l.map MutationTail.guards).sum + m'.guards - m.guards := by
  induction l generalizing i with
  | nil => simp at h
  | cons a l ih =>
    cases i with
    | zero =>
      obtain rfl : a = m := by simpa using h
      simp
      omega
    | succ i =>
      have := ih (i := i) (by simpa using h)
      simp only [List.set_cons_succ, List.map_cons, List.sum_cons, Nat.cast_add, this]
      omega

theorem guards_le {i : Nat} {m : MutationTail} (h : s.mutations[i]? = some m) : m.guards ≤ s.guards :=
  List.le_sum_of_mem (List.mem_map_of_mem (List.mem_of_getElem? h))

def Quiet (s : Stopping) : Prop := s.count.closed = true ∧ s.count.running = 0

structure Inv (s : Stopping) : Prop where
  counted : s.count.running = s.guards
  closed : s.stops ≠ [] → s.count.closed = true
  drained : .drained ∈ s.stops → s.Quiet
  sealed : .sealed ∈ s.feed → s.Quiet
  silent : s.feed.Pairwise fun a b => a = .sealed → b ≠ .publish

theorem inv_empty : Inv {} where
  counted := rfl
  closed h := absurd rfl h
  drained h := nomatch h
  sealed h := nomatch h
  silent := .nil

theorem Inv.not_quiet (h : Inv s) {i : Nat} {m m' : MutationTail} {t : TailStep}
    (hm : s.mutations[i]? = some m) (hstep : m.step t = some m') : ¬ s.Quiet := by
  rintro ⟨-, hzero⟩
  have hpos := (MutationTail.guards_step hstep).1
  have hle := guards_le hm
  have := h.counted
  omega

theorem mem_set_stops {j : Nat} {a b : StopCall} (h : a ∈ s.stops.set j b) : a ∈ s.stops ∨ a = b :=
  List.mem_or_eq_of_mem_set h

theorem Inv.tail (h : Inv s) {i : Nat} {m m' : MutationTail} {t : TailStep}
    (hm : s.mutations[i]? = some m) (hstep : m.step t = some m') {feed : List FeedAct}
    (hfeed : feed = s.feed ∨ feed = s.feed ++ [.publish]) :
    Inv { s with
      count.running := s.count.running + t.delta, mutations := s.mutations.set i m', feed } := by
  have hloud := h.not_quiet hm hstep
  have hunsealed : .sealed ∉ s.feed := fun hs => hloud (h.sealed hs)
  refine ⟨?_, h.closed, fun hd => absurd (h.drained hd) hloud, fun hs => ?_, ?_⟩
  · have hset := guards_set hm m'
    have hmove := (MutationTail.guards_step hstep).2
    have hcount := h.counted
    simp only [guards] at hcount ⊢
    omega
  · rcases hfeed with rfl | rfl
    · exact absurd hs hunsealed
    · exact absurd (by simpa using hs) hunsealed
  · rcases hfeed with rfl | rfl
    · exact h.silent
    · refine List.pairwise_append.mpr ⟨h.silent, List.pairwise_singleton _ _, fun a ha _ _ hs => ?_⟩
      exact absurd (hs ▸ ha) hunsealed

theorem Inv.step (h : Inv s) (hs : s.step sync e = some s') : Inv s' := by
  cases e with
  | track keys =>
    simp only [Stopping.step] at hs
    split at hs
    · cases hs
      exact h
    · next hopen =>
      cases hs
      have hloud : ¬ s.Quiet := fun hq => hopen hq.1
      refine ⟨?_, h.closed, fun hd => absurd (h.drained hd) hloud,
        fun hseal => absurd (h.sealed hseal) hloud, h.silent⟩
      have := h.counted
      simp only [guards] at this ⊢
      simp [this, MutationTail.guards, TailHandler.guards, Task.guards]
  | tail i t works =>
    obtain ⟨m, hm, hs⟩ := Option.bind_eq_some_iff.mp hs
    obtain ⟨m', hstep, hs⟩ := Option.bind_eq_some_iff.mp hs
    cases hs
    refine h.tail hm hstep ?_
    split
    · exact .inr rfl
    · exact .inl rfl
  | close =>
    cases hs
    refine ⟨h.counted, fun _ => rfl, fun hd => ?_, fun hseal => ⟨rfl, (h.sealed hseal).2⟩, h.silent⟩
    have hd : .drained ∈ s.stops := by simpa using hd
    exact ⟨rfl, (h.drained hd).2⟩
  | drained j =>
    obtain ⟨⟨hj, -, hzero⟩, hs⟩ := Option.ite_none_right_eq_some.mp hs
    cases hs
    have hclosed := h.closed (List.ne_nil_of_mem (List.mem_of_getElem? hj))
    exact ⟨h.counted, fun _ => hclosed, fun _ => ⟨hclosed, hzero⟩, h.sealed, h.silent⟩
  | giveUp j =>
    obtain ⟨hj, hs⟩ := Option.ite_none_right_eq_some.mp hs
    cases hs
    have hclosed := h.closed (List.ne_nil_of_mem (List.mem_of_getElem? hj))
    refine ⟨h.counted, fun _ => hclosed, fun hd => h.drained ?_, h.sealed, h.silent⟩
    exact (mem_set_stops hd).resolve_right nofun
  | sealFeed j =>
    obtain ⟨hj, hs⟩ := Option.ite_none_right_eq_some.mp hs
    cases hs
    have hquiet := h.drained (List.mem_of_getElem? hj)
    refine ⟨h.counted, fun _ => hquiet.1, fun _ => hquiet, fun _ => hquiet, ?_⟩
    exact List.pairwise_append.mpr ⟨h.silent, List.pairwise_singleton _ _, by simp⟩

theorem Quiet.step (hq : s.Quiet) (h : Inv s) (hs : s.step sync e = some s') : s'.Quiet := by
  cases e with
  | track keys =>
    simp only [Stopping.step, hq.1, if_true] at hs
    cases hs
    exact hq
  | tail i t works =>
    obtain ⟨m, hm, hs⟩ := Option.bind_eq_some_iff.mp hs
    obtain ⟨m', hstep, -⟩ := Option.bind_eq_some_iff.mp hs
    exact absurd hq (h.not_quiet hm hstep)
  | close =>
    cases hs
    exact ⟨rfl, hq.2⟩
  | drained j =>
    obtain ⟨-, hs⟩ := Option.ite_none_right_eq_some.mp hs
    cases hs
    exact hq
  | giveUp j =>
    obtain ⟨-, hs⟩ := Option.ite_none_right_eq_some.mp hs
    cases hs
    exact hq
  | sealFeed j =>
    obtain ⟨-, hs⟩ := Option.ite_none_right_eq_some.mp hs
    cases hs
    exact hq

/-- A planned stop never publishes after its seal.  Whatever mutations and stop calls run on a
node, in whatever order their steps come: the running count is the number of live guards and so
never negative, a count of zero stays zero once admission is closed, and the feed carries no
publication after a seal. -/
theorem sealed_feed_silent {events : List StopEvent}
    (h : Machine.run (Stopping.step sync) {} events = some s) :
    s.count.running = s.guards ∧ 0 ≤ s.count.running ∧
    (∀ events' s', s.count.closed = true → s.count.running = 0 →
      Machine.run (Stopping.step sync) s events' = some s' →
      s'.count.closed = true ∧ s'.count.running = 0) ∧
    s.feed.Pairwise fun a b => a = .sealed → b ≠ .publish := by
  have hinv : Inv s := Machine.run_keeps h (fun _ _ _ hi hs => hi.step hs) inv_empty
  refine ⟨hinv.counted, ?_, fun events' s' hclosed hzero hrun => ?_, hinv.silent⟩
  · rw [hinv.counted]
    exact Int.natCast_nonneg _
  · exact (Machine.run_keeps (P := fun t => Inv t ∧ t.Quiet) hrun
      (fun _ _ _ hp hs => ⟨hp.1.step hs, hp.2.step hp.1 hs⟩) ⟨hinv, hclosed, hzero⟩).2

def sampleStop : List StopEvent :=
  [.track ["k"], .tail 0 .share false, .tail 0 .spawn false, .tail 0 .hangUp false, .close,
   .tail 0 .leave false, .track ["l"], .tail 0 .work true, .tail 0 (.stop false) false,
   .tail 0 .dropGuard false, .drained 0, .sealFeed 0]

theorem sealed_feed_silent_sample :
    ∃ s, Machine.run (Stopping.step true) {} sampleStop = some s ∧
      s.feed = [.publish, .sealed] ∧ s.count.running = s.guards ∧
      s.feed.Pairwise fun a b => a = .sealed → b ≠ .publish := by
  have h : ∃ s, Machine.run (Stopping.step true) {} sampleStop = some s ∧
      s.feed = [.publish, .sealed] := ⟨_, rfl, rfl⟩
  obtain ⟨s, hrun, hfeed⟩ := h
  obtain ⟨hcount, -, -, hsilent⟩ := sealed_feed_silent hrun
  exact ⟨s, hrun, hfeed, hcount, hsilent⟩

end Stopping

end S3Cache.Cache

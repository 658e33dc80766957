import S3Cache.Cache.Batch
import S3Cache.Lib.Machine

/-! A mutation on a task of its own (`cache/stop.rs`): the task makes the origin call and records
what it did, the handler waits for the task and announces every key of one that died.  A client
that hangs up drops the handler at whatever it awaits. -/

namespace S3Cache.Cache

open Index KeyIndexState Fleet

/-! ### The handler and its task -/

inductive TailHandler where
  | tracked
  | shared
  | waiting
  | announcing (keys : List String)
  | advertising (keys : List String)
  | settling
  | leaving
  | gone
  deriving DecidableEq

inductive Task where
  | unspawned
  | working
  | leaving (died : Bool)
  | ended (died : Bool)
  deriving DecidableEq

structure MutationTail where
  keys : List String
  handler : TailHandler := .tracked
  task : Task := .unspawned
  deriving DecidableEq

inductive TailStep where
  | share
  | spawn
  | work
  | stop (died : Bool)
  | dropGuard
  | join
  | announce
  | advertise
  | settle
  | answer
  | hangUp
  | leave
  deriving DecidableEq

namespace MutationTail

def step (m : MutationTail) : TailStep → Option MutationTail
  | .share => if m.handler = .tracked then some { m with handler := .shared } else none
  | .spawn =>
    if m.handler = .shared ∧ m.task = .unspawned then
      some { m with handler := .waiting, task := .working }
    else none
  | .work => if m.task = .working then some m else none
  | .stop died => if m.task = .working then some { m with task := .leaving died } else none
  | .dropGuard =>
    match m.task with
    | .leaving died => some { m with task := .ended died }
    | _ => none
  | .join =>
    match m.handler, m.task with
    | .waiting, .ended false => some { m with handler := .leaving }
    | .waiting, .ended true => some { m with handler := .announcing m.keys }
    | _, _ => none
  | .announce =>
    match m.handler with
    | .announcing (_ :: keys) => some { m with handler := .advertising keys }
    | _ => none
  | .advertise =>
    match m.handler with
    | .advertising keys => some { m with handler := .announcing keys }
    | _ => none
  | .settle => if m.handler = .announcing [] then some { m with handler := .settling } else none
  | .answer => if m.handler = .settling then some { m with handler := .leaving } else none
  | .hangUp =>
    match m.handler with
    | .waiting | .advertising _ | .settling => some { m with handler := .leaving }
    | _ => none
  | .leave => if m.handler = .leaving then some { m with handler := .gone } else none

theorem keys_step {m m' : MutationTail} {t : TailStep} (h : m.step t = some m') :
    m'.keys = m.keys := by
  cases t <;> simp only [step] at h <;> (try split at h) <;> cases h <;> rfl

end MutationTail

/-! ### What the task does -/

structure OriginError where
  status : Option Nat
  noSuchUpload : Bool := false
  deriving DecidableEq

def uncertainMutationError (error : OriginError) (locallyVouched : Bool) : Option String :=
  match error.status with
  | none => some "origin response was unavailable"
  | some status =>
    if status = 412 ∧ locallyVouched then some "origin rejected a locally-vouched precondition"
    else if (500 ≤ status ∧ status < 600) ∨ status = 408 then
      some "origin returned an ambiguous server failure"
    else none

def uncertainCompletionError (error : OriginError) : Option String :=
  (uncertainMutationError error false).or
    (if error.noSuchUpload then
      some "the upload is gone; an earlier attempt may have completed it" else none)

def copyConflictNeedsReconcile (error : OriginError) (createOnly : Bool) : Bool :=
  createOnly && error.status = some 412

inductive MutationRequest where
  | put (key : String) (locallyVouched : Bool)
  | copy (key : String) (createOnly : Bool)
  | completeUpload (key : String)
  | delete (key : String) (versionId : Option String)
  | deleteBatch (objects : List ObjectIdentifier) (quiet : Bool)
  deriving DecidableEq

/-- The keys a handler gives to `mutation_tail`. -/
def MutationRequest.keys : MutationRequest → List String
  | .put key _ | .copy key _ | .completeUpload key | .delete key _ => [key]
  | .deleteBatch objects _ => objects.map (·.key)

def MutationRequest.uncertain (error : OriginError) : MutationRequest → Bool
  | .put _ locallyVouched => (uncertainMutationError error locallyVouched).isSome
  | .copy _ createOnly =>
    !copyConflictNeedsReconcile error createOnly && (uncertainMutationError error false).isSome
  | .completeUpload _ => (uncertainCompletionError error).isSome
  | .delete .. | .deleteBatch .. => (uncertainMutationError error false).isSome

def TailHandler.Announces (key : String) : TailHandler → Prop
  | .waiting => True
  | .announcing keys | .advertising keys => key ∈ keys
  | _ => False

inductive Answer where
  | failed (error : OriginError)
  | written (entry : ObjEntry)
  | deleted
  | batch (output : DeleteObjectsOutput)

inductive Effect where
  | put (entry : ObjEntry)
  | tombstone
  | fence

def recordedPut (entry : ObjEntry) : Effect :=
  if entry.etag.isNone ∧ entry.size.isNone then .fence else .put entry

def recordedDel (versionId : Option String) : Effect :=
  if versionId.isSome then .fence else .tombstone

def MutationRequest.plan (request : MutationRequest) : Answer → Option (List (String × Effect))
  | .failed error =>
    some (if request.uncertain error then request.keys.map (·, .fence) else [])
  | .written entry =>
    match request with
    | .put key _ | .copy key _ | .completeUpload key => some [(key, recordedPut entry)]
    | _ => none
  | .deleted =>
    match request with
    | .delete key versionId => some [(key, recordedDel versionId)]
    | _ => none
  | .batch output =>
    match request with
    | .deleteBatch objects quiet =>
      some ((objects.filter (applies quiet output ·.key)).map fun o =>
        (o.key, recordedDel o.versionId))
    | _ => none

def Effect.apply [Layout] (bucket key : String) (now : SystemTime) (w : Writer) :
    Effect → Option Writer
  | .put entry => some (w.recordPut bucket key entry now)
  | .tombstone => some (w.recordDel bucket key now)
  | .fence => w.announceUnknown bucket key now

def Shows (bucket key : String) (epoch : Nat) (now : SystemTime) (s : KeyIndexState) : Prop :=
  (∃ token ∈ (s.view bucket key).fence, epoch < token) ∨
    (∃ row ∈ (s.view bucket key).row, wireStamp now ≤ row.lastModified) ∨
    ∃ gone ∈ (s.view bucket key).gone, wireStamp now ≤ gone

theorem shows_putOver (v : KeyView) (first : Bool) (e : ObjEntry) :
    (∃ row ∈ (v.putOver first e).row, e.lastModified ≤ row.lastModified) ∨
      ∃ gone ∈ (v.putOver first e).gone, e.lastModified ≤ gone := by
  cases first with
  | true => exact .inl ⟨e, rfl, le_rfl⟩
  | false =>
    cases hr : v.refuses e.lastModified with
    | false =>
      refine .inl ⟨e, ?_, le_rfl⟩
      simp [KeyView.putOver, KeyView.put, hr]
    | true =>
      have hsame : v.putOver false e = v := if_pos hr
      rw [hsame]
      simp only [KeyView.refuses, Bool.or_eq_true, Option.any_eq_true, decide_eq_true_eq] at hr
      rcases hr with ⟨gone, hg, hle⟩ | ⟨row, hrow, hlt⟩
      · exact .inr ⟨gone, hg, hle⟩
      · exact .inl ⟨row, hrow, hlt.le⟩

theorem shows_delOver (v : KeyView) (first : Bool) (ts : SystemTime) :
    ∃ gone ∈ (v.delOver first ts).gone, ts ≤ gone := by
  rcases gone_delOver_cases v first ts with ⟨-, hgone⟩ | ⟨hno, hgone⟩
  · exact ⟨ts, hgone, le_rfl⟩
  · rw [not_or] at hno
    obtain ⟨gone, hg, hle⟩ := by simpa only [not_forall] using hno.2
    exact ⟨gone, hgone.trans hg, (not_le.mp hle).le⟩

theorem Effect.shows [Layout] {bucket key : String} {now : SystemTime} {w w' : Writer} {e : Effect}
    (h : e.apply bucket key now w = some w') :
    Shows bucket key (w.index.bucket bucket).uncertaintyEpoch now w'.index ∧
      (w.index.bucket bucket).uncertaintyEpoch ≤
        (w'.index.bucket bucket).uncertaintyEpoch := by
  cases e with
  | put entry =>
    cases h
    refine ⟨.inr ?_, (w.epoch_recordPut bucket key entry now).ge⟩
    rw [KeyIndexState.view, w.bucket_recordPut, BucketState.view_afterPut_self]
    exact shows_putOver ..
  | tombstone =>
    cases h
    refine ⟨.inr (.inr ?_), (w.epoch_recordDel bucket key now).ge⟩
    rw [w.view_recordDel, if_pos rfl]
    exact shows_delOver ..
  | fence =>
    refine ⟨.inl ⟨_, ?_, Nat.lt_succ_self _⟩, ?_⟩
    · rw [Writer.view_announceUnknown h, if_pos rfl]
      rfl
    · rw [Writer.epoch_announceUnknown h]
      exact Nat.le_succ _

inductive Work where
  | calling
  | recording (plan : List (String × Effect))

def Work.Leaves (key : String) : Work → Prop
  | .calling => True
  | .recording plan => key ∈ plan.map Prod.fst

/-- A key was recorded at `now`, which made the index what it is here. -/
structure Recorded where
  key : String
  now : SystemTime
  index : KeyIndexState

structure Tail where
  request : MutationRequest
  mutation : MutationTail := { keys := request.keys }
  writer : Writer
  work : Work := .calling
  changed : List String := []
  epoch : Nat := 0
  since : List Recorded := []

inductive TailEvent where
  | apply (keys : List String)
  | answered (answer : Answer)
  | record (now : SystemTime)
  | announce (now : SystemTime)
  | tail (t : TailStep)

def MutationRequest.Doubtful (error : OriginError) (request : MutationRequest) : Prop :=
  match error.status with
  | none => True
  | some status => status = 408 ∨ (500 ≤ status ∧ status ≤ 599) ∨
    match request with
    | .put _ vouched => status = 412 ∧ vouched = true
    | .completeUpload _ => error.noSuchUpload = true
    | _ => False

def MutationRequest.ToldBy (request : MutationRequest) (changed : List String) : Answer → Prop
  | .failed error => changed ≠ [] → request.Doubtful error
  | .written _ | .deleted => True
  | .batch output => ∀ key ∈ changed,
    match request with
    | .deleteBatch _ true => ∀ r ∈ output.errors.getD [], r.key ≠ some key
    | .deleteBatch _ false => ∃ r ∈ output.deleted.getD [], r.key = some key
    | _ => True

namespace Tail

variable [Layout] (bucket : String)

def record (s : Tail) (key : String) (e : Effect) (now : SystemTime) : Option Tail :=
  (e.apply bucket key now s.writer).map fun writer =>
    { s with writer, since := ⟨key, now, writer.index⟩ :: s.since }

def step (s : Tail) : TailEvent → Option Tail
  | .apply keys =>
    match s.work with
    | .calling =>
      if s.mutation.task = .working ∧ ∀ key ∈ keys, key ∈ s.request.keys then
        some { s with
          changed := s.changed ++ keys, since := []
          epoch := (s.writer.index.bucket bucket).uncertaintyEpoch }
      else none
    | .recording _ => none
  | .answered answer =>
    match s.work with
    | .calling =>
      if s.mutation.task = .working then
        (s.request.plan answer).map fun plan => { s with work := .recording plan }
      else none
    | .recording _ => none
  | .record now =>
    match s.work with
    | .recording ((key, e) :: plan) =>
      if s.mutation.task = .working then
        record bucket { s with work := .recording plan } key e now
      else none
    | _ => none
  | .announce now => do
    let mutation ← s.mutation.step .announce
    match s.mutation.handler with
    | .announcing (key :: _) => record bucket { s with mutation } key .fence now
    | _ => none
  | .tail .announce => none
  | .tail (.stop false) =>
    match s.work with
    | .recording [] => (s.mutation.step (.stop false)).map fun mutation => { s with mutation }
    | _ => none
  | .tail t => (s.mutation.step t).map fun mutation => { s with mutation }

/-- The key was put, tombstoned or fenced in the index since the origin last changed one. -/
def Told (s : Tail) (key : String) : Prop :=
  ∃ r ∈ s.since, r.key = key ∧ Shows bucket key s.epoch r.now r.index

omit bucket [Layout] in
/-- The answer tells of every key the origin changed, the task dies only while the handler waits
for it or with no changed key left to record, and the client of a dead task hangs up only once
every changed key it left was announced. -/
def Orderly (s : Tail) : TailEvent → Prop
  | .answered answer => s.request.ToldBy s.changed answer
  | .tail (.stop true) => s.mutation.handler = .waiting ∨ ∀ key ∈ s.changed, ¬ s.work.Leaves key
  | .tail .hangUp => (s.mutation.task ≠ .leaving true ∧ s.mutation.task ≠ .ended true) ∨
    ∀ key ∈ s.changed, s.work.Leaves key → ¬ s.mutation.handler.Announces key
  | _ => True

omit bucket [Layout] in
def Due (s : Tail) (key : String) : Prop :=
  s.work.Leaves key ∧
    match s.mutation.task with
    | .unspawned => False
    | .working => True
    | .leaving died | .ended died => died = true ∧ s.mutation.handler.Announces key

variable {bucket} {s s' : Tail} {key : String}

structure Kept (bucket : String) (s : Tail) : Prop where
  named : ∀ key ∈ s.changed, key ∈ s.mutation.keys
  keys : s.mutation.keys = s.request.keys
  epoch : s.epoch ≤ (s.writer.index.bucket bucket).uncertaintyEpoch
  due : ∀ key ∈ s.changed, s.Told bucket key ∨ s.Due key

theorem record_eq_some {e : Effect} {now : SystemTime}
    (h : s.epoch ≤ (s.writer.index.bucket bucket).uncertaintyEpoch)
    (hs : s.record bucket key e now = some s') :
    ∃ writer, s' = { s with writer, since := ⟨key, now, writer.index⟩ :: s.since } ∧
      s.epoch ≤ (writer.index.bucket bucket).uncertaintyEpoch ∧
      s'.Told bucket key ∧ ∀ k, s.Told bucket k → s'.Told bucket k := by
  obtain ⟨writer, hw, rfl⟩ := Option.map_eq_some_iff.mp hs
  obtain ⟨hshows, hle⟩ := Effect.shows hw
  refine ⟨writer, rfl, h.trans hle, ⟨_, List.mem_cons_self, rfl, ?_⟩, fun k hk => ?_⟩
  · exact hshows.imp_left fun ⟨token, ht, hlt⟩ => ⟨token, ht, h.trans_lt hlt⟩
  · obtain ⟨r, hr, hshown⟩ := hk
    exact ⟨r, List.mem_cons_of_mem _ hr, hshown⟩

omit [Layout] in
theorem Due.handler (handler : TailHandler) (h : s.Due key)
    (hh : s.mutation.handler.Announces key → handler.Announces key) :
    ({ s with mutation := { s.mutation with handler } } : Tail).Due key := by
  obtain ⟨hleft, htask⟩ := h
  refine ⟨hleft, ?_⟩
  dsimp only
  split at htask
  · exact htask.elim
  · trivial
  · exact htask.imp_right hh
  · exact htask.imp_right hh

omit [Layout] in
theorem due_tail {m : MutationTail} {t : TailStep} (hnamed : key ∈ s.mutation.keys)
    (hm : s.mutation.step t = some m) (hann : t ≠ .announce)
    (hstop : t = .stop false → s.work = .recording []) (hok : s.Orderly (.tail t))
    (hkey : key ∈ s.changed) (hdue : s.Due key) : ({ s with mutation := m } : Tail).Due key := by
  cases t with
  | share =>
    obtain ⟨hh, hm⟩ := Option.ite_none_right_eq_some.mp hm
    cases hm
    exact hdue.handler _ fun ha => by simp [hh, TailHandler.Announces] at ha
  | spawn =>
    obtain ⟨⟨-, htask⟩, -⟩ := Option.ite_none_right_eq_some.mp hm
    simp [Due, htask] at hdue
  | work =>
    obtain ⟨-, hm⟩ := Option.ite_none_right_eq_some.mp hm
    cases hm
    exact hdue
  | stop died =>
    obtain ⟨htask, hm⟩ := Option.ite_none_right_eq_some.mp hm
    cases hm
    cases died with
    | false => simp [Due, Work.Leaves, hstop rfl] at hdue
    | true =>
      rcases hok with hwaiting | hnone
      · exact ⟨hdue.1, rfl, by simp [hwaiting, TailHandler.Announces]⟩
      · exact absurd hdue.1 (hnone key hkey)
  | dropGuard =>
    simp only [MutationTail.step] at hm
    split at hm
    · next died htask =>
      cases hm
      simpa [Due, htask] using hdue
    · cases hm
  | join =>
    simp only [MutationTail.step] at hm
    split at hm
    · next hh htask => simp [Due, htask] at hdue
    · next hh htask =>
      cases hm
      exact hdue.handler _ fun _ => hnamed
    · cases hm
  | announce => exact absurd rfl hann
  | advertise =>
    simp only [MutationTail.step] at hm
    split at hm
    · next keys hh =>
      cases hm
      exact hdue.handler _ fun ha => by simpa [hh, TailHandler.Announces] using ha
    · cases hm
  | settle =>
    obtain ⟨hh, hm⟩ := Option.ite_none_right_eq_some.mp hm
    cases hm
    exact hdue.handler _ fun ha => by simp [hh, TailHandler.Announces] at ha
  | answer =>
    obtain ⟨hh, hm⟩ := Option.ite_none_right_eq_some.mp hm
    cases hm
    exact hdue.handler _ fun ha => by simp [hh, TailHandler.Announces] at ha
  | hangUp =>
    have hm : m = { s.mutation with handler := .leaving } := by
      simp only [MutationTail.step] at hm
      split at hm <;> cases hm <;> rfl
    subst hm
    obtain ⟨hleft, htask⟩ := hdue
    refine ⟨hleft, ?_⟩
    dsimp only
    split at htask
    · exact htask.elim
    · trivial
    -- a dead task's client leaves only what was announced
    · next ht =>
      obtain ⟨rfl, ha⟩ := htask
      rcases hok with ⟨hleaving, -⟩ | hnone
      · exact absurd ht hleaving
      · exact absurd ha (hnone key hkey hleft)
    · next ht =>
      obtain ⟨rfl, ha⟩ := htask
      rcases hok with ⟨-, hended⟩ | hnone
      · exact absurd ht hended
      · exact absurd ha (hnone key hkey hleft)
  | leave =>
    obtain ⟨hh, hm⟩ := Option.ite_none_right_eq_some.mp hm
    cases hm
    exact hdue.handler _ fun ha => by simp [hh, TailHandler.Announces] at ha

omit [Layout] in
theorem Kept.tail {m : MutationTail} {t : TailStep} (h : Kept bucket s)
    (hm : s.mutation.step t = some m) (hann : t ≠ .announce)
    (hstop : t = .stop false → s.work = .recording []) (hok : s.Orderly (.tail t)) :
    Kept bucket { s with mutation := m } where
  named key hkey := by
    rw [MutationTail.keys_step hm]
    exact h.named key hkey
  keys := (MutationTail.keys_step hm).trans h.keys
  epoch := h.epoch
  due key hkey := (h.due key hkey).imp_right
    (due_tail (h.named key hkey) hm hann hstop hok hkey)

end Tail

theorem MutationRequest.uncertain_of_doubtful {request : MutationRequest} {error : OriginError}
    (h : request.Doubtful error) : request.uncertain error = true := by
  obtain ⟨status, gone⟩ := error
  cases status with
  | none => cases request <;>
      simp [uncertain, uncertainMutationError, uncertainCompletionError, copyConflictNeedsReconcile]
  | some n =>
    have hserver : ∀ vouched, n = 408 ∨ (500 ≤ n ∧ n ≤ 599) →
        (uncertainMutationError ⟨some n, gone⟩ vouched).isSome = true := by
      intro vouched hn
      simp only [uncertainMutationError]
      split
      · rfl
      · rw [if_pos (by omega)]
        rfl
    rcases or_assoc.mpr h with hn | hn
    · have hconflict : ∀ only, copyConflictNeedsReconcile ⟨some n, gone⟩ only = false := by
        intro only
        have : n ≠ 412 := by omega
        simp [copyConflictNeedsReconcile, this]
      cases request with
      | completeUpload =>
        simp only [uncertain, uncertainCompletionError, Option.isSome_or, hserver false hn,
          Bool.true_or]
      | copy => simp only [uncertain, hconflict, hserver false hn, Bool.not_false, Bool.true_and]
      | _ => exact hserver _ hn
    · cases request with
      | put key vouched =>
        obtain ⟨rfl, rfl⟩ := hn
        rfl
      | completeUpload key =>
        have hn : gone = true := hn
        simp [uncertain, uncertainCompletionError, hn]
      | _ => exact hn.elim

theorem MutationRequest.ToldBy.planned {request : MutationRequest} {changed : List String}
    {answer : Answer} (h : request.ToldBy changed answer)
    (hnamed : ∀ key ∈ changed, key ∈ request.keys)
    {plan : List (String × Effect)} (hplan : request.plan answer = some plan) {key : String}
    (hkey : key ∈ changed) : key ∈ plan.map Prod.fst := by
  have hmem := hnamed key hkey
  cases answer with
  | failed error =>
    have hdoubtful := uncertain_of_doubtful (h (List.ne_nil_of_mem hkey))
    cases hplan
    simpa [hdoubtful] using hmem
  | written entry => cases request <;> cases hplan <;> simpa [keys] using hmem
  | deleted => cases request with
    | delete k versionId =>
      cases hplan
      simpa [keys] using hmem
    | _ => cases hplan
  | batch output =>
    cases request with
    | deleteBatch objects quiet =>
      cases hplan
      obtain ⟨o, ho, rfl⟩ := List.mem_map.mp hmem
      have ha : applies quiet output o.key = true := by
        have := h o.key hkey
        cases quiet with
        | true =>
          simp only [applies, if_true, Bool.not_eq_true', Bool.eq_false_iff, ne_eq, mem_reportedKeys]
          rintro ⟨version, hr⟩
          exact this _ hr rfl
        | false =>
          simp only [applies, Bool.false_eq_true, if_false, mem_reportedKeys]
          obtain ⟨⟨k, version⟩, hr, hk⟩ := this
          cases hk
          exact ⟨version, hr⟩
      exact List.mem_map.mpr ⟨_, List.mem_map.mpr ⟨o, List.mem_filter.mpr ⟨ho, ha⟩, rfl⟩, rfl⟩
    | _ => cases hplan

namespace Tail

variable [Layout] {bucket : String} {s s' : Tail}

theorem Kept.step {e : TailEvent} (h : Kept bucket s) (hok : s.Orderly e)
    (hs : s.step bucket e = some s') : Kept bucket s' := by
  cases e with
  | apply keys =>
    simp only [Tail.step] at hs
    split at hs
    · next hwork =>
      split at hs
      · next hcond =>
        cases hs
        refine ⟨fun key hkey => ?_, h.keys, le_rfl, fun key _ => .inr ?_⟩
        · rcases List.mem_append.mp hkey with hold | hnew
          · exact h.named key hold
          · rw [h.keys]
            exact hcond.2 key hnew
        · simp [Due, Work.Leaves, hcond.1, hwork]
      · cases hs
    · cases hs
  | answered answer =>
    simp only [Tail.step] at hs
    split at hs
    · next hwork =>
      split at hs
      · next htask =>
        obtain ⟨plan, hplan, rfl⟩ := Option.map_eq_some_iff.mp hs
        refine ⟨h.named, h.keys, h.epoch, fun key hkey => .inr ⟨?_, ?_⟩⟩
        · exact hok.planned (fun k hk => h.keys ▸ h.named k hk) hplan hkey
        · simp [htask]
      · cases hs
    · cases hs
  | record now =>
    simp only [Tail.step] at hs
    split at hs
    · next key e plan hwork =>
      split at hs
      · next htask =>
        obtain ⟨writer, rfl, hle, htold, hkeep⟩ :=
          record_eq_some (s := { s with work := .recording plan }) h.epoch hs
        refine ⟨h.named, h.keys, hle, fun k hk => ?_⟩
        rcases h.due k hk with ht | hdue
        · exact .inl (hkeep k ht)
        · by_cases hsame : k = key
          · subst hsame
            exact .inl htold
          · have hleft := hdue.1
            rw [hwork] at hleft
            exact .inr ⟨by simpa [Work.Leaves, hsame] using hleft, by simp [htask]⟩
      · cases hs
    · cases hs
  | announce now =>
    simp only [Tail.step] at hs
    obtain ⟨m, hm, hs⟩ := Option.bind_eq_some_iff.mp hs
    split at hs
    · next key keys hhandler =>
      obtain ⟨writer, rfl, hle, htold, hkeep⟩ :=
        record_eq_some (s := { s with mutation := m }) h.epoch hs
      simp only [MutationTail.step, hhandler, Option.some.injEq] at hm
      subst hm
      refine ⟨h.named, h.keys, hle, fun k hk => ?_⟩
      rcases h.due k hk with ht | hdue
      · exact .inl (hkeep k ht)
      · by_cases hsame : k = key
        · subst hsame
          exact .inl htold
        · have hnext := hdue.handler (.advertising keys) fun ha => by
            simpa [hhandler, TailHandler.Announces, hsame] using ha
          exact .inr hnext
    · cases hs
  | tail t =>
    by_cases hann : t = .announce
    · subst hann
      cases hs
    by_cases hstop : t = .stop false
    · subst hstop
      simp only [Tail.step] at hs
      split at hs
      · next hwork =>
        obtain ⟨m, hm, rfl⟩ := Option.map_eq_some_iff.mp hs
        exact h.tail hm hann (fun _ => hwork) hok
      · cases hs
    · have hs : (s.mutation.step t).map (fun mutation => { s with mutation }) = some s' := by
        cases t with
        | announce => exact absurd rfl hann
        | stop died =>
          cases died with
          | false => exact absurd rfl hstop
          | true => exact hs
        | _ => exact hs
      obtain ⟨m, hm, rfl⟩ := Option.map_eq_some_iff.mp hs
      exact h.tail hm hann (fun ht => absurd ht hstop) hok

/-- No applied mutation is stranded outside the index, if the answer tells of every changed key,
the task dies only while its handler waits or with none of them left to record, and a client whose
task has died hangs up only after the announcements: once the handler and its task are gone, every
key the origin changed has been put, tombstoned or fenced in the index since. -/
theorem applied_keys_told {request : MutationRequest} {writer : Writer} {events : List TailEvent}
    (h : Machine.Runs (step bucket) Orderly { request, writer } events s)
    {died : Bool} (htask : s.mutation.task = .ended died) (hhandler : s.mutation.handler = .gone) :
    ∀ key ∈ s.changed, s.Told bucket key := by
  have hkept : Kept bucket s := h.keeps (fun _ _ _ hk hok hs => hk.step hok hs)
    ⟨fun _ hkey => (by cases hkey), rfl, Nat.zero_le _, fun _ hkey => (by cases hkey)⟩
  intro key hkey
  rcases hkept.due key hkey with htold | hdue
  · exact htold
  · simp [Due, htask, hhandler, TailHandler.Announces] at hdue

end Tail

section
local instance tailLayout : Layout := sampleLayout

def tailWriter : Writer := ⟨{}, none, fun _ hf => by cases hf⟩

def diedBetween : List TailEvent :=
  [.tail .share, .tail .spawn, .apply ["k", "n"],
   .answered (.batch ⟨some [⟨some "k", none⟩, ⟨some "n", some "v1"⟩], none⟩), .record .unixEpoch,
   .tail (.stop true), .tail .dropGuard, .tail .join, .announce .unixEpoch, .tail .advertise,
   .announce .unixEpoch, .tail .advertise, .tail .settle, .tail .answer, .tail .leave]

def sampleBatch : MutationRequest := .deleteBatch [⟨"k", none⟩, ⟨"n", some "v1"⟩] false

def strandedDelete : List TailEvent :=
  [.tail .share, .tail .spawn, .tail .hangUp, .tail .leave, .apply ["k"], .tail (.stop true),
   .tail .dropGuard]

theorem applied_keys_told_sample :
    ∃ s, Machine.run (Tail.step "b") { request := sampleBatch, writer := tailWriter }
        diedBetween = some s ∧ s.since.length = 3 ∧ s.Told "b" "k" ∧ s.Told "b" "n" := by
  have hanswer : sampleBatch.ToldBy ["k", "n"]
      (.batch ⟨some [⟨some "k", none⟩, ⟨some "n", some "v1"⟩], none⟩) := by
    intro key hkey
    simpa [sampleBatch, eq_comm] using hkey
  have hruns : Machine.Runs (Tail.step "b") Tail.Orderly
      { request := sampleBatch, writer := tailWriter } diedBetween _ :=
    .cons trivial rfl <| .cons trivial rfl <| .cons trivial rfl <| .cons hanswer rfl <|
    .cons trivial rfl <| .cons (.inl rfl) rfl <| .cons trivial rfl <| .cons trivial rfl <|
    .cons trivial rfl <| .cons trivial rfl <| .cons trivial rfl <| .cons trivial rfl <|
    .cons trivial rfl <| .cons trivial rfl <| .cons trivial rfl <| .nil _
  have htold := Tail.applied_keys_told hruns rfl rfl
  exact ⟨_, hruns.run, rfl, htold "k" (by decide), htold "n" (by decide)⟩

theorem dead_task_without_waiter_strands :
    ∃ s, Machine.run (Tail.step "b") { request := .delete "k" none, writer := tailWriter }
        strandedDelete = some s ∧ s.mutation.task = .ended true ∧ s.mutation.handler = .gone ∧
      "k" ∈ s.changed ∧ ¬ s.Told "b" "k" := by
  refine ⟨_, rfl, rfl, rfl, by decide, ?_⟩
  rintro ⟨r, hr, -⟩
  cases hr

end

end S3Cache.Cache

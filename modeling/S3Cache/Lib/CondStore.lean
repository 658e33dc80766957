import Mathlib.Data.List.Basic
import Mathlib.Logic.Function.Basic
import Mathlib.Tactic.Common

/-! Programs over a shared store that creates each key at most once.  A put may be answered
before it takes effect, and an unanswered one may take effect at any later time or never.
Programs run one store operation at a time between any other moves; they are reasoned about by
what they may rely on and what they guarantee when they send a put. -/

namespace CondStore

variable {K V E ε α β : Type}

inductive Verdict where
  | created
  | occupied
  | unknown
  deriving DecidableEq

inductive Prog (K V E ε α : Type) where
  | ret (a : α)
  | fail (e : ε)
  | get (k : K) (next : Except E (Option V) → Prog K V E ε α)
  | put (k : K) (v : V) (next : Except E Verdict → Prog K V E ε α)

namespace Prog

def bind : Prog K V E ε α → (α → Prog K V E ε β) → Prog K V E ε β
  | .ret a, f => f a
  | .fail e, _ => .fail e
  | .get k next, f => .get k fun answer => (next answer).bind f
  | .put k v next, f => .put k v fun answer => (next answer).bind f

instance : Monad (Prog K V E ε) where
  pure := .ret
  bind := bind

def lift : Except ε α → Prog K V E ε α
  | .ok a => .ret a
  | .error e => .fail e

def read (onError : E → ε) (k : K) : Prog K V E ε (Option V) :=
  .get k fun
    | .ok value => .ret value
    | .error e => .fail (onError e)

def create (onError : E → ε) (k : K) (v : V) : Prog K V E ε Verdict :=
  .put k v fun
    | .ok verdict => .ret verdict
    | .error e => .fail (onError e)

def eval (store : K → Option V) : Prog K V E ε α → Except ε α
  | .ret a => .ok a
  | .fail e => .error e
  | .get k next => (next (.ok (store k))).eval store
  | .put _ _ next => (next (.ok .unknown)).eval store

section
variable (store : K → Option V)

@[simp] theorem eval_pure (a : α) : (pure a : Prog K V E ε α).eval store = .ok a := rfl

@[simp] theorem eval_fail (e : ε) : (fail e : Prog K V E ε α).eval store = .error e := rfl

@[simp] theorem eval_lift (x : Except ε α) : (lift x : Prog K V E ε α).eval store = x := by
  cases x <;> rfl

@[simp] theorem eval_read (onError : E → ε) (k : K) :
    (read onError k : Prog K V E ε (Option V)).eval store = .ok (store k) := rfl

@[simp] theorem eval_bind (p : Prog K V E ε α) (f : α → Prog K V E ε β) :
    (p >>= f).eval store = (p.eval store >>= fun a => (f a).eval store) := by
  change (p.bind f).eval store = _
  induction p with
  | ret a => rfl
  | fail e => rfl
  | get k next ih => exact ih _
  | put k v next ih => exact ih _

end

end Prog

structure Shared (K V : Type) where
  store : K → Option V
  sent : List (K × V)

namespace Shared

def empty : Shared K V := ⟨fun _ => none, []⟩

def send (s : Shared K V) (k : K) (v : V) : Shared K V := { s with sent := (k, v) :: s.sent }

def deliver [DecidableEq K] (s : Shared K V) (k : K) (v : V) : Shared K V :=
  match s.store k with
  | some _ => s
  | none => { s with store := Function.update s.store k (some v) }

structure Grows (s s' : Shared K V) : Prop where
  store : ∀ k v, s.store k = some v → s'.store k = some v
  sent : ∀ put ∈ s.sent, put ∈ s'.sent

theorem Grows.refl (s : Shared K V) : Grows s s := ⟨fun _ _ h => h, fun _ h => h⟩

theorem Grows.trans {s s' s'' : Shared K V} (h : Grows s s') (h' : Grows s' s'') : Grows s s'' :=
  ⟨fun k v hk => h'.store k v (h.store k v hk), fun put hp => h'.sent put (h.sent put hp)⟩

theorem grows_send (s : Shared K V) (k : K) (v : V) : Grows s (s.send k v) :=
  ⟨fun _ _ h => h, fun _ h => List.mem_cons_of_mem _ h⟩

section
variable [DecidableEq K] (s : Shared K V) (k : K) (v : V)

@[simp] theorem deliver_sent : (s.deliver k v).sent = s.sent := by
  unfold deliver
  split <;> rfl

theorem deliver_store {s : Shared K V} {k : K} {v : V} {a : K} {w : V}
    (h : (s.deliver k v).store a = some w) :
    s.store a = some w ∨ s.store a = none ∧ a = k ∧ w = v := by
  unfold deliver at h
  split at h
  · exact .inl h
  · next hk =>
    by_cases ha : a = k
    · subst ha
      refine .inr ⟨hk, rfl, ?_⟩
      simpa using h.symm
    · left
      simpa [Function.update_of_ne ha] using h

theorem grows_deliver : Grows s (s.deliver k v) where
  store a w h := by
    unfold deliver
    split
    · exact h
    · next hk =>
      have ha : a ≠ k := fun ha => by simp [ha, hk] at h
      simpa [Function.update_of_ne ha] using h
  sent put hp := by simpa using hp

end

def Truthful (s : Shared K V) (k : K) (v : V) : Verdict → Prop
  | .created => s.store k = some v
  | .occupied => (s.store k).isSome
  | .unknown => True

instance [DecidableEq V] (s : Shared K V) (k : K) (v : V) :
    DecidablePred (s.Truthful k v)
  | .created => inferInstanceAs (Decidable (s.store k = some v))
  | .occupied => inferInstanceAs (Decidable ((s.store k).isSome))
  | .unknown => isTrue trivial

end Shared

inductive Phase (K V E ε α : Type) where
  | ready (p : Prog K V E ε α)
  | awaiting (k : K) (v : V) (next : Except E Verdict → Prog K V E ε α)

inductive Move (E : Type) where
  | answer
  | send
  | verdict (w : Verdict)
  | error (e : E)
  deriving DecidableEq

namespace Phase

def Finished : Phase K V E ε α → Prop
  | .ready (.ret _) => True
  | .ready (.fail _) => True
  | _ => False

def move [DecidableEq V] (s : Shared K V) :
    Phase K V E ε α → Move E → Option (Phase K V E ε α × Shared K V)
  | .ready (.get k next), .answer => some (.ready (next (.ok (s.store k))), s)
  | .ready (.get _ next), .error e => some (.ready (next (.error e)), s)
  | .ready (.put k v next), .send => some (.awaiting k v next, s.send k v)
  | .awaiting k v next, .verdict w =>
    if s.Truthful k v w then some (.ready (next (.ok w)), s) else none
  | .awaiting _ _ next, .error e => some (.ready (next (.error e)), s)
  | _, _ => none

theorem grows_move [DecidableEq V] {p p' : Phase K V E ε α} {s s' : Shared K V} {m : Move E}
    (h : p.move s m = some (p', s')) : s.Grows s' := by
  match p, m with
  | .ready (.get k next), .answer =>
    cases h
    exact .refl s
  | .ready (.get k next), .error e =>
    cases h
    exact .refl s
  | .ready (.put k v next), .send =>
    cases h
    exact s.grows_send k v
  | .awaiting k v next, .verdict w =>
    simp only [move] at h
    split at h
    · cases h
      exact .refl s
    · cases h
  | .awaiting k v next, .error e =>
    cases h
    exact .refl s

end Phase

structure Contract (K V ε α : Type) where
  rely : Shared K V → Shared K V → Prop
  inv : Shared K V → Prop
  may : Shared K V → K → V → Prop
  returns : Shared K V → α → Prop
  fails : Shared K V → ε → Prop

structure Contract.Lawful (c : Contract K V ε α) : Prop where
  refl : ∀ s, c.rely s s
  trans : ∀ {s s' s''}, c.rely s s' → c.rely s' s'' → c.rely s s''
  returns : ∀ {s s' a}, c.rely s s' → c.returns s a → c.returns s' a
  fails : ∀ {s s' e}, c.rely s s' → c.fails s e → c.fails s' e

def Contract.with (c : Contract K V ε α) (returns : Shared K V → β → Prop) : Contract K V ε β :=
  { c with returns }

def Prog.Safe (c : Contract K V ε α) : Prog K V E ε α → Shared K V → Prop
  | .ret a, s => c.returns s a
  | .fail e, s => c.fails s e
  | .get k next, s => ∀ s', c.rely s s' → c.inv s' →
    (next (.ok (s'.store k))).Safe c s' ∧ ∀ e, (next (.error e)).Safe c s'
  | .put k v next, s => ∀ s', c.rely s s' → c.inv s' → c.may s' k v ∧
    ∀ s'', c.rely (s'.send k v) s'' → c.inv s'' →
      (∀ w, s''.Truthful k v w → (next (.ok w)).Safe c s'') ∧ ∀ e, (next (.error e)).Safe c s''

namespace Prog

theorem Safe.bind {c : Contract K V ε β} {Q : Shared K V → α → Prop} {p : Prog K V E ε α}
    {f : α → Prog K V E ε β} {s : Shared K V} (h : p.Safe (c.with Q) s)
    (hf : ∀ s a, Q s a → (f a).Safe c s) : (p >>= f).Safe c s := by
  change (p.bind f).Safe c s
  induction p generalizing s with
  | ret a => exact hf s a h
  | fail e => exact h
  | get k next ih => exact fun s' hr hi => ⟨ih _ (h s' hr hi).1, fun e => ih _ ((h s' hr hi).2 e)⟩
  | put k v next ih =>
    intro s' hr hi
    obtain ⟨hmay, hnext⟩ := h s' hr hi
    refine ⟨hmay, fun s'' hr' hi' => ?_⟩
    obtain ⟨hok, herr⟩ := hnext s'' hr' hi'
    exact ⟨fun w hw => ih _ (hok w hw), fun e => ih _ (herr e)⟩

theorem safe_lift {c : Contract K V ε α} {x : Except ε α} {s : Shared K V}
    (hok : ∀ a, x = .ok a → c.returns s a) (herr : ∀ e, x = .error e → c.fails s e) :
    (lift x : Prog K V E ε α).Safe c s := by
  cases x with
  | ok a => exact hok a rfl
  | error e => exact herr e rfl

theorem safe_read {c : Contract K V ε (Option V)} {onError : E → ε} {k : K} {s : Shared K V}
    (hok : ∀ s', c.rely s s' → c.inv s' → c.returns s' (s'.store k))
    (herr : ∀ s' e, c.fails s' (onError e)) :
    (read onError k : Prog K V E ε (Option V)).Safe c s :=
  fun s' hr hi => ⟨hok s' hr hi, fun e => herr s' e⟩

theorem safe_create {c : Contract K V ε Verdict} {onError : E → ε} {k : K} {v : V}
    {s : Shared K V} (hmay : ∀ s', c.rely s s' → c.inv s' → c.may s' k v)
    (hok : ∀ s' s'', c.rely s s' → c.inv s' → c.rely (s'.send k v) s'' → c.inv s'' →
      ∀ w, s''.Truthful k v w → c.returns s'' w)
    (herr : ∀ s' e, c.fails s' (onError e)) :
    (create onError k v : Prog K V E ε Verdict).Safe c s :=
  fun s' hr hi => ⟨hmay s' hr hi, fun s'' hr' hi' =>
    ⟨fun w hw => hok s' s'' hr hi hr' hi' w hw, fun e => herr s'' e⟩⟩

theorem Safe.later {c : Contract K V ε α} (hc : c.Lawful) {p : Prog K V E ε α}
    {s s' : Shared K V} (h : p.Safe c s) (hr : c.rely s s') : p.Safe c s' := by
  cases p with
  | ret a => exact hc.returns hr h
  | fail e => exact hc.fails hr h
  | get k next => exact fun s'' hr' hi => h s'' (hc.trans hr hr') hi
  | put k v next => exact fun s'' hr' hi => h s'' (hc.trans hr hr') hi

end Prog

namespace Phase

def Safe (c : Contract K V ε α) : Phase K V E ε α → Shared K V → Prop
  | .ready p, s => p.Safe c s
  | .awaiting k v next, s => ∀ s', c.rely s s' → c.inv s' →
    (∀ w, s'.Truthful k v w → (next (.ok w)).Safe c s') ∧ ∀ e, (next (.error e)).Safe c s'

theorem Safe.later {c : Contract K V ε α} (hc : c.Lawful) {p : Phase K V E ε α}
    {s s' : Shared K V} (h : p.Safe c s) (hr : c.rely s s') : p.Safe c s' := by
  cases p with
  | ready p => exact Prog.Safe.later hc h hr
  | awaiting k v next => exact fun s'' hr' hi => h s'' (hc.trans hr hr') hi

theorem Safe.finished {c : Contract K V ε α} {p : Phase K V E ε α} {s s' : Shared K V}
    (h : p.Safe c s) (hp : p.Finished) (hreturns : ∀ a, c.returns s a → c.returns s' a)
    (hfails : ∀ e, c.fails s e → c.fails s' e) : p.Safe c s' := by
  match p, hp with
  | .ready (.ret a), _ => exact hreturns a h
  | .ready (.fail e), _ => exact hfails e h

theorem Safe.move [DecidableEq V] {c : Contract K V ε α} (hc : c.Lawful)
    {p p' : Phase K V E ε α} {s s' : Shared K V} {m : Move E} (h : p.Safe c s) (hi : c.inv s)
    (hm : p.move s m = some (p', s')) :
    ¬ p.Finished ∧ ((s' = s ∧ p'.Safe c s) ∨
      ∃ k v, s' = s.send k v ∧ c.may s k v ∧ ∀ s'', c.rely s' s'' → c.inv s'' → p'.Safe c s'') := by
  match p, m with
  | .ready (.get k next), .answer =>
    cases hm
    exact ⟨id, .inl ⟨rfl, (h s (hc.refl s) hi).1⟩⟩
  | .ready (.get k next), .error e =>
    cases hm
    exact ⟨id, .inl ⟨rfl, (h s (hc.refl s) hi).2 e⟩⟩
  | .ready (.put k v next), .send =>
    cases hm
    obtain ⟨hmay, hnext⟩ := h s (hc.refl s) hi
    refine ⟨id, .inr ⟨k, v, rfl, hmay, fun s'' hr _ s₃ hr' hi' => ?_⟩⟩
    exact hnext s₃ (hc.trans hr hr') hi'
  | .awaiting k v next, .verdict w =>
    simp only [Phase.move] at hm
    split at hm
    · next hw =>
      cases hm
      exact ⟨id, .inl ⟨rfl, (h s (hc.refl s) hi).1 w hw⟩⟩
    · cases hm
  | .awaiting k v next, .error e =>
    cases hm
    exact ⟨id, .inl ⟨rfl, (h s (hc.refl s) hi).2 e⟩⟩

end Phase

end CondStore

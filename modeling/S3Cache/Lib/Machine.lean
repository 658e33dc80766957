import Mathlib.Data.List.Basic

/-! Machines with a partial step function, and the invariant rule for their runs.  A run may be
restricted to steps that meet a condition on the state they start in. -/

namespace Machine

variable {σ α : Type*} {step : σ → α → Option σ} {ok : σ → α → Prop} {s t : σ} {l : List α}

def run (step : σ → α → Option σ) (s : σ) (l : List α) : Option σ := l.foldlM step s

inductive Runs (step : σ → α → Option σ) (ok : σ → α → Prop) : σ → List α → σ → Prop where
  | nil (s : σ) : Runs step ok s [] s
  | cons {s t u : σ} {a : α} {l : List α} :
    ok s a → step s a = some t → Runs step ok t l u → Runs step ok s (a :: l) u

theorem Runs.keeps {P : σ → Prop} (h : Runs step ok s l t)
    (hstep : ∀ s a t, P s → ok s a → step s a = some t → P t) (h0 : P s) : P t := by
  induction h with
  | nil => exact h0
  | cons hok hs _ ih => exact ih (hstep _ _ _ h0 hok hs)

theorem Runs.mono {ok' : σ → α → Prop} (h : Runs step ok s l t) (hok : ∀ s a, ok s a → ok' s a) :
    Runs step ok' s l t := by
  induction h with
  | nil => exact .nil _
  | cons ha hs _ ih => exact .cons (hok _ _ ha) hs ih

theorem Runs.counts {P : Nat → σ → Prop} (h : Runs step ok s l t)
    (hstep : ∀ n s a t, P n s → ok s a → step s a = some t → P (n + 1) t) {n : Nat} (h0 : P n s) :
    P (n + l.length) t := by
  induction h generalizing n with
  | nil => exact h0
  | cons hok hs _ ih =>
    rw [List.length_cons, Nat.add_comm _ 1, ← Nat.add_assoc]
    exact ih (hstep _ _ _ _ h0 hok hs)

def collect {β : Type*} (step : σ → α → Option σ) (f : σ → α → List β) : σ → List α → List β
  | _, [] => []
  | s, a :: l => f s a ++ (step s a).elim [] (collect step f · l)

theorem collect_append {β : Type*} {f : σ → α → List β} {l' : List α} (h : Runs step ok s l t) :
    collect step f s (l ++ l') = collect step f s l ++ collect step f t l' := by
  induction h with
  | nil => rfl
  | cons _ hs _ ih =>
    simp only [List.cons_append, collect, hs, Option.elim_some, ih, List.append_assoc]

theorem Runs.collects {β : Type*} {f : σ → α → List β} {P : List β → σ → Prop}
    (h : Runs step ok s l t)
    (hstep : ∀ done s a t, P done s → ok s a → step s a = some t → P (done ++ f s a) t)
    (h0 : P [] s) : P (collect step f s l) t := by
  suffices H : ∀ done, P done s → P (done ++ collect step f s l) t from H [] h0
  clear h0
  induction h with
  | nil => simp [collect]
  | cons hok hs _ ih =>
    intro done hdone
    simp only [collect, hs, Option.elim_some, ← List.append_assoc]
    exact ih _ (hstep _ _ _ _ hdone hok hs)

theorem runs_of_run (h : run step s l = some t) : Runs step (fun _ _ => True) s l t := by
  induction l generalizing s with
  | nil =>
    cases h
    exact .nil _
  | cons a l ih =>
    obtain ⟨u, hs, hr⟩ := Option.bind_eq_some_iff.mp h
    exact .cons trivial hs (ih hr)

theorem Runs.run (h : Runs step ok s l t) : run step s l = some t := by
  induction h with
  | nil => rfl
  | cons _ hs _ ih => exact Option.bind_eq_some_iff.mpr ⟨_, hs, ih⟩

def guarded (step : σ → α → Option σ) (ok : σ → α → Prop) [∀ s a, Decidable (ok s a)] (s : σ)
    (a : α) : Option σ := if ok s a then step s a else none

theorem runs_of_run_guarded [∀ s a, Decidable (ok s a)] (h : run (guarded step ok) s l = some t) :
    Runs step ok s l t := by
  induction l generalizing s with
  | nil =>
    cases h
    exact .nil _
  | cons a l ih =>
    obtain ⟨u, hs, hr⟩ := Option.bind_eq_some_iff.mp h
    obtain ⟨hok, hs⟩ := Option.ite_none_right_eq_some.mp hs
    exact .cons hok hs (ih hr)

theorem Runs.append {l' : List α} {u : σ} (h : Runs step ok s l t) (h' : Runs step ok t l' u) :
    Runs step ok s (l ++ l') u := by
  induction h with
  | nil => exact h'
  | cons hok hs _ ih => exact .cons hok hs (ih h')

def watched (step : σ → α → Option σ) (mark : σ → α → Bool) (x : σ × Bool) (a : α) :
    Option (σ × Bool) := (step x.1 a).map (·, x.2 || mark x.1 a)

theorem watched_eq_some {mark : σ → α → Bool} {x y : σ × Bool} {a : α} :
    watched step mark x a = some y ↔ step x.1 a = some y.1 ∧ y.2 = (x.2 || mark x.1 a) := by
  rw [watched, Option.map_eq_some_iff]
  constructor
  · rintro ⟨t, hs, rfl⟩
    exact ⟨hs, rfl⟩
  · rintro ⟨hs, hy⟩
    exact ⟨y.1, hs, Prod.ext rfl hy.symm⟩

theorem collect_watched {β : Type*} {f : σ → α → List β} (mark : σ → α → Bool) (x : σ × Bool) :
    collect (watched step mark) (fun x => f x.1) x l = collect step f x.1 l := by
  induction l generalizing x with
  | nil => rfl
  | cons a l ih =>
    simp only [collect, watched]
    cases step x.1 a with
    | none => rfl
    | some t => exact congrArg (f x.1 a ++ ·) (ih _)

theorem run_keeps {P : σ → Prop} (h : run step s l = some t)
    (hstep : ∀ s a t, P s → step s a = some t → P t) (h0 : P s) : P t :=
  (runs_of_run h).keeps (fun s a t hp _ => hstep s a t hp) h0

end Machine

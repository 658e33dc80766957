import Mathlib.Data.List.Basic
import Mathlib.Tactic.Common

/-! Computations that may refuse: taking a successful bind apart, and loops whose body may
refuse. -/

namespace Fallible

variable {ε α β σ : Type}

@[simp] theorem bind_ok (a : α) (f : α → Except ε β) : (Except.ok a >>= f) = f a := rfl

@[simp] theorem bind_error (e : ε) (f : α → Except ε β) :
    ((Except.error e : Except ε α) >>= f) = .error e := rfl

theorem bind_eq_ok {x : Except ε α} {f : α → Except ε β} {b : β} :
    (x >>= f) = .ok b ↔ ∃ a, x = .ok a ∧ f a = .ok b := by
  cases x <;> simp

theorem map_eq_ok {x : Except ε α} {f : α → β} {b : β} :
    (f <$> x) = .ok b ↔ ∃ a, x = .ok a ∧ f a = b := by
  cases x <;> simp [Functor.map, Except.map]

theorem ite_error_eq_ok {p : Prop} [Decidable p] {e : ε} {x : Except ε α} {a : α} :
    (if p then .error e else x) = .ok a ↔ ¬ p ∧ x = .ok a := by
  split <;> simp_all

theorem eq_ok_get {x : Except ε α} (h : x.toOption.isSome = true) : x = .ok (x.toOption.get h) := by
  cases x with
  | error e => cases h
  | ok a => rfl

def iterate (step : σ → Except ε σ) : Nat → σ → Except ε σ
  | 0, s => .ok s
  | n + 1, s => step s >>= iterate step n

theorem iterate_runs {f : σ → Except ε σ} {P : List α → σ → Prop}
    (hstep : ∀ x xs s, P (x :: xs) s → ∃ s', f s = .ok s' ∧ P xs s')
    {xs : List α} {s : σ} (h : P xs s) :
    ∃ s', iterate f xs.length s = .ok s' ∧ P [] s' := by
  induction xs generalizing s with
  | nil => exact ⟨s, rfl, h⟩
  | cons x xs ih =>
    obtain ⟨t, ht, hp⟩ := hstep x xs s h
    obtain ⟨s', hs, hp'⟩ := ih hp
    exact ⟨s', by simpa [iterate, ht] using hs, hp'⟩

theorem iterate_lists {f : σ → Except ε σ} {P : List α → σ → Prop}
    (hstep : ∀ done s s', P done s → f s = .ok s' → ∃ x, P (done ++ [x]) s')
    {n : Nat} {s s' : σ} (h0 : P [] s) (h : iterate f n s = .ok s') :
    ∃ xs, xs.length = n ∧ P xs s' := by
  suffices H : ∀ n done s, P done s → iterate f n s = .ok s' →
      ∃ xs, xs.length = done.length + n ∧ P xs s' by simpa using H n [] s h0 h
  intro n
  induction n with
  | zero =>
    intro done s hp hs
    obtain rfl : s = s' := by simpa [iterate] using hs
    exact ⟨done, rfl, hp⟩
  | succ n ih =>
    intro done s hp hs
    obtain ⟨t, ht, hs⟩ := bind_eq_ok.mp hs
    obtain ⟨x, hx⟩ := hstep done s t hp ht
    obtain ⟨xs, hlen, hxs⟩ := ih (done ++ [x]) t hx hs
    exact ⟨xs, by rw [hlen, List.length_append, List.length_singleton]; omega, hxs⟩

theorem iterate_keeps {f : σ → Except ε σ} {P : Nat → σ → Prop}
    (hstep : ∀ i s s', P i s → f s = .ok s' → P (i + 1) s')
    {n : Nat} {s s' : σ} (h0 : P 0 s) (h : iterate f n s = .ok s') : P n s' := by
  obtain ⟨xs, rfl, hxs⟩ := iterate_lists (P := fun (done : List Unit) t => P done.length t)
    (fun done t t' ht ht' => ⟨(), by rw [List.length_append]; exact hstep _ t t' ht ht'⟩) h0 h
  exact hxs

theorem foldlM_runs {f : σ → α → Except ε σ} {P : σ → Prop} {xs : List α}
    (hstep : ∀ x ∈ xs, ∀ s, P s → ∃ s', f s x = .ok s' ∧ P s') {s : σ} (h : P s) :
    ∃ s', xs.foldlM f s = .ok s' ∧ P s' := by
  induction xs generalizing s with
  | nil => exact ⟨s, rfl, h⟩
  | cons x xs ih =>
    obtain ⟨t, ht, hp⟩ := hstep x List.mem_cons_self s h
    obtain ⟨s', hs, hp'⟩ := ih (fun y hy => hstep y (List.mem_cons_of_mem x hy)) hp
    exact ⟨s', by rw [List.foldlM_cons, ht]; exact hs, hp'⟩

theorem foldlM_eq_error {f : σ → α → Except ε σ} {xs : List α} {s : σ} {e : ε}
    (h : xs.foldlM f s = .error e) : ∃ t, ∃ x ∈ xs, f t x = .error e := by
  induction xs generalizing s with
  | nil => cases h
  | cons x xs ih =>
    cases hx : f s x with
    | error e' =>
      rw [List.foldlM_cons, hx] at h
      cases h
      exact ⟨s, x, List.mem_cons_self, hx⟩
    | ok t =>
      rw [List.foldlM_cons, hx] at h
      obtain ⟨t', y, hy, hf⟩ := ih h
      exact ⟨t', y, List.mem_cons_of_mem x hy, hf⟩

theorem foldlM_snoc {f : σ → α → Except ε σ} {xs : List α} {x : α} {s t u : σ}
    (h : xs.foldlM f s = .ok t) (hx : f t x = .ok u) : (xs ++ [x]).foldlM f s = .ok u := by
  rw [List.foldlM_append, h, bind_ok, List.foldlM_cons, hx]
  rfl

theorem foldlM_keeps {f : σ → α → Except ε σ} {P : List α → σ → Prop} {xs : List α}
    (hstep : ∀ done x s s', done ++ [x] <+: xs → P done s → f s x = .ok s' → P (done ++ [x]) s')
    {s s' : σ} (h0 : P [] s) (h : xs.foldlM f s = .ok s') : P xs s' := by
  suffices H : ∀ rest done s, done ++ rest = xs → P done s →
      rest.foldlM f s = .ok s' → P xs s' from H xs [] s rfl h0 h
  intro rest
  induction rest with
  | nil =>
    intro done s hd hp hf
    obtain rfl : done = xs := by simpa using hd
    obtain rfl : s = s' := by simpa [pure, Except.pure] using hf
    exact hp
  | cons x rest ih =>
    intro done s hd hp hf
    rw [List.foldlM_cons, bind_eq_ok] at hf
    obtain ⟨t, ht, hf⟩ := hf
    have hd' : (done ++ [x]) ++ rest = xs := by simpa using hd
    exact ih (done ++ [x]) t hd' (hstep done x s t ⟨rest, hd'⟩ hp ht) hf

theorem foldlM_follows {f g : σ → α → Except ε σ} {P : σ → Prop} {xs : List α}
    (hstep : ∀ x ∈ xs, ∀ s s', P s → f s x = .ok s' → g s x = .ok s' ∧ P s') {s s' : σ}
    (h0 : P s) (h : xs.foldlM f s = .ok s') : xs.foldlM g s = .ok s' := by
  induction xs generalizing s with
  | nil => exact h
  | cons x xs ih =>
    rw [List.foldlM_cons, bind_eq_ok] at h
    obtain ⟨t, ht, h⟩ := h
    obtain ⟨hg, hp⟩ := hstep x List.mem_cons_self s t h0 ht
    rw [List.foldlM_cons, hg, bind_ok]
    exact ih (fun y hy => hstep y (List.mem_cons_of_mem x hy)) hp h

theorem forM_eq_ok {f : α → Except ε Unit} {xs : List α} (h : xs.forM f = .ok ()) :
    ∀ x ∈ xs, f x = .ok () := by
  induction xs with
  | nil => nofun
  | cons x xs ih =>
    obtain ⟨_, hx, hxs⟩ := bind_eq_ok.mp h
    exact List.forall_mem_cons.mpr ⟨hx, ih hxs⟩

def collect (f : α → Except ε (Option β)) : List α → Except ε (List β)
  | [] => .ok []
  | x :: xs => do
    let kept ← f x
    let rest ← collect f xs
    return kept.toList ++ rest

theorem collect_eq_ok {f : α → Except ε (Option β)} {xs : List α} {ys : List β}
    (h : collect f xs = .ok ys) :
    (∀ x ∈ xs, ∃ kept, f x = .ok kept) ∧ ∀ y, y ∈ ys ↔ ∃ x ∈ xs, f x = .ok (some y) := by
  induction xs generalizing ys with
  | nil =>
    cases h
    simp
  | cons x xs ih =>
    simp only [collect, bind_eq_ok] at h
    obtain ⟨kept, hk, rest, hr, h⟩ := h
    cases h
    obtain ⟨hall, hmem⟩ := ih hr
    refine ⟨by simpa [hk] using hall, fun y => ?_⟩
    simp [hmem, hk]

end Fallible

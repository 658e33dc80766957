import Mathlib.Data.List.Lex
import Mathlib.Data.List.Infix
import Mathlib.Order.Lattice

/-! Words in lexicographic order.  The words with a given prefix stand together, and a word cut
after the first occurrence of a pattern is cut the same way in every word it begins. -/

namespace Lex

variable {α : Type*}

section Order

variable [LinearOrder α] {p a b c : List α}

theorem le_of_isPrefix (h : p <+: a) : p ≤ a := by
  obtain ⟨q, rfl⟩ := h
  induction p with
  | nil => exact not_lt.mp (List.not_lt_nil _)
  | cons x p ih => exact List.cons_le_cons x ih

theorem append_lt (h : p < a) (hn : ¬ p <+: a) (q : List α) : p ++ q < a := by
  induction p generalizing a with
  | nil => exact absurd List.nil_prefix hn
  | cons x p ih =>
    cases a with
    | nil => exact absurd h (List.not_lt_nil _)
    | cons y a =>
      rcases List.cons_lt_cons_iff.mp h with hxy | ⟨rfl, hlt⟩
      · exact List.cons_lt_cons_iff.mpr (.inl hxy)
      · have hn' : ¬ p <+: a := fun hp => hn (List.cons_prefix_cons.mpr ⟨rfl, hp⟩)
        exact List.cons_lt_cons_iff.mpr (.inr ⟨rfl, ih hlt hn'⟩)

theorem isPrefix_of_le (hpb : p ≤ b) (hbc : b ≤ c) (hc : p <+: c) : p <+: b := by
  by_contra hn
  obtain ⟨q, rfl⟩ := hc
  have hlt : p < b := lt_of_le_of_ne hpb fun he => hn (he ▸ List.prefix_rfl)
  exact absurd (append_lt hlt hn q) hbc.not_gt

end Order

section Find

variable [DecidableEq α] {d l l' c : List α}

def find (d : List α) : List α → Option Nat
  | [] => if d = [] then some 0 else none
  | a :: l => if d <+: a :: l then some 0 else (find d l).map (· + 1)

def cut (d l : List α) : Option (List α) := (find d l).map fun i => l.take (i + d.length)

theorem cut_cons (d : List α) (a : α) (l : List α) :
    cut d (a :: l) = if d <+: a :: l then some d else (cut d l).map (a :: ·) := by
  rw [cut, find]
  split
  · next h => simpa using (List.prefix_iff_eq_take.mp h).symm
  · rw [cut, Option.map_map, Option.map_map]
    congr 1
    funext i
    simp [Nat.add_right_comm]

theorem find_singleton {a : α} (h : a ∉ l) (r : List α) :
    find [a] (l ++ a :: r) = some l.length := by
  induction l with
  | nil => simp [find]
  | cons b l ih =>
    have hne : ¬ [a] <+: b :: (l ++ a :: r) := by
      rw [List.cons_prefix_cons]
      exact fun hp => h (hp.1 ▸ List.mem_cons_self)
    rw [List.cons_append, find, if_neg hne, ih (List.not_mem_of_not_mem_cons h)]
    rfl

theorem cut_nil (h : d ≠ []) : cut d [] = none := by rw [cut, find, if_neg h]; rfl

theorem isPrefix_of_cut (h : cut d l = some c) : c <+: l := by
  obtain ⟨i, -, rfl⟩ := Option.map_eq_some_iff.mp h
  exact List.take_prefix _ _

theorem isSuffix_of_cut (h : cut d l = some c) : d <:+ c := by
  induction l generalizing c with
  | nil =>
    obtain rfl | hd := eq_or_ne d []
    · exact List.nil_suffix
    · rw [cut_nil hd] at h
      cases h
  | cons a l ih =>
    rw [cut_cons] at h
    split at h
    · cases h
      exact List.suffix_rfl
    · obtain ⟨c, hcut, rfl⟩ := Option.map_eq_some_iff.mp h
      exact (ih hcut).trans (List.suffix_cons a c)

theorem cut_shortest (hp : c <+: l) (hs : d <:+ c) : ∃ c' ∈ cut d l, c'.length ≤ c.length := by
  induction l generalizing c with
  | nil =>
    obtain rfl := List.prefix_nil.mp hp
    obtain rfl := List.suffix_nil.mp hs
    exact ⟨[], rfl, le_rfl⟩
  | cons a l ih =>
    rw [cut_cons]
    split
    · exact ⟨d, rfl, hs.length_le⟩
    · next hn =>
      rcases c with _ | ⟨b, c⟩
      · exact absurd (List.suffix_nil.mp hs ▸ List.nil_prefix) hn
      · obtain ⟨rfl, hp'⟩ := List.cons_prefix_cons.mp hp
        rcases List.suffix_cons_iff.mp hs with rfl | hs'
        · exact absurd hp hn
        · obtain ⟨c', hc', hlen⟩ := ih hp' hs'
          exact ⟨b :: c', Option.mem_map_of_mem _ hc', Nat.succ_le_succ hlen⟩

theorem cut_eq_some_iff : cut d l = some c ↔
    c <+: l ∧ d <:+ c ∧ ∀ c', c' <+: l → d <:+ c' → c.length ≤ c'.length := by
  constructor
  · intro h
    refine ⟨isPrefix_of_cut h, isSuffix_of_cut h, fun c' hp hs => ?_⟩
    obtain ⟨c₁, hc₁, hlen⟩ := cut_shortest hp hs
    obtain rfl : c = c₁ := Option.some.inj (h.symm.trans hc₁)
    exact hlen
  · rintro ⟨hp, hs, hmin⟩
    obtain ⟨c', hc', hlen⟩ := cut_shortest hp hs
    have hp' := isPrefix_of_cut hc'
    have hle := hmin c' hp' (isSuffix_of_cut hc')
    rw [hc', (List.prefix_of_prefix_length_le hp' hp hlen).eq_of_length (le_antisymm hlen hle)]

theorem cut_of_isPrefix (h : cut d l = some c) (hc : c <+: l') : cut d l' = some c := by
  obtain ⟨hp, hs, hmin⟩ := cut_eq_some_iff.mp h
  refine cut_eq_some_iff.mpr ⟨hc, hs, fun c' hp' hs' => ?_⟩
  by_contra hlt
  -- a shorter one would begin the first word too
  have hcc : c' <+: c := List.prefix_of_prefix_length_le hp' hc (by omega)
  exact hlt (hmin c' (hcc.trans hp) hs')

end Find

end Lex

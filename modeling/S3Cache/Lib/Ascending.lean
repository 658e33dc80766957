import Mathlib.Data.List.Basic
import Mathlib.Order.Lattice
import Mathlib.Tactic.Common

/-! Strictly ascending lists built at their end, each new item checked against the last one
only. -/

namespace Ascending

variable {α : Type} [LinearOrder α]

structure Ascends (xs : List α) (last : Option α) : Prop where
  pairwise : xs.Pairwise (· < ·)
  last : xs.getLast? = last

theorem Ascends.nil : Ascends ([] : List α) none := ⟨.nil, rfl⟩

theorem Ascends.lt {xs : List α} {last : Option α} {x : α} (h : Ascends xs last)
    (hx : ∀ y ∈ last, y < x) : ∀ y ∈ xs, y < x := by
  obtain ⟨hp, rfl⟩ := h
  intro y hy
  rcases xs.eq_nil_or_concat' with rfl | ⟨ys, z, rfl⟩
  · cases hy
  · have hz : z < x := hx z (by simp)
    rcases List.mem_append.mp hy with hy | hy
    · have hyz : y < z := (List.pairwise_append.mp hp).2.2 y hy z (by simp)
      exact hyz.trans hz
    · exact (List.mem_singleton.mp hy) ▸ hz

theorem Ascends.snoc {xs : List α} {last : Option α} {x : α} (h : Ascends xs last)
    (hx : ∀ y ∈ last, y < x) : Ascends (xs ++ [x]) (some x) where
  pairwise := List.pairwise_append.mpr
    ⟨h.pairwise, List.pairwise_singleton _ x, by simpa using h.lt hx⟩
  last := by simp

end Ascending

import Mathlib.Data.Set.Basic
import Mathlib.Order.Basic

/-! Parties that wait for resources others hold.  When everyone takes resources in one order,
nobody is ever stuck in a set that waits only for itself. -/

namespace LockOrder

variable {P R : Type*} {wants : P → Option R} {holder : R → Option P} {rank : R → Nat}

def Deadlocked (wants : P → Option R) (holder : R → Option P) (S : Set P) : Prop :=
  ∀ p ∈ S, ∃ r q, wants p = some r ∧ holder r = some q ∧ q ∈ S

def Ordered (wants : P → Option R) (holder : R → Option P) (rank : R → Nat) : Prop :=
  ∀ p r r', wants p = some r → holder r' = some p → rank r' < rank r

theorem not_deadlocked (hord : Ordered wants holder rank) {bound : Nat}
    (hbound : ∀ p r, wants p = some r → rank r < bound) {S : Set P} (hS : S.Nonempty) :
    ¬ Deadlocked wants holder S := by
  intro hdead
  -- the resource waited for next always has a higher rank, and the ranks are bounded
  have hclimb : ∀ n, ∃ p ∈ S, ∃ r, wants p = some r ∧ n ≤ rank r := by
    intro n
    induction n with
    | zero =>
      obtain ⟨p, hp⟩ := hS
      obtain ⟨r, -, hw, -⟩ := hdead p hp
      exact ⟨p, hp, r, hw, Nat.zero_le _⟩
    | succ n ih =>
      obtain ⟨p, hp, r, hw, hn⟩ := ih
      obtain ⟨r', q, hw', hh, hq⟩ := hdead p hp
      obtain rfl : r = r' := Option.some.inj (hw.symm.trans hw')
      obtain ⟨r₂, -, hw₂, -⟩ := hdead q hq
      exact ⟨q, hq, r₂, hw₂, hn.trans_lt (hord q r₂ r hw₂ hh)⟩
  obtain ⟨p, -, r, hw, hn⟩ := hclimb bound
  exact absurd (hbound p r hw) hn.not_gt

end LockOrder

import Mathlib

/-! Lookups in an extensional tree map whose keys compare equal only when they are equal. -/

namespace TreeMap

variable {K V : Type} [Ord K] [Std.TransOrd K] [Std.LawfulEqOrd K] [DecidableEq K]

theorem get_insert (m : Std.ExtTreeMap K V) (k a : K) (v : V) :
    (m.insert k v)[a]? = if k = a then some v else m[a]? := by
  simp [Std.ExtTreeMap.getElem?_insert]

theorem get_erase (m : Std.ExtTreeMap K V) (k a : K) :
    (m.erase k)[a]? = if k = a then none else m[a]? := by
  simp [Std.ExtTreeMap.getElem?_erase]

theorem toList_insert_last {m : Std.ExtTreeMap K V} {k : K} {v : V}
    (h : ∀ a ∈ m.toList, compare a.1 k = .lt) : (m.insert k v).toList = m.toList ++ [(k, v)] := by
  let r : K × V → K × V → Prop := fun a b => compare a.1 b.1 = .lt
  have hirrefl : ∀ a, ¬ r a a := fun a ha => by
    have heq : compare a.1 a.1 = .eq := Std.ReflCmp.compare_self
    cases heq.symm.trans ha
  have hasymm : ∀ a b, r a b → r b a → a = b := fun a b hab hba =>
    absurd (Std.TransCmp.lt_trans hab hba) (hirrefl a)
  have : Std.Antisymm r := ⟨hasymm⟩
  have : Std.Irrefl r := ⟨hirrefl⟩
  refine List.Pairwise.eq_of_mem_iff (r := r) Std.ExtTreeMap.ordered_keys_toList
    (List.pairwise_append.mpr ⟨Std.ExtTreeMap.ordered_keys_toList, by simp, by simpa using h⟩) ?_
  rintro ⟨a, w⟩
  rw [Std.ExtTreeMap.mem_toList_iff_getElem?_eq_some, get_insert, List.mem_append,
    Std.ExtTreeMap.mem_toList_iff_getElem?_eq_some, List.mem_singleton, Prod.mk.injEq]
  split
  · next hk =>
    subst hk
    have hnone : m[k]? ≠ some w := fun hw =>
      hirrefl (k, w) (h (k, w) (Std.ExtTreeMap.mem_toList_iff_getElem?_eq_some.mpr hw))
    simp [hnone, eq_comm]
  · next hk => simp [Ne.symm hk]

theorem get_insertMany {m : Std.ExtTreeMap K V} {l : List (K × V)} {a : K} {v : V}
    (hl : ∀ row ∈ l, row.1 = a → row.2 = v) (h : m[a]? = some v ∨ (a, v) ∈ l) :
    (m.insertMany l)[a]? = some v := by
  induction l generalizing m with
  | nil => simpa using h
  | cons row l ih =>
    rw [Std.ExtTreeMap.insertMany_cons]
    refine ih (fun r hr => hl r (List.mem_cons_of_mem _ hr)) ?_
    rw [get_insert]
    by_cases hrow : row.1 = a
    · rw [if_pos hrow, hl row List.mem_cons_self hrow]
      exact .inl rfl
    · rw [if_neg hrow]
      refine h.imp_right fun hmem => ?_
      rcases List.mem_cons.mp hmem with rfl | hmem
      · exact absurd rfl hrow
      · exact hmem

theorem get_ofList {l : List (K × V)} {a : K} {v : V} (hl : ∀ row ∈ l, row.1 = a → row.2 = v)
    (h : (a, v) ∈ l) : (Std.ExtTreeMap.ofList l)[a]? = some v := by
  rw [Std.ExtTreeMap.ofList_eq_insertMany_empty]
  exact get_insertMany hl (.inr h)

theorem get_ofList_of_not_mem {l : List (K × V)} {a : K} (hl : ∀ row ∈ l, row.1 ≠ a) :
    (Std.ExtTreeMap.ofList l)[a]? = none := by
  refine Std.ExtTreeMap.getElem?_ofList_of_contains_eq_false ?_
  rw [Bool.eq_false_iff, ne_eq, List.contains_iff_mem]
  intro hmem
  obtain ⟨row, hrow, rfl⟩ := List.mem_map.mp hmem
  exact hl row hrow rfl

end TreeMap

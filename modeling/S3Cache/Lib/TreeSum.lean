import S3Cache.Lib.TreeMap

/-! Sums over the entries of a tree map, one key at a time. -/

namespace TreeMap

variable {K V M : Type} [Ord K] [Std.TransOrd K] [Std.LawfulEqOrd K] [DecidableEq K]
  [AddCommMonoid M]

def sumOf (f : K → V → M) (m : Std.ExtTreeMap K V) : M :=
  (m.toList.map fun row => f row.1 row.2).sum

def termAt (f : K → V → M) (m : Std.ExtTreeMap K V) (k : K) : M := m[k]?.elim 0 (f k)

variable {f : K → V → M} {m m' : Std.ExtTreeMap K V}

omit [DecidableEq K] in
@[simp] theorem sumOf_empty : sumOf f (∅ : Std.ExtTreeMap K V) = 0 := by
  have hnil : (∅ : Std.ExtTreeMap K V).toList = [] := by
    refine List.eq_nil_iff_forall_not_mem.mpr ?_
    rintro ⟨k, v⟩ h
    rw [Std.ExtTreeMap.mem_toList_iff_getElem?_eq_some, Std.ExtTreeMap.getElem?_empty] at h
    cases h
  rw [sumOf, hnil, List.map_nil, List.sum_nil]

omit [DecidableEq K] in
theorem toList_nodup (m : Std.ExtTreeMap K V) : m.toList.Nodup := by
  refine Std.ExtTreeMap.ordered_keys_toList.imp fun {a b} hab => ?_
  rintro rfl
  have heq : compare a.1 a.1 = .eq := Std.ReflCmp.compare_self
  cases heq.symm.trans hab

theorem toList_perm {k : K} {v : V} (h : m[k]? = some v) :
    m.toList.Perm ((k, v) :: (m.erase k).toList) := by
  have hfresh : (k, v) ∉ (m.erase k).toList := by
    simp [Std.ExtTreeMap.mem_toList_iff_getElem?_eq_some]
  refine (List.perm_ext_iff_of_nodup (toList_nodup m)
    (List.nodup_cons.mpr ⟨hfresh, toList_nodup _⟩)).mpr ?_
  rintro ⟨a, w⟩
  rw [List.mem_cons, Std.ExtTreeMap.mem_toList_iff_getElem?_eq_some,
    Std.ExtTreeMap.mem_toList_iff_getElem?_eq_some, get_erase, Prod.mk.injEq]
  split
  · next hk =>
    subst hk
    simp [h, eq_comm]
  · next hk => simp [Ne.symm hk]

theorem sumOf_split (f : K → V → M) (m : Std.ExtTreeMap K V) (k : K) :
    sumOf f m = sumOf f (m.erase k) + termAt f m k := by
  unfold termAt
  cases h : m[k]? with
  | none =>
    have herase : m.erase k = m := Std.ExtTreeMap.ext_getElem? fun a => by
      rw [get_erase]
      split
      · next hk => rw [← hk, h]
      · rfl
    rw [herase, Option.elim_none, add_zero]
  | some v =>
    unfold sumOf
    rw [((toList_perm h).map _).sum_eq, List.map_cons, List.sum_cons, Option.elim_some, add_comm]

theorem sumOf_insert (f : K → V → M) (m : Std.ExtTreeMap K V) (k : K) (v : V) :
    sumOf f (m.insert k v) = sumOf f (m.erase k) + f k v := by
  have herase : (m.insert k v).erase k = m.erase k := Std.ExtTreeMap.ext_getElem? fun a => by
    rw [get_erase, get_erase, get_insert]
    split <;> rfl
  rw [sumOf_split f _ k, herase, termAt, get_insert, if_pos rfl, Option.elim_some]

theorem sumOf_insert_fresh {k : K} (h : m[k]? = none) (v : V) :
    sumOf f (m.insert k v) = sumOf f m + f k v := by
  rw [sumOf_insert, sumOf_split f m k, termAt, h, Option.elim_none, add_zero]

theorem sumOf_congr (h : ∀ k, termAt f m k = termAt f m' k) : sumOf f m = sumOf f m' := by
  have hsum : ∀ (S : Finset K) (m : Std.ExtTreeMap K V), (∀ k, m[k]?.isSome = true → k ∈ S) →
      sumOf f m = ∑ k ∈ S, termAt f m k := by
    intro S
    induction S using Finset.induction_on with
    | empty =>
      intro m hS
      have hempty : m = ∅ := Std.ExtTreeMap.ext_getElem? fun a => by
        have hnone : ¬ m[a]?.isSome = true := fun ha => absurd (hS a ha) (Finset.notMem_empty a)
        rw [Std.ExtTreeMap.getElem?_empty]
        simpa using hnone
      rw [hempty, sumOf_empty, Finset.sum_empty]
    | insert a S ha ih =>
      intro m hS
      rw [Finset.sum_insert ha, sumOf_split f m a, add_comm, ih (m.erase a)]
      · congr 1
        refine Finset.sum_congr rfl fun k hk => ?_
        have hak : a ≠ k := fun hak => ha (hak ▸ hk)
        rw [termAt, get_erase, if_neg hak, termAt]
      · intro k hk
        rw [get_erase] at hk
        split at hk
        · cases hk
        · next hak => exact (Finset.mem_insert.mp (hS k hk)).resolve_left (Ne.symm hak)
  let S := (m.keys ++ m'.keys).toFinset
  have hmem : ∀ {n : Std.ExtTreeMap K V} {k : K}, n[k]?.isSome = true → k ∈ n.keys := fun hk =>
    Std.ExtTreeMap.mem_keys.mpr (Std.ExtTreeMap.mem_iff_isSome_getElem?.mpr hk)
  rw [hsum S m fun k hk => by simp [S, hmem hk], hsum S m' fun k hk => by simp [S, hmem hk]]
  exact Finset.sum_congr rfl fun k _ => h k

end TreeMap

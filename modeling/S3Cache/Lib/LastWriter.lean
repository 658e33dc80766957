import Mathlib.Order.Lattice
import Mathlib.Order.Defs.LinearOrder
import Mathlib.Data.Set.Insert

/-! A last-writer-wins register with a tombstone.  Writes and deletes carry times; a delete wins
a tie with a write, and among writes the later applied wins one.  What a register holds after
any sequence of events is settled by the set of them alone, up to ties between writes. -/

namespace LastWriter

variable {V T : Type*} [LinearOrder T]

inductive Event (V T : Type*) where
  | put (value : V)
  | del (time : T)

@[ext] structure Register (V T : Type*) where
  value : Option V := none
  gone : Option T := none

namespace Register

def raise (gone : Option T) (t : T) : Option T := if gone.all (· < t) then some t else gone

def put (time : V → T) (r : Register V T) (v : V) : Register V T :=
  if r.gone.any (time v ≤ ·) || r.value.any (time v < time ·) then r else { r with value := some v }

def del (time : V → T) (r : Register V T) (t : T) : Register V T :=
  if r.value.any (t < time ·) || r.gone.any (t < ·) then { r with gone := raise r.gone t }
  else ⟨none, raise r.gone t⟩

def apply (time : V → T) (r : Register V T) : Event V T → Register V T
  | .put v => r.put time v
  | .del t => r.del time t

theorem le_raise (gone : Option T) (t : T) : ∃ g, raise gone t = some g ∧ t ≤ g := by
  cases gone with
  | none => exact ⟨t, rfl, le_rfl⟩
  | some g =>
    by_cases h : g < t
    · exact ⟨t, by simp [raise, h], le_rfl⟩
    · exact ⟨g, by simp [raise, h], not_lt.mp h⟩

theorem le_raise_of_eq {gone : Option T} {g : T} (h : gone = some g) (t : T) :
    ∃ g', raise gone t = some g' ∧ g ≤ g' := by
  subst h
  by_cases h : g < t
  · exact ⟨t, by simp [raise, h], h.le⟩
  · exact ⟨g, by simp [raise, h], le_rfl⟩

theorem raise_eq_some {gone : Option T} {t g : T} (h : raise gone t = some g) :
    g = t ∨ gone = some g := by
  unfold raise at h
  split at h
  · exact .inl (Option.some.inj h).symm
  · exact .inr h

end Register

structure Settles (time : V → T) (E : Set (Event V T)) (r : Register V T) : Prop where
  gone_le : ∀ t, .del t ∈ E → ∃ g, r.gone = some g ∧ t ≤ g
  gone_mem : ∀ g, r.gone = some g → .del g ∈ E
  value_mem : ∀ v, r.value = some v → .put v ∈ E
  gone_lt : ∀ v g, r.value = some v → r.gone = some g → g < time v
  latest : ∀ v, .put v ∈ E →
    (∃ w, r.value = some w ∧ time v ≤ time w) ∨ ∃ g, r.gone = some g ∧ time v ≤ g

namespace Settles

variable {time : V → T} {E : Set (Event V T)} {r r' : Register V T}

theorem empty : Settles time ∅ ({} : Register V T) where
  gone_le _ h := absurd h (Set.notMem_empty _)
  gone_mem _ h := by cases h
  value_mem _ h := by cases h
  gone_lt _ _ h := by cases h
  latest _ h := absurd h (Set.notMem_empty _)

theorem put (h : Settles time E r) (v : V) : Settles time (insert (.put v) E) (r.put time v) := by
  have hdel : ∀ t, .del t ∈ insert (.put v) E → .del t ∈ E := fun t ht =>
    ht.resolve_left (by simp)
  unfold Register.put
  split
  · next hr =>
    refine ⟨fun t ht => h.gone_le t (hdel t ht), fun g hg => .inr (h.gone_mem g hg),
      fun w hw => .inr (h.value_mem w hw), h.gone_lt, fun w hw => ?_⟩
    rcases hw with hw | hw
    · cases hw
      simp only [Bool.or_eq_true, Option.any_eq_true, decide_eq_true_eq] at hr
      exact hr.symm.imp (fun ⟨w, hw, hlt⟩ => ⟨w, hw, hlt.le⟩) id
    · exact h.latest w hw
  · next hr =>
    simp only [Bool.or_eq_true, Option.any_eq_true, decide_eq_true_eq, not_or, not_exists, not_and,
      not_le, not_lt] at hr
    obtain ⟨hgone, hvalue⟩ := hr
    refine ⟨fun t ht => h.gone_le t (hdel t ht), fun g hg => .inr (h.gone_mem g hg),
      fun w hw => .inl (by rw [Option.some.inj hw]), fun w g hw hg => ?_,
      fun w hw => .inl ⟨v, rfl, ?_⟩⟩
    · rw [← Option.some.inj hw]
      exact hgone g hg
    · rcases hw with hw | hw
      · cases hw
        exact le_rfl
      · -- what the register held instead of `w` is not after `v`
        rcases h.latest w hw with ⟨u, hu, hle⟩ | ⟨g, hg, hle⟩
        · exact hle.trans (hvalue u hu)
        · exact hle.trans (hgone g hg).le

theorem del (h : Settles time E r) (t : T) : Settles time (insert (.del t) E) (r.del time t) := by
  have hput : ∀ v, .put v ∈ insert (.del t) E → .put v ∈ E := fun v hv => hv.resolve_left (by simp)
  have hle : ∀ t', .del t' ∈ insert (.del t) E →
      ∃ g, Register.raise r.gone t = some g ∧ t' ≤ g := by
    rintro t' (ht | ht)
    · cases ht
      exact Register.le_raise r.gone t
    · obtain ⟨g, hg, hle⟩ := h.gone_le t' ht
      exact (Register.le_raise_of_eq hg t).imp fun g' h' => ⟨h'.1, hle.trans h'.2⟩
  have hmem : ∀ g, Register.raise r.gone t = some g → .del g ∈ insert (.del t) E := by
    intro g hg
    rcases Register.raise_eq_some hg with rfl | hg
    · exact .inl rfl
    · exact .inr (h.gone_mem g hg)
  unfold Register.del
  split
  · next ho =>
    simp only [Bool.or_eq_true, Option.any_eq_true, decide_eq_true_eq] at ho
    refine ⟨hle, hmem, fun v hv => .inr (h.value_mem v hv), fun v g hv hg => ?_, fun v hv => ?_⟩
    · rcases Register.raise_eq_some hg with rfl | hg
      · rcases ho with ⟨w, hw, hlt⟩ | ⟨g', hg', hlt⟩
        · rw [Option.some.inj (hv.symm.trans hw)]
          exact hlt
        · exact hlt.trans (h.gone_lt v g' hv hg')
      · exact h.gone_lt v g hv hg
    · rcases h.latest v (hput v hv) with hw | ⟨g, hg, hle⟩
      · exact .inl hw
      · exact .inr ((Register.le_raise_of_eq hg t).imp fun g' h' => ⟨h'.1, hle.trans h'.2⟩)
  · next ho =>
    simp only [Bool.or_eq_true, Option.any_eq_true, decide_eq_true_eq, not_or, not_exists, not_and,
      not_lt] at ho
    refine ⟨hle, hmem, nofun, nofun, fun v hv => .inr ?_⟩
    rcases h.latest v (hput v hv) with ⟨w, hw, hvw⟩ | ⟨g, hg, hle⟩
    · exact (Register.le_raise r.gone t).imp fun g h' =>
        ⟨h'.1, (hvw.trans (ho.1 w hw)).trans h'.2⟩
    · exact (Register.le_raise_of_eq hg t).imp fun g' h' => ⟨h'.1, hle.trans h'.2⟩

theorem apply (h : Settles time E r) (e : Event V T) : Settles time (insert e E) (r.apply time e) := by
  cases e with
  | put v => exact h.put v
  | del t => exact h.del t

theorem gone_congr (h : Settles time E r) (h' : Settles time E r') : r.gone = r'.gone := by
  cases hg : r.gone with
  | none =>
    cases hg' : r'.gone with
    | none => rfl
    | some g' =>
      obtain ⟨g, heq, -⟩ := h.gone_le g' (h'.gone_mem g' hg')
      rw [hg] at heq
      cases heq
  | some g =>
    obtain ⟨g', hg', hle⟩ := h'.gone_le g (h.gone_mem g hg)
    obtain ⟨g₂, hg₂, hle'⟩ := h.gone_le g' (h'.gone_mem g' hg')
    rw [hg] at hg₂
    cases hg₂
    rw [hg', le_antisymm hle hle']

theorem value_le (h : Settles time E r) (h' : Settles time E r') {v : V} (hv : r.value = some v) :
    ∃ w, r'.value = some w ∧ time v ≤ time w := by
  rcases h'.latest v (h.value_mem v hv) with hw | ⟨g, hg, hle⟩
  · exact hw
  · rw [← h.gone_congr h'] at hg
    exact absurd hle (not_le.mpr (h.gone_lt v g hv hg))

theorem unique (h : Settles time E r) (h' : Settles time E r')
    (htie : ∀ v w, .put v ∈ E → .put w ∈ E → time v = time w → v = w) : r = r' := by
  refine Register.ext ?_ (h.gone_congr h')
  cases hv : r.value with
  | none =>
    cases hw : r'.value with
    | none => rfl
    | some w =>
      obtain ⟨v, heq, -⟩ := h'.value_le h hw
      rw [hv] at heq
      cases heq
  | some v =>
    obtain ⟨w, hw, hle⟩ := h.value_le h' hv
    obtain ⟨v', hv', hle'⟩ := h'.value_le h hw
    rw [hv] at hv'
    cases hv'
    rw [hw, htie v w (h.value_mem v hv) (h'.value_mem w hw) (le_antisymm hle hle')]

theorem isSome_iff (h : Settles time E r) :
    r.value.isSome = true ↔ ∃ v, .put v ∈ E ∧ (∀ w, .put w ∈ E → time w ≤ time v) ∧
      ∀ t, .del t ∈ E → t < time v := by
  constructor
  · intro hs
    obtain ⟨v, hv⟩ := Option.isSome_iff_exists.mp hs
    refine ⟨v, h.value_mem v hv, fun w hw => ?_, fun t ht => ?_⟩
    · rcases h.latest w hw with ⟨u, hu, hle⟩ | ⟨g, hg, hle⟩
      · rw [Option.some.inj (hv.symm.trans hu)]
        exact hle
      · exact hle.trans (h.gone_lt v g hv hg).le
    · obtain ⟨g, hg, hle⟩ := h.gone_le t ht
      exact hle.trans_lt (h.gone_lt v g hv hg)
  · rintro ⟨v, hv, -, hlt⟩
    rcases h.latest v hv with ⟨w, hw, -⟩ | ⟨g, hg, hle⟩
    · rw [hw]
      rfl
    · exact absurd (hlt g (h.gone_mem g hg)) (not_lt.mpr hle)

end Settles

end LastWriter

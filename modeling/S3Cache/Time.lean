import Mathlib.Order.Basic
import Mathlib.Order.Lattice
import Mathlib.Data.Int.Order.Basic
import Mathlib.Tactic.NormNum

/-! Wall-clock times as the index keeps them: `std::time::SystemTime` on a platform whose
seconds are a signed 64-bit count, the microseconds of the write feed (`sync/wire.rs`) and
the whole seconds of origin answers (`index.rs`, `index/fleet/install.rs`). -/

namespace S3Cache

structure SystemTime where
  ns : Int
  ge : -(2 ^ 63 * 1000000000) ≤ ns
  lt : ns < 2 ^ 63 * 1000000000
  deriving DecidableEq

namespace SystemTime

theorem ns_injective : Function.Injective SystemTime.ns := by
  intro a b h
  cases a; cases b
  simpa using h

instance : LinearOrder SystemTime := LinearOrder.lift' SystemTime.ns ns_injective

theorem le_iff {a b : SystemTime} : a ≤ b ↔ a.ns ≤ b.ns := Iff.rfl

theorem lt_iff {a b : SystemTime} : a < b ↔ a.ns < b.ns := Iff.rfl

def unixEpoch : SystemTime := ⟨0, by norm_num, by norm_num⟩

instance : Inhabited SystemTime := ⟨unixEpoch⟩

def checkedAdd (t : SystemTime) (d : Nat) : Option SystemTime :=
  if h : t.ns + d < 2 ^ 63 * 1000000000 then
    some ⟨t.ns + d, by have := t.ge; omega, h⟩
  else none

def checkedSub (t : SystemTime) (d : Nat) : Option SystemTime :=
  if h : -(2 ^ 63 * 1000000000) ≤ t.ns - d then
    some ⟨t.ns - d, h, by have := t.lt; omega⟩
  else none

theorem le_of_checkedSub {t u : SystemTime} {d : Nat} (h : t.checkedSub d = some u) : u ≤ t := by
  unfold checkedSub at h
  split at h
  · cases h
    exact Int.sub_le_self _ (Int.natCast_nonneg d)
  · cases h

def sinceEpoch (t : SystemTime) : Option Nat :=
  if 0 ≤ t.ns then some t.ns.toNat else none

theorem sinceEpoch_eq_some {t : SystemTime} {n : Nat} :
    t.sinceEpoch = some n ↔ t.ns = n := by
  unfold sinceEpoch
  split <;> simp <;> omega

theorem ns_checkedAdd {t t' : SystemTime} {d : Nat} (h : t.checkedAdd d = some t') :
    t'.ns = t.ns + d := by
  unfold checkedAdd at h
  split at h
  · cases h
    rfl
  · cases h

theorem checkedAdd_toNat {t : SystemTime} (h : 0 ≤ t.ns) :
    unixEpoch.checkedAdd t.ns.toNat = some t := by
  have hn : (t.ns.toNat : Int) = t.ns := Int.toNat_of_nonneg h
  unfold checkedAdd unixEpoch
  simp only [hn, Int.zero_add]
  exact dif_pos t.lt

end SystemTime

def wholeSeconds (time : SystemTime) : Nat :=
  time.sinceEpoch.elim 0 (· / 1000000000)

theorem wholeSeconds_eq (t : SystemTime) : wholeSeconds t = t.ns.toNat / 1000000000 := by
  unfold wholeSeconds SystemTime.sinceEpoch
  split
  · rfl
  · have : t.ns.toNat = 0 := by omega
    simp [this]

theorem wholeSeconds_mono {a b : SystemTime} (h : a ≤ b) : wholeSeconds a ≤ wholeSeconds b := by
  rw [wholeSeconds_eq, wholeSeconds_eq]
  exact Nat.div_le_div_right (Int.toNat_le_toNat h)

theorem lt_of_wholeSeconds_lt {a b : SystemTime} (h : wholeSeconds a < wholeSeconds b) :
    a < b := by
  by_contra hn
  exact absurd (wholeSeconds_mono (not_lt.mp hn)) (not_le.mpr h)

def originTime (unixSecs : Int) : Option SystemTime :=
  if 0 ≤ unixSecs then SystemTime.unixEpoch.checkedAdd (unixSecs.toNat * 1000000000) else none

def toMicros (ts : SystemTime) : UInt64 :=
  ts.sinceEpoch.elim 0 fun d => UInt64.ofNat (min (d / 1000) (2 ^ 64 - 1))

def fromMicros (us : UInt64) : SystemTime :=
  ⟨us.toNat * 1000, by omega, by have := us.toNat_lt; omega⟩

def wireStamp (ts : SystemTime) : SystemTime := fromMicros (toMicros ts)

@[simp] theorem toMicros_fromMicros (us : UInt64) : toMicros (fromMicros us) = us := by
  have hs : (fromMicros us).sinceEpoch = some (us.toNat * 1000) := by
    rw [SystemTime.sinceEpoch_eq_some]
    simp [fromMicros]
  have hlt := us.toNat_lt
  simp only [toMicros, hs, Option.elim_some]
  rw [Nat.mul_div_cancel _ (by norm_num), min_eq_left (by omega)]
  simp

theorem fromMicros_injective : Function.Injective fromMicros := fun a b h => by
  rw [← toMicros_fromMicros a, h, toMicros_fromMicros]

@[simp] theorem fromMicros_lt {a b : UInt64} : fromMicros a < fromMicros b ↔ a < b := by
  rw [SystemTime.lt_iff, UInt64.lt_iff_toNat_lt]
  simp only [fromMicros]
  omega

@[simp] theorem fromMicros_le {a b : UInt64} : fromMicros a ≤ fromMicros b ↔ a ≤ b := by
  rw [SystemTime.le_iff, UInt64.le_iff_toNat_le]
  simp only [fromMicros]
  omega

theorem toNat_toMicros (t : SystemTime) :
    (toMicros t).toNat = min (t.ns.toNat / 1000) (2 ^ 64 - 1) := by
  unfold toMicros SystemTime.sinceEpoch
  split
  · simp only [Option.elim_some, UInt64.toNat_ofNat']
    omega
  · have : t.ns.toNat = 0 := by omega
    simp [this]

theorem wireStamp_mono {a b : SystemTime} (h : a ≤ b) : wireStamp a ≤ wireStamp b := by
  have hns : a.ns.toNat ≤ b.ns.toNat := Int.toNat_le_toNat h
  rw [wireStamp, wireStamp, fromMicros_le, UInt64.le_iff_toNat_le, toNat_toMicros, toNat_toMicros]
  omega

end S3Cache

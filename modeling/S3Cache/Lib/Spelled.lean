import Mathlib.Data.String.Basic
import S3Cache.Lib.Utf8

/-! Texts spelled from parts: parts that a separator ends, texts behind their own length, and
decimal numbers padded to a width. -/

namespace Spelled

open Utf8

/-! ### Separators -/

theorem append_cons_inj {α : Type*} {sep : α} {xs ys us vs : List α} (hx : sep ∉ xs)
    (hy : sep ∉ ys) (h : xs ++ sep :: us = ys ++ sep :: vs) : xs = ys ∧ us = vs := by
  induction xs generalizing ys with
  | nil =>
    cases ys with
    | nil => exact ⟨rfl, (List.cons.inj h).2⟩
    | cons y ys => exact absurd ((List.cons.inj h).1 ▸ List.mem_cons_self) hy
  | cons x xs ih =>
    cases ys with
    | nil => exact absurd ((List.cons.inj h).1 ▸ List.mem_cons_self) hx
    | cons y ys =>
      obtain ⟨rfl, htail⟩ := List.cons.inj h
      obtain ⟨rfl, rfl⟩ := ih (List.not_mem_of_not_mem_cons hx)
        (List.not_mem_of_not_mem_cons hy) htail
      exact ⟨rfl, rfl⟩

theorem append_lt_append_iff {α : Type*} [LinearOrder α] (front : List α) {xs ys : List α} :
    front ++ xs < front ++ ys ↔ xs < ys := by
  induction front with
  | nil => rfl
  | cons a front ih => rw [List.cons_append, List.cons_append, List.cons_lt_cons_self, ih]

theorem not_mem_toString {c : Char} (hc : c.isDigit = false) (n : Nat) :
    c ∉ (toString n).toList := by
  intro h
  rw [Nat.toString_eq_ofList_toDigits, String.toList_ofList] at h
  rw [Nat.isDigit_of_mem_toDigits (by decide) le_rfl h] at hc
  cases hc

theorem toString_injective {n m : Nat} (h : toString n = toString m) : n = m := by
  rw [Nat.toString_eq_ofList_toDigits, Nat.toString_eq_ofList_toDigits] at h
  rw [← Nat.ofDigitChars_ten_toDigits (n := n), String.ofList_injective h,
    Nat.ofDigitChars_ten_toDigits]

/-! ### Texts behind their length -/

def lengthed (text : String) : String := toString text.utf8ByteSize ++ "#" ++ text

def lengthedAll (texts : List String) : String := texts.foldr (fun t rest => lengthed t ++ rest) ""

theorem lengthed_append_inj {s t u v : String} (h : lengthed s ++ u = lengthed t ++ v) :
    s = t ∧ u = v := by
  have hchars : (toString s.utf8ByteSize).toList ++ '#' :: (s ++ u).toList =
      (toString t.utf8ByteSize).toList ++ '#' :: (t ++ v).toList := by
    have := congrArg String.toList h
    simpa [lengthed] using this
  obtain ⟨hsize, hrest⟩ := append_cons_inj (not_mem_toString (by decide) _)
    (not_mem_toString (by decide) _) hchars
  have hlen : s.utf8ByteSize = t.utf8ByteSize := toString_injective (String.toList_inj.mp hsize)
  have hbytes : utf8 s ++ utf8 u = utf8 t ++ utf8 v := by
    rw [← utf8_append, ← utf8_append, String.toList_inj.mp hrest]
  obtain ⟨hs, hu⟩ := List.append_inj hbytes hlen
  exact ⟨utf8_injective hs, utf8_injective hu⟩

theorem lengthed_ne_empty (s u : String) : lengthed s ++ u ≠ "" := by
  intro h
  have hchars := congrArg String.toList h
  simp [lengthed] at hchars

theorem lengthedAll_injective : Function.Injective lengthedAll := by
  intro xs ys h
  induction xs generalizing ys with
  | nil =>
    cases ys with
    | nil => rfl
    | cons y ys => exact absurd h.symm (lengthed_ne_empty y _)
  | cons x xs ih =>
    cases ys with
    | nil => exact absurd h (lengthed_ne_empty x _)
    | cons y ys =>
      obtain ⟨rfl, hrest⟩ := lengthed_append_inj h
      rw [ih hrest]

/-! ### Padded decimals -/

def padded (width n : Nat) : String :=
  String.ofList (List.replicate (width - (toString n).length) '0') ++ toString n

def digits : Nat → Nat → List Char
  | 0, _ => []
  | width + 1, n => digits width (n / 10) ++ [Nat.digitChar (n % 10)]

theorem toList_padded {width n : Nat} (h : n < 10 ^ (width + 1)) :
    (padded (width + 1) n).toList = digits (width + 1) n := by
  rw [padded, String.toList_append, String.toList_ofList, ← String.length_toList,
    Nat.toString_eq_ofList_toDigits, String.toList_ofList]
  induction width generalizing n with
  | zero =>
    have hn : n < 10 := h
    rw [Nat.toDigits_of_lt_base hn, digits, digits, Nat.mod_eq_of_lt hn]
    rfl
  | succ width ih =>
    have hdiv : n / 10 < 10 ^ (width + 1) := Nat.div_lt_of_lt_mul (by rwa [Nat.pow_succ'] at h)
    rw [digits, ← ih hdiv]
    by_cases hn : n < 10
    · rw [Nat.toDigits_of_lt_base hn, Nat.div_eq_of_lt hn, Nat.toDigits_of_lt_base (by decide),
        Nat.mod_eq_of_lt hn]
      simp [List.replicate_succ']
    · rw [Nat.toDigits_of_base_le (by decide) (Nat.le_of_not_lt hn)]
      rw [← List.append_assoc, List.length_append, List.length_singleton, Nat.add_sub_add_right]

theorem length_digits (width n : Nat) : (digits width n).length = width := by
  induction width generalizing n with
  | zero => rfl
  | succ width ih => rw [digits, List.length_append, ih, List.length_singleton]

theorem append_singleton_lt_iff {α : Type*} [LinearOrder α] {xs ys : List α} {a b : α}
    (h : xs.length = ys.length) : xs ++ [a] < ys ++ [b] ↔ xs < ys ∨ xs = ys ∧ a < b := by
  induction xs generalizing ys with
  | nil =>
    cases ys with
    | nil => simp [List.cons_lt_cons_iff]
    | cons y ys => cases h
  | cons x xs ih =>
    cases ys with
    | nil => cases h
    | cons y ys =>
      have hlen : xs.length = ys.length := Nat.succ.inj h
      rw [List.cons_append, List.cons_append, List.cons_lt_cons_iff, List.cons_lt_cons_iff, ih hlen]
      simp only [List.cons.injEq]
      tauto

theorem digitChar_lt_iff : ∀ a < 10, ∀ b < 10, Nat.digitChar a < Nat.digitChar b ↔ a < b := by
  decide

theorem digits_lt_iff {width n m : Nat} (hn : n < 10 ^ width) (hm : m < 10 ^ width) :
    digits width n < digits width m ↔ n < m := by
  induction width generalizing n m with
  | zero =>
    have hsame : n = m := by omega
    rw [hsame]
    simp [digits]
  | succ width ih =>
    have hn' : n / 10 < 10 ^ width := Nat.div_lt_of_lt_mul (by rwa [Nat.pow_succ'] at hn)
    have hm' : m / 10 < 10 ^ width := Nat.div_lt_of_lt_mul (by rwa [Nat.pow_succ'] at hm)
    have heq : digits width (n / 10) = digits width (m / 10) ↔ n / 10 = m / 10 := by
      refine ⟨fun h => ?_, fun h => h ▸ rfl⟩
      have hlt := (ih hn' hm').not.mp (h ▸ lt_irrefl _)
      have hgt := (ih hm' hn').not.mp (h ▸ lt_irrefl _)
      omega
    have hlen : (digits width (n / 10)).length = (digits width (m / 10)).length := by
      rw [length_digits, length_digits]
    rw [digits, digits, append_singleton_lt_iff hlen, ih hn' hm', heq,
      digitChar_lt_iff _ (Nat.mod_lt _ (by decide)) _ (Nat.mod_lt _ (by decide))]
    omega

theorem padded_lt_iff {width n m : Nat} (hn : n < 10 ^ (width + 1)) (hm : m < 10 ^ (width + 1)) :
    (padded (width + 1) n).toList < (padded (width + 1) m).toList ↔ n < m := by
  rw [toList_padded hn, toList_padded hm, digits_lt_iff hn hm]

theorem padded_inj {width n m : Nat} (hn : n < 10 ^ (width + 1)) (hm : m < 10 ^ (width + 1))
    (h : padded (width + 1) n = padded (width + 1) m) : n = m := by
  have hlt : ¬ n < m := by
    rw [← padded_lt_iff hn hm, h]
    exact lt_irrefl _
  have hgt : ¬ m < n := by
    rw [← padded_lt_iff hm hn, h]
    exact lt_irrefl _
  omega

end Spelled

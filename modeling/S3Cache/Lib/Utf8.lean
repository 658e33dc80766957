import Mathlib.Logic.Function.Basic
import Mathlib.Tactic.Common

/-! UTF-8 text as lists of bytes. -/

namespace Utf8

def utf8 (s : String) : List UInt8 := s.toByteArray.data.toList

@[simp] theorem length_utf8 (s : String) : (utf8 s).length = s.utf8ByteSize := rfl

@[simp] theorem fromUTF8_utf8 (s : String) : String.fromUTF8? ⟨(utf8 s).toArray⟩ = some s := by
  simp only [utf8, Array.toArray_toList, String.fromUTF8?]
  exact dif_pos s.isValidUTF8

theorem utf8_injective : Function.Injective utf8 := fun a b h => by
  have := fromUTF8_utf8 a
  rw [h, fromUTF8_utf8] at this
  exact (Option.some.inj this).symm

@[simp] theorem utf8_append (s t : String) : utf8 (s ++ t) = utf8 s ++ utf8 t := by
  simp [utf8, String.toByteArray_append]

theorem utf8_of_fromUTF8 {bs : List UInt8} {s : String}
    (h : String.fromUTF8? ⟨bs.toArray⟩ = some s) : utf8 s = bs := by
  rw [String.fromUTF8?] at h
  split at h
  · obtain rfl := Option.some.inj h
    rfl
  · cases h

theorem utf8_eq_flatMap (s : String) : utf8 s = s.toList.flatMap String.utf8EncodeChar := by
  rw [utf8, ← String.utf8Encode_toList, List.utf8Encode, List.toList_data_toByteArray]

theorem utf8_singleton (c : Char) : utf8 (String.singleton c) = String.utf8EncodeChar c := by
  rw [utf8_eq_flatMap, String.toList_singleton, List.flatMap_singleton]

/-! ### The lead byte of a character -/

def leadWidth (lead : UInt8) : Option Nat :=
  if lead &&& 0x80 = 0 then some 1
  else if lead &&& 0xE0 = 0xC0 then some 2
  else if lead &&& 0xF0 = 0xE0 then some 3
  else if lead &&& 0xF8 = 0xF0 then some 4
  else none

private theorem leadWidth_one : ∀ n < 128, leadWidth (UInt8.ofNat n) = some 1 := by decide
private theorem leadWidth_two : ∀ n < 32, leadWidth (UInt8.ofNat (n + 192)) = some 2 := by decide
private theorem leadWidth_three : ∀ n < 16, leadWidth (UInt8.ofNat (n + 224)) = some 3 := by decide
private theorem leadWidth_four : ∀ n < 8, leadWidth (UInt8.ofNat (n + 240)) = some 4 := by decide

theorem exists_lead (c : Char) : ∃ lead tail, String.utf8EncodeChar c = lead :: tail ∧
    leadWidth lead = some (String.utf8EncodeChar c).length := by
  fun_cases String.utf8EncodeChar c with
  | case1 v h => exact ⟨_, _, rfl, leadWidth_one _ (Nat.lt_succ_of_le h)⟩
  | case2 v _ _ => exact ⟨_, _, rfl, leadWidth_two _ (Nat.mod_lt _ (by decide))⟩
  | case3 v _ _ _ => exact ⟨_, _, rfl, leadWidth_three _ (Nat.mod_lt _ (by decide))⟩
  | case4 v _ _ _ => exact ⟨_, _, rfl, leadWidth_four _ (Nat.mod_lt _ (by decide))⟩

theorem eq_singleton_of_leadWidth {s : String} {lead : UInt8} {tail : List UInt8}
    (hbytes : utf8 s = lead :: tail) (hwidth : leadWidth lead = some (utf8 s).length) :
    ∃ c, s.toList = [c] ∧ utf8 s = String.utf8EncodeChar c := by
  rw [utf8_eq_flatMap] at hbytes hwidth ⊢
  cases hs : s.toList with
  | nil =>
    rw [hs] at hbytes
    cases hbytes
  | cons c cs =>
    rw [hs, List.flatMap_cons] at hbytes hwidth
    obtain ⟨head, more, hc, hlead⟩ := exists_lead c
    have hsame : head = lead := by
      rw [hc, List.cons_append] at hbytes
      exact (List.cons.inj hbytes).1
    rw [← hsame, hlead, List.length_append] at hwidth
    -- every further character would add at least one byte
    cases cs with
    | nil => exact ⟨c, rfl, List.append_nil _⟩
    | cons d ds =>
      have hd : 0 < (String.utf8EncodeChar d).length :=
        List.length_pos_iff.mpr String.utf8EncodeChar_ne_nil
      have := Option.some.inj hwidth
      rw [List.flatMap_cons, List.length_append] at this
      omega

end Utf8

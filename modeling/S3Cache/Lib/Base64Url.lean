import Mathlib.Data.List.Basic
import Mathlib.Tactic.Common

/-! Base64 in the alphabet for URLs and without padding. -/

namespace Base64Url

def alphabet : List Char :=
  "ABCDEFGHIJKLMNOPQRSTUVWXYZabcdefghijklmnopqrstuvwxyz0123456789-_".toList

def sextet (n : Nat) : Char := alphabet.getD n 'A'

def encode : List UInt8 → List Char
  | [] => []
  | [a] => [sextet (a.toNat / 4), sextet (a.toNat % 4 * 16)]
  | [a, b] =>
    [sextet (a.toNat / 4), sextet (a.toNat % 4 * 16 + b.toNat / 16), sextet (b.toNat % 16 * 4)]
  | a :: b :: c :: rest =>
    sextet (a.toNat / 4) :: sextet (a.toNat % 4 * 16 + b.toNat / 16) ::
      sextet (b.toNat % 16 * 4 + c.toNat / 64) :: sextet (c.toNat % 64) :: encode rest

example : encode [102, 111, 111, 98, 97] = "Zm9vYmE".toList := by decide

private theorem sextet_table : ∀ n < 64, ∀ m < 64, sextet n = sextet m → n = m := by decide +kernel

theorem sextet_inj {n m : Nat} (hn : n < 64) (hm : m < 64) (h : sextet n = sextet m) : n = m :=
  sextet_table n hn m hm h

theorem group_inj (a b c a' b' c' : UInt8) (h₁ : sextet (a.toNat / 4) = sextet (a'.toNat / 4))
    (h₂ : sextet (a.toNat % 4 * 16 + b.toNat / 16) = sextet (a'.toNat % 4 * 16 + b'.toNat / 16))
    (h₃ : sextet (b.toNat % 16 * 4 + c.toNat / 64) = sextet (b'.toNat % 16 * 4 + c'.toNat / 64))
    (h₄ : sextet (c.toNat % 64) = sextet (c'.toNat % 64)) : a = a' ∧ b = b' ∧ c = c' := by
  have ha := a.toNat_lt
  have ha' := a'.toNat_lt
  have hb := b.toNat_lt
  have hb' := b'.toNat_lt
  have hc := c.toNat_lt
  have hc' := c'.toNat_lt
  have e₁ := sextet_inj (by omega) (by omega) h₁
  have e₂ := sextet_inj (by omega) (by omega) h₂
  have e₃ := sextet_inj (by omega) (by omega) h₃
  have e₄ := sextet_inj (by omega) (by omega) h₄
  refine ⟨UInt8.toNat_inj.mp ?_, UInt8.toNat_inj.mp ?_, UInt8.toNat_inj.mp ?_⟩ <;> omega

theorem encode_injective : Function.Injective encode := by
  intro xs
  induction xs using encode.induct with
  | case1 =>
    intro ys h
    match ys with
    | [] => rfl
    | [_] | [_, _] | _ :: _ :: _ :: _ => simp [encode] at h
  | case2 a =>
    intro ys h
    match ys with
    | [a'] =>
      simp only [encode, List.cons.injEq, and_true] at h
      rw [(group_inj a 0 0 a' 0 0 h.1 h.2 rfl rfl).1]
    | [] | [_, _] | _ :: _ :: _ :: _ => simp [encode] at h
  | case3 a b =>
    intro ys h
    match ys with
    | [a', b'] =>
      simp only [encode, List.cons.injEq, and_true] at h
      obtain ⟨rfl, rfl, -⟩ := group_inj a b 0 a' b' 0 h.1 h.2.1 h.2.2 rfl
      rfl
    | [] | [_] | _ :: _ :: _ :: _ => simp [encode] at h
  | case4 a b c rest ih =>
    intro ys h
    match ys with
    | a' :: b' :: c' :: rest' =>
      simp only [encode, List.cons.injEq] at h
      obtain ⟨rfl, rfl, rfl⟩ := group_inj a b c a' b' c' h.1 h.2.1 h.2.2.1 h.2.2.2.1
      rw [ih h.2.2.2.2]
    | [] | [_] | [_, _] => simp [encode] at h

theorem sextet_mem (n : Nat) : sextet n ∈ alphabet := by
  rw [sextet, List.getD_eq_getElem?_getD]
  cases h : alphabet[n]? with
  | none => exact List.mem_cons_self
  | some c => exact List.mem_of_getElem? h

theorem mem_alphabet {bytes : List UInt8} {c : Char} (h : c ∈ encode bytes) : c ∈ alphabet := by
  induction bytes using encode.induct with
  | case1 => cases h
  | case2 a =>
    rw [encode] at h
    simp only [List.mem_cons, List.not_mem_nil, or_false] at h
    rcases h with rfl | rfl <;> exact sextet_mem _
  | case3 a b =>
    rw [encode] at h
    simp only [List.mem_cons, List.not_mem_nil, or_false] at h
    rcases h with rfl | rfl | rfl <;> exact sextet_mem _
  | case4 a b c rest ih =>
    rw [encode] at h
    simp only [List.mem_cons] at h
    rcases h with rfl | rfl | rfl | rfl | h
    · exact sextet_mem _
    · exact sextet_mem _
    · exact sextet_mem _
    · exact sextet_mem _
    · exact ih h

/-- An encoding in this alphabet that keeps texts apart. -/
class Encoding where
  encode : List UInt8 → List Char
  injective : Function.Injective encode
  mem_alphabet : ∀ {bytes c}, c ∈ encode bytes → c ∈ alphabet

@[reducible] def unpadded : Encoding := ⟨encode, encode_injective, mem_alphabet⟩

end Base64Url

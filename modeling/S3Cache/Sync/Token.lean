import Mathlib.Data.Prod.Lex
import S3Cache.Sync.Feed
import S3Cache.Sync.FleetConfig

/-! Session tokens: the feed position of a write as the text a client echoes on its reads
(`sync/wire.rs`). -/

namespace S3Cache.Sync

open Spelled

instance : LinearOrder WriteToken :=
  LinearOrder.lift' (fun t => toLex (t.epoch, t.seq)) fun a b h => by
    obtain ⟨he, hs⟩ := Prod.mk.inj (toLex.injective h)
    cases a
    cases b
    cases he
    cases hs
    rfl

namespace WriteToken

variable {a b : WriteToken}

theorem le_iff : a ≤ b ↔ a.epoch < b.epoch ∨ a.epoch = b.epoch ∧ a.seq ≤ b.seq :=
  Prod.Lex.toLex_le_toLex

theorem lt_iff : a < b ↔ a.epoch < b.epoch ∨ a.epoch = b.epoch ∧ a.seq < b.seq :=
  Prod.Lex.toLex_lt_toLex

def next (t : WriteToken) : WriteToken := ⟨t.epoch, t.seq + 1⟩

theorem lt_next (t : WriteToken) : t < t.next := lt_iff.mpr (.inr ⟨rfl, Nat.lt_succ_self _⟩)

theorem le_or_eq_next (h : a ≤ b.next) : a ≤ b ∨ a = b.next := by
  rcases le_iff.mp h with he | ⟨he, hs⟩
  · exact .inl (le_iff.mpr (.inl he))
  · rcases Nat.le_succ_iff.mp hs with hs | hs
    · exact .inl (le_iff.mpr (.inr ⟨he, hs⟩))
    · refine .inr ?_
      cases a
      cases he
      cases hs
      rfl

end WriteToken

def parseUnsigned (bound : Nat) (text : String) : Option Nat :=
  let digits := match text.toList with
    | '+' :: rest => rest
    | chars => chars
  if digits.isEmpty || !digits.all Char.isDigit then none
  else
    let n := Nat.ofDigitChars 10 digits 0
    if n < bound then some n else none

theorem parseUnsigned_toString {bound n : Nat} (h : n < bound) :
    parseUnsigned bound (toString n) = some n := by
  have hchars : (toString n).toList = Nat.toDigits 10 n := by
    rw [Nat.toString_eq_ofList_toDigits, String.toList_ofList]
  have hdigits : ∀ c ∈ Nat.toDigits 10 n, c.isDigit = true :=
    fun c hc => Nat.isDigit_of_mem_toDigits (by decide) le_rfl hc
  have hnil : Nat.toDigits 10 n ≠ [] := Nat.toDigits_ne_nil
  unfold parseUnsigned
  rw [hchars]
  cases hd : Nat.toDigits 10 n with
  | nil => exact absurd hd hnil
  | cons c cs =>
    rw [hd] at hdigits
    -- a decimal number has no sign
    have hplus : c ≠ '+' := by
      rintro rfl
      cases hdigits '+' List.mem_cons_self
    have hall : (c :: cs).all Char.isDigit = true := List.all_eq_true.mpr hdigits
    have hvalue : Nat.ofDigitChars 10 (c :: cs) 0 = n := by
      rw [← hd, Nat.ofDigitChars_ten_toDigits]
    simp [hplus, hall, hvalue, h]

def tokenHeader (writer : String) (token : WriteToken) : String :=
  writer ++ ":" ++ toString token.epoch ++ ":" ++ toString token.seq

def parseToken (value : String) : Option (String × WriteToken) := do
  let (rest, seq) ← rsplitOnce ':' value
  let (writer, epoch) ← rsplitOnce ':' rest
  return (writer, ⟨← parseUnsigned (2 ^ 64) epoch, ← parseUnsigned (2 ^ 64) seq⟩)

theorem rsplitOnce_append (rest : String) {sep : Char} {text : String} (h : sep ∉ text.toList) :
    rsplitOnce sep (rest ++ String.singleton sep ++ text) = some (rest, text) := by
  have hchars : (rest ++ String.singleton sep ++ text).toList.reverse =
      text.toList.reverse ++ sep :: rest.toList.reverse := by simp
  have hdrop : (text.toList.reverse ++ sep :: rest.toList.reverse).drop
      (text.toList.reverse.length + 1) = rest.toList.reverse := by
    rw [← List.singleton_append, ← List.append_assoc]
    exact List.drop_left' (by simp)
  unfold rsplitOnce
  rw [hchars, Lex.find_singleton (by simpa using h), Option.map_some, hdrop, List.take_left]
  simp

theorem parseToken_tokenHeader (writer : String) {token : WriteToken}
    (hepoch : token.epoch < 2 ^ 64) (hseq : token.seq < 2 ^ 64) :
    parseToken (tokenHeader writer token) = some (writer, token) := by
  have hdigit : ':'.isDigit = false := by decide
  have hsplit := rsplitOnce_append (writer ++ ":" ++ toString token.epoch)
    (not_mem_toString hdigit token.seq)
  have hsplit' := rsplitOnce_append writer (not_mem_toString hdigit token.epoch)
  unfold parseToken tokenHeader
  rw [show ":" = String.singleton ':' from rfl] at *
  rw [hsplit, Option.bind_eq_bind, Option.bind_some]
  dsimp only
  rw [hsplit', Option.bind_eq_bind, Option.bind_some]
  dsimp only
  rw [parseUnsigned_toString hepoch, parseUnsigned_toString hseq]
  rfl

end S3Cache.Sync

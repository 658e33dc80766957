import Mathlib.Algebra.Group.Nat.Defs
import Mathlib.Data.Nat.Basic
import Mathlib.Tactic.Common
import S3Cache.Lib.ByteCodec

/-! The postcard wire format: base-128 numbers, length-prefixed texts and sequences, options and
variants behind a tag, and one value after another.  With numbers of a fixed width it is the layout
of bincode 1. -/

namespace Postcard

structure Format (α : Type) where
  write : α → List UInt8
  read : List UInt8 → Option (α × List UInt8)

variable {α β : Type}

def Format.Reads (f : Format α) (a : α) : Prop :=
  ∀ rest, f.read (f.write a ++ rest) = some (a, rest)

def Format.fromSlice (f : Format α) (bytes : List UInt8) : Option α :=
  match f.read bytes with
  | some (a, []) => some a
  | _ => none

theorem Format.Reads.fromSlice {f : Format α} {a : α} (h : f.Reads a) :
    f.fromSlice (f.write a) = some a := by
  have hread := h []
  rw [List.append_nil] at hread
  rw [Format.fromSlice, hread]

/-! ### Lengths -/

def writeVarint : Nat → Nat → List UInt8
  | 0, _ => []
  | w + 1, n =>
    if n < 128 then [UInt8.ofNat n] else UInt8.ofNat (n % 128 + 128) :: writeVarint w (n / 128)

def readVarint : Nat → List UInt8 → Option (Nat × List UInt8)
  | 0, _ => none
  | _, [] => none
  | w + 1, b :: rest =>
    if b.toNat < 128 then some (b.toNat, rest)
    else (readVarint w rest).map fun (n, rest) => (b.toNat % 128 + 128 * n, rest)

theorem writeVarint_ne_nil (w n : Nat) : writeVarint (w + 1) n ≠ [] := by
  rw [writeVarint]
  split <;> exact List.cons_ne_nil _ _

theorem length_writeVarint (w n : Nat) : (writeVarint w n).length ≤ w := by
  induction w generalizing n with
  | zero => exact le_rfl
  | succ w ih =>
    rw [writeVarint]
    split
    · exact Nat.succ_le_succ (Nat.zero_le w)
    · exact Nat.succ_le_succ (ih _)

theorem readVarint_writeVarint {w n fuel : Nat} (h : n < 128 ^ (w + 1))
    (hfuel : (writeVarint (w + 1) n).length ≤ fuel) (rest : List UInt8) :
    readVarint fuel (writeVarint (w + 1) n ++ rest) = some (n, rest) := by
  induction w generalizing n fuel with
  | zero =>
    have hn : n < 128 := by simpa using h
    have hbyte : (UInt8.ofNat n).toNat = n := by
      rw [UInt8.toNat_ofNat']
      omega
    rw [writeVarint, if_pos hn] at hfuel ⊢
    obtain ⟨fuel, rfl⟩ := Nat.exists_eq_add_one_of_ne_zero (Nat.pos_iff_ne_zero.mp hfuel)
    rw [List.singleton_append, readVarint, hbyte, if_pos hn]
  | succ w ih =>
    obtain ⟨fuel, rfl⟩ := Nat.exists_eq_add_one_of_ne_zero (fun hzero => by
      rw [hzero, Nat.le_zero, List.length_eq_zero_iff] at hfuel
      exact writeVarint_ne_nil _ _ hfuel : fuel ≠ 0)
    rw [writeVarint] at hfuel ⊢
    split at hfuel
    · next hn =>
      have hbyte : (UInt8.ofNat n).toNat = n := by
        rw [UInt8.toNat_ofNat']
        omega
      rw [if_pos hn, List.singleton_append, readVarint, hbyte, if_pos hn]
    · next hn =>
      have hbyte : (UInt8.ofNat (n % 128 + 128)).toNat = n % 128 + 128 := by
        rw [UInt8.toNat_ofNat']
        omega
      have hhigh : n / 128 < 128 ^ (w + 1) := Nat.div_lt_of_lt_mul (by rwa [Nat.pow_succ'] at h)
      rw [if_neg hn, List.cons_append, readVarint, hbyte, if_neg (by omega),
        ih hhigh (Nat.succ_le_succ_iff.mp hfuel)]
      simp only [Option.map_some, Option.some.injEq, Prod.mk.injEq, and_true]
      omega

namespace Format

def uint (w bound : Nat) : Format Nat where
  write := writeVarint w
  read bytes := (readVarint w bytes).filter (·.1 < bound)

def u32 : Format Nat := uint 5 (2 ^ 32)

def varint : Format Nat := uint 10 (2 ^ 64)

theorem uint_reads {w bound n : Nat} (hn : n < 128 ^ (w + 1)) (h : n < bound) :
    (uint (w + 1) bound).Reads n := by
  intro rest
  show (readVarint (w + 1) (writeVarint (w + 1) n ++ rest)).filter _ = _
  rw [readVarint_writeVarint hn (length_writeVarint ..), Option.filter_some,
    if_pos (decide_eq_true h)]

theorem varint_reads {n : Nat} (h : n < 2 ^ 64) : varint.Reads n := uint_reads (by omega) h

theorem u32_reads {n : Nat} (h : n < 2 ^ 32) : u32.Reads n := uint_reads (by omega) h

def natural : Format Nat where
  write n := writeVarint (n.log2 / 7 + 1) n
  read bytes := readVarint bytes.length bytes

theorem natural_reads (n : Nat) : natural.Reads n := by
  intro rest
  have hlt : n < 128 ^ (n.log2 / 7 + 1) := by
    calc n < 2 ^ (n.log2 + 1) := Nat.lt_log2_self
      _ ≤ 2 ^ (7 * (n.log2 / 7 + 1)) := Nat.pow_le_pow_right (by decide) (by omega)
      _ = 128 ^ (n.log2 / 7 + 1) := by rw [Nat.pow_mul]
  refine readVarint_writeVarint hlt ?_ rest
  rw [List.length_append]
  exact Nat.le_add_right ..

def fixed (w : Nat) : Format Nat where
  write := ByteCodec.leBytes w
  read bytes :=
    if bytes.length < w then none
    else some (ByteCodec.ofLeBytes (bytes.take w), bytes.drop w)

/-! ### Values of other types, and variants -/

def map (f : Format α) (into : β → α) (of : α → Option β) : Format β where
  write b := f.write (into b)
  read bytes := (f.read bytes).bind fun (a, rest) => (of a).map (·, rest)

theorem map_reads {f : Format α} {into : β → α} {of : α → Option β} {b : β} (hf : f.Reads (into b))
    (h : of (into b) = some b) : (f.map into of).Reads b := by
  intro rest
  show (f.read (f.write (into b) ++ rest)).bind _ = _
  rw [hf, Option.bind_some]
  show (of (into b)).map _ = _
  rw [h]
  rfl

def unit (a : α) : Format α where
  write _ := []
  read bytes := some (a, bytes)

def nothing : Format α where
  write _ := []
  read _ := none

def tagged (tag : Format Nat) (tagOf : α → Nat) (body : Nat → Format α) : Format α where
  write a := tag.write (tagOf a) ++ (body (tagOf a)).write a
  read bytes := (tag.read bytes).bind fun (i, rest) => (body i).read rest

theorem tagged_reads {tag : Format Nat} {tagOf : α → Nat} {body : Nat → Format α} {a : α}
    (ht : tag.Reads (tagOf a)) (hb : (body (tagOf a)).Reads a) :
    (tagged tag tagOf body).Reads a := by
  intro rest
  show (tag.read (tag.write (tagOf a) ++ (body (tagOf a)).write a ++ rest)).bind _ = _
  rw [List.append_assoc, ht, Option.bind_some]
  exact hb rest

def zigzag (n : Int) : Nat := if 0 ≤ n then 2 * n.toNat else 2 * (-n).toNat - 1

def unzigzag (n : Nat) : Int := if n % 2 = 0 then (n / 2 : Nat) else -((n + 1) / 2 : Nat)

theorem unzigzag_zigzag (n : Int) : unzigzag (zigzag n) = n := by
  unfold unzigzag zigzag
  split <;> split <;> omega

def i64 : Format Int64 := varint.map (zigzag ·.toInt) (some <| Int64.ofInt <| unzigzag ·)

theorem i64_reads (n : Int64) : i64.Reads n := by
  refine map_reads (varint_reads ?_) (by rw [unzigzag_zigzag, Int64.ofInt_toInt])
  have hlt := n.toInt_lt
  have hle := n.le_toInt
  unfold zigzag
  split <;> omega

/-! ### Texts, options, pairs and sequences -/

def textOf (len : Format Nat) : Format String where
  write s := len.write s.utf8ByteSize ++ s.toByteArray.data.toList
  read bytes :=
    (len.read bytes).bind fun (n, rest) =>
      if rest.length < n then none
      else (String.fromUTF8? ⟨(rest.take n).toArray⟩).map (·, rest.drop n)

def text : Format String := textOf varint

theorem textOf_reads {len : Format Nat} {s : String} (h : len.Reads s.utf8ByteSize) :
    (textOf len).Reads s := by
  intro rest
  have hlen : s.toByteArray.data.toList.length = s.utf8ByteSize := rfl
  have hutf : String.fromUTF8? ⟨s.toByteArray.data.toList.toArray⟩ = some s := by
    rw [Array.toArray_toList, String.fromUTF8?]
    exact dif_pos s.isValidUTF8
  show (len.read (len.write s.utf8ByteSize ++ s.toByteArray.data.toList ++ rest)).bind _ = _
  rw [List.append_assoc, h, Option.bind_some]
  simp only [List.length_append, hlen]
  rw [if_neg (by omega), List.take_left' hlen, List.drop_left' hlen, hutf, Option.map_some]

theorem text_reads {s : String} (h : s.utf8ByteSize < 2 ^ 64) : text.Reads s :=
  textOf_reads (varint_reads h)

def option (f : Format α) : Format (Option α) where
  write
    | none => [0]
    | some a => 1 :: f.write a
  read
    | 0 :: rest => some (none, rest)
    | 1 :: rest => (f.read rest).map fun (a, rest) => (some a, rest)
    | _ => none

theorem option_reads {f : Format α} {a : Option α} (h : ∀ x ∈ a, f.Reads x) :
    (option f).Reads a := by
  intro rest
  cases a with
  | none => rfl
  | some x =>
    show (f.read (f.write x ++ rest)).map _ = _
    rw [h x rfl]
    rfl

def pair (f : Format α) (g : Format β) : Format (α × β) where
  write p := f.write p.1 ++ g.write p.2
  read bytes := (f.read bytes).bind fun (a, rest) => (g.read rest).map fun (b, rest) => ((a, b), rest)

theorem pair_reads {f : Format α} {g : Format β} {p : α × β} (hf : f.Reads p.1)
    (hg : g.Reads p.2) : (pair f g).Reads p := by
  intro rest
  show (f.read (f.write p.1 ++ g.write p.2 ++ rest)).bind _ = _
  rw [List.append_assoc, hf, Option.bind_some]
  show (g.read (g.write p.2 ++ rest)).map _ = _
  rw [hg]
  rfl

def readMany (f : Format α) : Nat → List UInt8 → Option (List α × List UInt8)
  | 0, bytes => some ([], bytes)
  | n + 1, bytes =>
    (f.read bytes).bind fun (a, rest) => (readMany f n rest).map fun (l, rest) => (a :: l, rest)

def sequence (f : Format α) : Format (List α) where
  write l := varint.write l.length ++ l.flatMap f.write
  read bytes := (varint.read bytes).bind fun (n, rest) => readMany f n rest

/-- The bytes of a value that reads back: one past a machine's bounds has none. -/
def toVec [DecidableEq α] (f : Format α) (a : α) : Option (List UInt8) :=
  if f.fromSlice (f.write a) = some a then some (f.write a) else none

theorem fromSlice_toVec [DecidableEq α] {f : Format α} {a : α} {bytes : List UInt8}
    (h : f.toVec a = some bytes) : f.fromSlice bytes = some a := by
  obtain ⟨hreads, h⟩ := Option.ite_none_right_eq_some.mp h
  cases h
  exact hreads

/-! ### Sizes -/

theorem length_text (s : String) : s.utf8ByteSize < (text.write s).length := by
  have hvarint : 0 < (varint.write s.utf8ByteSize).length :=
    List.length_pos_iff.mpr (writeVarint_ne_nil 9 _)
  have hlen : s.toByteArray.data.toList.length = s.utf8ByteSize := rfl
  show _ < (varint.write s.utf8ByteSize ++ s.toByteArray.data.toList).length
  rw [List.length_append, hlen]
  omega

theorem length_option_some (f : Format α) (a : α) :
    ((option f).write (some a)).length = (f.write a).length + 1 := rfl

theorem length_pair (f : Format α) (g : Format β) (p : α × β) :
    ((pair f g).write p).length = (f.write p.1).length + (g.write p.2).length := List.length_append

end Format

end Postcard

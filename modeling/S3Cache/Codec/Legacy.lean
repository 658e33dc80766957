import Mathlib.Algebra.BigOperators.Fin
import Mathlib.Algebra.Order.BigOperators.Group.Finset
import S3Cache.Lib.ByteCodec
import S3Cache.Lib.Utf8

/-! The read-only decoder of the bincode 1 layout (`codec/legacy.rs`).  What a type's
`Deserialize` asks of the reader, and in which order, is fixed by the type: a `Shape` says
it, and `Shape.Value` is what the visitors are handed. -/

namespace S3Cache.Legacy

open ByteCodec Utf8

inductive Error
  | truncated
  | trailing
  | invalid (what : String)
  | custom
  deriving DecidableEq, Repr

inductive Fault
  | refused (error : Error)
  | panicked
  deriving DecidableEq, Repr

structure Reader where
  input : List UInt8
  elements : Nat := 0
  deriving DecidableEq, Repr

def Reader.count (r : Reader) : Reader := { r with elements := r.elements + 1 }

theorem Reader.count_mk (input : List UInt8) (n : Nat) :
    (Reader.mk input n).count = ⟨input, n + 1⟩ := rfl

@[simp] theorem Reader.count_input (r : Reader) : r.count.input = r.input := rfl

@[simp] theorem Reader.count_elements (r : Reader) : r.count.elements = r.elements + 1 := rfl

abbrev Decode := EStateM Fault Reader

def refuse {α : Type} (error : Error) : Decode α := throw (.refused error)

def splitAt (bytes : List UInt8) (mid : Nat) : Decode (List UInt8 × List UInt8) :=
  if mid ≤ bytes.length then return (bytes.take mid, bytes.drop mid) else throw .panicked

namespace Reader

def take (len : Nat) : Decode (List UInt8) := do
  let r ← get
  if r.input.length < len then refuse .truncated
  else
    let (head, rest) ← splitAt r.input len
    set { r with input := rest }
    return head

def array (n : Nat) : Decode (List UInt8) := do
  let part ← take n
  if part.length = n then return part else refuse (.invalid "fixed-width field")

def u8 : Decode UInt8 := do
  let part ← array 1
  match part[0]? with
  | some b => return b
  | none => throw .panicked

def u32 : Decode Nat := do return ofLeBytes (← array 4)

def len : Decode Nat := do
  let len := ofLeBytes (← array 8)
  if len ≤ (← get).input.length then return len else refuse .truncated

def bytes : Decode (List UInt8) := do take (← len)

def fromUtf8 (bytes : List UInt8) (what : String) : Decode String :=
  match String.fromUTF8? ⟨bytes.toArray⟩ with
  | some s => return s
  | none => refuse (.invalid what)

def str : Decode String := do fromUtf8 (← bytes) "string is not UTF-8"

def charWidth : List UInt8 → Decode Nat
  | [] => refuse .truncated
  | lead :: _ =>
    match leadWidth lead with
    | some width => return width
    | none => refuse (.invalid "char lead byte")

def char : Decode Char := do
  let width ← charWidth (← get).input
  let encoded ← fromUtf8 (← take width) "char is not UTF-8"
  match encoded.toList with
  | c :: _ => return c
  | [] => refuse (.invalid "empty char")

def tag (what : String) : Decode Bool := do
  match ← u8 with
  | 0 => return false
  | 1 => return true
  | _ => refuse (.invalid what)

end Reader

section Access

variable {α β : Type}

def option (seed : Decode α) : Decode (Option α) := do
  if ← Reader.tag "option tag" then return some (← seed) else return none

def element (seed : Decode α) : Decode α := do
  modify Reader.count
  seed

def both (first : Decode α) (second : Decode β) : Decode (α × β) := do
  let x ← first
  let y ← second
  return (x, y)

def items (seed : Decode α) : Nat → Decode (List α)
  | 0 => return []
  | remaining + 1 => do
    let x ← element seed
    let xs ← items seed remaining
    return x :: xs

def counted (seed : Decode α) : Decode (List α) := do
  let remaining ← Reader.len
  items seed remaining

def variant {n : Nat} {γ : Fin n → Type} (access : (i : Fin n) → Decode (γ i)) :
    Decode ((i : Fin n) × γ i) := do
  let index ← Reader.u32
  if h : index < n then return ⟨⟨index, h⟩, ← access ⟨index, h⟩⟩ else refuse .custom

end Access

inductive Fixed
  | i8 | i16 | i32 | i64 | i128 | u8 | u16 | u32 | u64 | u128 | f32 | f64
  deriving DecidableEq, Repr

def Fixed.bytes : Fixed → Nat
  | .i8 | .u8 => 1
  | .i16 | .u16 => 2
  | .i32 | .u32 | .f32 => 4
  | .i64 | .u64 | .f64 => 8
  | .i128 | .u128 => 16

/-- A tuple, struct, tuple variant or struct variant is a run of `field`s that ends in `unit`;
a newtype is what it holds. -/
inductive Shape
  | bool
  | fixed (k : Fixed)
  | char
  | str
  | bytes
  | unit
  | field (s t : Shape)
  | option (s : Shape)
  | enum (n : Nat) (variants : Fin n → Shape)
  | seq (s : Shape)
  | map (k v : Shape)

namespace Shape

/-- An integer or float is its bits.  A map is the entries in the order they are written, as
`visit_map` is handed them. -/
def Value : Shape → Type
  | bool => Bool
  | fixed k => BitVec (8 * k.bytes)
  | char => Char
  | str => String
  | bytes => List UInt8
  | unit => Unit
  | field s t => s.Value × t.Value
  | option s => Option s.Value
  | enum n variants => (i : Fin n) × (variants i).Value
  | seq s => List s.Value
  | map k v => List (k.Value × v.Value)

def encode : (s : Shape) → s.Value → List UInt8
  | bool, b => [cond b 1 0]
  | fixed k, n => leBytes k.bytes (BitVec.toNat n)
  | char, c => String.utf8EncodeChar c
  | str, text => leBytes 8 (utf8 text).length ++ utf8 text
  | bytes, body => (leBytes 8 (List.length body)).append body
  | unit, _ => []
  | field s t, (x, y) => s.encode x ++ t.encode y
  | option s, o => Option.elim o [0] fun x => 1 :: s.encode x
  | enum _ variants, ⟨i, x⟩ => leBytes 4 i ++ (variants i).encode x
  | seq s, xs => leBytes 8 (List.length xs) ++ List.flatMap s.encode xs
  | map k v, xs => leBytes 8 (List.length xs) ++
      List.flatMap (fun x => k.encode x.1 ++ v.encode x.2) xs

def decode : (s : Shape) → Decode s.Value
  | bool => Reader.tag "bool"
  | fixed k => do return BitVec.ofNat (8 * k.bytes) (ofLeBytes (← Reader.array k.bytes))
  | char => Reader.char
  | str => Reader.str
  | bytes => Reader.bytes
  | unit => return ()
  | field s t => both (element s.decode) t.decode
  | option s => Legacy.option s.decode
  | enum _ variants => Legacy.variant fun i => (variants i).decode
  | seq s => counted s.decode
  | map k v => counted (both k.decode v.decode)

def wide : Shape → Bool
  | unit => false
  | field s t => s.wide || t.wide
  | _ => true

/-- The elements and entries have a non-zero width, and an enum's variants are numbered by
`u32`s. -/
def Proper : Shape → Prop
  | field s t => s.Proper ∧ t.Proper
  | option s => s.Proper
  | enum n variants => n ≤ 2 ^ 32 ∧ ∀ i, (variants i).Proper
  | seq s => s.wide ∧ s.Proper
  | map k v => (k.wide || v.wide) ∧ k.Proper ∧ v.Proper
  | _ => True

def weight : Shape → Nat
  | field s t => s.weight + 1 + t.weight
  | option s => s.weight
  | enum _ variants => ∑ i, (variants i).weight
  | seq s => 2 * s.weight + 1
  | map k v => 2 * (k.weight + v.weight) + 1
  | _ => 0

end Shape

structure Form (α : Type) where
  shape : Shape
  proper : shape.Proper
  toValue : α → shape.Value
  ofValue : shape.Value → Option α
  ofValue_toValue : ∀ a, ofValue (toValue a) = some a

namespace Form

variable {α : Type}

def write (f : Form α) (a : α) : List UInt8 := f.shape.encode (f.toValue a)

def read (f : Form α) : Decode α := do
  match f.ofValue (← f.shape.decode) with
  | some a => return a
  | none => refuse .custom

def writeOption (f : Form α) (o : Option α) : List UInt8 := o.elim [0] fun a => 1 :: f.write a

def readOption (f : Form α) : Decode (Option α) := element (option f.read)

def text : Form String := ⟨.str, trivial, id, some, fun _ => rfl⟩

def i64 : Form Int64 :=
  ⟨.fixed .i64, trivial, Int64.toBitVec, fun n => some (.ofBitVec n), fun _ => rfl⟩

def u64 : Form UInt64 :=
  ⟨.fixed .u64, trivial, UInt64.toBitVec, fun n => some (.ofBitVec n), fun _ => rfl⟩

def textMap : Form (List (String × String)) :=
  ⟨.map .str .str, ⟨rfl, trivial, trivial⟩, id, some, fun _ => rfl⟩

end Form

section Slice

variable {α : Type}

def decodeAll (decode : Decode α) : Decode α := do
  let value ← decode
  if (← get).input.isEmpty then return value else refuse .trailing

def fromSlice (decode : Decode α) (bytes : List UInt8) : Except Fault α :=
  match decodeAll decode ⟨bytes, 0⟩ with
  | .ok value _ => .ok value
  | .error fault _ => .error fault

def elementsDecoded (decode : Decode α) (bytes : List UInt8) : Nat :=
  match decodeAll decode ⟨bytes, 0⟩ with
  | .ok _ r | .error _ r => r.elements

end Slice

end S3Cache.Legacy

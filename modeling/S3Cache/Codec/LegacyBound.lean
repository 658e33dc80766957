import Mathlib.Tactic.Ring
import S3Cache.Codec.LegacyLaws

/-! The legacy decoder on arbitrary bytes: no panic, and a bound on the elements it decodes. -/

namespace S3Cache.Legacy

open ByteCodec Utf8

/-! ### What decoding costs -/

def Within (weight : Nat) (r r' : Reader) : Prop :=
  ∃ used, r.input.length = r'.input.length + used ∧
    r'.elements ≤ r.elements + weight * (used + 1)

theorem Within.refl (r : Reader) : Within 0 r r := ⟨0, rfl, Nat.le_add_right _ _⟩

theorem Within.mono {w w' : Nat} {r r' : Reader} (hw : w ≤ w') (h : Within w r r') :
    Within w' r r' := by
  obtain ⟨used, hused, hle⟩ := h
  exact ⟨used, hused, hle.trans (Nat.add_le_add_left (Nat.mul_le_mul_right _ hw) _)⟩

theorem Within.trans {w w' : Nat} {r r₁ r₂ : Reader} (h : Within w r r₁) (h' : Within w' r₁ r₂) :
    Within (w + w') r r₂ := by
  obtain ⟨u, hu, hle⟩ := h
  obtain ⟨u', hu', hle'⟩ := h'
  refine ⟨u' + u, by omega, ?_⟩
  have hw : w * (u + 1) ≤ w * (u' + u + 1) := Nat.mul_le_mul_left w (by omega)
  have hw' : w' * (u' + 1) ≤ w' * (u' + u + 1) := Nat.mul_le_mul_left w' (by omega)
  rw [Nat.add_mul]
  omega

theorem Within.element {w : Nat} {r r' : Reader}
    (h : Within w r.count r') : Within (w + 1) r r' := by
  obtain ⟨used, hused, hle⟩ := h
  refine ⟨used, hused, hle.trans ?_⟩
  rw [Nat.add_mul, Reader.count_elements]
  omega

def Paid (weight : Nat) (r r' : Reader) : Prop :=
  ∃ used, r.input.length = r'.input.length + used ∧ r'.elements ≤ r.elements + weight * used

theorem Paid.within {w : Nat} {r r₁ r₂ : Reader} (h : Paid w r r₁) (h' : Within w r₁ r₂) :
    Within w r r₂ := by
  obtain ⟨u, hu, hle⟩ := h
  obtain ⟨u', hu', hle'⟩ := h'
  refine ⟨u + u', by omega, ?_⟩
  calc r₂.elements ≤ r.elements + w * u + w * (u' + 1) := by omega
    _ = r.elements + w * (u + u' + 1) := by ring

theorem Within.paid {w : Nat} {r r' : Reader} (hshort : r'.input.length < r.input.length)
    (h : Within w r.count r') : Paid (2 * w + 1) r r' := by
  obtain ⟨used, hused, hle⟩ := h
  refine ⟨used, hused, hle.trans ?_⟩
  have hpos : 1 ≤ used := by
    rw [Reader.count_input] at hused
    omega
  have hw : w * 1 ≤ w * used := Nat.mul_le_mul_left w hpos
  rw [Reader.count_elements]
  calc r.elements + 1 + w * (used + 1) = r.elements + 1 + w * used + w * 1 := by ring
    _ ≤ r.elements + used + w * used + w * used := by omega
    _ = r.elements + (2 * w + 1) * used := by ring

structure Bounded {α : Type} (weight : Nat) (m : Decode α) : Prop where
  ok : ∀ ⦃r r' : Reader⦄ ⦃a : α⦄, m r = .ok a r' → Within weight r r'
  error : ∀ ⦃r r' : Reader⦄ ⦃e : Fault⦄, m r = .error e r' → e ≠ .panicked ∧ Within weight r r'

section Bounded

variable {α β : Type} {m : Decode α} {f : α → Decode β} {w w' : Nat}

theorem Bounded.mono (hw : w ≤ w') (h : Bounded w m) : Bounded w' m where
  ok _ _ _ hm := (h.ok hm).mono hw
  error _ _ _ hm := ⟨(h.error hm).1, (h.error hm).2.mono hw⟩

theorem Bounded.pure (a : α) : Bounded 0 (pure a) where
  ok r r' b hm := by
    obtain ⟨rfl, rfl⟩ := pure_eq_ok hm
    exact Within.refl r'
  error _ _ _ hm := by cases hm

theorem Bounded.refuse (error : Error) : Bounded 0 (refuse error : Decode α) where
  ok _ _ _ hm := by cases hm
  error r r' e hm := by
    cases hm
    exact ⟨Fault.noConfusion, Within.refl r⟩

theorem Bounded.bind (h : Bounded w m) (hf : ∀ a, Bounded w' (f a)) :
    Bounded (w + w') (m >>= f) where
  ok r r' b hm := by
    obtain ⟨a, r₁, ha, hb⟩ := bind_eq_ok hm
    exact (h.ok ha).trans ((hf a).ok hb)
  error r r' e hm := by
    rcases bind_eq_error hm with ha | ⟨a, r₁, ha, hb⟩
    · exact ⟨(h.error ha).1, (h.error ha).2.mono (Nat.le_add_right w w')⟩
    · exact ⟨((hf a).error hb).1, (h.ok ha).trans ((hf a).error hb).2⟩

theorem Bounded.last (h : Bounded w m) (hf : ∀ a, Bounded 0 (f a)) : Bounded w (m >>= f) :=
  h.bind hf

theorem Bounded.then (h : Bounded 0 m) (hf : ∀ a, Bounded w (f a)) : Bounded w (m >>= f) := by
  have := h.bind hf
  rwa [Nat.zero_add] at this

theorem Bounded.get : Bounded 0 (get : Decode Reader) where
  ok r r' a hm := by
    cases hm
    exact Within.refl r
  error _ _ _ hm := by cases hm

theorem Bounded.take (len : Nat) : Bounded 0 (Reader.take len) where
  ok r r' part hm := by
    by_cases hlen : len ≤ r.input.length
    · rw [Reader.take_of_le hlen] at hm
      cases hm
      refine ⟨len, ?_, Nat.le_add_right _ _⟩
      rw [List.length_drop, Nat.sub_add_cancel hlen]
    · rw [Reader.take_of_lt (Nat.lt_of_not_le hlen)] at hm
      cases hm
  error r r' e hm := by
    by_cases hlen : len ≤ r.input.length
    · rw [Reader.take_of_le hlen] at hm
      cases hm
    · rw [Reader.take_of_lt (Nat.lt_of_not_le hlen)] at hm
      cases hm
      exact ⟨Fault.noConfusion, Within.refl r⟩

theorem Bounded.array (n : Nat) : Bounded 0 (Reader.array n) := by
  rw [Reader.array_eq]
  exact Bounded.take n

theorem Bounded.u8 : Bounded 0 Reader.u8 where
  ok r r' b hm := by
    rw [Reader.u8_eq] at hm
    split at hm
    · cases hm
    · rename_i hinput
      cases hm
      exact ⟨1, congrArg List.length hinput, Nat.le_add_right _ _⟩
  error r r' e hm := by
    rw [Reader.u8_eq] at hm
    split at hm
    · cases hm
      exact ⟨Fault.noConfusion, Within.refl r⟩
    · cases hm

theorem Bounded.tag (what : String) : Bounded 0 (Reader.tag what) := by
  refine Bounded.u8.then ?_
  intro b
  split
  · exact Bounded.pure false
  · exact Bounded.pure true
  · exact Bounded.refuse _

theorem Bounded.u32 : Bounded 0 Reader.u32 := (Bounded.array 4).then fun _ => Bounded.pure _

theorem Bounded.len : Bounded 0 Reader.len := by
  refine (Bounded.array 8).then fun part => Bounded.get.then fun r => ?_
  split
  · exact Bounded.pure _
  · exact Bounded.refuse _

theorem Bounded.bytes : Bounded 0 Reader.bytes := Bounded.len.then Bounded.take

theorem Bounded.fromUtf8 (part : List UInt8) (what : String) :
    Bounded 0 (Reader.fromUtf8 part what) := by
  rw [Reader.fromUtf8]
  split
  · exact Bounded.pure _
  · exact Bounded.refuse _

theorem Bounded.str : Bounded 0 Reader.str := Bounded.bytes.then fun _ => Bounded.fromUtf8 _ _

theorem Bounded.charWidth (input : List UInt8) : Bounded 0 (Reader.charWidth input) := by
  cases input with
  | nil => exact Bounded.refuse _
  | cons lead tail =>
    rw [Reader.charWidth]
    split
    · exact Bounded.pure _
    · exact Bounded.refuse _

theorem Bounded.char : Bounded 0 Reader.char := by
  refine Bounded.get.then fun r => (Bounded.charWidth r.input).then fun width =>
    (Bounded.take width).then fun part => (Bounded.fromUtf8 part _).then fun encoded => ?_
  split
  · exact Bounded.pure _
  · exact Bounded.refuse _

theorem Bounded.option (h : Bounded w m) : Bounded w (option m) := by
  refine (Bounded.tag _).then fun b => ?_
  cases b with
  | false => exact (Bounded.pure none).mono (Nat.zero_le w)
  | true => exact h.last fun x => Bounded.pure (some x)

theorem Bounded.element (h : Bounded w m) : Bounded (w + 1) (element m) where
  ok _ _ _ hm := (h.ok hm).element
  error _ _ _ hm := ⟨(h.error hm).1, (h.error hm).2.element⟩

theorem Bounded.both {m' : Decode β} (h : Bounded w m) (h' : Bounded w' m') :
    Bounded (w + w') (both m m') :=
  h.bind fun x => h'.last fun y => Bounded.pure (x, y)

theorem Bounded.items (h : Bounded w m)
    (hshort : ∀ ⦃r r' : Reader⦄ ⦃a : α⦄, m r = .ok a r' → r'.input.length < r.input.length)
    (n : Nat) : Bounded (2 * w + 1) (items m n) := by
  induction n with
  | zero => exact (Bounded.pure []).mono (Nat.zero_le _)
  | succ n ih =>
    have hrest : ∀ x, Bounded (2 * w + 1) (do let xs ← Legacy.items m n; return x :: xs) :=
      fun x => ih.last fun xs => Bounded.pure (x :: xs)
    have hpaid : ∀ ⦃r r' : Reader⦄ ⦃x : α⦄, Legacy.element m r = .ok x r' →
        Paid (2 * w + 1) r r' := by
      intro r r' x hx
      rw [element_apply] at hx
      have hlt := hshort hx
      rw [Reader.count_input] at hlt
      exact (h.ok hx).paid hlt
    constructor
    · intro r r' xs hm
      obtain ⟨x, r₁, hx, hxs⟩ := bind_eq_ok hm
      exact (hpaid hx).within ((hrest x).ok hxs)
    · intro r r' e hm
      rcases bind_eq_error hm with hx | ⟨x, r₁, hx, hxs⟩
      · obtain ⟨hcalm, hwithin⟩ := h.element.error hx
        exact ⟨hcalm, hwithin.mono (by omega)⟩
      · obtain ⟨hcalm, hwithin⟩ := (hrest x).error hxs
        exact ⟨hcalm, (hpaid hx).within hwithin⟩

theorem Bounded.counted (h : Bounded w m)
    (hshort : ∀ ⦃r r' : Reader⦄ ⦃a : α⦄, m r = .ok a r' → r'.input.length < r.input.length) :
    Bounded (2 * w + 1) (counted m) :=
  Bounded.len.then fun n => h.items hshort n

theorem Bounded.variant {n : Nat} {γ : Fin n → Type} {access : (i : Fin n) → Decode (γ i)}
    (h : ∀ i, Bounded w (access i)) : Bounded w (variant access) := by
  refine Bounded.u32.then fun index => ?_
  by_cases hi : index < n
  · rw [dif_pos hi]
    exact (h ⟨index, hi⟩).last fun x => Bounded.pure _
  · rw [dif_neg hi]
    exact (Bounded.refuse _).mono (Nat.zero_le w)

end Bounded

namespace Shape

theorem decode_bounded (s : Shape) (hs : s.Proper) : Bounded s.weight s.decode := by
  induction s with
  | bool => exact Bounded.tag "bool"
  | fixed k => exact (Bounded.array k.bytes).then fun _ => Bounded.pure _
  | char => exact Bounded.char
  | str => exact Bounded.str
  | bytes => exact Bounded.bytes
  | unit => exact Bounded.pure ()
  | field s t ihs iht => exact (ihs hs.1).element.both (iht hs.2)
  | option s ih => exact (ih hs).option
  | enum n variants ih =>
    refine Bounded.variant fun i => (ih i (hs.2 i)).mono ?_
    exact Finset.single_le_sum (fun j _ => Nat.zero_le (variants j).weight) (Finset.mem_univ i)
  | seq s ih =>
    exact (ih hs.2).counted (s.decode_consumes.shortens (s.encode_ne_nil hs.1))
  | map k v ihk ihv =>
    refine ((ihk hs.2.1).both (ihv hs.2.2)).counted ?_
    exact (k.decode_consumes.both v.decode_consumes).shortens ((field k v).encode_ne_nil hs.1)

end Shape

/-! ### `from_slice` -/

section Slice

variable {α : Type} {m : Decode α} {w : Nat}

theorem Bounded.decodeAll (h : Bounded w m) : Bounded w (decodeAll m) := by
  refine h.last fun value => Bounded.get.then fun r => ?_
  split
  · exact Bounded.pure value
  · exact Bounded.refuse _

theorem Bounded.fromSlice_ne_panicked (h : Bounded w m) (bytes : List UInt8) :
    fromSlice m bytes ≠ .error .panicked := by
  intro hpanic
  rw [fromSlice] at hpanic
  cases hall : Legacy.decodeAll m ⟨bytes, 0⟩ with
  | error e r =>
    rw [hall] at hpanic
    cases hpanic
    exact (h.decodeAll.error hall).1 rfl
  | ok a r =>
    rw [hall] at hpanic
    cases hpanic

theorem Bounded.elementsDecoded_le (h : Bounded w m) (bytes : List UInt8) :
    elementsDecoded m bytes ≤ w * (bytes.length + 1) := by
  have hle : ∀ r, Within w ⟨bytes, 0⟩ r → r.elements ≤ w * (bytes.length + 1) := by
    rintro r ⟨used, hused, hcount⟩
    refine hcount.trans ?_
    rw [Nat.zero_add]
    exact Nat.mul_le_mul_left _ (by simp only at hused; omega)
  rw [elementsDecoded]
  cases hall : Legacy.decodeAll m ⟨bytes, 0⟩ with
  | ok a r => exact hle r (h.decodeAll.ok hall)
  | error e r => exact hle r (h.decodeAll.error hall).2

end Slice

theorem Shape.fromSlice_strict_part {s : Shape} (hs : s.Proper) {value : s.Value}
    (hfits : Fits (s.encode value)) {part rest : List UInt8} (hpart : part ++ rest = s.encode value)
    (hrest : rest ≠ []) : ∃ e, fromSlice s.decode part = .error (.refused e) := by
  cases h : fromSlice s.decode part with
  | error e =>
    cases e with
    | refused e => exact ⟨e, rfl⟩
    | panicked => exact absurd h ((s.decode_bounded hs).fromSlice_ne_panicked part)
  | ok shorter =>
    -- the encoding would be another value's, followed by more
    have henc : part = s.encode shorter := s.decode_consumes.fromSlice_eq_ok h
    have hfits' : Fits (s.encode shorter) := by
      rw [← hpart, henc] at hfits
      exact hfits.left
    have hshort := (s.decode_reads hs shorter hfits').fromSlice rest
    have hwhole := (s.decode_reads hs value hfits).fromSlice_whole
    rw [← hpart, henc, hshort, if_neg (List.isEmpty_iff.not.mpr hrest)] at hwhole
    cases hwhole

/-- The decoder inverts bincode 1 and accepts nothing else. -/
theorem legacy_inverts_bincode (s : Shape) (hs : s.Proper) :
    (∀ value : s.Value, (s.encode value).length < 2 ^ 64 →
      fromSlice s.decode (s.encode value) = .ok value ∧
      (∀ part rest, part ++ rest = s.encode value → rest ≠ [] →
        ∃ e, fromSlice s.decode part = .error (.refused e)) ∧
      ∀ extra, extra ≠ [] →
        fromSlice s.decode (s.encode value ++ extra) = .error (.refused .trailing)) ∧
    ∀ bytes, fromSlice s.decode bytes ≠ .error .panicked ∧
      (∀ value, fromSlice s.decode bytes = .ok value → bytes = s.encode value) ∧
      elementsDecoded s.decode bytes ≤ s.weight * (bytes.length + 1) := by
  refine ⟨?_, ?_⟩
  · intro value hfits
    have hreads : Reads s.decode (s.encode value) value := s.decode_reads hs value hfits
    refine ⟨hreads.fromSlice_whole, ?_, ?_⟩
    · intro part rest hpart hrest
      exact Shape.fromSlice_strict_part hs hfits hpart hrest
    · intro extra hextra
      rw [hreads.fromSlice, if_neg (List.isEmpty_iff.not.mpr hextra)]
  · intro bytes
    have hbounded : Bounded s.weight s.decode := s.decode_bounded hs
    exact ⟨hbounded.fromSlice_ne_panicked bytes, fun value h => s.decode_consumes.fromSlice_eq_ok h,
      hbounded.elementsDecoded_le bytes⟩

def sampleShape : Shape :=
  .field (.option (.fixed .u32)) <| .field (.seq .char) <| .field (.map .str .bool) <|
    .field (.enum 2 ![.unit, .bytes]) .unit

def sampleValue : sampleShape.Value :=
  (some (7 : BitVec 32), ['a', '€'], [("k", true)], ⟨Fin.last 1, ([9, 8] : List UInt8)⟩, ())

theorem legacy_inverts_bincode_sample :
    fromSlice sampleShape.decode (sampleShape.encode sampleValue) = .ok sampleValue ∧
      ∃ e, fromSlice sampleShape.decode [1, 7, 0] = .error (.refused e) := by
  have hproper : sampleShape.Proper := by
    simp [sampleShape, Shape.Proper, Shape.wide, Fin.forall_fin_two]
  have hvalue := (legacy_inverts_bincode sampleShape hproper).1 sampleValue (by decide +kernel)
  refine ⟨hvalue.1, hvalue.2.1 [1, 7, 0] ((sampleShape.encode sampleValue).drop 3) ?_ ?_⟩
  · decide +kernel
  · decide +kernel

end S3Cache.Legacy

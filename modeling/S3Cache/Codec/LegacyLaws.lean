import S3Cache.Codec.Legacy

/-! What the legacy decoder consumes and accepts: exactly what bincode 1 writes. -/

namespace S3Cache.Legacy

open ByteCodec Utf8

/-! ### Calls in sequence -/

section Calls

variable {α β : Type} {m : Decode α} {f : α → Decode β} {r r' : Reader}

theorem bind_of_ok {a : α} (h : m r = .ok a r') : (m >>= f) r = f a r' := by
  show EStateM.bind m f r = _
  rw [EStateM.bind, h]

theorem bind_of_error {e : Fault} (h : m r = .error e r') : (m >>= f) r = .error e r' := by
  show EStateM.bind m f r = _
  rw [EStateM.bind, h]

theorem get_bind (f : Reader → Decode β) : (get >>= f) r = f r r := rfl

theorem element_apply (m : Decode α) (r : Reader) : element m r = m r.count := rfl

theorem bind_eq_ok {b : β} (h : (m >>= f) r = .ok b r') :
    ∃ a r₁, m r = .ok a r₁ ∧ f a r₁ = .ok b r' := by
  cases hm : m r with
  | ok a r₁ => exact ⟨a, r₁, rfl, (bind_of_ok hm).symm.trans h⟩
  | error e r₁ =>
    rw [bind_of_error hm] at h
    cases h

theorem bind_eq_error {e : Fault} (h : (m >>= f) r = .error e r') :
    m r = .error e r' ∨ ∃ a r₁, m r = .ok a r₁ ∧ f a r₁ = .error e r' := by
  cases hm : m r with
  | ok a r₁ => exact .inr ⟨a, r₁, rfl, (bind_of_ok hm).symm.trans h⟩
  | error e₁ r₁ =>
    rw [bind_of_error hm] at h
    cases h
    exact .inl rfl

theorem pure_eq_ok {a b : α} (h : (pure a : Decode α) r = .ok b r') : b = a ∧ r' = r := by
  cases h
  exact ⟨rfl, rfl⟩

end Calls

/-! ### The methods of the reader -/

namespace Reader

variable {r r' : Reader}

theorem take_of_le {len : Nat} (h : len ≤ r.input.length) :
    take len r = .ok (r.input.take len) { r with input := r.input.drop len } := by
  have hsplit : splitAt r.input len r = .ok (r.input.take len, r.input.drop len) r := by
    rw [splitAt, if_pos h]
    rfl
  rw [take, get_bind, if_neg (Nat.not_lt.mpr h), bind_of_ok hsplit]
  rfl

theorem take_of_lt {len : Nat} (h : r.input.length < len) :
    take len r = .error (.refused .truncated) r := by
  rw [take, get_bind, if_pos h]
  rfl

theorem take_eq_ok {len : Nat} {part : List UInt8} (h : take len r = .ok part r') :
    r.input = part ++ r'.input ∧ part.length = len := by
  by_cases hlen : len ≤ r.input.length
  · rw [take_of_le hlen] at h
    cases h
    exact ⟨(List.take_append_drop len r.input).symm, List.length_take_of_le hlen⟩
  · rw [take_of_lt (Nat.lt_of_not_le hlen)] at h
    cases h

theorem array_eq (n : Nat) : array n = take n := by
  funext r
  by_cases h : n ≤ r.input.length
  · have hlen : (r.input.take n).length = n := List.length_take_of_le h
    rw [array, bind_of_ok (take_of_le h), if_pos hlen, take_of_le h]
    rfl
  · have hlt : r.input.length < n := Nat.lt_of_not_le h
    rw [array, bind_of_error (take_of_lt hlt), take_of_lt hlt]

theorem u8_eq (r : Reader) : u8 r = match r.input with
    | [] => .error (.refused .truncated) r
    | b :: rest => .ok b { r with input := rest } := by
  obtain ⟨input, n⟩ := r
  rw [u8, array_eq]
  cases input with
  | nil => exact bind_of_error (take_of_lt Nat.zero_lt_one)
  | cons b rest => exact bind_of_ok (take_of_le (Nat.succ_le_succ (Nat.zero_le _)))

theorem u8_eq_ok {b : UInt8} (h : u8 r = .ok b r') : r.input = b :: r'.input := by
  rw [u8_eq] at h
  split at h
  · cases h
  · rename_i hinput
    cases h
    exact hinput

theorem tag_eq_ok {what : String} {b : Bool} (h : tag what r = .ok b r') :
    r.input = cond b 1 0 :: r'.input := by
  obtain ⟨byte, r₁, hbyte, h⟩ := bind_eq_ok h
  rw [u8_eq_ok hbyte]
  split at h
  · obtain ⟨rfl, rfl⟩ := pure_eq_ok h
    rfl
  · obtain ⟨rfl, rfl⟩ := pure_eq_ok h
    rfl
  · cases h

theorem ofLeBytes_eq_ok {n : Nat} {part : List UInt8} (h : array n r = .ok part r') :
    r.input = leBytes n (ofLeBytes part) ++ r'.input ∧ ofLeBytes part < 256 ^ n := by
  rw [array_eq] at h
  obtain ⟨hinput, rfl⟩ := take_eq_ok h
  rw [leBytes_ofLeBytes]
  exact ⟨hinput, ofLeBytes_lt part⟩

theorem u32_eq_ok {n : Nat} (h : u32 r = .ok n r') : r.input = leBytes 4 n ++ r'.input := by
  obtain ⟨part, r₁, hpart, h⟩ := bind_eq_ok h
  obtain ⟨rfl, rfl⟩ := pure_eq_ok h
  exact (ofLeBytes_eq_ok hpart).1

theorem len_eq_ok {n : Nat} (h : len r = .ok n r') : r.input = leBytes 8 n ++ r'.input := by
  obtain ⟨part, r₁, hpart, h⟩ := bind_eq_ok h
  rw [get_bind] at h
  split at h
  · obtain ⟨rfl, rfl⟩ := pure_eq_ok h
    exact (ofLeBytes_eq_ok hpart).1
  · cases h

theorem len_of_lt (h : r.input.length < 8) : len r = .error (.refused .truncated) r := by
  rw [len, array_eq]
  exact bind_of_error (take_of_lt h)

theorem str_of_lt (h : r.input.length < 8) : str r = .error (.refused .truncated) r :=
  bind_of_error (bind_of_error (len_of_lt h))

theorem bytes_eq_ok {body : List UInt8} (h : bytes r = .ok body r') :
    r.input = leBytes 8 body.length ++ body ++ r'.input := by
  obtain ⟨n, r₁, hn, h⟩ := bind_eq_ok h
  obtain ⟨hbody, rfl⟩ := take_eq_ok h
  rw [len_eq_ok hn, hbody, List.append_assoc]

theorem fromUtf8_eq_ok {part : List UInt8} {what text : String}
    (h : fromUtf8 part what r = .ok text r') : utf8 text = part ∧ r' = r := by
  cases hs : String.fromUTF8? ⟨part.toArray⟩ with
  | none =>
    rw [fromUtf8, hs] at h
    cases h
  | some s =>
    rw [fromUtf8, hs] at h
    obtain ⟨rfl, rfl⟩ := pure_eq_ok h
    exact ⟨utf8_of_fromUTF8 hs, rfl⟩

theorem str_eq_ok {text : String} (h : str r = .ok text r') :
    r.input = leBytes 8 (utf8 text).length ++ utf8 text ++ r'.input := by
  obtain ⟨body, r₁, hbody, h⟩ := bind_eq_ok h
  obtain ⟨rfl, rfl⟩ := fromUtf8_eq_ok h
  exact bytes_eq_ok hbody

theorem charWidth_eq_ok {input : List UInt8} {width : Nat} (h : charWidth input r = .ok width r') :
    (∃ lead tail, input = lead :: tail ∧ leadWidth lead = some width) ∧ r' = r := by
  cases input with
  | nil => cases h
  | cons lead tail =>
    cases hw : leadWidth lead with
    | none =>
      rw [charWidth, hw] at h
      cases h
    | some w =>
      rw [charWidth, hw] at h
      obtain ⟨rfl, rfl⟩ := pure_eq_ok h
      exact ⟨⟨lead, tail, rfl, hw⟩, rfl⟩

theorem char_eq_ok {c : Char} (h : char r = .ok c r') :
    r.input = String.utf8EncodeChar c ++ r'.input := by
  rw [char, get_bind] at h
  obtain ⟨width, r₁, hwidth, hwide⟩ := bind_eq_ok h
  obtain ⟨part, r₂, hpart, hmore⟩ := bind_eq_ok hwide
  obtain ⟨text, r₃, htext, hfirst⟩ := bind_eq_ok hmore
  obtain ⟨⟨lead, tail, hinput, hlead⟩, rfl⟩ := charWidth_eq_ok hwidth
  obtain ⟨hsplit, rfl⟩ := take_eq_ok hpart
  obtain ⟨rfl, rfl⟩ := fromUtf8_eq_ok htext
  -- an empty text has no first character, any other starts with the lead byte
  cases hbytes : utf8 text with
  | nil =>
    have hempty : text = "" := utf8_injective hbytes
    rw [hempty] at hfirst
    cases hfirst
  | cons b more =>
    have hb : b = lead := by
      rw [hsplit, hbytes, List.cons_append] at hinput
      exact (List.cons.inj hinput).1
    obtain ⟨d, hd, henc⟩ := eq_singleton_of_leadWidth hbytes (hb ▸ hlead)
    rw [hd] at hfirst
    obtain ⟨rfl, rfl⟩ := pure_eq_ok hfirst
    rw [hsplit, henc]

end Reader

/-! ### What is consumed -/

def Consumes {α : Type} (m : Decode α) (write : α → List UInt8) : Prop :=
  ∀ ⦃r r' : Reader⦄ ⦃a : α⦄, m r = .ok a r' → r.input = write a ++ r'.input

section Consumes

variable {α β : Type} {m : Decode α} {write : α → List UInt8}

theorem Consumes.option (h : Consumes m write) :
    Consumes (option m) fun o => o.elim [0] fun x => 1 :: write x := by
  intro r r' o hm
  obtain ⟨b, r₁, hb, hrest⟩ := bind_eq_ok hm
  rw [Reader.tag_eq_ok hb]
  cases b with
  | false =>
    obtain ⟨rfl, rfl⟩ := pure_eq_ok hrest
    rfl
  | true =>
    obtain ⟨x, r₂, hx, hpure⟩ := bind_eq_ok hrest
    obtain ⟨rfl, rfl⟩ := pure_eq_ok hpure
    rw [h hx]
    rfl

theorem Consumes.element (h : Consumes m write) : Consumes (element m) write := by
  intro r r' a hm
  rw [element_apply] at hm
  rw [← h hm, Reader.count_input]

theorem Consumes.both {m' : Decode β} {write' : β → List UInt8} (h : Consumes m write)
    (h' : Consumes m' write') : Consumes (both m m') fun p => write p.1 ++ write' p.2 := by
  intro r r' p hm
  obtain ⟨x, r₁, hx, hrest⟩ := bind_eq_ok hm
  obtain ⟨y, r₂, hy, hpure⟩ := bind_eq_ok hrest
  obtain ⟨rfl, rfl⟩ := pure_eq_ok hpure
  rw [h hx, h' hy, List.append_assoc]

theorem Consumes.items (h : Consumes m write) (n : Nat) {r r' : Reader} {xs : List α}
    (hm : items m n r = .ok xs r') : r.input = xs.flatMap write ++ r'.input ∧ xs.length = n := by
  induction n generalizing r r' xs with
  | zero =>
    obtain ⟨rfl, rfl⟩ := pure_eq_ok hm
    exact ⟨rfl, rfl⟩
  | succ n ih =>
    obtain ⟨x, r₁, hx, hrest⟩ := bind_eq_ok hm
    obtain ⟨ys, r₂, hys, hpure⟩ := bind_eq_ok hrest
    obtain ⟨rfl, rfl⟩ := pure_eq_ok hpure
    obtain ⟨hinput, rfl⟩ := ih hys
    rw [h.element hx, hinput, List.flatMap_cons, List.append_assoc]
    exact ⟨rfl, rfl⟩

theorem Consumes.counted (h : Consumes m write) :
    Consumes (counted m) fun xs => leBytes 8 xs.length ++ xs.flatMap write := by
  intro r r' xs hm
  obtain ⟨n, r₁, hn, hitems⟩ := bind_eq_ok hm
  obtain ⟨hinput, rfl⟩ := h.items n hitems
  rw [Reader.len_eq_ok hn, hinput, List.append_assoc]

theorem Consumes.variant {n : Nat} {γ : Fin n → Type} {access : (i : Fin n) → Decode (γ i)}
    {write : (i : Fin n) → γ i → List UInt8} (h : ∀ i, Consumes (access i) (write i)) :
    Consumes (variant access) fun e => leBytes 4 e.1 ++ write e.1 e.2 := by
  intro r r' e hm
  obtain ⟨index, r₁, hindex, hrest⟩ := bind_eq_ok hm
  by_cases hi : index < n
  · rw [dif_pos hi] at hrest
    obtain ⟨x, r₂, hx, hpure⟩ := bind_eq_ok hrest
    obtain ⟨rfl, rfl⟩ := pure_eq_ok hpure
    rw [Reader.u32_eq_ok hindex, h _ hx, List.append_assoc]
  · rw [dif_neg hi] at hrest
    cases hrest

theorem Consumes.shortens (h : Consumes m write)
    (hwide : ∀ a, write a ≠ []) ⦃r r' : Reader⦄ ⦃a : α⦄ (hm : m r = .ok a r') :
    r'.input.length < r.input.length := by
  have hpos : 0 < (write a).length := List.length_pos_iff.mpr (hwide a)
  rw [h hm, List.length_append]
  omega

end Consumes

theorem Shape.decode_consumes (s : Shape) : Consumes s.decode s.encode := by
  induction s with
  | bool => exact fun r r' b h => Reader.tag_eq_ok h
  | fixed k =>
    intro r r' n h
    obtain ⟨part, r₁, hpart, hpure⟩ := bind_eq_ok h
    obtain ⟨rfl, rfl⟩ := pure_eq_ok hpure
    obtain ⟨hinput, hlt⟩ := Reader.ofLeBytes_eq_ok hpart
    have hpow : ofLeBytes part < 2 ^ (8 * k.bytes) := by rwa [Nat.pow_mul]
    show r.input = leBytes k.bytes (BitVec.ofNat _ _).toNat ++ _
    rw [BitVec.toNat_ofNat, Nat.mod_eq_of_lt hpow]
    exact hinput
  | char => exact fun r r' c h => Reader.char_eq_ok h
  | str => exact fun r r' text h => Reader.str_eq_ok h
  | bytes => exact fun r r' body h => Reader.bytes_eq_ok h
  | unit =>
    intro r r' u h
    obtain ⟨rfl, rfl⟩ := pure_eq_ok h
    rfl
  | field s t ihs iht => exact ihs.element.both iht
  | option s ih => exact ih.option
  | enum n variants ih => exact Consumes.variant ih
  | seq s ih => exact ih.counted
  | map k v ihk ihv => exact (ihk.both ihv).counted

/-! ### What is accepted -/

/-- A call reads `a` off `bytes`, whatever follows them. -/
def Reads {α : Type} (m : Decode α) (bytes : List UInt8) (a : α) : Prop :=
  ∀ rest n, ∃ n', m ⟨bytes ++ rest, n⟩ = .ok a ⟨rest, n'⟩

def Fits (bytes : List UInt8) : Prop := bytes.length < 2 ^ 64

theorem Fits.left {as bs : List UInt8} (h : Fits (as ++ bs)) : Fits as := by
  rw [Fits, List.length_append] at h
  exact Nat.lt_of_le_of_lt (Nat.le_add_right _ _) h

theorem Fits.right {as bs : List UInt8} (h : Fits (as ++ bs)) : Fits bs := by
  rw [Fits, List.length_append] at h
  exact Nat.lt_of_le_of_lt (Nat.le_add_left _ _) h

theorem Fits.of_mem {α : Type} {write : α → List UInt8} {x : α} {xs : List α}
    (h : Fits (xs.flatMap write)) (hx : x ∈ xs) : Fits (write x) := by
  refine Nat.lt_of_le_of_lt ?_ h
  rw [List.length_flatMap]
  exact List.le_sum_of_mem (List.mem_map_of_mem hx)

section Reads

variable {α β : Type} {m : Decode α} {f : α → Decode β} {as bs : List UInt8} {a : α} {b : β}

theorem Reads.bind (hm : Reads m as a) (hf : Reads (f a) bs b) : Reads (m >>= f) (as ++ bs) b := by
  intro rest n
  obtain ⟨n₁, h₁⟩ := hm (bs ++ rest) n
  obtain ⟨n₂, h₂⟩ := hf rest n₁
  rw [List.append_assoc]
  exact ⟨n₂, (bind_of_ok h₁).trans h₂⟩

theorem Reads.pure (a : α) : Reads (pure a) [] a := fun _ n => ⟨n, rfl⟩

theorem Reads.after (hm : Reads m as a) (hf : Reads (f a) [] b) : Reads (m >>= f) as b := by
  have := hm.bind hf
  rwa [List.append_nil] at this

theorem Reads.take {len : Nat} (h : as.length = len) : Reads (Reader.take len) as as := by
  intro rest n
  subst h
  refine ⟨n, (Reader.take_of_le ?_).trans ?_⟩
  · rw [List.length_append]
    exact Nat.le_add_right _ _
  · rw [List.take_left, List.drop_left]

theorem Reads.array {w : Nat} (h : as.length = w) : Reads (Reader.array w) as as := by
  rw [Reader.array_eq]
  exact Reads.take h

theorem Reads.u8 (b : UInt8) : Reads Reader.u8 [b] b := fun _ n => ⟨n, Reader.u8_eq _⟩

theorem Reads.tag (what : String) (b : Bool) : Reads (Reader.tag what) [cond b 1 0] b := by
  cases b with
  | false => exact (Reads.u8 0).bind (Reads.pure false)
  | true => exact (Reads.u8 1).bind (Reads.pure true)

theorem Reads.fixed {w : Nat} (n : BitVec (8 * w)) :
    Reads (do return BitVec.ofNat (8 * w) (ofLeBytes (← Reader.array w)))
      (leBytes w n.toNat) n := by
  have hlt : n.toNat < 256 ^ w := by
    have := n.isLt
    rwa [Nat.pow_mul] at this
  refine (Reads.array (length_leBytes w n.toNat)).after ?_
  rw [ofLeBytes_leBytes hlt, BitVec.ofNat_toNat, BitVec.setWidth_eq]
  exact Reads.pure n

theorem Reads.u32 {n : Nat} (h : n < 2 ^ 32) : Reads Reader.u32 (leBytes 4 n) n := by
  refine (Reads.array (length_leBytes 4 n)).after ?_
  rw [ofLeBytes_leBytes h]
  exact Reads.pure n

theorem Reads.len {f : Nat → Decode β} {n : Nat} (hn : n < 2 ^ 64) (hle : n ≤ bs.length)
    (h : Reads (f n) bs b) : Reads (Reader.len >>= f) (leBytes 8 n ++ bs) b := by
  intro rest e
  obtain ⟨e₁, h₁⟩ := Reads.array (length_leBytes 8 n) (bs ++ rest) e
  have hfit : n ≤ (bs ++ rest).length := by
    rw [List.length_append]
    exact Nat.le_add_right_of_le hle
  have hlen : Reader.len ⟨leBytes 8 n ++ (bs ++ rest), e⟩ = .ok n ⟨bs ++ rest, e₁⟩ := by
    rw [Reader.len, bind_of_ok h₁, get_bind, ofLeBytes_leBytes hn, if_pos hfit]
    rfl
  rw [List.append_assoc, bind_of_ok hlen]
  exact h rest e₁

theorem Reads.bytes {body : List UInt8} (h : Fits body) :
    Reads Reader.bytes (leBytes 8 body.length ++ body) body :=
  Reads.len h le_rfl (Reads.take rfl)

theorem Reads.fromUtf8 (text what : String) : Reads (Reader.fromUtf8 (utf8 text) what) [] text := by
  rw [Reader.fromUtf8, fromUTF8_utf8]
  exact Reads.pure text

theorem Reads.str {text : String} (h : Fits (utf8 text)) :
    Reads Reader.str (leBytes 8 (utf8 text).length ++ utf8 text) text :=
  (Reads.bytes h).after (Reads.fromUtf8 text _)

theorem Reads.char (c : Char) : Reads Reader.char (String.utf8EncodeChar c) c := by
  intro rest n
  obtain ⟨lead, tail, henc, hlead⟩ := exists_lead c
  have hwidth : ∀ r, Reader.charWidth (String.utf8EncodeChar c ++ rest) r =
      .ok (String.utf8EncodeChar c).length r := by
    intro r
    rw [henc] at hlead ⊢
    rw [List.cons_append, Reader.charWidth, hlead]
    rfl
  rw [Reader.char, get_bind, bind_of_ok (hwidth _)]
  refine Reads.after (Reads.take rfl) ?_ rest n
  rw [← utf8_singleton]
  refine (Reads.fromUtf8 (String.singleton c) _).after ?_
  rw [String.toList_singleton]
  exact Reads.pure c

theorem Reads.option {o : Option α} {write : α → List UInt8} (h : ∀ x ∈ o, Reads m (write x) x) :
    Reads (option m) (o.elim [0] fun x => 1 :: write x) o := by
  cases o with
  | none => exact (Reads.tag "option tag" false).after (Reads.pure none)
  | some x => exact (Reads.tag "option tag" true).bind ((h x rfl).after (Reads.pure (some x)))

theorem Reads.element (h : Reads m as a) : Reads (element m) as a := fun rest n => h rest (n + 1)

theorem Reads.both {m' : Decode β} (h : Reads m as a) (h' : Reads m' bs b) :
    Reads (both m m') (as ++ bs) (a, b) :=
  h.bind (h'.after (Reads.pure (a, b)))

theorem Reads.items {xs : List α} {write : α → List UInt8} (h : ∀ x ∈ xs, Reads m (write x) x) :
    Reads (items m xs.length) (xs.flatMap write) xs := by
  induction xs with
  | nil => exact Reads.pure []
  | cons x xs ih =>
    have hx : Reads m (write x) x := h x List.mem_cons_self
    have hxs : Reads (Legacy.items m xs.length) (xs.flatMap write) xs :=
      ih fun y hy => h y (List.mem_cons_of_mem x hy)
    rw [List.flatMap_cons]
    exact hx.element.bind (hxs.after (Reads.pure (x :: xs)))

theorem length_le_length_flatMap {xs : List α} {write : α → List UInt8}
    (hwide : ∀ x ∈ xs, write x ≠ []) : xs.length ≤ (xs.flatMap write).length := by
  rw [List.length_flatMap, ← List.length_map fun x => (write x).length]
  apply List.length_le_sum_of_one_le
  intro k hk
  obtain ⟨x, hx, rfl⟩ := List.mem_map.mp hk
  exact List.length_pos_iff.mpr (hwide x hx)

theorem Reads.counted {xs : List α} {write : α → List UInt8} (hfits : Fits (xs.flatMap write))
    (hwide : ∀ x, write x ≠ []) (h : ∀ x, Fits (write x) → Reads m (write x) x) :
    Reads (counted m) (leBytes 8 xs.length ++ xs.flatMap write) xs := by
  have hle : xs.length ≤ (xs.flatMap write).length := length_le_length_flatMap fun x _ => hwide x
  refine Reads.len (hle.trans_lt hfits) hle (Reads.items ?_)
  intro x hx
  exact h x (hfits.of_mem hx)

theorem Reads.variant {n : Nat} {γ : Fin n → Type} {access : (i : Fin n) → Decode (γ i)}
    {i : Fin n} {x : γ i} (hn : n ≤ 2 ^ 32) (h : Reads (access i) as x) :
    Reads (variant access) (leBytes 4 i ++ as) ⟨i, x⟩ := by
  refine (Reads.u32 (i.isLt.trans_le hn)).bind ?_
  rw [dif_pos i.isLt]
  exact h.after (Reads.pure _)

end Reads

namespace Shape

theorem encode_ne_nil (s : Shape) (h : s.wide) (value : s.Value) : s.encode value ≠ [] := by
  have hle : ∀ {w n : Nat} (bytes : List UInt8), leBytes (w + 1) n ++ bytes ≠ [] := by
    intro w n bytes
    exact List.cons_ne_nil _ _
  induction s with
  | bool => exact List.cons_ne_nil _ _
  | fixed k => cases k <;> exact List.cons_ne_nil _ _
  | char => exact String.utf8EncodeChar_ne_nil
  | str => exact hle _
  | bytes => exact hle _
  | unit => cases h
  | field s t ihs iht =>
    intro hnil
    obtain ⟨hs, ht⟩ := List.append_eq_nil_iff.mp hnil
    rcases Bool.or_eq_true_iff.mp h with hwide | hwide
    · exact ihs hwide value.1 hs
    · exact iht hwide value.2 ht
  | option s ih => cases value <;> exact List.cons_ne_nil _ _
  | enum n variants ih => exact hle _
  | seq s ih => exact hle _
  | map k v ihk ihv => exact hle _

theorem decode_reads (s : Shape) (hs : s.Proper) (value : s.Value)
    (hfits : Fits (s.encode value)) : Reads s.decode (s.encode value) value := by
  induction s with
  | bool => exact Reads.tag "bool" value
  | fixed k => exact Reads.fixed value
  | char => exact Reads.char value
  | str => exact Reads.str hfits.right
  | bytes => exact Reads.bytes hfits.right
  | unit => exact Reads.pure ()
  | field s t ihs iht =>
    have hx := ihs hs.1 value.1 hfits.left
    have hy := iht hs.2 value.2 hfits.right
    exact hx.element.both hy
  | option s ih =>
    refine Reads.option ?_
    rintro x rfl
    have hinner : Fits ([1] ++ s.encode x) := hfits
    exact ih hs x hinner.right
  | enum n variants ih =>
    obtain ⟨i, x⟩ := value
    exact Reads.variant hs.1 (ih i (hs.2 i) x hfits.right)
  | seq s ih => exact Reads.counted hfits.right (s.encode_ne_nil hs.1) (ih hs.2)
  | map k v ihk ihv =>
    refine Reads.counted hfits.right ((field k v).encode_ne_nil hs.1) ?_
    intro x hx
    exact (ihk hs.2.1 x.1 hx.left).both (ihv hs.2.2 x.2 hx.right)

end Shape

namespace Form

variable {α β : Type} (f : Form α) {k : Option α → Decode β}

theorem reads {a : α} (h : Fits (f.write a)) : Reads f.read (f.write a) a := by
  refine (f.shape.decode_reads f.proper (f.toValue a) h).after ?_
  rw [f.ofValue_toValue]
  exact Reads.pure a

theorem reads_option {o : Option α} (h : Fits (f.writeOption o)) :
    Reads f.readOption (f.writeOption o) o := by
  refine Reads.element (Reads.option ?_)
  rintro a rfl
  have hinner : Fits ([1] ++ f.write a) := h
  exact f.reads hinner.right

theorem reads_field {o : Option α} {bs : List UInt8} {b : β} (h : Fits (f.writeOption o ++ bs))
    (hrest : Fits bs → Reads (k o) bs b) : Reads (f.readOption >>= k) (f.writeOption o ++ bs) b :=
  (f.reads_option h.left).bind (hrest h.right)

end Form

/-! ### `from_slice` -/

section Slice

variable {α : Type} {m : Decode α} {write : α → List UInt8} {value : α} {bytes : List UInt8}

theorem Consumes.fromSlice_eq_ok (hm : Consumes m write) (h : fromSlice m bytes = .ok value) :
    bytes = write value := by
  rw [fromSlice] at h
  cases hall : Legacy.decodeAll m ⟨bytes, 0⟩ with
  | error e r =>
    rw [hall] at h
    cases h
  | ok a r =>
    rw [hall] at h
    cases h
    obtain ⟨b, r₁, hb, hrest⟩ := bind_eq_ok hall
    rw [get_bind] at hrest
    split at hrest
    · rename_i hempty
      obtain ⟨rfl, rfl⟩ := pure_eq_ok hrest
      have hinput := hm hb
      rwa [List.isEmpty_iff.mp hempty, List.append_nil] at hinput
    · cases hrest

theorem fromSlice_of_ok {n : Nat} (h : m ⟨bytes, 0⟩ = .ok value ⟨[], n⟩) :
    fromSlice m bytes = .ok value := by
  rw [fromSlice, decodeAll, bind_of_ok h, get_bind]
  rfl

theorem fromSlice_of_error {e : Fault} {r : Reader} (h : m ⟨bytes, 0⟩ = .error e r) :
    fromSlice m bytes = .error e := by
  rw [fromSlice, decodeAll, bind_of_error h]

theorem Reads.fromSlice (h : Reads m bytes value) (rest : List UInt8) :
    fromSlice m (bytes ++ rest) =
      if rest.isEmpty then .ok value else .error (.refused .trailing) := by
  obtain ⟨n, hn⟩ := h rest 0
  rw [Legacy.fromSlice, Legacy.decodeAll, bind_of_ok hn, get_bind]
  cases rest with
  | nil => rfl
  | cons b rest => rfl

theorem Reads.fromSlice_whole (h : Reads m bytes value) : Legacy.fromSlice m bytes = .ok value := by
  have hwhole := h.fromSlice []
  rwa [List.append_nil] at hwhole

end Slice

end S3Cache.Legacy

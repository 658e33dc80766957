import S3Cache.Tier.Object

/-! The byte ranges that a cached body answers (`tier.rs`, `cache/proxy.rs`).  Nothing between the
request and the slice compares the two ends of an integer range. -/

namespace S3Cache.Tier

structure GetObjectOutput extends ObjectMeta where
  body : Option (List UInt8) := none
  contentRange : Option String := none
  deriving DecidableEq

inductive SlicePanic
  | outOfRange
  deriving DecidableEq

def asI64 (n : Nat) : Int64 := if n < 2 ^ 63 then .ofNat n else Int64.maxValue

theorem toInt_asI64 {n : Nat} (h : n < 2 ^ 63) : (asI64 n).toInt = n := by
  rw [asI64, if_pos h]
  exact Int64.toInt_ofNat_of_lt h

def lastIncl (total : Nat) (last : Option Nat) : Nat :=
  last.elim (total - 1) fun l => min l (total - 1)

namespace FullObject

def metaGet (object : FullObject) : GetObjectOutput := { object.toObjectMeta with }

def toGetRange (object : FullObject) (first : Nat) (last : Option Nat) :
    Except SlicePanic (Option GetObjectOutput) :=
  let total := object.body.length
  if total ≤ first then .ok none
  else
    let lastIncl := lastIncl total last
    match getRange object.body first (lastIncl + 1) with
    | none => .error .outOfRange
    | some slice => .ok <| some
      { object.metaGet with
        body := some slice
        contentLength := some (asI64 slice.length)
        contentRange := some s!"bytes {first}-{lastIncl}/{total}" }

def toGetSuffix (object : FullObject) (length : Nat) :
    Except SlicePanic (Option GetObjectOutput) :=
  let total := object.body.length
  if total = 0 ∨ length = 0 then .ok none else object.toGetRange (total - length) none

end FullObject

inductive Range
  | int (first : Nat) (last : Option Nat)
  | suffix (length : Nat)
  deriving DecidableEq

inductive CachedRange
  | int (first : Nat) (last : Option Nat)
  | suffix (length : Nat)
  deriving DecidableEq

namespace CachedRange

def fromRequest (unconditional : Bool) (range : Option Range) : Option CachedRange :=
  match unconditional, range with
  | true, some (.int first last) => some (.int first last)
  | true, some (.suffix length) => if 0 < length then some (.suffix length) else none
  | _, _ => none

def slice (object : FullObject) : CachedRange → Except SlicePanic (Option GetObjectOutput)
  | int first last => object.toGetRange first last
  | suffix length => object.toGetSuffix length

end CachedRange

/-- What the cached copy answers to an unconditional request; the origin answers the rest. -/
def localAnswer (object : FullObject) (range : Range) :
    Except SlicePanic (Option GetObjectOutput) :=
  match CachedRange.fromRequest true (some range) with
  | some cached => cached.slice object
  | none => .ok none

/-! ### What a range is answered with -/

structure Answers (object : FullObject) (first last : Nat) (out : GetObjectOutput) : Prop where
  ascending : first ≤ last
  inside : last < object.body.length
  body : out.body = some ((object.body.drop first).take (last + 1 - first))
  contentLength : out.contentLength.map Int64.toInt = some ((last + 1 - first : Nat) : Int)
  contentRange : out.contentRange = some s!"bytes {first}-{last}/{object.body.length}"
  fields : { out.toObjectMeta with contentLength := object.contentLength } = object.toObjectMeta

/-- No panic; no answer past the end or to a range that ends before it starts; and otherwise the
clamped positions. -/
def RightRange (object : FullObject) (first : Nat) (last : Option Nat) : Prop :=
  ∃ answer, localAnswer object (.int first last) = .ok answer ∧
    match answer with
    | none => object.body.length ≤ first ∨ ∃ l ∈ last, l < first
    | some out =>
      (∀ l ∈ last, first ≤ l) ∧ Answers object first (lastIncl object.body.length last) out

/-- No answer to an empty suffix or of an empty body, and otherwise that of the range from the
suffix's first byte on. -/
def RightSuffix (object : FullObject) (length : Nat) : Prop :=
  if object.body.length = 0 ∨ length = 0 then localAnswer object (.suffix length) = .ok none
  else
    localAnswer object (.suffix length) =
      localAnswer object (.int (object.body.length - min length object.body.length) none) ∧
    RightRange object (object.body.length - min length object.body.length) none

/-- Ranges that follow one another from `start` on, to the end of a body of `total` bytes. -/
def Covers (total : Nat) : Nat → List (Nat × Option Nat) → Prop
  | start, [] => total ≤ start
  | start, (first, none) :: rest => first = start ∧ rest = []
  | start, (first, some last) :: rest => first = start ∧ first ≤ last ∧ Covers total (last + 1) rest

def answered : Except SlicePanic (Option GetObjectOutput) → List UInt8
  | .ok (some out) => out.body.getD []
  | .ok none | .error _ => []

section Laws

variable {object : FullObject} {first : Nat} {last : Option Nat}

theorem le_lastIncl {total : Nat} (hfirst : first < total) (hlast : ∀ l ∈ last, first ≤ l) :
    first ≤ lastIncl total last := by
  cases last with
  | none => exact Nat.le_sub_one_of_lt hfirst
  | some l => exact le_min (hlast l rfl) (Nat.le_sub_one_of_lt hfirst)

theorem lastIncl_lt {total : Nat} (hfirst : first < total) : lastIncl total last < total := by
  have htotal : total - 1 < total := by omega
  cases last with
  | none => exact htotal
  | some l => exact lt_of_le_of_lt (min_le_right _ _) htotal

theorem localAnswer_past (h : object.body.length ≤ first) :
    localAnswer object (.int first last) = .ok none := if_pos h

theorem localAnswer_inside (h : first < object.body.length) :
    localAnswer object (.int first last) =
      match getRange object.body first (lastIncl object.body.length last + 1) with
      | none => .error .outOfRange
      | some slice => .ok <| some
        { object.metaGet with
          body := some slice
          contentLength := some (asI64 slice.length)
          contentRange :=
            some s!"bytes {first}-{lastIncl object.body.length last}/{object.body.length}" } :=
  if_neg (Nat.not_le.mpr h)

theorem localAnswer_ne_none (h : first < object.body.length) :
    localAnswer object (.int first last) ≠ .ok none := by
  rw [localAnswer_inside h]
  split <;> nofun

theorem localAnswer_ascending (hbody : object.body.length < 2 ^ 63)
    (hfirst : first < object.body.length) (hlast : ∀ l ∈ last, first ≤ l) :
    ∃ out, localAnswer object (.int first last) = .ok (some out) ∧
      Answers object first (lastIncl object.body.length last) out := by
  have hle : first ≤ lastIncl object.body.length last := le_lastIncl hfirst hlast
  have hlt : lastIncl object.body.length last < object.body.length := lastIncl_lt hfirst
  have hslice : getRange object.body first (lastIncl object.body.length last + 1) =
      some ((object.body.drop first).take (lastIncl object.body.length last + 1 - first)) :=
    if_pos ⟨hle.trans (Nat.le_succ _), hlt⟩
  have hcount : ((object.body.drop first).take
      (lastIncl object.body.length last + 1 - first)).length =
        lastIncl object.body.length last + 1 - first := by
    apply List.length_take_of_le
    rw [List.length_drop]
    omega
  rw [localAnswer_inside hfirst, hslice]
  refine ⟨_, rfl, ⟨hle, hlt, rfl, ?_, rfl, rfl⟩⟩
  rw [Option.map_some, hcount, toInt_asI64 (by omega)]

theorem rightRange_iff (hbody : object.body.length < 2 ^ 63) :
    RightRange object first last ↔ (first < object.body.length → ∀ l ∈ last, first ≤ l) := by
  constructor
  · rintro ⟨answer, hanswer, hright⟩ hfirst
    cases answer with
    | none => exact absurd hanswer (localAnswer_ne_none hfirst)
    | some out => exact hright.1
  · intro hlast
    by_cases hfirst : first < object.body.length
    · obtain ⟨out, hout, hright⟩ := localAnswer_ascending hbody hfirst (hlast hfirst)
      exact ⟨some out, hout, hlast hfirst, hright⟩
    · have hpast : object.body.length ≤ first := Nat.le_of_not_lt hfirst
      exact ⟨none, localAnswer_past hpast, .inl hpast⟩

theorem rightSuffix (hbody : object.body.length < 2 ^ 63) (length : Nat) :
    RightSuffix object length := by
  have hanswer : localAnswer object (.suffix length) = object.toGetSuffix length := by
    by_cases hlength : 0 < length
    · rw [localAnswer, CachedRange.fromRequest, if_pos hlength]
      rfl
    · rw [localAnswer, CachedRange.fromRequest, if_neg hlength, FullObject.toGetSuffix,
        if_pos (.inr (Nat.eq_zero_of_not_pos hlength))]
  have hstart : object.body.length - min length object.body.length =
      object.body.length - length := by
    omega
  rw [RightSuffix, hanswer, hstart]
  split
  · rename_i hnone
    exact if_pos hnone
  · rename_i hsome
    exact ⟨if_neg hsome, (rightRange_iff hbody).mpr nofun⟩

theorem answered_range (hbody : object.body.length < 2 ^ 63) (hlast : ∀ l ∈ last, first ≤ l) :
    answered (localAnswer object (.int first last)) =
      (object.body.drop first).take (lastIncl object.body.length last + 1 - first) := by
  by_cases hfirst : first < object.body.length
  · obtain ⟨out, hout, hright⟩ := localAnswer_ascending hbody hfirst hlast
    rw [hout, answered, hright.body, Option.getD_some]
  · have hpast : object.body.length ≤ first := Nat.le_of_not_lt hfirst
    rw [localAnswer_past hpast, answered, List.drop_eq_nil_of_le hpast, List.take_nil]

theorem take_append_drop_range {bytes : List UInt8} {l : Nat} (h : first ≤ l) :
    (bytes.drop first).take (lastIncl bytes.length (some l) + 1 - first) ++ bytes.drop (l + 1) =
      bytes.drop first := by
  have htake : (bytes.drop first).take (lastIncl bytes.length (some l) + 1 - first) =
      (bytes.drop first).take (l + 1 - first) := by
    rw [List.take_eq_take_iff, List.length_drop, lastIncl, Option.elim_some]
    omega
  have hdrop : bytes.drop (l + 1) = (bytes.drop first).drop (l + 1 - first) := by
    rw [List.drop_drop]
    congr 1
    omega
  rw [htake, hdrop, List.take_append_drop]

theorem answered_chain (hbody : object.body.length < 2 ^ 63) {chain : List (Nat × Option Nat)}
    {start : Nat} (h : Covers object.body.length start chain) :
    (chain.flatMap fun r => answered (localAnswer object (.int r.1 r.2))) =
      object.body.drop start := by
  induction chain generalizing start with
  | nil => exact (List.drop_eq_nil_of_le h).symm
  | cons r rest ih =>
    obtain ⟨first, last⟩ := r
    rw [List.flatMap_cons]
    cases last with
    | none =>
      obtain ⟨rfl, rfl⟩ := h
      have hopen : ∀ l ∈ (none : Option Nat), first ≤ l := nofun
      rw [answered_range hbody hopen, List.flatMap_nil, List.append_nil]
      apply List.take_of_length_le
      rw [List.length_drop, lastIncl, Option.elim_none]
      omega
    | some l =>
      obtain ⟨rfl, hle, hrest⟩ := h
      have hlast : ∀ k ∈ some l, first ≤ k := by
        rintro k ⟨⟩
        exact hle
      rw [answered_range hbody hlast, ih hrest, take_append_drop_range hle]

/-- A range is answered rightly unless it starts inside the body and ends before it starts. -/
theorem ranges_right_iff (object : FullObject) (hbody : object.body.length < 2 ^ 63) :
    (∀ first last, RightRange object first last ↔
      (first < object.body.length → ∀ l ∈ last, first ≤ l)) ∧
    (∀ length, RightSuffix object length) ∧
    ∀ chain, Covers object.body.length 0 chain →
      (chain.flatMap fun r => answered (localAnswer object (.int r.1 r.2))) = object.body :=
  ⟨fun _ _ => rightRange_iff hbody, rightSuffix hbody, fun _ h => answered_chain hbody h⟩

def sampleBody : FullObject where
  body := [10, 11, 12, 13, 14, 15]

theorem ranges_right_iff_sample :
    RightRange sampleBody 2 (some 9) ∧ RightSuffix sampleBody 4 ∧
      ([(0, some 1), (2, some 4), (5, none)].flatMap fun r =>
        answered (localAnswer sampleBody (.int r.1 r.2))) = sampleBody.body := by
  obtain ⟨hrange, hsuffix, hchain⟩ := ranges_right_iff sampleBody (by decide)
  refine ⟨(hrange 2 (some 9)).mpr (fun _ l hl => ?_), hsuffix 4, hchain _ ?_⟩
  · obtain rfl := Option.some.inj hl
    decide
  · simp [Covers]

/-- The slice panics; and where the end is one before the start, the answer is an empty body. -/
theorem descending_range_sample :
    localAnswer sampleBody (.int 5 (some 3)) = .error .outOfRange ∧
      (localAnswer sampleBody (.int 5 (some 4))).toOption.join.map (·.contentRange) =
        some (some "bytes 5-4/6") ∧
      ¬ RightRange sampleBody 5 (some 3) ∧ ¬ RightRange sampleBody 5 (some 4) := by
  have hwrong : ∀ l < 5, ¬ RightRange sampleBody 5 (some l) := by
    rintro l hl ⟨answer, hanswer, hright⟩
    cases answer with
    | none => exact localAnswer_ne_none (by decide) hanswer
    | some out => exact absurd (hright.1 l rfl) (Nat.not_le.mpr hl)
  exact ⟨by decide +kernel, by decide +kernel, hwrong 3 (by decide), hwrong 4 (by decide)⟩

end Laws

end S3Cache.Tier

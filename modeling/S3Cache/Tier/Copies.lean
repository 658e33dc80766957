import S3Cache.Index.Entry

/-! One key's copies in the local tiers (`tier.rs`).  A copy's trust is not stored, so what comes
back off the warm tier is suspect. -/

namespace S3Cache.Tier

open Index

abbrev CacheKey := String × String

structure CachedObject where
  eTag : Option ETag
  lastModified : Option SystemTime
  trustedGen : Nat := 0
  deriving DecidableEq

namespace CachedObject

def trusted (obj : CachedObject) (generation : Nat) : Bool := obj.trustedGen == generation

def markTrusted (obj : CachedObject) (generation : Nat) : CachedObject :=
  { obj with trustedGen := generation }

def stored (obj : CachedObject) : CachedObject := { obj with trustedGen := 0 }

end CachedObject

structure Copies where
  hot : Option CachedObject := none
  warm : Option CachedObject := none
  deriving DecidableEq

namespace Copies

/-- Best-effort fill of both tiers; `kept` is whether the warm tier took the record. -/
def insert (c : Copies) (obj : CachedObject) (kept : Bool) : Copies where
  hot := some obj
  warm := if kept then some obj.stored else c.warm

def invalidate (c : Copies) (dropped : Bool) : Copies where
  warm := if dropped then none else c.warm

def invalidateHot (c : Copies) : Copies := { c with hot := none }

def evictWarm (c : Copies) : Copies := { c with warm := none }

def All (P : CachedObject → Prop) (c : Copies) : Prop :=
  (∀ obj ∈ c.hot, P obj) ∧ ∀ obj ∈ c.warm, P obj

variable {P : CachedObject → Prop} {c : Copies} {obj : CachedObject}

theorem all_none : ∀ obj ∈ (none : Option CachedObject), P obj :=
  fun obj h => absurd h (Option.not_mem_none obj)

theorem all_invalidate {dropped : Bool} (h : dropped = true ∨ ∀ obj ∈ c.warm, P obj) :
    (c.invalidate dropped).All P := by
  refine ⟨all_none, fun obj hobj => ?_⟩
  cases dropped with
  | true => cases hobj
  | false => exact h.resolve_left Bool.false_ne_true obj hobj

theorem All.invalidateHot (h : c.All P) : c.invalidateHot.All P := ⟨all_none, h.2⟩

theorem All.evictWarm (h : c.All P) : c.evictWarm.All P := ⟨h.1, all_none⟩

theorem All.insert (h : c.All P) (hobj : P obj) (hstored : P obj.stored) (kept : Bool) :
    (c.insert obj kept).All P := by
  refine ⟨fun o ho => ?_, fun o ho => ?_⟩
  · obtain rfl : obj = o := Option.some.inj ho
    exact hobj
  · cases kept with
    | true =>
      obtain rfl : obj.stored = o := Option.some.inj ho
      exact hstored
    | false => exact h.2 o ho

end Copies

end S3Cache.Tier

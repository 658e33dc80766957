import S3Cache.Lib.TreeMap
import S3Cache.Sync.Control.Journal

/-! The unresolved-operation projection (`sync/control/pending.rs`): its two maps always agree,
and a record it refuses leaves it as it was. -/

namespace S3Cache.Control.PendingSet

def exec {α : Type} (call : M α) (p : PendingSet) : Except JournalError α × PendingSet :=
  StateT.run (ExceptT.run call) p

section
variable {α β : Type} (p : PendingSet)

@[simp] theorem exec_bind (call : M α) (next : α → M β) :
    exec (call >>= next) p =
      match exec call p with
      | (.ok a, q) => exec (next a) q
      | (.error e, q) => (.error e, q) := by
  simp only [exec, ExceptT.run_bind, StateT.run_bind]
  change (match StateT.run (ExceptT.run call) p with | (a, q) => _) = _
  rcases StateT.run (ExceptT.run call) p with ⟨_ | _, q⟩ <;> rfl

@[simp] theorem exec_pure (a : α) : exec (pure a : M α) p = (.ok a, p) := rfl

@[simp] theorem exec_get : exec (get : M PendingSet) p = (.ok p, p) := rfl

@[simp] theorem exec_modify (f : PendingSet → PendingSet) :
    exec (modify f : M PUnit) p = (.ok ⟨⟩, f p) := rfl

@[simp] theorem exec_throw (e : JournalError) : exec (throw e : M α) p = (.error e, p) := rfl

@[simp] theorem exec_ite (c : Prop) [Decidable c] (x y : M α) :
    exec (if c then x else y) p = if c then exec x p else exec y p := by
  split <;> rfl

end

def refusal (p : PendingSet) : Record → Option JournalError
  | .intent opId key _ =>
    if opId = "" ∨ key = "" then some (.corrupt "empty operation ID or key")
    else if opId ∈ p.seenOps then some (.corrupt "reused operation ID") else none
  | .outcome opId intentSlot key _ =>
    if p.byOp[opId]? ≠ some (key, intentSlot) then some (.corrupt "outcome has no matching intent")
    else if (p.byKey[key]?).all (opId ∉ ·) then some (.corrupt "missing pending key") else none
  | .readerAdmission .. => none

def effect (p : PendingSet) (slot : Nat) : Record → PendingSet
  | .intent opId key _ =>
    { p with
      seenOps := p.seenOps.insert opId
      byOp := p.byOp.insert opId (key, slot)
      byKey := p.byKey.insert key ((p.byKey.getD key ∅).insert opId) }
  | .outcome opId _ key _ =>
    let ops := (p.byKey.getD key ∅).erase opId
    let byKey := p.byKey.insert key ops
    { p with
      byOp := p.byOp.erase opId
      byKey := if ops.isEmpty then byKey.erase key else byKey }
  | .readerAdmission .. => p

theorem exec_applyRecord (p : PendingSet) (cursor : Cursor) (record : Record) :
    exec (applyRecord cursor record) p =
      match p.refusal record with
      | some e => (.error e, p)
      | none => (.ok (), p.effect cursor.nextSlot record) := by
  cases record with
  | intent opId key mutation =>
    by_cases hempty : opId = "" ∨ key = ""
    · simp [applyRecord, refusal, hempty]
    · by_cases hseen : opId ∈ p.seenOps
      · simp [applyRecord, refusal, hempty, hseen]
      · simp [applyRecord, refusal, effect, hempty, hseen]
  | outcome opId intentSlot key result =>
    by_cases hop : p.byOp[opId]? = some (key, intentSlot)
    · cases hkey : p.byKey[key]? with
      | none => simp [applyRecord, refusal, hop, hkey]
      | some ops =>
        by_cases hmem : opId ∈ ops
        · have hget : p.byKey.getD key ∅ = ops := by
            rw [Std.ExtTreeMap.getD_eq_getD_getElem?, hkey]
            rfl
          simp only [applyRecord, refusal, effect, hop, hget]
          simp only [exec_bind, exec_get, exec_ite, hop, hkey]
          by_cases hlast : (ops.erase opId).isEmpty <;> simp only [hlast] <;> simp [hmem]
        · simp [applyRecord, refusal, hop, hkey, hmem]
    · simp [applyRecord, refusal, hop]
  | readerAdmission => rfl

@[simp] theorem scope_effect (p : PendingSet) (slot : Nat) (record : Record) :
    (p.effect slot record).scope = p.scope := by
  cases record <;> rfl

def Misplaced (p : PendingSet) (cursor : Cursor) : Prop :=
  cursor.nextSlot ≠ p.nextSlot ∨ p.scope.any (· ≠ (cursor.source, cursor.bucket)) ∨
    (p.scope.isNone ∧ p.nextSlot ≠ 0)

def advanced (p : PendingSet) (cursor : Cursor) (record : Record) : PendingSet :=
  { p.effect cursor.nextSlot record with
    scope := p.scope.or (some (cursor.source, cursor.bucket)), nextSlot := p.nextSlot + 1 }

theorem exec_applyAt_ok {p : PendingSet} {cursor : Cursor} {record : Record}
    (hplace : ¬ p.Misplaced cursor) (hroom : p.nextSlot + 1 < 2 ^ 64)
    (hok : p.refusal record = none) :
    exec (applyAt cursor record) p = (.ok (), p.advanced cursor record) := by
  unfold Misplaced at hplace
  simp only [applyAt, exec_bind, exec_get, if_neg hplace, if_neg (Nat.not_le.mpr hroom),
    exec_applyRecord, hok, exec_modify, scope_effect, advanced]

theorem exec_applyAt (p : PendingSet) (cursor : Cursor) (record : Record) :
    (∃ e, exec (applyAt cursor record) p = (.error e, p)) ∨
    p.refusal record = none ∧
      exec (applyAt cursor record) p = (.ok (), p.advanced cursor record) := by
  by_cases hplace : p.Misplaced cursor
  · left
    unfold Misplaced at hplace
    refine ⟨.configMismatch, ?_⟩
    simp only [applyAt, exec_bind, exec_get, if_pos hplace, exec_throw]
  · by_cases hroom : 2 ^ 64 ≤ p.nextSlot + 1
    · left
      unfold Misplaced at hplace
      refine ⟨.capacity, ?_⟩
      simp only [applyAt, exec_bind, exec_get, if_neg hplace, if_pos hroom, exec_throw]
    · cases hrefusal : p.refusal record with
      | some e =>
        left
        unfold Misplaced at hplace
        refine ⟨e, ?_⟩
        simp only [applyAt, exec_bind, exec_get, if_neg hplace, if_neg hroom,
          exec_applyRecord, hrefusal]
      | none => exact .inr ⟨rfl, exec_applyAt_ok hplace (Nat.lt_of_not_le hroom) hrefusal⟩

section
variable (p : PendingSet) (slot : Nat) (opId key k : String)

theorem operationsFor_intent (mutation : Mutation) :
    (p.effect slot (.intent opId key mutation)).operationsFor k =
      if key = k then some (((p.operationsFor k).getD ∅).insert opId) else p.operationsFor k := by
  simp only [effect, operationsFor, TreeMap.get_insert]
  split
  · next hk => rw [← hk, Std.ExtTreeMap.getD_eq_getD_getElem?]
  · rfl

theorem mem_guard {ops : Std.ExtTreeSet String} :
    opId ∈ (Option.guard (¬ ·.isEmpty) ops).getD ∅ ↔ opId ∈ ops := by
  by_cases hempty : ops.isEmpty
  · rw [Std.ExtTreeSet.isEmpty_iff.mp hempty]
    simp [Option.guard]
  · simp [Option.guard, hempty]

theorem operationsFor_outcome (intentSlot : Nat) (result : FinalOutcome) :
    (p.effect slot (.outcome opId intentSlot key result)).operationsFor k =
      if key = k then Option.guard (¬ ·.isEmpty) (((p.operationsFor k).getD ∅).erase opId)
      else p.operationsFor k := by
  simp only [effect, operationsFor, Std.ExtTreeMap.getD_eq_getD_getElem?]
  by_cases hk : key = k
  · subst hk
    by_cases hlast : (((p.byKey[key]?).getD ∅).erase opId).isEmpty
    · simp only [hlast, if_true, TreeMap.get_erase, Option.guard]
      simp
    · simp only [hlast, Option.guard]
      simp
  · split <;> simp [TreeMap.get_erase, TreeMap.get_insert, hk]

end

/-- The two maps hold the same unresolved operations, no key an empty set of them, and only
operations seen. -/
structure Coherent (p : PendingSet) : Prop where
  agree : ∀ opId key, (∃ slot, p.byOp[opId]? = some (key, slot)) ↔
    opId ∈ (p.operationsFor key).getD ∅
  nonempty : ∀ key, p.operationsFor key ≠ some ∅
  seen : ∀ opId row, p.byOp[opId]? = some row → opId ∈ p.seenOps

theorem coherent_empty : Coherent {} where
  agree _ _ := by simp [operationsFor]
  nonempty _ := by simp [operationsFor]
  seen _ _ h := by simp at h

theorem Coherent.effect {p : PendingSet} (h : p.Coherent) {record : Record}
    (hok : p.refusal record = none) (slot : Nat) : (p.effect slot record).Coherent := by
  cases record with
  | intent opId key mutation =>
    have hunseen : opId ∉ p.seenOps := by
      intro hseen
      by_cases hempty : opId = "" ∨ key = "" <;> simp [refusal, hempty, hseen] at hok
    have hnone : ∀ k, opId ∉ (p.operationsFor k).getD ∅ := fun k hmem => by
      obtain ⟨s, hs⟩ := (h.agree opId k).mpr hmem
      exact hunseen (h.seen opId _ hs)
    refine ⟨fun o k => ?_, fun k => ?_, fun o row ho => ?_⟩
    · rw [operationsFor_intent]
      simp only [PendingSet.effect, TreeMap.get_insert]
      by_cases ho : opId = o
      · subst ho
        by_cases hk : key = k <;> simp [hk, hnone]
      · rw [if_neg ho, h.agree]
        by_cases hk : key = k <;> simp [hk, ho, Std.ExtTreeSet.mem_insert]
    · rw [operationsFor_intent]
      split
      · intro hempty
        have hmem : opId ∈ ((p.operationsFor k).getD ∅).insert opId := by simp
        rw [Option.some.inj hempty] at hmem
        exact Std.ExtTreeSet.not_mem_empty hmem
      · exact h.nonempty k
    · simp only [PendingSet.effect, TreeMap.get_insert] at ho
      split at ho
      · next heq => simp [PendingSet.effect, heq]
      · exact Std.ExtTreeSet.mem_insert.mpr (.inr (h.seen o row ho))
  | outcome opId intentSlot key result =>
    have hop : p.byOp[opId]? = some (key, intentSlot) := by
      by_contra hne
      simp [refusal, hne] at hok
    refine ⟨fun o k => ?_, fun k => ?_, fun o row ho => ?_⟩
    · rw [operationsFor_outcome]
      simp only [PendingSet.effect, TreeMap.get_erase]
      by_cases ho : opId = o
      · subst ho
        have hother : key ≠ k → opId ∉ (p.operationsFor k).getD ∅ := fun hk hmem => by
          obtain ⟨s, hs⟩ := (h.agree opId k).mpr hmem
          exact hk (Prod.ext_iff.mp (Option.some.inj (hop.symm.trans hs))).1
        by_cases hk : key = k
        · rw [if_pos hk, mem_guard]
          simp
        · simp [hk, hother]
      · rw [if_neg ho, h.agree]
        by_cases hk : key = k
        · rw [if_pos hk, mem_guard]
          simp [ho]
        · simp [hk]
    · rw [operationsFor_outcome]
      split
      · intro hempty
        obtain ⟨heq, hne⟩ := Option.guard_eq_some_iff.mp hempty
        simp [heq] at hne
      · exact h.nonempty k
    · simp only [PendingSet.effect, TreeMap.get_erase] at ho
      split at ho
      · cases ho
      · exact h.seen o row ho
  | readerAdmission => exact h

theorem Coherent.advanced {p : PendingSet} (h : p.Coherent) {record : Record}
    (hok : p.refusal record = none) (cursor : Cursor) : (p.advanced cursor record).Coherent := by
  obtain ⟨hagree, hnonempty, hseen⟩ := h.effect hok cursor.nextSlot
  exact ⟨hagree, hnonempty, hseen⟩

def after (p : PendingSet) (calls : List (Cursor × Record)) : PendingSet :=
  calls.foldl (fun q call => (exec (applyAt call.1 call.2) q).2) p

theorem coherent_applyAt {p : PendingSet} (h : p.Coherent) (cursor : Cursor) (record : Record) :
    (exec (applyAt cursor record) p).2.Coherent := by
  obtain ⟨e, hrefused⟩ | ⟨hok, haccepted⟩ := exec_applyAt p cursor record
  · rw [hrefused]
    exact h
  · rw [haccepted]
    exact h.advanced hok cursor

theorem coherent_after {p : PendingSet} (h : p.Coherent) (calls : List (Cursor × Record)) :
    (p.after calls).Coherent := by
  induction calls generalizing p with
  | nil => exact h
  | cons call calls ih => exact ih (coherent_applyAt h call.1 call.2)

theorem unchanged_of_error {p q : PendingSet} {cursor : Cursor} {record : Record} {e : JournalError}
    (h : exec (applyAt cursor record) p = (.error e, q)) : q = p := by
  obtain ⟨e', hrefused⟩ | ⟨-, haccepted⟩ := exec_applyAt p cursor record
  · exact (Prod.ext_iff.mp (h.symm.trans hrefused)).2
  · cases h.symm.trans haccepted

end S3Cache.Control.PendingSet

import S3Cache.Sync.Control.Journal

/-! Clients of the control journal: what a call of `append` relies on, and what it guarantees
whenever it sends a put. -/

namespace S3Cache.Control

open CondStore ByteCodec Fallible

section Codec
variable {α : Type} [Payload α] [Digest]

theorem encode_eq_ok {value : α} {maxBytes : Nat} {bytes : Bytes}
    (h : encode value maxBytes = .ok bytes) :
    ∃ payload, Payload.toVec value = some payload ∧ payload.length < 2 ^ 32 ∧
      header + payload.length + digest ≤ maxBytes ∧
      bytes = contents payload ++ Digest.hash (contents payload) := by
  unfold encode at h
  split at h
  · cases h
  · next payload hp =>
    simp only [ite_error_eq_ok, not_lt, not_le, Except.ok.injEq] at h
    obtain ⟨-, hmax, hlen, rfl⟩ := h
    exact ⟨payload, hp, hlen, hmax, rfl⟩

omit [Digest] in
theorem length_contents (payload : Bytes) : (contents payload).length = header + payload.length := by
  simp [contents, magic, header]
  omega

theorem length_encode {value : α} {maxBytes : Nat} {bytes : Bytes}
    (h : encode value maxBytes = .ok bytes) : bytes.length ≤ maxBytes := by
  obtain ⟨payload, -, -, hmax, rfl⟩ := encode_eq_ok h
  rw [List.length_append, length_contents, Digest.length_hash]
  exact hmax

theorem decode_encode {value : α} {maxBytes : Nat} {bytes : Bytes}
    (h : encode value maxBytes = .ok bytes) : decode bytes maxBytes = .ok value := by
  obtain ⟨payload, hp, hlen, hmax, rfl⟩ := encode_eq_ok h
  have htotal : (contents payload ++ Digest.hash (contents payload)).length =
      header + payload.length + digest := by
    rw [List.length_append, length_contents, Digest.length_hash]
    rfl
  have hcap : ¬ (maxBytes < header + payload.length + digest ∨
      header + payload.length + digest < header + digest) := by omega
  have hmagic : (contents payload ++ Digest.hash (contents payload)).take 4 = magic := rfl
  have hversion : (contents payload ++ Digest.hash (contents payload))[4]? = some version := rfl
  have hcount : ((contents payload ++ Digest.hash (contents payload)).drop 5).take 4 =
      leBytes 4 payload.length := by
    simp [contents, magic]
  have hbody : (contents payload ++ Digest.hash (contents payload)).take
      (header + payload.length) = contents payload := by
    rw [← length_contents, List.take_left]
  have hsum : (contents payload ++ Digest.hash (contents payload)).drop
      (header + payload.length) = Digest.hash (contents payload) := by
    rw [← length_contents, List.drop_left]
  have hpayload : (contents payload).drop header = payload := by
    simp [contents, magic, header]
  have hnum : ofLeBytes (leBytes 4 payload.length) = payload.length :=
    ofLeBytes_leBytes (by omega)
  have heq : payload.length + header + digest = header + payload.length + digest := by omega
  simp only [decode, htotal, if_neg hcap, hmagic, hversion, hcount, hnum, hbody, hsum, hpayload,
    heq, Payload.fromSlice_toVec hp, ne_eq, not_true_eq_false, false_and, or_self, if_false,
    if_true]

end Codec

section
variable [Payload SlotEnvelope] [Digest] {cfg : JournalConfig}

theorem encodeSlot_inj {bucket bucket' : String} {slot slot' : Nat} {record record' : Record}
    {bytes : Bytes} (h : encodeSlot cfg bucket slot record = .ok bytes)
    (h' : encodeSlot cfg bucket' slot' record' = .ok bytes) :
    bucket = bucket' ∧ slot = slot' ∧ record = record' := by
  have := (decode_encode h).symm.trans (decode_encode h')
  simpa using this

theorem decodeSlot_eq_ok {bytes : Bytes} {cursor : Cursor} {slot : Nat} {envelope : SlotEnvelope}
    (h : decodeSlot cfg bytes cursor slot = .ok envelope) :
    decode bytes cfg.limits.maxRecordBytes = .ok envelope := by
  simp only [decodeSlot, bind_eq_ok, ite_error_eq_ok] at h
  obtain ⟨e, he, -, -, -, h⟩ := h
  cases h
  exact he

def JournalError.resumeAt : JournalError → Option Cursor
  | .unknownWrite _ retryFrom => some retryFrom
  | .appendBackpressured resume => some resume
  | _ => none

def Plain {α : Type} (x : Except JournalError α) : Prop := ∀ e, x = .error e → e.resumeAt = none

namespace Plain
variable {α β : Type}

omit [Payload SlotEnvelope] [Digest] in
theorem ok (a : α) : Plain (.ok a) := nofun

omit [Payload SlotEnvelope] [Digest] in
theorem error {e : JournalError} (h : e.resumeAt = none) : Plain (.error e : Except _ α) :=
  fun _ he => Except.error.inj he ▸ h

omit [Payload SlotEnvelope] [Digest] in
theorem ite {p : Prop} [Decidable p] {x y : Except JournalError α} (hx : Plain x)
    (hy : Plain y) : Plain (if p then x else y) := by
  split
  · exact hx
  · exact hy

omit [Payload SlotEnvelope] [Digest] in
theorem bind {x : Except JournalError α} {f : α → Except JournalError β} (hx : Plain x)
    (hf : ∀ a, Plain (f a)) : Plain (x >>= f) := by
  cases x with
  | ok a => exact hf a
  | error e => exact error (hx e rfl)

theorem encodeSlot (bucket : String) (slot : Nat) (record : Record) :
    Plain (encodeSlot cfg bucket slot record) := by
  unfold Control.encodeSlot encode
  split
  · exact error rfl
  · exact ite (error rfl) (ite (error rfl) (ite (error rfl) (ok _)))

omit [Payload SlotEnvelope] [Digest] in
theorem validateRecord (record : Record) : Plain (validateRecord cfg record) := by
  cases record <;> exact ite (error rfl) (ok _)

theorem decodeSlot (bytes : Bytes) (cursor : Cursor) (slot : Nat) :
    Plain (decodeSlot cfg bytes cursor slot) := by
  refine bind ?_ fun _ => ite (error rfl) (bind (validateRecord _) fun _ => ok _)
  refine ite (error rfl) (ite (error rfl) (ite (error rfl) (ite (error rfl) ?_)))
  simp only
  split
  · exact ok _
  · exact error rfl

theorem occupied (actual expected : Bytes) (cursor : Cursor) (slot : Nat) (record : Record) :
    Plain (occupied cfg actual expected cursor slot record) :=
  bind (decodeSlot _ _ _) fun _ => ite (ok _) (ite (error rfl) (ok _))

omit [Payload SlotEnvelope] [Digest] in
theorem checkedSucc (slot : Nat) : Plain (checkedSucc slot) := ite (ok _) (error rfl)

omit [Payload SlotEnvelope] [Digest] in
theorem after (origin : Cursor) (slot : Nat) : Plain (after origin slot) :=
  bind (checkedSucc slot) fun _ => ok _

end Plain

/-! ### Clients -/

structure Call where
  origin : Cursor
  record : Record
  phase : Phase SlotKey Bytes String JournalError AppendResult

structure System where
  shared : Shared SlotKey Bytes := .empty
  calls : List Call := []

inductive Event where
  | call (origin : Cursor) (record : Record)
  | move (index : Nat) (m : Move String)
  | deliver (key : SlotKey) (bytes : Bytes)
  deriving DecidableEq

namespace System

/-- One event: a call begins, the store answers a call's next operation, or a put some call
sent takes effect. -/
def step (cfg : JournalConfig) (sys : System) : Event → Option System
  | .call origin record =>
    some { sys with calls := sys.calls ++ [⟨origin, record, .ready (append cfg origin record)⟩] }
  | .move index m => do
    let c ← sys.calls[index]?
    let (phase, shared) ← c.phase.move sys.shared m
    return ⟨shared, sys.calls.set index { c with phase }⟩
  | .deliver key bytes =>
    if (key, bytes) ∈ sys.shared.sent then
      some { sys with shared := sys.shared.deliver key bytes }
    else none

end System

def Call.retryCursor (c : Call) : Option Cursor :=
  match c.phase with
  | .ready (.fail e) => e.resumeAt
  | _ => none

def AppendResult.cursor : AppendResult → Cursor
  | .created cursor => cursor
  | .recovered cursor => cursor

def Call.returned (c : Call) : Option Cursor :=
  match c.phase with
  | .ready (.ret result) => some result.cursor
  | _ => none

def Call.IsFor (bucket : String) (record : Record) (c : Call) : Prop :=
  c.origin.bucket = bucket ∧ c.record = record

instance (bucket : String) (record : Record) : DecidablePred (Call.IsFor bucket record) :=
  fun c => inferInstanceAs (Decidable (c.origin.bucket = bucket ∧ c.record = record))

def System.lastCall (sys : System) (bucket : String) (record : Record) : Option Call :=
  (sys.calls.filter (Call.IsFor bucket record)).getLast?

/-- A record that `follows` selects is appended by one client, which after its first call
retries only from the cursors its failed calls gave. -/
def Retries (follows : String → Record → Prop) (sys : System) : Event → Prop
  | .call origin record => follows origin.bucket record →
    ∀ c ∈ sys.lastCall origin.bucket record, c.retryCursor = some origin
  | _ => True

instance (follows : String → Record → Prop) [∀ b r, Decidable (follows b r)] (sys : System)
    (e : Event) : Decidable (Retries follows sys e) :=
  match e with
  | .call origin record => inferInstanceAs (Decidable (follows origin.bucket record →
      ∀ c ∈ sys.lastCall origin.bucket record, c.retryCursor = some origin))
  | .move .. => isTrue trivial
  | .deliver .. => isTrue trivial

/-! ### The log -/

section
variable (cfg) (s : Shared SlotKey Bytes) (bucket : String) (slot : Nat) (record : Record)

def Carries : Prop :=
  ∃ bytes, s.store (slotKey cfg bucket slot) = some bytes ∧
    encodeSlot cfg bucket slot record = .ok bytes

def Taken : Prop :=
  ∃ bytes, s.store (slotKey cfg bucket slot) = some bytes ∧
    encodeSlot cfg bucket slot record ≠ .ok bytes

def Sends : Prop :=
  ∃ bytes, (slotKey cfg bucket slot, bytes) ∈ s.sent ∧
    encodeSlot cfg bucket slot record = .ok bytes

def Filled : Prop := ∀ i < slot, ∃ bytes, s.store (slotKey cfg bucket i) = some bytes

def Bound : Prop :=
  match record with
  | .outcome opId intentSlot key _ =>
    intentSlot < slot ∧ ∃ mutation, Carries cfg s bucket intentSlot (.intent opId key mutation)
  | _ => True

end

variable {s s' : Shared SlotKey Bytes} {bucket : String} {slot : Nat} {record : Record}
  {follows : String → Record → Prop}

theorem Carries.later (h : Carries cfg s bucket slot record) (hs : s.Grows s') :
    Carries cfg s' bucket slot record :=
  h.imp fun _ hb => ⟨hs.store _ _ hb.1, hb.2⟩

theorem Taken.later (h : Taken cfg s bucket slot record) (hs : s.Grows s') :
    Taken cfg s' bucket slot record :=
  h.imp fun _ hb => ⟨hs.store _ _ hb.1, hb.2⟩

omit [Payload SlotEnvelope] [Digest] in
theorem Filled.later (h : Filled cfg s bucket slot) (hs : s.Grows s') :
    Filled cfg s' bucket slot :=
  fun i hi => (h i hi).imp fun _ hb => hs.store _ _ hb

theorem Bound.later (h : Bound cfg s bucket slot record) (hs : s.Grows s') :
    Bound cfg s' bucket slot record := by
  cases record with
  | outcome opId intentSlot key result =>
    exact ⟨h.1, h.2.imp fun _ hc => hc.later hs⟩
  | intent => trivial
  | readerAdmission => trivial

theorem Carries.not_taken (h : Carries cfg s bucket slot record) :
    ¬ Taken cfg s bucket slot record := by
  rintro ⟨w, hw, hne⟩
  obtain ⟨v, hv, he⟩ := h
  obtain rfl : v = w := Option.some.inj (hv.symm.trans hw)
  exact hne he

structure LogInv (cfg : JournalConfig) (follows : String → Record → Prop)
    (s : Shared SlotKey Bytes) : Prop where
  sent : ∀ k v, (k, v) ∈ s.sent → ∃ record, k = slotKey cfg k.bucket k.slot ∧
    k.slot < cfg.limits.maxSlots ∧ Filled cfg s k.bucket k.slot ∧
    Bound cfg s k.bucket k.slot record ∧ validateRecord cfg record = .ok () ∧
    encodeSlot cfg k.bucket k.slot record = .ok v
  stored : ∀ k v, s.store k = some v → (k, v) ∈ s.sent
  once : ∀ bucket record, follows bucket record → ∀ i j, i < j → Sends cfg s bucket i record →
    Sends cfg s bucket j record → Taken cfg s bucket i record

theorem LogInv.sends (h : LogInv cfg follows s) (hc : Carries cfg s bucket slot record) :
    Sends cfg s bucket slot record :=
  hc.imp fun _ hb => ⟨h.stored _ _ hb.1, hb.2⟩

theorem LogInv.filled (h : LogInv cfg follows s) {v : Bytes}
    (hv : s.store (slotKey cfg bucket slot) = some v) : Filled cfg s bucket (slot + 1) := by
  obtain ⟨-, -, -, hfilled, -⟩ := h.sent _ _ (h.stored _ _ hv)
  intro i hi
  rcases Nat.lt_succ_iff_lt_or_eq.mp hi with hi | rfl
  · exact hfilled i hi
  · exact ⟨v, hv⟩

def contract (cfg : JournalConfig) (follows : String → Record → Prop) (origin : Cursor)
    (record : Record) : Contract SlotKey Bytes JournalError AppendResult where
  rely s s' := s.Grows s' ∧ (follows origin.bucket record → ∀ slot,
    Sends cfg s' origin.bucket slot record → Sends cfg s origin.bucket slot record)
  inv := LogInv cfg follows
  may s k v := k = slotKey cfg origin.bucket k.slot ∧ k.slot < cfg.limits.maxSlots ∧
    Filled cfg s origin.bucket k.slot ∧ Bound cfg s origin.bucket k.slot record ∧
    validateRecord cfg record = .ok () ∧ encodeSlot cfg origin.bucket k.slot record = .ok v ∧
    (follows origin.bucket record → (∀ i < k.slot, Taken cfg s origin.bucket i record) ∧
      ∀ i, Sends cfg s origin.bucket i record → i ≤ k.slot)
  returns s result := ∃ slot, result.cursor = ⟨cfg.source, origin.bucket, slot + 1⟩ ∧
    Carries cfg s origin.bucket slot record
  fails s e := ∀ cursor, e.resumeAt = some cursor → cursor.bucket = origin.bucket ∧
    (follows origin.bucket record → ∀ i < cursor.nextSlot, Taken cfg s origin.bucket i record)

theorem contract_returns_later {origin : Cursor} {result : AppendResult}
    (h : (contract cfg follows origin record).returns s result) (hs : s.Grows s') :
    (contract cfg follows origin record).returns s' result :=
  h.imp fun _ hr => ⟨hr.1, hr.2.later hs⟩

theorem contract_fails_later {origin : Cursor} {e : JournalError}
    (h : (contract cfg follows origin record).fails s e) (hs : s.Grows s') :
    (contract cfg follows origin record).fails s' e := fun cursor he =>
  ⟨(h cursor he).1, fun hf i hi => ((h cursor he).2 hf i hi).later hs⟩

theorem contract_fails_plain {origin : Cursor} {e : JournalError} (h : e.resumeAt = none) :
    (contract cfg follows origin record).fails s e :=
  fun cursor he => absurd (h.symm.trans he) (by simp)

theorem safe_plain {α : Type} {origin : Cursor} {x : Except JournalError α}
    {mid : Shared SlotKey Bytes → α → Prop} (hx : Plain x) (h : ∀ a, x = .ok a → mid s a) :
    (.lift x : Prog α).Safe ((contract cfg follows origin record).with mid) s :=
  Prog.safe_lift h fun e he => contract_fails_plain (hx e he)

theorem contract_lawful (origin : Cursor) : (contract cfg follows origin record).Lawful where
  refl s := ⟨.refl s, fun _ _ h => h⟩
  trans h h' := ⟨h.1.trans h'.1, fun hf slot hs => h.2 hf slot (h'.2 hf slot hs)⟩
  returns hr h := contract_returns_later h hr.1
  fails hr h := contract_fails_later h hr.1

/-! ### What a call knows as it goes -/

def Passed (cfg : JournalConfig) (follows : String → Record → Prop) (origin : Cursor)
    (record : Record) (slot : Nat) (s : Shared SlotKey Bytes) : Prop :=
  Filled cfg s origin.bucket slot ∧
    (follows origin.bucket record → ∀ i < slot, Taken cfg s origin.bucket i record)

def Latest (cfg : JournalConfig) (follows : String → Record → Prop) (origin : Cursor)
    (record : Record) (slot : Nat) (s : Shared SlotKey Bytes) : Prop :=
  follows origin.bucket record → ∀ i, Sends cfg s origin.bucket i record → i ≤ slot

section
variable {origin : Cursor}

theorem Passed.later (h : Passed cfg follows origin record slot s) (hs : s.Grows s') :
    Passed cfg follows origin record slot s' :=
  ⟨h.1.later hs, fun hf i hi => (h.2 hf i hi).later hs⟩

theorem Latest.later (h : Latest cfg follows origin record slot s)
    (hr : (contract cfg follows origin record).rely s s') :
    Latest cfg follows origin record slot s' :=
  fun hf i hi => h hf i (hr.2 hf i hi)

theorem latest_of_absent (hi : LogInv cfg follows s)
    (hnone : s.store (slotKey cfg origin.bucket slot) = none) :
    Latest cfg follows origin record slot s := by
  rintro - i ⟨bytes, hsent, -⟩
  by_contra hlt
  obtain ⟨-, -, -, hfilled, -⟩ := hi.sent _ _ hsent
  obtain ⟨w, hw⟩ := hfilled slot (Nat.lt_of_not_le hlt)
  cases hnone.symm.trans hw

theorem occupied_spec (hi : LogInv cfg follows s) {actual expected : Bytes} {same : Bool}
    (hactual : s.store (slotKey cfg origin.bucket slot) = some actual)
    (hexpected : encodeSlot cfg origin.bucket slot record = .ok expected)
    (h : occupied cfg actual expected origin slot record = .ok same) :
    if same then Carries cfg s origin.bucket slot record
    else Taken cfg s origin.bucket slot record := by
  obtain ⟨envelope, hdecode, h⟩ := bind_eq_ok.mp h
  simp only at h
  split at h
  · next hsame =>
    cases h
    refine ⟨actual, hactual, ?_⟩
    rcases hsame with rfl | ⟨-, hrecord⟩
    · exact hexpected
    · -- a slot of the first format is compared by its record; it was encoded from that record
      obtain ⟨stored, -, -, -, -, -, hstored⟩ := hi.sent _ _ (hi.stored _ _ hactual)
      have henvelope := (decode_encode hstored).symm.trans (decodeSlot_eq_ok hdecode)
      obtain rfl : stored = record := by
        rw [← hrecord, ← Except.ok.inj henvelope]
      exact hstored
  · next hdiffer =>
    obtain ⟨-, h⟩ := ite_error_eq_ok.mp h
    cases h
    refine ⟨actual, hactual, fun hsame => hdiffer (.inl ?_)⟩
    exact Except.ok.inj (hsame.symm.trans hexpected)

theorem Passed.succ (h : Passed cfg follows origin record slot s) (hi : LogInv cfg follows s)
    (ht : Taken cfg s origin.bucket slot record) :
    Passed cfg follows origin record (slot + 1) s := by
  obtain ⟨v, hv, -⟩ := id ht
  refine ⟨hi.filled hv, fun hf i hlt => ?_⟩
  rcases Nat.lt_succ_iff_lt_or_eq.mp hlt with hlt | rfl
  · exact h.2 hf i hlt
  · exact ht

/-- A call may begin at `origin`: none of the slots before it holds its record, and none will. -/
def MayBegin (cfg : JournalConfig) (follows : String → Record → Prop) (origin : Cursor)
    (record : Record) (s : Shared SlotKey Bytes) : Prop :=
  follows origin.bucket record → (∀ i < origin.nextSlot, Taken cfg s origin.bucket i record) ∨
    ∀ i, ¬ Sends cfg s origin.bucket i record

theorem MayBegin.later (h : MayBegin cfg follows origin record s)
    (hr : (contract cfg follows origin record).rely s s') :
    MayBegin cfg follows origin record s' := fun hf =>
  (h hf).imp (fun ht i hi => (ht i hi).later hr.1) fun hn i hs => hn i (hr.2 hf i hs)

theorem MayBegin.taken (h : MayBegin cfg follows origin record s) (hi : LogInv cfg follows s)
    (hfilled : Filled cfg s origin.bucket origin.nextSlot) (hf : follows origin.bucket record) :
    ∀ i < origin.nextSlot, Taken cfg s origin.bucket i record := by
  intro i hlt
  rcases h hf with ht | hn
  · exact ht i hlt
  · obtain ⟨v, hv⟩ := hfilled i hlt
    exact ⟨v, hv, fun he => hn i (hi.sends ⟨v, hv, he⟩)⟩

theorem safe_storeGet {key : SlotKey} {mid : Shared SlotKey Bytes → Option Bytes → Prop}
    (h : ∀ s', (contract cfg follows origin record).rely s s' → LogInv cfg follows s' →
      mid s' (s'.store key)) :
    (storeGet key).Safe ((contract cfg follows origin record).with mid) s :=
  Prog.safe_read h fun _ _ => contract_fails_plain rfl

theorem validatePredecessor_safe (h : MayBegin cfg follows origin record s) :
    (validatePredecessor cfg origin).Safe ((contract cfg follows origin record).with
      fun s _ => Passed cfg follows origin record origin.nextSlot s) s := by
  unfold validatePredecessor
  split
  · next hzero =>
    rw [hzero]
    exact ⟨fun i hi => absurd hi (Nat.not_lt_zero i), fun _ i hi => absurd hi (Nat.not_lt_zero i)⟩
  · next prior hprior =>
    split
    · exact contract_fails_plain rfl
    · refine Prog.Safe.bind (Q := fun s found => LogInv cfg follows s ∧
          found = s.store (slotKey cfg origin.bucket prior) ∧
          MayBegin cfg follows origin record s)
        (safe_storeGet fun s' hr hi => ⟨hi, rfl, h.later hr⟩)
        fun s found ⟨hi, hfound, hbegin⟩ => ?_
      cases found with
      | none => exact contract_fails_plain rfl
      | some bytes =>
        have hfilled : Filled cfg s origin.bucket origin.nextSlot := by
          rw [hprior]
          exact hi.filled hfound.symm
        exact Prog.Safe.bind (Q := fun s _ =>
            Passed cfg follows origin record origin.nextSlot s)
          (safe_plain (.decodeSlot _ _ _) fun _ _ => ⟨hfilled, hbegin.taken hi hfilled⟩)
          fun s _ hp => hp

theorem carries_of_decodeSlot (hi : LogInv cfg follows s) {bytes : Bytes} {cursor : Cursor}
    {envelope : SlotEnvelope} (hstored : s.store (slotKey cfg bucket slot) = some bytes)
    (h : decodeSlot cfg bytes cursor slot = .ok envelope) :
    Carries cfg s bucket slot envelope.record := by
  obtain ⟨stored, -, -, -, -, -, henc⟩ := hi.sent _ _ (hi.stored _ _ hstored)
  have henvelope := (decode_encode henc).symm.trans (decodeSlot_eq_ok h)
  rw [← Except.ok.inj henvelope]
  exact ⟨bytes, hstored, henc⟩

omit [Payload SlotEnvelope] [Digest] in
theorem bindsIntent_eq_true {opId key : String} {record : Record} :
    bindsIntent opId key record = true ↔ ∃ mutation, record = .intent opId key mutation := by
  cases record <;> simp [bindsIntent]

theorem validateOutcomeBinding_safe (hp : Passed cfg follows origin record slot s)
    (hl : Latest cfg follows origin record slot s) :
    (validateOutcomeBinding cfg origin slot record).Safe
      ((contract cfg follows origin record).with fun s _ =>
        Passed cfg follows origin record slot s ∧ Latest cfg follows origin record slot s ∧
        Bound cfg s origin.bucket slot record) s := by
  cases record with
  | intent => exact ⟨hp, hl, trivial⟩
  | readerAdmission => exact ⟨hp, hl, trivial⟩
  | outcome opId intentSlot key result =>
    simp only [validateOutcomeBinding]
    split
    · exact contract_fails_plain rfl
    · next hlt =>
      refine Prog.Safe.bind (Q := fun s found => LogInv cfg follows s ∧
          found = s.store (slotKey cfg origin.bucket intentSlot) ∧
          Passed cfg follows origin (.outcome opId intentSlot key result) slot s ∧
          Latest cfg follows origin (.outcome opId intentSlot key result) slot s)
        (safe_storeGet fun s' hr hi => ⟨hi, rfl, hp.later hr.1, hl.later hr⟩)
        fun s found ⟨hi, hfound, hp, hl⟩ => ?_
      cases found with
      | none => exact contract_fails_plain rfl
      | some bytes =>
        refine Prog.Safe.bind (Q := fun t envelope => t = s ∧
            Carries cfg s origin.bucket intentSlot envelope.record)
          (safe_plain (.decodeSlot _ _ _) fun envelope he =>
            ⟨rfl, carries_of_decodeSlot hi hfound.symm he⟩)
          fun t envelope ⟨ht, hc⟩ => ?_
        subst ht
        by_cases hbinds : bindsIntent opId key envelope.record = true
        · obtain ⟨mutation, hrecord⟩ := bindsIntent_eq_true.mp hbinds
          simp only [hbinds, if_true]
          exact ⟨hp, hl, Nat.lt_of_not_le hlt, mutation, hrecord ▸ hc⟩
        · simp only [hbinds]
          exact contract_fails_plain rfl

omit [Payload SlotEnvelope] [Digest] in
theorem after_eq_ok {cursor : Cursor} (h : after origin slot = .ok cursor) :
    cursor = ⟨origin.source, origin.bucket, slot + 1⟩ := by
  obtain ⟨next, hnext, h⟩ := bind_eq_ok.mp h
  cases h
  unfold checkedSucc at hnext
  split at hnext
  · cases hnext
    rfl
  · cases hnext

omit [Payload SlotEnvelope] [Digest] in
theorem checkedSucc_eq_ok {next : Nat} (h : checkedSucc slot = .ok next) : next = slot + 1 := by
  unfold checkedSucc at h
  split at h
  · exact (Except.ok.inj h).symm
  · cases h

theorem safe_return (hsource : origin.source = cfg.source) {wrap : Cursor → AppendResult}
    (hwrap : ∀ cursor, (wrap cursor).cursor = cursor) (hc : Carries cfg s origin.bucket slot record) :
    (do return wrap (← .lift (after origin slot)) : Prog AppendResult).Safe
      (contract cfg follows origin record) s := by
  refine Prog.Safe.bind (Q := fun t cursor => t = s ∧
      cursor = ⟨origin.source, origin.bucket, slot + 1⟩)
    (safe_plain (.after _ _) fun cursor h => ⟨rfl, after_eq_ok h⟩) fun t cursor ⟨ht, hcursor⟩ => ?_
  subst ht
  exact ⟨slot, hsource ▸ (hwrap cursor).trans hcursor, hc⟩

theorem safe_found (hsource : origin.source = cfg.source)
    {rest : Nat → Prog AppendResult} {actual bytes : Bytes}
    (hi : LogInv cfg follows s) (hp : Passed cfg follows origin record slot s)
    (hbytes : encodeSlot cfg origin.bucket slot record = .ok bytes)
    (hactual : s.store (slotKey cfg origin.bucket slot) = some actual)
    (hrest : ∀ s, Passed cfg follows origin record (slot + 1) s →
      (rest (slot + 1)).Safe (contract cfg follows origin record) s) :
    (do
      if ← .lift (occupied cfg actual bytes origin slot record) then
        return .recovered (← .lift (after origin slot))
      else
        let slot ← .lift (checkedSucc slot)
        rest slot : Prog AppendResult).Safe (contract cfg follows origin record) s := by
  refine Prog.Safe.bind (Q := fun t same => t = s ∧
      if same then Carries cfg s origin.bucket slot record
      else Taken cfg s origin.bucket slot record)
    (safe_plain (.occupied _ _ _ _ _) fun same h => ⟨rfl, occupied_spec hi hactual hbytes h⟩)
    fun t same ⟨ht, hsame⟩ => ?_
  subst ht
  cases same with
  | true => exact safe_return hsource (fun _ => rfl) hsame
  | false =>
    refine Prog.Safe.bind (Q := fun u next => u = t ∧ next = slot + 1)
      (safe_plain (.checkedSucc _) fun next h => ⟨rfl, checkedSucc_eq_ok h⟩)
      fun u next ⟨hu, hnext⟩ => ?_
    subst hu hnext
    exact hrest _ (hp.succ hi hsame)

theorem safe_readback (hsource : origin.source = cfg.source)
    {rest : Nat → Prog AppendResult} {bytes : Bytes}
    (hle : origin.nextSlot ≤ slot) (hp : Passed cfg follows origin record slot s)
    (hbytes : encodeSlot cfg origin.bucket slot record = .ok bytes)
    (hrest : ∀ s, Passed cfg follows origin record (slot + 1) s →
      (rest (slot + 1)).Safe (contract cfg follows origin record) s) :
    (do
      match ← storeGet (slotKey cfg origin.bucket slot) with
      | some actual =>
        if ← .lift (occupied cfg actual bytes origin slot record) then
          return .recovered (← .lift (after origin slot))
        else
          let slot ← .lift (checkedSucc slot)
          rest slot
      | none => .fail (.unknownWrite slot origin) : Prog AppendResult).Safe
      (contract cfg follows origin record) s := by
  refine Prog.Safe.bind (Q := fun s found => LogInv cfg follows s ∧
      found = s.store (slotKey cfg origin.bucket slot) ∧ Passed cfg follows origin record slot s)
    (safe_storeGet fun s' hr hi => ⟨hi, rfl, hp.later hr.1⟩)
    fun s found ⟨hi, hfound, hp⟩ => ?_
  cases found with
  | some actual => exact safe_found hsource hi hp hbytes hfound.symm hrest
  | none =>
    rintro cursor he
    cases he
    exact ⟨rfl, fun hf i hi => hp.2 hf i (Nat.lt_of_lt_of_le hi hle)⟩

theorem probe_safe (hsource : origin.source = cfg.source)
    (hvalid : validateRecord cfg record = .ok ()) (probes : Nat)
    (hle : origin.nextSlot ≤ slot) (hp : Passed cfg follows origin record slot s) :
    (probe cfg origin record probes slot).Safe (contract cfg follows origin record) s := by
  induction probes generalizing slot s with
  | zero =>
    simp only [probe]
    split
    · exact contract_fails_plain rfl
    · rintro cursor he
      cases he
      exact ⟨rfl, hp.2⟩
  | succ probes ih =>
    have hrest : ∀ s, Passed cfg follows origin record (slot + 1) s →
        (probe cfg origin record probes (slot + 1)).Safe (contract cfg follows origin record) s :=
      fun s hp => ih (Nat.le_succ_of_le hle) hp
    simp only [probe]
    split
    · exact contract_fails_plain rfl
    next hmax =>
    refine Prog.Safe.bind (Q := fun t bytes => t = s ∧
        encodeSlot cfg origin.bucket slot record = .ok bytes)
      (safe_plain (.encodeSlot _ _ _) fun bytes h => ⟨rfl, h⟩) fun t bytes ⟨ht, hbytes⟩ => ?_
    subst ht
    refine Prog.Safe.bind (Q := fun s found => LogInv cfg follows s ∧
        found = s.store (slotKey cfg origin.bucket slot) ∧
        Passed cfg follows origin record slot s)
      (safe_storeGet fun s' hr hi => ⟨hi, rfl, hp.later hr.1⟩)
      fun s found ⟨hi, hfound, hp⟩ => ?_
    cases found with
    | some actual => exact safe_found hsource hi hp hbytes hfound.symm hrest
    | none =>
      refine Prog.Safe.bind
        (validateOutcomeBinding_safe hp (latest_of_absent hi hfound.symm))
        fun s _ ⟨hp, hl, hb⟩ => ?_
      refine Prog.Safe.bind (Q := fun s w => Passed cfg follows origin record slot s ∧
          s.Truthful (slotKey cfg origin.bucket slot) bytes w)
        (Prog.safe_create (fun s' hr _ => ?_) (fun s' s'' hr _ hr' _ w hw => ?_)
          fun _ _ => contract_fails_plain rfl)
        fun s w ⟨hp, hw⟩ => ?_
      · have hpassed := hp.later hr.1
        exact ⟨rfl, Nat.lt_of_not_le hmax, hpassed.1, hb.later hr.1, hvalid, hbytes,
          fun hf => ⟨hpassed.2 hf, hl.later hr hf⟩⟩
      · exact ⟨hp.later ((hr.1.trans (Shared.grows_send ..)).trans hr'.1), hw⟩
      cases w with
      | created => exact safe_return hsource (fun _ => rfl) ⟨bytes, hw, hbytes⟩
      | occupied => exact safe_readback hsource hle hp hbytes hrest
      | unknown => exact safe_readback hsource hle hp hbytes hrest

theorem append_safe (h : MayBegin cfg follows origin record s) :
    (append cfg origin record).Safe (contract cfg follows origin record) s := by
  refine Prog.Safe.bind (Q := fun t _ => t = s ∧ origin.source = cfg.source)
    (safe_plain (.ite (.error rfl) (.ok _)) fun _ hc => ⟨rfl, ?_⟩) fun t _ ⟨ht, hsource⟩ => ?_
  · obtain ⟨hcursor, -⟩ := ite_error_eq_ok.mp hc
    simpa using (not_or.mp hcursor).1
  subst ht
  refine Prog.Safe.bind (Q := fun u _ => u = t ∧ validateRecord cfg record = .ok ())
    (safe_plain (.validateRecord _) fun _ hv => ⟨rfl, hv⟩) fun u _ ⟨hu, hvalid⟩ => ?_
  subst hu
  exact Prog.Safe.bind (validatePredecessor_safe h) fun s _ hp =>
    probe_safe hsource hvalid _ le_rfl hp

end

end

end S3Cache.Control

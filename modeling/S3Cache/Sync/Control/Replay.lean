import S3Cache.Sync.Control.Log
import S3Cache.Sync.Control.Pending

/-! Recovery from the control journal: the pages of successive scans are the whole log, and the
unresolved-operation projection takes every record of it. -/

namespace S3Cache.Control

open CondStore Fallible

section
variable [Payload SlotEnvelope] [Digest] {cfg : JournalConfig} {store : SlotKey → Option Bytes}
  {bucket : String} {log : List Record}

/-! ### Pages -/

/-- Successive pages from a cursor on, until one reports the first absent slot or the journal is
full; none when so many rounds do not get there. -/
def replayPages (cfg : JournalConfig) (store : SlotKey → Option Bytes) :
    Nat → Cursor → Except JournalError (Option (List Record))
  | 0, _ => .ok none
  | rounds + 1, cursor =>
    if cfg.limits.maxSlots ≤ cursor.nextSlot then .ok (some []) else do
    let page ← (scan cfg cursor).eval store
    if page.atFirstAbsent then return some page.records else
    let rest ← replayPages cfg store rounds page.cursor
    return rest.map (page.records ++ ·)

structure Stores (cfg : JournalConfig) (store : SlotKey → Option Bytes) (bucket : String)
    (log : List Record) : Prop where
  fits : log.length ≤ cfg.limits.maxSlots
  absent : store (slotKey cfg bucket log.length) = none
  slot : ∀ slot record, log[slot]? = some record → ∃ bytes,
    store (slotKey cfg bucket slot) = some bytes ∧ bytes.length ≤ cfg.limits.maxRecordBytes ∧
    decodeSlot cfg bytes ⟨cfg.source, bucket, slot⟩ slot = .ok ⟨cfg.source, bucket, slot, record⟩

omit [Payload SlotEnvelope] [Digest] in
theorem validateConfig_eq_ok (h : validateConfig cfg = .ok ()) :
    0 < cfg.limits.maxScanEvents ∧ cfg.limits.maxRecordBytes ≤ cfg.limits.maxScanBytes ∧
      0 < cfg.limits.maxRecordBytes ∧ cfg.limits.maxSlots * cfg.limits.maxRecordBytes < 2 ^ 64 := by
  simp only [validateConfig, ite_error_eq_ok, not_or] at h
  omega

theorem eval_scanSlots (hcfg : validateConfig cfg = .ok ()) (events : Nat) {done left : List Record}
    (h : Stores cfg store bucket (done ++ left)) {records : List Record} {bytesRead : Nat}
    (hread : bytesRead ≤ done.length * cfg.limits.maxRecordBytes)
    (hfirst : records = [] → bytesRead = 0 ∧ done.length < cfg.limits.maxSlots) :
    ∃ got rest last, left = got ++ rest ∧
      (scanSlots cfg events records ⟨cfg.source, bucket, done.length⟩ bytesRead).eval store =
        .ok ⟨records ++ got, ⟨cfg.source, bucket, done.length + got.length⟩, last⟩ ∧
      (last = true → rest = []) ∧ (last = false → records = [] → events ≠ 0 → got ≠ []) := by
  induction events generalizing done left records bytesRead with
  | zero => exact ⟨[], left, false, rfl, by simp [scanSlots], nofun, fun _ _ h => absurd rfl h⟩
  | succ events ih =>
    obtain ⟨-, hpage, -, hroom⟩ := validateConfig_eq_ok hcfg
    by_cases hfull : cfg.limits.maxSlots ≤ done.length
    · have hsome : records ≠ [] := fun hnil => by
        have := (hfirst hnil).2
        omega
      exact ⟨[], left, false, rfl, by simp [scanSlots, hfull, hsome], nofun,
        fun _ hnil => absurd hnil hsome⟩
    cases left with
    | nil =>
      have habsent := h.absent
      rw [List.append_nil] at habsent
      refine ⟨[], [], true, rfl, ?_, fun _ => rfl, nofun⟩
      simp [scanSlots, hfull, storeGet, habsent]
    | cons record left =>
      obtain ⟨bytes, hbytes, hlen, hdecode⟩ := h.slot done.length record (by simp)
      have hnext : bytesRead + bytes.length ≤ (done.length + 1) * cfg.limits.maxRecordBytes := by
        rw [Nat.add_mul, Nat.one_mul]
        exact Nat.add_le_add hread hlen
      have hmax : (done.length + 1) * cfg.limits.maxRecordBytes ≤
          cfg.limits.maxSlots * cfg.limits.maxRecordBytes :=
        Nat.mul_le_mul_right _ (Nat.lt_of_not_le hfull)
      have husize : ¬ usizeMax < bytesRead + bytes.length := by
        unfold usizeMax
        omega
      by_cases hbudget : cfg.limits.maxScanBytes < bytesRead + bytes.length
      · have hsome : records ≠ [] := fun hnil => by
          have := (hfirst hnil).1
          omega
        refine ⟨[], record :: left, false, rfl, ?_, nofun, fun _ hnil => absurd hnil hsome⟩
        simp [scanSlots, hfull, storeGet, hbytes, husize, hbudget, hsome]
      · have hlog : done ++ record :: left = (done ++ [record]) ++ left := by simp
        obtain ⟨got, rest, last, rfl, heval, hlast, -⟩ :=
          @ih (done ++ [record]) left (hlog ▸ h) (records ++ [record]) (bytesRead + bytes.length)
            (by simpa using hnext) (by simp)
        refine ⟨record :: got, rest, last, rfl, ?_, hlast, fun _ _ _ => by simp⟩
        simp only [List.length_append, List.length_singleton, List.append_assoc,
          List.singleton_append] at heval
        simp only [scanSlots, hfull, storeGet, Prog.eval_bind, Prog.eval_read, hbytes, husize,
          hbudget, Prog.eval_lift, hdecode, bind_ok, if_false, heval, List.length_cons]
        congr 3
        omega

theorem eval_validatePredecessor {done left : List Record}
    (h : Stores cfg store bucket (done ++ left)) :
    (validatePredecessor cfg ⟨cfg.source, bucket, done.length⟩).eval store = .ok () := by
  cases hn : done.length with
  | zero => rfl
  | succ prior =>
    have hget : (done ++ left)[prior]? = some done[prior] := by
      rw [List.getElem?_append_left (by omega), List.getElem?_eq_getElem]
    obtain ⟨bytes, hbytes, -, hdecode⟩ := h.slot prior _ hget
    have hfits := h.fits
    rw [List.length_append] at hfits
    have hprior : ¬ cfg.limits.maxSlots ≤ prior := by omega
    have hsame : decodeSlot cfg bytes ⟨cfg.source, bucket, prior + 1⟩ prior =
        decodeSlot cfg bytes ⟨cfg.source, bucket, prior⟩ prior := rfl
    simp [validatePredecessor, hprior, storeGet, hbytes, hsame, hdecode]

theorem eval_scan (hcfg : validateConfig cfg = .ok ()) (hbucket : bucket ≠ "")
    {done left : List Record} (h : Stores cfg store bucket (done ++ left))
    (hroom : done.length < cfg.limits.maxSlots) :
    ∃ got rest last, left = got ++ rest ∧
      (scan cfg ⟨cfg.source, bucket, done.length⟩).eval store =
        .ok ⟨got, ⟨cfg.source, bucket, (done ++ got).length⟩, last⟩ ∧
      (last = true → rest = []) ∧ (last = false → got ≠ []) := by
  obtain ⟨got, rest, last, rfl, heval, hlast, hmore⟩ :=
    eval_scanSlots hcfg cfg.limits.maxScanEvents h (Nat.zero_le _) fun _ => ⟨rfl, hroom⟩
  have hevents := (validateConfig_eq_ok hcfg).1
  refine ⟨got, rest, last, rfl, ?_, hlast, fun hl => hmore hl rfl (by omega)⟩
  have hcheck : checkCursor cfg ⟨cfg.source, bucket, done.length⟩ = .ok () := by
    simp [checkCursor, hbucket]
  simp only [scan, Prog.eval_bind, Prog.eval_lift, hcheck, bind_ok, eval_validatePredecessor h,
    heval, List.nil_append, List.length_append]

theorem replayPages_eq (hcfg : validateConfig cfg = .ok ()) (hbucket : bucket ≠ "")
    {rounds : Nat} {done left : List Record} (h : Stores cfg store bucket (done ++ left))
    (hrounds : left.length < rounds) :
    replayPages cfg store rounds ⟨cfg.source, bucket, done.length⟩ = .ok (some left) := by
  induction rounds generalizing done left with
  | zero => exact absurd hrounds (Nat.not_lt_zero _)
  | succ rounds ih =>
    by_cases hfull : cfg.limits.maxSlots ≤ done.length
    · have hfits := h.fits
      rw [List.length_append] at hfits
      obtain rfl : left = [] := List.eq_nil_of_length_eq_zero (by omega)
      simp [replayPages, hfull]
    · obtain ⟨got, rest, last, rfl, heval, hlast, hmore⟩ :=
        eval_scan hcfg hbucket h (Nat.lt_of_not_le hfull)
      cases last with
      | true => simp [replayPages, hfull, heval, hlast rfl, pure, Except.pure]
      | false =>
        have hgot : 0 < got.length := List.length_pos_of_ne_nil (hmore rfl)
        rw [List.length_append] at hrounds
        have hrest := @ih (done ++ got) rest (by simpa using h) (by omega)
        simp only [replayPages, hfull, heval, hrest, bind_ok, if_false, Option.map_some,
          Bool.false_eq_true]
        rfl

/-! ### The projection of the log -/

structure Orderly (cfg : JournalConfig) (log : List Record) : Prop where
  fits : log.length < 2 ^ 64
  valid : ∀ record ∈ log, validateRecord cfg record = .ok ()
  bound : ∀ {slot intentSlot : Nat} {opId key : String} {result : FinalOutcome},
    log[slot]? = some (.outcome opId intentSlot key result) →
    intentSlot < slot ∧ ∃ mutation, log[intentSlot]? = some (.intent opId key mutation)
  intents : ∀ {i j : Nat} {opId key key' : String} {mutation mutation' : Mutation},
    log[i]? = some (.intent opId key mutation) → log[j]? = some (.intent opId key' mutation') →
    i = j
  outcomes : ∀ {i j slot slot' : Nat} {opId key key' : String} {result result' : FinalOutcome},
    log[i]? = some (.outcome opId slot key result) →
    log[j]? = some (.outcome opId slot' key' result') → i = j

def Unresolved (log : List Record) (opId key : String) (slot : Nat) : Prop :=
  (∃ mutation, log[slot]? = some (.intent opId key mutation)) ∧
    ∀ intentSlot key' result, .outcome opId intentSlot key' result ∉ log

def Record.operation : Record → Option String
  | .intent opId _ _ => some opId
  | .outcome opId _ _ _ => some opId
  | .readerAdmission .. => none

omit [Payload SlotEnvelope] [Digest] in
theorem unresolved_snoc {done : List Record} {record : Record} {opId key : String} {slot : Nat}
    (h : record.operation ≠ some opId) :
    Unresolved (done ++ [record]) opId key slot ↔ Unresolved done opId key slot := by
  have hintent : ∀ m, record ≠ .intent opId key m := fun m heq => h (heq ▸ rfl)
  have houtcome : ∀ s k r, .outcome opId s k r ≠ record := fun s k r heq => h (heq ▸ rfl)
  unfold Unresolved
  refine and_congr (exists_congr fun m => ?_) (by simp [houtcome])
  rw [List.getElem?_append]
  split
  · rfl
  · next hge => simp [hintent, hge, List.getElem?_cons]

def applyAll (source : SourceId) (bucket : String) : Nat → List Record → PendingSet.M Unit
  | _, [] => pure ()
  | slot, record :: records => do
    PendingSet.applyAt ⟨source, bucket, slot⟩ record
    applyAll source bucket (slot + 1) records

structure Projects (source : SourceId) (bucket : String) (done : List Record) (p : PendingSet) :
    Prop where
  position : p.nextSlot = done.length
  scope : p.scope = none ∧ done = [] ∨ p.scope = some (source, bucket)
  seen : ∀ opId ∈ p.seenOps, ∃ key mutation, .intent opId key mutation ∈ done
  unresolved : ∀ opId key slot,
    p.byOp[opId]? = some (key, slot) ↔ Unresolved done opId key slot
  coherent : p.Coherent

omit [Payload SlotEnvelope] [Digest] in
theorem projects_empty (source : SourceId) : Projects source bucket [] {} where
  position := rfl
  scope := .inl ⟨rfl, rfl⟩
  seen _ h := by simp at h
  unresolved _ _ _ := by simp [Unresolved]
  coherent := PendingSet.coherent_empty

namespace Projects
variable {source : SourceId} {done rest : List Record} {record : Record} {p : PendingSet}

omit [Payload SlotEnvelope] [Digest] in
theorem placed (h : Projects source bucket done p) :
    ¬ p.Misplaced ⟨source, bucket, done.length⟩ := by
  rintro (hslot | hscope | ⟨hnone, hslot⟩)
  · exact hslot h.position.symm
  · rcases h.scope with ⟨hs, -⟩ | hs <;> simp [hs] at hscope
  · rcases h.scope with ⟨-, rfl⟩ | hs
    · exact hslot h.position
    · simp [hs] at hnone

omit [Payload SlotEnvelope] [Digest] in
theorem accepts (h : Projects source bucket done p) (hlog : Orderly cfg (done ++ record :: rest)) :
    p.refusal record = none := by
  have hvalid := hlog.valid record (by simp)
  have hhere : (done ++ record :: rest)[done.length]? = some record := by simp
  cases record with
  | intent opId key mutation =>
    have hnames : ¬ (opId = "" ∨ key = "") := by
      simp only [validateRecord, ite_error_eq_ok] at hvalid
      exact hvalid.1
    have hfresh : opId ∉ p.seenOps := by
      intro hseen
      obtain ⟨key', mutation', hmem⟩ := h.seen opId hseen
      obtain ⟨i, hi⟩ := List.mem_iff_getElem?.mp hmem
      have hlt : i < done.length := (List.getElem?_eq_some_iff.mp hi).1
      have := hlog.intents (List.getElem?_append_left hlt ▸ hi) hhere
      omega
    simp [PendingSet.refusal, hnames, hfresh]
  | outcome opId intentSlot key result =>
    obtain ⟨hlt, mutation, hintent⟩ := hlog.bound hhere
    rw [List.getElem?_append_left hlt] at hintent
    have hop : p.byOp[opId]? = some (key, intentSlot) := by
      refine (h.unresolved _ _ _).mpr ⟨⟨mutation, hintent⟩, fun slot' key' result' hmem => ?_⟩
      obtain ⟨i, hi⟩ := List.mem_iff_getElem?.mp hmem
      have hlt : i < done.length := (List.getElem?_eq_some_iff.mp hi).1
      have := hlog.outcomes (List.getElem?_append_left hlt ▸ hi) hhere
      omega
    have hmem := (h.coherent.agree opId key).mp ⟨intentSlot, hop⟩
    rw [PendingSet.operationsFor] at hmem
    cases hkey : p.byKey[key]? with
    | none => simp [hkey] at hmem
    | some ops =>
      rw [hkey, Option.getD_some] at hmem
      simp [PendingSet.refusal, hop, hkey, hmem]
  | readerAdmission => rfl

omit [Payload SlotEnvelope] [Digest] in
theorem effect_unresolved (h : Projects source bucket done p)
    (hlog : Orderly cfg (done ++ record :: rest)) (opId key : String) (slot : Nat) :
    (p.effect done.length record).byOp[opId]? = some (key, slot) ↔
      Unresolved (done ++ [record]) opId key slot := by
  have hhere : (done ++ record :: rest)[done.length]? = some record := by simp
  by_cases hother : record.operation ≠ some opId
  · rw [unresolved_snoc hother, ← h.unresolved]
    cases record with
    | intent o k m =>
      simp only [PendingSet.effect, TreeMap.get_insert]
      rw [if_neg fun heq => hother (congrArg some heq)]
    | outcome o s k r =>
      simp only [PendingSet.effect, TreeMap.get_erase]
      rw [if_neg fun heq => hother (congrArg some heq)]
    | readerAdmission => rfl
  · rw [not_not] at hother
    cases record with
    | intent o k m =>
      obtain rfl : o = opId := Option.some.inj hother
      simp only [PendingSet.effect, TreeMap.get_insert, if_true, Option.some.injEq, Prod.mk.injEq]
      constructor
      · rintro ⟨rfl, rfl⟩
        refine ⟨⟨m, by simp⟩, fun s k' r hmem => ?_⟩
        -- An outcome so far would have had an intent of the same operation before it.
        obtain ⟨i, hi⟩ := List.mem_iff_getElem?.mp (by simpa using hmem)
        have hlt : i < done.length := (List.getElem?_eq_some_iff.mp hi).1
        obtain ⟨hs, m', hintent⟩ := hlog.bound (List.getElem?_append_left hlt ▸ hi)
        have := hlog.intents hintent hhere
        omega
      · rintro ⟨⟨m', hm⟩, -⟩
        have hslot : slot < done.length + 1 := by
          simpa using (List.getElem?_eq_some_iff.mp hm).1
        have hmore : (done ++ Record.intent o k m :: rest)[slot]? = some (.intent o key m') := by
          rw [List.append_cons, List.getElem?_append_left (by simpa using hslot), hm]
        obtain rfl := hlog.intents hmore hhere
        cases hhere.symm.trans hmore
        exact ⟨rfl, rfl⟩
    | outcome o s k r =>
      obtain rfl : o = opId := Option.some.inj hother
      simp only [PendingSet.effect, TreeMap.get_erase, if_true]
      constructor
      · intro hnone
        cases hnone
      · intro hu
        exact absurd (by simp) (hu.2 s k r)
    | readerAdmission => cases hother

omit [Payload SlotEnvelope] [Digest] in
theorem effect_seen (h : Projects source bucket done p) {slot : Nat} {opId : String}
    (hseen : opId ∈ (p.effect slot record).seenOps) :
    ∃ key mutation, .intent opId key mutation ∈ done ++ [record] := by
  have hold : opId ∈ p.seenOps → ∃ key mutation, .intent opId key mutation ∈ done ++ [record] :=
    fun hmem => by
      obtain ⟨key, mutation, hin⟩ := h.seen opId hmem
      exact ⟨key, mutation, List.mem_append_left _ hin⟩
  cases record with
  | intent o k m =>
    rcases Std.ExtTreeSet.mem_insert.mp hseen with heq | hmem
    · obtain rfl : o = opId := Std.LawfulEqCmp.eq_of_compare heq
      exact ⟨k, m, by simp⟩
    · exact hold hmem
  | outcome => exact hold hseen
  | readerAdmission => exact hold hseen

omit [Payload SlotEnvelope] [Digest] in
theorem step (h : Projects source bucket done p) (hlog : Orderly cfg (done ++ record :: rest)) :
    ∃ q, PendingSet.exec (PendingSet.applyAt ⟨source, bucket, done.length⟩ record) p = (.ok (), q) ∧
      Projects source bucket (done ++ [record]) q := by
  have hroom : p.nextSlot + 1 < 2 ^ 64 := by
    have := hlog.fits
    rw [List.length_append, List.length_cons] at this
    have := h.position
    omega
  have hok := h.accepts hlog
  refine ⟨_, PendingSet.exec_applyAt_ok h.placed hroom hok, ?_⟩
  constructor
  case position => simp [PendingSet.advanced, h.position]
  case scope =>
    right
    rcases h.scope with ⟨hs, -⟩ | hs <;> simp [PendingSet.advanced, hs]
  case seen =>
    intro opId hseen
    exact (h.effect_seen hseen)
  case unresolved => exact h.effect_unresolved hlog
  case coherent => exact h.coherent.advanced hok _

omit [Payload SlotEnvelope] [Digest] in
theorem run (h : Projects source bucket done p) (hlog : Orderly cfg (done ++ rest)) :
    ∃ q, PendingSet.exec (applyAll source bucket done.length rest) p = (.ok (), q) ∧
      Projects source bucket (done ++ rest) q := by
  induction rest generalizing done p with
  | nil => exact ⟨p, rfl, by simpa using h⟩
  | cons record rest ih =>
    obtain ⟨q, hq, hstep⟩ := h.step hlog
    obtain ⟨t, ht, hrun⟩ := ih hstep (by simpa using hlog)
    rw [List.append_cons]
    refine ⟨t, ?_, hrun⟩
    rw [List.length_append, List.length_singleton] at ht
    simp only [applyAll, PendingSet.exec_bind, hq, ht]

end Projects

/-! ### The log of a run -/

section
variable {s : Shared SlotKey Bytes} {follows : String → Record → Prop} {slot i j : Nat}
  {record record' : Record}

theorem Carries.unique (h : Carries cfg s bucket slot record)
    (h' : Carries cfg s bucket slot record') : record = record' := by
  obtain ⟨v, hv, he⟩ := h
  obtain ⟨w, hw, he'⟩ := h'
  obtain rfl : v = w := Option.some.inj (hv.symm.trans hw)
  exact (encodeSlot_inj he he').2.2

theorem LogInv.carries (hi : LogInv cfg follows s) {bytes : Bytes}
    (h : s.store (slotKey cfg bucket slot) = some bytes) :
    ∃ record, Carries cfg s bucket slot record := by
  obtain ⟨record, -, -, -, -, -, henc⟩ := hi.sent _ _ (hi.stored _ _ h)
  exact ⟨record, bytes, h, henc⟩

theorem LogInv.checked (hi : LogInv cfg follows s) (h : Carries cfg s bucket slot record) :
    Bound cfg s bucket slot record ∧ validateRecord cfg record = .ok () := by
  obtain ⟨bytes, hbytes, henc⟩ := h
  obtain ⟨record', -, -, -, hbound, hvalid, henc'⟩ := hi.sent _ _ (hi.stored _ _ hbytes)
  obtain ⟨-, -, rfl⟩ := encodeSlot_inj henc henc'
  exact ⟨hbound, hvalid⟩

theorem LogInv.exists_log (hi : LogInv cfg follows s) (bucket : String) :
    ∃ log : List Record, log.length ≤ cfg.limits.maxSlots ∧
      (∀ slot, (s.store (slotKey cfg bucket slot)).isSome ↔ slot < log.length) ∧
      ∀ slot record, log[slot]? = some record ↔ Carries cfg s bucket slot record := by
  obtain ⟨n, hmax, hn⟩ := hi.initial bucket
  have hex : ∀ i : Fin n, ∃ record, Carries cfg s bucket i record := fun i => by
    obtain ⟨bytes, hbytes⟩ := Option.isSome_iff_exists.mp ((hn i).mpr i.isLt)
    exact hi.carries hbytes
  choose records hrecords using hex
  refine ⟨List.ofFn records, by simpa using hmax, by simpa using hn, fun slot record => ?_⟩
  rw [List.getElem?_ofFn]
  constructor
  · intro h
    split at h
    · next hlt => exact Option.some.inj h ▸ hrecords ⟨slot, hlt⟩
    · cases h
  · intro h
    have hlt : slot < n := (hn slot).mp (by
      obtain ⟨bytes, hbytes, -⟩ := h
      rw [hbytes]
      rfl)
    rw [dif_pos hlt, (hrecords ⟨slot, hlt⟩).unique h]

theorem LogInv.decodes (hi : LogInv cfg follows s) (h : Carries cfg s bucket slot record) :
    ∃ bytes, s.store (slotKey cfg bucket slot) = some bytes ∧
      bytes.length ≤ cfg.limits.maxRecordBytes ∧
      decodeSlot cfg bytes ⟨cfg.source, bucket, slot⟩ slot =
        .ok ⟨cfg.source, bucket, slot, record⟩ := by
  have hvalid := (hi.checked h).2
  obtain ⟨bytes, hbytes, henc⟩ := h
  refine ⟨bytes, hbytes, length_encode henc, ?_⟩
  simp [decodeSlot, decode_encode henc, hvalid]

theorem LogInv.one_slot (hi : LogInv cfg follows s) (hfollows : follows bucket record)
    (h : Carries cfg s bucket i record) (h' : Carries cfg s bucket j record) : i = j := by
  rcases Nat.lt_trichotomy i j with hlt | heq | hlt
  · exact absurd (hi.once bucket record hfollows i j hlt (hi.sends h) (hi.sends h')) h.not_taken
  · exact heq
  · exact absurd (hi.once bucket record hfollows j i hlt (hi.sends h') (hi.sends h)) h'.not_taken

theorem LogInv.orderly (hi : LogInv cfg follows s) (hcfg : validateConfig cfg = .ok ())
    (hmax : log.length ≤ cfg.limits.maxSlots)
    (hrecords : ∀ slot record, log[slot]? = some record ↔ Carries cfg s bucket slot record)
    (hintents : ∀ {i j : Nat} {opId key key' : String} {mutation mutation' : Mutation},
      log[i]? = some (.intent opId key mutation) → log[j]? = some (.intent opId key' mutation') →
      i = j)
    (houtcomes : ∀ {i j slot slot' : Nat} {opId key key' : String} {result result' : FinalOutcome},
      log[i]? = some (.outcome opId slot key result) →
      log[j]? = some (.outcome opId slot' key' result') → i = j) : Orderly cfg log where
  fits := by
    obtain ⟨-, -, hbytes, hroom⟩ := validateConfig_eq_ok hcfg
    have := Nat.le_mul_of_pos_right cfg.limits.maxSlots hbytes
    omega
  valid record hmem := by
    obtain ⟨i, h⟩ := List.mem_iff_getElem?.mp hmem
    exact (hi.checked ((hrecords i record).mp h)).2
  bound {slot intentSlot opId key result} h := by
    have hbound := (hi.checked ((hrecords slot _).mp h)).1
    exact ⟨hbound.1, hbound.2.imp fun m hm => (hrecords intentSlot _).mpr hm⟩
  intents := hintents
  outcomes := houtcomes

end

/-- Replaying a scanned journal yields exactly the unresolved intents.  Whatever records clients
appended to a bucket by the retry protocol, if no two intents share an operation and no two
outcomes do, then for every page budget the pages from the start on are the records of the
occupied slots in order, the projection takes them all, and afterwards the operations it holds
for a key are those with an intent on it and no outcome.  Its two maps agree after any calls, and
a call it refuses leaves it as it was. -/
theorem replay_unresolved {events : List Event} {sys : System}
    (hcfg : validateConfig cfg = .ok ()) (hbucket : bucket ≠ "")
    (hruns : Machine.Runs (System.step cfg) (Retries fun b _ => b = bucket) {} events sys)
    (hintents : ∀ i j opId key key' mutation mutation',
      Holds cfg sys.shared bucket i (.intent opId key mutation) →
      Holds cfg sys.shared bucket j (.intent opId key' mutation') →
      key = key' ∧ mutation = mutation')
    (houtcomes : ∀ i j opId slot slot' key key' result result',
      Holds cfg sys.shared bucket i (.outcome opId slot key result) →
      Holds cfg sys.shared bucket j (.outcome opId slot' key' result') →
      slot = slot' ∧ key = key' ∧ result = result') :
    (∃ log : List Record,
      (∀ slot, (sys.shared.store (slotKey cfg bucket slot)).isSome ↔ slot < log.length) ∧
      (∀ slot record, log[slot]? = some record ↔ Holds cfg sys.shared bucket slot record) ∧
      (∀ rounds, log.length < rounds →
        replayPages cfg sys.shared.store rounds (start cfg bucket) = .ok (some log)) ∧
      ∃ pending, PendingSet.exec (applyAll cfg.source bucket 0 log) {} = (.ok (), pending) ∧
        ∀ key, pending.operationsFor key ≠ some ∅ ∧
          ∀ opId, opId ∈ (pending.operationsFor key).getD ∅ ↔
            (∃ mutation, .intent opId key mutation ∈ log) ∧
              ∀ slot key' result, .outcome opId slot key' result ∉ log) ∧
    ∀ calls, (PendingSet.after {} calls).Coherent ∧
      ∀ cursor record e p,
        PendingSet.exec (PendingSet.applyAt cursor record) (PendingSet.after {} calls) =
          (.error e, p) → p = PendingSet.after {} calls := by
  have hlog := (sound_run hruns).log
  obtain ⟨log, hmax, hoccupied, hrecords⟩ := hlog.exists_log bucket
  have hstores : Stores cfg sys.shared.store bucket log :=
    { fits := hmax
      absent := Option.not_isSome_iff_eq_none.mp fun h =>
        absurd ((hoccupied log.length).mp h) (lt_irrefl _)
      slot := fun slot record h => hlog.decodes ((hrecords slot record).mp h) }
  have hholds : ∀ slot record, log[slot]? = some record ↔ Holds cfg sys.shared bucket slot record :=
    fun slot record => (hrecords slot record).trans hlog.holds_iff.symm
  have horderly : Orderly cfg log := hlog.orderly hcfg hmax hrecords (fun hi hj => by
      obtain ⟨rfl, rfl⟩ := hintents _ _ _ _ _ _ _ ((hholds _ _).mp hi) ((hholds _ _).mp hj)
      exact hlog.one_slot rfl ((hrecords _ _).mp hi) ((hrecords _ _).mp hj)) (fun hi hj => by
      obtain ⟨rfl, rfl, rfl⟩ :=
        houtcomes _ _ _ _ _ _ _ _ _ ((hholds _ _).mp hi) ((hholds _ _).mp hj)
      exact hlog.one_slot rfl ((hrecords _ _).mp hi) ((hrecords _ _).mp hj))
  refine ⟨⟨log, hoccupied, hholds, fun rounds hrounds => ?_, ?_⟩, fun calls => ⟨?_, ?_⟩⟩
  · exact @replayPages_eq _ _ _ _ _ hcfg hbucket _ [] log hstores hrounds
  · obtain ⟨pending, hexec, hprojects⟩ := @Projects.run _ _ _ [] log _ (projects_empty _) horderly
    refine ⟨pending, hexec, fun key => ⟨hprojects.coherent.nonempty key, fun opId => ?_⟩⟩
    rw [← hprojects.coherent.agree]
    simp only [hprojects.unresolved, Unresolved, List.nil_append, List.mem_iff_getElem?]
    constructor
    · rintro ⟨slot, ⟨mutation, hm⟩, hnone⟩
      exact ⟨⟨mutation, slot, hm⟩, hnone⟩
    · rintro ⟨⟨mutation, slot, hm⟩, hnone⟩
      exact ⟨slot, ⟨mutation, hm⟩, hnone⟩
  · exact PendingSet.coherent_after PendingSet.coherent_empty calls
  · exact fun cursor record e p h => PendingSet.unchanged_of_error h

end

section Sample

local instance replayDigest : Digest := polynomialDigest
local instance replayPayload : Payload SlotEnvelope := payloadOf slotFormat

def sampleOutcome : Record := .outcome "a" 0 "k" .committed

def sampleSlot (slot : Nat) (record : Record) : Bytes :=
  (encodeSlot sampleConfig "b" slot record).toOption.getD []

def sampleHistory : List Event :=
  [.call ⟨sampleConfig.source, "b", 0⟩ sampleFirst, .move 0 .answer, .move 0 .send,
   .deliver (slotKey sampleConfig "b" 0) (sampleSlot 0 sampleFirst), .move 0 (.verdict .created),
   .call ⟨sampleConfig.source, "b", 1⟩ sampleOutcome, .move 1 .answer, .move 1 .answer,
   .move 1 .answer, .move 1 .send,
   .deliver (slotKey sampleConfig "b" 1) (sampleSlot 1 sampleOutcome), .move 1 (.verdict .created),
   .call ⟨sampleConfig.source, "b", 2⟩ sampleSecond, .move 2 .answer, .move 2 .answer,
   .move 2 .send,
   .deliver (slotKey sampleConfig "b" 2) (sampleSlot 2 sampleSecond), .move 2 (.verdict .created)]

def sentRecords (sys : System) : List (Nat × Option Record) :=
  sys.shared.sent.map fun put => (put.1.slot,
    (decode put.2 sampleConfig.limits.maxRecordBytes : Except _ SlotEnvelope).toOption.map (·.record))

theorem mem_sentRecords {follows : String → Record → Prop} {sys : System}
    (hi : LogInv sampleConfig follows sys.shared) {slot : Nat} {record : Record}
    (h : Holds sampleConfig sys.shared "b" slot record) :
    (slot, some record) ∈ sentRecords sys := by
  obtain ⟨bytes, hbytes, hdecode⟩ := h
  exact List.mem_map.mpr ⟨_, hi.stored _ _ hbytes, by rw [hdecode]; rfl⟩

theorem replay_unresolved_sample :
    ∃ sys, Machine.run (System.step sampleConfig) {} sampleHistory = some sys ∧
      ∃ log : List Record,
        replayPages sampleConfig sys.shared.store (log.length + 1) (start sampleConfig "b") =
          .ok (some log) ∧
        ∃ pending, PendingSet.exec (applyAll sampleConfig.source "b" 0 log) {} =
            (.ok (), pending) ∧
          ∀ opId, opId ∈ (pending.operationsFor "k").getD ∅ ↔
            (∃ mutation, .intent opId "k" mutation ∈ log) ∧
              ∀ slot key' result, .outcome opId slot key' result ∉ log := by
  obtain ⟨sys, hguarded, hsent⟩ : ∃ sys, Machine.run (Machine.guarded (System.step sampleConfig)
      (Retries fun b _ => b = "b")) {} sampleHistory = some sys ∧ sentRecords sys =
        [(2, some sampleSecond), (1, some sampleOutcome), (0, some sampleFirst)] := by
    have h : (Machine.run (Machine.guarded (System.step sampleConfig)
        (Retries fun b _ => b = "b")) {} sampleHistory).map sentRecords =
          some [(2, some sampleSecond), (1, some sampleOutcome), (0, some sampleFirst)] := by
      decide +kernel
    exact Option.map_eq_some_iff.mp h
  have hruns := Machine.runs_of_run_guarded hguarded
  have hmem := fun {slot record} h =>
    hsent ▸ @mem_sentRecords _ sys (sound_run hruns).log slot record h
  obtain ⟨⟨log, -, -, hpages, pending, hexec, hunresolved⟩, -⟩ :=
    replay_unresolved (by decide) (by decide) hruns
      (fun i j o k k' m m' hi hj => by
        have hi' := hmem hi
        have hj' := hmem hj
        simp [sampleFirst, sampleSecond, sampleOutcome] at hi' hj'
        grind)
      (fun i j o s s' k k' r r' hi hj => by
        have hi' := hmem hi
        have hj' := hmem hj
        simp [sampleFirst, sampleSecond, sampleOutcome] at hi' hj'
        grind)
  exact ⟨sys, hruns.run, log, hpages _ (Nat.lt_succ_self _), pending, hexec,
    (hunresolved "k").2⟩

end Sample

end S3Cache.Control

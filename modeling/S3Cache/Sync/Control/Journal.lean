import S3Cache.Lib.ByteCodec
import S3Cache.Lib.CondStore
import S3Cache.Lib.Fallible
import S3Cache.Lib.Postcard
import S3Cache.Index.Entry

/-! The control journal (`sync/control`): immutable slots, one record each, created
conditionally under the key of their source, bucket and number. -/

namespace S3Cache.Control

open CondStore ByteCodec Fallible

structure SourceId where
  name : String
  generation : Nat
  deriving DecidableEq

structure Cursor where
  source : SourceId
  bucket : String
  nextSlot : Nat
  deriving DecidableEq

inductive Mutation where
  | put
  | delete
  | copy
  | multipartComplete
  deriving DecidableEq

inductive FinalOutcome where
  | committed
  | rejectedWithoutMutation
  | abortedBeforeDispatch
  deriving DecidableEq

inductive Record where
  | intent (opId key : String) (mutation : Mutation)
  | outcome (opId : String) (intentSlot : Nat) (key : String) (result : FinalOutcome)
  | readerAdmission (readerId : String) (incarnation maxServeMs configVersion : Nat)
  deriving DecidableEq

structure Limits where
  maxRecordBytes : Nat := 16 * 1024
  maxSlots : Nat := 1000000
  maxScanEvents : Nat := 4096
  maxScanBytes : Nat := 8 * 1024 * 1024
  maxAppendProbes : Nat := 64

structure JournalConfig where
  source : SourceId
  admissionVersion : Nat
  maxAdmissionMs : Nat
  limits : Limits := {}

inductive JournalError where
  | store (message : String)
  | unknownWrite (slot : Nat) (retryFrom : Cursor)
  | capacity
  | backpressured
  | appendBackpressured (resume : Cursor)
  | corrupt (message : String)
  | configMismatch
  deriving DecidableEq

inductive AppendResult where
  | created (cursor : Cursor)
  | recovered (cursor : Cursor)
  deriving DecidableEq

structure ScanPage where
  records : List Record
  cursor : Cursor
  atFirstAbsent : Bool
  deriving DecidableEq

structure SlotEnvelope where
  source : SourceId
  bucket : String
  slot : Nat
  record : Record
  deriving DecidableEq

/-- The key of a slot.  Its text spells the three parts out, the names in an alphabet without
the separator, so it determines them. -/
structure SlotKey where
  source : SourceId
  bucket : String
  slot : Nat
  deriving DecidableEq

/-! ### The record codec -/

abbrev Bytes := List UInt8

/-- The serializer of record payloads, in the current format and in the first one. -/
class Payload (α : Type) where
  toVec : α → Option Bytes
  fromSlice : Bytes → Option α
  legacyFromSlice : Bytes → Option α
  fromSlice_toVec : ∀ {a b}, toVec a = some b → fromSlice b = some a

/-- The record checksum. -/
class Digest where
  hash : Bytes → Bytes
  length_hash : ∀ b, (hash b).length = 32

def magic : Bytes := [0x53, 0x33, 0x43, 0x4A]
def version : UInt8 := 2
def legacyVersion : UInt8 := 1
def header : Nat := 9
def digest : Nat := 32

def usizeMax : Nat := 2 ^ 64 - 1

section
variable {α : Type} [Payload α] [Digest]

def contents (payload : Bytes) : Bytes :=
  magic ++ (version :: (leBytes 4 payload.length ++ payload))

def encode (value : α) (maxBytes : Nat) : Except JournalError Bytes :=
  match Payload.toVec value with
  | none => .error (.corrupt "record cannot encode")
  | some payload =>
    let total := header + payload.length + digest
    if usizeMax < total then .error .capacity else
    if maxBytes < total then .error .capacity else
    if 2 ^ 32 ≤ payload.length then .error .capacity else
    .ok (contents payload ++ Digest.hash (contents payload))

def isCurrent (bytes : Bytes) : Bool :=
  bytes.take 4 = magic ∧ bytes[4]? = some version

def decode (bytes : Bytes) (maxBytes : Nat) : Except JournalError α :=
  if maxBytes < bytes.length ∨ bytes.length < header + digest then
    .error (.corrupt "record length outside limit")
  else
  let read := bytes[4]?
  if bytes.take 4 ≠ magic ∨ (read ≠ some version ∧ read ≠ some legacyVersion) then
    .error (.corrupt "record format mismatch")
  else
  let len := ofLeBytes ((bytes.drop 5).take 4)
  if len + header + digest ≠ bytes.length then .error (.corrupt "record length mismatch") else
  let body := bytes.take (header + len)
  if Digest.hash body ≠ bytes.drop (header + len) then
    .error (.corrupt "record checksum mismatch")
  else
  let payload := body.drop header
  let value :=
    if read = some version then Payload.fromSlice payload else Payload.legacyFromSlice payload
  match value with
  | some value => .ok value
  | none => .error (.corrupt "record payload invalid")

end

/-! Formats to run the records with: postcard, and bincode 1 for the first one. -/

section
open Postcard (Format)
variable (u32 u64 : Format Nat)

def sourceFormat : Format SourceId :=
  (Format.pair (.textOf u64) u64).map (fun s => (s.name, s.generation)) fun (name, generation) =>
    some ⟨name, generation⟩

def mutationFormat : Format Mutation :=
  u32.map (fun | .put => 0 | .delete => 1 | .copy => 2 | .multipartComplete => 3) fun
    | 0 => some .put
    | 1 => some .delete
    | 2 => some .copy
    | 3 => some .multipartComplete
    | _ => none

def outcomeFormat : Format FinalOutcome :=
  u32.map (fun | .committed => 0 | .rejectedWithoutMutation => 1 | .abortedBeforeDispatch => 2) fun
    | 0 => some .committed
    | 1 => some .rejectedWithoutMutation
    | 2 => some .abortedBeforeDispatch
    | _ => none

def recordFormat : Format Record :=
  .tagged u32 (fun | .intent _ _ _ => 0 | .outcome _ _ _ _ => 1 | .readerAdmission _ _ _ _ => 2) fun
    | 0 => (Format.pair (.textOf u64) (.pair (.textOf u64) (mutationFormat u32))).map
        (fun | .intent opId key mutation => (opId, key, mutation) | _ => ("", "", .put))
        fun (opId, key, mutation) => some (.intent opId key mutation)
    | 1 => (Format.pair (.textOf u64) (.pair u64 (.pair (.textOf u64) (outcomeFormat u32)))).map
        (fun | .outcome opId slot key result => (opId, slot, key, result)
             | _ => ("", 0, "", .committed))
        fun (opId, slot, key, result) => some (.outcome opId slot key result)
    | 2 => (Format.pair (.textOf u64) (.pair u64 (.pair u64 u32))).map
        (fun | .readerAdmission readerId incarnation maxServeMs configVersion =>
               (readerId, incarnation, maxServeMs, configVersion)
             | _ => ("", 0, 0, 0))
        fun (readerId, incarnation, maxServeMs, configVersion) =>
          some (.readerAdmission readerId incarnation maxServeMs configVersion)
    | _ => .nothing

def slotFormat : Format SlotEnvelope :=
  (Format.pair (sourceFormat u64) (.pair (.textOf u64) (.pair u64 (recordFormat u32 u64)))).map
    (fun e => (e.source, e.bucket, e.slot, e.record))
    fun (source, bucket, slot, record) => some ⟨source, bucket, slot, record⟩

@[reducible] def payloadOf {α : Type} [DecidableEq α] (format : Format Nat → Format Nat → Format α) :
    Payload α where
  toVec := (format .u32 .varint).toVec
  fromSlice := (format .u32 .varint).fromSlice
  legacyFromSlice := (format (.fixed 4) (.fixed 8)).fromSlice
  fromSlice_toVec := Format.fromSlice_toVec

theorem length_digest : ∀ b, (polynomial digest b).length = digest := length_polynomial digest

@[reducible] def polynomialDigest : Digest := ⟨polynomial digest, length_digest⟩

end

section
variable [Payload SlotEnvelope] [Digest] (cfg : JournalConfig)

/-! ### The journal -/

abbrev Prog := CondStore.Prog SlotKey Bytes String JournalError

def storeGet (key : SlotKey) : Prog (Option Bytes) := .read .store key

def storePut (key : SlotKey) (bytes : Bytes) : Prog Verdict := .create .store key bytes

def checkedSucc (slot : Nat) : Except JournalError Nat :=
  if slot + 1 < 2 ^ 64 then .ok (slot + 1) else .error .capacity

omit [Payload SlotEnvelope] [Digest] in
def validateConfig : Except JournalError Unit :=
  let l := cfg.limits
  if cfg.source.name = "" ∨ cfg.admissionVersion = 0 ∨ cfg.maxAdmissionMs = 0 ∨
      l.maxRecordBytes < 128 ∨ l.maxSlots = 0 ∨ l.maxScanEvents = 0 ∨
      l.maxScanBytes < l.maxRecordBytes ∨ l.maxAppendProbes = 0 ∨
      2 ^ 64 ≤ l.maxSlots * l.maxRecordBytes then
    .error .configMismatch
  else .ok ()

omit [Payload SlotEnvelope] [Digest] in
def start (bucket : String) : Cursor := ⟨cfg.source, bucket, 0⟩

omit [Payload SlotEnvelope] [Digest] in
def checkCursor (cursor : Cursor) : Except JournalError Unit :=
  if cursor.source ≠ cfg.source ∨ cursor.bucket = "" then .error .configMismatch else .ok ()

omit [Payload SlotEnvelope] [Digest] in
def validateRecord : Record → Except JournalError Unit
  | .intent opId key _ =>
    if opId = "" ∨ key = "" then .error (.corrupt "empty operation ID or key") else .ok ()
  | .outcome opId _ key _ =>
    if opId = "" ∨ key = "" then .error (.corrupt "empty operation ID or key") else .ok ()
  | .readerAdmission readerId incarnation maxServeMs configVersion =>
    if readerId = "" ∨ incarnation = 0 ∨ maxServeMs = 0 ∨ cfg.maxAdmissionMs < maxServeMs ∨
        configVersion ≠ cfg.admissionVersion then .error .configMismatch
    else .ok ()

omit [Payload SlotEnvelope] [Digest] in
def slotKey (bucket : String) (slot : Nat) : SlotKey := ⟨cfg.source, bucket, slot⟩

def encodeSlot (bucket : String) (slot : Nat) (record : Record) : Except JournalError Bytes :=
  encode (⟨cfg.source, bucket, slot, record⟩ : SlotEnvelope) cfg.limits.maxRecordBytes

def decodeSlot (bytes : Bytes) (cursor : Cursor) (slot : Nat) :
    Except JournalError SlotEnvelope := do
  let envelope : SlotEnvelope ← decode bytes cfg.limits.maxRecordBytes
  if envelope.source ≠ cursor.source ∨ envelope.bucket ≠ cursor.bucket ∨ envelope.slot ≠ slot then
    .error (.corrupt "slot identity mismatch")
  else
  validateRecord cfg envelope.record
  return envelope

def after (origin : Cursor) (slot : Nat) : Except JournalError Cursor := do
  let nextSlot ← checkedSucc slot
  return ⟨origin.source, origin.bucket, nextSlot⟩

omit [Payload SlotEnvelope] [Digest] in
def sameIdentity : Record → Record → Bool
  | .intent a _ _, .intent b _ _ => a = b
  | .outcome a aSlot _ _, .outcome b bSlot _ _ => a = b ∧ aSlot = bSlot
  | .readerAdmission a aInc _ _, .readerAdmission b bInc _ _ => a = b ∧ aInc = bInc
  | _, _ => false

def occupied (actual expected : Bytes) (cursor : Cursor) (slot : Nat) (record : Record) :
    Except JournalError Bool := do
  let stored := (← decodeSlot cfg actual cursor slot).record
  if actual = expected ∨ (!isCurrent actual ∧ stored = record) then return true else
  if sameIdentity stored record then .error (.corrupt "logical record identity conflict") else
  return false

def validatePredecessor (cursor : Cursor) : Prog Unit :=
  match cursor.nextSlot with
  | 0 => pure ()
  | prior + 1 => do
    if cfg.limits.maxSlots ≤ prior then .fail .capacity else
    match ← storeGet (slotKey cfg cursor.bucket prior) with
    | none => .fail (.corrupt "cursor predecessor absent")
    | some bytes =>
      let _ ← .lift (decodeSlot cfg bytes cursor prior)
      return ()

def bindsIntent (opId key : String) : Record → Bool
  | .intent original originalKey _ => original = opId ∧ originalKey = key
  | _ => false

def validateOutcomeBinding (cursor : Cursor) (slot : Nat) : Record → Prog Unit
  | .outcome opId intentSlot key _ => do
    if slot ≤ intentSlot then .fail (.corrupt "outcome precedes intent") else
    match ← storeGet (slotKey cfg cursor.bucket intentSlot) with
    | none => .fail (.corrupt "outcome intent absent")
    | some bytes =>
      let envelope ← .lift (decodeSlot cfg bytes cursor intentSlot)
      if bindsIntent opId key envelope.record then return ()
      else .fail (.corrupt "outcome intent mismatch")
  | _ => pure ()

def probe (origin : Cursor) (record : Record) : Nat → Nat → Prog AppendResult
  | 0, slot =>
    if cfg.limits.maxSlots ≤ slot then .fail .capacity
    else .fail (.appendBackpressured ⟨origin.source, origin.bucket, slot⟩)
  | probes + 1, slot => do
    if cfg.limits.maxSlots ≤ slot then .fail .capacity else
    let key := slotKey cfg origin.bucket slot
    let bytes ← .lift (encodeSlot cfg origin.bucket slot record)
    match ← storeGet key with
    | some actual =>
      if ← .lift (occupied cfg actual bytes origin slot record) then
        return .recovered (← .lift (after origin slot))
      else
        let slot ← .lift (checkedSucc slot)
        probe origin record probes slot
    | none =>
      validateOutcomeBinding cfg origin slot record
      match ← storePut key bytes with
      | .created => return .created (← .lift (after origin slot))
      | _ =>
        match ← storeGet key with
        | some actual =>
          if ← .lift (occupied cfg actual bytes origin slot record) then
            return .recovered (← .lift (after origin slot))
          else
            let slot ← .lift (checkedSucc slot)
            probe origin record probes slot
        | none => .fail (.unknownWrite slot origin)

def append (origin : Cursor) (record : Record) : Prog AppendResult := do
  .lift (checkCursor cfg origin)
  .lift (validateRecord cfg record)
  validatePredecessor cfg origin
  probe cfg origin record cfg.limits.maxAppendProbes origin.nextSlot

def scanSlots : Nat → List Record → Cursor → Nat → Prog ScanPage
  | 0, records, cursor, _ => return ⟨records, cursor, false⟩
  | events + 1, records, cursor, bytesRead => do
    if cfg.limits.maxSlots ≤ cursor.nextSlot then
      if records = [] then .fail .capacity else return ⟨records, cursor, false⟩
    else
    match ← storeGet (slotKey cfg cursor.bucket cursor.nextSlot) with
    | none => return ⟨records, cursor, true⟩
    | some bytes =>
      let bytesRead := bytesRead + bytes.length
      if usizeMax < bytesRead then .fail .backpressured else
      if cfg.limits.maxScanBytes < bytesRead then
        if records = [] then .fail .backpressured else return ⟨records, cursor, false⟩
      else
      let envelope ← .lift (decodeSlot cfg bytes cursor cursor.nextSlot)
      scanSlots events (records ++ [envelope.record])
        { cursor with nextSlot := cursor.nextSlot + 1 } bytesRead

def scan (origin : Cursor) : Prog ScanPage := do
  .lift (checkCursor cfg origin)
  validatePredecessor cfg origin
  scanSlots cfg cfg.limits.maxScanEvents [] origin 0

end

/-! ### Unresolved operations -/

structure PendingSet where
  scope : Option (SourceId × String) := none
  nextSlot : Nat := 0
  seenOps : Std.ExtTreeSet String := ∅
  byOp : OrdMap (String × Nat) := ∅
  byKey : OrdMap (Std.ExtTreeSet String) := ∅

namespace PendingSet

abbrev M := ExceptT JournalError (StateM PendingSet)

def applyRecord (cursor : Cursor) : Record → M Unit
  | .intent opId key _ => do
    if opId = "" ∨ key = "" then throw (.corrupt "empty operation ID or key")
    if opId ∈ (← get).seenOps then throw (.corrupt "reused operation ID")
    modify fun p => { p with seenOps := p.seenOps.insert opId }
    modify fun p => { p with byOp := p.byOp.insert opId (key, cursor.nextSlot) }
    modify fun p => { p with byKey := p.byKey.insert key ((p.byKey.getD key ∅).insert opId) }
  | .outcome opId intentSlot key _ => do
    if (← get).byOp[opId]? ≠ some (key, intentSlot) then
      throw (.corrupt "outcome has no matching intent")
    match (← get).byKey[key]? with
    | none => throw (.corrupt "missing pending key")
    | some ops =>
      if opId ∉ ops then throw (.corrupt "missing pending key")
      modify fun p => { p with byKey := p.byKey.insert key (ops.erase opId) }
      modify fun p => { p with byOp := p.byOp.erase opId }
      if (ops.erase opId).isEmpty then
        modify fun p => { p with byKey := p.byKey.erase key }
  | .readerAdmission .. => pure ()

def applyAt (cursor : Cursor) (record : Record) : M Unit := do
  let p ← get
  if cursor.nextSlot ≠ p.nextSlot ∨ p.scope.any (· ≠ (cursor.source, cursor.bucket)) ∨
      (p.scope.isNone ∧ p.nextSlot ≠ 0) then
    throw .configMismatch
  if 2 ^ 64 ≤ p.nextSlot + 1 then throw .capacity
  applyRecord cursor record
  modify fun q => { q with
    scope := q.scope.or (some (cursor.source, cursor.bucket)), nextSlot := p.nextSlot + 1 }

def operationsFor (p : PendingSet) (key : String) : Option (Std.ExtTreeSet String) := p.byKey[key]?

end PendingSet

end S3Cache.Control

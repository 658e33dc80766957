import S3Cache.Lib.Machine
import S3Cache.Sync.Control.Client
import S3Cache.Sync.Control.Keys

/-! Opening the control journal (`Journal::open`, `sync/control/journal.rs`).  The first to open a
source writes its configuration as the manifest, and everybody else opens it only with the same
one.  The store's keys are texts here, since the slots of every journal stand beside the
manifests. -/

namespace S3Cache.Control

open CondStore Fallible

deriving instance DecidableEq for Limits
deriving instance DecidableEq for JournalConfig

inductive OpenError where
  | unknownManifest
  | journal (e : JournalError)
  deriving DecidableEq

section
variable [Payload JournalConfig] [Digest] [Base64Url.Encoding]

abbrev OpenProg := CondStore.Prog String Bytes String OpenError

def liftOpen {α : Type} (x : Except JournalError α) : OpenProg α := .lift (x.mapError .journal)

def readManifest (config : JournalConfig) (expected : Bytes) : OpenProg JournalConfig := do
  match ← Prog.read (fun e => .journal (.store e)) (manifestKey config.source) with
  | none => .fail .unknownManifest
  | some actual =>
    let stored : JournalConfig ← liftOpen (decode actual config.limits.maxRecordBytes)
    -- a manifest of the first format is compared by what it decodes to
    if stored ≠ config ∨ (isCurrent actual ∧ actual ≠ expected) then
      .fail (.journal .configMismatch)
    else return config

def openJournal (config : JournalConfig) : OpenProg JournalConfig := do
  liftOpen (validateConfig config)
  let expected ← liftOpen (encode config config.limits.maxRecordBytes)
  match ← Prog.create (fun e => .journal (.store e)) (manifestKey config.source) expected with
  | .created => return config
  | .occupied => readManifest config expected
  | .unknown => readManifest config expected

end

structure OpenCall where
  config : JournalConfig
  began : String → Option Bytes
  phase : Phase String Bytes String OpenError JournalConfig

structure OpenSystem where
  shared : Shared String Bytes := .empty
  calls : List OpenCall := []

/-- `slot` is a put some journal's append sends. -/
inductive OpenEvent where
  | open (config : JournalConfig)
  | move (index : Nat) (m : Move String)
  | slot (key : SlotKey) (bytes : Bytes)
  | deliver (key : String) (bytes : Bytes)

section
variable [Payload JournalConfig] [Digest] [Base64Url.Encoding]

def OpenSystem.step (sys : OpenSystem) : OpenEvent → Option OpenSystem
  | .open config =>
    some { sys with calls := sys.calls ++ [⟨config, sys.shared.store, .ready (openJournal config)⟩] }
  | .move index m => do
    let c ← sys.calls[index]?
    let (phase, shared) ← c.phase.move sys.shared m
    return ⟨shared, sys.calls.set index { c with phase }⟩
  | .slot key bytes => some { sys with shared := sys.shared.send key.text bytes }
  | .deliver key bytes =>
    if (key, bytes) ∈ sys.shared.sent then
      some { sys with shared := sys.shared.deliver key bytes }
    else none

def OpenCall.opened (c : OpenCall) : Option JournalConfig :=
  match c.phase with
  | .ready (.ret config) => some config
  | _ => none

def OpenCall.failed (c : OpenCall) : Option OpenError :=
  match c.phase with
  | .ready (.fail e) => some e
  | _ => none

/-! ### One open -/

variable {s s' : Shared String Bytes} {config : JournalConfig} {began : String → Option Bytes}

/-- The source's manifest is `config`, as its own limits let it be read. -/
def Manifest (s : Shared String Bytes) (config : JournalConfig) : Prop :=
  ∃ bytes, s.store (manifestKey config.source) = some bytes ∧
    decode bytes config.limits.maxRecordBytes = .ok config

/-- The bytes are a manifest of `config`: as it is written today, or in the first format. -/
def ManifestOf (config : JournalConfig) (bytes : Bytes) : Prop :=
  decode bytes config.limits.maxRecordBytes = .ok config ∧
    (isCurrent bytes = true → encode config config.limits.maxRecordBytes = .ok bytes)

instance (config : JournalConfig) (bytes : Bytes) : Decidable (ManifestOf config bytes) :=
  inferInstanceAs (Decidable (_ ∧ _))

def Free (s : Shared String Bytes) (config : JournalConfig) : Prop :=
  ∀ bytes ∈ s.store (manifestKey config.source), ManifestOf config bytes

/-- What an open makes of its configuration before it turns to the store. -/
def ownManifest (config : JournalConfig) : Except JournalError Bytes := do
  validateConfig config
  encode config config.limits.maxRecordBytes

/-- The store left it open whether the call's manifest stands: by an error, or by a manifest that
could not be seen, which it could if it stood when the call began. -/
def OpenError.Unsettled (began : String → Option Bytes) (config : JournalConfig) (e : OpenError) :
    Prop :=
  (∃ message, e = .journal (.store message)) ∨
    e = .unknownManifest ∧ began (manifestKey config.source) = none

def openContract (config : JournalConfig) (began : String → Option Bytes) :
    Contract String Bytes OpenError JournalConfig where
  rely := Shared.Grows
  inv s := ∀ key bytes, began key = some bytes → s.store key = some bytes
  may _ key bytes := key = manifestKey config.source ∧
    encode config config.limits.maxRecordBytes = .ok bytes
  returns s opened := opened = config ∧ Manifest s config
  fails s e := e.Unsettled began config ∨ (∃ own, ownManifest config = .error own ∧ e = .journal own) ∨
    ¬ Free s config

theorem Manifest.later (h : Manifest s config) (hs : s.Grows s') : Manifest s' config := by
  obtain ⟨bytes, hstore, hdecode⟩ := h
  exact ⟨bytes, hs.store _ _ hstore, hdecode⟩

theorem Free.earlier (h : Free s' config) (hs : s.Grows s') : Free s config :=
  fun bytes hbytes => h bytes (hs.store _ _ hbytes)

omit [Base64Url.Encoding] in
theorem manifestOf_encode {bytes : Bytes}
    (h : encode config config.limits.maxRecordBytes = .ok bytes) : ManifestOf config bytes :=
  ⟨decode_encode h, fun _ => h⟩

theorem openContract_lawful (config : JournalConfig) (began : String → Option Bytes) :
    (openContract config began).Lawful where
  refl := Shared.Grows.refl
  trans h h' := h.trans h'
  returns hs h := ⟨h.1, h.2.later hs⟩
  fails hs h := h.imp_right (.imp_right fun hfree hfree' => hfree (hfree'.earlier hs))

omit [Payload JournalConfig] [Digest] [Base64Url.Encoding] in
theorem safe_liftOpen {α : Type} {c : Contract String Bytes OpenError α}
    {x : Except JournalError α} (hok : ∀ a, x = .ok a → c.returns s a)
    (herr : ∀ e, x = .error e → c.fails s (.journal e)) : (liftOpen x).Safe c s := by
  unfold liftOpen
  cases x with
  | ok a => exact hok a rfl
  | error e => exact herr e rfl

theorem readManifest_safe {expected : Bytes}
    (hencode : encode config config.limits.maxRecordBytes = .ok expected) :
    (readManifest config expected).Safe (openContract config began) s := by
  unfold readManifest
  refine Prog.Safe.bind
    (Q := fun s actual => s.store (manifestKey config.source) = actual ∧
      (actual = none → began (manifestKey config.source) = none))
    (Prog.safe_read (fun s _ hinv => ⟨rfl, fun hnone => ?_⟩) fun _ e => .inl (.inl ⟨e, rfl⟩)) ?_
  · cases hbegan : began (manifestKey config.source) with
    | none => rfl
    | some bytes => exact absurd (hinv _ _ hbegan) (by simp [hnone])
  rintro s (_ | actual) ⟨hactual, hbegan⟩
  · exact .inl (.inr ⟨rfl, hbegan rfl⟩)
  · refine Prog.Safe.bind
      (Q := fun s stored => decode actual config.limits.maxRecordBytes = .ok stored ∧
        s.store (manifestKey config.source) = some actual)
      (safe_liftOpen (fun _ h => ⟨h, hactual⟩) ?_) ?_
    · intro e he
      refine .inr (.inr fun hfree => ?_)
      cases he.symm.trans (hfree actual hactual).1
    · rintro s stored ⟨hstored, hheld⟩
      split
      · next hdiffers =>
        refine .inr (.inr fun hfree => ?_)
        obtain ⟨hdecode, hcurrent⟩ := hfree actual hheld
        obtain rfl : stored = config := Except.ok.inj (hstored.symm.trans hdecode)
        refine hdiffers.elim (fun h => h rfl) fun h => h.2 ?_
        exact Except.ok.inj ((hcurrent h.1).symm.trans hencode)
      · next hsame =>
        have heq : stored = config := not_not.mp (not_or.mp hsame).1
        exact ⟨rfl, actual, hheld, heq ▸ hstored⟩

theorem openJournal_safe (config : JournalConfig) (began : String → Option Bytes)
    (s : Shared String Bytes) :
    (openJournal config).Safe (openContract config began) s := by
  unfold openJournal
  refine Prog.Safe.bind (Q := fun _ _ => validateConfig config = .ok ())
    (safe_liftOpen (fun _ h => h) ?_) ?_
  · intro e he
    refine .inr (.inl ⟨e, ?_, rfl⟩)
    rw [ownManifest, he]
    rfl
  intro s _ hvalid
  refine Prog.Safe.bind
    (Q := fun _ bytes => encode config config.limits.maxRecordBytes = .ok bytes)
    (safe_liftOpen (fun _ h => h) ?_) ?_
  · intro e he
    refine .inr (.inl ⟨e, ?_, rfl⟩)
    rw [ownManifest, hvalid]
    exact he
  intro s expected hencode
  refine Prog.Safe.bind (Q := fun s w => s.Truthful (manifestKey config.source) expected w)
    (Prog.safe_create (fun _ _ _ => ⟨rfl, hencode⟩) (fun _ _ _ _ _ _ _ hw => hw)
      fun _ e => .inl (.inl ⟨e, rfl⟩)) ?_
  intro s w hw
  cases w with
  | created => exact ⟨rfl, expected, hw, decode_encode hencode⟩
  | occupied => exact readManifest_safe hencode
  | unknown => exact readManifest_safe hencode

/-! ### All of them -/

structure Opened (initial : String → Option Bytes) (sys : OpenSystem) : Prop where
  safe : ∀ c ∈ sys.calls, c.phase.Safe (openContract c.config c.began) sys.shared
  began : ∀ c ∈ sys.calls, (openContract c.config c.began).inv sys.shared
  sender : ∀ source bytes, (manifestKey source, bytes) ∈ sys.shared.sent →
    ∃ config ∈ sys.calls.map (·.config), config.source.name = source.name ∧
      encode config config.limits.maxRecordBytes = .ok bytes
  held : ∀ key bytes, sys.shared.store key = some bytes →
    initial key = some bytes ∨ (key, bytes) ∈ sys.shared.sent

variable {initial : String → Option Bytes} {sys sys' : OpenSystem}

theorem Opened.later (h : Opened initial sys) (hs : sys.shared.Grows s) {c : OpenCall}
    (hc : c ∈ sys.calls) : c.phase.Safe (openContract c.config c.began) s ∧
      (openContract c.config c.began).inv s :=
  ⟨(h.safe c hc).later (openContract_lawful ..) hs,
    fun key bytes hb => hs.store _ _ (h.began c hc key bytes hb)⟩

theorem Opened.open (h : Opened initial sys) (config : JournalConfig) :
    Opened initial { sys with
      calls := sys.calls ++ [⟨config, sys.shared.store, .ready (openJournal config)⟩] } := by
  refine ⟨fun c hc => ?_, fun c hc => ?_, fun source bytes hsent => ?_, h.held⟩
  · rcases List.mem_append.mp hc with hc | hc
    · exact h.safe c hc
    · obtain rfl := List.mem_singleton.mp hc
      exact openJournal_safe ..
  · rcases List.mem_append.mp hc with hc | hc
    · exact h.began c hc
    · obtain rfl := List.mem_singleton.mp hc
      exact fun _ _ hb => hb
  · obtain ⟨sender, hmem, hsender⟩ := h.sender source bytes hsent
    exact ⟨sender, by simpa using .inl (by simpa using hmem), hsender⟩

theorem Opened.move (h : Opened initial sys) {i : Nat} {m : Move String}
    (hstep : sys.step (.move i m) = some sys') : Opened initial sys' := by
  simp only [OpenSystem.step, Option.bind_eq_bind, Option.bind_eq_some_iff] at hstep
  obtain ⟨c, hc, ⟨phase, shared⟩, hm, hsys⟩ := hstep
  cases hsys
  have hcall := List.mem_of_getElem? hc
  have hg := Phase.grows_move hm
  have hinv := (h.later hg hcall).2
  obtain ⟨-, hmoved⟩ := (h.safe c hcall).move (openContract_lawful ..) (h.began c hcall) hm
  have hconfigs : (sys.calls.set i { c with phase }).map (·.config) = sys.calls.map (·.config) := by
    obtain ⟨hlt, hget⟩ := List.getElem?_eq_some_iff.mp hc
    rw [List.map_set, ← hget, ← List.getElem_map (fun c : OpenCall => c.config)]
    · exact List.set_getElem_self _
    · rwa [List.length_map]
  have hsafe : phase.Safe (openContract c.config c.began) shared := by
    rcases hmoved with ⟨rfl, hsafe⟩ | ⟨k, v, rfl, -, hsafe⟩
    · exact hsafe
    · exact hsafe _ (Shared.Grows.refl _) hinv
  refine ⟨fun d hd => ?_, fun d hd => ?_, fun source bytes hsent => ?_, fun key bytes hheld => ?_⟩
  · rcases List.mem_or_eq_of_mem_set hd with hd | rfl
    · exact (h.later hg hd).1
    · exact hsafe
  · rcases List.mem_or_eq_of_mem_set hd with hd | rfl
    · exact (h.later hg hd).2
    · exact hinv
  · rw [hconfigs]
    rcases hmoved with ⟨rfl, -⟩ | ⟨k, v, rfl, ⟨rfl, hencode⟩, -⟩
    · exact h.sender source bytes hsent
    · rcases List.mem_cons.mp hsent with heq | hsent
      · obtain ⟨hkey, rfl⟩ := Prod.mk.inj heq
        exact ⟨c.config, List.mem_map_of_mem hcall, (name_eq_of_manifestKey hkey).symm, hencode⟩
      · exact h.sender source bytes hsent
  · rcases hmoved with ⟨rfl, -⟩ | ⟨k, v, rfl, -, -⟩
    · exact h.held key bytes hheld
    · exact (h.held key bytes hheld).imp_right (List.mem_cons_of_mem _)

theorem Opened.slot (h : Opened initial sys) (key : SlotKey) (bytes : Bytes) :
    Opened initial { sys with shared := sys.shared.send key.text bytes } := by
  have hg := Shared.grows_send sys.shared key.text bytes
  refine ⟨fun c hc => (h.later hg hc).1, fun c hc => (h.later hg hc).2,
    fun source bytes' hsent => ?_, fun key' bytes' hheld => ?_⟩
  · rcases List.mem_cons.mp hsent with heq | hsent
    · exact absurd (Prod.mk.inj heq).1.symm (key.text_ne_manifestKey source)
    · exact h.sender source bytes' hsent
  · exact (h.held key' bytes' hheld).imp_right (List.mem_cons_of_mem _)

theorem Opened.deliver (h : Opened initial sys) {key : String} {bytes : Bytes}
    (hsent : (key, bytes) ∈ sys.shared.sent) :
    Opened initial { sys with shared := sys.shared.deliver key bytes } := by
  have hg := Shared.grows_deliver sys.shared key bytes
  refine ⟨fun c hc => (h.later hg hc).1, fun c hc => (h.later hg hc).2,
    fun source bytes' hs => h.sender source bytes' (by simpa using hs), fun key' bytes' hheld => ?_⟩
  rw [Shared.deliver_sent]
  rcases Shared.deliver_store hheld with hheld | ⟨-, rfl, rfl⟩
  · exact h.held key' bytes' hheld
  · exact .inr hsent

theorem Opened.step (h : Opened initial sys) {e : OpenEvent} (hstep : sys.step e = some sys') :
    Opened initial sys' := by
  cases e with
  | «open» config =>
    cases hstep
    exact h.open config
  | move i m => exact h.move hstep
  | slot key bytes =>
    cases hstep
    exact h.slot key bytes
  | deliver key bytes =>
    simp only [OpenSystem.step, Option.ite_none_right_eq_some, Option.some.injEq] at hstep
    obtain ⟨hsent, rfl⟩ := hstep
    exact h.deliver hsent

theorem opened_run {events : List OpenEvent}
    (h : Machine.run OpenSystem.step ⟨⟨initial, []⟩, []⟩ events = some sys) : Opened initial sys :=
  Machine.run_keeps h (fun _ _ _ hopened hstep => hopened.step hstep)
    ⟨fun _ hc => absurd hc List.not_mem_nil, fun _ hc => absurd hc List.not_mem_nil,
      fun _ _ hsent => absurd hsent List.not_mem_nil, fun _ _ hheld => .inl hheld⟩

theorem Opened.manifest (h : Opened initial sys) {c : OpenCall} (hc : c ∈ sys.calls)
    {config : JournalConfig} (hopened : c.opened = some config) :
    config = c.config ∧ Manifest sys.shared c.config := by
  have hsafe := h.safe c hc
  unfold OpenCall.opened at hopened
  split at hopened
  · next hphase =>
    cases hopened
    rw [hphase] at hsafe
    exact hsafe
  · cases hopened

theorem Opened.unsettled (h : Opened initial sys) {c : OpenCall} (hc : c ∈ sys.calls)
    {e : OpenError} (hfailed : c.failed = some e) :
    e.Unsettled c.began c.config ∨
      (∃ own, ownManifest c.config = .error own ∧ e = .journal own) ∨ ¬ Free sys.shared c.config := by
  have hsafe := h.safe c hc
  unfold OpenCall.failed at hfailed
  split at hfailed
  · next hphase =>
    cases hfailed
    rw [hphase] at hsafe
    exact hsafe
  · cases hfailed

omit [Payload JournalConfig] [Base64Url.Encoding] in
theorem decode_unique {α : Type} [Payload α] {bytes : Bytes} {m n : Nat} {a b : α}
    (ha : decode bytes m = .ok a) (hb : decode bytes n = .ok b) : a = b := by
  unfold decode at ha hb
  simp only [ite_error_eq_ok] at ha hb
  exact Except.ok.inj (ha.2.2.2.2.symm.trans hb.2.2.2.2)

/-- The opens of a source agree.  Over any store to begin with and any interleaving of opens,
appends and late puts, an open that succeeds has its own configuration in the manifest, so two
that succeed for one source name have the same, down to the generation and the limits. -/
theorem opens_agree {events : List OpenEvent}
    (h : Machine.run OpenSystem.step ⟨⟨initial, []⟩, []⟩ events = some sys) :
    (∀ c ∈ sys.calls, ∀ config ∈ c.opened, config = c.config ∧ Manifest sys.shared c.config) ∧
    ∀ c ∈ sys.calls, ∀ d ∈ sys.calls, c.opened.isSome → d.opened.isSome →
      c.config.source.name = d.config.source.name → c.config = d.config := by
  have hopened := opened_run h
  refine ⟨fun c hc config hconfig => hopened.manifest hc hconfig, fun c hc d hd hco hdo hname => ?_⟩
  obtain ⟨_, hco⟩ := Option.isSome_iff_exists.mp hco
  obtain ⟨_, hdo⟩ := Option.isSome_iff_exists.mp hdo
  obtain ⟨-, cbytes, hcstore, hcdecode⟩ := hopened.manifest hc hco
  obtain ⟨-, dbytes, hdstore, hddecode⟩ := hopened.manifest hd hdo
  have hkey : manifestKey c.config.source = manifestKey d.config.source := by
    unfold manifestKey
    rw [hname]
  rw [hkey, hdstore] at hcstore
  obtain rfl := Option.some.inj hcstore
  exact decode_unique hcdecode hddecode

/-- An open may be tried again with the same configuration.  As long as nobody opens the source
with another, and the manifest it began with, if any, is one of this configuration, an open fails
only by a store error, with an unknown manifest that was not there when the call began, or by what
every open with it answers: the configuration is invalid, or does not fit in its own limit. -/
theorem reopen_unsettled {events : List OpenEvent}
    (h : Machine.run OpenSystem.step ⟨⟨initial, []⟩, []⟩ events = some sys) {config : JournalConfig}
    (hinitial : ∀ bytes ∈ initial (manifestKey config.source), ManifestOf config bytes)
    (hsame : ∀ c ∈ sys.calls, c.config.source.name = config.source.name → c.config = config) :
    ∀ c ∈ sys.calls, c.config = config → ∀ e ∈ c.failed, e.Unsettled c.began config ∨
      ∃ own, ownManifest config = .error own ∧ e = .journal own := by
  have hopened := opened_run h
  rintro c hc rfl e he
  refine (hopened.unsettled hc he).imp_right (·.resolve_right (not_not.mpr fun bytes hbytes => ?_))
  rcases hopened.held _ _ hbytes with hbytes | hsent
  · exact hinitial bytes hbytes
  · obtain ⟨sender, hmem, hname, hsender⟩ := hopened.sender _ _ hsent
    obtain ⟨d, hd, rfl⟩ := List.mem_map.mp hmem
    rw [hsame d hd hname] at hsender
    exact manifestOf_encode hsender

end

section Sample
open Postcard (Format)

def limitsFormat (u64 : Format Nat) : Format Limits :=
  (Format.pair u64 (.pair u64 (.pair u64 (.pair u64 u64)))).map
    (fun l => (l.maxRecordBytes, l.maxSlots, l.maxScanEvents, l.maxScanBytes, l.maxAppendProbes))
    fun (recordBytes, slots, scanEvents, scanBytes, probes) =>
      some ⟨recordBytes, slots, scanEvents, scanBytes, probes⟩

def configFormat (u32 u64 : Format Nat) : Format JournalConfig :=
  (Format.pair (sourceFormat u64) (.pair u32 (.pair u64 (limitsFormat u64)))).map
    (fun c => (c.source, c.admissionVersion, c.maxAdmissionMs, c.limits))
    fun (source, admissionVersion, maxAdmissionMs, limits) =>
      some ⟨source, admissionVersion, maxAdmissionMs, limits⟩

local instance manifestDigest : Digest := polynomialDigest
local instance manifestPayload : Payload JournalConfig := payloadOf configFormat
local instance manifestEncoding : Base64Url.Encoding := Base64Url.unpadded

def firstConfig : JournalConfig where
  source := ⟨"control", 1⟩
  admissionVersion := 1
  maxAdmissionMs := 1000

def nextConfig : JournalConfig := { firstConfig with source := ⟨"control", 2⟩ }

def firstManifest : Bytes := (encode firstConfig 16384).toOption.getD []

def openEvents : List OpenEvent :=
  [.open firstConfig, .move 0 .send, .slot ⟨⟨"control", 1⟩, "b", 0⟩ [7], .open nextConfig,
   .move 0 (.verdict .unknown), .move 0 .answer, .move 1 .send,
   .deliver (manifestKey firstConfig.source) firstManifest, .move 1 (.verdict .occupied),
   .move 1 .answer, .open firstConfig, .open firstConfig, .move 2 .send, .move 3 .send,
   .move 2 (.verdict .occupied), .move 3 (.verdict .unknown), .move 2 .answer, .move 3 .answer]

def openedEnd : OpenSystem :=
  ((Machine.run OpenSystem.step ⟨⟨fun _ => none, []⟩, []⟩ openEvents).get (by decide +kernel))

theorem opens_agree_sample :
    openedEnd.calls.map (·.failed) =
      [some .unknownManifest, some (.journal .configMismatch), none, none] ∧
    openedEnd.calls.map (·.opened) = [none, none, some firstConfig, some firstConfig] ∧
    ∀ c ∈ openedEnd.calls, ∀ d ∈ openedEnd.calls, c.opened.isSome → d.opened.isSome →
      c.config.source.name = d.config.source.name → c.config = d.config :=
  ⟨by decide +kernel, by decide +kernel, (opens_agree (Option.some_get _).symm).2⟩

def earlierManifest : Bytes :=
  let payload := (configFormat (.fixed 4) (.fixed 8)).write firstConfig
  let bytes := magic ++ (legacyVersion :: (ByteCodec.leBytes 4 payload.length ++ payload))
  bytes ++ Digest.hash bytes

def reopenEvents : List OpenEvent :=
  [.open firstConfig, .move 0 .send, .move 0 (.error "timeout"), .open firstConfig, .move 1 .send,
   .move 1 (.verdict .occupied), .move 1 .answer]

def earlierStore (key : String) : Option Bytes :=
  if key = manifestKey firstConfig.source then some earlierManifest else none

def reopenEnd : OpenSystem :=
  ((Machine.run OpenSystem.step ⟨⟨earlierStore, []⟩, []⟩ reopenEvents).get (by decide +kernel))

theorem reopen_unsettled_sample :
    reopenEnd.calls.map (·.failed) = [some (.journal (.store "timeout")), none] ∧
    reopenEnd.calls.map (·.opened) = [none, some firstConfig] ∧
    ∀ c ∈ reopenEnd.calls, c.config = firstConfig → ∀ e ∈ c.failed,
      e.Unsettled c.began firstConfig ∨
        ∃ own, ownManifest firstConfig = .error own ∧ e = .journal own := by
  have hconfigs : reopenEnd.calls.map (·.config) = [firstConfig, firstConfig] := by decide +kernel
  have hrun : Machine.run OpenSystem.step ⟨⟨earlierStore, []⟩, []⟩ reopenEvents =
      some reopenEnd := (Option.some_get _).symm
  have hearlier : ManifestOf firstConfig earlierManifest := by decide +kernel
  refine ⟨by decide +kernel, by decide +kernel, reopen_unsettled hrun (fun bytes hbytes => ?_)
    fun c hc _ => ?_⟩
  · rw [Option.mem_def, earlierStore, if_pos rfl] at hbytes
    cases hbytes
    exact hearlier
  · have hmem := List.mem_map_of_mem (f := (·.config)) hc
    rw [hconfigs] at hmem
    simpa using hmem

end Sample

end S3Cache.Control

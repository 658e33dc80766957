import S3Cache.Lib.Machine
import S3Cache.Sync.Control.Client

/-! The control journal is a gap-free immutable log, whatever clients append to it and however
late their puts take effect. -/

namespace S3Cache.Control

open CondStore Fallible

section
variable [Payload SlotEnvelope] [Digest] {cfg : JournalConfig} {s s' : Shared SlotKey Bytes}
  {bucket : String} {slot : Nat} {record : Record} {follows : String → Record → Prop}

/-- What every run keeps: the log, every call's contract, and that a record `follows` selects
has only its last call running. -/
structure Sound (cfg : JournalConfig) (follows : String → Record → Prop) (sys : System) :
    Prop where
  log : LogInv cfg follows sys.shared
  safe : ∀ (i : Nat) (c : Call), sys.calls[i]? = some c →
    c.phase.Safe (contract cfg follows c.origin c.record) sys.shared
  single : ∀ (i j : Nat) (c d : Call), i < j → sys.calls[i]? = some c → sys.calls[j]? = some d →
    c.IsFor d.origin.bucket d.record → follows d.origin.bucket d.record → c.phase.Finished
  sender : ∀ bucket slot record, Sends cfg sys.shared bucket slot record →
    ∃ c ∈ sys.calls, c.IsFor bucket record

theorem sound_empty : Sound cfg follows {} where
  log := ⟨nofun, nofun, fun _ _ _ _ _ _ ⟨_, h, _⟩ => nomatch h⟩
  safe _ _ h := by simp at h
  single _ _ _ _ _ h := by simp at h
  sender := fun _ _ _ ⟨_, h, _⟩ => nomatch h

theorem sends_send {k : SlotKey} {v : Bytes}
    (h : Sends cfg (s.send k v) bucket slot record) :
    Sends cfg s bucket slot record ∨
      k = slotKey cfg bucket slot ∧ encodeSlot cfg bucket slot record = .ok v := by
  obtain ⟨bytes, hmem, henc⟩ := h
  rcases List.mem_cons.mp hmem with hnew | hold
  · cases hnew
    exact .inr ⟨rfl, henc⟩
  · exact .inl ⟨bytes, hold, henc⟩

theorem LogInv.send (hi : LogInv cfg follows s) {origin : Cursor} {k : SlotKey} {v : Bytes}
    (hmay : (contract cfg follows origin record).may s k v) : LogInv cfg follows (s.send k v) := by
  obtain ⟨hk, hmax, hfilled, hbound, hvalid, henc, hown⟩ := hmay
  have hg := Shared.grows_send s k v
  have hbucket : k.bucket = origin.bucket := congrArg SlotKey.bucket hk
  refine ⟨fun a w hmem => ?_, fun a w h => List.mem_cons_of_mem _ (hi.stored a w h),
    fun b r hf i j hlt hsi hsj => ?_⟩
  · rcases List.mem_cons.mp hmem with hnew | hold
    · cases hnew
      rw [hbucket]
      exact ⟨record, hk, hmax, hfilled.later hg, hbound.later hg, hvalid, henc⟩
    · obtain ⟨r, ha, hm, hfl, hb, hv, he⟩ := hi.sent a w hold
      exact ⟨r, ha, hm, hfl.later hg, hb.later hg, hv, he⟩
  · rcases sends_send hsi with hsi | ⟨hki, hei⟩
    · rcases sends_send hsj with hsj | ⟨hkj, hej⟩
      · exact (hi.once b r hf i j hlt hsi hsj).later hg
      · obtain ⟨rfl, rfl, rfl⟩ := encodeSlot_inj henc hej
        exact ((hown hf).1 i hlt).later hg
    · obtain ⟨rfl, rfl, rfl⟩ := encodeSlot_inj henc hei
      rcases sends_send hsj with hsj | ⟨hkj, hej⟩
      · exact absurd ((hown hf).2 j hsj) (Nat.not_le.mpr hlt)
      · obtain ⟨-, rfl, -⟩ := encodeSlot_inj henc hej
        exact absurd hlt (lt_irrefl _)

theorem LogInv.deliver (hi : LogInv cfg follows s) {k : SlotKey} {v : Bytes}
    (hsent : (k, v) ∈ s.sent) : LogInv cfg follows (s.deliver k v) := by
  have hg := Shared.grows_deliver s k v
  have hsends : ∀ {b i r}, Sends cfg (s.deliver k v) b i r → Sends cfg s b i r := by
    rintro b i r ⟨w, hmem, he⟩
    exact ⟨w, by simpa using hmem, he⟩
  refine ⟨fun a w hmem => ?_, fun a w h => ?_, fun b r hf i j hlt hsi hsj => ?_⟩
  · obtain ⟨r, ha, hm, hfl, hb, hv, he⟩ := hi.sent a w (by simpa using hmem)
    exact ⟨r, ha, hm, hfl.later hg, hb.later hg, hv, he⟩
  · rw [Shared.deliver_sent]
    rcases Shared.deliver_store h with h | ⟨-, rfl, rfl⟩
    · exact hi.stored a w h
    · exact hsent
  · exact (hi.once b r hf i j hlt (hsends hsi) (hsends hsj)).later hg

theorem Sound.set {sys : System} (h : Sound cfg follows sys) {i : Nat} {c : Call}
    {phase : Phase SlotKey Bytes String JournalError AppendResult} (hc : sys.calls[i]? = some c)
    (hrunning : ¬ c.phase.Finished) (hlog : LogInv cfg follows s')
    (hsafe : phase.Safe (contract cfg follows c.origin c.record) s')
    (hothers : ∀ (j : Nat) (d : Call), j ≠ i → sys.calls[j]? = some d →
      d.phase.Safe (contract cfg follows d.origin d.record) s')
    (hsender : ∀ bucket slot record, Sends cfg s' bucket slot record →
      Sends cfg sys.shared bucket slot record ∨ c.IsFor bucket record) :
    Sound cfg follows ⟨s', sys.calls.set i { c with phase }⟩ := by
  have hset : ∀ (j : Nat) (d : Call), (sys.calls.set i { c with phase })[j]? = some d →
      j = i ∧ d = { c with phase } ∨ j ≠ i ∧ sys.calls[j]? = some d := by
    intro j d hd
    rw [List.getElem?_set] at hd
    split at hd
    · next hij =>
      split at hd
      · exact .inl ⟨hij.symm, (Option.some.inj hd).symm⟩
      · cases hd
    · next hij => exact .inr ⟨Ne.symm hij, hd⟩
  -- a call with the same origin and record stood at every index before
  have hold : ∀ (j : Nat) (d : Call), (sys.calls.set i { c with phase })[j]? = some d →
      ∃ d', sys.calls[j]? = some d' ∧ d'.origin = d.origin ∧ d'.record = d.record := by
    intro j d hd
    rcases hset j d hd with ⟨rfl, rfl⟩ | ⟨-, hd⟩
    · exact ⟨c, hc, rfl, rfl⟩
    · exact ⟨d, hd, rfl, rfl⟩
  refine ⟨hlog, fun j d hd => ?_, fun j k d e hjk hd he hfor hf => ?_, fun b n r hs => ?_⟩
  · rcases hset j d hd with ⟨rfl, rfl⟩ | ⟨hne, hd⟩
    · exact hsafe
    · exact hothers j d hne hd
  · obtain ⟨e', he', ho, hr⟩ := hold k e he
    rw [← ho, ← hr] at hfor hf
    rcases hset j d hd with ⟨rfl, rfl⟩ | ⟨-, hd⟩
    · exact absurd (h.single _ k c e' hjk hc he' hfor hf) hrunning
    · exact h.single j k d e' hjk hd he' hfor hf
  · have hmem : ∃ d ∈ sys.calls, d.IsFor b r := by
      rcases hsender b n r hs with hs | hfor
      · exact h.sender b n r hs
      · exact ⟨c, List.mem_of_getElem? hc, hfor⟩
    obtain ⟨d, hd, hfor⟩ := hmem
    obtain ⟨k, hk⟩ := List.mem_iff_getElem?.mp hd
    by_cases hik : k = i
    · subst hik
      obtain rfl : d = c := Option.some.inj (hk.symm.trans hc)
      refine ⟨{ d with phase }, List.mem_iff_getElem?.mpr ⟨k, ?_⟩, hfor⟩
      rw [List.getElem?_set_self (List.getElem?_eq_some_iff.mp hc).1]
    · refine ⟨d, List.mem_iff_getElem?.mpr ⟨k, ?_⟩, hfor⟩
      rw [List.getElem?_set_ne (Ne.symm hik), hk]

theorem sound_move {sys sys' : System} {i : Nat} {m : Move String} (h : Sound cfg follows sys)
    (hstep : sys.step cfg (.move i m) = some sys') : Sound cfg follows sys' := by
  simp only [System.step, Option.bind_eq_bind, Option.bind_eq_some_iff] at hstep
  obtain ⟨c, hc, ⟨phase, shared⟩, hm, hsys⟩ := hstep
  cases hsys
  obtain ⟨hrunning, hmoved⟩ :=
    (h.safe i c hc).move (contract_lawful c.origin) h.log hm
  rcases hmoved with ⟨rfl, hsafe⟩ | ⟨k, v, rfl, hmay, hsafe⟩
  · exact h.set hc hrunning h.log hsafe (fun j d _ hd => h.safe j d hd) fun _ _ _ hs => .inl hs
  · have hg := Shared.grows_send sys.shared k v
    have hlog := h.log.send hmay
    obtain ⟨hk, -, -, -, -, henc, -⟩ := hmay
    refine h.set hc hrunning hlog (hsafe _ ((contract_lawful c.origin).refl _) hlog)
      (fun j d hne hd => ?_) fun b n r hs => ?_
    · by_cases hsame : c.IsFor d.origin.bucket d.record ∧ follows d.origin.bucket d.record
      · -- another call of the same record: the moving one is the last, so this one is over
        obtain ⟨hfor, hf⟩ := hsame
        rcases Nat.lt_or_gt_of_ne hne with hlt | hlt
        · have hfinished := h.single j i d c hlt hd hc ⟨hfor.1.symm, hfor.2.symm⟩
            (by rw [hfor.1, hfor.2]; exact hf)
          exact (h.safe j d hd).finished hfinished (fun a ha => contract_returns_later ha hg)
            fun e he => contract_fails_later he hg
        · exact absurd (h.single i j c d hlt hc hd hfor hf) hrunning
      · refine (h.safe j d hd).later (contract_lawful d.origin) ⟨hg, fun hf n hs => ?_⟩
        rcases sends_send hs with hs | ⟨-, he⟩
        · exact hs
        · obtain ⟨hb, -, hr⟩ := encodeSlot_inj henc he
          exact absurd ⟨⟨hb, hr⟩, hf⟩ hsame
    · rcases sends_send hs with hs | ⟨-, he⟩
      · exact .inl hs
      · obtain ⟨hb, -, hr⟩ := encodeSlot_inj henc he
        exact .inr ⟨hb, hr⟩

theorem sound_deliver {sys sys' : System} {key : SlotKey} {bytes : Bytes}
    (h : Sound cfg follows sys) (hstep : sys.step cfg (.deliver key bytes) = some sys') :
    Sound cfg follows sys' := by
  simp only [System.step, Option.ite_none_right_eq_some, Option.some.injEq] at hstep
  obtain ⟨hsent, rfl⟩ := hstep
  have hsends : ∀ {b n r}, Sends cfg (sys.shared.deliver key bytes) b n r →
      Sends cfg sys.shared b n r := by
    rintro b n r ⟨w, hmem, he⟩
    exact ⟨w, by simpa using hmem, he⟩
  exact ⟨h.log.deliver hsent, fun i c hc => (h.safe i c hc).later (contract_lawful c.origin)
      ⟨Shared.grows_deliver .., fun _ _ hs => hsends hs⟩,
    h.single, fun b n r hs => h.sender b n r (hsends hs)⟩

omit [Payload SlotEnvelope] [Digest] in
theorem lastCall_eq_some {sys : System} {c : Call} (h : sys.lastCall bucket record = some c) :
    ∃ l, sys.calls[l]? = some c ∧ c.IsFor bucket record ∧
      ∀ (i : Nat) (d : Call), l < i → sys.calls[i]? = some d → ¬ d.IsFor bucket record := by
  unfold System.lastCall at h
  generalize sys.calls = calls at h ⊢
  induction calls using List.reverseRecOn with
  | nil => cases h
  | append_singleton calls x ih =>
    rw [List.filter_append] at h
    by_cases hx : x.IsFor bucket record
    · simp only [List.filter_singleton, hx, decide_true, cond_true, List.getLast?_concat] at h
      cases h
      refine ⟨calls.length, by simp, hx, fun i d hlt hd => ?_⟩
      rw [List.getElem?_eq_none (by simp; omega)] at hd
      cases hd
    · simp only [List.filter_singleton, hx, decide_false, cond_false, List.append_nil] at h
      obtain ⟨l, hl, hfor, hlast⟩ := ih h
      have hlen := (List.getElem?_eq_some_iff.mp hl).1
      refine ⟨l, by rw [List.getElem?_append_left hlen, hl], hfor, fun i d hlt hd => ?_⟩
      rcases Nat.lt_trichotomy i calls.length with hi | rfl | hi
      · exact hlast i d hlt (by rwa [List.getElem?_append_left hi] at hd)
      · obtain rfl : x = d := by simpa using hd
        exact hx
      · rw [List.getElem?_eq_none (by simp; omega)] at hd
        cases hd

omit [Payload SlotEnvelope] [Digest] in
theorem lastCall_eq_none {sys : System} (h : sys.lastCall bucket record = none) :
    ∀ c ∈ sys.calls, ¬ c.IsFor bucket record := by
  simpa [System.lastCall] using h

omit [Payload SlotEnvelope] [Digest] in
theorem retryCursor_eq_some {c : Call} {cursor : Cursor} (h : c.retryCursor = some cursor) :
    ∃ e, c.phase = .ready (.fail e) ∧ e.resumeAt = some cursor := by
  unfold Call.retryCursor at h
  split at h
  · next e he => exact ⟨e, he, h⟩
  · cases h

theorem Sound.begin {sys : System} (h : Sound cfg follows sys) {origin : Cursor}
    (hok : Retries follows sys (.call origin record)) :
    MayBegin cfg follows origin record sys.shared ∧
      (follows origin.bucket record → ∀ (i : Nat) (c : Call), sys.calls[i]? = some c →
        c.IsFor origin.bucket record → c.phase.Finished) := by
  cases hlast : sys.lastCall origin.bucket record with
  | none =>
    have hnone := lastCall_eq_none hlast
    refine ⟨fun _ => .inr fun i hs => ?_, fun _ i c hc hfor => ?_⟩
    · obtain ⟨c, hc, hfor⟩ := h.sender _ _ _ hs
      exact hnone c hc hfor
    · exact absurd hfor (hnone c (List.mem_of_getElem? hc))
  | some last =>
    obtain ⟨l, hl, hfor, hafter⟩ := lastCall_eq_some hlast
    have hretry : follows origin.bucket record →
        ∃ e, last.phase = .ready (.fail e) ∧ e.resumeAt = some origin := fun hf =>
      retryCursor_eq_some (hok hf last hlast)
    refine ⟨fun hf => .inl ?_, fun hf i c hc hcfor => ?_⟩
    · obtain ⟨e, he, hresume⟩ := hretry hf
      have hsafe := h.safe l last hl
      rw [he] at hsafe
      have htaken := (hsafe origin hresume).2
      rw [hfor.1, hfor.2] at htaken
      exact htaken hf
    · rcases Nat.lt_trichotomy i l with hlt | rfl | hlt
      · exact h.single i l c last hlt hc hl (by rw [hfor.1, hfor.2]; exact hcfor)
          (by rw [hfor.1, hfor.2]; exact hf)
      · obtain rfl : c = last := Option.some.inj (hc.symm.trans hl)
        obtain ⟨e, he, -⟩ := hretry hf
        rw [he]
        trivial
      · exact absurd hcfor (hafter i c hlt hc)

theorem sound_call {sys sys' : System} {origin : Cursor} (h : Sound cfg follows sys)
    (hok : Retries follows sys (.call origin record))
    (hstep : sys.step cfg (.call origin record) = some sys') : Sound cfg follows sys' := by
  cases hstep
  obtain ⟨hbegin, hover⟩ := h.begin hok
  have hget : ∀ (j : Nat) (d : Call), (sys.calls ++
      [⟨origin, record, .ready (append cfg origin record)⟩])[j]? = some d →
      sys.calls[j]? = some d ∨ j = sys.calls.length ∧
        d = ⟨origin, record, .ready (append cfg origin record)⟩ := by
    intro j d hd
    rcases Nat.lt_trichotomy j sys.calls.length with hj | rfl | hj
    · exact .inl (by rwa [List.getElem?_append_left hj] at hd)
    · exact .inr ⟨rfl, by simpa using hd.symm⟩
    · rw [List.getElem?_eq_none (by simp; omega)] at hd
      cases hd
  refine ⟨h.log, fun j d hd => ?_, fun j k d e hjk hd he hfor hf => ?_, fun b n r hs => ?_⟩
  · rcases hget j d hd with hd | ⟨-, rfl⟩
    · exact h.safe j d hd
    · exact append_safe hbegin
  · have hd' : sys.calls[j]? = some d := by
      rcases hget j d hd with hd | ⟨rfl, -⟩
      · exact hd
      · have := (List.getElem?_eq_some_iff.mp he).1
        simp only [List.length_append, List.length_singleton] at this
        omega
    rcases hget k e he with he | ⟨-, rfl⟩
    · exact h.single j k d e hjk hd' he hfor hf
    · exact hover hf j d hd' hfor
  · obtain ⟨c, hc, hfor⟩ := h.sender b n r hs
    exact ⟨c, List.mem_append_left _ hc, hfor⟩

theorem Sound.step {sys sys' : System} {e : Event} (h : Sound cfg follows sys)
    (hok : Retries follows sys e) (hstep : sys.step cfg e = some sys') :
    Sound cfg follows sys' := by
  cases e with
  | call origin record => exact sound_call h hok hstep
  | move i m => exact sound_move h hstep
  | deliver key bytes => exact sound_deliver h hstep

theorem sound_run {sys : System} {events : List Event}
    (h : Machine.Runs (System.step cfg) (Retries follows) {} events sys) :
    Sound cfg follows sys :=
  h.keeps (fun _ _ _ hs hok hstep => hs.step hok hstep) sound_empty

theorem grows_step {sys sys' : System} {e : Event} (hstep : sys.step cfg e = some sys') :
    sys.shared.Grows sys'.shared := by
  cases e with
  | call origin record =>
    cases hstep
    exact .refl _
  | move i m =>
    simp only [System.step, Option.bind_eq_bind, Option.bind_eq_some_iff] at hstep
    obtain ⟨c, -, ⟨phase, shared⟩, hm, hsys⟩ := hstep
    cases hsys
    exact Phase.grows_move hm
  | deliver key bytes =>
    simp only [System.step, Option.ite_none_right_eq_some, Option.some.injEq] at hstep
    obtain ⟨-, rfl⟩ := hstep
    exact Shared.grows_deliver ..

def Holds (cfg : JournalConfig) (s : Shared SlotKey Bytes) (bucket : String) (slot : Nat)
    (record : Record) : Prop :=
  ∃ bytes, s.store (slotKey cfg bucket slot) = some bytes ∧
    decode bytes cfg.limits.maxRecordBytes = .ok (⟨cfg.source, bucket, slot, record⟩ : SlotEnvelope)

theorem LogInv.holds_iff (hi : LogInv cfg follows s) :
    Holds cfg s bucket slot record ↔ Carries cfg s bucket slot record := by
  constructor
  · rintro ⟨bytes, hstored, hdecode⟩
    obtain ⟨stored, -, -, -, -, -, henc⟩ := hi.sent _ _ (hi.stored _ _ hstored)
    have := Except.ok.inj ((decode_encode henc).symm.trans hdecode)
    obtain rfl : stored = record := congrArg SlotEnvelope.record this
    exact ⟨bytes, hstored, henc⟩
  · rintro ⟨bytes, hstored, henc⟩
    exact ⟨bytes, hstored, decode_encode henc⟩

omit [Payload SlotEnvelope] [Digest] in
theorem exists_initial {p : Nat → Prop} {bound : Nat} (hdown : ∀ n, p n → ∀ i < n, p i)
    (hbound : ∀ n, p n → n < bound) : ∃ n ≤ bound, ∀ i, p i ↔ i < n := by
  classical
  have hex : ∃ n, ¬ p n := ⟨bound, fun h => absurd (hbound bound h) (lt_irrefl bound)⟩
  refine ⟨Nat.find hex, Nat.find_min' hex fun h => absurd (hbound bound h) (lt_irrefl bound),
    fun i => ⟨fun hi => ?_, fun hi => not_not.mp (Nat.find_min hex hi)⟩⟩
  by_contra hle
  rcases Nat.lt_or_eq_of_le (Nat.le_of_not_lt hle) with hlt | heq
  · exact Nat.find_spec hex (hdown i hi _ hlt)
  · exact Nat.find_spec hex (heq ▸ hi)

theorem LogInv.initial (hi : LogInv cfg follows s) (bucket : String) :
    ∃ n ≤ cfg.limits.maxSlots, ∀ slot,
      (s.store (slotKey cfg bucket slot)).isSome ↔ slot < n := by
  refine exists_initial (fun n hn i hlt => ?_) fun n hn => ?_
  · obtain ⟨v, hv⟩ := Option.isSome_iff_exists.mp hn
    obtain ⟨w, hw⟩ := hi.filled hv i (Nat.lt_succ_of_lt hlt)
    exact Option.isSome_iff_exists.mpr ⟨w, hw⟩
  · obtain ⟨v, hv⟩ := Option.isSome_iff_exists.mp hn
    obtain ⟨-, -, hmax, -⟩ := hi.sent _ _ (hi.stored _ _ hv)
    exact hmax

/-- The control journal is a gap-free immutable log.  Whatever calls of `append` run at once,
from whatever cursors, and however late their puts take effect: the occupied slots of a bucket
are an initial segment within the slot limit, none ever changes, and a record that one client
appends by retrying only from the cursors its failed calls give is in one slot at most, just
before the cursor a successful call returns. -/
theorem journal_gap_free_log {events : List Event} {sys : System}
    (hrun : Machine.run (System.step cfg) {} events = some sys) :
    (∀ bucket, ∃ n ≤ cfg.limits.maxSlots, ∀ slot,
      (sys.shared.store (slotKey cfg bucket slot)).isSome ↔ slot < n) ∧
    (∀ events' sys', Machine.run (System.step cfg) sys events' = some sys' → ∀ key bytes,
      sys.shared.store key = some bytes → sys'.shared.store key = some bytes) ∧
    ∀ bucket record, Machine.Runs (System.step cfg)
        (Retries fun b r => b = bucket ∧ r = record) {} events sys →
      (∀ i j, Holds cfg sys.shared bucket i record → Holds cfg sys.shared bucket j record →
        i = j) ∧
      ∀ c ∈ sys.calls, c.IsFor bucket record → ∀ cursor, c.returned = some cursor →
        ∃ slot, cursor = ⟨cfg.source, bucket, slot + 1⟩ ∧
          Holds cfg sys.shared bucket slot record := by
  have hany : Sound cfg (fun _ _ => False) sys := sound_run
    ((Machine.runs_of_run hrun).mono fun _ e _ => by
      cases e with
      | call origin record => exact nofun
      | _ => trivial)
  refine ⟨hany.log.initial, fun events' sys' hrun' key bytes hk => ?_, fun bucket record hruns => ?_⟩
  · have hgrows : sys.shared.Grows sys'.shared :=
      Machine.run_keeps (P := fun t => sys.shared.Grows t.shared) hrun'
        (fun _ _ _ ht hs => ht.trans (grows_step hs)) (.refl _)
    exact hgrows.store key bytes hk
  · have hs := sound_run hruns
    refine ⟨fun i j hi hj => ?_, fun c hc hfor cursor hret => ?_⟩
    · rw [hs.log.holds_iff] at hi hj
      rcases Nat.lt_trichotomy i j with hlt | heq | hlt
      · exact absurd (hs.log.once bucket record ⟨rfl, rfl⟩ i j hlt (hs.log.sends hi)
          (hs.log.sends hj)) hi.not_taken
      · exact heq
      · exact absurd (hs.log.once bucket record ⟨rfl, rfl⟩ j i hlt (hs.log.sends hj)
          (hs.log.sends hi)) hj.not_taken
    · obtain ⟨i, hci⟩ := List.mem_iff_getElem?.mp hc
      have hsafe := hs.safe i c hci
      obtain ⟨rfl, rfl⟩ := hfor
      unfold Call.returned at hret
      split at hret
      · next result hphase =>
        rw [hphase] at hsafe
        obtain ⟨slot, hcursor, hcarries⟩ := hsafe
        cases hret
        exact ⟨slot, hcursor, hs.log.holds_iff.mpr hcarries⟩
      · cases hret

end

section Sample

local instance logDigest : Digest := polynomialDigest
local instance logPayload : Payload SlotEnvelope := payloadOf slotFormat

def sampleConfig : JournalConfig where
  source := ⟨"control", 1⟩
  admissionVersion := 1
  maxAdmissionMs := 1000

def sampleFirst : Record := .intent "a" "k" .put
def sampleSecond : Record := .intent "c" "k" .delete

def sampleBytes (slot : Nat) (record : Record) : Bytes :=
  (encodeSlot sampleConfig "b" slot record).toOption.getD []

def sampleEvents : List Event :=
  [.call (start sampleConfig "b") sampleFirst, .call (start sampleConfig "b") sampleSecond,
   .move 0 .answer, .move 0 .send, .move 0 (.verdict .unknown), .move 0 .answer,
   .move 1 .answer, .deliver (slotKey sampleConfig "b" 0) (sampleBytes 0 sampleFirst),
   .move 1 .send, .move 1 (.verdict .occupied), .move 1 .answer, .move 1 .answer, .move 1 .send,
   .deliver (slotKey sampleConfig "b" 1) (sampleBytes 1 sampleSecond),
   .move 1 (.verdict .created), .call (start sampleConfig "b") sampleFirst, .move 2 .answer]

theorem journal_gap_free_log_sample :
    ∃ sys, Machine.run (System.step sampleConfig) {} sampleEvents = some sys ∧
      (∃ n ≤ sampleConfig.limits.maxSlots, ∀ slot,
        (sys.shared.store (slotKey sampleConfig "b" slot)).isSome ↔ slot < n) ∧
      ∀ i j, Holds sampleConfig sys.shared "b" i sampleFirst →
        Holds sampleConfig sys.shared "b" j sampleFirst → i = j := by
  obtain ⟨sys, hguarded⟩ : ∃ sys, Machine.run (Machine.guarded (System.step sampleConfig)
      (Retries fun b r => b = "b" ∧ r = sampleFirst)) {} sampleEvents = some sys :=
    Option.isSome_iff_exists.mp (by decide +kernel)
  have hruns := Machine.runs_of_run_guarded hguarded
  obtain ⟨hinitial, -, hone⟩ := journal_gap_free_log hruns.run
  exact ⟨sys, hruns.run, hinitial "b", (hone "b" sampleFirst hruns).1⟩

end Sample

end S3Cache.Control

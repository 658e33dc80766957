import S3Cache.Fleet.Donor
import S3Cache.Index.Cuts

/-! A valid donor journal covers each native writer contiguously: between the cut a capture
recorded and the index's own stands one record for every position, and an epoch is left only
where it was sealed. -/

namespace S3Cache.Index

open Fleet

namespace IndexCapture

structure Appended (c : IndexCapture) (cut : Option NativeCut) (c' : IndexCapture) : Prop where
  valid : c.journal.invalid = none
  records : ∃ identity bytes, c'.journal.records = c.journal.records ++ [.delta identity bytes] ∧
    (∃ delta : IndexDelta, delta.Encodes c.maxEventBytes c.maxNameBytes bytes) ∧
    match cut with
    | some cut => identity = .native cut
    | none => ∃ id, identity = .localId id

variable {c : IndexCapture} {delta : IndexDelta}

theorem append_appended {cut : Option NativeCut} {effect : Except ImageError (List UInt8)}
    (he : ∀ bytes, effect = .ok bytes → delta.Encodes c.maxEventBytes c.maxNameBytes bytes)
    (h : (c.append (cut.map .native) effect).journal.invalid = none) :
    c.Appended cut (c.append (cut.map .native) effect) := by
  cases effect with
  | error e => simp [append, invalidate] at h
  | ok bytes =>
    cases cut with
    | some cut =>
      obtain ⟨hv, hp⟩ := DonorJournal.push_valid h
      exact ⟨hv, .native cut, bytes, by simp [append, appendBytes, hp], ⟨delta, he bytes rfl⟩, rfl⟩
    | none =>
      simp only [append, appendLocal, Option.map_none] at h ⊢
      split at h
      · next hroom =>
        rw [if_pos hroom]
        obtain ⟨hv, hp⟩ := DonorJournal.push_valid h
        exact ⟨hv, .localId (ByteCodec.leBytes 8 (c.nextLocal + 1)), bytes,
          by simp [appendBytes, hp], ⟨delta, he bytes rfl⟩, _, rfl⟩
      · exact absurd h (DonorJournal.invalid_invalidate _ _)

theorem recordPut_appended {cut : Option NativeCut} {bucket key : String} {e : ObjEntry}
    (h : (c.recordPut (cut.map .native) bucket key e).journal.invalid = none) :
    c.Appended cut (c.recordPut (cut.map .native) bucket key e) := by
  unfold recordPut at h ⊢
  split
  · simp_all [invalidate]
  · rw [if_neg ‹_›] at h
    exact append_appended (fun _ => IndexDelta.encodePut_encodes) h

theorem recordDelete_appended {cut : Option NativeCut} {bucket key : String} {t : SystemTime}
    (h : (c.recordDelete (cut.map .native) bucket key t).journal.invalid = none) :
    c.Appended cut (c.recordDelete (cut.map .native) bucket key t) := by
  unfold recordDelete at h ⊢
  split
  · simp_all [invalidate]
  · rw [if_neg ‹_›] at h
    exact append_appended (fun _ => IndexDelta.encodeDelete_encodes) h

theorem recordNativeNoop_appended {cut : NativeCut}
    (h : (c.recordNativeNoop (.native cut)).journal.invalid = none) :
    c.Appended (some cut) (c.recordNativeNoop (.native cut)) :=
  append_appended (fun _ => IndexDelta.encodeDelta_noop_encodes) h

end IndexCapture

inductive NativeMove where
  | event (position : Nat × Nat)
  | renewal (sealed : Nat × Nat) (epoch : Nat)
  deriving DecidableEq

def NativeMove.next (cut : Nat × Nat) : NativeMove → Option (Nat × Nat)
  | event position => if position = (cut.1, cut.2 + 1) then some position else none
  | renewal sealed epoch => if sealed = cut ∧ cut.1 < epoch then some (epoch, 0) else none

def JournalRecord.move (writer : List UInt8) : JournalRecord → Option NativeMove
  | delta (.native cut) _ =>
    if cut.writer = writer then some (.event (cut.epoch, cut.sequence)) else none
  | delta (.localId _) _ => none
  | renewal sealed epoch _ =>
    if sealed.writer = writer then some (.renewal (sealed.epoch, sealed.sequence) epoch) else none

/-- Where a writer stands after the journal's records, from where the capture found it; `none`
when one of them is not the next. -/
def coveredFrom (writer : List UInt8) (cut : Nat × Nat) (records : List JournalRecord) :
    Option (Nat × Nat) :=
  (records.filterMap (·.move writer)).foldlM NativeMove.next cut

theorem coveredFrom_append (writer : List UInt8) (cut : Nat × Nat) (records : List JournalRecord)
    (r : JournalRecord) : coveredFrom writer cut (records ++ [r]) =
      (coveredFrom writer cut records).bind fun now =>
        (r.move writer).elim (some now) (NativeMove.next now) := by
  rw [coveredFrom, List.filterMap_append, List.foldlM_append, ← coveredFrom]
  refine congrArg _ (funext fun now => ?_)
  cases h : r.move writer with
  | none => simp [h]
  | some m => cases hm : m.next now <;> simp [h, hm]

/-- What a step at a position, if it has one, does to the cuts and to a journal that stays
valid: it records nothing, for a duplicate or for no event at all; an effect of the node's own;
a writer's next event; or a renewal at a writer's cut. -/
inductive Recorded (s : KeyIndexState) (c : IndexCapture) (s' : KeyIndexState)
    (c' : IndexCapture) : Option NativeCut → Prop
  | nothing {cut : Option NativeCut} : (∀ p ∈ cut, (s.noteNativeCut p).1 = false) →
      s'.nativeCuts = s.nativeCuts → c'.journal.records = c.journal.records →
      Recorded s c s' c' cut
  | own (id bytes : List UInt8) : s'.nativeCuts = s.nativeCuts →
      c'.journal.records = c.journal.records ++ [.delta (.localId id) bytes] →
      Recorded s c s' c' none
  | event (cut : NativeCut) (old : Nat × Nat) (bytes : List UInt8) :
      (s.noteNativeCut cut).1 = true →
      s.nativeCuts[cut.writer]? = some old → (cut.epoch, cut.sequence) = (old.1, old.2 + 1) →
      s'.nativeCuts = s.nativeCuts.insert cut.writer (cut.epoch, cut.sequence) →
      c'.journal.records = c.journal.records ++ [.delta (.native cut) bytes] →
      (∃ delta : IndexDelta, delta.Encodes c.maxEventBytes c.maxNameBytes bytes) →
      Recorded s c s' c' (some cut)
  | renewal (sealed : NativeCut) (epoch : Nat) (bytes : List UInt8) :
      s.nativeCuts[sealed.writer]? = some (sealed.epoch, sealed.sequence) → sealed.epoch < epoch →
      s'.nativeCuts = s.nativeCuts.insert sealed.writer (epoch, 0) →
      c'.journal.records = c.journal.records ++ [.renewal sealed epoch bytes] →
      Recorded s c s' c' none

theorem Recorded.covers {s s' : KeyIndexState} {c c' : IndexCapture} {position : Option NativeCut}
    (h : Recorded s c s' c' position) {writer : List UInt8} {cut : Nat × Nat}
    (hcov : coveredFrom writer cut c.journal.records = s.nativeCuts[writer]?) :
    coveredFrom writer cut c'.journal.records = s'.nativeCuts[writer]? := by
  cases h with
  | nothing _ hcuts hrecords => rw [hrecords, hcuts, hcov]
  | own id bytes hcuts hrecords =>
    rw [hrecords, coveredFrom_append, hcov, hcuts]
    simp [JournalRecord.move]
  | event cut' old bytes _ hold hnext hcuts hrecords _ =>
    rw [hrecords, coveredFrom_append, hcov, hcuts, TreeMap.get_insert]
    simp only [JournalRecord.move]
    by_cases hw : cut'.writer = writer
    · subst hw
      simp [hold, NativeMove.next, hnext]
    · simp [hw]
  | renewal sealed epoch bytes hold hlater hcuts hrecords =>
    rw [hrecords, coveredFrom_append, hcov, hcuts, TreeMap.get_insert]
    simp only [JournalRecord.move]
    by_cases hw : sealed.writer = writer
    · subst hw
      simp [hold, NativeMove.next, hlater]
    · simp [hw]

theorem Recorded.known {s s' : KeyIndexState} {c c' : IndexCapture} {position : Option NativeCut}
    (h : Recorded s c s' c' position) {writer : List UInt8}
    (hknown : s.nativeCuts[writer]?.isSome) : s'.nativeCuts[writer]?.isSome := by
  have hinsert : ∀ w (cut : Nat × Nat), (s.nativeCuts.insert w cut)[writer]?.isSome := by
    intro w cut
    rw [TreeMap.get_insert]
    split
    · rfl
    · exact hknown
  cases h with
  | nothing _ hcuts _ | own _ _ hcuts _ => rwa [hcuts]
  | event _ _ _ _ _ _ hcuts _ _ | renewal _ _ _ _ _ hcuts _ => exact hcuts ▸ hinsert _ _

namespace KeyIndexState

variable {s s' s₁ : KeyIndexState} {c : IndexCapture} {bucket key : String}
  {cut : Option NativeCut}

def Records (s : KeyIndexState) (c : IndexCapture) (cut : Option NativeCut) (s' : KeyIndexState) :
    Prop :=
  s'.CaptureValid → ∃ c', s'.capture = some c' ∧ Recorded s c s' c' cut

theorem records_of_withdrawn (h : Withdrawn s') : Records s c cut s' := by
  intro hv
  obtain ⟨c', hc, hinvalid⟩ := h
  exact absurd (hv c' hc) hinvalid

theorem records_of_kept (hk : KeptOrWithdrawn c s')
    (hnot : ∀ p ∈ cut, (s.noteNativeCut p).1 = false) (hcuts : s'.nativeCuts = s.nativeCuts) :
    Records s c cut s' := by
  intro hv
  obtain ⟨c', hc, hkept⟩ := hk
  obtain rfl := hkept (hv c' hc)
  exact ⟨c', hc, .nothing hnot hcuts rfl⟩

theorem not_captureValid (hc : s.capture.isSome) (r : Invalidation) :
    ¬ (s.invalidateCapture r).CaptureValid := by
  obtain ⟨c, hc⟩ := Option.isSome_iff_exists.mp hc
  intro hv
  exact DonorJournal.invalid_invalidate c.journal r
    (hv (c.invalidate r) (by simp [invalidateCapture, hc]))

theorem noteNativeCut_next {cut : NativeCut} (hc : s.capture.isSome)
    (ha : (s.noteNativeCut cut).1 = true) (hv : (s.noteNativeCut cut).2.CaptureValid) :
    ∃ old, s.nativeCuts[cut.writer]? = some old ∧
      (cut.epoch, cut.sequence) = (old.1, old.2 + 1) ∧
      (s.noteNativeCut cut).2.nativeCuts =
        s.nativeCuts.insert cut.writer (cut.epoch, cut.sequence) := by
  revert ha hv
  fun_cases noteNativeCut
  case case1 | case2 => exact fun _ hv => absurd hv (not_captureValid hc _)
  case case3 => exact fun _ hv => absurd hv (not_captureValid (s := s.setCut _ _) hc _)
  case case4 =>
    intro ha
    cases ha
  case case5 old hold hnew =>
    intro _ hv
    have hv' : (s.withdrawUnlessNext cut old).CaptureValid := hv
    revert hv'
    fun_cases withdrawUnlessNext
    case case1 | case2 => exact fun hv' => absurd hv' (not_captureValid hc _)
    case case3 hepoch hsequence =>
      intro _
      have hnext : cut.sequence = saturatingAdd old.2 1 := not_not.mp hsequence
      have hsame : cut.epoch = old.1 := not_not.mp hepoch
      refine ⟨old, hold, ?_, rfl⟩
      have hgt : ¬ cut.sequence ≤ old.2 := fun hle => hnew ⟨hsame, hle⟩
      unfold saturatingAdd at hnext
      rw [hsame]
      congr 1
      omega

theorem captureValid_of_openBucket (h : (s.openBucket bucket).CaptureValid) : s.CaptureValid := by
  unfold openBucket at h
  split at h
  · exact h
  · intro c hc
    have hinvalid := h (c.invalidate .rebuild) (by
      simp [invalidateCaptureForRebuild, invalidateCapture, Option.mem_def.mp hc])
    exact absurd hinvalid (DonorJournal.invalid_invalidate _ _)

structure Noted (s : KeyIndexState) (c : IndexCapture) (cut : Option NativeCut)
    (s₁ : KeyIndexState) : Prop where
  admitted : (s.noteIdentity (cut.map .native)).1 = true
  kept : KeptOrWithdrawn c s₁
  valid : s₁.CaptureValid → (s.noteIdentity (cut.map .native)).2.CaptureValid
  cuts : s₁.nativeCuts = (s.noteIdentity (cut.map .native)).2.nativeCuts

theorem noted_opened (hc : s.capture = some c)
    (ha : (s.noteIdentity (cut.map .native)).1 = true) :
    Noted s c cut (s.opened (cut.map .native) bucket) where
  admitted := ha
  kept := keptOrWithdrawn_opened hc
  valid := captureValid_of_openBucket
  cuts := nativeCuts_opened

theorem Noted.records {record : IndexCapture → IndexCapture} (h : Noted s c cut s₁)
    (hc : s.capture = some c)
    (hrec : ∀ c, (record c).journal.invalid = none → c.Appended cut (record c))
    (hcap : s'.capture = s₁.capture.map record) (hcuts : s'.nativeCuts = s₁.nativeCuts) :
    Records s c cut s' := by
  intro hv
  obtain ⟨c₁, hc₁, hkept⟩ := h.kept
  have hs' : s'.capture = some (record c₁) := by rw [hcap, hc₁]; rfl
  have hap := hrec c₁ (hv _ hs')
  have hv₁ : s₁.CaptureValid := by
    intro c₂ hc₂
    obtain rfl : c₁ = c₂ := Option.some.inj (hc₁.symm.trans hc₂)
    exact hap.valid
  obtain rfl := hkept hap.valid
  obtain ⟨identity, bytes, hrecords, hencodes, hid⟩ := hap.records
  have hcuts' := hcuts.trans h.cuts
  refine ⟨record c₁, hs', ?_⟩
  cases cut with
  | none =>
    obtain ⟨id, rfl⟩ := hid
    exact .own id bytes hcuts' hrecords
  | some cut =>
    obtain rfl : identity = .native cut := hid
    obtain ⟨old, hold, hnext, hinsert⟩ :=
      noteNativeCut_next (by simp [hc]) h.admitted (h.valid hv₁)
    exact .event cut old bytes h.admitted hold hnext (hcuts'.trans hinsert) hrecords hencodes

theorem Noted.journalNoop (h : Noted s c cut s₁) (hc : s.capture = some c) :
    Records s c cut (s₁.journalNoop (cut.map .native)) := by
  cases cut with
  | none => exact records_of_kept h.kept (fun p hp => nomatch hp) h.cuts
  | some cut => exact h.records hc (fun c hv => IndexCapture.recordNativeNoop_appended hv) rfl rfl

theorem Noted.journalDel {gone : Option SystemTime} {changed : Bool} (h : Noted s c cut s₁)
    (hc : s.capture = some c) :
    Records s c cut (s₁.journalDel (cut.map .native) bucket key gone changed) := by
  unfold KeyIndexState.journalDel
  split
  · exact h.records hc (fun c hv => IndexCapture.recordDelete_appended hv) rfl rfl
  · exact h.journalNoop hc

theorem Noted.congr {t : KeyIndexState} (h : Noted s c cut s₁) (hcap : t.capture = s₁.capture)
    (hcuts : t.nativeCuts = s₁.nativeCuts) : Noted s c cut t where
  admitted := h.admitted
  kept := by
    obtain ⟨c', hc, hkept⟩ := h.kept
    exact ⟨c', hcap.trans hc, hkept⟩
  valid hv := h.valid fun c hc => hv c (hcap ▸ hc)
  cuts := hcuts.trans h.cuts

theorem noteNativeCut_of_false {cut : NativeCut} (h : (s.noteNativeCut cut).1 = false) :
    (s.noteNativeCut cut).2 = s := by
  revert h
  fun_cases noteNativeCut
  case case4 => exact fun _ => rfl
  all_goals
    intro h
    cases h

theorem records_of_duplicate (hc : s.capture = some c)
    (hd : (s.noteIdentity (cut.map .native)).1 = false) :
    Records s c cut (s.noteIdentity (cut.map .native)).2 := by
  cases cut with
  | none => exact nomatch hd
  | some cut =>
    have hd' : (s.noteNativeCut cut).1 = false := hd
    rw [show (s.noteIdentity ((some cut).map .native)).2 = s from noteNativeCut_of_false hd']
    refine records_of_kept (keptOrWithdrawn_self hc) (fun p hp => ?_) rfl
    exact Option.some.inj hp ▸ hd'

section
variable [Layout]

theorem records_put {e : ObjEntry} {auth : PutAuthority} (hc : s.capture = some c) :
    Records s c cut (s.applyPutWithAuthority bucket key e auth (cut.map .native)).2 := by
  cases ha : (s.noteIdentity (cut.map .native)).1 with
  | false =>
    rw [applyPutWithAuthority_duplicate ha]
    exact records_of_duplicate hc ha
  | true =>
    have hn : Noted s c cut (s.opened (cut.map .native) bucket) := noted_opened hc ha
    rw [applyPutWithAuthority_admitted ha]
    split
    · exact hn.journalNoop hc
    · exact hn.records hc (fun c hv => IndexCapture.recordPut_appended hv) rfl rfl

theorem records_del {ts : SystemTime} {sweep : TombstoneSweep} (hc : s.capture = some c) :
    Records s c cut (s.applyDelWithIdentity bucket key ts (cut.map .native) sweep).2 := by
  cases ha : (s.noteIdentity (cut.map .native)).1 with
  | false =>
    rw [applyDelWithIdentity_duplicate ha]
    exact records_of_duplicate hc ha
  | true =>
    have hn : Noted s c cut (s.opened (cut.map .native) bucket) := noted_opened hc ha
    rw [applyDelWithIdentity_admitted ha]
    simp only
    split
    · exact (hn.congr (t := (s.opened (cut.map .native) bucket).setBucket bucket _)
        rfl rfl).journalDel hc
    · split
      · exact (hn.congr (t := ((s.opened (cut.map .native) bucket).setBucket bucket _).account _ _)
          rfl rfl).journalDel hc
      · exact (hn.congr (t := (s.opened (cut.map .native) bucket).setBucket bucket _)
          rfl rfl).journalDel hc

theorem records_complete {fill : EntryFill} (hc : s.capture = some c) :
    Records s c none (s.completeEntry bucket key fill).2 := by
  have hself : KeptOrWithdrawn c s := keptOrWithdrawn_self hc
  have hnone : ∀ p ∈ (none : Option NativeCut), (s.noteNativeCut p).1 = false :=
    fun p hp => nomatch hp
  fun_cases completeEntry
  case case5 =>
    have hn : Noted s c none s := ⟨rfl, hself, id, rfl⟩
    exact hn.records hc (fun c hv => (IndexCapture.recordPut_appended hv : c.Appended none _)) rfl rfl
  all_goals exact records_of_kept hself hnone rfl

omit [Layout] in
theorem records_noteSeal {cut : NativeCut} (hc : s.capture = some c) :
    Records s c (some cut) (s.noteNativeSeal cut) := by
  cases ha : (s.noteNativeCut cut).1 with
  | true =>
    have hcut : s.noteNativeCut cut = (true, (s.noteNativeCut cut).2) := Prod.ext ha rfl
    have hn : Noted s c (some cut) (s.noteNativeCut cut).2 :=
      ⟨ha, (keptOrWithdrawn_self hc).noteNativeCut cut, id, rfl⟩
    unfold noteNativeSeal
    rw [hcut]
    exact hn.journalNoop hc
  | false =>
    have hcut : s.noteNativeCut cut = (false, (s.noteNativeCut cut).2) := Prod.ext ha rfl
    have hd : (s.noteIdentity ((some cut).map .native)).1 = false := ha
    unfold noteNativeSeal
    rw [hcut]
    exact records_of_duplicate hc hd

omit [Layout] in
theorem records_renew {sealed : NativeCut} {epoch : Nat} (hc : s.capture = some c) :
    Records s c none (s.renewNativeWriter sealed epoch) := by
  have hself : KeptOrWithdrawn c s := keptOrWithdrawn_self hc
  have hnone : ∀ p ∈ (none : Option NativeCut), (s.noteNativeCut p).1 = false :=
    fun p hp => nomatch hp
  fun_cases renewNativeWriter
  case case1 | case2 => exact records_of_kept hself hnone rfl
  case case3 hold hlater =>
    intro hv
    have hcap : ((s.setCut sealed.writer (epoch, 0)).journal
        (·.recordRenewal sealed epoch)).capture = some (c.recordRenewal sealed epoch) := by
      simp [journal, hc]
    have hvalid := hv _ hcap
    refine ⟨_, hcap, ?_⟩
    unfold IndexCapture.recordRenewal at hvalid ⊢
    split at hvalid
    · exact absurd hvalid (DonorJournal.invalid_invalidate _ _)
    · next bytes he =>
      obtain ⟨-, hp⟩ := DonorJournal.push_valid hvalid
      exact .renewal sealed epoch bytes hold (not_le.mp hlater) rfl (by simp [hp])
  case case4 =>
    exact records_of_withdrawn (KeptOrWithdrawn.withdrawn (s := s.setCut _ _) hself _)

end

end KeyIndexState

def IndexCall.position : IndexCall → Option NativeCut
  | .put _ _ _ cut | .del _ _ _ cut => cut
  | .noteSeal cut | .fenceNative _ _ cut | .fenceOwn _ _ cut => some cut
  | _ => none

namespace KeyIndexState

variable [Layout] {s s' : KeyIndexState} {c : IndexCapture}

theorem records_step {op : IndexCall} (hc : s.capture = some c) (hs : s.step op = some s') :
    Records s c op.position s' := by
  have hk : KeptOrWithdrawn c s := keptOrWithdrawn_self hc
  have hnone : ∀ p ∈ (none : Option NativeCut), (s.noteNativeCut p).1 = false :=
    fun p hp => nomatch hp
  cases op with
  | put bucket key entry cut =>
    cases hs
    exact records_put hc
  | del bucket key ts cut =>
    cases hs
    exact records_del hc
  | observedPut bucket key entry =>
    cases hs
    exact (records_put hc : Records s c none _)
  | complete bucket key fill =>
    cases hs
    exact records_complete hc
  | register cut =>
    cases hs
    simp only [IndexCall.position]
    fun_cases registerNativeWriter
    · exact records_of_kept hk hnone rfl
    · exact records_of_withdrawn (KeptOrWithdrawn.withdrawn hk _)
    · exact records_of_withdrawn (KeptOrWithdrawn.withdrawn (s := s.setCut _ _) hk _)
  | noteSeal cut =>
    cases hs
    exact records_noteSeal hc
  | renew sealed epoch =>
    cases hs
    exact records_renew hc
  | gap missedThrough =>
    cases hs
    exact records_of_withdrawn
      (KeptOrWithdrawn.withdrawn (keptOrWithdrawn_skipNativeGap hk missedThrough) .rebuild)
  | fence bucket key =>
    obtain ⟨⟨token, t⟩, hf, rfl⟩ := Option.map_eq_some_iff.mp hs
    exact records_of_withdrawn (withdrawn_fenceKey hk hf)
  | fenceNative bucket key cut =>
    obtain ⟨⟨token, t⟩, hf, rfl⟩ := Option.map_eq_some_iff.mp hs
    cases ha : (s.noteNativeCut cut).1 with
    | false =>
      have hcut : s.noteNativeCut cut = (false, (s.noteNativeCut cut).2) := Prod.ext ha rfl
      simp only [fenceUncertainKeyNative] at hf
      rw [hcut] at hf
      cases hf
      have hd : (s.noteIdentity ((some cut).map .native)).1 = false := ha
      exact records_of_duplicate hc hd
    | true =>
      have hcut : s.noteNativeCut cut = (true, (s.noteNativeCut cut).2) := Prod.ext ha rfl
      simp only [fenceUncertainKeyNative] at hf
      rw [hcut] at hf
      obtain ⟨⟨token', t'⟩, hf', heq⟩ := Option.map_eq_some_iff.mp hf
      cases heq
      exact records_of_withdrawn (withdrawn_fenceKey (hk.noteNativeCut cut) hf')
  | fenceOwn bucket key cut =>
    obtain ⟨⟨token, t⟩, hf, rfl⟩ := Option.map_eq_some_iff.mp hs
    exact records_of_withdrawn (withdrawn_fenceKey (hk.noteNativeCut cut) hf)
  | resolve bucket key token now authoritative =>
    cases hs
    simp only [IndexCall.position]
    fun_cases resolveUncertainKey <;> exact records_of_kept hk hnone rfl
  | resync bucket =>
    cases hs
    exact records_of_withdrawn (KeptOrWithdrawn.withdrawn hk .rebuild)
  | page bucket generation rows =>
    cases hs
    exact records_of_withdrawn (withdrawn_page hc)
  | finish bucket generation =>
    cases hs
    simp only [IndexCall.position]
    fun_cases finishBucketSyncGeneration <;> exact records_of_kept hk hnone rfl
  | removeBucket bucket =>
    cases hs
    simp only [IndexCall.position]
    fun_cases removeBucket
    · exact records_of_kept hk hnone rfl
    · exact records_of_withdrawn (KeptOrWithdrawn.withdrawn hk .rebuild)

theorem covers_run {ops : List IndexCall} (hc : s.capture = some c) (hr : s.run ops = some s')
    (hv : s'.CaptureValid) {writer : List UInt8} {cut now : Nat × Nat}
    (hnow : s.nativeCuts[writer]? = some now)
    (hcov : coveredFrom writer cut c.journal.records = some now) :
    ∃ c' now', s'.capture = some c' ∧ s'.nativeCuts[writer]? = some now' ∧
      coveredFrom writer cut c'.journal.records = some now' := by
  induction ops generalizing s c now with
  | nil =>
    cases hr
    exact ⟨c, now, hc, hnow, hcov⟩
  | cons op ops ih =>
    obtain ⟨s₁, hs, hr⟩ := Option.bind_eq_some_iff.mp hr
    have hv₁ : s₁.CaptureValid := fun c₁ hc₁ => valid_of_run hc₁ hr hv
    obtain ⟨c₁, hc₁, hrec⟩ := records_step hc hs hv₁
    obtain ⟨now₁, hnow₁⟩ := Option.isSome_iff_exists.mp (hrec.known (by rw [hnow]; rfl))
    exact ih hc₁ hr hnow₁ ((hrec.covers (hcov.trans hnow.symm)).trans hnow₁)

end KeyIndexState

end S3Cache.Index

namespace S3Cache.Fleet

open Index KeyIndexState Fallible

section
variable {host : CaptureHost} {live s₀ s : KeyIndexState} {cuts : List NativeCut}

theorem captureCuts_mem (h : captureCuts host live = .ok cuts) {cut : NativeCut} (hm : cut ∈ cuts) :
    live.nativeCuts[cut.writer]? = some (cut.epoch, cut.sequence) := by
  unfold captureCuts at h
  simp only [ite_error_eq_ok, bind_eq_ok] at h
  obtain ⟨-, ⟨cuts', bytes⟩, hfold, h⟩ := h
  cases h
  have hall := foldlM_keeps (P := fun done (acc : List NativeCut × Nat) =>
    ∀ cut ∈ acc.1, (cut.writer, cut.epoch, cut.sequence) ∈ done) ?_ (by simp) hfold
  · exact Std.ExtTreeMap.mem_toList_iff_getElem?_eq_some.mp (hall cut hm)
  · rintro done ⟨writer, epoch, sequence⟩ acc acc' - hacc hstep cut' hcut'
    simp only [bind_eq_ok, ite_error_eq_ok] at hstep
    obtain ⟨n, -, -, hstep⟩ := hstep
    cases hstep
    rcases List.mem_append.mp hcut' with hold | hnew
    · exact List.mem_append_left _ (hacc cut' hold)
    · obtain rfl := List.mem_singleton.mp hnew
      exact List.mem_append_right _ (List.mem_singleton_self _)

variable [Layout] {admits : List JournalRecord → JournalRecord → Bool} {names : List String}
  {caps : ImageCaps} {pending : PendingFleetCapture} {ops : List IndexCall} {c : IndexCapture}

/-- What the events of a step owe a valid journal: an admitted one is recorded exactly once
under its own position, a duplicate not at all. -/
def RecordsOnce (s : KeyIndexState) (c : IndexCapture) (op : IndexCall) (s' : KeyIndexState) :
    Prop :=
  ∀ cut c', op.position = some cut → s'.capture = some c' →
    ((s.noteNativeCut cut).1 = true → c.Appended (some cut) c') ∧
    ((s.noteNativeCut cut).1 = false → c'.journal.records = c.journal.records)

/-- From the capture on, as long as its journal is valid. -/
theorem journal_covers_contiguously
    (hbegin : beginFleetCapture live host admits names caps = .ok (pending, s₀))
    (hrun : s₀.run ops = some s) (hc : s.capture = some c) (hv : c.journal.invalid = none) :
    (∃ cuts, captureCuts host live = .ok cuts ∧ ∀ cut ∈ cuts,
      ∃ now, s.nativeCuts[cut.writer]? = some now ∧
        coveredFrom cut.writer (cut.epoch, cut.sequence) c.journal.records = some now) ∧
    ∀ op s', s.step op = some s' → s'.CaptureValid → RecordsOnce s c op s' := by
  constructor
  · simp only [beginFleetCapture, ite_error_eq_ok, bind_eq_ok] at hbegin
    obtain ⟨-, size, -, -, -, snapshot, -, cuts, hcuts, -, -, h⟩ := hbegin
    cases h
    refine ⟨cuts, hcuts, fun cut hm => ?_⟩
    have hvalid : s.CaptureValid := fun c' hc' => by
      obtain rfl : c = c' := Option.some.inj (hc.symm.trans hc')
      exact hv
    obtain ⟨c', now, hc', hnow, hcov⟩ := covers_run rfl hrun hvalid (captureCuts_mem hcuts hm) rfl
    obtain rfl : c = c' := Option.some.inj (hc.symm.trans hc')
    exact ⟨now, hnow, hcov⟩
  · intro op s' hs hvalid cut c' hposition hc'
    obtain ⟨c'', hc'', hrec⟩ := records_step hc hs hvalid
    obtain rfl : c' = c'' := Option.some.inj (hc'.symm.trans hc'')
    rw [hposition] at hrec
    cases hrec with
    | nothing hnot _ hrecords =>
      have hd := hnot cut rfl
      exact ⟨fun ha => absurd (ha.symm.trans hd) (by decide), fun _ => hrecords⟩
    | event _ old bytes ha _ _ _ hrecords hencodes =>
      exact ⟨fun _ => ⟨hv, .native cut, bytes, hrecords, hencodes, rfl⟩,
        fun hd => absurd (ha.symm.trans hd) (by decide)⟩

end

section Sample
local instance coverageLayout : Layout := sampleLayout

theorem journal_covers_sample :
    sampleCapture = .ok sampleBegun ∧ sampleBegun.2.run sampleOps = some sampleEnd ∧
    sampleEnd.capture = some sampleJournal ∧ sampleJournal.journal.invalid = none ∧
    ∃ cuts, captureCuts sampleHost sampleDonor = .ok cuts ∧ ∀ cut ∈ cuts,
      ∃ now, sampleEnd.nativeCuts[cut.writer]? = some now ∧
        coveredFrom cut.writer (cut.epoch, cut.sequence) sampleJournal.journal.records =
          some now := by
  have hbegin : sampleCapture = .ok sampleBegun := eq_ok_get _
  have hrun : sampleBegun.2.run sampleOps = some sampleEnd := (Option.some_get _).symm
  have hc : sampleEnd.capture = some sampleJournal := (Option.some_get _).symm
  have hvalid : sampleJournal.journal.invalid = none := by decide +kernel
  exact ⟨hbegin, hrun, hc, hvalid, (journal_covers_contiguously hbegin hrun hc hvalid).1⟩

end Sample

end S3Cache.Fleet

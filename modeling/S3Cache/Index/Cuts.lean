import Mathlib.Data.Fintype.EquivFin
import Mathlib.Data.Prod.Lex
import S3Cache.Index.Effect
import S3Cache.Lib.Machine

/-! The native writer cuts under arbitrary positions.  Five functions move a cut
(`index/fleet.rs`): gaps and renewals compare positions epoch-major, an event only within the
epoch of the cut it finds. -/

namespace S3Cache.Index

open Fleet

def IndexCall.writer : IndexCall → Option (List UInt8)
  | .put _ _ _ cut | .del _ _ _ cut => cut.map (·.writer)
  | .noteSeal cut | .fenceNative _ _ cut | .fenceOwn _ _ cut | .renew cut _ | .gap cut
  | .register cut => some cut.writer
  | _ => none

namespace KeyIndexState

section
variable {s s' : KeyIndexState} {bucket key : String} {identity : Option DeltaIdentity}

@[simp] theorem nativeCuts_invalidateCapture (r : Invalidation) :
    (s.invalidateCapture r).nativeCuts = s.nativeCuts := rfl

@[simp] theorem nativeCuts_journal (f : IndexCapture → IndexCapture) :
    (s.journal f).nativeCuts = s.nativeCuts := rfl

@[simp] theorem nativeCuts_journalNoop : (s.journalNoop identity).nativeCuts = s.nativeCuts := by
  cases identity <;> rfl

@[simp] theorem nativeCuts_journalDel (gone : Option SystemTime) (changed : Bool) :
    (s.journalDel identity bucket key gone changed).nativeCuts = s.nativeCuts := by
  unfold journalDel
  split <;> simp

@[simp] theorem nativeCuts_withdrawUnlessNext (cut : NativeCut) (old : Nat × Nat) :
    (s.withdrawUnlessNext cut old).nativeCuts = s.nativeCuts := by
  fun_cases withdrawUnlessNext <;> simp

theorem nativeCuts_fenceKey {token : Nat} (h : s.fenceKey bucket key = some (token, s')) :
    s'.nativeCuts = s.nativeCuts := by
  simp only [fenceKey, Option.ite_none_right_eq_some, Option.some.injEq, Prod.mk.injEq] at h
  obtain ⟨-, -, rfl⟩ := h
  rfl

theorem nativeCuts_fenceNative {cut : NativeCut} {token : Option Nat}
    (h : s.fenceUncertainKeyNative bucket key cut = some (token, s')) :
    s'.nativeCuts = (s.noteNativeCut cut).2.nativeCuts := by
  unfold fenceUncertainKeyNative at h
  split at h
  · next hd =>
    cases h
    rw [hd]
  · next hd =>
    obtain ⟨⟨token, t⟩, ht, h⟩ := Option.map_eq_some_iff.mp h
    cases h
    rw [nativeCuts_fenceKey ht, hd]

theorem nativeCuts_noteNativeSeal (cut : NativeCut) :
    (s.noteNativeSeal cut).nativeCuts = (s.noteNativeCut cut).2.nativeCuts := by
  unfold noteNativeSeal
  split <;> simp_all

variable [Layout]

omit [Layout] in
theorem nativeCuts_opened : (s.opened identity bucket).nativeCuts =
    (s.noteIdentity identity).2.nativeCuts := nativeCuts_openBucket bucket

theorem nativeCuts_put {e : ObjEntry} {auth : PutAuthority} :
    (s.applyPutWithAuthority bucket key e auth identity).2.nativeCuts =
      (s.noteIdentity identity).2.nativeCuts := by
  cases ha : (s.noteIdentity identity).1 with
  | false => rw [applyPutWithAuthority_duplicate ha]
  | true =>
    rw [applyPutWithAuthority_admitted ha]
    split
    · exact nativeCuts_journalNoop.trans nativeCuts_opened
    · exact nativeCuts_opened

theorem nativeCuts_del {ts : SystemTime} {sweep : TombstoneSweep} :
    (s.applyDelWithIdentity bucket key ts identity sweep).2.nativeCuts =
      (s.noteIdentity identity).2.nativeCuts := by
  cases ha : (s.noteIdentity identity).1 with
  | false => rw [applyDelWithIdentity_duplicate ha]
  | true =>
    rw [applyDelWithIdentity_admitted ha]
    simp only
    split
    · exact (nativeCuts_journalDel _ _).trans nativeCuts_opened
    · split <;> exact (nativeCuts_journalDel _ _).trans nativeCuts_opened

omit [Layout] in
theorem noteNativeCut_other {cut : NativeCut} {writer : List UInt8} (h : cut.writer ≠ writer) :
    (s.noteNativeCut cut).2.nativeCuts[writer]? = s.nativeCuts[writer]? := by
  have hset : ∀ c, (s.nativeCuts.insert cut.writer c)[writer]? = s.nativeCuts[writer]? := by
    intro c
    rw [TreeMap.get_insert, if_neg h]
  fun_cases noteNativeCut
  case case1 | case2 | case4 => rfl
  case case3 => exact hset _
  case case5 => simpa [setCut] using hset _

theorem nativeCuts_foldListed {bucket : String} (rows : List (String × ObjEntry)) :
    (rows.foldl (·.foldListed bucket ·) s).nativeCuts = s.nativeCuts := by
  induction rows generalizing s with
  | nil => rfl
  | cons row rows ih =>
    rw [List.foldl_cons, ih]
    unfold foldListed
    dsimp only
    split <;> rfl

theorem nativeCuts_of_writer {c : IndexCall} {writer : List UInt8}
    (hs : s.step c = some s') (h : IndexCall.writer c ≠ some writer) :
    s'.nativeCuts[writer]? = s.nativeCuts[writer]? := by
  have hne : ∀ {w}, some w ≠ some writer → w ≠ writer := fun h he => h (congrArg some he)
  have hcut : ∀ cut : Option NativeCut, cut.map (·.writer) ≠ some writer →
      (s.noteIdentity (cut.map .native)).2.nativeCuts[writer]? = s.nativeCuts[writer]? := by
    rintro (_ | cut) h
    · rfl
    · exact noteNativeCut_other (hne h)
  cases c with
  | put bucket key entry cut =>
    cases hs
    rw [nativeCuts_put]
    exact hcut cut h
  | del bucket key ts cut =>
    cases hs
    rw [nativeCuts_del]
    exact hcut cut h
  | observedPut bucket key entry =>
    cases hs
    rw [applyObservedPut, nativeCuts_put]
    rfl
  | complete bucket key fill =>
    cases hs
    fun_cases completeEntry <;> rfl
  | register cut =>
    cases hs
    fun_cases registerNativeWriter
    case case1 | case2 => rfl
    case case3 => exact (TreeMap.get_insert ..).trans (if_neg (hne h))
  | noteSeal cut =>
    cases hs
    rw [nativeCuts_noteNativeSeal]
    exact noteNativeCut_other (hne h)
  | renew sealed epoch =>
    cases hs
    fun_cases renewNativeWriter
    case case1 | case2 => rfl
    case case3 | case4 => exact (TreeMap.get_insert ..).trans (if_neg (hne h))
  | gap missedThrough =>
    cases hs
    show (s.skipNativeGap missedThrough).nativeCuts[writer]? = _
    fun_cases skipNativeGap
    case case1 | case2 => rfl
    case case3 => exact (TreeMap.get_insert ..).trans (if_neg (hne h))
  | fence bucket key =>
    obtain ⟨⟨token, t⟩, ht, rfl⟩ := Option.map_eq_some_iff.mp hs
    rw [nativeCuts_fenceKey ht]
  | fenceNative bucket key cut =>
    obtain ⟨⟨token, t⟩, ht, rfl⟩ := Option.map_eq_some_iff.mp hs
    rw [nativeCuts_fenceNative ht]
    exact noteNativeCut_other (hne h)
  | fenceOwn bucket key cut =>
    obtain ⟨⟨token, t⟩, ht, rfl⟩ := Option.map_eq_some_iff.mp hs
    rw [nativeCuts_fenceKey ht]
    exact noteNativeCut_other (hne h)
  | resolve bucket key token now authoritative =>
    cases hs
    fun_cases resolveUncertainKey <;> rfl
  | resync bucket =>
    cases hs
    rfl
  | page bucket generation rows =>
    cases hs
    unfold syncListingIntoGeneration
    dsimp only
    split
    · rw [nativeCuts_foldListed]
      rfl
    · rfl
  | finish bucket generation =>
    cases hs
    unfold finishBucketSyncGeneration
    dsimp only
    split <;> rfl
  | removeBucket bucket =>
    cases hs
    fun_cases removeBucket <;> rfl

end

def Covered (s : KeyIndexState) (cut : NativeCut) : Prop :=
  ∃ old, s.nativeCuts[cut.writer]? = some old ∧ toLex (cut.epoch, cut.sequence) ≤ toLex old

def Forward (s s' : KeyIndexState) : Prop :=
  ∀ (writer : List UInt8) old, s.nativeCuts[writer]? = some old →
    ∃ new, s'.nativeCuts[writer]? = some new ∧ toLex old ≤ toLex new

def Untouched (s s' : KeyIndexState) : Prop := ∀ bucket key, s'.view bucket key = s.view bucket key

end KeyIndexState

open KeyIndexState

structure NativeCut.Nameable (cut : NativeCut) : Prop where
  named : cut.writer ≠ []
  short : cut.writer.length ≤ maxNativeIdBytes
  epoch : cut.epoch ≠ 0

inductive NativeKind where
  | put
  | del
  | fence
  | fenceOwn
  | noteSeal
  | renew
  | gap
  | register

structure NativePayload where
  bucket : String
  key : String
  entry : ObjEntry
  ts : SystemTime
  epoch : Nat

namespace NativeKind

def call (p : NativePayload) (cut : NativeCut) : NativeKind → IndexCall
  | put => .put p.bucket p.key p.entry (some cut)
  | del => .del p.bucket p.key p.ts (some cut)
  | fence => .fenceNative p.bucket p.key cut
  | fenceOwn => .fenceOwn p.bucket p.key cut
  | noteSeal => .noteSeal cut
  | renew => .renew cut p.epoch
  | gap => .gap cut
  | register => .register cut

/-- The positions a kind may come at.  A put, a delete and a peer's fence recognise a duplicate
of the cut's own epoch only, and none at sequence 0; an own fence recognises no duplicate; a gap
discards every row and tombstone whether or not the cut has passed it. -/
def InOrder (s : KeyIndexState) (cut : NativeCut) : NativeKind → Prop
  | put | del | fence => ∀ old, s.nativeCuts[cut.writer]? = some old →
      old.1 < cut.epoch ∨ old.1 = cut.epoch ∧ 0 < cut.sequence
  | fenceOwn => ¬ s.Covered cut
  | noteSeal => ∀ old, s.nativeCuts[cut.writer]? = some old →
      old.1 ≤ cut.epoch ∨ cut.sequence = 0
  | gap => s.Covered cut → ∀ bucket key,
      (s.view bucket key).row = none ∧ (s.view bucket key).gone = none
  | renew | register => True

end NativeKind

namespace KeyIndexState

variable {s s' : KeyIndexState} {cut : NativeCut}

theorem forward_of_nativeCuts (h : s'.nativeCuts = s.nativeCuts) : Forward s s' := fun _ old ho =>
  ⟨old, h ▸ ho, le_rfl⟩

theorem Forward.congr {t : KeyIndexState} (h : Forward s t) (ht : s'.nativeCuts = t.nativeCuts) :
    Forward s s' := fun writer old ho => by
  rw [ht]
  exact h writer old ho

theorem forward_insert {writer : List UInt8} {new : Nat × Nat}
    (h : s'.nativeCuts = s.nativeCuts.insert writer new)
    (hle : ∀ old, s.nativeCuts[writer]? = some old → toLex old ≤ toLex new) : Forward s s' := by
  intro other old ho
  rw [h, TreeMap.get_insert]
  by_cases hw : writer = other
  · subst hw
    exact ⟨new, if_pos rfl, hle old ho⟩
  · exact ⟨old, by rw [if_neg hw, ho], le_rfl⟩

theorem noteNativeCut_cases (hc : cut.Nameable) :
    (cut.sequence = 0 ∧ s.noteNativeCut cut = (true, s.invalidateCapture .gap)) ∨
    (0 < cut.sequence ∧ s.nativeCuts[cut.writer]? = none ∧
      ((s.noteNativeCut cut) = (true, s.invalidateCapture .capacity) ∨
        s.noteNativeCut cut = (true,
          (s.setCut cut.writer (cut.epoch, cut.sequence)).invalidateCapture .membership))) ∨
    (0 < cut.sequence ∧ ∃ old, s.nativeCuts[cut.writer]? = some old ∧
      ((cut.epoch = old.1 ∧ cut.sequence ≤ old.2) ∧ s.noteNativeCut cut = (false, s) ∨
        ¬ (cut.epoch = old.1 ∧ cut.sequence ≤ old.2) ∧ s.noteNativeCut cut =
          (true, (s.withdrawUnlessNext cut old).setCut cut.writer (cut.epoch, cut.sequence)))) := by
  have hname : ¬ (cut.writer.isEmpty = true ∨ maxNativeIdBytes < cut.writer.length ∨
      cut.epoch = 0) := by
    simpa [hc.named, hc.epoch] using hc.short
  unfold noteNativeCut
  by_cases hq : cut.sequence = 0
  · exact .inl ⟨hq, by simp [hq]⟩
  rw [if_neg (by simpa [hq, or_assoc] using hname)]
  have hpos : 0 < cut.sequence := Nat.pos_of_ne_zero hq
  cases ho : s.nativeCuts[cut.writer]? with
  | none =>
    refine .inr (.inl ⟨hpos, rfl, ?_⟩)
    by_cases hroom : maxNativeWriters ≤ s.nativeCuts.size
    · exact .inl (if_pos hroom)
    · exact .inr (if_neg hroom)
  | some old =>
    refine .inr (.inr ⟨hpos, old, rfl, ?_⟩)
    by_cases hd : cut.epoch = old.1 ∧ cut.sequence ≤ old.2
    · exact .inl ⟨hd, if_pos hd⟩
    · exact .inr ⟨hd, if_neg hd⟩

theorem covered_iff {old : Nat × Nat} (ho : s.nativeCuts[cut.writer]? = some old) :
    s.Covered cut ↔ cut.epoch < old.1 ∨ cut.epoch = old.1 ∧ cut.sequence ≤ old.2 := by
  constructor
  · rintro ⟨old', ho', hle⟩
    obtain rfl : old = old' := Option.some.inj (ho.symm.trans ho')
    exact Prod.Lex.toLex_le_toLex.mp hle
  · exact fun hle => ⟨old, ho, Prod.Lex.toLex_le_toLex.mpr hle⟩

theorem forward_noteNativeCut (hc : cut.Nameable)
    (h : ∀ old, s.nativeCuts[cut.writer]? = some old → old.1 ≤ cut.epoch ∨ cut.sequence = 0) :
    Forward s (s.noteNativeCut cut).2 := by
  rcases noteNativeCut_cases (s := s) hc with ⟨-, hn⟩ | ⟨-, ho, hn | hn⟩ |
    ⟨hpos, old, ho, ⟨-, hn⟩ | ⟨hd, hn⟩⟩
  · rw [hn]
    exact forward_of_nativeCuts rfl
  · rw [hn]
    exact forward_of_nativeCuts rfl
  · rw [hn]
    exact forward_insert rfl fun old ho' => by simp [ho] at ho'
  · rw [hn]
    exact forward_of_nativeCuts rfl
  · rw [hn]
    have hcuts : ((s.withdrawUnlessNext cut old).setCut cut.writer
        (cut.epoch, cut.sequence)).nativeCuts =
          s.nativeCuts.insert cut.writer (cut.epoch, cut.sequence) := by simp [setCut]
    refine forward_insert hcuts fun old' ho' => ?_
    obtain rfl : old = old' := Option.some.inj (ho.symm.trans ho')
    rw [Prod.Lex.toLex_le_toLex]
    have hle := h old ho
    simp only
    omega

theorem noteNativeCut_duplicate (hc : cut.Nameable)
    (h : ∀ old, s.nativeCuts[cut.writer]? = some old →
      old.1 < cut.epoch ∨ old.1 = cut.epoch ∧ 0 < cut.sequence)
    (hcov : s.Covered cut) : (s.noteNativeCut cut).1 = false := by
  obtain ⟨old, ho, -⟩ := id hcov
  have hord := h old ho
  rw [covered_iff ho] at hcov
  rcases noteNativeCut_cases (s := s) hc with ⟨hq, -⟩ | ⟨-, ho', -⟩ |
    ⟨-, old', ho', ⟨-, hn⟩ | ⟨hd, -⟩⟩
  · omega
  · simp [ho] at ho'
  · rw [hn]
  · obtain rfl : old = old' := Option.some.inj (ho.symm.trans ho')
    exact absurd ⟨by omega, by omega⟩ hd

theorem noteNativeCut_late (hc : cut.Nameable) {old : Nat × Nat}
    (ho : s.nativeCuts[cut.writer]? = some old)
    (hlate : ¬ (old.1 < cut.epoch ∨ old.1 = cut.epoch ∧ 0 < cut.sequence)) :
    (s.noteNativeCut cut).1 = true := by
  rcases noteNativeCut_cases (s := s) hc with ⟨-, hn⟩ | ⟨-, ho', -⟩ |
    ⟨hpos, old', ho', ⟨hd, -⟩ | ⟨-, hn⟩⟩
  · rw [hn]
  · simp [ho] at ho'
  · obtain rfl : old = old' := Option.some.inj (ho.symm.trans ho')
    omega
  · rw [hn]

theorem covered_of_late {old : Nat × Nat} (ho : s.nativeCuts[cut.writer]? = some old)
    (hlate : ¬ (old.1 < cut.epoch ∨ old.1 = cut.epoch ∧ 0 < cut.sequence)) : s.Covered cut :=
  (covered_iff ho).mpr (by omega)

/-- What every step owes a position: no cut moves back, and a covered position has no effect. -/
structure Orderly (s s' : KeyIndexState) (cut : NativeCut) : Prop where
  forward : Forward s s'
  inert : s.Covered cut → Untouched s s'

theorem exists_absent (s : KeyIndexState) : ∃ name : String, s.buckets[name]? = none := by
  obtain ⟨name, hname⟩ := Infinite.exists_notMem_finset s.buckets.keys.toFinset
  refine ⟨name, Std.ExtTreeMap.getElem?_eq_none fun hmem => hname ?_⟩
  exact List.mem_toFinset.mpr (Std.ExtTreeMap.mem_keys.mpr hmem)

def freshPayload (bucket : String) : NativePayload where
  bucket
  key := "k"
  entry := ⟨none, .unixEpoch, none, standardClass, none, none⟩
  ts := .unixEpoch
  epoch := 0

theorem untouched_of_buckets (h : s'.buckets = s.buckets) : Untouched s s' := fun bucket key => by
  unfold view
  rw [bucket_congr h]

theorem fenceKey_absent {bucket : String} (h : s.buckets[bucket]? = none) (key : String) :
    ∃ s', s.fenceKey bucket key = some (1, s') ∧ ¬ Untouched s s' := by
  have hb : s.invalidateCaptureForRebuild.bucket bucket = {} := by
    show s.bucket bucket = {}
    simp [KeyIndexState.bucket, h]
  refine ⟨_, by simp only [fenceKey, hb]; exact if_pos (by decide), fun hu => ?_⟩
  have hview := hu bucket key
  rw [view_of_get_none h, view, bucket_setBucket, if_pos rfl] at hview
  have hfence := congrArg KeyView.fence hview
  simp [BucketState.view] at hfence

theorem forward_renewNativeWriter (epoch : Nat) : Forward s (s.renewNativeWriter cut epoch) := by
  fun_cases renewNativeWriter
  case case1 | case2 => exact forward_of_nativeCuts rfl
  all_goals
    refine forward_insert rfl fun old ho => ?_
    rw [Prod.Lex.toLex_le_toLex]
    simp_all

theorem forward_skipNativeGap : Forward s (s.skipNativeGap cut) := by
  fun_cases skipNativeGap
  case case1 | case2 => exact forward_of_nativeCuts rfl
  case case3 old ho hnot =>
    refine forward_insert rfl fun old' ho' => ?_
    obtain rfl : old = old' := Option.some.inj (ho.symm.trans ho')
    rw [Prod.Lex.toLex_le_toLex]
    simp only
    omega

theorem forward_registerNativeWriter : Forward s (s.registerNativeWriter cut) := by
  fun_cases registerNativeWriter
  case case1 | case2 => exact forward_of_nativeCuts rfl
  case case3 hnew _ =>
    refine forward_insert rfl fun old ho => ?_
    have hmem : cut.writer ∈ s.nativeCuts := by
      rw [Std.ExtTreeMap.mem_iff_isSome_getElem?, ho]
      rfl
    simp [hmem] at hnew

theorem view_discardForGap (bucket key : String) :
    (s.discardForGap cut).view bucket key = ⟨none, none, (s.view bucket key).fence⟩ := by
  rw [view, bucket_discardForGap]
  split
  · simp [BucketState.discard, BucketState.view, view]
  · next h =>
    have hb : s.buckets[bucket]? = none := by simpa using h
    simp [view, KeyIndexState.bucket, hb]

theorem untouched_discardForGap_iff : Untouched s (s.discardForGap cut) ↔
    ∀ bucket key, (s.view bucket key).row = none ∧ (s.view bucket key).gone = none := by
  refine forall_congr' fun bucket => forall_congr' fun key => ?_
  rw [view_discardForGap]
  constructor
  · intro h
    rw [← h]
    exact ⟨rfl, rfl⟩
  · rintro ⟨hr, hg⟩
    rw [← hr, ← hg]

theorem orderly_of_inOrder (hc : cut.Nameable)
    (h : ∀ old, s.nativeCuts[cut.writer]? = some old →
      old.1 < cut.epoch ∨ old.1 = cut.epoch ∧ 0 < cut.sequence)
    (hcuts : s'.nativeCuts = (s.noteNativeCut cut).2.nativeCuts)
    (hdup : (s.noteNativeCut cut).1 = false → Untouched s s') : Orderly s s' cut where
  forward := by
    refine (forward_noteNativeCut hc fun old ho => ?_).congr hcuts
    have := h old ho
    omega
  inert hcov := hdup (noteNativeCut_duplicate hc h hcov)

theorem idle_of_absent {bucket : String} (h : s.buckets[bucket]? = none) :
    (s.bucket bucket).Idle := by
  simpa [KeyIndexState.bucket, h] using BucketState.settled_empty.toIdle

section
variable [Layout]

theorem touched_put {bucket : String} (hb : s.buckets[bucket]? = none)
    (ha : (s.noteIdentity (some (.native cut))).1 = true) (key : String) (e : ObjEntry) :
    ¬ Untouched s (s.applyPutWithAuthority bucket key e .definitiveMutation
      (some (.native cut))).2 := by
  intro hu
  have hview := hu bucket key
  rw [view_applyPutWithAuthority (idle_of_absent hb) ha, if_pos ⟨rfl, rfl⟩, view_of_get_none hb]
    at hview
  simp [KeyView.put, KeyView.refuses] at hview

theorem touched_del {bucket : String} (hb : s.buckets[bucket]? = none)
    (ha : (s.noteIdentity (some (.native cut))).1 = true) (key : String) (ts : SystemTime) :
    ¬ Untouched s (s.applyDelWithIdentity bucket key ts (some (.native cut)) .run).2 := by
  intro hu
  have hview := hu bucket key
  rw [view_applyDelWithIdentity_self (idle_of_absent hb) ha, view_of_get_none hb] at hview
  simp [KeyView.del, KeyView.outdates, raised] at hview

theorem event_orderly_iff (hc : cut.Nameable) {kind : NativeKind}
    (hcuts : ∀ p s', s.step (kind.call p cut) = some s' →
      s'.nativeCuts = (s.noteNativeCut cut).2.nativeCuts)
    (hdup : (s.noteNativeCut cut).1 = false → ∀ p s', s.step (kind.call p cut) = some s' →
      Untouched s s')
    (htouch : (s.noteNativeCut cut).1 = true → ∃ p s', s.step (kind.call p cut) = some s' ∧
      ¬ Untouched s s') :
    (∀ p s', s.step (kind.call p cut) = some s' → Orderly s s' cut) ↔
      ∀ old, s.nativeCuts[cut.writer]? = some old →
        old.1 < cut.epoch ∨ old.1 = cut.epoch ∧ 0 < cut.sequence := by
  constructor
  · intro hall old ho
    by_contra hlate
    obtain ⟨p, s', hs, ht⟩ := htouch (noteNativeCut_late hc ho hlate)
    exact ht ((hall p s' hs).inert (covered_of_late ho hlate))
  · exact fun hin p s' hs => orderly_of_inOrder hc hin (hcuts p s' hs) fun hd => hdup hd p s' hs

theorem put_orderly_iff (hc : cut.Nameable) :
    (∀ p s', s.step (NativeKind.put.call p cut) = some s' → Orderly s s' cut) ↔
      NativeKind.put.InOrder s cut := by
  refine event_orderly_iff hc (fun p s' hs => ?_) (fun hd p s' hs => ?_) fun ha => ?_
  · cases hs
    exact nativeCuts_put
  · cases hs
    have hd' : (s.noteIdentity (some (.native cut))).1 = false := hd
    rw [Option.map_some, applyPutWithAuthority_duplicate hd']
    exact untouched_of_buckets buckets_noteIdentity
  · obtain ⟨name, hname⟩ := exists_absent s
    exact ⟨freshPayload name, _, rfl, touched_put hname ha _ _⟩

theorem del_orderly_iff (hc : cut.Nameable) :
    (∀ p s', s.step (NativeKind.del.call p cut) = some s' → Orderly s s' cut) ↔
      NativeKind.del.InOrder s cut := by
  refine event_orderly_iff hc (fun p s' hs => ?_) (fun hd p s' hs => ?_) fun ha => ?_
  · cases hs
    exact nativeCuts_del
  · cases hs
    have hd' : (s.noteIdentity (some (.native cut))).1 = false := hd
    rw [Option.map_some, applyDelWithIdentity_duplicate hd']
    exact untouched_of_buckets buckets_noteIdentity
  · obtain ⟨name, hname⟩ := exists_absent s
    exact ⟨freshPayload name, _, rfl, touched_del hname ha _ _⟩

omit [Layout] in
theorem untouched_noteNativeCut : Untouched s (s.noteNativeCut cut).2 :=
  untouched_of_buckets (buckets_noteNativeCut cut)

theorem fence_orderly_iff (hc : cut.Nameable) :
    (∀ p s', s.step (NativeKind.fence.call p cut) = some s' → Orderly s s' cut) ↔
      NativeKind.fence.InOrder s cut := by
  refine event_orderly_iff hc (fun p s' hs => ?_) (fun hd p s' hs => ?_) fun ha => ?_
  · obtain ⟨⟨token, t⟩, ht, rfl⟩ := Option.map_eq_some_iff.mp hs
    exact nativeCuts_fenceNative ht
  · obtain ⟨⟨token, t⟩, ht, rfl⟩ := Option.map_eq_some_iff.mp hs
    have hcut : s.noteNativeCut cut = (false, (s.noteNativeCut cut).2) := Prod.ext hd rfl
    simp only [fenceUncertainKeyNative] at ht
    rw [hcut] at ht
    cases ht
    exact untouched_noteNativeCut
  · obtain ⟨name, hname⟩ := exists_absent s
    obtain ⟨s', hs', htouched⟩ := fenceKey_absent (s := (s.noteNativeCut cut).2)
      (by rwa [buckets_noteNativeCut]) "k"
    have hcut : s.noteNativeCut cut = (true, (s.noteNativeCut cut).2) := Prod.ext ha rfl
    refine ⟨freshPayload name, s', ?_, fun hu => htouched fun bucket key => ?_⟩
    · show (s.fenceUncertainKeyNative name "k" cut).map (·.2) = some s'
      simp only [fenceUncertainKeyNative]
      rw [hcut]
      simp [hs']
    · rw [hu, untouched_noteNativeCut]

theorem fenceOwn_orderly_iff (hc : cut.Nameable) :
    (∀ p s', s.step (NativeKind.fenceOwn.call p cut) = some s' → Orderly s s' cut) ↔
      NativeKind.fenceOwn.InOrder s cut := by
  constructor
  · intro hall hcov
    obtain ⟨name, hname⟩ := exists_absent s
    obtain ⟨s', hs', htouched⟩ := fenceKey_absent (s := (s.noteNativeCut cut).2)
      (by rwa [buckets_noteNativeCut]) "k"
    have hu := (hall (freshPayload name) s' (Option.map_eq_some_iff.mpr ⟨_, hs', rfl⟩)).inert hcov
    exact htouched fun bucket key => by rw [hu, untouched_noteNativeCut]
  · intro hout p s' hs
    obtain ⟨⟨token, t⟩, ht, rfl⟩ := Option.map_eq_some_iff.mp hs
    refine ⟨(forward_noteNativeCut hc fun old ho => ?_).congr (nativeCuts_fenceKey ht),
      fun hcov => absurd hcov hout⟩
    simp only [NativeKind.InOrder, covered_iff ho] at hout
    omega

theorem noteSeal_orderly_iff (hc : cut.Nameable) :
    (∀ p s', s.step (NativeKind.noteSeal.call p cut) = some s' → Orderly s s' cut) ↔
      NativeKind.noteSeal.InOrder s cut := by
  constructor
  · intro hall old ho
    by_contra hlate
    obtain ⟨new, hnew, hle⟩ := (hall (freshPayload "b") _ rfl).forward cut.writer old ho
    rw [nativeCuts_noteNativeSeal] at hnew
    rcases noteNativeCut_cases (s := s) hc with ⟨hq, -⟩ | ⟨-, ho', -⟩ |
      ⟨-, old', ho', ⟨hd, -⟩ | ⟨-, hn⟩⟩
    · omega
    · simp [ho] at ho'
    · obtain rfl : old = old' := Option.some.inj (ho.symm.trans ho')
      omega
    · rw [hn, setCut, TreeMap.get_insert, if_pos rfl, Option.some.injEq] at hnew
      rw [← hnew, Prod.Lex.toLex_le_toLex] at hle
      simp only at hle
      omega
  · rintro hin p s' hs
    cases hs
    exact ⟨(forward_noteNativeCut hc hin).congr (nativeCuts_noteNativeSeal cut),
      fun _ => untouched_of_buckets (buckets_noteNativeSeal cut)⟩

theorem renew_orderly_iff :
    (∀ p s', s.step (NativeKind.renew.call p cut) = some s' → Orderly s s' cut) ↔
      NativeKind.renew.InOrder s cut := by
  refine iff_of_true (fun p s' hs => ?_) trivial
  cases hs
  exact ⟨forward_renewNativeWriter p.epoch,
    fun _ => untouched_of_buckets (buckets_renewNativeWriter cut p.epoch)⟩

theorem gap_orderly_iff :
    (∀ p s', s.step (NativeKind.gap.call p cut) = some s' → Orderly s s' cut) ↔
      NativeKind.gap.InOrder s cut := by
  constructor
  · exact fun hall hcov => untouched_discardForGap_iff.mp
      ((hall (freshPayload "b") _ rfl).inert hcov)
  · rintro hin p s' hs
    cases hs
    exact ⟨forward_skipNativeGap.congr rfl, fun hcov => untouched_discardForGap_iff.mpr (hin hcov)⟩

theorem register_orderly_iff :
    (∀ p s', s.step (NativeKind.register.call p cut) = some s' → Orderly s s' cut) ↔
      NativeKind.register.InOrder s cut := by
  refine iff_of_true (fun p s' hs => ?_) trivial
  cases hs
  exact ⟨forward_registerNativeWriter,
    fun _ => untouched_of_buckets (buckets_registerNativeWriter cut)⟩

/-- Whatever the index holds, the events and notices of one kind at one position are orderly
exactly when the position is in order for that kind. -/
theorem native_step_orderly_iff (s : KeyIndexState) (kind : NativeKind) {cut : NativeCut}
    (hc : cut.Nameable) :
    (∀ (p : NativePayload) s', s.step (kind.call p cut) = some s' → Orderly s s' cut) ↔
      kind.InOrder s cut := by
  cases kind with
  | put => exact put_orderly_iff hc
  | del => exact del_orderly_iff hc
  | fence => exact fence_orderly_iff hc
  | fenceOwn => exact fenceOwn_orderly_iff hc
  | noteSeal => exact noteSeal_orderly_iff hc
  | renew => exact renew_orderly_iff
  | gap => exact gap_orderly_iff
  | register => exact register_orderly_iff

theorem forward_of_inOrder {kind : NativeKind} {p : NativePayload} (hc : cut.Nameable)
    (h : kind.InOrder s cut) (hs : s.step (kind.call p cut) = some s') : Forward s s' := by
  suffices h : Orderly s s' cut from h.forward
  cases kind with
  | put => exact (put_orderly_iff hc).mpr h p s' hs
  | del => exact (del_orderly_iff hc).mpr h p s' hs
  | fence => exact (fence_orderly_iff hc).mpr h p s' hs
  | fenceOwn => exact (fenceOwn_orderly_iff hc).mpr h p s' hs
  | noteSeal => exact (noteSeal_orderly_iff hc).mpr h p s' hs
  | renew => exact renew_orderly_iff.mpr h p s' hs
  | gap => exact gap_orderly_iff.mpr h p s' hs
  | register => exact register_orderly_iff.mpr h p s' hs

omit [Layout] in
theorem Forward.trans {t : KeyIndexState} (h : Forward s t) (h' : Forward t s') : Forward s s' :=
  fun writer old hold => by
    obtain ⟨mid, hmid, hle⟩ := h writer old hold
    obtain ⟨new, hnew, hle'⟩ := h' writer mid hmid
    exact ⟨new, hnew, hle.trans hle'⟩

omit [Layout] in
theorem exists_kind {c : IndexCall} (h : c.writer ≠ none) :
    ∃ (kind : NativeKind) (p : NativePayload) (cut : NativeCut), c = kind.call p cut := by
  let p := freshPayload "b"
  cases c with
  | put b key entry cut =>
    cases cut with
    | none => exact absurd rfl h
    | some cut => exact ⟨.put, { p with bucket := b, key, entry }, cut, rfl⟩
  | del b key ts cut =>
    cases cut with
    | none => exact absurd rfl h
    | some cut => exact ⟨.del, { p with bucket := b, key, ts }, cut, rfl⟩
  | fenceNative b key cut => exact ⟨.fence, { p with bucket := b, key }, cut, rfl⟩
  | fenceOwn b key cut => exact ⟨.fenceOwn, { p with bucket := b, key }, cut, rfl⟩
  | noteSeal cut => exact ⟨.noteSeal, p, cut, rfl⟩
  | renew cut epoch => exact ⟨.renew, { p with epoch }, cut, rfl⟩
  | gap cut => exact ⟨.gap, p, cut, rfl⟩
  | register cut => exact ⟨.register, p, cut, rfl⟩
  | _ => exact absurd rfl h

theorem forward_run {ops : List IndexCall}
    (h : Machine.Runs KeyIndexState.step (fun s c => ∀ (kind : NativeKind) p cut,
      c = kind.call p cut → cut.Nameable ∧ kind.InOrder s cut) s ops s') : Forward s s' := by
  refine h.keeps (P := Forward s) (fun t c t' hst hok hs => hst.trans ?_) fun _ old ho =>
    ⟨old, ho, le_rfl⟩
  by_cases hnative : c.writer = none
  · intro writer old ho
    exact ⟨old, by rwa [nativeCuts_of_writer hs (by simp [hnative])], le_rfl⟩
  · obtain ⟨kind, p, cut, rfl⟩ := exists_kind hnative
    obtain ⟨hc, hin⟩ := hok kind p cut rfl
    exact forward_of_inOrder hc hin hs

end

section Sample
local instance cutsLayout : Layout := sampleLayout

/-- An index whose writer `1` stands at sequence 5 of epoch 2. -/
def sampleCuts : KeyIndexState := ({} : KeyIndexState).registerNativeWriter ⟨[1], 2, 5⟩

theorem native_step_orderly_sample :
    NativeCut.Nameable ⟨[1], 2, 3⟩ ∧ sampleCuts.Covered ⟨[1], 2, 3⟩ ∧
    ∀ p s', sampleCuts.step (NativeKind.put.call p ⟨[1], 2, 3⟩) = some s' →
      Orderly sampleCuts s' ⟨[1], 2, 3⟩ := by
  have hc : NativeCut.Nameable ⟨[1], 2, 3⟩ := ⟨by decide, by decide, by decide⟩
  have ho : sampleCuts.nativeCuts[([1] : List UInt8)]? = some (2, 5) := by decide +kernel
  refine ⟨hc, (covered_iff ho).mpr (by decide), (native_step_orderly_iff sampleCuts .put hc).mpr ?_⟩
  intro old ho'
  obtain rfl : (2, 5) = old := Option.some.inj (ho.symm.trans ho')
  decide

/-- A put of epoch 1 is applied and takes the cut back to its own position; one at sequence 0
of the cut's epoch is applied as well, and an own fence at a covered position is set. -/
theorem covered_event_applied :
    sampleCuts.nativeCuts[([1] : List UInt8)]? = some (2, 5) ∧
    (∃ s', sampleCuts.step (NativeKind.put.call (freshPayload "b") ⟨[1], 1, 9⟩) = some s' ∧
      s'.nativeCuts[([1] : List UInt8)]? = some (1, 9) ∧
      (s'.view "b" "k").row = some (freshPayload "b").entry) ∧
    (∃ s', sampleCuts.step (NativeKind.put.call (freshPayload "b") ⟨[1], 2, 0⟩) = some s' ∧
      (s'.view "b" "k").row = some (freshPayload "b").entry) ∧
    ∃ s', sampleCuts.step (NativeKind.fenceOwn.call (freshPayload "b") ⟨[1], 2, 3⟩) = some s' ∧
      (sampleCuts.view "b" "k").fence = none ∧ (s'.view "b" "k").fence = some 1 :=
  ⟨by decide +kernel, ⟨_, rfl, by decide +kernel, by decide +kernel⟩, ⟨_, rfl, by decide +kernel⟩,
    ⟨_, rfl, by decide +kernel, by decide +kernel⟩⟩

end Sample

end KeyIndexState

end S3Cache.Index

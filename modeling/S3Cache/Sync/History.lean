import S3Cache.Lib.LastWriter
import S3Cache.Sync.Feed

/-! The index as a set of events.  Per key it is a last-writer-wins register, so outside a
rebuild what it holds is settled by the events folded into it. -/

namespace S3Cache

open LastWriter Fleet

namespace Index

def ObjEntry.advertised (e : ObjEntry) : ObjEntry := { e with objMeta := none }

namespace KeyView

def register (v : KeyView) : Register ObjEntry SystemTime := ⟨v.row.map ObjEntry.advertised, v.gone⟩

theorem register_put (v : KeyView) (e : ObjEntry) (auth : PutAuthority) :
    (v.put e auth).register = v.register.put ObjEntry.lastModified e.advertised := by
  have hr : (v.register.gone.any (e.advertised.lastModified ≤ ·) ||
      v.register.value.any (e.advertised.lastModified < ·.lastModified)) =
        v.refuses e.lastModified := by
    cases h : v.row <;> simp only [register, refuses, h, Option.map, Option.any] <;> rfl
  simp only [Register.put, hr, KeyView.put]
  split <;> rfl

theorem register_del (v : KeyView) (ts : SystemTime) :
    (v.del ts).register = v.register.del ObjEntry.lastModified ts := by
  have ho : (v.register.value.any (ts < ·.lastModified) || v.register.gone.any (ts < ·)) =
      v.outdates ts := by
    cases h : v.row <;> simp only [register, outdates, h, Option.map, Option.any]
    rfl
  simp only [Register.del, ho, KeyView.del]
  split <;> rfl

end KeyView

namespace KeyIndexState

variable {s : KeyIndexState} {cut : NativeCut} {w : List UInt8} {at_ : Nat × Nat}

theorem nativeCuts_noteNativeCut
    (h : (s.noteNativeCut cut).2.nativeCuts[w]? = some at_) :
    s.nativeCuts[w]? = some at_ ∨ w = cut.writer ∧ at_ = (cut.epoch, cut.sequence) := by
  have hset : ∀ t : KeyIndexState, t.nativeCuts = s.nativeCuts →
      (t.setCut cut.writer (cut.epoch, cut.sequence)).nativeCuts[w]? = some at_ →
      s.nativeCuts[w]? = some at_ ∨ w = cut.writer ∧ at_ = (cut.epoch, cut.sequence) := by
    intro t ht h
    rw [setCut, TreeMap.get_insert, ht] at h
    split at h
    · next hw => exact .inr ⟨hw.symm, (Option.some.inj h).symm⟩
    · exact .inl h
  unfold noteNativeCut at h
  split at h
  · exact .inl h
  · split at h
    · split at h
      · exact .inl h
      · exact hset s rfl h
    · split at h
      · exact .inl h
      · refine hset _ ?_ h
        fun_cases withdrawUnlessNext <;> rfl

theorem covered_of_duplicate (h : (s.noteNativeCut cut).1 = false) :
    ∃ q, s.nativeCuts[cut.writer]? = some (cut.epoch, q) ∧ cut.sequence ≤ q := by
  unfold noteNativeCut at h
  split at h
  · cases h
  · split at h
    · split at h <;> cases h
    · next old hold =>
      split at h
      · next hcov => exact ⟨old.2, by rw [hold, hcov.1], hcov.2⟩
      · cases h

variable [Layout] {bucket key : String}

theorem nativeCuts_applyPutNative (e : ObjEntry) :
    (s.applyPutNative bucket key e cut).2.nativeCuts = (s.noteNativeCut cut).2.nativeCuts := by
  unfold applyPutNative
  cases ha : (s.noteIdentity (some (.native cut))).1 with
  | false => rw [applyPutWithAuthority_duplicate ha]; rfl
  | true =>
    rw [applyPutWithAuthority_admitted ha]
    split
    · exact nativeCuts_openBucket bucket
    · exact nativeCuts_openBucket bucket

theorem nativeCuts_applyDelNative {ts : SystemTime} :
    (s.applyDelNative bucket key ts cut).2.nativeCuts = (s.noteNativeCut cut).2.nativeCuts := by
  unfold applyDelNative
  cases ha : (s.noteIdentity (some (.native cut))).1 with
  | false => rw [applyDelWithIdentity_duplicate ha]; rfl
  | true =>
    have hdel : ∀ (t : KeyIndexState) gone changed,
        (t.journalDel (some (.native cut)) bucket key gone changed).nativeCuts = t.nativeCuts := by
      intro t gone changed
      unfold journalDel
      split <;> rfl
    rw [applyDelWithIdentity_admitted ha]
    simp only
    split
    · exact (hdel _ _ _).trans (nativeCuts_openBucket bucket)
    · split
      · exact (hdel _ _ _).trans (nativeCuts_openBucket bucket)
      · exact (hdel _ _ _).trans (nativeCuts_openBucket bucket)

end KeyIndexState

end Index

namespace Sync

open Index Fleet KeyIndexState
abbrev History := String → String → Set (Event ObjEntry SystemTime)

def History.extend (E : History) (bucket key : String) (x : Event ObjEntry SystemTime) : History :=
  fun b k => if bucket = b ∧ key = k then insert x (E b k) else E b k

/-- The index is what the events of `E` leave. -/
structure Holds (s : KeyIndexState) (E : History) : Prop where
  idle : s.Idle
  settles : ∀ b k, Settles ObjEntry.lastModified (E b k) (s.view b k).register

section
variable [Layout] {s : KeyIndexState} {E : History} {bucket key : String} {cut : NativeCut}

omit [Layout] in
theorem Holds.congr {s' : KeyIndexState} (h : Holds s E) (hb : s'.buckets = s.buckets) :
    Holds s' E where
  idle := h.idle.congr hb
  settles b k := by
    rw [KeyIndexState.view, bucket_congr hb]
    exact h.settles b k

theorem Holds.put (h : Holds s E) (e : ObjEntry) (ha : (s.noteNativeCut cut).1 = true) :
    Holds (s.applyPutNative bucket key e cut).2 (E.extend bucket key (.put e.advertised)) := by
  replace ha : (s.noteIdentity (some (.native cut))).1 = true := ha
  refine ⟨fun name => ?_, fun b k => ?_⟩
  · rw [applyPutNative, bucket_applyPutWithAuthority ha]
    split
    · exact (h.idle bucket).acceptPut _ _ _
    · exact h.idle name
  · rw [applyPutNative, view_applyPutWithAuthority (h.idle bucket) ha, History.extend]
    split
    · rw [KeyView.register_put]
      exact (h.settles b k).put e.advertised
    · exact h.settles b k

theorem Holds.del (h : Holds s E) {ts : SystemTime} (ha : (s.noteNativeCut cut).1 = true)
    (hw : s.Unswept bucket .run) :
    Holds (s.applyDelNative bucket key ts cut).2 (E.extend bucket key (.del ts)) := by
  replace ha : (s.noteIdentity (some (.native cut))).1 = true := ha
  refine ⟨fun name => ?_, fun b k => ?_⟩
  · rw [applyDelNative, bucket_applyDelWithIdentity ha, hw.swept]
    split
    · exact (h.idle bucket).afterDel _ _
    · exact h.idle name
  · rw [applyDelNative, view_applyDelWithIdentity (h.idle bucket) ha hw, History.extend]
    split
    · rw [KeyView.register_del]
      exact (h.settles b k).del ts
    · exact h.settles b k

structure Folded (s : KeyIndexState) (cut : NativeCut) (bucket key : String)
    (x : Event ObjEntry SystemTime) (s' : KeyIndexState) : Prop where
  cuts : s'.nativeCuts = (s.noteNativeCut cut).2.nativeCuts
  duplicate : (s.noteNativeCut cut).1 = false → s'.buckets = s.buckets
  holds : ∀ E, Holds s E → (s.noteNativeCut cut).1 = true → Holds s' (E.extend bucket key x)

theorem folded_put (e : ObjEntry) :
    Folded s cut bucket key (.put e.advertised) (s.applyPutNative bucket key e cut).2 where
  cuts := nativeCuts_applyPutNative e
  duplicate ha := by
    replace ha : (s.noteIdentity (some (.native cut))).1 = false := ha
    rw [applyPutNative, applyPutWithAuthority_duplicate ha, buckets_noteIdentity]
  holds _ h := h.put e

theorem folded_del {ts : SystemTime} (hw : s.Unswept bucket .run) :
    Folded s cut bucket key (.del ts) (s.applyDelNative bucket key ts cut).2 where
  cuts := nativeCuts_applyDelNative
  duplicate ha := by
    replace ha : (s.noteIdentity (some (.native cut))).1 = false := ha
    rw [applyDelNative, applyDelWithIdentity_duplicate ha, buckets_noteIdentity]
  holds _ h ha := h.del ha hw

omit [Layout]
variable [ETagParser]

def IndexEvent.effect (event : IndexEvent) : Event ObjEntry SystemTime :=
  match event.op with
  | .put size etag contentType storageClass =>
    .put (eventEntry (fromMicros event.tsUs) size etag contentType storageClass)
  | .del => .del (fromMicros event.tsUs)

theorem effect_putEvent {e : ObjEntry} (h : wireStamp e.lastModified = e.lastModified) :
    (putEvent bucket key e).effect = .put e.advertised := by
  have hetag : (e.etag.map etagText).bind ETagParser.parse = e.etag := by
    cases e.etag with
    | none => rfl
    | some t => exact ETagParser.parse_etagText t
  unfold wireStamp at h
  simp only [IndexEvent.effect, putEvent, eventEntry, h, hetag, Option.elim]
  rfl

theorem effect_delEvent {ts : SystemTime} (h : wireStamp ts = ts) :
    (delEvent bucket key ts).effect = .del ts := by
  unfold wireStamp at h
  simp only [IndexEvent.effect, delEvent, h]

omit [ETagParser] in
theorem not_describesNothing_putEvent {e : ObjEntry} (h : e.etag.isSome ∨ e.size.isSome) :
    (putEvent bucket key e).op.describesNothing = false := by
  unfold putEvent
  cases he : e.etag <;> cases hs : e.size <;> simp_all [IndexOp.describesNothing]

theorem folded_applyFeedIndex [Layout] {peer : String} {token : WriteToken} {event : IndexEvent}
    {fence : Option Nat} {s' : KeyIndexState} (hd : event.op.describesNothing = false)
    (hw : s.Unswept event.bucket .run)
    (h : applyFeedIndex s peer token event = some (fence, s')) :
    Folded s (nativeCut peer token) event.bucket event.key event.effect s' := by
  simp only [applyFeedIndex, hd, Bool.false_eq_true, if_false] at h
  cases hop : event.op with
  | put size etag contentType storageClass =>
    have heffect : event.effect =
        .put (eventEntry (fromMicros event.tsUs) size etag contentType storageClass) := by
      simp only [IndexEvent.effect, hop]
    simp only [hop] at h
    cases h
    rw [heffect]
    exact folded_put (eventEntry _ size etag contentType storageClass)
  | del =>
    have heffect : event.effect = .del (fromMicros event.tsUs) := by
      simp only [IndexEvent.effect, hop]
    simp only [hop] at h
    cases h
    rw [heffect]
    exact folded_del hw

end

end Sync

end S3Cache

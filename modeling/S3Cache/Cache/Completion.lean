import S3Cache.Index.Rebuild
import S3Cache.Cache.HeadAnswer

/-! What completing an entry (`complete_entry` in `index.rs`) may do to an index: it adds to one
row what an answer about the row's version has and the row lacks, and nothing else. -/

namespace S3Cache.Index

open Fleet

namespace ObjEntry

variable {e : ObjEntry} {f : EntryFill}

def complete (e : ObjEntry) (f : EntryFill) : ObjEntry := if e.sameVersion f then e.fill f else e

def taken (e : ObjEntry) : List EntryFill → List EntryFill
  | [] => []
  | f :: answers => if e.sameVersion f then f :: (e.fill f).taken answers else e.taken answers

def firstOffered (e : ObjEntry) (answers : List EntryFill) : ObjEntry where
  size := e.size <|> answers.findSome? (·.size)
  lastModified := e.lastModified
  etag := e.etag <|> answers.findSome? (·.etag)
  storageClass := e.storageClass
  contentType := e.contentType <|> answers.findSome? (·.contentType)
  objMeta := e.objMeta <|> answers.head?.map (·.objMeta)

def Gains (e e' : ObjEntry) : Prop :=
  (e.size = none ∧ e'.size.isSome) ∨ (e.etag = none ∧ e'.etag.isSome) ∨
  (e.contentType = none ∧ e'.contentType.isSome) ∨ (e.objMeta = none ∧ e'.objMeta.isSome)

theorem sameVersion_iff : e.sameVersion f = true ↔
    (e.etag = none ∨ e.etag = f.etag) ∧ ∀ m ∈ e.size, ∀ n ∈ f.size, m = n := by
  rw [sameVersion, Bool.and_eq_true]
  refine and_congr ?_ ?_
  · cases e.etag <;> cases f.etag <;> simp
  · cases e.size <;> cases f.size <;> simp

theorem gains_fill : e.Gains (e.fill f) ↔ e.filled f = true := by
  simp only [Gains, filled, fill, Bool.or_eq_true, Bool.and_eq_true, or_assoc]
  cases e.size <;> cases e.etag <;> cases e.contentType <;> cases e.objMeta <;> simp

theorem not_gains_self : ¬ e.Gains e := by
  rintro (⟨h, h'⟩ | ⟨h, h'⟩ | ⟨h, h'⟩ | ⟨h, h'⟩) <;> rw [h] at h' <;> cases h'

theorem filled_complete (e : ObjEntry) (f : EntryFill) : Filled e (e.complete f) :=
  (Filled.refl e).completed f

theorem complete_of_faithful (h : e.isFaithful = true) (f : EntryFill) : e.complete f = e := by
  simp only [isFaithful, Bool.and_eq_true] at h
  obtain ⟨⟨⟨hsize, hetag⟩, htype⟩, hmeta⟩ := h
  have hfilled : e.filled f = false := by
    simp only [filled, ← Option.not_isSome, hsize, hetag, htype, hmeta]
    rfl
  rw [complete, fill_of_not_filled hfilled, ite_self]

theorem firstOffered_nil (e : ObjEntry) : e.firstOffered [] = e := by
  obtain ⟨size, time, etag, storage, ctype, m⟩ := e
  simp [firstOffered]

theorem orElse_findSome {α : Type} (o : Option α) (g : EntryFill → Option α) (f : EntryFill)
    (answers : List EntryFill) :
    (o <|> (f :: answers).findSome? g) = ((o <|> g f) <|> answers.findSome? g) := by
  cases o with
  | some x => rfl
  | none =>
    rw [List.findSome?_cons]
    cases g f <;> rfl

theorem firstOffered_cons (e : ObjEntry) (f : EntryFill) (answers : List EntryFill) :
    e.firstOffered (f :: answers) = (e.fill f).firstOffered answers := by
  have hmeta : (e.objMeta <|> some f.objMeta) =
      ((e.objMeta <|> some f.objMeta) <|> answers.head?.map (·.objMeta)) := by
    cases e.objMeta <;> rfl
  simp only [firstOffered, orElse_findSome, List.head?_cons, Option.map_some, fill]
  rw [← hmeta]

theorem foldl_complete (e : ObjEntry) (answers : List EntryFill) :
    answers.foldl complete e = e.firstOffered (e.taken answers) := by
  induction answers generalizing e with
  | nil => exact (firstOffered_nil e).symm
  | cons f answers ih =>
    rw [List.foldl_cons, ih, complete, taken]
    split
    · rw [firstOffered_cons]
    · rfl

structure Of (e : ObjEntry) (etag : Option ETag) (size : Int64) : Prop where
  etag : e.etag = none ∨ e.etag = etag
  size : ∀ m ∈ e.size, m = size

end ObjEntry

/-- An answer about a version: it carries the version's `ETag`, and its size when it has one. -/
structure EntryFill.Of (f : EntryFill) (etag : Option ETag) (size : Int64) : Prop where
  etag : f.etag = etag
  size : ∀ m ∈ f.size, m = size

namespace ObjEntry

variable {e : ObjEntry} {f : EntryFill} {etag : Option ETag} {size : Int64}

theorem Of.sameVersion (he : e.Of etag size) (hf : f.Of etag size) : e.sameVersion f = true := by
  refine sameVersion_iff.mpr ⟨?_, ?_⟩
  · rw [hf.etag]
    exact he.etag
  · intro m hm n hn
    rw [he.size m hm, hf.size n hn]

theorem Of.fill (he : e.Of etag size) (hf : f.Of etag size) : (e.fill f).Of etag size := by
  constructor
  · show (e.etag <|> f.etag) = none ∨ (e.etag <|> f.etag) = etag
    rw [hf.etag]
    obtain h | h := he.etag
    · rw [h]
      exact .inr rfl
    · rw [h]
      cases etag <;> exact .inr rfl
  · show ∀ m ∈ (e.size <|> f.size), m = size
    intro m hm
    cases hsize : e.size with
    | none =>
      rw [hsize] at hm
      exact hf.size m hm
    | some k =>
      rw [hsize] at hm
      exact he.size m (hsize ▸ hm)

theorem Of.taken {answers : List EntryFill} (he : e.Of etag size)
    (hanswers : ∀ f ∈ answers, f.Of etag size) : e.taken answers = answers := by
  induction answers generalizing e with
  | nil => rfl
  | cons f answers ih =>
    obtain ⟨hf, hanswers⟩ := List.forall_mem_cons.mp hanswers
    rw [ObjEntry.taken, if_pos (he.sameVersion hf), ih (he.fill hf) hanswers]

end ObjEntry

namespace KeyIndexState

variable [Layout] {s : KeyIndexState} {bucket key : String} {fill : EntryFill}

structure OnlyAdds (s : KeyIndexState) (bucket key : String) (fill : EntryFill) (report : Completion)
    (s' : KeyIndexState) : Prop where
  others : ∀ name, name ≠ bucket → s'.buckets[name]? = s.buckets[name]?
  cuts : s'.nativeCuts = s.nativeCuts
  absent : s.buckets[bucket]? = none → s'.buckets[bucket]? = none
  held : ∀ b, s.buckets[bucket]? = some b → ∃ keys stats,
    s'.buckets[bucket]? = some { b with keys, stats } ∧
    ∀ k, keys.get k = if key = k then (b.keys.get key).map (·.complete fill) else b.keys.get k
  report : report = .completed ↔
    ∃ b e, s.buckets[bucket]? = some b ∧ b.keys.get key = some e ∧ e.Gains (e.complete fill)

omit [Layout] in
theorem onlyAdds_self {report : Completion} (hreport : report ≠ .completed)
    (h : ∀ b e, s.buckets[bucket]? = some b → b.keys.get key = some e → e.complete fill = e) :
    s.OnlyAdds bucket key fill report s := by
  refine ⟨fun _ _ => rfl, rfl, id, ?_, ?_⟩
  · intro b hb
    refine ⟨b.keys, b.stats, hb, fun k => ?_⟩
    split
    · next hk =>
      subst hk
      cases hrow : b.keys.get key with
      | none => rfl
      | some e => rw [Option.map_some, h b e hb hrow]
    · rfl
  · refine ⟨fun hcompleted => absurd hcompleted hreport, ?_⟩
    rintro ⟨b, e, hb, hrow, hgains⟩
    rw [h b e hb hrow] at hgains
    exact absurd hgains ObjEntry.not_gains_self

theorem completeEntry_onlyAdds (s : KeyIndexState) (bucket key : String) (fill : EntryFill) :
    s.OnlyAdds bucket key fill (s.completeEntry bucket key fill).1
      (s.completeEntry bucket key fill).2 := by
  fun_cases completeEntry
  case case1 hnone =>
    refine onlyAdds_self (by simp) fun b e hb _ => ?_
    cases hnone.symm.trans hb
  case case2 b hb hnone =>
    refine onlyAdds_self (by simp) fun b' e hb' hrow => ?_
    cases hb.symm.trans hb'
    cases hnone.symm.trans hrow
  case case3 b hb entry hentry hother =>
    refine onlyAdds_self (by simp) fun b' e hb' hrow => ?_
    cases hb.symm.trans hb'
    cases hentry.symm.trans hrow
    rw [ObjEntry.complete, if_neg (by simpa using hother)]
  case case4 b hb entry hentry hsame hfilled =>
    refine onlyAdds_self (by simp) fun b' e hb' hrow => ?_
    cases hb.symm.trans hb'
    cases hentry.symm.trans hrow
    rw [ObjEntry.complete, ObjEntry.fill_of_not_filled (by simpa using hfilled), ite_self]
  case case5 b hb entry hentry hsame hfilled b' =>
    have hsame : entry.sameVersion fill = true := by simpa using hsame
    have hfilled : entry.filled fill = true := by simpa using hfilled
    have hcomplete : entry.complete fill = entry.fill fill := if_pos hsame
    have hbuckets : ∀ name, ((s.setBucket bucket b').account (.forEntry entry)
        (.forEntry (entry.fill fill))).journal (·.recordPut none bucket key (entry.fill fill))
          |>.buckets[name]? = if bucket = name then some b' else s.buckets[name]? := by
      intro name
      rw [buckets_journal, buckets_account, get_setBucket]
    refine ⟨?_, ?_, ?_, ?_, ?_⟩
    · intro name hname
      rw [hbuckets, if_neg hname.symm]
    · rfl
    · intro hnone
      cases hb.symm.trans hnone
    · intro b₀ hb₀
      cases hb.symm.trans hb₀
      refine ⟨b'.keys, b'.stats, by rw [hbuckets, if_pos rfl], fun k => ?_⟩
      rw [KeyRows.get_update, hentry, Option.map_some, Option.map_some, hcomplete]
    · refine ⟨fun _ => ⟨b, entry, hb, hentry, ?_⟩, fun _ => rfl⟩
      rw [hcomplete]
      exact ObjEntry.gains_fill.mpr hfilled

def completions (s : KeyIndexState) (answers : List (String × String × EntryFill)) :
    KeyIndexState :=
  answers.foldl (fun s a => (s.completeEntry a.1 a.2.1 a.2.2).2) s

theorem row_completions (s : KeyIndexState) (bucket key : String) (answers : List EntryFill) :
    ((s.completions (answers.map (bucket, key, ·))).view bucket key).row =
      (s.view bucket key).row.map fun e => answers.foldl ObjEntry.complete e := by
  induction answers generalizing s with
  | nil => exact Option.map_id'.symm
  | cons f answers ih =>
    show ((completions (s.completeEntry bucket key f).2 (answers.map (bucket, key, ·))).view
      bucket key).row = _
    rw [ih, (completeEntry_spec s bucket key f).1, KeyView.complete, Option.map_map]
    rfl

theorem row_completions_of_faithful {e : ObjEntry} (hrow : (s.view bucket key).row = some e)
    (hfaithful : e.isFaithful = true) (answers : List (String × String × EntryFill)) :
    ((s.completions answers).view bucket key).row = some e := by
  induction answers generalizing s with
  | nil => exact hrow
  | cons a answers ih =>
    obtain ⟨name, k, f⟩ := a
    refine ih (s := (s.completeEntry name k f).2) ?_
    by_cases hhere : name = bucket ∧ k = key
    · obtain ⟨rfl, rfl⟩ := hhere
      rw [(completeEntry_spec s name k f).1, KeyView.complete, hrow, Option.map_some,
        ← ObjEntry.complete, ObjEntry.complete_of_faithful hfaithful]
    · rw [Cache.view_complete_other hhere, hrow]

end KeyIndexState

end S3Cache.Index

namespace S3Cache.Cache

open Index KeyIndexState Fleet

section
variable [Layout]

theorem head_completions {s : KeyIndexState} {bucket key : String} {out : HeadObjectOutput}
    (h : headObjectFromIndex (s.buckets[bucket]?.map (·.keys)) key = .faithful out)
    (answers : List (String × String × EntryFill)) :
    headObjectFromIndex ((s.completions answers).buckets[bucket]?.map (·.keys)) key =
      .faithful out := by
  unfold headObjectFromIndex at h ⊢
  rw [HeadNode.row_of_keys] at h ⊢
  cases hrow : (s.view bucket key).row with
  | none =>
    rw [hrow] at h
    cases h
  | some e =>
    rw [hrow] at h
    simp only at h
    split at h
    · next hfaithful =>
      rw [row_completions_of_faithful hrow hfaithful answers]
      simp only [hfaithful, if_true]
      exact h
    · cases h

/-- Completing an entry only adds.  One answer touches at most its key's row, where it fills what
is absent and changes nothing that is present, and only as an answer about the row's version; it
reports so exactly when a field was filled.  Answers about one version, in any order and however
often, leave the first value offered for each field; answers about any versions leave the first
one offered by those about the row's.  A row that answers a HEAD keeps its answer. -/
theorem completion_only_adds (s : KeyIndexState) (bucket key : String) :
    (∀ fill, s.OnlyAdds bucket key fill (s.completeEntry bucket key fill).1
      (s.completeEntry bucket key fill).2) ∧
    (∀ (e : ObjEntry) fill, Filled e (e.complete fill) ∧
      (e.complete fill ≠ e → (e.etag = none ∨ e.etag = fill.etag) ∧
        ∀ m ∈ e.size, ∀ n ∈ fill.size, m = n)) ∧
    (∀ e, (s.view bucket key).row = some e → ∀ answers,
      ((s.completions (answers.map (bucket, key, ·))).view bucket key).row =
        some (e.firstOffered (e.taken answers)) ∧
      ∀ etag size, e.Of etag size → (∀ f ∈ answers, f.Of etag size) →
        ((s.completions (answers.map (bucket, key, ·))).view bucket key).row =
          some (e.firstOffered answers)) ∧
    ∀ out, headObjectFromIndex (s.buckets[bucket]?.map (·.keys)) key = .faithful out →
      ∀ answers, headObjectFromIndex ((s.completions answers).buckets[bucket]?.map (·.keys)) key =
        .faithful out := by
  refine ⟨completeEntry_onlyAdds s bucket key, ?_, ?_, fun out => head_completions⟩
  · intro e fill
    refine ⟨e.filled_complete fill, fun hchanged => ?_⟩
    rw [← ObjEntry.sameVersion_iff]
    by_contra hother
    exact hchanged (if_neg hother)
  · intro e hrow answers
    have htaken : ((s.completions (answers.map (bucket, key, ·))).view bucket key).row =
        some (e.firstOffered (e.taken answers)) := by
      rw [row_completions, hrow, Option.map_some, ObjEntry.foldl_complete]
    refine ⟨htaken, ?_⟩
    intro etag size he hanswers
    rw [htaken, he.taken hanswers]

end

section Sample
local instance completionLayout : Layout := sampleLayout

def sampleBareRow : ObjEntry := ⟨none, fromMicros 0, none, standardClass, none, none⟩

def sampleBare : KeyIndexState := (({} : KeyIndexState).applyPut "b" "k" sampleBareRow).2

/-- Two answers about one version: one with the size and the `ETag`, one with the content type. -/
def sampleSizedAnswer : EntryFill := ⟨some 3, some (.strong "x"), none, {}⟩

def sampleTypedAnswer : EntryFill := ⟨none, none, some "text/plain", {}⟩

def sampleAnswered (answers : List EntryFill) : Option ObjEntry :=
  ((sampleBare.completions (answers.map ("b", "k", ·))).view "b" "k").row

/-- Each is taken alone, and both in one order.  In the other order the second, which carries no
`ETag` to show to a row that has one by then, is passed over, and the content type that it is the
first to offer is lost. -/
theorem untagged_answer_passed_over :
    sampleAnswered [sampleSizedAnswer] = some (sampleBareRow.firstOffered [sampleSizedAnswer]) ∧
    sampleAnswered [sampleTypedAnswer] = some (sampleBareRow.firstOffered [sampleTypedAnswer]) ∧
    sampleAnswered [sampleTypedAnswer, sampleSizedAnswer] =
      some (sampleBareRow.firstOffered [sampleTypedAnswer, sampleSizedAnswer]) ∧
    (sampleBareRow.firstOffered [sampleSizedAnswer, sampleTypedAnswer]).contentType =
      some "text/plain" ∧
    (sampleAnswered [sampleSizedAnswer, sampleTypedAnswer]).bind (·.contentType) = none := by
  decide +kernel

end Sample

end S3Cache.Cache

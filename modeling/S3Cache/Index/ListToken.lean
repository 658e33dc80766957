import S3Cache.Lib.Postcard
import S3Cache.Index.ListPage

/-! The continuation tokens of pages served from the index (`list_token.rs`): what is minted, and
whose token a request carries. -/

namespace S3Cache.Index

/-- What tokens rest on: base64 in its URL-safe alphabet without padding, the checksum, the codec of
payloads, and the reader of the first layout's. -/
class TokenCodec where
  base64 : List UInt8 → String
  unbase64 : String → Option (List UInt8)
  unbase64_base64 : ∀ bytes, unbase64 (base64 bytes) = some bytes
  hash : List UInt8 → List UInt8
  length_hash : ∀ bytes, (hash bytes).length = 32
  toVec : TokenPayload → List UInt8
  fromSlice : List UInt8 → Option TokenPayload
  toVec_ne_nil : ∀ p, toVec p ≠ []
  fromSlice_toVec : ∀ p, (toVec p).length ≤ 2 ^ 64 → fromSlice (toVec p) = some p
  legacyFromSlice : List UInt8 → Option TokenPayload

def ownedNamespace : String := "s3cache:list-token:"
def v1Prefix : String := "s3cache:list-token:v1:"
def v2Prefix : String := "s3cache:list-token:v2:"
def checksumBytes : Nat := 16
def maxPayloadBytes : Nat := 16 * 1024

inductive Continuation where
  | absent
  | origin
  | minted (token cursor : String)

inductive TokenError where
  | malformed
  | requestMismatch

def strip (pre s : String) : Option String :=
  if startsWith s pre then some (String.ofList (s.toList.drop pre.toList.length)) else none

section
variable [TokenCodec]

def TokenPayload.toVec (p : TokenPayload) : List UInt8 := TokenCodec.toVec p

def mint (p : TokenPayload) : String :=
  v2Prefix ++ TokenCodec.base64 (p.toVec ++ (TokenCodec.hash p.toVec).take checksumBytes)

instance mintedText : TokenText := ⟨mint⟩

def layoutOf (token : String) : Option (String × Bool) :=
  match strip v2Prefix token with
  | some encoded => some (encoded, false)
  | none => (strip v1Prefix token).map (·, true)

def readPayload (legacy : Bool) (payload : List UInt8) : Option TokenPayload :=
  if legacy then TokenCodec.legacyFromSlice payload else TokenCodec.fromSlice payload

def classify (inp : ListObjectsV2Input) : Except TokenError Continuation :=
  match inp.continuationToken with
  | none => .ok .absent
  | some token =>
    if !startsWith token ownedNamespace then .ok .origin else
    match layoutOf token with
    | none => .error .malformed
    | some (encoded, legacy) =>
      match TokenCodec.unbase64 encoded with
      | none => .error .malformed
      | some framed =>
        if framed.length ≤ checksumBytes ∨ maxPayloadBytes + checksumBytes < framed.length then
          .error .malformed
        else
        let payload := framed.take (framed.length - checksumBytes)
        let checksum := framed.drop (framed.length - checksumBytes)
        if checksum ≠ (TokenCodec.hash payload).take checksumBytes then .error .malformed else
        match readPayload legacy payload with
        | none => .error .malformed
        | some decoded =>
          if decoded.bucket ≠ inp.bucket ∨ decoded.keyPrefix ≠ inp.keyPrefix ∨
              decoded.delimiter ≠ inp.delimiter then
            .error .requestMismatch
          else .ok (.minted token decoded.cursor)

end

theorem startsWith_append (pre s : String) : startsWith (pre ++ s) pre = true := by
  rw [startsWith, decide_eq_true_iff, String.toList_append]
  exact List.prefix_append _ _

theorem strip_append (pre s : String) : strip pre (pre ++ s) = some s := by
  rw [strip, if_pos (startsWith_append pre s), String.toList_append, List.drop_left,
    String.ofList_toList]

theorem strip_eq_some {pre s rest : String} (h : strip pre s = some rest) : s = pre ++ rest := by
  unfold strip at h
  split at h
  case isFalse => cases h
  next hpre =>
  cases h
  obtain ⟨tail, htail⟩ := of_decide_eq_true hpre
  rw [← htail, List.drop_left, ← String.toList_inj, String.toList_append, String.toList_ofList,
    htail]

section
variable [TokenCodec] {req : ListObjectsV2Input}

theorem classify_mint {p : TokenPayload} (h : req.continuationToken = some (mint p)) :
    classify req =
      if maxPayloadBytes < p.toVec.length then .error .malformed
      else if p.bucket ≠ req.bucket ∨ p.keyPrefix ≠ req.keyPrefix ∨ p.delimiter ≠ req.delimiter then
        .error .requestMismatch
      else .ok (.minted (mint p) p.cursor) := by
  have howned : startsWith (mint p) ownedNamespace = true := by
    have hv2 : v2Prefix = ownedNamespace ++ "v2:" := by decide
    rw [mint, hv2, String.append_assoc]
    exact startsWith_append _ _
  have hlayout : layoutOf (mint p) = some (TokenCodec.base64 (p.toVec ++
      (TokenCodec.hash p.toVec).take checksumBytes), false) := by
    rw [layoutOf, mint, strip_append]
  have hchecksum : ((TokenCodec.hash p.toVec).take checksumBytes).length = checksumBytes := by
    rw [List.length_take, TokenCodec.length_hash]
    rfl
  have hpos : 0 < p.toVec.length := List.length_pos_iff.mpr (TokenCodec.toVec_ne_nil p)
  simp only [classify, h, howned, Bool.not_true, Bool.false_eq_true, if_false, hlayout,
    TokenCodec.unbase64_base64, List.length_append, hchecksum, Nat.add_sub_cancel, List.take_left,
    List.drop_left, ne_eq, not_true_eq_false, readPayload]
  by_cases hlong : maxPayloadBytes < p.toVec.length
  · rw [if_pos hlong, if_pos (.inr (Nat.add_lt_add_right hlong _))]
  · have hfits : p.toVec.length ≤ 2 ^ 64 := (not_lt.mp hlong).trans (by decide)
    have hback : TokenCodec.fromSlice p.toVec = some p := TokenCodec.fromSlice_toVec p hfits
    rw [if_neg hlong, if_neg (by omega), hback]

structure ListObjectsV2Input.SameShape (req inp : ListObjectsV2Input) : Prop where
  bucket : inp.bucket = req.bucket
  keyPrefix : inp.keyPrefix = req.keyPrefix
  delimiter : inp.delimiter = req.delimiter

structure Validated (req : ListObjectsV2Input) (token cursor : String) : Prop where
  carried : req.continuationToken = some token
  owned : startsWith token ownedNamespace = true
  framed : ∃ legacy encoded payload, token = (if legacy then v1Prefix else v2Prefix) ++ encoded ∧
    TokenCodec.unbase64 encoded =
      some (payload ++ (TokenCodec.hash payload).take checksumBytes) ∧
    0 < payload.length ∧ payload.length ≤ maxPayloadBytes ∧
    readPayload legacy payload = some ⟨req.bucket, req.keyPrefix, req.delimiter, cursor⟩

omit [TokenCodec] in
theorem layoutOf_eq_some {token encoded : String} {legacy : Bool}
    (h : layoutOf token = some (encoded, legacy)) :
    token = (if legacy then v1Prefix else v2Prefix) ++ encoded := by
  unfold layoutOf at h
  split at h
  · next hstrip =>
    cases h
    exact strip_eq_some hstrip
  · obtain ⟨rest, hstrip, hrest⟩ := Option.map_eq_some_iff.mp h
    cases hrest
    exact strip_eq_some hstrip

theorem validated_of_classify {token cursor : String}
    (h : classify req = .ok (.minted token cursor)) : Validated req token cursor := by
  unfold classify at h
  split at h
  · cases h
  next carried hcarried =>
  split at h
  · cases h
  next howned =>
  split at h
  · cases h
  next encoded legacy hlayout =>
  split at h
  · cases h
  next framed hframed =>
  split at h
  · cases h
  next hlength =>
  simp only at h
  split at h
  · cases h
  next hchecksum =>
  split at h
  · cases h
  next decoded hread =>
  split at h
  · cases h
  next hshape =>
  simp only [not_or, not_not] at hchecksum hshape
  obtain ⟨hbucket, hprefix, hdelimiter⟩ := hshape
  cases h
  refine ⟨hcarried, by simpa using howned, legacy, encoded,
    framed.take (framed.length - checksumBytes), layoutOf_eq_some hlayout, ?_, ?_, ?_, ?_⟩
  · rw [hframed, ← hchecksum, List.take_append_drop]
  · rw [List.length_take]
    omega
  · rw [List.length_take]
    omega
  · rw [hread, ← hbucket, ← hprefix, ← hdelimiter]

/-- A minted token resumes exactly its own listing, at its own cursor, and is refused by every
other, as long as its payload is within what is read back; past that its own listing refuses it
too.  A token is taken for a minted one only when all of it matches, and one outside the
namespace is the origin's. -/
theorem minted_tokens_resume_iff (inp : ListObjectsV2Input) (cursor : String) :
    ((∀ req : ListObjectsV2Input, req.continuationToken = some (inp.encodeToken cursor) →
        (req.SameShape inp → classify req = .ok (.minted (inp.encodeToken cursor) cursor)) ∧
        (¬ req.SameShape inp → classify req = .error .requestMismatch)) ↔
      (TokenPayload.mk inp.bucket inp.keyPrefix inp.delimiter cursor).toVec.length ≤
        maxPayloadBytes) ∧
    (∀ req : ListObjectsV2Input, req.continuationToken = some (inp.encodeToken cursor) →
      ¬ req.SameShape inp → ∃ e, classify req = .error e) ∧
    (∀ req token cursor, classify req = .ok (.minted token cursor) → Validated req token cursor) ∧
    ∀ (req : ListObjectsV2Input) token, req.continuationToken = some token →
      startsWith token ownedNamespace = false → classify req = .ok .origin := by
  have hshape : ∀ req : ListObjectsV2Input, (inp.bucket ≠ req.bucket ∨
      inp.keyPrefix ≠ req.keyPrefix ∨ inp.delimiter ≠ req.delimiter) ↔ ¬ req.SameShape inp := by
    intro req
    rw [← not_and_or, ← not_and_or, not_iff_not]
    exact ⟨fun ⟨hb, hp, hd⟩ => ⟨hb, hp, hd⟩, fun h => ⟨h.bucket, h.keyPrefix, h.delimiter⟩⟩
  refine ⟨⟨?_, ?_⟩, ?_, fun _ _ _ => validated_of_classify, ?_⟩
  · intro h
    have hown := (h { inp with continuationToken := some (inp.encodeToken cursor) } rfl).1
      ⟨rfl, rfl, rfl⟩
    rw [classify_mint rfl] at hown
    by_contra hlong
    rw [if_pos (not_le.mp hlong)] at hown
    cases hown
  · intro hshort req hcarried
    rw [classify_mint hcarried, if_neg (not_lt.mpr hshort)]
    refine ⟨?_, ?_⟩
    · intro hsame
      rw [if_neg ((hshape req).not.mpr (not_not.mpr hsame))]
      rfl
    · intro hother
      rw [if_pos ((hshape req).mpr hother)]
  · intro req hcarried hother
    rw [classify_mint hcarried, if_pos ((hshape req).mpr hother)]
    split
    · exact ⟨_, rfl⟩
    · exact ⟨_, rfl⟩
  · intro req token hcarried hforeign
    simp only [classify, hcarried, hforeign, Bool.not_false, if_true]

end

/-! Postcard payloads, to run the tokens with. -/

namespace TokenPayload

def fields (p : TokenPayload) : String × Option String × Option String × String :=
  (p.bucket, p.keyPrefix, p.delimiter, p.cursor)

def format : Postcard.Format (String × Option String × Option String × String) :=
  .pair .text (.pair (.option .text) (.pair (.option .text) .text))

def write (p : TokenPayload) : List UInt8 := format.write p.fields

def read (bytes : List UInt8) : Option TokenPayload :=
  (format.fromSlice bytes).map fun (bucket, keyPrefix, delimiter, cursor) =>
    ⟨bucket, keyPrefix, delimiter, cursor⟩

theorem option_lt_length {s : String} {o : Option String} (h : s ∈ o) :
    s.utf8ByteSize < ((Postcard.Format.option .text).write o).length := by
  cases h
  have hs := Postcard.Format.length_text s
  rw [Postcard.Format.length_option_some]
  omega

theorem texts_lt_length (p : TokenPayload) :
    p.bucket.utf8ByteSize < p.write.length ∧
    (∀ s ∈ p.keyPrefix, s.utf8ByteSize < p.write.length) ∧
    (∀ s ∈ p.delimiter, s.utf8ByteSize < p.write.length) ∧
    p.cursor.utf8ByteSize < p.write.length := by
  have hbucket := Postcard.Format.length_text p.bucket
  have hcursor := Postcard.Format.length_text p.cursor
  simp only [write, fields, format, Postcard.Format.length_pair]
  refine ⟨by omega, ?_, ?_, by omega⟩ <;>
  · intro s hs
    have hlt := option_lt_length hs
    omega

theorem read_write {p : TokenPayload} (h : p.write.length ≤ 2 ^ 64) :
    read p.write = some p := by
  obtain ⟨hbucket, hprefix, hdelimiter, hcursor⟩ := p.texts_lt_length
  have hoption : ∀ o : Option String, (∀ s ∈ o, s.utf8ByteSize < p.write.length) →
      (Postcard.Format.option .text).Reads o := by
    intro o ho
    refine Postcard.Format.option_reads fun s hs => ?_
    exact Postcard.Format.text_reads ((ho s hs).trans_le h)
  have hreads : format.Reads p.fields :=
    Postcard.Format.pair_reads (Postcard.Format.text_reads (hbucket.trans_le h))
      (Postcard.Format.pair_reads (hoption _ hprefix)
        (Postcard.Format.pair_reads (hoption _ hdelimiter)
          (Postcard.Format.text_reads (hcursor.trans_le h))))
  rw [read, write, hreads.fromSlice]
  rfl

end TokenPayload

section Sample
local instance tokenLayout : Fleet.Layout := Fleet.sampleLayout

@[reducible] def sampleTokenCodec : TokenCodec where
  base64 bytes := String.ofList (bytes.map fun b => Char.ofNat b.toNat)
  unbase64 s := some (s.toList.map fun c => UInt8.ofNat c.toNat)
  unbase64_base64 bytes := by
    have hbyte : ∀ b : UInt8, UInt8.ofNat (Char.ofNat b.toNat).toNat = b := by
      intro b
      have hlt := b.toNat_lt
      rw [Char.toNat_ofNat, if_pos (.inl (by omega)), UInt8.ofNat_toNat]
    rw [String.toList_ofList, List.map_map, Option.some_inj]
    exact (List.map_congr_left fun b _ => hbyte b).trans (List.map_id _)
  hash := ByteCodec.polynomial 32
  length_hash := ByteCodec.length_polynomial 32
  toVec := TokenPayload.write
  fromSlice := TokenPayload.read
  toVec_ne_nil p h := absurd p.texts_lt_length.1 (by simp [h])
  fromSlice_toVec _ := TokenPayload.read_write
  legacyFromSlice _ := none

local instance tokenCodec : TokenCodec := sampleTokenCodec

def sampleText (n : Nat) : String := String.ofList (List.replicate n 'x')

theorem length_sampleText (n : Nat) : (sampleText n).toList.length = n := by
  rw [sampleText, String.toList_ofList, List.length_replicate]

theorem utf8ByteSize_sampleText (n : Nat) : (sampleText n).utf8ByteSize = n := by
  rw [sampleText, String.utf8ByteSize_ofList]
  induction n with
  | zero => rfl
  | succ n ih =>
    rw [List.replicate_succ, String.utf8Len_cons, ih]
    rfl

def samplePaged (delimiter : String) : ListObjectsV2Input :=
  { bucket := "b", delimiter := some delimiter, maxKeys := some 1 }

def sampleSized : ObjEntry where
  size := some 1
  lastModified := fromMicros 0
  etag := none
  storageClass := standardClass
  contentType := none
  objMeta := none

def sampleTwoRows : KeyRows := (({} : KeyRows).insert "a" sampleSized).insert "c" sampleSized

theorem rollUp_eq_none {pre d key : String} (h : key.toList.length < d.toList.length) :
    rollUp pre (some d) key = none := by
  rw [rollUp, Option.map_eq_none_iff]
  cases hcut : Lex.cut d.toList (key.toList.drop pre.toList.length) with
  | none => rfl
  | some c =>
    have hsuffix := (Lex.isSuffix_of_cut hcut).length_le
    have hprefix := (Lex.isPrefix_of_cut hcut).length_le
    rw [List.length_drop] at hprefix
    omega

theorem listPage_samplePaged {d : String} (ha : rollUp "" (some d) "a" = none)
    (hc : rollUp "" (some d) "c" = none) :
    (listPage (some sampleTwoRows) (samplePaged d) none).map Page.cursor = some (some "a") := by
  have hlower : (samplePaged d).lower none = .unbounded := rfl
  have hrows : sampleTwoRows.rangeFrom .unbounded = [("a", sampleSized), ("c", sampleSized)] := by
    decide +kernel
  have hstarts : ∀ key, startsWith key "" = true := fun key => decide_eq_true List.nil_prefix
  have hmax : (samplePaged d).max = 1 := rfl
  have hpre : (samplePaged d).pre = "" := rfl
  have hdelimiter : (samplePaged d).delimiter = some d := rfl
  simp only [listPage, hmax, hpre, hdelimiter, hlower, hrows, scan, hstarts, ha, hc, listed]
  rfl

/-- The next page of a listing by a delimiter as long as a payload may be is refused with the
token that the page before gave. -/
theorem minted_token_refused :
    let inp := samplePaged (sampleText maxPayloadBytes)
    ∃ output token, listObjectsV2FromIndex (some sampleTwoRows) inp none = some output ∧
      output.nextContinuationToken = some token ∧
      classify { inp with continuationToken := some token } = .error .malformed := by
  have hshort : ∀ key : String, key.toList.length = 1 →
      rollUp "" (some (sampleText maxPayloadBytes)) key = none := by
    intro key hkey
    refine rollUp_eq_none ?_
    rw [hkey, length_sampleText]
    decide
  obtain ⟨page, hpage, hcursor⟩ := Option.map_eq_some_iff.mp
    (listPage_samplePaged (hshort "a" rfl) (hshort "c" rfl))
  generalize hd : sampleText maxPayloadBytes = d at *
  refine ⟨page.output (samplePaged d), (samplePaged d).encodeToken "a", ?_, ?_, ?_⟩
  · rw [listObjectsV2FromIndex, hpage]
    rfl
  · rw [Page.output, hcursor]
    rfl
  · obtain ⟨-, -, hdelimiter, -⟩ := (TokenPayload.mk "b" none (some d) "a").texts_lt_length
    have hlength := hdelimiter d rfl
    rw [← hd, utf8ByteSize_sampleText, hd] at hlength
    rw [classify_mint rfl]
    exact if_pos hlength

end Sample

end S3Cache.Index

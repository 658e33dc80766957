import S3Cache.Lib.Lex
import S3Cache.Index.State

/-! `ListObjectsV2` answered from a bucket's rows (`list_objects_v2_from_index` in `index.rs`), and
the cursor it resumes from (`list_token.rs`). -/

namespace S3Cache.Index

structure ListObjectsV2Input where
  bucket : String
  keyPrefix : Option String := none
  delimiter : Option String := none
  maxKeys : Option Int := none
  startAfter : Option String := none
  continuationToken : Option String := none

structure Object where
  key : String
  size : Int64
  lastModified : SystemTime
  etag : Option ETag
  storageClass : ObjectStorageClass
  deriving DecidableEq

structure ListObjectsV2Output where
  name : String
  keyPrefix : String
  maxKeys : Nat
  keyCount : Nat
  isTruncated : Bool
  continuationToken : Option String
  nextContinuationToken : Option String
  contents : Option (List Object)
  commonPrefixes : Option (List String)
  delimiter : Option String
  startAfter : Option String
  deriving DecidableEq

structure TokenPayload where
  bucket : String
  keyPrefix : Option String
  delimiter : Option String
  cursor : String

/-- The text of a minted token. -/
class TokenText where
  text : TokenPayload → String

namespace ListObjectsV2Input

variable (inp : ListObjectsV2Input)

def pre : String := inp.keyPrefix.getD ""

def max : Nat := (Int.toNat (Min.min 1000 (Max.max 0 (inp.maxKeys.getD 1000))))

def encodeToken [TokenText] (cursor : String) : String :=
  TokenText.text ⟨inp.bucket, inp.keyPrefix, inp.delimiter, cursor⟩

end ListObjectsV2Input

inductive Bound where
  | unbounded
  | included (key : String)
  | excluded (key : String)

def Bound.admits : Bound → String → Bool
  | unbounded, _ => true
  | included bound, key => bound ≤ key
  | excluded bound, key => bound < key

def KeyRows.rangeFrom (r : KeyRows) (lower : Bound) : List (String × ObjEntry) :=
  r.rows.filter fun row => lower.admits row.1

def Bound.seek (pre : String) : Bound → Bound
  | excluded after =>
    if pre ≤ after then excluded after else if pre ≠ "" then included pre else excluded after
  | lower => if pre ≠ "" then included pre else lower

/-- Where the scan starts: past the cursor, or else past `start-after`. -/
def ListObjectsV2Input.lower (inp : ListObjectsV2Input) (resumeAfter : Option String) : Bound :=
  Bound.seek inp.pre <|
    match resumeAfter with
    | some cursor => .excluded cursor
    | none =>
      match inp.startAfter with
      | some after => .excluded after
      | none => .unbounded

def startsWith (key pre : String) : Bool := pre.toList <+: key.toList

def rollUp (pre : String) (delimiter : Option String) (key : String) : Option String :=
  match delimiter with
  | none => none
  | some d =>
    (Lex.cut d.toList (key.toList.drop pre.toList.length)).map fun c =>
      String.ofList (pre.toList ++ c)

structure Scan where
  contents : List Object := []
  common : Std.ExtTreeSet String := ∅
  truncated : Bool := false
  lastScanned : Option String := none

def Scan.count (s : Scan) : Nat := s.contents.length + s.common.size

def listed (row : String × ObjEntry) : Option Object :=
  row.2.size.map fun size =>
    { key := row.1, size, lastModified := row.2.lastModified, etag := row.2.etag
      storageClass := row.2.storageClass }

def scan (max : Nat) (pre : String) (delimiter : Option String) :
    List (String × ObjEntry) → Scan → Option Scan
  | [], s => some s
  | row :: rows, s =>
    if startsWith row.1 pre then
      match rollUp pre delimiter row.1 with
      | some cp =>
        if cp ∈ s.common then scan max pre delimiter rows { s with lastScanned := some row.1 }
        else if max ≤ s.count then some { s with truncated := true }
        else scan max pre delimiter rows
          { s with common := s.common.insert cp, lastScanned := some row.1 }
      | none =>
        if max ≤ s.count then some { s with truncated := true }
        else
          match listed row with
          | some object => scan max pre delimiter rows
              { s with contents := s.contents ++ [object], lastScanned := some row.1 }
          | none => none
    else if pre < row.1 then some s
    else scan max pre delimiter rows s

structure Page where
  contents : List Object
  common : List String
  truncated : Bool
  cursor : Option String
  deriving DecidableEq

def Scan.page (s : Scan) : Page where
  contents := s.contents
  common := s.common.toList
  truncated := s.truncated
  cursor := if s.truncated then s.lastScanned else none

def listPage (keys : Option KeyRows) (inp : ListObjectsV2Input) (resumeAfter : Option String) :
    Option Page :=
  match keys with
  | some keys =>
    if 0 < inp.max then
      (scan inp.max inp.pre inp.delimiter (keys.rangeFrom (inp.lower resumeAfter)) {}).map Scan.page
    else some (Scan.page {})
  | none => some (Scan.page {})

def Page.output [TokenText] (page : Page) (inp : ListObjectsV2Input) : ListObjectsV2Output where
  name := inp.bucket
  keyPrefix := inp.pre
  maxKeys := inp.max
  keyCount := page.contents.length + page.common.length
  isTruncated := page.truncated
  continuationToken := inp.continuationToken
  nextContinuationToken := page.cursor.map inp.encodeToken
  contents := if page.contents = [] then none else some page.contents
  commonPrefixes := if page.common = [] then none else some page.common
  delimiter := inp.delimiter
  startAfter := inp.startAfter

def listObjectsV2FromIndex [TokenText] (keys : Option KeyRows) (inp : ListObjectsV2Input)
    (resumeAfter : Option String) : Option ListObjectsV2Output :=
  (listPage keys inp resumeAfter).map (·.output inp)

def KeyIndexState.listFromIndex [TokenText] (s : KeyIndexState) (inp : ListObjectsV2Input)
    (resumeAfter : Option String) : Option ListObjectsV2Output :=
  if (s.buckets[inp.bucket]?).any (!·.uncertainKeys.isEmpty) then none
  else listObjectsV2FromIndex (s.buckets[inp.bucket]?.map (·.keys)) inp resumeAfter

structure OriginEnvelope where
  continuationToken : String
  startAfter : Option String

def rewriteForOrigin (inp : ListObjectsV2Input) (token cursor : String) :
    ListObjectsV2Input × OriginEnvelope :=
  ({ inp with startAfter := some cursor, continuationToken := none }, ⟨token, inp.startAfter⟩)

/-- Ask for page after page, each from the cursor of the one before, until one is not truncated.
The `n`th page is computed from the `n`th row set, and the walk takes as many pages as there are
row sets. -/
def walk (inp : ListObjectsV2Input) : Option String → List (Option KeyRows) → Option (List Page)
  | _, [] => none
  | resumeAfter, keys :: later =>
    (listPage keys inp resumeAfter).bind fun page =>
      if page.truncated then (walk inp page.cursor later).map (page :: ·)
      else if later.isEmpty then some [page] else none

end S3Cache.Index

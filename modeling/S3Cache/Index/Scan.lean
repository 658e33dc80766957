import S3Cache.Fleet.Wire
import S3Cache.Index.Rebuild

/-! The exhaustive LIST scan of a bucket (`index/scan.rs`): adjacent key ranges scanned side by side,
each a chain of pages folded into the rebuild's generation.  The boundaries of the ranges are
hints, so any sorted prefixes stand for what the discovery finds. -/

namespace S3Cache.Index

open Fleet

structure ListedObject where
  key : Option String := none
  size : Option Int64 := none
  lastModified : Option Int := none
  etag : Option String := none
  storageClass : Option String := none

def ListedObject.entry [ETagParser] (o : ListedObject) (now : SystemTime) : ObjEntry where
  size := o.size
  lastModified := (o.lastModified.bind originTime).getD now
  etag := o.etag.bind ETagParser.parse
  storageClass := o.storageClass.elim standardClass .mk
  contentType := none
  objMeta := none

structure OriginPage where
  contents : List ListedObject
  isTruncated : Option Bool
  nextContinuationToken : Option String

structure OriginListRequest where
  bucket : String
  continuationToken : Option String
  startAfter : Option String

structure KeyRange where
  lower : Option String
  upper : Option String

def KeyRange.contains (range : KeyRange) (key : String) : Bool :=
  range.lower.all (· < key) && range.upper.all (key ≤ ·)

def rangesFrom (lower : Option String) : List String → List KeyRange
  | [] => [⟨lower, none⟩]
  | boundary :: boundaries => ⟨lower, some boundary⟩ :: rangesFrom (some boundary) boundaries

def ranges (boundaries : List String) : List KeyRange := rangesFrom none boundaries

/-- `none` is the panic of an index out of bounds. -/
def chooseBoundaries (prefixes : List String) (workers : Nat) : Option (List String) :=
  let rangeCount := min workers (prefixes.length + 1)
  (List.range' 1 (rangeCount - 1)).mapM fun part => prefixes[part * prefixes.length / rangeCount]?

inductive ScanError (ε : Type) where
  | origin (e : ε)
  | omittedKey
  | outOfOrder
  | superseded
  | emptyPages
  | omittedToken
  | repeatedToken
  | pending
  | panicked

structure RangeScan where
  range : KeyRange
  token : Option String := none
  previous : Option String := none
  emptyPages : Nat := 0
  found : Nat := 0
  finished : Bool := false
  page : Nat := 0
  folded : List (String × ObjEntry) := []

/-- What a scan meets outside the index: the prefixes discovered, the workers configured, the
clock when a key without a time is read, and the order in which the ranges are polled. -/
structure ScanRun where
  prefixes : List String
  workers : Nat
  now : String → SystemTime
  schedule : List Nat

section
variable {ε : Type} [ETagParser]

def KeyRange.read (range : KeyRange) (now : String → SystemTime) (previous : Option String) :
    List ListedObject → Except (ScanError ε) (Option String × List (String × ObjEntry) × Bool)
  | [] => .ok (previous, [], false)
  | o :: contents =>
    match o.key with
    | none => .error .omittedKey
    | some key =>
      if previous.any (key ≤ ·) || range.lower.any (key ≤ ·) then .error .outOfOrder
      else if range.upper.any (· < key) then .ok (some key, [], true)
      else
        match range.read now (some key) contents with
        | .ok (previous, rows, past) => .ok (previous, (key, o.entry (now key)) :: rows, past)
        | .error e => .error e

/- An origin may hand out a token twice, so a request alone does not say where its chain stands:
`list` is told the chain, by where it starts, and how many pages it has had. -/
variable [Layout] (list : Option String → Nat → OriginListRequest → Except ε OriginPage)
  (bucket : String) (generation : Nat) (now : String → SystemTime)

def RangeScan.advance (r : RangeScan) (s : KeyIndexState) :
    Except (ScanError ε) RangeScan × KeyIndexState :=
  let request : OriginListRequest :=
    { bucket
      continuationToken := r.token
      startAfter := if r.token.isSome then none else r.range.lower }
  match list r.range.lower r.page request with
  | .error e => (.error (.origin e), s)
  | .ok page =>
    match r.range.read now r.previous page.contents with
    | .error e => (.error e, s)
    | .ok (previous, rows, past) =>
      match s.syncListingIntoGeneration bucket generation rows with
      | (none, s) => (.error .superseded, s)
      | (some pageLen, s) =>
        let r := { r with
          previous, found := r.found + pageLen, page := r.page + 1, folded := r.folded ++ rows }
        if past || !page.isTruncated.getD false then (.ok { r with finished := true }, s)
        else
          let emptyPages := if page.contents.isEmpty then r.emptyPages + 1 else 0
          if 8 < emptyPages then (.error .emptyPages, s)
          else
            match page.nextContinuationToken with
            | none => (.error .omittedToken, s)
            | some next =>
              if r.token = some next then (.error .repeatedToken, s)
              else (.ok { r with token := some next, emptyPages }, s)

/-- The joined scans in the order in which they are polled; the first error ends them all. -/
def joinScans : List Nat → List RangeScan → KeyIndexState →
    Except (ScanError ε) (List RangeScan) × KeyIndexState
  | [], scans, s => (.ok scans, s)
  | i :: schedule, scans, s =>
    match scans[i]? with
    | none => joinScans schedule scans s
    | some r =>
      if r.finished then joinScans schedule scans s
      else
        match r.advance list bucket generation now s with
        | (.error e, s) => (.error e, s)
        | (.ok r, s) => joinScans schedule (scans.set i r) s

def startScans (boundaries : List String) : List RangeScan :=
  (ranges boundaries).map fun range => { range }

def syncBucketGeneration (run : ScanRun) (s : KeyIndexState) :
    Except (ScanError ε) Nat × KeyIndexState :=
  match chooseBoundaries run.prefixes run.workers with
  | none => (.error .panicked, s)
  | some boundaries =>
    match joinScans list bucket generation run.now run.schedule (startScans boundaries) s with
    | (.error e, s) => (.error e, s)
    | (.ok scans, s) =>
      if scans.all (·.finished) then
        match s.finishBucketSyncGeneration bucket generation with
        | (true, s) => (.ok (scans.map (·.found)).sum, s)
        | (false, s) => (.error .superseded, s)
      else (.error .pending, s)

end

structure PageCut (listing : List (String × ListedObject)) where
  pages : List (List (String × ListedObject))
  token : Nat → String
  closing : Option Bool := some false
  whole : pages.flatten = listing
  pages_ne_nil : pages ≠ []
  token_ne : ∀ n, token n ≠ token (n + 1)
  closing_ne : closing ≠ some true
  gaps : ∀ n, n + 9 < pages.length → ∃ m < 9, pages[n + m]? ≠ some []

def PageCut.answer {listing : List (String × ListedObject)} (cut : PageCut listing) (n : Nat) :
    OriginPage where
  contents := (cut.pages[n]?.getD []).map fun o => { o.2 with key := some o.1 }
  isTruncated := if n + 1 < cut.pages.length then some true else cut.closing
  nextContinuationToken := if n + 1 < cut.pages.length then some (cut.token (n + 1)) else none

def objectsAfter (objects : OrdMap ListedObject) (cursor : Option String) :
    List (String × ListedObject) := objects.toList.filter fun o => cursor.all (· < o.1)

inductive OriginError where
  | noSuchBucket
  | invalidRequest

structure Origin where
  objects : String → Option (OrdMap ListedObject)
  cut : ∀ bucket lower, PageCut (objectsAfter ((objects bucket).getD ∅) lower)

def Origin.list (origin : Origin) (chain : Option String) (page : Nat)
    (request : OriginListRequest) : Except OriginError OriginPage :=
  match origin.objects request.bucket with
  | none => .error .noSuchBucket
  | some _ =>
    let cut := origin.cut request.bucket chain
    let (token, start) := if page = 0 then (none, chain) else (some (cut.token page), none)
    if request.continuationToken = token ∧ request.startAfter = start then .ok (cut.answer page)
    else .error .invalidRequest

end S3Cache.Index

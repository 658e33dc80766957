import Mathlib
import S3Cache.Time

namespace S3Cache

abbrev OrdMap (V : Type) := Std.ExtTreeMap String V

inductive ETag where
  | strong (value : String)
  | weak (value : String)
  deriving DecidableEq

structure ObjectStorageClass where
  name : String
  deriving DecidableEq

namespace Index

def standardClass : ObjectStorageClass := ⟨"STANDARD"⟩

structure ObjMeta where
  cacheControl : Option String := none
  contentDisposition : Option String := none
  contentEncoding : Option String := none
  contentLanguage : Option String := none
  metadata : Option (OrdMap String) := none
  deriving DecidableEq

structure ObjEntry where
  size : Option Int64
  lastModified : SystemTime
  etag : Option ETag
  storageClass : ObjectStorageClass
  contentType : Option String
  objMeta : Option ObjMeta
  deriving DecidableEq

def ObjEntry.isFaithful (e : ObjEntry) : Bool :=
  e.size.isSome && e.etag.isSome && e.contentType.isSome && e.objMeta.isSome

def ObjEntry.skeletal (e : ObjEntry) : ObjEntry :=
  { e with contentType := none, objMeta := none }

@[simp] theorem ObjEntry.skeletal_lastModified (e : ObjEntry) :
    e.skeletal.lastModified = e.lastModified := rfl

def saturatingAdd (a b : Nat) : Nat := min (a + b) (2 ^ 64 - 1)

structure IndexStats where
  objects : Nat := 0
  logicalBytes : Nat := 0
  deriving DecidableEq, Inhabited

def IndexStats.forEntry (e : ObjEntry) : IndexStats where
  objects := 1
  logicalBytes := (e.size.map Int64.toNatClampNeg).getD 0

def IndexStats.replace (s previous current : IndexStats) : IndexStats where
  objects := saturatingAdd (s.objects - previous.objects) current.objects
  logicalBytes := saturatingAdd (s.logicalBytes - previous.logicalBytes) current.logicalBytes

structure EntryFill where
  size : Option Int64
  etag : Option ETag
  contentType : Option String
  objMeta : ObjMeta

inductive Completion where
  | notIndexed
  | alreadyComplete
  | completed
  | otherVersion
  deriving DecidableEq

def ObjEntry.sameVersion (e : ObjEntry) (fill : EntryFill) : Bool :=
  (match e.etag, fill.etag with
    | some indexed, some answered => decide (indexed = answered)
    | some _, none => false
    | none, _ => true) &&
  (e.size.isNone || fill.size.isNone || decide (e.size = fill.size))

def ObjEntry.fill (e : ObjEntry) (fill : EntryFill) : ObjEntry where
  size := e.size <|> fill.size
  lastModified := e.lastModified
  etag := e.etag <|> fill.etag
  storageClass := e.storageClass
  contentType := e.contentType <|> fill.contentType
  objMeta := e.objMeta <|> some fill.objMeta

def ObjEntry.filled (e : ObjEntry) (fill : EntryFill) : Bool :=
  (e.size.isNone && fill.size.isSome) || (e.etag.isNone && fill.etag.isSome) ||
  (e.contentType.isNone && fill.contentType.isSome) || e.objMeta.isNone

@[simp] theorem ObjEntry.fill_lastModified (e : ObjEntry) (f : EntryFill) :
    (e.fill f).lastModified = e.lastModified := rfl

theorem ObjEntry.fill_of_not_filled {e : ObjEntry} {f : EntryFill} (h : e.filled f = false) :
    e.fill f = e := by
  obtain ⟨size, time, etag, storage, ctype, m⟩ := e
  simp only [ObjEntry.filled, Bool.or_eq_false_iff, Bool.and_eq_false_iff] at h
  obtain ⟨⟨⟨hs, he⟩, hc⟩, hm⟩ := h
  cases size <;> cases etag <;> cases ctype <;> cases m <;> simp_all [ObjEntry.fill]

end Index

end S3Cache

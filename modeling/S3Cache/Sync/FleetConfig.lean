import Mathlib.Data.List.Sort
import Mathlib.Data.List.Dedup
import S3Cache.Lib.Fallible
import S3Cache.Lib.Lex
import S3Cache.Lib.Spelled

/-! The fleet's address book and the scope it names (`sync/fleet/config.rs`). -/

namespace S3Cache.Sync

open Fallible Spelled

def maxPeers : Nat := 256
def maxIdBytes : Nat := 256
def maxAddressBytes : Nat := 512
def maxBuckets : Nat := 4096
def maxScopeBytes : Nat := 8192

structure SocketAddr where
  ip : String
  port : Nat
  deriving DecidableEq

structure FleetConfig where
  bind : SocketAddr
  originId : String
  originEndpoint : String
  originRegion : String
  buckets : List String
  peers : List (String × String)
  deriving DecidableEq

inductive FleetConfigError
  | partialBook
  | invalidBind
  | invalidAddress
  | incompleteBook
  | capacity
  | bucketInventory
  deriving DecidableEq

/-! ### Texts -/

def splitOnce (pattern text : String) : Option (String × String) :=
  (Lex.find pattern.toList text.toList).map fun i =>
    (String.ofList (text.toList.take i), String.ofList (text.toList.drop (i + pattern.length)))

def rsplitOnce (sep : Char) (text : String) : Option (String × String) :=
  (Lex.find [sep] text.toList.reverse).map fun i =>
    (String.ofList (text.toList.reverse.drop (i + 1)).reverse,
      String.ofList (text.toList.reverse.take i).reverse)

def splitAll (sep : Char) (text : String) : List String :=
  (text.toList.splitOn sep).map String.ofList

def isWhitespace (c : Char) : Bool :=
  let n := c.toNat
  (9 ≤ n && n ≤ 13) || n == 32 || n == 0x85 || n == 0xA0 || n == 0x1680 ||
    (0x2000 ≤ n && n ≤ 0x200A) || n == 0x2028 || n == 0x2029 || n == 0x202F || n == 0x205F ||
    n == 0x3000

def parseU16 (text : String) : Option Nat :=
  let digits := match text.toList with
    | '+' :: rest => rest
    | chars => chars
  if digits.isEmpty || !digits.all Char.isDigit then none
  else
    let n := Nat.ofDigitChars 10 digits 0
    if n < 2 ^ 16 then some n else none

def validAddress (value : String) : Bool :=
  match rsplitOnce ':' value with
  | none => false
  | some (host, port) =>
    !host.isEmpty && !host.toList.any isWhitespace && value.utf8ByteSize ≤ maxAddressBytes &&
      (parseU16 port).any (· ≠ 0)

def safeOriginEndpoint (value : String) : Bool :=
  match splitOnce "://" value with
  | none => false
  | some (scheme, address) =>
    if !(scheme == "http" || scheme == "https") || value.toList.contains '?' ||
      value.toList.contains '#' then false
    else
      let authority := (splitAll '/' address).headD ""
      !authority.isEmpty && !authority.toList.contains '@' && !authority.toList.any isWhitespace

def btreeSet (names : List String) : List String := names.dedup.insertionSort (· ≤ ·)

/-! ### The address book -/

structure FleetInput where
  bind : Option String
  advertise : Option String
  peers : Option String
  originId : Option String
  originEndpoint : String
  originRegion : String
  nodeId : String
  buckets : List String

def parsePeer (parsed : List (String × String)) (raw : String) :
    Except FleetConfigError (List (String × String)) :=
  if maxPeers ≤ parsed.length then .error .capacity
  else
    match splitOnce "=" raw with
    | none => .error .invalidAddress
    | some (name, address) =>
      if name.isEmpty || maxIdBytes < name.utf8ByteSize || name.toList.any isWhitespace ||
        !validAddress address || (parsed.map Prod.fst).contains name then .error .invalidAddress
      else .ok (parsed ++ [(name, address)])

namespace FleetConfig

/-- `none` when no value is given.  `parseSocketAddr` is the standard library's. -/
def parse (parseSocketAddr : String → Option SocketAddr) (input : FleetInput) :
    Except FleetConfigError (Option FleetConfig) :=
  if !(input.bind.isSome || input.advertise.isSome || input.peers.isSome || input.originId.isSome)
  then .ok none
  else
    match input.bind, input.advertise, input.peers, input.originId with
    | some bind, some advertise, some peers, some originId =>
      if originId.isEmpty || maxAddressBytes < originId.utf8ByteSize ||
        !safeOriginEndpoint input.originEndpoint ||
        maxAddressBytes < input.originEndpoint.utf8ByteSize ||
        input.originRegion.isEmpty || maxIdBytes < input.originRegion.utf8ByteSize then
        .error .invalidAddress
      else
        match parseSocketAddr bind with
        | none => .error .invalidBind
        | some bind =>
          if bind.port = 0 || !validAddress advertise then .error .invalidAddress
          else if input.buckets.isEmpty || maxBuckets < input.buckets.length then
            .error .bucketInventory
          else
            let uniqueBuckets := btreeSet input.buckets
            if uniqueBuckets.length ≠ input.buckets.length ||
              uniqueBuckets.any fun name => name.isEmpty || maxIdBytes < name.utf8ByteSize then
              .error .bucketInventory
            else do
              let parsed ← (splitAll ',' peers).foldlM parsePeer []
              if parsed.isEmpty || !parsed.contains (input.nodeId, advertise) then
                .error .incompleteBook
              else
                return some
                  { bind, originId, originEndpoint := input.originEndpoint
                    originRegion := input.originRegion, buckets := uniqueBuckets, peers := parsed }
    | _, _, _, _ => .error .partialBook

end FleetConfig

/-! ### The scope -/

structure BootstrapScope where
  domain : String
  partition : String
  deriving DecidableEq

def appendComponent (out value : String) : Except FleetConfigError String :=
  if maxScopeBytes < out.utf8ByteSize + value.utf8ByteSize + 32 then .error .capacity
  else .ok (out ++ lengthed value)

namespace FleetConfig

def scope (config : FleetConfig) (buckets : List String) :
    Except FleetConfigError BootstrapScope :=
  let sorted := buckets.insertionSort (· ≤ ·)
  if sorted ≠ config.buckets || sorted.isEmpty || maxBuckets < sorted.length ||
    (sorted.zip sorted.tail).any (fun pair => pair.1 = pair.2) ||
    sorted.any fun bucket => bucket.isEmpty || maxIdBytes < bucket.utf8ByteSize then
    .error .bucketInventory
  else do
    let domain ← [config.originId, config.originEndpoint, config.originRegion,
      "s3cache-index-v1"].foldlM appendComponent ""
    let partition ← sorted.foldlM appendComponent ""
    if maxScopeBytes < domain.utf8ByteSize + partition.utf8ByteSize then .error .capacity
    else return ⟨domain, partition⟩

end FleetConfig

/-! ### What a scope says -/

theorem mem_btreeSet {names : List String} {name : String} :
    name ∈ btreeSet names ↔ name ∈ names := by
  rw [btreeSet, List.mem_insertionSort, List.mem_dedup]

theorem btreeSet_eq_iff {a b : List String} :
    btreeSet a = btreeSet b ↔ ∀ name, name ∈ a ↔ name ∈ b := by
  constructor
  · intro h name
    rw [← mem_btreeSet, h, mem_btreeSet]
  · intro h
    have hdedup : a.dedup.Perm b.dedup := by
      rw [List.perm_ext_iff_of_nodup a.nodup_dedup b.nodup_dedup]
      intro name
      rw [List.mem_dedup, List.mem_dedup, h]
    have hsorted : (btreeSet a).Perm (btreeSet b) :=
      (List.perm_insertionSort _ _).trans (hdedup.trans (List.perm_insertionSort _ _).symm)
    exact hsorted.eq_of_pairwise (fun _ _ _ _ => le_antisymm) (List.pairwise_insertionSort _ _)
      (List.pairwise_insertionSort _ _)

theorem foldlM_appendComponent {values : List String} {start out : String}
    (h : values.foldlM appendComponent start = .ok out) : out = start ++ lengthedAll values := by
  induction values generalizing start with
  | nil =>
    cases h
    exact (String.append_empty).symm
  | cons value rest ih =>
    rw [List.foldlM_cons, bind_eq_ok] at h
    obtain ⟨next, hnext, hrest⟩ := h
    rw [appendComponent, ite_error_eq_ok] at hnext
    obtain ⟨-, hnext⟩ := hnext
    cases hnext
    rw [ih hrest, String.append_assoc]
    rfl

theorem foldlM_appendComponent_error {values : List String} {start : String}
    {e : FleetConfigError} (h : values.foldlM appendComponent start = .error e) :
    e = .capacity := by
  induction values generalizing start with
  | nil => cases h
  | cons value rest ih =>
    rw [List.foldlM_cons, appendComponent] at h
    split at h
    · cases h
      rfl
    · exact ih h

theorem zip_tail_ne {names : List String} (h : names.Nodup) :
    ∀ pair ∈ names.zip names.tail, pair.1 ≠ pair.2 := by
  induction names with
  | nil => nofun
  | cons a rest ih =>
    cases rest with
    | nil => nofun
    | cons b rest =>
      obtain ⟨ha, hrest⟩ := List.nodup_cons.mp h
      intro pair hpair
      rcases List.mem_cons.mp hpair with rfl | hpair
      · exact fun heq => ha (List.mem_cons.mpr (.inl heq))
      · exact ih hrest pair hpair

namespace FleetConfig

variable {parseSocketAddr : String → Option SocketAddr} {input : FleetInput}
  {config : FleetConfig}

/-- What an accepted configuration took from its input, and what was checked of the inventory. -/
structure Accepted (input : FleetInput) (config : FleetConfig) : Prop where
  originId : input.originId = some config.originId
  originEndpoint : input.originEndpoint = config.originEndpoint
  originRegion : input.originRegion = config.originRegion
  buckets : btreeSet input.buckets = config.buckets
  nonempty : input.buckets ≠ []
  bound : input.buckets.length ≤ maxBuckets
  distinct : (btreeSet input.buckets).length = input.buckets.length
  names : ∀ name ∈ input.buckets, (name.isEmpty || maxIdBytes < name.utf8ByteSize) = false

theorem accepted_of_parse (h : parse parseSocketAddr input = .ok (some config)) :
    Accepted input config := by
  rw [parse] at h
  split at h
  · cases h
  split at h
  · rename_i horigin
    rw [ite_error_eq_ok] at h
    obtain ⟨-, h⟩ := h
    split at h
    · cases h
    · simp only [ite_error_eq_ok, bind_eq_ok] at h
      obtain ⟨-, hbound, hunique, parsed, -, -, h⟩ := h
      cases h
      simp only [Bool.or_eq_true, decide_eq_true_eq, not_or, not_not, List.isEmpty_iff, not_lt]
        at hbound hunique
      refine ⟨horigin, rfl, rfl, rfl, hbound.1, hbound.2, hunique.1, ?_⟩
      intro name hname
      have hany := List.any_eq_false.mp (Bool.eq_false_of_not_eq_true hunique.2) name
        (mem_btreeSet.mpr hname)
      exact Bool.eq_false_of_not_eq_true hany
  · cases h

theorem scope_eq_ok {buckets : List String} {s : BootstrapScope}
    (h : config.scope buckets = .ok s) :
    s = ⟨lengthedAll [config.originId, config.originEndpoint, config.originRegion,
      "s3cache-index-v1"], lengthedAll config.buckets⟩ := by
  rw [scope, ite_error_eq_ok] at h
  obtain ⟨hchecks, h⟩ := h
  simp only [Bool.or_eq_true, decide_eq_true_eq, not_or, not_not] at hchecks
  obtain ⟨⟨⟨⟨hsorted, -⟩, -⟩, -⟩, -⟩ := hchecks
  simp only [bind_eq_ok, ite_error_eq_ok] at h
  obtain ⟨domain, hdomain, partition, hpartition, -, h⟩ := h
  cases h
  rw [foldlM_appendComponent hdomain, foldlM_appendComponent hpartition, hsorted,
    String.empty_append, String.empty_append]

theorem Accepted.dedup_eq (h : Accepted input config) : input.buckets.dedup = input.buckets := by
  apply (List.dedup_sublist input.buckets).eq_of_length
  rw [← List.length_insertionSort (· ≤ ·)]
  exact h.distinct

theorem Accepted.scope_eq (h : Accepted input config) :
    config.scope input.buckets = do
      let domain ← [config.originId, config.originEndpoint, config.originRegion,
        "s3cache-index-v1"].foldlM appendComponent ""
      let partition ← config.buckets.foldlM appendComponent ""
      if maxScopeBytes < domain.utf8ByteSize + partition.utf8ByteSize then .error .capacity
      else return ⟨domain, partition⟩ := by
  have hsorted : input.buckets.insertionSort (· ≤ ·) = config.buckets := by
    rw [← h.buckets, btreeSet, h.dedup_eq]
  have hnodup : config.buckets.Nodup := by
    rw [← hsorted, (List.perm_insertionSort _ _).nodup_iff, ← h.dedup_eq]
    exact List.nodup_dedup _
  have hlength : config.buckets.length = input.buckets.length := by
    rw [← hsorted, List.length_insertionSort]
  have hempty : config.buckets.isEmpty = false := by
    rw [List.isEmpty_eq_false_iff, ← List.length_pos_iff, hlength]
    exact List.length_pos_iff.mpr h.nonempty
  have hwindows : (config.buckets.zip config.buckets.tail).any (fun pair => pair.1 = pair.2) =
      false := by
    rw [List.any_eq_false]
    intro pair hpair
    rw [decide_eq_true_eq]
    exact zip_tail_ne hnodup pair hpair
  have hnames : config.buckets.any
      (fun bucket => bucket.isEmpty || maxIdBytes < bucket.utf8ByteSize) = false := by
    rw [List.any_eq_false]
    intro name hname
    rw [← h.buckets, mem_btreeSet] at hname
    rw [h.names name hname]
    exact Bool.false_ne_true
  have hbound : ¬ maxBuckets < config.buckets.length := by
    rw [hlength]
    exact Nat.not_lt.mpr h.bound
  rw [scope, hsorted, hempty, hwindows, hnames]
  simp only [ne_eq, not_true_eq_false, decide_false, hbound, Bool.or_false, Bool.false_eq_true,
    if_false]

theorem Accepted.scope_error (h : Accepted input config) {e : FleetConfigError}
    (hscope : config.scope input.buckets = .error e) : e = .capacity := by
  rw [h.scope_eq] at hscope
  cases hdomain : [config.originId, config.originEndpoint, config.originRegion,
    "s3cache-index-v1"].foldlM appendComponent "" with
  | error e' =>
    rw [hdomain] at hscope
    cases hscope
    exact foldlM_appendComponent_error hdomain
  | ok domain =>
    rw [hdomain, bind_ok] at hscope
    cases hpartition : config.buckets.foldlM appendComponent "" with
    | error e' =>
      rw [hpartition] at hscope
      cases hscope
      exact foldlM_appendComponent_error hpartition
    | ok partition =>
      rw [hpartition, bind_ok] at hscope
      split at hscope
      · cases hscope
        rfl
      · cases hscope

/-- Over its own inventory, a configuration has a scope unless it is too long; and another one has
the same scope exactly when it has the same origin and the same set of buckets. -/
theorem fleet_scope_unique {input₁ input₂ : FleetInput} {config₁ config₂ : FleetConfig}
    (haccepted₁ : parse parseSocketAddr input₁ = .ok (some config₁))
    (haccepted₂ : parse parseSocketAddr input₂ = .ok (some config₂)) :
    (∀ e, config₁.scope input₁.buckets = .error e → e = .capacity) ∧
    ∀ s, config₁.scope input₁.buckets = .ok s →
      (config₂.scope input₂.buckets = .ok s ↔
        input₁.originId = input₂.originId ∧ input₁.originEndpoint = input₂.originEndpoint ∧
        input₁.originRegion = input₂.originRegion ∧
        ∀ bucket, bucket ∈ input₁.buckets ↔ bucket ∈ input₂.buckets) := by
  have h₁ := accepted_of_parse haccepted₁
  have h₂ := accepted_of_parse haccepted₂
  refine ⟨fun e => h₁.scope_error, ?_⟩
  intro s hscope
  rw [h₁.originId, h₂.originId, h₁.originEndpoint, h₂.originEndpoint, h₁.originRegion,
    h₂.originRegion, ← btreeSet_eq_iff, h₁.buckets, h₂.buckets, Option.some.injEq]
  constructor
  · intro hother
    have hsame := (scope_eq_ok hscope).symm.trans (scope_eq_ok hother)
    rw [BootstrapScope.mk.injEq, lengthedAll_injective.eq_iff,
      lengthedAll_injective.eq_iff] at hsame
    simpa only [List.cons.injEq, and_true, and_assoc] using hsame
  · rintro ⟨hid, hendpoint, hregion, hbuckets⟩
    rw [h₂.scope_eq, ← hid, ← hendpoint, ← hregion, ← hbuckets, ← h₁.scope_eq]
    exact hscope

def sampleInput (originId : String) (buckets : List String) : FleetInput where
  bind := some "0.0.0.0:7101"
  advertise := some "node-0.svc:7101"
  peers := some "node-0=node-0.svc:7101,node-1=node-1.svc:7101"
  originId := some originId
  originEndpoint := "https://origin.example/a"
  originRegion := "us-east-1"
  nodeId := "node-0"
  buckets := buckets

def sampleConfig (originId : String) (buckets : List String) : FleetConfig where
  bind := ⟨"0.0.0.0", 7101⟩
  originId := originId
  originEndpoint := "https://origin.example/a"
  originRegion := "us-east-1"
  buckets := buckets
  peers := [("node-0", "node-0.svc:7101"), ("node-1", "node-1.svc:7101")]

/-- The order of the inventory does not matter, and a name that spells a length does. -/
theorem fleet_scope_unique_sample :
    ∃ s, (sampleConfig "a" ["b", "c"]).scope ["c", "b"] = .ok s ∧
      (sampleConfig "a" ["b", "c"]).scope ["b", "c"] = .ok s ∧
      (sampleConfig "a" ["b1#c"]).scope ["b1#c"] ≠ .ok s := by
  let parseAddr : String → Option SocketAddr := fun _ => some ⟨"0.0.0.0", 7101⟩
  have hparse₁ : parse parseAddr (sampleInput "a" ["c", "b"]) =
      .ok (some (sampleConfig "a" ["b", "c"])) := by decide +kernel
  have hparse₂ : parse parseAddr (sampleInput "a" ["b", "c"]) =
      .ok (some (sampleConfig "a" ["b", "c"])) := by decide +kernel
  have hparse₃ : parse parseAddr (sampleInput "a" ["b1#c"]) =
      .ok (some (sampleConfig "a" ["b1#c"])) := by decide +kernel
  have hscope : (sampleConfig "a" ["b", "c"]).scope ["c", "b"] =
      .ok ⟨"1#a24#https://origin.example/a9#us-east-116#s3cache-index-v1", "1#b1#c"⟩ := by
    decide +kernel
  refine ⟨_, hscope, ?_, ?_⟩
  · refine ((fleet_scope_unique hparse₁ hparse₂).2 _ hscope).mpr ⟨rfl, rfl, rfl, ?_⟩
    intro bucket
    simp [sampleInput, or_comm]
  · intro hsame
    have hset := (((fleet_scope_unique hparse₁ hparse₃).2 _ hscope).mp hsame).2.2.2 "b"
    exact absurd (hset.mp (by decide)) (by decide)

end FleetConfig

end S3Cache.Sync

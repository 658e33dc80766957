import S3Cache.Index.Scan

/-! One range of a scan (`scan_range`) against an origin that may answer anything: what it folds
is in order, and it ends. -/

namespace S3Cache.Index

open Fleet

/-- What one scan meets at each of its pages: the origin's answer, what others have made of the
index meanwhile, whether the permit still publishes, and the clock. -/
structure ScanWorld (ε : Type) where
  list : Option String → Nat → OriginListRequest → Except ε OriginPage
  index : Nat → KeyIndexState → KeyIndexState := fun _ s => s
  publishes : Nat → Bool := fun _ => true
  now : Nat → String → SystemTime

def ScanWorld.Within {ε : Type} (world : ScanWorld ε) (keys : Finset String) : Prop :=
  ∀ chain n request page, world.list chain n request = .ok page →
    ∀ o ∈ page.contents, ∀ key, o.key = some key → key ∈ keys

structure ScanReport (ε : Type) where
  outcome : Option (Except (ScanError ε) Nat)
  requests : Nat
  folded : List (String × ObjEntry)
  index : KeyIndexState

section
variable {ε : Type} [ETagParser] [Layout]

def RangeScan.scanPage (world : ScanWorld ε) (bucket : String) (generation : Nat) (r : RangeScan)
    (s : KeyIndexState) :
    Except (ScanError ε) RangeScan × List (String × ObjEntry) × KeyIndexState :=
  let request : OriginListRequest :=
    { bucket
      continuationToken := r.token
      startAfter := if r.token.isSome then none else r.range.lower }
  match world.list r.range.lower r.page request with
  | .error e => (.error (.origin e), [], s)
  | .ok page =>
    match r.range.read (world.now r.page) r.previous page.contents with
    | .error e => (.error e, [], s)
    | .ok (_, rows, _) =>
      if world.publishes r.page then
        let folded :=
          if (s.syncListingIntoGeneration bucket generation rows).1.isSome then rows else []
        let (next, s) := r.advance world.list bucket generation (world.now r.page) s
        (next, folded, s)
      else (.error .superseded, [], s)

def scanRange (world : ScanWorld ε) (bucket : String) (generation : Nat) :
    Nat → RangeScan → KeyIndexState → ScanReport ε
  | 0, r, s => ⟨none, r.page, r.folded, s⟩
  | requests + 1, r, s =>
    match r.scanPage world bucket generation (world.index r.page s) with
    | (.error e, rows, s) => ⟨some (.error e), r.page + 1, r.folded ++ rows, s⟩
    | (.ok r, _, s) =>
      if r.finished then ⟨some (.ok r.found), r.page, r.folded, s⟩
      else scanRange world bucket generation requests r s

end

section Read
variable {ε : Type} [ETagParser] {range : KeyRange} {now : String → SystemTime}

structure PageRead (range : KeyRange) (previous : Option String) (contents : List ListedObject)
    (last : Option String) (rows : List (String × ObjEntry)) (past : Bool) : Prop where
  ascending : (rows.map Prod.fst).Pairwise (· < ·)
  within : ∀ row ∈ rows, range.contains row.1 = true
  after : ∀ row ∈ rows, ∀ p ∈ previous, p < row.1
  upto : ∀ row ∈ rows, ∃ key ∈ last, row.1 ≤ key
  kept : contents = [] → last = previous
  moved : contents ≠ [] → ∃ key ∈ last, (∃ o ∈ contents, o.key = some key) ∧
    ∀ p ∈ previous, p < key

theorem read_ok {previous last : Option String} {contents : List ListedObject}
    {rows : List (String × ObjEntry)} {past : Bool}
    (h : (range.read now previous contents : Except (ScanError ε) _) = .ok (last, rows, past)) :
    PageRead range previous contents last rows past := by
  induction contents generalizing previous last rows with
  | nil =>
    cases h
    exact ⟨.nil, List.forall_mem_nil _, List.forall_mem_nil _, List.forall_mem_nil _,
      fun _ => rfl, fun h => absurd rfl h⟩
  | cons o contents ih =>
    rw [KeyRange.read] at h
    split at h
    · cases h
    next key hkey =>
    split at h
    · cases h
    next hfresh =>
    rw [Bool.or_eq_true, not_or, Bool.not_eq_true, Bool.not_eq_true, Option.any_eq_false,
      Option.any_eq_false] at hfresh
    have hafter : ∀ p ∈ previous, p < key := fun p hp => by simpa using hfresh.1 p hp
    have hlower : ∀ p ∈ range.lower, p < key := fun p hp => by simpa using hfresh.2 p hp
    split at h
    · cases h
      exact ⟨.nil, List.forall_mem_nil _, List.forall_mem_nil _, List.forall_mem_nil _, nofun,
        fun _ => ⟨key, rfl, ⟨o, List.mem_cons_self, hkey⟩, hafter⟩⟩
    next hupper =>
    split at h
    case h_2 => cases h
    next rest hrest =>
    cases h
    have hread := ih hrest
    -- the last key of the page is this object's or comes after it
    have hlast : ∃ last' ∈ last, key ≤ last' ∧ ∃ o' ∈ o :: contents, o'.key = some last' := by
      by_cases hempty : contents = []
      · exact ⟨key, hread.kept hempty, le_rfl, o, List.mem_cons_self, hkey⟩
      · obtain ⟨last', hmem, ⟨o', ho', hkey'⟩, hlt⟩ := hread.moved hempty
        exact ⟨last', hmem, (hlt key rfl).le, o', List.mem_cons_of_mem o ho', hkey'⟩
    obtain ⟨last', hmem, hle, hfrom⟩ := hlast
    constructor
    case ascending =>
      rw [List.map_cons, List.pairwise_cons]
      refine ⟨?_, hread.ascending⟩
      intro a ha
      obtain ⟨row, hrow, rfl⟩ := List.mem_map.mp ha
      exact hread.after row hrow key rfl
    case within =>
      rw [List.forall_mem_cons]
      refine ⟨?_, hread.within⟩
      rw [Bool.not_eq_true, Option.any_eq_false] at hupper
      rw [KeyRange.contains, Bool.and_eq_true, Option.all_eq_true, Option.all_eq_true]
      exact ⟨fun p hp => decide_eq_true (hlower p hp),
        fun p hp => decide_eq_true (not_lt.mp (of_decide_eq_false (hupper p hp)))⟩
    case after =>
      rw [List.forall_mem_cons]
      refine ⟨hafter, ?_⟩
      intro row hrow p hp
      exact (hafter p hp).trans (hread.after row hrow key rfl)
    case upto =>
      rw [List.forall_mem_cons]
      exact ⟨⟨last', hmem, hle⟩, hread.upto⟩
    case kept => exact nofun
    case moved =>
      intro _
      exact ⟨last', hmem, hfrom, fun p hp => (hafter p hp).trans_le hle⟩

end Read

section Invariant
variable {r r' : RangeScan} {rows : List (String × ObjEntry)}

structure RangeScan.Went (r r' : RangeScan) (contents : List ListedObject)
    (rows : List (String × ObjEntry)) : Prop where
  read : ∃ past, PageRead r.range r.previous contents r'.previous rows past
  range : r'.range = r.range
  page : r'.page = r.page + 1
  folded : r'.folded = r.folded ++ rows
  found : r'.found = r.found + rows.length
  empty : r'.finished = false → r'.emptyPages ≤ 8 ∧
    r'.emptyPages = if contents.isEmpty then r.emptyPages + 1 else 0

structure InOrder (range : KeyRange) (folded : List (String × ObjEntry)) : Prop where
  ascending : (folded.map Prod.fst).Pairwise (· < ·)
  within : ∀ row ∈ folded, range.contains row.1 = true

structure RangeScan.Orderly (r : RangeScan) : Prop extends InOrder r.range r.folded where
  behind : ∀ row ∈ r.folded, ∃ last ∈ r.previous, row.1 ≤ last
  found : r.found = r.folded.length

theorem RangeScan.Orderly.append (h : r.Orderly) {contents : List ListedObject}
    {last : Option String} {past : Bool}
    (hread : PageRead r.range r.previous contents last rows past) :
    InOrder r.range (r.folded ++ rows) := by
  constructor
  · rw [List.map_append, List.pairwise_append]
    refine ⟨h.ascending, hread.ascending, ?_⟩
    intro a ha b hb
    obtain ⟨row, hrow, rfl⟩ := List.mem_map.mp ha
    obtain ⟨row', hrow', rfl⟩ := List.mem_map.mp hb
    obtain ⟨previous, hprevious, hle⟩ := h.behind row hrow
    exact hle.trans_lt (hread.after row' hrow' previous hprevious)
  · rw [List.forall_mem_append]
    exact ⟨h.within, hread.within⟩

theorem RangeScan.Orderly.went (h : r.Orderly) {contents : List ListedObject}
    (hwent : r.Went r' contents rows) : r'.Orderly := by
  obtain ⟨past, hread⟩ := hwent.read
  refine ⟨?_, ?_, ?_⟩
  · rw [hwent.range, hwent.folded]
    exact h.append hread
  · rw [hwent.folded, List.forall_mem_append]
    refine ⟨?_, hread.upto⟩
    intro row hrow
    obtain ⟨previous, hprevious, hle⟩ := h.behind row hrow
    -- the last key seen never falls
    by_cases hempty : contents = []
    · rw [hread.kept hempty]
      exact ⟨previous, hprevious, hle⟩
    · obtain ⟨last, hlast, -, hlt⟩ := hread.moved hempty
      exact ⟨last, hlast, hle.trans (hlt previous hprevious).le⟩
  · rw [hwent.found, hwent.folded, List.length_append, h.found]

def spent (keys : Finset String) (previous : Option String) : Finset String :=
  keys.filter fun key => previous.any (key ≤ ·) = true

theorem mem_spent {keys : Finset String} {previous : Option String} {key : String} :
    key ∈ spent keys previous ↔ key ∈ keys ∧ ∃ last ∈ previous, key ≤ last := by
  rw [spent, Finset.mem_filter, Option.any_eq_true]
  simp only [decide_eq_true_eq, Option.mem_def]

structure RangeScan.Bounded (keys : Finset String) (r : RangeScan) : Prop where
  pages : r.page ≤ 9 * (spent keys r.previous).card + r.emptyPages
  empty : r.emptyPages ≤ 8

theorem RangeScan.Bounded.page_lt {keys : Finset String} (h : r.Bounded keys) :
    r.page < 9 * (keys.card + 1) := by
  have hcard : (spent keys r.previous).card ≤ keys.card := Finset.card_filter_le ..
  have hpages := h.pages
  have hempty := h.empty
  omega

theorem RangeScan.Bounded.went {keys : Finset String} (h : r.Bounded keys)
    {contents : List ListedObject} (hwent : r.Went r' contents rows) (hgoing : r'.finished = false)
    (hkeys : ∀ o ∈ contents, ∀ key, o.key = some key → key ∈ keys) : r'.Bounded keys := by
  obtain ⟨past, hread⟩ := hwent.read
  obtain ⟨hempty, hcount⟩ := hwent.empty hgoing
  refine ⟨?_, hempty⟩
  have hpages := h.pages
  by_cases hcontents : contents = []
  · rw [hcontents, List.isEmpty_nil, if_pos rfl] at hcount
    rw [hwent.page, hread.kept hcontents, hcount]
    omega
  · rw [List.isEmpty_eq_false_iff.mpr hcontents, if_neg Bool.false_ne_true] at hcount
    obtain ⟨key, hlast, ⟨o, ho, hkey⟩, hlt⟩ := hread.moved hcontents
    -- the page's last key is a new one among those spent
    have hcard : (spent keys r.previous).card < (spent keys r'.previous).card := by
      refine Finset.card_lt_card (Finset.ssubset_iff_of_subset ?_ |>.mpr ?_)
      · intro a ha
        obtain ⟨ha, previous, hprevious, hle⟩ := mem_spent.mp ha
        exact mem_spent.mpr ⟨ha, key, hlast, hle.trans (hlt previous hprevious).le⟩
      · refine ⟨key, mem_spent.mpr ⟨hkeys o ho key hkey, key, hlast, le_rfl⟩, ?_⟩
        intro hspent
        obtain ⟨-, previous, hprevious, hle⟩ := mem_spent.mp hspent
        exact absurd (hlt previous hprevious) (not_lt.mpr hle)
    have hempty' := h.empty
    rw [hwent.page, hcount]
    omega

end Invariant

section Run
variable {ε : Type} [ETagParser] [Layout] {world : ScanWorld ε} {bucket : String}
  {generation : Nat} {r r' : RangeScan} {s s' : KeyIndexState} {rows : List (String × ObjEntry)}

theorem advance_ok {list : Option String → Nat → OriginListRequest → Except ε OriginPage}
    {now : String → SystemTime} {page : OriginPage} {last : Option String} {past : Bool}
    (hlist : list r.range.lower r.page
      ⟨bucket, r.token, if r.token.isSome then none else r.range.lower⟩
      = .ok page)
    (hread : (r.range.read now r.previous page.contents : Except (ScanError ε) _) =
      .ok (last, rows, past))
    (h : r.advance list bucket generation now s = (.ok r', s')) :
    (s.syncListingIntoGeneration bucket generation rows).1.isSome ∧ r.Went r' page.contents rows := by
  have hpage := read_ok hread
  simp only [RangeScan.advance, hlist, hread] at h
  split at h
  · cases h
  next pageLen s₁ hsync =>
  have hlen : pageLen = rows.length := by
    unfold KeyIndexState.syncListingIntoGeneration at hsync
    simp only at hsync
    split at hsync <;> cases hsync
    rfl
  refine ⟨by rw [hsync]; rfl, ?_⟩
  split at h
  · cases h
    exact ⟨⟨past, hpage⟩, rfl, rfl, rfl, by rw [hlen], nofun⟩
  generalize hempty : (if page.contents.isEmpty then r.emptyPages + 1 else 0) = emptyPages at h
  split at h
  · cases h
  next hfew =>
  split at h
  · cases h
  split at h
  · cases h
  cases h
  exact ⟨⟨past, hpage⟩, rfl, rfl, rfl, by rw [hlen], fun _ => ⟨not_lt.mp hfew, hempty.symm⟩⟩

theorem scanPage_spec {next : Except (ScanError ε) RangeScan}
    (h : r.scanPage world bucket generation s = (next, rows, s')) :
    (rows = [] ∨ ∃ contents last past, PageRead r.range r.previous contents last rows past) ∧
    ∀ r', next = .ok r' → ∃ chain request page,
      world.list chain r.page request = .ok page ∧ r.Went r' page.contents rows := by
  unfold RangeScan.scanPage at h
  simp only at h
  split at h
  · cases h
    exact ⟨.inl rfl, nofun⟩
  next page hlist =>
  split at h
  · cases h
    exact ⟨.inl rfl, nofun⟩
  next last rows' past hread =>
  split at h
  · cases h
    refine ⟨?_, ?_⟩
    · split
      · exact .inr ⟨_, _, _, read_ok hread⟩
      · exact .inl rfl
    · intro r' hnext
      obtain ⟨hsome, hwent⟩ := advance_ok hlist hread (Prod.ext hnext rfl)
      rw [if_pos hsome]
      exact ⟨_, _, page, hlist, hwent⟩
  · cases h
    exact ⟨.inl rfl, nofun⟩

variable (world bucket generation) in
theorem inOrder_scanRange (h : r.Orderly) (fuel : Nat) :
    InOrder r.range (scanRange world bucket generation fuel r s).folded ∧
    ∀ n, (scanRange world bucket generation fuel r s).outcome = some (.ok n) →
      n = (scanRange world bucket generation fuel r s).folded.length := by
  induction fuel generalizing r s with
  | zero => exact ⟨h.toInOrder, nofun⟩
  | succ fuel ih =>
    rw [scanRange]
    split
    · next hpage =>
      obtain ⟨hrows, -⟩ := scanPage_spec hpage
      refine ⟨?_, nofun⟩
      obtain rfl | ⟨contents, last, past, hread⟩ := hrows
      · rw [List.append_nil]
        exact h.toInOrder
      · exact h.append hread
    · next r' _ _ hpage =>
      obtain ⟨-, hnext⟩ := scanPage_spec hpage
      obtain ⟨chain, request, page, -, hwent⟩ := hnext r' rfl
      have hr' := h.went hwent
      rw [← hwent.range]
      split
      · refine ⟨hr'.toInOrder, ?_⟩
        rintro n ⟨⟩
        exact hr'.found
      · exact ih hr'

theorem scanRange_bounded {keys : Finset String} (hworld : world.Within keys) (h : r.Bounded keys)
    (fuel : Nat) :
    (scanRange world bucket generation fuel r s).requests ≤ 9 * (keys.card + 1) ∧
    (9 * (keys.card + 1) ≤ r.page + fuel →
      (scanRange world bucket generation fuel r s).outcome.isSome) := by
  induction fuel generalizing r s with
  | zero => exact ⟨h.page_lt.le, fun hle => absurd h.page_lt (not_lt.mpr hle)⟩
  | succ fuel ih =>
    rw [scanRange]
    split
    · exact ⟨h.page_lt, fun _ => rfl⟩
    · next r' _ _ hpage =>
      obtain ⟨-, hnext⟩ := scanPage_spec hpage
      obtain ⟨chain, request, page, hlist, hwent⟩ := hnext r' rfl
      split
      · exact ⟨hwent.page ▸ h.page_lt, fun _ => rfl⟩
      · next hgoing =>
        have hr' := h.went hwent (Bool.not_eq_true _ ▸ hgoing) (hworld chain _ request page hlist)
        obtain ⟨hrequests, hends⟩ := ih hr'
        refine ⟨hrequests, fun hle => hends ?_⟩
        rw [hwent.page]
        omega

/-- Whatever the origin answers, the keys a range's scan has folded after any number of requests
are strictly increasing over all pages and in the range. When the origin's keys come from a
finite set, nine requests for each of them and nine more end the scan. -/
theorem scan_range_ends (world : ScanWorld ε) (bucket : String) (generation : Nat)
    (range : KeyRange) (s : KeyIndexState) (fuel : Nat) :
    let run := scanRange world bucket generation fuel { range } s
    (run.folded.map Prod.fst).Pairwise (· < ·) ∧ (run.folded.map Prod.fst).Nodup ∧
    (∀ row ∈ run.folded, range.contains row.1 = true) ∧
    (∀ found, run.outcome = some (.ok found) → found = run.folded.length) ∧
    ∀ keys : Finset String, world.Within keys →
      run.requests ≤ 9 * (keys.card + 1) ∧ (9 * (keys.card + 1) ≤ fuel → run.outcome.isSome) := by
  have hstart : ({ range } : RangeScan).Orderly :=
    ⟨⟨.nil, List.forall_mem_nil _⟩, List.forall_mem_nil _, rfl⟩
  obtain ⟨hfolded, hfound⟩ := inOrder_scanRange world bucket generation (s := s) hstart fuel
  refine ⟨hfolded.ascending, hfolded.ascending.imp ne_of_lt, hfolded.within, hfound, ?_⟩
  intro keys hworld
  have hbounded : ({ range } : RangeScan).Bounded keys := ⟨Nat.zero_le _, Nat.zero_le _⟩
  obtain ⟨hrequests, hends⟩ := scanRange_bounded hworld hbounded fuel
  exact ⟨hrequests, fun hle => hends (by simpa using hle)⟩

end Run

section Sample
local instance boundLayout : Layout := sampleLayout
local instance boundParser : ETagParser := sampleETagParser

def sampleHostile : ScanWorld Unit where
  list _ n _ := .ok
    { contents := if n = 8 then [{ key := some "a" }] else []
      isTruncated := some true
      nextContinuationToken := some (if n % 2 = 0 then "x" else "y") }
  now _ _ := fromMicros 0

def sampleChase : ScanReport Unit :=
  scanRange sampleHostile "b" 1 18 { range := ⟨none, none⟩ }
    (({} : KeyIndexState).beginBucketResync "b").2

theorem scan_range_ends_sample :
    sampleHostile.Within {"a"} ∧ sampleChase.requests = 18 ∧
    sampleChase.folded.map Prod.fst = ["a"] ∧
    sampleChase.requests ≤ 9 * (({"a"} : Finset String).card + 1) ∧ sampleChase.outcome.isSome := by
  have hworld : sampleHostile.Within {"a"} := by
    rintro chain n request page ⟨⟩ o ho key hkey
    split at ho
    · obtain rfl := List.mem_singleton.mp ho
      cases hkey
      exact Finset.mem_singleton_self _
    · cases ho
  obtain ⟨-, -, -, -, hends⟩ := scan_range_ends sampleHostile "b" 1 ⟨none, none⟩
    (({} : KeyIndexState).beginBucketResync "b").2 18
  obtain ⟨hrequests, hsome⟩ := hends {"a"} hworld
  exact ⟨hworld, by decide +kernel, by decide +kernel, hrequests, hsome (by decide)⟩

end Sample

end S3Cache.Index

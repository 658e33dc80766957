import S3Cache.Index.Scan

/-! A scan that nothing supersedes folds every object of the origin's bucket, whatever the ranges,
the pages and the order in which the ranges are polled. -/

namespace S3Cache.Index

open Fleet

section boundaries

theorem countP_rangesFrom {lower : Option String} {boundaries : List String}
    (hasc : boundaries.Pairwise (· < ·)) (hlower : ∀ x ∈ lower, ∀ b ∈ boundaries, x < b)
    (key : String) :
    (rangesFrom lower boundaries).countP (·.contains key) =
      if lower.all (· < key) then 1 else 0 := by
  induction boundaries generalizing lower with
  | nil =>
    rw [rangesFrom, List.countP_singleton, KeyRange.contains, Option.all_none, Bool.and_true]
  | cons b bs ih =>
    obtain ⟨hb, hasc⟩ := List.pairwise_cons.mp hasc
    have hnext : ∀ x ∈ some b, ∀ c ∈ bs, x < c := by
      rintro x ⟨⟩
      exact hb
    rw [rangesFrom, List.countP_cons, ih hasc hnext]
    simp only [KeyRange.contains, Option.all_some, Bool.and_eq_true, decide_eq_true_eq]
    by_cases hkey : key ≤ b
    · simp only [not_lt.mpr hkey, hkey, and_true, if_false, Nat.zero_add]
    · have hall : lower.all (· < key) = true := by
        rw [Option.all_eq_true]
        exact fun x hx => decide_eq_true ((hlower x hx b List.mem_cons_self).trans (not_le.mp hkey))
      simp only [not_le.mp hkey, hkey, hall, and_false, if_true, if_false, Nat.add_zero]

theorem countP_ranges {boundaries : List String} (hasc : boundaries.Pairwise (· < ·))
    (key : String) : (ranges boundaries).countP (·.contains key) = 1 :=
  countP_rangesFrom hasc (by simp) key

theorem part_lt {n parts part : Nat} (hn : 0 < n) (h : part < parts) : part * n / parts < n :=
  Nat.div_lt_of_lt_mul (Nat.mul_lt_mul_of_pos_right h hn)

theorem part_strictMono {n parts a b : Nat} (hparts : parts ≤ n + 1) (ha : 0 < a) (hab : a < b)
    (hb : b < parts) : a * n / parts < b * n / parts := by
  have hpos : 0 < parts := Nat.zero_lt_of_lt hb
  have hq : a * n / parts * parts ≤ a * n := Nat.div_mul_le_self (a * n) parts
  generalize a * n / parts = q at hq ⊢
  have hstep : a * n + n ≤ b * n := by
    rw [← Nat.succ_mul]
    exact Nat.mul_le_mul_right n hab
  rw [Nat.lt_iff_add_one_le, Nat.le_div_iff_mul_le hpos, Nat.succ_mul]
  refine le_trans ?_ hstep
  rcases Nat.lt_or_ge n parts with hn | hn
  · -- one part more than prefixes: the quotient is below the part's number
    obtain rfl : parts = n + 1 := by omega
    have hqa : q < a := by
      refine lt_of_mul_lt_mul_right (lt_of_le_of_lt hq ?_) (Nat.zero_le (n + 1))
      exact Nat.mul_lt_mul_of_pos_left (Nat.lt_succ_self n) ha
    have hqn : q * n + n ≤ a * n := by
      rw [← Nat.succ_mul]
      exact Nat.mul_le_mul_right n hqa
    rw [Nat.mul_succ]
    omega
  · exact Nat.add_le_add hq hn

theorem chooseBoundaries_ascending {prefixes : List String} (hasc : prefixes.Pairwise (· < ·))
    (workers : Nat) :
    ∃ boundaries, chooseBoundaries prefixes workers = some boundaries ∧
      boundaries.Pairwise (· < ·) := by
  unfold chooseBoundaries
  set parts := min workers (prefixes.length + 1)
  have hparts : parts ≤ prefixes.length + 1 := Nat.min_le_right ..
  have hmem : ∀ part ∈ List.range' 1 (parts - 1), 0 < part ∧ part < parts := by
    intro part h
    rw [List.mem_range'_1] at h
    omega
  have hbound : ∀ part ∈ List.range' 1 (parts - 1),
      part * prefixes.length / parts < prefixes.length := fun part h =>
    part_lt (by have := hmem part h; omega) (hmem part h).2
  have hmap : ∀ l : List Nat, (∀ part ∈ l, part * prefixes.length / parts < prefixes.length) →
      l.mapM (fun part => prefixes[part * prefixes.length / parts]?) =
        some (l.map fun part => prefixes.getD (part * prefixes.length / parts) "") := by
    intro l hl
    induction l with
    | nil => rfl
    | cons part l ih =>
      obtain ⟨hpart, hl⟩ := List.forall_mem_cons.mp hl
      simp [List.mapM_cons, ih hl, List.getElem?_eq_getElem hpart, List.getD]
  refine ⟨_, hmap _ hbound, List.pairwise_map.mpr ?_⟩
  refine List.Pairwise.imp_of_mem (fun {a b} ha hb hab => ?_) (List.pairwise_lt_range' (s := 1))
  have hlt := part_strictMono hparts (hmem a ha).1 hab (hmem b hb).2
  rw [List.getD_eq_getElem _ _ (hbound a ha), List.getD_eq_getElem _ _ (hbound b hb)]
  exact List.pairwise_iff_getElem.mp hasc _ _ (hbound a ha) (hbound b hb) hlt

theorem sum_length_filter {α β : Type} (p : β → α → Bool) (parts : List β) {l : List α}
    (h : ∀ x ∈ l, parts.countP (p · x) = 1) :
    (parts.map fun part => (l.filter (p part)).length).sum = l.length := by
  induction l with
  | nil => simp
  | cons x l ih =>
    obtain ⟨hx, hl⟩ := List.forall_mem_cons.mp h
    have hcount : ∀ parts : List β,
        (parts.map fun part => ((x :: l).filter (p part)).length).sum =
          parts.countP (p · x) + (parts.map fun part => (l.filter (p part)).length).sum := by
      intro parts
      induction parts with
      | nil => rfl
      | cons part parts ih =>
        rw [List.map_cons, List.sum_cons, ih, List.countP_cons, List.map_cons, List.sum_cons,
          List.filter_cons]
        split
        · rw [List.length_cons]
          omega
        · omega
    rw [hcount, hx, ih hl, List.length_cons, Nat.add_comm]

end boundaries

def KeyRange.within (range : KeyRange) (key : String) : Bool := range.upper.all (key ≤ ·)

theorem KeyRange.within_iff {range : KeyRange} {key : String} :
    range.within key = true ↔ ∀ upper ∈ range.upper, key ≤ upper := by
  rw [within, Option.all_eq_true]
  simp only [decide_eq_true_eq, Option.mem_def]

theorem KeyRange.any_upper_lt (range : KeyRange) (key : String) :
    range.upper.any (· < key) = !range.within key := by
  rw [Bool.eq_iff_iff, Bool.not_eq_true', Bool.eq_false_iff, ne_eq, within_iff, Option.any_eq_true]
  simp only [decide_eq_true_eq, not_forall, not_le, exists_prop, Option.mem_def]

section
variable {ε : Type} [ETagParser] {objects : OrdMap ListedObject}

def listedRow (now : String → SystemTime) (o : String × ListedObject) : String × ObjEntry :=
  (o.1, o.2.entry (now o.1))

omit [ETagParser] in
theorem objectsAfter_ascending (cursor : Option String) :
    ((objectsAfter objects cursor).map Prod.fst).Pairwise (· < ·) :=
  List.pairwise_map.mpr
    ((Std.ExtTreeMap.ordered_keys_toList.imp compare_lt_iff_lt.mp).filter _)

omit [ETagParser] in
theorem filter_within_of_past {range : KeyRange} {key : String} {l : List (String × ListedObject)}
    (hkey : range.within key = false) (hl : ∀ o ∈ l, key < o.1) :
    l.filter (fun o => range.within o.1) = [] := by
  rw [List.filter_eq_nil_iff]
  intro o ho hin
  refine Bool.eq_false_iff.mp hkey (KeyRange.within_iff.mpr fun upper hu => ?_)
  exact (hl o ho).le.trans (KeyRange.within_iff.mp hin upper hu)

theorem read_page {range : KeyRange} {previous : Option String} {page : List (String × ListedObject)}
    (now : String → SystemTime) (hasc : (page.map Prod.fst).Pairwise (· < ·))
    (hprev : ∀ p ∈ previous, ∀ o ∈ page, p < o.1) (hlower : ∀ o ∈ page, range.lower.all (· < o.1)) :
    ∃ last, (range.read now previous (page.map fun o => { o.2 with key := some o.1 }) :
      Except (ScanError ε) _) =
        .ok (last, (page.filter (fun o => range.within o.1)).map (listedRow now),
        page.any fun o => !range.within o.1) ∧
      ((∀ o ∈ page, range.within o.1 = true) → last = (page.getLast?.map Prod.fst).or previous) := by
  induction page generalizing previous with
  | nil => exact ⟨previous, rfl, fun _ => rfl⟩
  | cons o page ih =>
    rw [List.map_cons, List.pairwise_cons] at hasc
    have hfresh : (previous.any (o.1 ≤ ·) || range.lower.any (o.1 ≤ ·)) = false := by
      rw [Bool.or_eq_false_iff, Option.any_eq_false, Option.any_eq_false]
      refine ⟨fun p hp => ?_, fun p hp => ?_⟩
      · simpa using hprev p hp o List.mem_cons_self
      · simpa using (Option.all_eq_true _ _).mp (hlower o List.mem_cons_self) p hp
    have hlater : ∀ x ∈ page, o.1 < x.1 := fun x hx => hasc.1 x.1 (List.mem_map_of_mem hx)
    rw [List.map_cons, KeyRange.read]
    simp only [hfresh, Bool.false_eq_true, if_false, KeyRange.any_upper_lt, List.any_cons,
      List.filter_cons]
    cases hin : range.within o.1 with
    | false =>
      refine ⟨some o.1, ?_, fun h => absurd (h o List.mem_cons_self) (by rw [hin]; nofun)⟩
      rw [filter_within_of_past hin hlater]
      rfl
    | true =>
      have hnext : ∀ p ∈ some o.1, ∀ x ∈ page, p < x.1 := by
        rintro p ⟨⟩
        exact hlater
      obtain ⟨last, hread, hlast⟩ := ih hasc.2 hnext fun x hx => hlower x (List.mem_cons_of_mem _ hx)
      refine ⟨last, ?_, fun h => ?_⟩
      · rw [hread]
        rfl
      · rw [hlast fun x hx => h x (List.mem_cons_of_mem _ hx), List.getLast?_cons]
        cases page.getLast? <;> rfl

end

structure Listing (generation : Nat) (fences : OrdMap Nat) (row : String → ObjEntry)
    (done : Set String) (b : BucketState) : Prop where
  owned : b.ownedBy generation = true
  fenced : b.uncertainKeys = fences
  untouched : ∀ key, (b.draft key).touched = false
  alive : ∀ key, (b.draft key).view.gone = none
  listed : ∀ key ∈ done, fences[key]? = none → b.keys.get key = some (row key)
  unlisted : ∀ key ∉ done, fences[key]? = none → b.keys.get key = none

section
variable [Layout] {b : BucketState} {generation : Nat} {fences : OrdMap Nat}
  {row : String → ObjEntry} {done : Set String}

omit [Layout] in
theorem row_observe {d : Draft} {e : ObjEntry} (ht : d.touched = false) (hg : d.view.gone = none)
    (hrow : ∀ old ∈ d.view.row, old = e) : (d.observe e).view.row = some e := by
  unfold Draft.observe
  split
  · next hr =>
    rw [ht, Bool.false_or, KeyView.refuses, hg, Option.any_none, Bool.false_or] at hr
    obtain ⟨old, hold, -⟩ := (Option.any_eq_true _ _).mp hr
    rw [hold, hrow old hold]
  · rfl

theorem Listing.foldRow (h : Listing generation fences row done b) (key : String) :
    Listing generation fences row (done ∪ {key}) (b.foldRow (key, row key)) := by
  have hfences : (b.foldRow (key, row key)).uncertainKeys = b.uncertainKeys := by
    unfold BucketState.foldRow
    split <;> rfl
  have hobserve : ∀ {d : Draft} {e : ObjEntry}, (d.observe e).touched = d.touched ∧
      (d.observe e).view.gone = d.view.gone := by
    intro d e
    unfold Draft.observe
    split <;> exact ⟨rfl, rfl⟩
  have hdraft : ∀ a, ((b.foldRow (key, row key)).draft a).touched = (b.draft a).touched ∧
      ((b.foldRow (key, row key)).draft a).view.gone = (b.draft a).view.gone := by
    intro a
    rw [BucketState.draft_foldRow, Draft.list]
    split
    · split
      · exact ⟨rfl, rfl⟩
      · exact hobserve
    · exact ⟨rfl, rfl⟩
  have hget : ∀ a, (b.foldRow (key, row key)).keys.get a =
      ((b.foldRow (key, row key)).draft a).view.row := fun _ => rfl
  refine ⟨?_, hfences.trans h.fenced, fun a => (hdraft a).1.trans (h.untouched a),
    fun a => (hdraft a).2.trans (h.alive a), fun a ha hf => ?_, fun a ha hf => ?_⟩
  · rw [← h.owned]
    unfold BucketState.foldRow
    split <;> rfl
  · rw [hget, BucketState.draft_foldRow]
    split
    · next hk =>
      obtain rfl : key = a := hk
      have hfence : (b.draft key).view.fence = none := by
        show b.uncertainKeys[key]? = none
        rw [h.fenced, hf]
      rw [Draft.list, hfence]
      refine row_observe (h.untouched key) (h.alive key) fun old hold => ?_
      by_cases hd : key ∈ done
      · exact Option.some_inj.mp (hold.symm.trans (h.listed key hd hf))
      · cases hold.symm.trans (h.unlisted key hd hf)
    · next hk =>
      rcases ha with ha | ha
      · exact h.listed a ha hf
      · exact absurd (Set.mem_singleton_iff.mp ha).symm hk
  · rw [Set.mem_union, Set.mem_singleton_iff, not_or] at ha
    rw [hget, BucketState.draft_foldRow, if_neg (Ne.symm ha.2)]
    exact h.unlisted a ha.1 hf

theorem Listing.page (h : Listing generation fences row done b) {rows : List (String × ObjEntry)}
    (hrows : ∀ r ∈ rows, r.2 = row r.1) :
    Listing generation fences row (done ∪ {key | key ∈ rows.map Prod.fst})
      (b.afterPage generation rows) := by
  rw [BucketState.afterPage, if_pos h.owned]
  induction rows generalizing b done with
  | nil => simpa using h
  | cons r rows ih =>
    obtain ⟨hr, hrows⟩ := List.forall_mem_cons.mp hrows
    have hset : done ∪ {key | key ∈ (r :: rows).map Prod.fst} =
        done ∪ {r.1} ∪ {key | key ∈ rows.map Prod.fst} := by
      ext key
      simp only [Set.mem_union, Set.mem_ofPred_eq, List.map_cons, List.mem_cons,
        Set.mem_singleton_iff, or_assoc]
    rw [hset, List.foldl_cons, show r = (r.1, row r.1) from Prod.ext rfl hr]
    exact ih (h.foldRow r.1) hrows

end

section
variable [ETagParser] {listing : List (String × ListedObject)} {now : String → SystemTime}
  {r : RangeScan}

structure RangeScan.Reading (cut : PageCut listing) (r : RangeScan) : Prop where
  page : r.page < cut.pages.length
  token : r.token = if r.page = 0 then none else some (cut.token r.page)
  previous : r.previous = (cut.pages.take r.page).flatten.getLast?.map Prod.fst
  within : ∀ o ∈ (cut.pages.take r.page).flatten, r.range.within o.1 = true
  emptyPages : ∃ start, start + r.emptyPages = r.page ∧
    ∀ m < r.emptyPages, cut.pages[start + m]? = some []

def RangeScan.covered (cut : PageCut listing) (r : RangeScan) : List (String × ListedObject) :=
  if r.finished then listing else (cut.pages.take r.page).flatten

structure RangeScan.Follows (cut : PageCut listing) (now : String → SystemTime) (r : RangeScan) :
    Prop where
  reading : r.finished = false → r.Reading cut
  folded : r.folded = ((r.covered cut).filter fun o => r.range.within o.1).map (listedRow now)
  found : r.found = r.folded.length

def RangeScan.remaining (cut : PageCut listing) (r : RangeScan) : Nat :=
  if r.finished then 0 else cut.pages.length - r.page

omit [ETagParser] in
theorem PageCut.split (cut : PageCut listing) {n : Nat} (hn : n < cut.pages.length) :
    ∃ page, cut.pages[n]? = some page ∧
      (cut.pages.take (n + 1)).flatten = (cut.pages.take n).flatten ++ page ∧
      listing = (cut.pages.take n).flatten ++ page ++ (cut.pages.drop (n + 1)).flatten := by
  have htake : (cut.pages.take (n + 1)).flatten =
      (cut.pages.take n).flatten ++ cut.pages[n] := by
    rw [List.take_add_one, List.getElem?_eq_getElem hn, List.flatten_append]
    simp
  refine ⟨cut.pages[n], List.getElem?_eq_getElem hn, htake, ?_⟩
  rw [← htake, ← List.flatten_append, List.take_append_drop, cut.whole]

variable [Layout] {origin : Origin} {bucket : String} {objects : OrdMap ListedObject}
  {generation : Nat} {fences : OrdMap Nat} {s : KeyIndexState}

omit [ETagParser] [Layout] in
theorem Origin.list_next (ho : origin.objects bucket = some objects)
    (h : r.Reading (origin.cut bucket r.range.lower)) :
    origin.list r.range.lower r.page
        { bucket
          continuationToken := r.token
          startAfter := if r.token.isSome then none else r.range.lower } =
      .ok ((origin.cut bucket r.range.lower).answer r.page) := by
  simp only [Origin.list, ho, h.token]
  split <;> simp

omit [ETagParser] [Layout] in
theorem mem_listing {lower : Option String} {o : String × ListedObject}
    (ho : origin.objects bucket = some objects)
    (h : o ∈ objectsAfter ((origin.objects bucket).getD ∅) lower) :
    objects[o.1]? = some o.2 ∧ lower.all (· < o.1) = true := by
  rw [ho, Option.getD_some, objectsAfter, List.mem_filter] at h
  exact ⟨Std.ExtTreeMap.mem_toList_iff_getElem?_eq_some.mp h.1, h.2⟩

def originRow (objects : OrdMap ListedObject) (now : String → SystemTime) (key : String) : ObjEntry :=
  (objects[key]?.getD {}).entry (now key)

omit [ETagParser] [Layout] in
theorem RangeScan.Reading.gap {cut : PageCut listing} (h : r.Reading cut)
    (hnext : r.page + 1 < cut.pages.length) (hpage : cut.pages[r.page]? = some []) :
    r.emptyPages + 1 ≤ 8 := by
  by_contra hmany
  obtain ⟨start, hstart, hempty⟩ := h.emptyPages
  obtain ⟨m, hm, hne⟩ := cut.gaps (r.page - 8) (by omega)
  apply hne
  rcases Nat.lt_or_ge m 8 with hlt | hge
  · rw [show r.page - 8 + m = start + (r.emptyPages - 8 + m) by omega]
    exact hempty _ (by omega)
  · rw [show r.page - 8 + m = r.page by omega]
    exact hpage

omit [ETagParser] [Layout] in
theorem PageCut.truncated (cut : PageCut listing) (n : Nat) :
    (if n + 1 < cut.pages.length then some true else cut.closing).getD false =
      decide (n + 1 < cut.pages.length) := by
  split
  · next hn => exact (decide_eq_true hn).symm
  · next hn =>
    rw [decide_eq_false hn]
    cases hc : cut.closing with
    | none => rfl
    | some c => exact Bool.eq_false_iff.mpr fun h => cut.closing_ne (hc.trans (congrArg some h))

structure RangeScan.Next (cut : PageCut listing) (now : String → SystemTime) (r : RangeScan)
    (page : List (String × ListedObject)) (last : Option String) : Prop where
  get : cut.pages[r.page]? = some page
  take : (cut.pages.take (r.page + 1)).flatten = (cut.pages.take r.page).flatten ++ page
  whole : listing =
    (cut.pages.take r.page).flatten ++ page ++ (cut.pages.drop (r.page + 1)).flatten
  after : ∀ o ∈ page, ∀ x ∈ (cut.pages.drop (r.page + 1)).flatten, o.1 < x.1
  read : (r.range.read now r.previous (page.map fun o => { o.2 with key := some o.1 }) :
    Except (ScanError OriginError) _) = .ok (last,
      (page.filter (fun o => r.range.within o.1)).map (listedRow now),
      page.any fun o => !r.range.within o.1)
  last : (∀ o ∈ page, r.range.within o.1 = true) → last = (page.getLast?.map Prod.fst).or r.previous

omit [Layout] in
theorem RangeScan.Reading.next {cut : PageCut listing} (h : r.Reading cut)
    (now : String → SystemTime) (hasc : (listing.map Prod.fst).Pairwise (· < ·))
    (hlower : ∀ o ∈ listing, r.range.lower.all (· < o.1) = true) :
    ∃ page last, r.Next cut now page last := by
  obtain ⟨page, hpage, htake, hwhole⟩ := cut.split h.page
  rw [hwhole, List.map_append, List.map_append, List.pairwise_append, List.pairwise_append] at hasc
  obtain ⟨⟨-, hascPage, hbefore⟩, -, hafter⟩ := hasc
  have hprev : ∀ p ∈ r.previous, ∀ o ∈ page, p < o.1 := by
    intro p hp o ho
    rw [h.previous] at hp
    obtain ⟨x, hx, rfl⟩ := Option.map_eq_some_iff.mp hp
    exact hbefore x.1 (List.mem_map_of_mem (List.mem_of_getLast? hx)) o.1 (List.mem_map_of_mem ho)
  obtain ⟨last, hread, hlast⟩ := read_page now hascPage hprev fun o ho => hlower o (by
    rw [hwhole]
    exact List.mem_append_left _ (List.mem_append_right _ ho))
  refine ⟨page, last, hpage, htake, hwhole, fun o ho x hx => ?_, hread, hlast⟩
  exact hafter o.1 (List.mem_append_right _ (List.mem_map_of_mem ho)) x.1 (List.mem_map_of_mem hx)

section
variable {cut : PageCut listing} {page : List (String × ListedObject)} {last : Option String}

omit [Layout] in
theorem RangeScan.Next.stop (h : r.Next cut now page last)
    (hstop : (page.any (fun o => !r.range.within o.1) ||
      !decide (r.page + 1 < cut.pages.length)) = true) :
    listing.filter (fun o => r.range.within o.1) =
      (cut.pages.take (r.page + 1)).flatten.filter fun o => r.range.within o.1 := by
  have hrest : ((cut.pages.drop (r.page + 1)).flatten.filter fun o => r.range.within o.1) = [] := by
    rcases Bool.or_eq_true_iff.mp hstop with hpast | hclosed
    · obtain ⟨o, ho, hout⟩ := List.any_eq_true.mp hpast
      exact filter_within_of_past (Bool.not_eq_true' _ ▸ hout) (h.after o ho)
    · rw [List.drop_of_length_le (by simpa using hclosed)]
      rfl
  rw [h.take]
  conv_lhs => rw [h.whole]
  rw [List.filter_append, hrest, List.append_nil]

def RangeScan.onto (cut : PageCut listing) (now : String → SystemTime) (r : RangeScan)
    (page : List (String × ListedObject)) (last : Option String) : RangeScan :=
  let rows := (page.filter (fun o => r.range.within o.1)).map (listedRow now)
  { r with
    token := some (cut.token (r.page + 1))
    previous := last
    emptyPages := if page.isEmpty then r.emptyPages + 1 else 0
    found := r.found + rows.length
    page := r.page + 1
    folded := r.folded ++ rows }

omit [Layout] in
theorem RangeScan.Reading.onto (hr : r.Reading cut) (h : r.Next cut now page last)
    (hwithin : ∀ o ∈ page, r.range.within o.1 = true) (hnext : r.page + 1 < cut.pages.length) :
    (r.onto cut now page last).Reading cut := by
  refine ⟨hnext, rfl, ?_, ?_, ?_⟩
  · show last = _
    rw [h.last hwithin, RangeScan.onto, h.take, List.getLast?_append, Option.map_or, hr.previous]
  · rw [RangeScan.onto, h.take]
    intro o ho
    rcases List.mem_append.mp ho with ho | ho
    · exact hr.within o ho
    · exact hwithin o ho
  · rw [RangeScan.onto]
    dsimp only
    split
    · next hempty =>
      obtain ⟨start, hstart, hall⟩ := hr.emptyPages
      refine ⟨start, by omega, fun m hm => ?_⟩
      rcases Nat.lt_succ_iff_lt_or_eq.mp hm with hm | rfl
      · exact hall m hm
      · rw [hstart, h.get, List.isEmpty_iff.mp hempty]
    · exact ⟨r.page + 1, rfl, nofun⟩

end

theorem RangeScan.Follows.advance (ho : origin.objects bucket = some objects)
    (h : r.Follows (origin.cut bucket r.range.lower) now) (hfin : r.finished = false)
    (howned : (s.bucket bucket).ownedBy generation = true) :
    ∃ rows r', r.advance origin.list bucket generation now s =
        (.ok r', (s.syncListingIntoGeneration bucket generation rows).2) ∧
      r'.range = r.range ∧ r'.Follows (origin.cut bucket r.range.lower) now ∧
      r'.folded = r.folded ++ rows ∧ (∀ row ∈ rows, row.2 = originRow objects now row.1) ∧
      r'.remaining (origin.cut bucket r.range.lower) <
        r.remaining (origin.cut bucket r.range.lower) := by
  have hreading := h.reading hfin
  have hlist := Origin.list_next ho hreading
  obtain ⟨page, last, hnext⟩ := hreading.next now (objectsAfter_ascending r.range.lower)
    fun o hmem => (mem_listing ho hmem).2
  set cut := origin.cut bucket r.range.lower
  set rows := (page.filter fun o => r.range.within o.1).map (listedRow now) with hrows
  have hsync : s.syncListingIntoGeneration bucket generation rows =
      (some rows.length, (s.syncListingIntoGeneration bucket generation rows).2) :=
    Prod.ext (by rw [KeyIndexState.syncListingIntoGeneration_fst, if_pos howned]) rfl
  have hvalues : ∀ row ∈ rows, row.2 = originRow objects now row.1 := by
    intro row hrow
    obtain ⟨o, hmem, rfl⟩ := List.mem_map.mp hrow
    have hin : o ∈ objectsAfter ((origin.objects bucket).getD ∅) r.range.lower := by
      rw [hnext.whole]
      exact List.mem_append_left _ (List.mem_append_right _ (List.mem_filter.mp hmem).1)
    rw [originRow, listedRow, (mem_listing ho hin).1]
    rfl
  have hfolded : r.folded ++ rows =
      ((cut.pages.take (r.page + 1)).flatten.filter fun o => r.range.within o.1).map
        (listedRow now) := by
    rw [h.folded, RangeScan.covered, hfin, hnext.take, List.filter_append, List.map_append]
    rfl
  have hfound : r.found + rows.length = (r.folded ++ rows).length := by
    rw [List.length_append, h.found]
  have hleft : r.remaining cut = cut.pages.length - r.page := by
    rw [RangeScan.remaining, hfin, if_neg nofun]
  have hpage := hreading.page
  unfold RangeScan.advance
  simp only [hlist, PageCut.answer, hnext.get, Option.getD_some, hnext.read]
  rw [hsync]
  simp only [cut.truncated]
  by_cases hstop : (page.any (fun o => !r.range.within o.1) ||
      !decide (r.page + 1 < cut.pages.length)) = true
  · rw [if_pos hstop]
    refine ⟨rows, { r with
      previous := last, found := r.found + rows.length, page := r.page + 1,
      folded := r.folded ++ rows, finished := true }, rfl, rfl, ⟨fun hf => (nomatch hf), ?_, hfound⟩,
      rfl, hvalues, ?_⟩
    · rw [RangeScan.covered, if_pos rfl, hnext.stop hstop]
      exact hfolded
    · show 0 < _
      omega
  · rw [if_neg hstop]
    obtain ⟨hpast, hopen⟩ := Bool.or_eq_false_iff.mp (Bool.eq_false_iff.mpr hstop)
    have hwithin : ∀ o ∈ page, r.range.within o.1 = true := fun o hmem => by
      simpa using List.any_eq_false.mp hpast o hmem
    have hmore : r.page + 1 < cut.pages.length := by simpa using hopen
    have hfresh : r.token ≠ some (cut.token (r.page + 1)) := by
      rw [hreading.token]
      split
      · nofun
      · exact fun he => cut.token_ne r.page (Option.some_inj.mp he)
    have hcount : ¬ 8 < if page.isEmpty then r.emptyPages + 1 else 0 := by
      split
      · next hempty =>
        have := hreading.gap hmore (by rw [hnext.get, List.isEmpty_iff.mp hempty])
        omega
      · omega
    simp only [List.isEmpty_map, hcount, hmore, hfresh, if_false, if_true]
    refine ⟨rows, r.onto cut now page last, rfl, rfl,
      ⟨fun _ => hreading.onto hnext hwithin hmore, ?_, hfound⟩, rfl, hvalues, ?_⟩
    · rw [RangeScan.covered, if_neg (by rw [RangeScan.onto, hfin]; nofun)]
      exact hfolded
    · show (if r.finished then 0 else cut.pages.length - (r.page + 1)) < _
      rw [hfin, if_neg nofun]
      omega

def foldedKeys (scans : List RangeScan) : Set String :=
  {key | ∃ r ∈ scans, key ∈ r.folded.map Prod.fst}

structure Joined (origin : Origin) (bucket : String) (objects : OrdMap ListedObject)
    (now : String → SystemTime) (generation : Nat) (fences : OrdMap Nat) (scans : List RangeScan)
    (s : KeyIndexState) : Prop where
  follows : ∀ r ∈ scans, r.Follows (origin.cut bucket r.range.lower) now
  listing : Listing generation fences (originRow objects now) (foldedKeys scans) (s.bucket bucket)

def RangeScan.left (origin : Origin) (bucket : String) (r : RangeScan) : Nat :=
  r.remaining (origin.cut bucket r.range.lower)

omit [ETagParser] [Layout] in
theorem foldedKeys_set {scans : List RangeScan} {i : Nat} {r' : RangeScan}
    {rows : List (String × ObjEntry)} (hi : scans[i]? = some r) (hr : r'.folded = r.folded ++ rows) :
    foldedKeys (scans.set i r') = foldedKeys scans ∪ {key | key ∈ rows.map Prod.fst} := by
  obtain ⟨hlt, hget⟩ := List.getElem?_eq_some_iff.mp hi
  ext key
  simp only [foldedKeys, Set.mem_union, Set.mem_ofPred_eq]
  constructor
  · rintro ⟨x, hx, hkey⟩
    rcases List.mem_or_eq_of_mem_set hx with hx | rfl
    · exact .inl ⟨x, hx, hkey⟩
    · rw [hr, List.map_append, List.mem_append] at hkey
      exact hkey.imp_left fun hkey => ⟨r, List.mem_of_getElem? hi, hkey⟩
  · have hnew : ∀ key, key ∈ r.folded.map Prod.fst ∨ key ∈ rows.map Prod.fst →
        ∃ x ∈ scans.set i r', key ∈ x.folded.map Prod.fst := fun key hkey =>
      ⟨r', List.mem_set hlt r', by rwa [hr, List.map_append, List.mem_append]⟩
    rintro (⟨x, hx, hkey⟩ | hkey)
    · obtain ⟨j, hj⟩ := List.mem_iff_getElem?.mp hx
      by_cases hij : i = j
      · subst hij
        obtain rfl : r = x := Option.some_inj.mp (hi.symm.trans hj)
        exact hnew key (.inl hkey)
      · exact ⟨x, List.mem_of_getElem? ((List.getElem?_set_ne hij).trans hj), hkey⟩
    · exact hnew key (.inr hkey)

theorem Joined.advance {scans : List RangeScan} {i : Nat} (ho : origin.objects bucket = some objects)
    (h : Joined origin bucket objects now generation fences scans s) (hi : scans[i]? = some r)
    (hfin : r.finished = false) :
    ∃ r' s', r.advance origin.list bucket generation now s = (.ok r', s') ∧
      Joined origin bucket objects now generation fences (scans.set i r') s' ∧ r'.range = r.range ∧
      r'.left origin bucket < r.left origin bucket ∧ ∀ n ≠ bucket, s'.bucket n = s.bucket n := by
  obtain ⟨rows, r', hadvance, hrange, hfollows, hfolded, hvalues, hless⟩ :=
    (h.follows r (List.mem_of_getElem? hi)).advance ho hfin h.listing.owned
  rw [← hrange] at hfollows
  refine ⟨r', _, hadvance, ⟨fun x hx => ?_, ?_⟩, hrange, ?_, fun n hn => ?_⟩
  · rcases List.mem_or_eq_of_mem_set hx with hx | rfl
    · exact h.follows x hx
    · exact hfollows
  · rw [KeyIndexState.bucket_page, if_pos rfl, foldedKeys_set hi hfolded]
    exact h.listing.page hvalues
  · rw [RangeScan.left, RangeScan.left, hrange]
    exact hless
  · rw [KeyIndexState.bucket_page, if_neg (Ne.symm hn)]

theorem joinScans_ok (ho : origin.objects bucket = some objects) (schedule : List Nat)
    {scans : List RangeScan} (h : Joined origin bucket objects now generation fences scans s) :
    ∃ scans' s', joinScans origin.list bucket generation now schedule scans s = (.ok scans', s') ∧
      Joined origin bucket objects now generation fences scans' s' ∧
      scans'.map (·.range) = scans.map (·.range) ∧
      (∀ i, scans'[i]?.elim 0 (·.left origin bucket) ≤
        scans[i]?.elim 0 (·.left origin bucket) - schedule.count i) ∧
      ∀ n ≠ bucket, s'.bucket n = s.bucket n := by
  induction schedule generalizing scans s with
  | nil => exact ⟨scans, s, rfl, h, rfl, fun i => by simp, fun _ _ => rfl⟩
  | cons i schedule ih =>
    have hskip : scans[i]?.elim 0 (·.left origin bucket) = 0 → ∀ j,
        scans[j]?.elim 0 (·.left origin bucket) - schedule.count j ≤
          scans[j]?.elim 0 (·.left origin bucket) - (i :: schedule).count j := by
      intro hz j
      by_cases hj : i = j
      · subst hj
        rw [hz]
        simp
      · rw [List.count_cons_of_ne hj]
    rw [joinScans]
    split
    · next hi =>
      obtain ⟨scans', s', hj, hjoined, hranges, hleft, hframe⟩ := ih h
      exact ⟨scans', s', hj, hjoined, hranges,
        fun j => (hleft j).trans (hskip (by rw [hi]; rfl) j), hframe⟩
    · next r hi =>
      split
      · next hfin =>
        obtain ⟨scans', s', hj, hjoined, hranges, hleft, hframe⟩ := ih h
        refine ⟨scans', s', hj, hjoined, hranges, fun j => (hleft j).trans (hskip ?_ j), hframe⟩
        rw [hi, Option.elim_some, RangeScan.left, RangeScan.remaining, if_pos hfin]
      · next hfin =>
        obtain ⟨r₁, s₁, hadvance, hjoined₁, hrange, hless, hframe₁⟩ :=
          h.advance ho hi (Bool.eq_false_iff.mpr hfin)
        obtain ⟨scans', s', hj, hjoined, hranges, hleft, hframe⟩ := ih hjoined₁
        rw [hadvance]
        refine ⟨scans', s', hj, hjoined, hranges.trans ?_, fun j => (hleft j).trans ?_,
          fun n hn => (hframe n hn).trans (hframe₁ n hn)⟩
        · obtain ⟨hlt, hget⟩ := List.getElem?_eq_some_iff.mp hi
          rw [List.map_set, hrange, ← hget, ← List.getElem_map (fun r : RangeScan => r.range)]
          · exact List.set_getElem_self _
          · rwa [List.length_map]
        · by_cases hij : i = j
          · subst hij
            have hset : (scans.set i r₁)[i]? = some r₁ := by
              rw [List.getElem?_set_self (List.getElem?_eq_some_iff.mp hi).1]
            rw [hset, hi, List.count_cons_self, Option.elim_some, Option.elim_some]
            omega
          · rw [List.getElem?_set_ne hij, List.count_cons_of_ne hij]

def ScanRun.Fair (origin : Origin) (bucket : String) (run : ScanRun) : Prop :=
  ∀ boundaries, chooseBoundaries run.prefixes run.workers = some boundaries →
    ∀ i range, (ranges boundaries)[i]? = some range →
      (origin.cut bucket range.lower).pages.length ≤ run.schedule.count i

omit [ETagParser] [Layout] in
theorem objectsAfter_filter (range : KeyRange) :
    (objectsAfter objects range.lower).filter (fun o => range.within o.1) =
      objects.toList.filter fun o => range.contains o.1 := by
  rw [objectsAfter, List.filter_filter]
  exact List.filter_congr fun o _ => Bool.and_comm ..

omit [Layout] in
theorem RangeScan.Follows.complete (ho : origin.objects bucket = some objects)
    (h : r.Follows (origin.cut bucket r.range.lower) now) (hfin : r.finished = true) :
    r.folded = (objects.toList.filter fun o => r.range.contains o.1).map (listedRow now) := by
  rw [h.folded, RangeScan.covered, if_pos hfin, ho, Option.getD_some, objectsAfter_filter]

omit [Layout] in
theorem Joined.start (boundaries : List String)
    (h : Listing generation fences (originRow objects now) ∅ (s.bucket bucket)) :
    Joined origin bucket objects now generation fences (startScans boundaries) s := by
  have hempty : foldedKeys (startScans boundaries) = ∅ := by
    ext key
    simp [foldedKeys, startScans]
  refine ⟨fun r hr => ?_, hempty ▸ h⟩
  obtain ⟨range, -, rfl⟩ := List.mem_map.mp hr
  refine ⟨fun _ => ⟨?_, rfl, rfl, nofun, ⟨0, rfl, nofun⟩⟩, rfl, rfl⟩
  exact List.length_pos_iff.mpr (origin.cut bucket range.lower).pages_ne_nil

theorem joinScans_finished {run : ScanRun} {boundaries : List String}
    (ho : origin.objects bucket = some objects)
    (hb : chooseBoundaries run.prefixes run.workers = some boundaries)
    (hfair : run.Fair origin bucket)
    (h : Listing generation fences (originRow objects run.now) ∅ (s.bucket bucket)) :
    ∃ scans s', joinScans origin.list bucket generation run.now run.schedule
        (startScans boundaries) s = (.ok scans, s') ∧
      Joined origin bucket objects run.now generation fences scans s' ∧
      scans.map (·.range) = ranges boundaries ∧ (∀ r ∈ scans, r.finished = true) ∧
      ∀ n ≠ bucket, s'.bucket n = s.bucket n := by
  obtain ⟨scans, s', hj, hjoined, hranges, hleft, hframe⟩ :=
    joinScans_ok ho run.schedule (Joined.start boundaries h)
  have hstart : (startScans boundaries).map (·.range) = ranges boundaries := by
    simp [startScans, Function.comp_def]
  refine ⟨scans, s', hj, hjoined, hranges.trans hstart, fun r hr => ?_, hframe⟩
  obtain ⟨i, hi⟩ := List.mem_iff_getElem?.mp hr
  have hrange : (ranges boundaries)[i]? = some r.range := by
    rw [← hstart, ← hranges, List.getElem?_map, hi]
    rfl
  have hz := hleft i
  rw [hi, startScans, List.getElem?_map, hrange] at hz
  have hpages : (origin.cut bucket r.range.lower).pages.length - run.schedule.count i = 0 :=
    Nat.sub_eq_zero_of_le (hfair boundaries hb i r.range hrange)
  have hzero : r.left origin bucket = 0 :=
    Nat.eq_zero_of_le_zero (hz.trans (Nat.le_of_eq hpages))
  by_contra hfin
  have hpage := ((hjoined.follows r hr).reading (Bool.eq_false_iff.mpr hfin)).page
  rw [RangeScan.left, RangeScan.remaining, if_neg hfin] at hzero
  omega

theorem syncBucketGeneration_ok {run : ScanRun} (ho : origin.objects bucket = some objects)
    (hasc : run.prefixes.Pairwise (· < ·)) (hfair : run.Fair origin bucket)
    (h : Listing generation fences (originRow objects run.now) ∅ (s.bucket bucket)) :
    ∃ s', syncBucketGeneration origin.list bucket generation run s = (.ok objects.size, s') ∧
      (s'.bucket bucket).synced = true ∧ (s'.bucket bucket).uncertainKeys = fences ∧
      (∀ key, fences[key]? = none →
        (s'.bucket bucket).keys.get key = objects[key]?.map fun o => o.entry (run.now key)) ∧
      ∀ n ≠ bucket, s'.bucket n = s.bucket n := by
  obtain ⟨boundaries, hb, hbounds⟩ := chooseBoundaries_ascending hasc run.workers
  obtain ⟨scans, s₁, hj, hjoined, hranges, hfin, hframe⟩ := joinScans_finished ho hb hfair h
  have howned := hjoined.listing.owned
  have hfolded : ∀ r ∈ scans, r.folded =
      (objects.toList.filter fun o => r.range.contains o.1).map (listedRow run.now) := fun r hr =>
    (hjoined.follows r hr).complete ho (hfin r hr)
  have hfound : (scans.map (·.found)).sum = objects.size := by
    have hmap : scans.map (·.found) =
        (ranges boundaries).map fun range => (objects.toList.filter (range.contains ·.1)).length := by
      rw [← hranges, List.map_map]
      refine List.map_congr_left fun r hr => ?_
      rw [(hjoined.follows r hr).found, hfolded r hr, List.length_map]
      rfl
    rw [hmap, sum_length_filter
      (fun (range : KeyRange) (o : String × ListedObject) => range.contains o.1) _
      fun o _ => countP_ranges hbounds o.1, Std.ExtTreeMap.length_toList]
  have hdone : ∀ key, key ∈ foldedKeys scans ↔ objects[key]?.isSome = true := by
    intro key
    constructor
    · rintro ⟨r, hr, hkey⟩
      rw [hfolded r hr, List.map_map] at hkey
      obtain ⟨o, ho, rfl⟩ := List.mem_map.mp hkey
      have hget := Std.ExtTreeMap.mem_toList_iff_getElem?_eq_some.mp (List.mem_filter.mp ho).1
      exact Option.isSome_iff_exists.mpr ⟨_, hget⟩
    · intro hsome
      obtain ⟨o, hget⟩ := Option.isSome_iff_exists.mp hsome
      obtain ⟨range, hrange, hin⟩ := List.countP_pos_iff.mp
        (Nat.lt_of_lt_of_eq Nat.zero_lt_one (countP_ranges hbounds key).symm)
      rw [← hranges] at hrange
      obtain ⟨r, hr, rfl⟩ := List.mem_map.mp hrange
      refine ⟨r, hr, ?_⟩
      rw [hfolded r hr, List.map_map]
      exact List.mem_map.mpr ⟨(key, o), List.mem_filter.mpr
        ⟨Std.ExtTreeMap.mem_toList_iff_getElem?_eq_some.mpr hget, hin⟩, rfl⟩
  have hfinish : s₁.finishBucketSyncGeneration bucket generation =
      (true, (s₁.finishBucketSyncGeneration bucket generation).2) :=
    Prod.ext (by rw [KeyIndexState.finishBucketSyncGeneration_fst, howned]) rfl
  have hbucket : (s₁.finishBucketSyncGeneration bucket generation).2.bucket bucket =
      { s₁.bucket bucket with synced := true, rebuildGeneration := none, rebuildTouched := ∅ } := by
    rw [KeyIndexState.bucket_finish, if_pos rfl, BucketState.afterFinish, if_pos howned]
  refine ⟨(s₁.finishBucketSyncGeneration bucket generation).2, ?_, ?_, ?_, fun key hkey => ?_,
    fun n hn => ?_⟩
  · unfold syncBucketGeneration
    simp only [hb, hj]
    rw [if_pos (List.all_eq_true.mpr hfin), hfinish, hfound]
  · rw [hbucket]
  · rw [hbucket]
    exact hjoined.listing.fenced
  · rw [hbucket]
    show (s₁.bucket bucket).keys.get key = _
    cases hget : objects[key]? with
    | none => exact hjoined.listing.unlisted key (by rw [hdone, hget]; exact Bool.false_ne_true) hkey
    | some o =>
      rw [hjoined.listing.listed key (by rw [hdone, hget]; rfl) hkey, originRow, hget]
      rfl
  · rw [KeyIndexState.bucket_finish, if_neg (Ne.symm hn)]
    exact hframe n hn

omit [Layout] [ETagParser] in
theorem Listing.begin (row : String → ObjEntry) (b : BucketState) :
    Listing b.discard.syncGeneration b.uncertainKeys row ∅ b.begun := by
  refine ⟨?_, rfl, fun key => ?_, fun key => ?_, fun key hk => hk.elim, fun key _ _ => ?_⟩
  · simp [BucketState.ownedBy, BucketState.begun]
  · simp [BucketState.draft, BucketState.begun, BucketState.discard]
  · simp [BucketState.draft, BucketState.view, BucketState.begun, BucketState.discard]
  · simp [BucketState.begun, BucketState.discard]

omit [Layout] [ETagParser] in
theorem Listing.beginBucketResync (row : String → ObjEntry) :
    Listing (s.beginBucketResync bucket).1 (s.bucket bucket).uncertainKeys row ∅
      ((s.beginBucketResync bucket).2.bucket bucket) := by
  rw [KeyIndexState.bucket_begin, if_pos rfl]
  exact Listing.begin row (s.bucket bucket)

def ListedObject.dated (o : ListedObject) : Bool := (o.lastModified.bind originTime).isSome

omit [Layout] in
theorem ListedObject.entry_of_dated {o : ListedObject} (h : o.dated = true) (t t' : SystemTime) :
    o.entry t = o.entry t' := by
  obtain ⟨x, hx⟩ := Option.isSome_iff_exists.mp h
  simp [ListedObject.entry, hx]

/-- A scan of a freshly begun bucket indexes exactly the origin's keys, as a serial scan does. -/
theorem scan_indexes_origin (origin : Origin) (ho : origin.objects bucket = some objects)
    (run : ScanRun) (hasc : run.prefixes.Pairwise (· < ·)) (hfair : run.Fair origin bucket)
    (s : KeyIndexState) (hfences : (s.bucket bucket).uncertainKeys = ∅) :
    ∃ boundaries, chooseBoundaries run.prefixes run.workers = some boundaries ∧
      boundaries.Pairwise (· < ·) ∧ (∀ key, (ranges boundaries).countP (·.contains key) = 1) ∧
      (∃ scans s', joinScans origin.list bucket (s.beginBucketResync bucket).1 run.now run.schedule
          (startScans boundaries) (s.beginBucketResync bucket).2 = (.ok scans, s') ∧
        scans.map (·.range) = ranges boundaries ∧
        ∀ r ∈ scans, r.finished = true ∧
          r.folded = (objects.toList.filter fun o => r.range.contains o.1).map (listedRow run.now)) ∧
      ∃ s', syncBucketGeneration origin.list bucket (s.beginBucketResync bucket).1 run
          (s.beginBucketResync bucket).2 = (.ok objects.size, s') ∧
        (s'.bucket bucket).synced = true ∧
        (∀ key, (s'.bucket bucket).keys.get key = objects[key]?.map fun o => o.entry (run.now key)) ∧
        ∀ (origin' : Origin) (serial : ScanRun), origin'.objects bucket = some objects →
          serial.prefixes = [] → serial.Fair origin' bucket →
          ∃ s'', syncBucketGeneration origin'.list bucket (s.beginBucketResync bucket).1 serial
              (s.beginBucketResync bucket).2 = (.ok objects.size, s'') ∧
            ∀ key, objects[key]?.all (·.dated) →
              (s''.bucket bucket).keys.get key = (s'.bucket bucket).keys.get key := by
  obtain ⟨boundaries, hb, hbounds⟩ := chooseBoundaries_ascending hasc run.workers
  refine ⟨boundaries, hb, hbounds, countP_ranges hbounds, ?_, ?_⟩
  · obtain ⟨scans, s', hj, hjoined, hranges, hfin, -⟩ :=
      joinScans_finished ho hb hfair (Listing.beginBucketResync _)
    exact ⟨scans, s', hj, hranges, fun r hr =>
      ⟨hfin r hr, (hjoined.follows r hr).complete ho (hfin r hr)⟩⟩
  · have hnone : ∀ key, (s.bucket bucket).uncertainKeys[key]? = none := fun key => by
      rw [hfences]
      exact Std.ExtTreeMap.getElem?_empty
    obtain ⟨s', hscan, hsynced, -, hrows, -⟩ :=
      syncBucketGeneration_ok ho hasc hfair (Listing.beginBucketResync _)
    refine ⟨s', hscan, hsynced, fun key => hrows key (hnone key),
      fun origin' serial ho' hp hfair' => ?_⟩
    obtain ⟨s'', hscan', -, -, hrows', -⟩ :=
      syncBucketGeneration_ok ho' (hp ▸ List.Pairwise.nil) hfair' (Listing.beginBucketResync _)
    refine ⟨s'', hscan', fun key hdated => ?_⟩
    rw [hrows key (hnone key), hrows' key (hnone key)]
    cases hget : objects[key]? with
    | none => rfl
    | some o =>
      rw [hget] at hdated
      exact congrArg some (ListedObject.entry_of_dated hdated _ _)

end

def PageCut.singles (listing : List (String × ListedObject)) : PageCut listing where
  pages := [] :: listing.map ([·])
  token n := if n % 2 = 0 then "even" else "odd"
  whole := by simp [← List.flatMap_def]
  pages_ne_nil := nofun
  token_ne n := by
    rcases Nat.mod_two_eq_zero_or_one n with h | h
    · rw [if_pos h, if_neg (by omega)]
      decide
    · rw [if_neg (by omega), if_pos (by omega)]
      decide
  closing_ne := by decide
  gaps n hn := by
    rw [List.length_cons, List.length_map] at hn
    refine ⟨1, by omega, ?_⟩
    rw [List.getElem?_cons_succ, List.getElem?_map, List.getElem?_eq_getElem (by omega)]
    nofun

def sampleObjects : OrdMap ListedObject :=
  .ofList [("a", ({} : ListedObject)), ("k", { size := some 3 }), ("z/1", {})]

def sampleOrigin : Origin where
  objects bucket := if bucket = "b" then some sampleObjects else none
  cut _ _ := .singles _

def sampleRun : ScanRun where
  prefixes := ["c/", "m/"]
  workers := 3
  now _ := .unixEpoch
  schedule := [2, 0, 1, 1, 0, 2, 0, 1, 2, 2, 0, 1]

theorem sampleRun_fair : sampleRun.Fair sampleOrigin "b" := by
  intro boundaries hb i range hi
  obtain rfl : ["c/", "m/"] = boundaries := Option.some_inj.mp hb
  match i with
  | 0 | 1 | 2 =>
    cases hi
    decide +kernel
  | n + 3 => cases hi

section
local instance scanLayout : Layout := sampleLayout
local instance scanParser : ETagParser := sampleETagParser

theorem scan_indexes_origin_sample :
    (∃ s', syncBucketGeneration sampleOrigin.list "b" 1 sampleRun
      (({} : KeyIndexState).beginBucketResync "b").2 = (.ok sampleObjects.size, s') ∧
      (s'.bucket "b").synced = true) ∧ sampleObjects.size = 3 := by
  obtain ⟨-, -, -, -, -, s', hscan, hsynced, -⟩ := scan_indexes_origin sampleOrigin (if_pos rfl)
    sampleRun (by decide) sampleRun_fair {} rfl
  exact ⟨⟨s', hscan, hsynced⟩, by decide +kernel⟩

end

end S3Cache.Index

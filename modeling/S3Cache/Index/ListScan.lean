import S3Cache.Index.ListPage

/-! What one LIST page holds: it takes a beginning of the matching rows and leaves off between two
items. -/

namespace S3Cache.Index

theorem startsWith_iff {key pre : String} : startsWith key pre = true ↔ pre.toList <+: key.toList :=
  decide_eq_true_iff

theorem le_of_startsWith {key pre : String} (h : startsWith key pre = true) : pre ≤ key :=
  String.le_iff_toList_le.mpr (Lex.le_of_isPrefix (startsWith_iff.mp h))

theorem not_startsWith_of_lt {key key' pre : String} (h : startsWith key pre = false)
    (hlt : pre < key) (hkey : key < key') : startsWith key' pre = false := by
  rw [Bool.eq_false_iff] at h ⊢
  intro h'
  apply h
  rw [startsWith_iff] at h' ⊢
  exact Lex.isPrefix_of_le (String.le_iff_toList_le.mp hlt.le) (String.le_iff_toList_le.mp hkey.le)
    h'

theorem Bound.admits_seek_excluded {key pre : String} (h : startsWith key pre = true)
    (after : String) : ((excluded after).seek pre).admits key = decide (after < key) := by
  have hle := le_of_startsWith h
  rw [seek]
  split
  · rfl
  · next hn =>
    have hlt : after < key := lt_of_lt_of_le (not_le.mp hn) hle
    split
    · simp [admits, hle, hlt]
    · rfl

theorem Bound.admits_seek_unbounded {key pre : String} (h : startsWith key pre = true) :
    (unbounded.seek pre).admits key = true := by
  rw [seek]
  split
  · exact decide_eq_true (le_of_startsWith h)
  · rfl
  · nofun

namespace ListObjectsV2Input

variable (inp : ListObjectsV2Input)

def Matches (after : Option String) (key : String) : Prop :=
  inp.pre.toList <+: key.toList ∧ ∀ bound ∈ after, bound < key

def CommonPrefix (key cp : String) : Prop :=
  ∃ d ∈ inp.delimiter, ∃ c, cp.toList = inp.pre.toList ++ c ∧ cp.toList <+: key.toList ∧
    d.toList <:+ c ∧ ∀ c', inp.pre.toList ++ c' <+: key.toList → d.toList <:+ c' →
      c.length ≤ c'.length

def matching (after : Option String) (rows : List (String × ObjEntry)) :
    List (String × ObjEntry) :=
  rows.filter fun row => startsWith row.1 inp.pre && after.all (· < row.1)

variable {inp}

theorem mem_matching {after : Option String} {rows : List (String × ObjEntry)}
    {row : String × ObjEntry} :
    row ∈ inp.matching after rows ↔ row ∈ rows ∧ inp.Matches after row.1 := by
  simp [matching, Matches, startsWith_iff, Option.all_eq_true]

theorem filter_rangeFrom (keys : KeyRows) (resumeAfter : Option String) :
    (keys.rangeFrom (inp.lower resumeAfter)).filter (startsWith ·.1 inp.pre) =
      inp.matching (resumeAfter.or inp.startAfter) keys.rows := by
  rw [KeyRows.rangeFrom, matching, List.filter_filter]
  apply List.filter_congr
  rintro ⟨key, e⟩ -
  cases hkey : startsWith key inp.pre with
  | false => rfl
  | true =>
    rw [Bool.true_and, Bool.true_and]
    cases resumeAfter with
    | some cursor => exact Bound.admits_seek_excluded hkey cursor
    | none =>
      simp only [lower, Option.none_or]
      cases inp.startAfter with
      | some after => exact Bound.admits_seek_excluded hkey after
      | none => exact Bound.admits_seek_unbounded hkey

end ListObjectsV2Input

section RollUp

variable {pre key key' cp : String} {d : Option String}

theorem isPrefix_of_rollUp (hkey : startsWith key pre = true) (h : rollUp pre d key = some cp) :
    cp.toList <+: key.toList := by
  cases d with
  | none => cases h
  | some d =>
    obtain ⟨c, hcut, rfl⟩ := Option.map_eq_some_iff.mp h
    obtain ⟨rest, hrest⟩ := startsWith_iff.mp hkey
    have hp := Lex.isPrefix_of_cut hcut
    rw [← hrest, List.drop_left] at hp
    rw [← hrest, String.toList_ofList]
    exact (List.prefix_append_right_inj _).mpr hp

theorem rollUp_of_isPrefix (h : rollUp pre d key = some cp) (hcp : cp.toList <+: key'.toList) :
    rollUp pre d key' = some cp := by
  cases d with
  | none => cases h
  | some d =>
    obtain ⟨c, hcut, rfl⟩ := Option.map_eq_some_iff.mp h
    rw [String.toList_ofList] at hcp
    obtain ⟨rest, hrest⟩ := (List.prefix_append _ _).trans hcp
    rw [← hrest] at hcp
    have hc := (List.prefix_append_right_inj _).mp hcp
    rw [rollUp, ← hrest, List.drop_left, Lex.cut_of_isPrefix hcut hc]
    rfl

end RollUp

theorem rollUp_eq_some_iff {inp : ListObjectsV2Input} {key cp : String}
    (hkey : startsWith key inp.pre = true) :
    rollUp inp.pre inp.delimiter key = some cp ↔ inp.CommonPrefix key cp := by
  obtain ⟨rest, hrest⟩ := startsWith_iff.mp hkey
  rw [ListObjectsV2Input.CommonPrefix, ← hrest]
  cases inp.delimiter with
  | none => simp [rollUp]
  | some d =>
    simp only [rollUp, ← hrest, List.drop_left, Option.map_eq_some_iff, Lex.cut_eq_some_iff,
      List.prefix_append_right_inj, Option.mem_def, Option.some.injEq, exists_eq_left']
    constructor
    · rintro ⟨c, ⟨hp, hs, hmin⟩, rfl⟩
      refine ⟨c, String.toList_ofList, ?_, hs, hmin⟩
      rw [String.toList_ofList]
      exact (List.prefix_append_right_inj _).mpr hp
    · rintro ⟨c, hcp, hp, hs, hmin⟩
      rw [hcp, List.prefix_append_right_inj] at hp
      exact ⟨c, ⟨hp, hs, hmin⟩, by rw [← hcp, String.ofList_toList]⟩

theorem rollUp_eq_none_iff {inp : ListObjectsV2Input} {key : String}
    (hkey : startsWith key inp.pre = true) :
    rollUp inp.pre inp.delimiter key = none ↔ ¬ ∃ cp, inp.CommonPrefix key cp := by
  rw [Option.eq_none_iff_forall_ne_some, not_exists]
  exact forall_congr' fun cp => not_congr (rollUp_eq_some_iff hkey)

structure Scanned (max : Nat) (pre : String) (delimiter : Option String)
    (rows : List (String × ObjEntry)) (s s' : Scan) (done rest : List (String × ObjEntry)) :
    Prop where
  split : rows.filter (startsWith ·.1 pre) = done ++ rest
  contents : s'.contents.map some = s.contents.map some ++
    (done.filter (rollUp pre delimiter ·.1 = none)).map listed
  common : ∀ cp, cp ∈ s'.common ↔ cp ∈ s.common ∨ ∃ r ∈ done, rollUp pre delimiter r.1 = some cp
  last : s'.lastScanned = (done.getLast?.map (·.1)).or s.lastScanned
  count : s'.count ≤ max
  whole : s'.truncated = false → rest = []
  cut : s'.truncated = true → max ≤ s'.count ∧
    ∃ r later, rest = r :: later ∧ ∀ cp ∈ rollUp pre delimiter r.1, cp ∉ s'.common

namespace Scanned

variable {max : Nat} {pre : String} {delimiter : Option String} {rows : List (String × ObjEntry)}
  {row : String × ObjEntry} {s s₁ s' : Scan} {done rest : List (String × ObjEntry)}

theorem stop (hs : s.truncated = false) (hc : s.count ≤ max)
    (hrows : rows.filter (startsWith ·.1 pre) = []) :
    Scanned max pre delimiter rows s s [] [] where
  split := hrows
  contents := by simp
  common := by simp
  last := rfl
  count := hc
  whole _ := rfl
  cut ht := absurd (hs.symm.trans ht) Bool.false_ne_true

theorem full (hc : s.count ≤ max) (hmax : max ≤ s.count) (hrow : startsWith row.1 pre = true)
    (hnew : ∀ cp ∈ rollUp pre delimiter row.1, cp ∉ s.common) :
    Scanned max pre delimiter (row :: rows) s { s with truncated := true } []
      (row :: rows.filter (startsWith ·.1 pre)) where
  split := List.filter_cons_of_pos hrow
  contents := by simp
  common := by simp
  last := rfl
  count := hc
  whole := nofun
  cut _ := ⟨hmax, row, _, rfl, hnew⟩

theorem skip (h : Scanned max pre delimiter rows s s' done rest)
    (hrow : startsWith row.1 pre = false) : Scanned max pre delimiter (row :: rows) s s' done rest :=
  { h with split := (List.filter_cons_of_neg (by simp [hrow])).trans h.split }

theorem collapse (h : Scanned max pre delimiter rows s₁ s' done rest) {cp : String}
    (hrow : startsWith row.1 pre = true) (hcp : rollUp pre delimiter row.1 = some cp)
    (hcontents : s₁.contents = s.contents) (hlast : s₁.lastScanned = some row.1)
    (hcommon : ∀ x, x ∈ s₁.common ↔ x ∈ s.common ∨ x = cp) :
    Scanned max pre delimiter (row :: rows) s s' (row :: done) rest where
  split := by rw [List.filter_cons, if_pos hrow, h.split, List.cons_append]
  contents := by
    rw [h.contents, hcontents, List.filter_cons_of_neg (by simp [hcp])]
  common x := by
    rw [h.common, hcommon]
    simp only [List.mem_cons, exists_eq_or_imp, hcp, Option.some.injEq, or_assoc, eq_comm (a := x)]
  last := by
    rw [h.last, hlast, List.getLast?_cons]
    cases done.getLast? <;> rfl
  count := h.count
  whole := h.whole
  cut := h.cut

theorem emit (h : Scanned max pre delimiter rows s₁ s' done rest) {object : Object}
    (hrow : startsWith row.1 pre = true) (hcp : rollUp pre delimiter row.1 = none)
    (hobject : listed row = some object) (hcontents : s₁.contents = s.contents ++ [object])
    (hlast : s₁.lastScanned = some row.1) (hcommon : s₁.common = s.common) :
    Scanned max pre delimiter (row :: rows) s s' (row :: done) rest where
  split := by rw [List.filter_cons, if_pos hrow, h.split, List.cons_append]
  contents := by
    rw [h.contents, hcontents, List.filter_cons_of_pos (by simp [hcp])]
    simp [hobject]
  common x := by
    rw [h.common, hcommon]
    simp [hcp]
  last := by
    rw [h.last, hlast, List.getLast?_cons]
    cases done.getLast? <;> rfl
  count := h.count
  whole := h.whole
  cut := h.cut

theorem count_eq_zero (h : Scanned max pre delimiter rows {} s' done rest) (hdone : done = []) :
    s'.count = 0 := by
  subst hdone
  have hcontents : s'.contents = [] := by simpa using h.contents
  have hcommon : s'.common.toList = [] := by
    rw [List.eq_nil_iff_forall_not_mem]
    intro cp hcp
    simpa using (h.common cp).mp (Std.ExtTreeSet.mem_toList.mp hcp)
  rw [Scan.count, hcontents, ← Std.ExtTreeSet.length_toList, hcommon]
  rfl

end Scanned

theorem scanned_of_scan {max : Nat} {pre : String} {delimiter : Option String}
    {rows : List (String × ObjEntry)} {s s' : Scan} (hasc : rows.Pairwise (·.1 < ·.1))
    (h : scan max pre delimiter rows s = some s') (hs : s.truncated = false) (hc : s.count ≤ max) :
    ∃ done rest, Scanned max pre delimiter rows s s' done rest := by
  induction rows generalizing s with
  | nil =>
    cases h
    exact ⟨[], [], .stop hs hc rfl⟩
  | cons row rows ih =>
    obtain ⟨hrows, hasc'⟩ := List.pairwise_cons.mp hasc
    rw [scan] at h
    split at h
    · next hrow =>
      split at h
      · next cp hcp =>
        split at h
        · next hmem =>
          obtain ⟨done, rest, hd⟩ := ih hasc' h hs hc
          exact ⟨_, _, hd.collapse hrow hcp rfl rfl fun x =>
            ⟨.inl, fun hx => hx.elim id (· ▸ hmem)⟩⟩
        · next hnew =>
          split at h
          · next hmax =>
            cases h
            refine ⟨_, _, .full hc hmax hrow fun x hx => ?_⟩
            obtain rfl := Option.some.inj (hcp.symm.trans hx)
            exact hnew
          · next hmax =>
            have hcount : Scan.count
                { s with common := s.common.insert cp, lastScanned := some row.1 } ≤ max := by
              have hsize : (s.common.insert cp).size = s.common.size + 1 := by
                rw [Std.ExtTreeSet.size_insert, if_neg (by simpa using hnew)]
              simp only [Scan.count, hsize] at hmax ⊢
              omega
            obtain ⟨done, rest, hd⟩ := ih hasc' h hs hcount
            refine ⟨_, _, hd.collapse hrow hcp rfl rfl fun x => ?_⟩
            rw [Std.ExtTreeSet.mem_insert, compare_eq_iff_eq, or_comm, eq_comm (a := x)]
      · next hcp =>
        split at h
        · next hmax =>
          cases h
          exact ⟨_, _, .full hc hmax hrow (by simp [hcp])⟩
        · next hmax =>
          split at h
          · next object hobject =>
            have hcount : Scan.count
                { s with contents := s.contents ++ [object], lastScanned := some row.1 } ≤ max := by
              simp only [Scan.count, List.length_append, List.length_singleton] at hmax ⊢
              omega
            obtain ⟨done, rest, hd⟩ := ih hasc' h hs hcount
            exact ⟨_, _, hd.emit hrow hcp hobject rfl rfl rfl⟩
          · cases h
    · next hrow =>
      rw [Bool.not_eq_true] at hrow
      split at h
      · next hlt =>
        cases h
        refine ⟨[], [], .stop hs hc ?_⟩
        rw [List.filter_cons_of_neg (by simp [hrow]), List.filter_eq_nil_iff]
        intro r hr
        simp [not_startsWith_of_lt hrow hlt (hrows r hr)]
      · obtain ⟨done, rest, hd⟩ := ih hasc' h hs hc
        exact ⟨_, _, hd.skip hrow⟩

theorem scan_isSome {max : Nat} {pre : String} {delimiter : Option String}
    {rows : List (String × ObjEntry)} (hsizes : ∀ r ∈ rows, r.2.size.isSome) (s : Scan) :
    (scan max pre delimiter rows s).isSome := by
  induction rows generalizing s with
  | nil => rfl
  | cons row rows ih =>
    obtain ⟨hrow, hrows⟩ := List.forall_mem_cons.mp hsizes
    rw [scan]
    split
    · split
      · split
        · exact ih hrows _
        · split
          · rfl
          · exact ih hrows _
      · split
        · rfl
        · split
          · exact ih hrows _
          · next hnone => simp [listed, ← Option.not_isSome_iff_eq_none, hrow] at hnone
    · split
      · rfl
      · exact ih hrows _

structure PageOf (inp : ListObjectsV2Input) (rows : List (String × ObjEntry))
    (after : Option String) (page : Page) (done rest : List (String × ObjEntry)) : Prop where
  split : inp.matching after rows = done ++ rest
  contents : page.contents.map some =
    (done.filter (rollUp inp.pre inp.delimiter ·.1 = none)).map listed
  common : ∀ cp, cp ∈ page.common ↔ ∃ r ∈ done, rollUp inp.pre inp.delimiter r.1 = some cp
  sorted : page.common.Pairwise (· < ·)
  count : page.contents.length + page.common.length ≤ inp.max
  whole : page.truncated = false → rest = [] ∧ page.cursor = none
  cut : page.truncated = true → rest ≠ [] ∧
    (∃ last ∈ done.getLast?, page.cursor = some last.1) ∧
    ∀ r ∈ done, ∀ r' ∈ rest, ∀ cp ∈ rollUp inp.pre inp.delimiter r.1,
      rollUp inp.pre inp.delimiter r'.1 ≠ some cp

theorem Scan.page_sorted (s : Scan) : s.page.common.Pairwise (· < ·) :=
  Std.ExtTreeSet.ordered_toList.imp compare_lt_iff_lt.mp

theorem Scan.page_count (s : Scan) : s.page.contents.length + s.page.common.length = s.count := by
  rw [Scan.count, ← Std.ExtTreeSet.length_toList]
  rfl

def rowsOf (keys : Option KeyRows) : List (String × ObjEntry) := keys.elim [] KeyRows.rows

theorem rowsOf_ascending (keys : Option KeyRows) : (rowsOf keys).Pairwise (·.1 < ·.1) := by
  cases keys with
  | none => exact .nil
  | some keys => exact keys.rows_ascending

theorem matching_ascending (inp : ListObjectsV2Input) (after : Option String)
    (keys : Option KeyRows) : (inp.matching after (rowsOf keys)).Pairwise (·.1 < ·.1) :=
  (rowsOf_ascending keys).filter _

theorem pageOf_listPage {inp : ListObjectsV2Input} {keys : Option KeyRows}
    {resumeAfter : Option String} {page : Page}
    (h : listPage keys inp resumeAfter = some page) (hmax : 0 < inp.max) :
    ∃ done rest, PageOf inp (rowsOf keys) (resumeAfter.or inp.startAfter) page done rest := by
  cases keys with
  | none =>
    cases h
    refine ⟨[], [], ?_⟩
    exact
      { split := rfl
        contents := rfl
        common := by simp [Scan.page]
        sorted := Scan.page_sorted {}
        count := by simp [Scan.page]
        whole := fun _ => ⟨rfl, rfl⟩
        cut := nofun }
  | some keys =>
    rw [listPage, if_pos hmax] at h
    obtain ⟨s', hs', rfl⟩ := Option.map_eq_some_iff.mp h
    obtain ⟨done, rest, hd⟩ :=
      scanned_of_scan (keys.rows_ascending.filter _) hs' rfl (Nat.zero_le _)
    have hsplit : inp.matching (resumeAfter.or inp.startAfter) keys.rows = done ++ rest :=
      (ListObjectsV2Input.filter_rangeFrom keys resumeAfter).symm.trans hd.split
    have hasc : (done ++ rest).Pairwise (·.1 < ·.1) :=
      hsplit ▸ matching_ascending inp _ (some keys)
    have hstart : ∀ r ∈ done ++ rest, startsWith r.1 inp.pre = true := by
      intro r hr
      rw [← hsplit] at hr
      exact startsWith_iff.mpr (ListObjectsV2Input.mem_matching.mp hr).2.1
    refine ⟨done, rest, ?_⟩
    exact
      { split := hsplit
        contents := by simpa [Scan.page] using hd.contents
        common := by simpa [Scan.page] using hd.common
        sorted := s'.page_sorted
        count := s'.page_count ▸ hd.count
        whole := fun ht => ⟨hd.whole ht, if_neg (by simpa [Scan.page] using ht)⟩
        cut := by
          intro ht
          obtain ⟨hfull, r₀, later, rfl, hnew⟩ := hd.cut ht
          refine ⟨List.cons_ne_nil _ _, ?_, ?_⟩
          · have hcursor : s'.page.cursor = done.getLast?.map (·.1) := by
              show (if s'.truncated then s'.lastScanned else none) = _
              rw [if_pos (show s'.truncated = true from ht), hd.last, Option.or_none]
            rw [hcursor]
            cases hlast : done.getLast? with
            | some last => exact ⟨last, rfl, rfl⟩
            | none => exact absurd (hd.count_eq_zero (List.getLast?_eq_none_iff.mp hlast)) (by omega)
          · -- a common prefix on both sides would hold the first row left, but that row is new
            intro r hr r' hr' cp hcp hcp'
            have hr₀ : r.1 < r₀.1 := (List.pairwise_append.mp hasc).2.2 r hr r₀ List.mem_cons_self
            have hle : r₀.1 ≤ r'.1 := by
              rcases List.mem_cons.mp hr' with rfl | hr'
              · exact le_rfl
              · exact (List.rel_of_pairwise_cons (List.pairwise_append.mp hasc).2.1 hr').le
            have hp := isPrefix_of_rollUp (hstart r (List.mem_append_left _ hr)) hcp
            have hp' := isPrefix_of_rollUp (hstart r' (List.mem_append_right _ hr')) hcp'
            have hcpr : cp ≤ r.1 := String.le_iff_toList_le.mpr (Lex.le_of_isPrefix hp)
            have hp₀ : cp.toList <+: r₀.1.toList :=
              Lex.isPrefix_of_le (String.le_iff_toList_le.mp (hcpr.trans hr₀.le))
                (String.le_iff_toList_le.mp hle) hp'
            exact hnew cp (rollUp_of_isPrefix hcp hp₀) ((hd.common cp).mpr (.inr ⟨r, hr, hcp⟩)) }

theorem key_of_listed {row : String × ObjEntry} {o : Object} (h : listed row = some o) :
    o.key = row.1 := by
  obtain ⟨size, -, rfl⟩ := Option.map_eq_some_iff.mp h
  rfl

theorem keys_of_listed {contents : List Object} {rows : List (String × ObjEntry)}
    (h : contents.map some = rows.map listed) : contents.map (·.key) = rows.map (·.1) := by
  induction contents generalizing rows with
  | nil => rw [List.map_eq_nil_iff.mp h.symm]; rfl
  | cons o contents ih =>
    obtain ⟨row, rows, rfl, ho, h⟩ := List.map_eq_cons_iff.mp h.symm
    rw [List.map_cons, List.map_cons, ih h.symm, key_of_listed ho]

theorem rollUp_lt {pre key key' cp cp' : String} {d : Option String}
    (hkey : startsWith key pre = true) (hkey' : startsWith key' pre = true) (hlt : key < key')
    (h : rollUp pre d key = some cp) (h' : rollUp pre d key' = some cp') (hne : cp ≠ cp') :
    cp < cp' := by
  by_contra hnot
  have hcp : cp' < cp := lt_of_le_of_ne (not_lt.mp hnot) hne.symm
  have hp := isPrefix_of_rollUp hkey h
  have hlt' : cp'.toList < key.toList :=
    (String.lt_iff_toList_lt.mp hcp).trans_le (Lex.le_of_isPrefix hp)
  have hn : ¬ cp'.toList <+: key.toList := by
    intro hp'
    exact hne (Option.some.inj (h.symm.trans (rollUp_of_isPrefix h' hp')))
  -- so everything that begins with the smaller one is before the key
  obtain ⟨rest, hrest⟩ := isPrefix_of_rollUp hkey' h'
  have hback := Lex.append_lt hlt' hn rest
  rw [hrest] at hback
  exact absurd (String.lt_iff_toList_lt.mpr hback) hlt.not_gt

namespace PageOf

variable {inp : ListObjectsV2Input} {keys : Option KeyRows} {after : Option String} {page : Page}
  {done rest : List (String × ObjEntry)} {cursor : String}

theorem ascending (h : PageOf inp (rowsOf keys) after page done rest) :
    (done ++ rest).Pairwise (·.1 < ·.1) := h.split ▸ matching_ascending inp after keys

theorem mem_rows (h : PageOf inp (rowsOf keys) after page done rest) {row : String × ObjEntry} :
    row ∈ done ++ rest ↔ row ∈ rowsOf keys ∧ inp.Matches after row.1 := by
  rw [← h.split, ListObjectsV2Input.mem_matching]

theorem startsWith (h : PageOf inp (rowsOf keys) after page done rest) {row : String × ObjEntry}
    (hrow : row ∈ done ++ rest) : startsWith row.1 inp.pre = true :=
  startsWith_iff.mpr (h.mem_rows.mp hrow).2.1

theorem page_keys (h : PageOf inp (rowsOf keys) after page done rest) :
    page.contents.map (·.key) =
      (done.filter (rollUp inp.pre inp.delimiter ·.1 = none)).map (·.1) :=
  keys_of_listed h.contents

theorem mem_page_keys (h : PageOf inp (rowsOf keys) after page done rest) {key : String} :
    key ∈ page.contents.map (·.key) ↔
      (∃ e, (key, e) ∈ done) ∧ ¬ ∃ cp, inp.CommonPrefix key cp := by
  have hroll : ∀ e, (key, e) ∈ done → (rollUp inp.pre inp.delimiter key = none ↔
      ¬ ∃ cp, inp.CommonPrefix key cp) :=
    fun e he => rollUp_eq_none_iff (h.startsWith (List.mem_append_left rest he))
  rw [h.page_keys]
  simp only [List.mem_map, List.mem_filter, decide_eq_true_eq, Prod.exists, exists_and_right,
    exists_eq_right]
  exact and_congr_right fun ⟨e, he⟩ => hroll e he

theorem mem_page_common (h : PageOf inp (rowsOf keys) after page done rest) {cp : String} :
    cp ∈ page.common ↔ ∃ key, (∃ e, (key, e) ∈ done) ∧ inp.CommonPrefix key cp := by
  rw [h.common]
  constructor
  · rintro ⟨⟨key, e⟩, hr, hroll⟩
    exact ⟨key, ⟨e, hr⟩,
      (rollUp_eq_some_iff (h.startsWith (List.mem_append_left rest hr))).mp hroll⟩
  · rintro ⟨key, ⟨e, hr⟩, hcp⟩
    exact ⟨(key, e), hr,
      (rollUp_eq_some_iff (h.startsWith (List.mem_append_left rest hr))).mpr hcp⟩

theorem page_ascending (h : PageOf inp (rowsOf keys) after page done rest) :
    (page.contents.map (·.key)).Pairwise (· < ·) := by
  rw [h.page_keys]
  exact List.pairwise_map.mpr ((List.pairwise_append.mp h.ascending).1.filter _)

theorem nonempty (h : PageOf inp (rowsOf keys) after page done rest)
    (hmatch : inp.matching after (rowsOf keys) ≠ []) :
    page.contents ≠ [] ∨ page.common ≠ [] := by
  have hdone : done ≠ [] := by
    cases ht : page.truncated with
    | true =>
      obtain ⟨-, ⟨last, hlast, -⟩, -⟩ := h.cut ht
      exact List.ne_nil_of_mem (List.mem_of_mem_getLast? hlast)
    | false =>
      rw [h.split, (h.whole ht).1, List.append_nil] at hmatch
      exact hmatch
  obtain ⟨r, hr⟩ := List.exists_mem_of_ne_nil _ hdone
  by_cases hcp : ∃ cp, inp.CommonPrefix r.1 cp
  · obtain ⟨cp, hcp⟩ := hcp
    exact .inr (List.ne_nil_of_mem (h.mem_page_common.mpr ⟨r.1, ⟨r.2, hr⟩, hcp⟩))
  · have hkey := h.mem_page_keys.mpr ⟨⟨r.2, hr⟩, hcp⟩
    exact .inl fun he => by simp [he] at hkey

theorem last_of_cursor (h : PageOf inp (rowsOf keys) after page done rest)
    (hcursor : page.cursor = some cursor) : page.truncated = true ∧
      ∃ init e, done = init ++ [(cursor, e)] := by
  cases ht : page.truncated with
  | false =>
    rw [(h.whole ht).2] at hcursor
    cases hcursor
  | true =>
    obtain ⟨-, ⟨⟨key, e⟩, hlast, hc⟩, -⟩ := h.cut ht
    obtain rfl : key = cursor := Option.some.inj (hc.symm.trans hcursor)
    obtain ⟨init, hinit⟩ := List.getLast?_eq_some_iff.mp hlast
    exact ⟨rfl, init, e, hinit⟩

theorem cursor_matches (h : PageOf inp (rowsOf keys) after page done rest)
    (hcursor : page.cursor = some cursor) : inp.Matches after cursor := by
  obtain ⟨-, init, e, rfl⟩ := h.last_of_cursor hcursor
  have hmem : (cursor, e) ∈ (init ++ [(cursor, e)]) ++ rest := by simp
  exact (h.mem_rows.mp hmem).2

theorem le_cursor (h : PageOf inp (rowsOf keys) after page done rest)
    (hcursor : page.cursor = some cursor) {row : String × ObjEntry} (hrow : row ∈ done) :
    row.1 ≤ cursor := by
  obtain ⟨-, init, e, rfl⟩ := h.last_of_cursor hcursor
  rcases List.mem_append.mp hrow with hinit | hlast
  · have hasc := (List.pairwise_append.mp h.ascending).1
    exact ((List.pairwise_append.mp hasc).2.2 row hinit _ (List.mem_singleton_self _)).le
  · rw [List.mem_singleton.mp hlast]

theorem mem_rest (h : PageOf inp (rowsOf keys) after page done rest)
    (hcursor : page.cursor = some cursor) {row : String × ObjEntry} :
    row ∈ rest ↔ row ∈ rowsOf keys ∧ inp.Matches (some cursor) row.1 := by
  have hmatch := h.cursor_matches hcursor
  constructor
  · intro hrow
    obtain ⟨hrows, hp, -⟩ := h.mem_rows.mp (List.mem_append_right done hrow)
    refine ⟨hrows, hp, ?_⟩
    rintro bound ⟨rfl⟩
    obtain ⟨-, init, e, rfl⟩ := h.last_of_cursor hcursor
    exact (List.pairwise_append.mp h.ascending).2.2 (cursor, e) (by simp) row hrow
  · rintro ⟨hrows, hp, hafter⟩
    have hlt : cursor < row.1 := hafter cursor rfl
    have hboth : row ∈ done ++ rest :=
      h.mem_rows.mpr ⟨hrows, hp, fun bound hb => (hmatch.2 bound hb).trans hlt⟩
    refine (List.mem_append.mp hboth).resolve_left fun hdone => ?_
    exact absurd hlt (h.le_cursor hcursor hdone).not_gt

end PageOf

end S3Cache.Index

import S3Cache.Index.ListScan

/-! A walk over LIST pages, each resumed from the cursor of the one before.  Over rows that stay the
pages add up to the listing, and over rows that change none is listed twice and none that stays is
missed. -/

namespace S3Cache.Index

/-- What a request past `after` lists: every matching key without a common prefix once and in key
order, and every common prefix of the others once. -/
structure ListObjectsV2Input.IsListing (inp : ListObjectsV2Input) (keys : KeyRows)
    (after : Option String) (contents : List Object)
    (common : List String) : Prop where
  ascending : (contents.map (·.key)).Pairwise (· < ·)
  listed : ∀ o ∈ contents, ∃ e ∈ keys.get o.key, Index.listed (o.key, e) = some o
  mem_contents : ∀ key, key ∈ contents.map (·.key) ↔
    (keys.get key).isSome ∧ inp.Matches after key ∧ ¬ ∃ cp, inp.CommonPrefix key cp
  common_ascending : common.Pairwise (· < ·)
  mem_common : ∀ cp, cp ∈ common ↔
    ∃ key, (keys.get key).isSome ∧ inp.Matches after key ∧ inp.CommonPrefix key cp

section Listing

variable {inp : ListObjectsV2Input} {keys : KeyRows} {after : Option String} {page : Page}
  {done rest : List (String × ObjEntry)} {cursor : String} {contents : List Object}
  {common : List String}

theorem isSome_get_iff {key : String} :
    (keys.get key).isSome ↔ ∃ e, (key, e) ∈ rowsOf (some keys) := by
  rw [Option.isSome_iff_exists]
  exact exists_congr fun e => KeyRows.mem_rows.symm

theorem PageOf.listed_mem (h : PageOf inp (rowsOf (some keys)) after page done rest) {o : Object}
    (ho : o ∈ page.contents) : ∃ e ∈ keys.get o.key, listed (o.key, e) = some o := by
  have hmem := List.mem_map_of_mem (f := some) ho
  rw [h.contents] at hmem
  obtain ⟨⟨key, e⟩, hr, hlisted⟩ := List.mem_map.mp hmem
  obtain rfl := key_of_listed hlisted
  have hrow := (h.mem_rows.mp (List.mem_append_left rest (List.mem_of_mem_filter hr))).1
  exact ⟨e, KeyRows.mem_rows.mp hrow, hlisted⟩

theorem PageOf.isListing (h : PageOf inp (rowsOf (some keys)) after page done rest)
    (ht : page.truncated = false) : inp.IsListing keys after page.contents page.common := by
  obtain ⟨rfl, -⟩ := h.whole ht
  have hrows : ∀ key, (∃ e, (key, e) ∈ done) ↔ (keys.get key).isSome ∧ inp.Matches after key := by
    intro key
    simp only [isSome_get_iff, ← exists_and_right, ← h.mem_rows, List.append_nil]
  exact
    { ascending := h.page_ascending
      listed := fun o ho => h.listed_mem ho
      mem_contents := fun key => by rw [h.mem_page_keys, hrows, and_assoc]
      common_ascending := h.sorted
      mem_common := fun cp => by simp only [h.mem_page_common, hrows, and_assoc] }

theorem PageOf.isListing_append (h : PageOf inp (rowsOf (some keys)) after page done rest)
    (hcursor : page.cursor = some cursor) (hlater : inp.IsListing keys (some cursor) contents common) :
    inp.IsListing keys after (page.contents ++ contents) (page.common ++ common) := by
  have hrest : ∀ key, (∃ e, (key, e) ∈ rest) ↔
      (keys.get key).isSome ∧ inp.Matches (some cursor) key := by
    intro key
    simp only [isSome_get_iff, ← exists_and_right, ← h.mem_rest hcursor]
  have hrows : ∀ key, (∃ e, (key, e) ∈ done) ∨ (keys.get key).isSome ∧ inp.Matches (some cursor) key ↔
      (keys.get key).isSome ∧ inp.Matches after key := by
    intro key
    rw [← hrest, ← exists_or]
    simp only [isSome_get_iff, ← exists_and_right, ← h.mem_rows, List.mem_append]
  have hlt : ∀ key key', (∃ e, (key, e) ∈ done) → (∃ e, (key', e) ∈ rest) → key < key' := by
    rintro key key' ⟨e, he⟩ ⟨e', he'⟩
    exact (List.pairwise_append.mp h.ascending).2.2 _ he _ he'
  exact
    { ascending := by
        rw [List.map_append]
        refine List.pairwise_append.mpr ⟨h.page_ascending, hlater.ascending, ?_⟩
        intro key hkey key' hkey'
        obtain ⟨hsome, hm, -⟩ := (hlater.mem_contents key').mp hkey'
        exact hlt key key' (h.mem_page_keys.mp hkey).1 ((hrest key').mpr ⟨hsome, hm⟩)
      listed := by
        intro o ho
        rcases List.mem_append.mp ho with ho | ho
        · exact h.listed_mem ho
        · exact hlater.listed o ho
      mem_contents := by
        intro key
        rw [List.map_append, List.mem_append, h.mem_page_keys, hlater.mem_contents, ← and_assoc,
          ← or_and_right, hrows, and_assoc]
      common_ascending := by
        refine List.pairwise_append.mpr ⟨h.sorted, hlater.common_ascending, ?_⟩
        intro cp hcp cp' hcp'
        obtain ⟨r, hr, hroll⟩ := (h.common cp).mp hcp
        obtain ⟨key', hsome, hm, hp'⟩ := (hlater.mem_common cp').mp hcp'
        obtain ⟨e', hr'⟩ := (hrest key').mpr ⟨hsome, hm⟩
        have hkey' := h.startsWith (List.mem_append_right done hr')
        have hroll' := (rollUp_eq_some_iff hkey').mpr hp'
        have hne : cp ≠ cp' := by
          rintro rfl
          exact (h.cut (h.last_of_cursor hcursor).1).2.2 r hr _ hr' cp hroll hroll'
        exact rollUp_lt (h.startsWith (List.mem_append_left rest hr)) hkey'
          (hlt _ _ ⟨r.2, hr⟩ ⟨e', hr'⟩) hroll hroll' hne
      mem_common := by
        intro cp
        rw [List.mem_append, h.mem_page_common, hlater.mem_common, ← exists_or]
        refine exists_congr fun key => ?_
        rw [← and_assoc, ← or_and_right, hrows, and_assoc] }

end Listing

theorem walk_cons {inp : ListObjectsV2Input} {resumeAfter : Option String} {keys : Option KeyRows}
    {rows : List (Option KeyRows)} {pages : List Page}
    (h : walk inp resumeAfter (keys :: rows) = some pages) :
    ∃ page, listPage keys inp resumeAfter = some page ∧
      (page.truncated = true ∧ (∃ later, walk inp page.cursor rows = some later ∧
        pages = page :: later) ∨ page.truncated = false ∧ rows = [] ∧ pages = [page]) := by
  obtain ⟨page, hpage, h⟩ := Option.bind_eq_some_iff.mp h
  refine ⟨page, hpage, ?_⟩
  split at h
  · next ht =>
    obtain ⟨later, hlater, rfl⟩ := Option.map_eq_some_iff.mp h
    exact .inl ⟨ht, later, hlater, rfl⟩
  · next ht =>
    split at h
    · next hrows =>
      cases h
      exact .inr ⟨Bool.not_eq_true _ ▸ ht, List.isEmpty_iff.mp hrows, rfl⟩
    · cases h

theorem walk_step {inp : ListObjectsV2Input} {resumeAfter : Option String} {keys : Option KeyRows}
    {rows : List (Option KeyRows)} {pages : List Page} (hmax : 0 < inp.max)
    (h : walk inp resumeAfter (keys :: rows) = some pages) :
    ∃ page done rest, PageOf inp (rowsOf keys) (resumeAfter.or inp.startAfter) page done rest ∧
      ((∃ cursor later, page.cursor = some cursor ∧ walk inp (some cursor) rows = some later ∧
        pages = page :: later) ∨ page.truncated = false ∧ rows = [] ∧ pages = [page]) := by
  obtain ⟨page, hpage, hstep⟩ := walk_cons h
  obtain ⟨done, rest, hp⟩ := pageOf_listPage hpage hmax
  refine ⟨page, done, rest, hp, hstep.imp_left ?_⟩
  rintro ⟨ht, later, hlater, rfl⟩
  obtain ⟨-, ⟨last, -, hcursor⟩, -⟩ := hp.cut ht
  exact ⟨last.1, later, hcursor, hcursor ▸ hlater, rfl⟩

section Still

variable {inp : ListObjectsV2Input} {keys : KeyRows} {resumeAfter : Option String}
  {pages before later : List Page} {page : Page} {n : Nat}

theorem walk_isListing (hmax : 0 < inp.max)
    (h : walk inp resumeAfter (List.replicate n (some keys)) = some pages) :
    inp.IsListing keys (resumeAfter.or inp.startAfter) (pages.flatMap (·.contents))
      (pages.flatMap (·.common)) := by
  induction n generalizing resumeAfter pages with
  | zero => cases h
  | succ n ih =>
    obtain ⟨page, done, rest, hp, ⟨cursor, later, hcursor, hlater, rfl⟩ | ⟨ht, -, rfl⟩⟩ :=
      walk_step hmax h
    · exact hp.isListing_append hcursor (ih hlater)
    · simpa using hp.isListing ht

theorem walk_count (hmax : 0 < inp.max)
    (h : walk inp resumeAfter (List.replicate n (some keys)) = some pages) (hpage : page ∈ pages) :
    page.contents.length + page.common.length ≤ inp.max ∧
      page.truncated = page.cursor.isSome := by
  induction n generalizing resumeAfter pages with
  | zero => cases h
  | succ n ih =>
    obtain ⟨first, done, rest, hp, ⟨cursor, later, hcursor, hlater, rfl⟩ | ⟨ht, -, rfl⟩⟩ :=
      walk_step hmax h
    · rcases List.mem_cons.mp hpage with rfl | hpage
      · exact ⟨hp.count, by rw [hcursor, (hp.last_of_cursor hcursor).1]; rfl⟩
      · exact ih hlater hpage
    · rw [List.mem_singleton.mp hpage]
      exact ⟨hp.count, by rw [ht, (hp.whole ht).2]; rfl⟩

theorem walk_truncated (hmax : 0 < inp.max)
    (h : walk inp resumeAfter (List.replicate n (some keys)) = some pages)
    (hpages : pages = before ++ page :: later) :
    page.truncated = true ↔ later.flatMap (·.contents) ≠ [] ∨ later.flatMap (·.common) ≠ [] := by
  induction n generalizing resumeAfter pages before with
  | zero => cases h
  | succ n ih =>
    obtain ⟨first, done, rest, hp, ⟨cursor, others, hcursor, hlater, rfl⟩ | ⟨ht, -, rfl⟩⟩ :=
      walk_step hmax h
    · cases before with
      | cons b before =>
        obtain ⟨rfl, hothers⟩ := List.cons_eq_cons.mp hpages
        exact ih hlater hothers
      | nil =>
        obtain ⟨rfl, rfl⟩ := List.cons_eq_cons.mp hpages
        obtain ⟨ht, -⟩ := hp.last_of_cursor hcursor
        refine iff_of_true ht ?_
        -- the next page has a row to list
        obtain ⟨r, hr⟩ := List.exists_mem_of_ne_nil _ (hp.cut ht).1
        have hmatch : inp.matching (some cursor) (rowsOf (some keys)) ≠ [] :=
          List.ne_nil_of_mem
            (ListObjectsV2Input.mem_matching.mpr ((hp.mem_rest hcursor).mp hr))
        cases n with
        | zero => cases hlater
        | succ n =>
          obtain ⟨next, done', rest', hp', hnext⟩ := walk_step hmax hlater
          have hitems := hp'.nonempty hmatch
          have hhead : ∃ tail, others = next :: tail := by
            rcases hnext with ⟨_, tail, -, -, rfl⟩ | ⟨-, -, rfl⟩
            · exact ⟨tail, rfl⟩
            · exact ⟨[], rfl⟩
          obtain ⟨tail, rfl⟩ := hhead
          rw [List.flatMap_cons, List.flatMap_cons]
          exact hitems.imp (List.append_ne_nil_of_left_ne_nil · _)
            (List.append_ne_nil_of_left_ne_nil · _)
    · cases before with
      | nil =>
        obtain ⟨rfl, rfl⟩ := List.cons_eq_cons.mp hpages
        simp [ht]
      | cons b before => simp at hpages

theorem walk_handed (hmax : 0 < inp.max)
    (h : walk inp resumeAfter (List.replicate n (some keys)) = some pages)
    (hpages : pages = before ++ page :: later) {cursor : String} (hcursor : page.cursor = some cursor)
    {contents : List Object} {common : List String}
    (hrest : inp.IsListing keys (some cursor) contents common) :
    inp.IsListing keys (resumeAfter.or inp.startAfter)
      ((before ++ [page]).flatMap (·.contents) ++ contents)
      ((before ++ [page]).flatMap (·.common) ++ common) := by
  induction n generalizing resumeAfter pages before with
  | zero => cases h
  | succ n ih =>
    obtain ⟨first, done, rest, hp, ⟨c, others, hc, hlater, rfl⟩ | ⟨ht, -, rfl⟩⟩ :=
      walk_step hmax h
    · cases before with
      | cons b before =>
        obtain ⟨rfl, hothers⟩ := List.cons_eq_cons.mp hpages
        have hlist := hp.isListing_append hc (ih hlater hothers)
        simpa only [List.cons_append, List.flatMap_cons, List.append_assoc] using hlist
      | nil =>
        obtain ⟨rfl, -⟩ := List.cons_eq_cons.mp hpages
        simpa using hp.isListing_append hcursor hrest
    · cases before with
      | nil =>
        obtain ⟨rfl, -⟩ := List.cons_eq_cons.mp hpages
        rw [(hp.whole ht).2] at hcursor
        cases hcursor
      | cons b before => simp at hpages

theorem listPage_isSome (hsizes : ∀ key, ∀ e ∈ keys.get key, e.size.isSome)
    (inp : ListObjectsV2Input) (resumeAfter : Option String) :
    ∃ page, listPage (some keys) inp resumeAfter = some page := by
  have hscan : (scan inp.max inp.pre inp.delimiter (keys.rangeFrom (inp.lower resumeAfter))
      {}).isSome :=
    scan_isSome (fun r hr => hsizes r.1 r.2 (KeyRows.mem_rows.mp (List.mem_of_mem_filter hr))) _
  rw [listPage]
  split
  · obtain ⟨s, hs⟩ := Option.isSome_iff_exists.mp hscan
    exact ⟨s.page, by rw [hs]; rfl⟩
  · exact ⟨_, rfl⟩

theorem walk_terminates (hmax : 0 < inp.max) (hsizes : ∀ key, ∀ e ∈ keys.get key, e.size.isSome)
    (resumeAfter : Option String) :
    ∃ n pages, walk inp resumeAfter (List.replicate n (some keys)) = some pages := by
  induction hlen : (inp.matching (resumeAfter.or inp.startAfter) (rowsOf (some keys))).length using
    Nat.strong_induction_on generalizing resumeAfter with
  | _ m ih =>
    obtain ⟨page, hpage⟩ := listPage_isSome hsizes inp resumeAfter
    obtain ⟨done, rest, hp⟩ := pageOf_listPage hpage hmax
    cases ht : page.truncated with
    | false => exact ⟨1, [page], by simp [walk, hpage, ht]⟩
    | true =>
      obtain ⟨-, ⟨last, hlast, hcursor⟩, -⟩ := hp.cut ht
      -- the rows past the cursor are fewer, since the page has consumed at least one
      have hdone : 0 < done.length := List.length_pos_of_mem (List.mem_of_mem_getLast? hlast)
      have hsub : inp.matching (some last.1) (rowsOf (some keys)) ⊆ rest := fun r hr =>
        (hp.mem_rest hcursor).mpr (ListObjectsV2Input.mem_matching.mp hr)
      have hnodup : (inp.matching (some last.1) (rowsOf (some keys))).Nodup :=
        (matching_ascending inp _ _).imp fun hlt he => absurd (he ▸ hlt) (lt_irrefl _)
      have hless := (hnodup.subperm hsub).length_le
      rw [hp.split, List.length_append] at hlen
      obtain ⟨n, later, hlater⟩ := ih _ (by simp only [Option.some_or]; omega) (some last.1) rfl
      refine ⟨n + 1, page :: later, ?_⟩
      rw [List.replicate_succ, walk, hpage, Option.bind_some, if_pos ht, hcursor, hlater]
      rfl

end Still

theorem pages_add_up (inp : ListObjectsV2Input) (keys : KeyRows)
    (hsizes : ∀ key, ∀ e ∈ keys.get key, e.size.isSome) (hmax : 0 < inp.max) :
    ∃ n pages, walk inp none (List.replicate n (some keys)) = some pages ∧
      inp.IsListing keys inp.startAfter (pages.flatMap (·.contents)) (pages.flatMap (·.common)) ∧
      ∀ before page later, pages = before ++ page :: later →
        page.contents.length + page.common.length ≤ inp.max ∧
        page.truncated = page.cursor.isSome ∧
        (page.truncated = true ↔
          later.flatMap (·.contents) ≠ [] ∨ later.flatMap (·.common) ≠ []) ∧
        ∀ cursor ∈ page.cursor, ∀ token contents common,
          let origin := (rewriteForOrigin inp token cursor).1
          origin.IsListing keys origin.startAfter contents common →
          inp.IsListing keys inp.startAfter
            ((before ++ [page]).flatMap (·.contents) ++ contents)
            ((before ++ [page]).flatMap (·.common) ++ common) := by
  obtain ⟨n, pages, h⟩ := walk_terminates hmax hsizes none
  refine ⟨n, pages, h, walk_isListing hmax h, fun before page later hpages => ?_⟩
  have hpage : page ∈ pages := by simp [hpages]
  obtain ⟨hcount, hcursor⟩ := walk_count hmax h hpage
  refine ⟨hcount, hcursor, walk_truncated hmax h hpages, ?_⟩
  intro cursor hc token contents common origin horigin
  exact walk_handed hmax h hpages hc { horigin with }

def sampleObjEntry : ObjEntry :=
  ⟨some 1, .unixEpoch, some (.strong "x"), standardClass, none, none⟩

def sampleKeys : KeyRows where
  map := ((((∅ : OrdMap ObjEntry).insert "a" sampleObjEntry).insert "d/x" sampleObjEntry).insert
    "d/y" sampleObjEntry).insert "e" sampleObjEntry

theorem sampleKeys_sized : ∀ key, ∀ e ∈ sampleKeys.get key, e.size.isSome := by
  have hrows : ∀ r ∈ sampleKeys.rows, r.2.size.isSome := by decide +kernel
  exact fun key e he => hrows (key, e) (KeyRows.mem_rows.mpr he)

theorem pages_add_up_sample :
    let inp : ListObjectsV2Input := { bucket := "b", delimiter := some "/", maxKeys := some 2 }
    ∃ n pages, walk inp none (List.replicate n (some sampleKeys)) = some pages ∧
      inp.IsListing sampleKeys inp.startAfter (pages.flatMap (·.contents))
        (pages.flatMap (·.common)) := by
  obtain ⟨n, pages, h, hlist, -⟩ := pages_add_up
    { bucket := "b", delimiter := some "/", maxKeys := some 2 } sampleKeys sampleKeys_sized
    (by decide)
  exact ⟨n, pages, h, hlist⟩

/-- Four keys in two pages, two of them collapsed. -/
example : (walk { bucket := "b", delimiter := some "/", maxKeys := some 2 } none
    [some sampleKeys, some sampleKeys]).map (·.map fun page =>
      (page.contents.map (·.key), page.common, page.cursor)) =
    some [(["a"], ["d/"], some "d/y"), (["e"], [], none)] := by decide +kernel

section Changing

variable {inp : ListObjectsV2Input} {resumeAfter : Option String} {rows : List (Option KeyRows)}
  {pages : List Page}

def walkKeys (pages : List Page) : List String := pages.flatMap (·.contents.map (·.key))

theorem walkKeys_cons (page : Page) (later : List Page) :
    walkKeys (page :: later) = page.contents.map (·.key) ++ walkKeys later := List.flatMap_cons

theorem walkKeys_singleton (page : Page) : walkKeys [page] = page.contents.map (·.key) :=
  List.flatMap_singleton _ _

theorem walk_ascending (hmax : 0 < inp.max) (h : walk inp resumeAfter rows = some pages) :
    (walkKeys pages).Pairwise (· < ·) ∧
      ∀ key ∈ walkKeys pages, ∀ bound ∈ resumeAfter.or inp.startAfter, bound < key := by
  induction rows generalizing resumeAfter pages with
  | nil => cases h
  | cons keys rows ih =>
    obtain ⟨page, done, rest, hp, hstep⟩ := walk_step hmax h
    have hbound : ∀ key ∈ page.contents.map (·.key), ∀ bound ∈ resumeAfter.or inp.startAfter,
        bound < key := by
      intro key hkey
      obtain ⟨e, he⟩ := (hp.mem_page_keys.mp hkey).1
      exact (hp.mem_rows.mp (List.mem_append_left rest he)).2.2
    rcases hstep with ⟨cursor, later, hcursor, hlater, rfl⟩ | ⟨-, -, rfl⟩
    · obtain ⟨hasc, hpast⟩ := ih hlater
      rw [walkKeys_cons]
      constructor
      · refine List.pairwise_append.mpr ⟨hp.page_ascending, hasc, ?_⟩
        intro key hkey key' hkey'
        obtain ⟨e, he⟩ := (hp.mem_page_keys.mp hkey).1
        exact (hp.le_cursor hcursor he).trans_lt (hpast key' hkey' cursor rfl)
      · intro key hkey bound hb
        rcases List.mem_append.mp hkey with hkey | hkey
        · exact hbound key hkey bound hb
        · exact ((hp.cursor_matches hcursor).2 bound hb).trans (hpast key hkey cursor rfl)
    · rw [walkKeys_singleton]
      exact ⟨hp.page_ascending, hbound⟩

theorem mem_walkKeys (hmax : 0 < inp.max) (hdelimiter : inp.delimiter = none)
    (h : walk inp resumeAfter rows = some pages) {key : String}
    (hkey : inp.Matches (resumeAfter.or inp.startAfter) key)
    (hstays : ∀ keys ∈ rows, ∃ e, (key, e) ∈ rowsOf keys) : key ∈ walkKeys pages := by
  induction rows generalizing resumeAfter pages with
  | nil => cases h
  | cons keys rows ih =>
    obtain ⟨⟨e, he⟩, hlater⟩ := List.forall_mem_cons.mp hstays
    obtain ⟨page, done, rest, hp, hstep⟩ := walk_step hmax h
    have hno : ¬ ∃ cp, inp.CommonPrefix key cp := by
      rintro ⟨cp, d, hd, -⟩
      rw [hdelimiter] at hd
      cases hd
    rcases List.mem_append.mp (hp.mem_rows.mpr ⟨he, hkey⟩) with hdone | hrest
    · have hpage := hp.mem_page_keys.mpr ⟨⟨e, hdone⟩, hno⟩
      rcases hstep with ⟨_, later, -, -, rfl⟩ | ⟨-, -, rfl⟩
      · exact walkKeys_cons page later ▸ List.mem_append_left _ hpage
      · rwa [walkKeys_singleton]
    · rcases hstep with ⟨cursor, later, hcursor, hwalk, rfl⟩ | ⟨ht, -, rfl⟩
      · rw [walkKeys_cons]
        exact List.mem_append_right _ (ih hwalk ((hp.mem_rest hcursor).mp hrest).2 hlater)
      · rw [(hp.whole ht).1] at hrest
        cases hrest

end Changing

theorem walk_stable {inp : ListObjectsV2Input} {rows : List (Option KeyRows)} {pages : List Page}
    (hmax : 0 < inp.max) (hdelimiter : inp.delimiter = none) (h : walk inp none rows = some pages) :
    (walkKeys pages).Pairwise (· < ·) ∧
    ∀ key, inp.Matches inp.startAfter key →
      (∀ keys ∈ rows, ∃ bucket ∈ keys, (bucket.get key).isSome) → (walkKeys pages).count key = 1 := by
  have hasc := (walk_ascending hmax h).1
  refine ⟨hasc, fun key hkey hstays => ?_⟩
  refine List.count_eq_one_of_mem (hasc.imp fun hlt => hlt.ne) ?_
  apply mem_walkKeys hmax hdelimiter h hkey
  intro keys hmem
  obtain ⟨bucket, hb, hsome⟩ := hstays keys hmem
  obtain rfl : keys = some bucket := hb
  exact isSome_get_iff.mp hsome

def sampleKeysLater : KeyRows where
  map := ((((sampleKeys.map.erase "a").erase "d/x").insert "0" sampleObjEntry).insert "d/z"
    sampleObjEntry)

theorem walk_stable_sample :
    let inp : ListObjectsV2Input := { bucket := "b", maxKeys := some 2 }
    ∃ pages, walk inp none [some sampleKeys, some sampleKeysLater, some sampleKeysLater] =
      some pages ∧ walkKeys pages = ["a", "d/x", "d/y", "d/z", "e"] ∧
      (walkKeys pages).count "e" = 1 := by
  have h := (Option.some_get (x := walk { bucket := "b", maxKeys := some 2 } none
    [some sampleKeys, some sampleKeysLater, some sampleKeysLater]) (by decide +kernel)).symm
  refine ⟨_, h, by decide +kernel, (walk_stable (by decide) rfl h).2 "e" ?_ ?_⟩
  · exact ⟨List.nil_prefix, nofun⟩
  · decide +kernel

theorem commonPrefix_empty {inp : ListObjectsV2Input} {after : Option String} {key : String}
    (hdelimiter : inp.delimiter = some "") (hkey : inp.Matches after key) :
    inp.CommonPrefix key inp.pre :=
  ⟨"", hdelimiter, [], by simp, hkey.1, List.nil_suffix, by simp⟩

theorem listPage_of_unmatched {inp : ListObjectsV2Input} {keys : KeyRows}
    {resumeAfter : Option String} {page : Page}
    (h : listPage (some keys) inp resumeAfter = some page)
    (hnone : inp.max = 0 ∨ ∀ key, (keys.get key).isSome →
      ¬ inp.Matches (resumeAfter.or inp.startAfter) key) : page = ⟨[], [], false, none⟩ := by
  rcases Nat.eq_zero_or_pos inp.max with hzero | hmax
  · rw [listPage, if_neg (by omega)] at h
    cases h
    simp [Scan.page]
  · replace hnone := hnone.resolve_left (by omega)
    obtain ⟨done, rest, hp⟩ := pageOf_listPage h hmax
    have hempty : done ++ rest = [] := by
      rw [List.eq_nil_iff_forall_not_mem]
      intro r hr
      obtain ⟨hrow, hm⟩ := hp.mem_rows.mp hr
      exact hnone r.1 (isSome_get_iff.mpr ⟨r.2, hrow⟩) hm
    obtain ⟨rfl, rfl⟩ := List.append_eq_nil_iff.mp hempty
    have ht : page.truncated = false := by
      cases ht : page.truncated with
      | false => rfl
      | true => exact absurd rfl (hp.cut ht).1
    have hcontents : page.contents = [] := by simpa using hp.contents
    have hcommon : page.common = [] := by
      rw [List.eq_nil_iff_forall_not_mem]
      exact fun cp hcp => by simpa using (hp.common cp).mp hcp
    have hcursor := (hp.whole ht).2
    obtain ⟨contents, common, truncated, cursor⟩ := page
    simp_all

/-- The empty delimiter hides a bucket's keys. -/
theorem empty_delimiter_hides :
    listPage (some sampleKeys) { bucket := "b", delimiter := some "" } none =
      some ⟨[], [""], false, none⟩ ∧
    (listPage (some sampleKeys) { bucket := "b" } none).map (·.contents.map (·.key)) =
      some ["a", "d/x", "d/y", "e"] := by
  decide +kernel

theorem empty_delimiter_iff (inp : ListObjectsV2Input) (keys : KeyRows)
    (hsizes : ∀ key, ∀ e ∈ keys.get key, e.size.isSome) (resumeAfter : Option String) :
    (∃ page page',
      listPage (some keys) { inp with delimiter := some "" } resumeAfter = some page ∧
      listPage (some keys) { inp with delimiter := none } resumeAfter = some page' ∧
      page.contents = page'.contents ∧ page.truncated = page'.truncated ∧
      page.cursor = page'.cursor ∧ page.common = []) ↔
    inp.max = 0 ∨ ∀ key, (keys.get key).isSome →
      ¬ inp.Matches (resumeAfter.or inp.startAfter) key := by
  constructor
  · rintro ⟨page, page', h, -, -, -, -, hcommon⟩
    rcases Nat.eq_zero_or_pos inp.max with hzero | hmax
    · exact .inl hzero
    · right
      intro key hsome hkey
      obtain ⟨done, rest, hp⟩ := pageOf_listPage h hmax
      obtain ⟨e, hrow⟩ := isSome_get_iff.mp hsome
      have hmatch := ListObjectsV2Input.mem_matching.mpr ⟨hrow, hkey⟩
      have hcontents : page.contents = [] := by
        rw [← List.map_eq_nil_iff, List.eq_nil_iff_forall_not_mem]
        intro key' hkey'
        obtain ⟨⟨e', he'⟩, hno⟩ := hp.mem_page_keys.mp hkey'
        have hm := (hp.mem_rows.mp (List.mem_append_left rest he')).2
        exact hno ⟨_, commonPrefix_empty rfl hm⟩
      exact (hp.nonempty (List.ne_nil_of_mem hmatch)).elim (· hcontents) (· hcommon)
  · intro hnone
    obtain ⟨page, h⟩ := listPage_isSome hsizes { inp with delimiter := some "" } resumeAfter
    obtain ⟨page', h'⟩ := listPage_isSome hsizes { inp with delimiter := none } resumeAfter
    obtain rfl := listPage_of_unmatched h hnone
    obtain rfl := listPage_of_unmatched h' hnone
    exact ⟨_, _, h, h', rfl, rfl, rfl, rfl⟩

theorem empty_delimiter_iff_sample :
    ∃ page page', listPage (some sampleKeys) { bucket := "b", delimiter := some "" } (some "e") =
        some page ∧ listPage (some sampleKeys) { bucket := "b" } (some "e") = some page' ∧
      page.contents = page'.contents ∧ page.truncated = page'.truncated ∧
      page.cursor = page'.cursor ∧ page.common = [] := by
  refine (empty_delimiter_iff { bucket := "b" } sampleKeys sampleKeys_sized (some "e")).mpr (.inr ?_)
  intro key hsome hkey
  have hrows : ∀ r ∈ sampleKeys.rows, r.1 ≤ "e" := by decide +kernel
  obtain ⟨e, hrow⟩ := isSome_get_iff.mp hsome
  exact absurd (hkey.2 "e" rfl) (hrows _ hrow).not_gt

end S3Cache.Index

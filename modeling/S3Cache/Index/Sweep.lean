import S3Cache.Index.Rows

/-! Histories of a bucket's tombstones (`index/rows.rs`): the incremental sweep keeps what it must
keep, works in bounded steps, and is done with a cutoff after two laps. -/

namespace S3Cache.Index

open Fleet

inductive GoneCall where
  | insert (key : String) (time : SystemTime)
  | raise (key : String) (time : SystemTime)
  | remove (key : String)
  | sweep (cutoff : SystemTime)

def Below (floor : Option SystemTime) (t : SystemTime) : Prop := ∃ f, floor = some f ∧ f ≤ t

section
variable {floor : Option SystemTime} {t x : SystemTime}

theorem below_lower : Below (lower floor t) t := by
  cases floor with
  | none => exact ⟨t, rfl, le_rfl⟩
  | some f => exact ⟨min f t, rfl, min_le_right f t⟩

theorem Below.lower (h : Below floor t) (x : SystemTime) : Below (lower floor x) t := by
  obtain ⟨f, rfl, hf⟩ := h
  exact ⟨min f x, rfl, (min_le_left f x).trans hf⟩

def lowest (floor : Option SystemTime) (rows : List (String × SystemTime)) : Option SystemTime :=
  rows.foldl (fun floor row => lower floor row.2) floor

theorem Below.lowest (h : Below floor t) (rows : List (String × SystemTime)) :
    Below (lowest floor rows) t := by
  induction rows generalizing floor with
  | nil => exact h
  | cons row rows ih => exact ih (h.lower row.2)

theorem below_lowest {rows : List (String × SystemTime)} {row : String × SystemTime}
    (h : row ∈ rows) : Below (lowest floor rows) row.2 := by
  induction rows generalizing floor with
  | nil => cases h
  | cons first rows ih =>
    rcases List.mem_cons.mp h with rfl | h
    · exact Below.lowest below_lower rows
    · exact ih h

theorem lowest_bounded {rows : List (String × SystemTime)} (hfloor : ∀ f ∈ floor, x ≤ f)
    (hrows : ∀ row ∈ rows, x ≤ row.2) : ∀ f ∈ lowest floor rows, x ≤ f := by
  induction rows generalizing floor with
  | nil => exact hfloor
  | cons row rows ih =>
    refine ih ?_ fun r hr => hrows r (List.mem_cons_of_mem row hr)
    have hrow := hrows row List.mem_cons_self
    intro f hf
    cases floor with
    | none =>
      obtain rfl : row.2 = f := by simpa [Index.lower] using hf
      exact hrow
    | some g =>
      obtain rfl : min g row.2 = f := by simpa [Index.lower] using hf
      exact le_min (hfloor g rfl) hrow

end

namespace GoneRows

variable [Layout]

def apply (g : GoneRows) : GoneCall → GoneRows
  | .insert key time => g.insert key time
  | .raise key time => g.raise key time
  | .remove key => g.remove key
  | .sweep cutoff => (g.sweepExpired cutoff).2

def run (history : List GoneCall) : GoneRows := history.foldl apply {}

variable {g : GoneRows} {cutoff : SystemTime}

omit [Layout] in
def ahead (g : GoneRows) : List (String × SystemTime) :=
  g.rows.filter fun row => g.cursor.all (· < row.1)

omit [Layout] in
def Clear (g : GoneRows) (cutoff : SystemTime) : Prop := g.floor.all (cutoff ≤ ·) = true

omit [Layout] in
instance : Decidable (g.Clear cutoff) := inferInstanceAs (Decidable (_ = _))

omit [Layout] in
def visits (g : GoneRows) (cutoff : SystemTime) : List (String × SystemTime) :=
  if g.Clear cutoff then [] else g.ahead.take sweepStep

omit [Layout] in
def forgets (g : GoneRows) (cutoff : SystemTime) : List String :=
  ((g.visits cutoff).filter (·.2 < cutoff)).map (·.1)

omit [Layout] in
def keptFloor (g : GoneRows) (cutoff : SystemTime) : Option SystemTime :=
  lowest g.lapFloor ((g.visits cutoff).filter (cutoff ≤ ·.2))

omit [Layout] in
def place (g : GoneRows) : Option String × Option SystemTime × Option SystemTime :=
  (g.cursor, g.floor, g.lapFloor)

theorem place_remove (key : String) : (g.remove key).place = g.place := by
  unfold remove
  split <;> rfl

theorem place_foldl_remove (keys : List String) : (keys.foldl remove g).place = g.place := by
  induction keys generalizing g with
  | nil => rfl
  | cons key keys ih => rw [List.foldl_cons, ih, place_remove]

theorem sweepExpired_clear (h : g.Clear cutoff) : g.sweepExpired cutoff = (0, g) := if_pos h

omit [Layout] in
def moved (g : GoneRows) (cutoff : SystemTime) : GoneRows :=
  if (g.visits cutoff).length < sweepStep then
    { g with cursor := none, floor := g.keptFloor cutoff, lapFloor := none }
  else { g with cursor := (g.visits cutoff).getLast?.map (·.1), lapFloor := g.keptFloor cutoff }

theorem sweepExpired_eq (h : ¬ g.Clear cutoff) :
    g.sweepExpired cutoff =
      ((g.forgets cutoff).length, (g.forgets cutoff).foldl remove (g.moved cutoff)) := by
  have hvisits : g.visits cutoff = g.ahead.take sweepStep := if_neg h
  simp only [moved, forgets, keptFloor, hvisits]
  exact if_neg h

theorem get_sweep (a : String) :
    (g.sweepExpired cutoff).2.get a = if a ∈ g.forgets cutoff then none else g.get a := by
  by_cases h : g.Clear cutoff
  · rw [sweepExpired_clear h, forgets, visits, if_pos h]
    rfl
  · have hget : (g.moved cutoff).get a = g.get a := by
      unfold moved
      split <;> rfl
    rw [sweepExpired_eq h, get_foldl_remove, hget]

theorem place_sweep_end (h : ¬ g.Clear cutoff) (hlen : (g.visits cutoff).length < sweepStep) :
    (g.sweepExpired cutoff).2.place = (none, g.keptFloor cutoff, none) := by
  rw [sweepExpired_eq h, place_foldl_remove, moved, if_pos hlen]
  rfl

theorem place_sweep_on (h : ¬ g.Clear cutoff) (hlen : ¬ (g.visits cutoff).length < sweepStep) :
    (g.sweepExpired cutoff).2.place =
      ((g.visits cutoff).getLast?.map (·.1), g.floor, g.keptFloor cutoff) := by
  rw [sweepExpired_eq h, place_foldl_remove, moved, if_neg hlen]
  rfl

omit [Layout] in
theorem length_visits : (g.visits cutoff).length ≤ sweepStep := by
  unfold visits
  split
  · exact Nat.zero_le _
  · exact List.length_take_le ..

omit [Layout] in
theorem mem_ahead {key : String} {t : SystemTime} :
    (key, t) ∈ g.ahead ↔ g.get key = some t ∧ g.cursor.all (· < key) = true := by
  rw [ahead, List.mem_filter, mem_rows]

omit [Layout] in
theorem mem_ahead_of_visits {row : String × SystemTime} (h : row ∈ g.visits cutoff) :
    row ∈ g.ahead := by
  unfold visits at h
  split at h
  · cases h
  · exact List.mem_of_mem_take h

omit [Layout] in
theorem mem_forgets {key : String} (h : key ∈ g.forgets cutoff) :
    ∃ t, (key, t) ∈ g.visits cutoff ∧ g.get key = some t ∧ t < cutoff := by
  obtain ⟨⟨k, t⟩, hmem, rfl⟩ := List.mem_map.mp h
  obtain ⟨hvisited, hlt⟩ := List.mem_filter.mp hmem
  exact ⟨t, hvisited, (mem_ahead.mp (mem_ahead_of_visits hvisited)).1, by simpa using hlt⟩

theorem get_of_sweep {key : String} {t : SystemTime}
    (h : (g.sweepExpired cutoff).2.get key = some t) :
    g.get key = some t ∧ key ∉ g.forgets cutoff := by
  rw [get_sweep] at h
  split at h
  · cases h
  · next hk => exact ⟨h, hk⟩

omit [Layout] in
theorem cutoff_le_of_kept {key : String} {t : SystemTime} (hmem : (key, t) ∈ g.visits cutoff)
    (hkept : key ∉ g.forgets cutoff) : cutoff ≤ t := by
  by_contra hlt
  refine hkept (List.mem_map.mpr ⟨(key, t), List.mem_filter.mpr ⟨hmem, ?_⟩, rfl⟩)
  simpa using hlt

structure Floored (g : GoneRows) : Prop where
  floor : ∀ key t, g.get key = some t → Below g.floor t
  lap : ∀ key t, g.get key = some t → g.cursor.any (key ≤ ·) = true → Below g.lapFloor t

omit [Layout] in
theorem floored_empty : Floored {} :=
  ⟨fun key t h => by simp at h, fun key t h => by simp at h⟩

theorem Floored.insert (h : Floored g) (key : String) (time : SystemTime) :
    Floored (g.insert key time) := by
  refine ⟨fun k t hk => ?_, fun k t hk hcursor => ?_⟩
  · rw [get_insert] at hk
    split at hk
    · cases hk
      exact below_lower
    · exact (h.floor k t hk).lower time
  · have hlap : (g.insert key time).lapFloor =
      if g.cursor.any (key ≤ ·) then lower g.lapFloor time else g.lapFloor := rfl
    have hcursor : g.cursor.any (k ≤ ·) = true := hcursor
    rw [get_insert] at hk
    split at hk
    · next heq =>
      subst heq
      cases hk
      rw [hlap, if_pos hcursor]
      exact below_lower
    · have hbelow := h.lap k t hk hcursor
      rw [hlap]
      split
      · exact hbelow.lower time
      · exact hbelow

theorem Floored.raise (h : Floored g) (key : String) (time : SystemTime) :
    Floored (g.raise key time) := by
  unfold GoneRows.raise
  split
  · exact h.insert key time
  · exact h

theorem Floored.remove (h : Floored g) (key : String) : Floored (g.remove key) := by
  have hplace := place_remove (g := g) key
  simp only [place, Prod.mk.injEq] at hplace
  obtain ⟨hcursor, hfloor, hlap⟩ := hplace
  refine ⟨fun k t hk => ?_, fun k t hk hany => ?_⟩
  all_goals
    rw [get_remove] at hk
    split at hk
    · cases hk
  · exact hfloor ▸ h.floor k t hk
  · exact hlap ▸ h.lap k t hk (hcursor ▸ hany)

omit [Layout] in
theorem Floored.keptFloor (h : Floored g) {key : String} {t : SystemTime}
    (hk : g.get key = some t) (hkept : key ∉ g.forgets cutoff)
    (hseen : g.cursor.any (key ≤ ·) = true ∨ (key, t) ∈ g.visits cutoff) :
    Below (g.keptFloor cutoff) t := by
  rcases hseen with hbehind | hvisited
  · exact (h.lap key t hk hbehind).lowest _
  · have hle := cutoff_le_of_kept hvisited hkept
    exact below_lowest (List.mem_filter.mpr ⟨hvisited, by simpa using hle⟩)

omit [Layout] in
theorem behind_or_ahead {key : String} {t : SystemTime} (hk : g.get key = some t) :
    g.cursor.any (key ≤ ·) = true ∨ (key, t) ∈ g.ahead := by
  cases hc : g.cursor with
  | none => exact .inr (mem_ahead.mpr ⟨hk, by rw [hc]; rfl⟩)
  | some cursor =>
    by_cases hle : key ≤ cursor
    · exact .inl (by simpa using hle)
    · exact .inr (mem_ahead.mpr ⟨hk, by simpa [hc] using hle⟩)

omit [Layout] in
theorem ahead_ascending (g : GoneRows) : g.ahead.Pairwise (fun a b => a.1 < b.1) :=
  g.rows_ascending.filter _

omit [Layout] in
theorem visits_le_last {last row : String × SystemTime}
    (hlast : (g.visits cutoff).getLast? = some last) (hrow : row ∈ g.visits cutoff) :
    row.1 ≤ last.1 := by
  have hascending : (g.visits cutoff).Pairwise (fun a b => a.1 < b.1) := by
    unfold visits
    split
    · exact .nil
    · exact g.ahead_ascending.sublist (List.take_sublist ..)
  obtain ⟨front, hfront⟩ := List.getLast?_eq_some_iff.mp hlast
  rw [hfront, List.pairwise_append] at hascending
  rw [hfront, List.mem_append, List.mem_singleton] at hrow
  rcases hrow with hrow | rfl
  · exact (hascending.2.2 row hrow last (List.mem_singleton_self last)).le
  · exact le_rfl

omit [Layout] in
theorem visited_or_beyond (h : ¬ g.Clear cutoff) {key : String} {t : SystemTime}
    (hmem : (key, t) ∈ g.ahead) :
    (key, t) ∈ g.visits cutoff ∨ ∀ row ∈ g.visits cutoff, row.1 < key := by
  have hvisits : g.visits cutoff = g.ahead.take sweepStep := if_neg h
  have hsplit := g.ahead_ascending
  rw [← List.take_append_drop sweepStep g.ahead, List.pairwise_append] at hsplit
  rw [← List.take_append_drop sweepStep g.ahead, List.mem_append] at hmem
  rw [hvisits]
  exact hmem.imp_right fun hdrop row hrow => hsplit.2.2 row hrow _ hdrop

omit [Layout] in
theorem visits_eq_ahead (h : ¬ g.Clear cutoff) (hlen : (g.visits cutoff).length < sweepStep) :
    g.visits cutoff = g.ahead := by
  have hvisits : g.visits cutoff = g.ahead.take sweepStep := if_neg h
  rw [hvisits, List.length_take] at hlen
  rw [hvisits, List.take_of_length_le (by omega)]

theorem Floored.sweep (h : Floored g) (cutoff : SystemTime) :
    Floored (g.sweepExpired cutoff).2 := by
  by_cases hclear : g.Clear cutoff
  · rw [sweepExpired_clear hclear]
    exact h
  by_cases hlen : (g.visits cutoff).length < sweepStep
  · -- the lap has visited all that was ahead of it
    have hplace := place_sweep_end hclear hlen
    simp only [place, Prod.mk.injEq] at hplace
    obtain ⟨hcursor, hfloor, -⟩ := hplace
    refine ⟨fun k t hk => ?_, fun k t hk hany => by rw [hcursor] at hany; cases hany⟩
    obtain ⟨hget, hkept⟩ := get_of_sweep hk
    rw [hfloor]
    refine h.keptFloor hget hkept ((behind_or_ahead hget).imp_right fun hahead => ?_)
    rwa [visits_eq_ahead hclear hlen]
  · have hplace := place_sweep_on hclear hlen
    simp only [place, Prod.mk.injEq] at hplace
    obtain ⟨hcursor, hfloor, hlap⟩ := hplace
    refine ⟨fun k t hk => hfloor ▸ h.floor k t (get_of_sweep hk).1, fun k t hk hany => ?_⟩
    obtain ⟨hget, hkept⟩ := get_of_sweep hk
    rw [hlap]
    refine h.keptFloor hget hkept ((behind_or_ahead hget).imp_right fun hahead => ?_)
    refine (visited_or_beyond hclear hahead).resolve_right fun hbeyond => ?_
    rw [hcursor] at hany
    cases hlast : (g.visits cutoff).getLast? with
    | none => rw [hlast] at hany; cases hany
    | some last =>
      rw [hlast] at hany
      have hle : k ≤ last.1 := by simpa using hany
      exact absurd hle (hbeyond last (List.mem_of_getLast? hlast)).not_ge

theorem Floored.apply (h : Floored g) (c : GoneCall) : Floored (g.apply c) := by
  cases c with
  | insert key time => exact h.insert key time
  | raise key time => exact h.raise key time
  | remove key => exact h.remove key
  | sweep cutoff => exact h.sweep cutoff

theorem floored_run (history : List GoneCall) : Floored (run history) := by
  suffices H : ∀ g, Floored g → Floored (history.foldl GoneRows.apply g) from H {} floored_empty
  induction history with
  | nil => exact fun g h => h
  | cons c history ih => exact fun g h => ih _ (h.apply c)

omit [Layout] in
theorem rows_nodup (g : GoneRows) : g.rows.Nodup := g.rows_ascending.imp fun hlt heq =>
  absurd (congrArg Prod.fst heq) hlt.ne

omit [Layout] in
theorem length_ahead_le (g : GoneRows) : g.ahead.length ≤ g.len := by
  rw [len, ← Std.ExtTreeMap.length_toList]
  exact List.length_filter_le ..

theorem len_sweep (g : GoneRows) (cutoff : SystemTime) : (g.sweepExpired cutoff).2.len ≤ g.len := by
  rw [len, len, ← Std.ExtTreeMap.length_toList, ← Std.ExtTreeMap.length_toList]
  refine ((rows_nodup (g.sweepExpired cutoff).2).subperm ?_).length_le
  rintro ⟨k, t⟩ hk
  exact mem_rows.mpr (get_of_sweep (mem_rows.mp hk)).1

theorem length_ahead_sweep (h : ¬ g.Clear cutoff) (hlen : ¬ (g.visits cutoff).length < sweepStep) :
    (g.sweepExpired cutoff).2.ahead.length + sweepStep ≤ g.ahead.length := by
  have hvisits : g.visits cutoff = g.ahead.take sweepStep := if_neg h
  have hcursor : (g.sweepExpired cutoff).2.cursor = (g.visits cutoff).getLast?.map (·.1) :=
    congrArg Prod.fst (place_sweep_on h hlen)
  have hsub : (g.sweepExpired cutoff).2.ahead ⊆ g.ahead.drop sweepStep := by
    rintro ⟨k, t⟩ hk
    obtain ⟨hget, hbeyond⟩ := mem_ahead.mp hk
    obtain ⟨hold, -⟩ := get_of_sweep hget
    rw [hcursor] at hbeyond
    obtain ⟨last, hlast⟩ : ∃ last, (g.visits cutoff).getLast? = some last := by
      cases hl : (g.visits cutoff).getLast? with
      | none =>
        rw [List.getLast?_eq_none_iff] at hl
        rw [hl] at hlen
        exact absurd (by decide) hlen
      | some last => exact ⟨last, rfl⟩
    have hlt : last.1 < k := by simpa [hlast] using hbeyond
    have hmem := List.mem_of_getLast? hlast
    have hahead : (k, t) ∈ g.ahead := by
      refine (behind_or_ahead hold).resolve_left fun hbehind => ?_
      have hcur := (mem_ahead.mp (show (last.1, last.2) ∈ g.ahead from mem_ahead_of_visits hmem)).2
      cases hc : g.cursor with
      | none => rw [hc] at hbehind; cases hbehind
      | some cursor =>
        have h₁ : k ≤ cursor := by simpa [hc] using hbehind
        have h₂ : cursor < last.1 := by simpa [hc] using hcur
        exact absurd (h₁.trans_lt h₂) hlt.asymm
    rw [← List.take_append_drop sweepStep g.ahead, List.mem_append, ← hvisits] at hahead
    refine hahead.resolve_left fun hvisited => ?_
    exact absurd (visits_le_last hlast hvisited) hlt.not_ge
  have hnodup : (g.sweepExpired cutoff).2.ahead.Nodup := (rows_nodup _).filter _
  have hle := (hnodup.subperm hsub).length_le
  rw [hvisits, List.length_take] at hlen
  rw [List.length_drop] at hle
  omega

variable (cutoff) in
def sweeps (n : Nat) (g : GoneRows) : GoneRows := (fun g => (g.sweepExpired cutoff).2)^[n] g

theorem sweeps_succ (n : Nat) (g : GoneRows) :
    sweeps cutoff (n + 1) g = sweeps cutoff n (g.sweepExpired cutoff).2 :=
  Function.iterate_succ_apply ..

theorem sweeps_add (m n : Nat) (g : GoneRows) :
    sweeps cutoff (m + n) g = sweeps cutoff m (sweeps cutoff n g) :=
  Function.iterate_add_apply ..

theorem sweeps_clear (h : g.Clear cutoff) (n : Nat) : sweeps cutoff n g = g :=
  Function.iterate_fixed (by rw [sweepExpired_clear h]) n

theorem Floored.sweeps (h : Floored g) (n : Nat) : Floored (sweeps cutoff n g) := by
  induction n generalizing g with
  | zero => exact h
  | succ n ih =>
    rw [sweeps_succ]
    exact ih (h.sweep cutoff)

theorem len_sweeps (cutoff : SystemTime) (n : Nat) (g : GoneRows) :
    (sweeps cutoff n g).len ≤ g.len := by
  induction n generalizing g with
  | zero => exact le_rfl
  | succ n ih =>
    rw [sweeps_succ]
    exact (ih _).trans (len_sweep g cutoff)

theorem get_sweeps (n : Nat) {key : String} {t : SystemTime} :
    ((sweeps cutoff n g).get key = some t → g.get key = some t) ∧
    (g.get key = some t → cutoff ≤ t → (sweeps cutoff n g).get key = some t) := by
  induction n generalizing g with
  | zero => exact ⟨id, fun h _ => h⟩
  | succ n ih =>
    rw [sweeps_succ]
    refine ⟨fun h => (get_of_sweep (ih.1 h)).1, fun h hle => ih.2 ?_ hle⟩
    rw [get_sweep, if_neg, h]
    intro hforgets
    obtain ⟨t', -, ht', hlt⟩ := mem_forgets hforgets
    obtain rfl : t = t' := Option.some.inj (h.symm.trans ht')
    exact absurd hle hlt.not_ge

omit [Layout] in
def Clean (g : GoneRows) (cutoff : SystemTime) : Prop := ∀ f ∈ g.lapFloor, cutoff ≤ f

omit [Layout] in
theorem Clean.keptFloor (h : g.Clean cutoff) : ∀ f ∈ g.keptFloor cutoff, cutoff ≤ f :=
  lowest_bounded h fun row hrow => by simpa using (List.mem_filter.mp hrow).2

theorem lap_ends (cutoff : SystemTime) (n : Nat) (hahead : g.ahead.length < sweepStep * n) :
    ∃ j ≤ n, (sweeps cutoff j g).Clear cutoff ∨
      ¬ g.Clean cutoff ∧ (sweeps cutoff j g).lapFloor = none := by
  induction n generalizing g with
  | zero => exact absurd hahead (Nat.not_lt_zero _)
  | succ n ih =>
    by_cases hclear : g.Clear cutoff
    · exact ⟨0, Nat.zero_le _, .inl hclear⟩
    by_cases hlen : (g.visits cutoff).length < sweepStep
    · have hplace := place_sweep_end hclear hlen
      simp only [place, Prod.mk.injEq] at hplace
      obtain ⟨-, hfloor, hlap⟩ := hplace
      refine ⟨1, Nat.le_add_left 1 n, ?_⟩
      by_cases hclean : g.Clean cutoff
      · left
        show (g.sweepExpired cutoff).2.floor.all _ = true
        rw [hfloor, Option.all_eq_true]
        exact fun f hf => decide_eq_true (hclean.keptFloor f hf)
      · exact .inr ⟨hclean, hlap⟩
    · have hfewer := length_ahead_sweep hclear hlen
      rw [Nat.mul_succ] at hahead
      obtain ⟨j, hj, hdone⟩ := ih (g := (g.sweepExpired cutoff).2) (by omega)
      refine ⟨j + 1, Nat.succ_le_succ hj, ?_⟩
      rw [sweeps_succ]
      refine hdone.imp_right fun h => ⟨fun hclean => h.1 ?_, h.2⟩
      have hlap : (g.sweepExpired cutoff).2.lapFloor = g.keptFloor cutoff :=
        congrArg (·.2.2) (place_sweep_on hclear hlen)
      rw [Clean, hlap]
      exact hclean.keptFloor

theorem two_laps {n : Nat} (hn : 2 * (g.len / sweepStep + 1) ≤ n) :
    (sweeps cutoff n g).Clear cutoff := by
  have hlap : g.len < sweepStep * (g.len / sweepStep + 1) := Nat.lt_mul_div_succ _ (by decide)
  have hstay : ∀ {j}, j ≤ n → (sweeps cutoff j g).Clear cutoff → (sweeps cutoff n g).Clear cutoff := by
    intro j hj hclear
    rw [← Nat.sub_add_cancel hj, sweeps_add, sweeps_clear hclear]
    exact hclear
  have hahead := g.length_ahead_le
  obtain ⟨j, hj, hclear | ⟨-, hfresh⟩⟩ :=
    lap_ends (g := g) cutoff (g.len / sweepStep + 1) (by omega)
  · exact hstay (by omega) hclear
  · -- the second lap begins with no floor of its own
    have hlen := len_sweeps cutoff j g
    have hahead' := (sweeps cutoff j g).length_ahead_le
    obtain ⟨i, hi, hclear | ⟨hclean, -⟩⟩ :=
      lap_ends (g := sweeps cutoff j g) cutoff (g.len / sweepStep + 1) (by omega)
    · rw [← sweeps_add] at hclear
      exact hstay (by omega) hclear
    · refine absurd (fun f hf => ?_) hclean
      rw [hfresh] at hf
      cases hf

/-- In every state a history of tombstones comes to, the floor is below every deletion time held;
a sweep visits sixteen tombstones at most, touches no others and forgets none at or after its
cutoff; and two laps of sweeps with one cutoff forget exactly those before it, after which
sweeps visit nothing. -/
theorem sweep_safe_and_done (history : List GoneCall) (cutoff : SystemTime) :
    let g := run history
    (∀ key t, g.get key = some t → ∃ f, g.floor = some f ∧ f ≤ t) ∧
    (g.visits cutoff).length ≤ 16 ∧
    (∀ key, (∀ t, (key, t) ∉ g.visits cutoff) →
      (g.sweepExpired cutoff).2.get key = g.get key) ∧
    (∀ key t, g.get key = some t → cutoff ≤ t →
      (g.sweepExpired cutoff).2.get key = some t) ∧
    ∀ n, 2 * (g.len / 16 + 1) ≤ n →
      (∀ key t, (sweeps cutoff n g).get key = some t ↔ g.get key = some t ∧ cutoff ≤ t) ∧
      (sweeps cutoff n g).visits cutoff = [] ∧
      (sweeps cutoff n g).sweepExpired cutoff = (0, sweeps cutoff n g) := by
  intro g
  have hfloored : Floored g := floored_run history
  refine ⟨hfloored.floor, length_visits, fun key hkey => ?_, fun key t => ?_, fun n hn => ?_⟩
  · rw [get_sweep, if_neg]
    intro hforgets
    obtain ⟨t, ht, -⟩ := mem_forgets hforgets
    exact hkey t ht
  · exact (get_sweeps 1).2
  · have hclear : (sweeps cutoff n g).Clear cutoff := two_laps hn
    refine ⟨fun key t => ⟨fun h => ⟨(get_sweeps n).1 h, ?_⟩, fun h => (get_sweeps n).2 h.1 h.2⟩,
      if_pos hclear, sweepExpired_clear hclear⟩
    obtain ⟨f, hf, hle⟩ := (hfloored.sweeps n).floor key t h
    rw [Clear, hf] at hclear
    exact (of_decide_eq_true hclear).trans hle

end GoneRows

section Sample
local instance sweepLayout : Layout := sampleLayout

def sampleHistory : List GoneCall :=
  [.insert "k" (fromMicros 15000000), .raise "l" (fromMicros 20000000), .sweep (fromMicros 1)]

theorem sweep_safe_and_done_sample :
    (GoneRows.run sampleHistory).get "k" = some (fromMicros 15000000) ∧
    (GoneRows.run sampleHistory).get "l" = some (fromMicros 20000000) ∧
    let g := GoneRows.sweeps (fromMicros 16000000) 2 (GoneRows.run sampleHistory)
    g.get "l" = some (fromMicros 20000000) ∧ g.get "k" = none ∧
      g.visits (fromMicros 16000000) = [] := by
  have hk : (GoneRows.run sampleHistory).get "k" = some (fromMicros 15000000) := by decide +kernel
  have hl : (GoneRows.run sampleHistory).get "l" = some (fromMicros 20000000) := by decide +kernel
  obtain ⟨-, -, -, -, hdone⟩ :=
    GoneRows.sweep_safe_and_done sampleHistory (fromMicros 16000000)
  obtain ⟨hget, hvisits, -⟩ := hdone 2 (by decide +kernel)
  refine ⟨hk, hl, (hget "l" _).mpr ⟨hl, by decide⟩, ?_, hvisits⟩
  refine Option.eq_none_iff_forall_ne_some.mpr fun t ht => ?_
  obtain ⟨hold, hle⟩ := (hget "k" t).mp ht
  obtain rfl : fromMicros 15000000 = t := Option.some.inj (hk.symm.trans hold)
  exact absurd hle (by decide)

end Sample

end S3Cache.Index

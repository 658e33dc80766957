import S3Cache.Lib.TreeMap
import S3Cache.Fleet.Charge

/-! One bucket's rows, live and deleted (`index/rows.rs`), each map with the running image
tally of its rows. -/

namespace S3Cache.Index

open Fleet

structure KeyRows where
  map : OrdMap ObjEntry := ∅
  image : ImageTally := {}
  deriving DecidableEq

/-- A bucket's tombstones and the incremental sweep's place among them: `cursor` is the last
key the current lap visited, `floor` a lower bound on every deletion time held, `lapFloor` the
lowest time the current lap kept or saw inserted behind its cursor. -/
structure GoneRows where
  map : OrdMap SystemTime := ∅
  image : ImageTally := {}
  cursor : Option String := none
  floor : Option SystemTime := none
  lapFloor : Option SystemTime := none
  deriving DecidableEq

def sweepStep : Nat := 16

def lower (floor : Option SystemTime) (t : SystemTime) : Option SystemTime :=
  some (floor.elim t (min · t))

section
variable [Layout]

namespace KeyRows

def len (r : KeyRows) : Nat := r.map.size

def get (r : KeyRows) (key : String) : Option ObjEntry := r.map[key]?

def rows (r : KeyRows) : List (String × ObjEntry) := r.map.toList

/-- The rows with `entry` under `key`; the row it replaced is `r.get key`. -/
def insert (r : KeyRows) (key : String) (entry : ObjEntry) : KeyRows where
  map := r.map.insert key entry
  image :=
    let image := r.image.add (.entry key.utf8ByteSize entry)
    match r.get key with
    | some previous => image.sub (.entry key.utf8ByteSize previous)
    | none => image

def remove (r : KeyRows) (key : String) : KeyRows :=
  match r.get key with
  | some previous =>
    ⟨r.map.erase key, r.image.sub (.entry key.utf8ByteSize previous)⟩
  | none => r

def update (r : KeyRows) (key : String) (change : ObjEntry → ObjEntry) : KeyRows :=
  match r.get key with
  | some entry =>
    ⟨r.map.insert key (change entry),
      (r.image.sub (.entry key.utf8ByteSize entry)).add (.entry key.utf8ByteSize (change entry))⟩
  | none => r

theorem get_insert (r : KeyRows) (k a : String) (e : ObjEntry) :
    (r.insert k e).get a = if k = a then some e else r.get a := TreeMap.get_insert ..

theorem get_remove (r : KeyRows) (k a : String) :
    (r.remove k).get a = if k = a then none else r.get a := by
  unfold remove
  split
  · exact TreeMap.get_erase ..
  · next h => split <;> simp_all

theorem get_update (r : KeyRows) (k a : String) (f : ObjEntry → ObjEntry) :
    (r.update k f).get a = if k = a then (r.get k).map f else r.get a := by
  unfold update
  split
  · next e h => rw [h]; exact TreeMap.get_insert ..
  · next h => split <;> simp_all

omit [Layout] in
theorem mem_rows {r : KeyRows} {key : String} {e : ObjEntry} :
    (key, e) ∈ r.rows ↔ r.get key = some e :=
  Std.ExtTreeMap.mem_toList_iff_getElem?_eq_some

omit [Layout] in
theorem rows_ascending (r : KeyRows) : r.rows.Pairwise (fun a b => a.1 < b.1) :=
  Std.ExtTreeMap.ordered_keys_toList.imp compare_lt_iff_lt.mp

omit [Layout] in
@[simp] theorem get_empty (a : String) : ({} : KeyRows).get a = none :=
  Std.ExtTreeMap.getElem?_empty

end KeyRows

namespace GoneRows

def len (g : GoneRows) : Nat := g.map.size

def get (g : GoneRows) (key : String) : Option SystemTime := g.map[key]?

def rows (g : GoneRows) : List (String × SystemTime) := g.map.toList

def insert (g : GoneRows) (key : String) (time : SystemTime) : GoneRows where
  map := g.map.insert key time
  image := if (g.get key).isNone then g.image.add (.tombstone key.utf8ByteSize) else g.image
  cursor := g.cursor
  floor := lower g.floor time
  lapFloor := if g.cursor.any (key ≤ ·) then lower g.lapFloor time else g.lapFloor

def raise (g : GoneRows) (key : String) (time : SystemTime) : GoneRows :=
  if (g.get key).all (· < time) then g.insert key time else g

def remove (g : GoneRows) (key : String) : GoneRows :=
  match g.get key with
  | some _ => { g with map := g.map.erase key, image := g.image.sub (.tombstone key.utf8ByteSize) }
  | none => g

def sweepExpired (g : GoneRows) (cutoff : SystemTime) : Nat × GoneRows :=
  if g.floor.all (cutoff ≤ ·) then (0, g) else
  let visited := (g.rows.filter fun row => g.cursor.all (· < row.1)).take sweepStep
  let expired := (visited.filter (·.2 < cutoff)).map (·.1)
  let lapFloor := (visited.filter (cutoff ≤ ·.2)).foldl (fun floor row => lower floor row.2)
    g.lapFloor
  let g :=
    if visited.length < sweepStep then { g with cursor := none, floor := lapFloor, lapFloor := none }
    else { g with cursor := visited.getLast?.map (·.1), lapFloor }
  (expired.length, expired.foldl remove g)

theorem get_insert (g : GoneRows) (k a : String) (t : SystemTime) :
    (g.insert k t).get a = if k = a then some t else g.get a := TreeMap.get_insert ..

theorem get_remove (g : GoneRows) (k a : String) :
    (g.remove k).get a = if k = a then none else g.get a := by
  unfold remove
  split
  · exact TreeMap.get_erase ..
  · next h => split <;> simp_all

theorem get_foldl_remove (g : GoneRows) (keys : List String) (a : String) :
    (keys.foldl remove g).get a = if a ∈ keys then none else g.get a := by
  induction keys generalizing g with
  | nil => simp
  | cons k keys ih =>
    rw [List.foldl_cons, ih, get_remove]
    by_cases ha : a ∈ keys
    · simp [ha]
    · by_cases hk : k = a
      · simp [hk]
      · simp [ha, hk, Ne.symm hk]

omit [Layout] in
theorem mem_rows {g : GoneRows} {key : String} {t : SystemTime} :
    (key, t) ∈ g.rows ↔ g.get key = some t :=
  Std.ExtTreeMap.mem_toList_iff_getElem?_eq_some

omit [Layout] in
theorem rows_ascending (g : GoneRows) : g.rows.Pairwise (fun a b => a.1 < b.1) :=
  Std.ExtTreeMap.ordered_keys_toList.imp compare_lt_iff_lt.mp

theorem get_sweepExpired (g : GoneRows) (cutoff : SystemTime) (a : String) :
    (g.sweepExpired cutoff).2.get a = g.get a ∨
    (g.sweepExpired cutoff).2.get a = none ∧ ∃ t, g.get a = some t ∧ t < cutoff := by
  unfold sweepExpired
  split
  · exact .inl rfl
  · rw [get_foldl_remove]
    split
    · next ha =>
      obtain ⟨⟨k, t⟩, hmem, rfl⟩ := List.mem_map.mp ha
      obtain ⟨hvisited, hlt⟩ := List.mem_filter.mp hmem
      have hrow := (List.mem_filter.mp (List.mem_of_mem_take hvisited)).1
      exact .inr ⟨rfl, t, mem_rows.mp hrow, by simpa using hlt⟩
    · left
      split <;> rfl

omit [Layout] in
@[simp] theorem get_empty (a : String) : ({} : GoneRows).get a = none :=
  Std.ExtTreeMap.getElem?_empty

end GoneRows

def raised (gone : Option SystemTime) (t : SystemTime) : Option SystemTime :=
  if gone.all (· < t) then some t else gone

theorem GoneRows.get_raise (g : GoneRows) (k a : String) (t : SystemTime) :
    (g.raise k t).get a = if k = a then raised (g.get k) t else g.get a := by
  unfold raise raised
  split
  · exact get_insert ..
  · split <;> simp_all

end

end S3Cache.Index

/-!
# Tables

A finite map that keeps its keys in the order in which they were put in. Putting a key that is
there already replaces its value in place; a key that is erased and put in again goes to the end.
The equations `get?_put` and `get?_erase` say what can be looked up afterwards.
-/

namespace Stacking

/-- A finite map in the order of insertion. -/
structure Table (κ α : Type) where
  entries : List (κ × α) := []
deriving DecidableEq

namespace Table

variable {κ α : Type} [DecidableEq κ]

/-- The table without entries. -/
def empty : Table κ α := {}

/-- The value of a key. -/
def get? (t : Table κ α) (k : κ) : Option α := (t.entries.find? fun e => e.1 = k).map (·.2)

/-- Whether a key is there. -/
def contains (t : Table κ α) (k : κ) : Bool := t.entries.any fun e => e.1 = k

/-- The entries with a value for a key, in its place or at the end. -/
def putEntry (k : κ) (a : α) : List (κ × α) → List (κ × α)
  | [] => [(k, a)]
  | e :: rest => if e.1 = k then (k, a) :: rest else e :: putEntry k a rest

/-- Gives a key a value. -/
def put (t : Table κ α) (k : κ) (a : α) : Table κ α := ⟨putEntry k a t.entries⟩

/-- Removes a key. -/
def erase (t : Table κ α) (k : κ) : Table κ α := ⟨t.entries.filter fun e => e.1 ≠ k⟩

/-- The keys in the order of insertion. -/
def keys (t : Table κ α) : List κ := t.entries.map (·.1)

/-- The table of a list of entries, later values taking the place of earlier ones. -/
def ofList (entries : List (κ × α)) : Table κ α :=
  entries.foldl (fun t e => t.put e.1 e.2) empty

/-! ## Looking up -/

theorem find?_putEntry (k k' : κ) (a : α) (entries : List (κ × α)) :
    (putEntry k a entries).find? (fun e => e.1 = k') =
      if k = k' then some (k, a) else entries.find? (fun e => e.1 = k') := by
  induction entries with
  | nil => by_cases hk : k = k' <;> simp [putEntry, hk]
  | cons e rest ih =>
    rw [putEntry]
    by_cases he : e.1 = k
    · by_cases hk : k = k' <;> simp [he, hk]
    · rw [if_neg he, List.find?_cons, List.find?_cons, ih]
      by_cases hk : e.1 = k'
      · have hne : k ≠ k' := fun h => he (hk.trans h.symm)
        simp [hk, hne]
      · simp [hk]

/-- A key has the value that was put last; other keys keep theirs. -/
theorem get?_put (t : Table κ α) (k k' : κ) (a : α) :
    (t.put k a).get? k' = if k = k' then some a else t.get? k' := by
  rw [get?, put, find?_putEntry]
  split <;> simp [get?]

/-- A key that was erased has no value; other keys keep theirs. -/
theorem get?_erase (t : Table κ α) (k k' : κ) :
    (t.erase k).get? k' = if k = k' then none else t.get? k' := by
  rw [get?, erase, get?]
  induction t.entries with
  | nil => simp
  | cons e rest ih =>
    rw [List.filter_cons]
    by_cases he : e.1 = k
    · by_cases hk : k = k' <;> simp_all
    · rw [if_pos (by simpa using he), List.find?_cons, List.find?_cons]
      by_cases hk : e.1 = k'
      · have hne : k ≠ k' := fun h => he (hk.trans h.symm)
        simp [hk, hne]
      · simpa [hk] using ih

theorem get?_foldl_put {k : κ} {entries : List (κ × α)} (h : k ∉ entries.map (·.1))
    (t : Table κ α) : (entries.foldl (fun t e => t.put e.1 e.2) t).get? k = t.get? k := by
  induction entries generalizing t with
  | nil => rfl
  | cons e rest ih =>
    rw [List.map_cons, List.mem_cons, not_or] at h
    rw [List.foldl_cons, ih h.2, get?_put, if_neg (Ne.symm h.1)]

/-- Where keys are distinct, each has the value that it is listed with. -/
theorem get?_ofList {k : κ} {a : α} {entries : List (κ × α)} (h : (k, a) ∈ entries)
    (hnodup : (entries.map (·.1)).Nodup) : (ofList entries).get? k = some a := by
  obtain ⟨before, after, rfl⟩ := List.append_of_mem h
  rw [List.map_append, List.map_cons, List.nodup_append] at hnodup
  rw [ofList, List.foldl_append, List.foldl_cons,
    get?_foldl_put (List.nodup_cons.mp hnodup.2.1).1, get?_put, if_pos rfl]

/-- A key is there exactly if it has a value. -/
theorem contains_eq_isSome (t : Table κ α) (k : κ) : t.contains k = (t.get? k).isSome := by
  rw [contains, get?, Option.isSome_map, Bool.eq_iff_iff, List.any_eq_true, List.find?_isSome]

end Table
end Stacking

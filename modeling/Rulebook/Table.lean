/-! Values by name, in the order in which the names first came. Each name has one entry, so the
table reads as a partial function (`get?`) and as a list without repeated names (`keys`). -/
namespace Rulebook

structure Table (α : Type) where
  entries : List (String × α) := []
  nodup : (entries.map (·.1)).Nodup := by simp

namespace Table
variable {α : Type}

def keys (t : Table α) : List String := t.entries.map (·.1)

def values (t : Table α) : List α := t.entries.map (·.2)

def size (t : Table α) : Nat := t.entries.length

/-- The value of the first entry of `key`. -/
def getIn (key : String) : List (String × α) → Option α
  | [] => none
  | (k, v) :: rest => if k = key then some v else getIn key rest

def get? (t : Table α) (key : String) : Option α := getIn key t.entries

def empty : Table α := {}

/-- Changes the entry of `key` in its place, or adds one at the end. -/
def putIn (key : String) (value : α) : List (String × α) → List (String × α)
  | [] => [(key, value)]
  | (k, v) :: rest => if k = key then (key, value) :: rest else (k, v) :: putIn key value rest

theorem keys_putIn (key : String) (value : α) (entries : List (String × α)) :
    (putIn key value entries).map (·.1) =
      if key ∈ entries.map (·.1) then entries.map (·.1) else entries.map (·.1) ++ [key] := by
  induction entries with
  | nil => simp [putIn]
  | cons entry rest ih =>
    obtain ⟨k, v⟩ := entry
    by_cases same : k = key
    · simp [putIn, same]
    · by_cases later : key ∈ rest.map (·.1) <;> simp_all [putIn, Ne.symm same]

theorem nodup_putIn (key : String) (value : α) {entries : List (String × α)}
    (nodup : (entries.map (·.1)).Nodup) : ((putIn key value entries).map (·.1)).Nodup := by
  rw [keys_putIn]
  split
  · exact nodup
  · rename_i absent
    refine List.nodup_append.mpr ⟨nodup, by simp, ?_⟩
    intro a inside b last same
    rw [List.mem_singleton] at last
    exact absent (last ▸ same ▸ inside)

theorem getIn_putIn (key other : String) (value : α) (entries : List (String × α)) :
    getIn other (putIn key value entries) =
      if other = key then some value else getIn other entries := by
  induction entries with
  | nil => simp [putIn, getIn, eq_comm]
  | cons entry rest ih =>
    obtain ⟨k, v⟩ := entry
    by_cases same : k = key
    · by_cases wanted : other = key
      · simp [putIn, getIn, same, wanted]
      · simp [putIn, getIn, same, wanted, Ne.symm wanted]
    · by_cases here : k = other
      · simp [putIn, getIn, here, here ▸ same]
      · simp [putIn, getIn, same, here, ih]

theorem getIn_isSome_iff (key : String) (entries : List (String × α)) :
    (getIn key entries).isSome ↔ key ∈ entries.map (·.1) := by
  induction entries with
  | nil => simp [getIn]
  | cons entry rest ih =>
    obtain ⟨k, v⟩ := entry
    by_cases same : k = key
    · simp [getIn, same]
    · simp [getIn, same, Ne.symm same, ih]

/-- Gives `key` a value. A name that has one keeps its place; a new one comes last. -/
def put (t : Table α) (key : String) (value : α) : Table α :=
  ⟨putIn key value t.entries, nodup_putIn key value t.nodup⟩

def erase (t : Table α) (key : String) : Table α :=
  ⟨t.entries.filter (·.1 != key), by
    rw [show (fun e : String × α => e.1 != key) = (· != key) ∘ (·.1) from rfl,
      ← List.filter_map]
    exact t.nodup.filter _⟩

/-- The entries put in turn. -/
def putAll (t : Table α) (entries : List (String × α)) : Table α :=
  entries.foldl (fun t (key, value) => t.put key value) t

def ofList (entries : List (String × α)) : Table α := empty.putAll entries

/-- The entries by key, in code-point order. -/
def sorted (t : Table α) : List (String × α) :=
  t.entries.mergeSort fun a b => !decide (b.1 < a.1)

theorem get?_put (t : Table α) (key other : String) (value : α) :
    (t.put key value).get? other = if other = key then some value else t.get? other :=
  getIn_putIn key other value t.entries

theorem keys_put (t : Table α) (key : String) (value : α) :
    (t.put key value).keys = if key ∈ t.keys then t.keys else t.keys ++ [key] :=
  keys_putIn key value t.entries

theorem isSome_get?_iff (t : Table α) (key : String) : (t.get? key).isSome ↔ key ∈ t.keys :=
  getIn_isSome_iff key t.entries

theorem mem_values_of_get? {t : Table α} {key : String} {value : α}
    (found : t.get? key = some value) : value ∈ t.values := by
  obtain ⟨entries, _⟩ := t
  change getIn key entries = some value at found
  change value ∈ entries.map (·.2)
  induction entries with
  | nil => cases found
  | cons entry rest ih =>
    obtain ⟨k, v⟩ := entry
    by_cases same : k = key
    · simp [getIn, same] at found
      simp [found]
    · simp only [getIn, same, if_false] at found
      exact List.mem_cons_of_mem _ (ih (by simp_all) found)

end Table

/-- Names without repetition, in code-point order. -/
def sortedNames (names : List String) : List String :=
  names.eraseDups.mergeSort fun a b => !decide (b < a)

end Rulebook

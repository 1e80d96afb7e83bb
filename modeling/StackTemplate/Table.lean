/-!
# Tables in insertion order

A finite table from names to values that remembers the order in which its names came in. Storing
under a name that is already there keeps its place and replaces its value. No name occurs twice;
that is part of the type.
-/

namespace StackTemplate

/-- A finite table keyed by names, in insertion order. -/
structure Table (α : Type) where
  /-- Names and values, oldest first. -/
  entries : List (String × α)
  /-- No name occurs twice. -/
  nodup : (entries.map Prod.fst).Nodup
deriving DecidableEq

namespace Table

variable {α : Type}

/-- The names, oldest first. -/
def keys (t : Table α) : List String := t.entries.map Prod.fst

/-- The values, in the order of their names. -/
def values (t : Table α) : List α := t.entries.map Prod.snd

/-- The table without entries. -/
def empty : Table α := ⟨[], by simp⟩

instance : Inhabited (Table α) := ⟨empty⟩

/-- The value stored under a name. -/
def get? (t : Table α) (name : String) : Option α := t.entries.lookup name

/-- Whether the name has a value. -/
def contains (t : Table α) (name : String) : Bool := t.keys.contains name

/-- The number of entries. -/
def size (t : Table α) : Nat := t.entries.length

/-- Whether there are no entries. -/
def isEmpty (t : Table α) : Bool := t.entries.isEmpty

/-! ### Storing -/

/-- Replaces the value under a name where it stands, or appends a new entry. -/
def insertEntries (name : String) (value : α) : List (String × α) → List (String × α)
  | [] => [(name, value)]
  | (k, v) :: rest =>
    if k = name then (k, value) :: rest else (k, v) :: insertEntries name value rest

/-- Storing leaves the names as they are, or appends the new one. -/
theorem keys_insertEntries (name : String) (value : α) (es : List (String × α)) :
    (insertEntries name value es).map Prod.fst =
      if name ∈ es.map Prod.fst then es.map Prod.fst else es.map Prod.fst ++ [name] := by
  induction es with
  | nil => simp [insertEntries]
  | cons e es ih =>
    obtain ⟨k, v⟩ := e
    by_cases h : k = name
    · simp [insertEntries, h]
    · have h' : ¬ name = k := fun e => h e.symm
      simp only [insertEntries, h, if_false, List.map_cons, ih, List.mem_cons, h', false_or]
      split <;> simp

/-- Stores a value: a known name keeps its place, a new one goes to the end. -/
def insert (t : Table α) (name : String) (value : α) : Table α where
  entries := insertEntries name value t.entries
  nodup := by
    rw [keys_insertEntries]
    split
    · exact t.nodup
    · rename_i h
      rw [List.nodup_append]
      refine ⟨t.nodup, by simp, fun k hk b hb e => h ?_⟩
      rwa [← List.mem_singleton.mp hb, ← e]

/-- The table of a list of pairs: a repeated name keeps its first place and takes its last
value. -/
def ofList (pairs : List (String × α)) : Table α :=
  pairs.foldl (fun t e => t.insert e.1 e.2) empty

/-! ### Changing all values, dropping entries -/

/-- Puts new values into the entries one after the other; entries beyond them stay. -/
def refillEntries : List (String × α) → List α → List (String × α)
  | [], _ => []
  | e :: es, [] => e :: es
  | (k, _) :: es, v :: vs => (k, v) :: refillEntries es vs

/-- Refilling keeps the names. -/
theorem keys_refillEntries (es : List (String × α)) (vs : List α) :
    (refillEntries es vs).map Prod.fst = es.map Prod.fst := by
  induction es generalizing vs with
  | nil => rfl
  | cons e es ih => cases vs <;> simp [refillEntries, ih]

/-- Refilling with as many values as there are entries puts in just those values. -/
theorem values_refillEntries {es : List (String × α)} {vs : List α} (h : vs.length = es.length) :
    (refillEntries es vs).map Prod.snd = vs := by
  induction es generalizing vs with
  | nil => simp_all [refillEntries]
  | cons e es ih =>
    cases vs with
    | nil => simp at h
    | cons v vs => simpa [refillEntries] using ih (by simpa using h)

/-- Refilling with the values that are there changes nothing. -/
theorem refillEntries_values (es : List (String × α)) :
    refillEntries es (es.map Prod.snd) = es := by
  induction es with
  | nil => rfl
  | cons e es ih => simp [refillEntries, ih]

/-- Of two refillings only the second counts. -/
theorem refillEntries_refillEntries {es : List (String × α)} {vs : List α} (us : List α)
    (h : vs.length = es.length) : refillEntries (refillEntries es us) vs = refillEntries es vs := by
  induction es generalizing us vs with
  | nil => rfl
  | cons e es ih =>
    cases vs with
    | nil => cases h
    | cons v vs =>
      cases us with
      | nil => rfl
      | cons u us => simp [refillEntries, ih us (Nat.succ.inj h)]

/-- The table with the same names and new values. -/
def refill (t : Table α) (vs : List α) : Table α where
  entries := refillEntries t.entries vs
  nodup := by
    rw [keys_refillEntries]
    exact t.nodup

@[simp] theorem keys_refill (t : Table α) (vs : List α) : (t.refill vs).keys = t.keys :=
  keys_refillEntries t.entries vs

@[simp] theorem refill_values (t : Table α) : t.refill t.values = t := by
  cases t
  simp [refill, values, refillEntries_values]

theorem values_refill {t : Table α} {vs : List α} (h : vs.length = t.values.length) :
    (t.refill vs).values = vs :=
  values_refillEntries (by simpa [values] using h)

theorem refill_refill {t : Table α} {vs : List α} (us : List α) (h : vs.length = t.values.length) :
    (t.refill us).refill vs = t.refill vs := by
  simp only [refill, mk.injEq]
  exact refillEntries_refillEntries us (by simpa [values] using h)

/-- The entries that pass a test, in their order. -/
def filter (t : Table α) (p : String → α → Bool) : Table α where
  entries := t.entries.filter fun e => p e.1 e.2
  nodup := (List.filter_sublist.map Prod.fst).nodup t.nodup

end Table

end StackTemplate

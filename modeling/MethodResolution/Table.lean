/-
  Method resolution — finite tables.

  A table is a finite map kept as a list of entries in the order in which the
  keys were first inserted.  Inserting under a present key replaces the value
  in place, so a table built by `insert` holds each key once.

  * `get?_insert`: what a lookup finds after an insertion;
  * `get?_modify`: what it finds after the value of a key was changed;
  * `contains_iff`, `contains_iff_mem_keys`: a key is present iff a lookup finds
    something, and iff it is among the keys;
  * `mem_entries_of_get?`: what a lookup finds is an entry.
-/

namespace MethodResolution

/-- A finite map from `α` to `β`, with its entries in insertion order. -/
structure Table (α β : Type) where
  entries : List (α × β) := []
  deriving DecidableEq, Repr

namespace Table

variable {α β : Type}

instance : EmptyCollection (Table α β) := ⟨⟨[]⟩⟩
instance : Inhabited (Table α β) := ⟨⟨[]⟩⟩

def size (t : Table α β) : Nat := t.entries.length

def isEmpty (t : Table α β) : Bool := t.entries.isEmpty

def keys (t : Table α β) : List α := t.entries.map Prod.fst

variable [DecidableEq α]

/-- The value of the first entry of `k`. -/
def find (k : α) : List (α × β) → Option β
  | [] => none
  | e :: es => if e.1 = k then some e.2 else find k es

/-- The entries `es` with the value `v` under `k`: in the place of the entry
    of `k` if there is one, else at the end. -/
def put (k : α) (v : β) : List (α × β) → List (α × β)
  | [] => [(k, v)]
  | e :: es => if e.1 = k then (k, v) :: es else e :: put k v es

def get? (t : Table α β) (k : α) : Option β := find k t.entries

def contains (t : Table α β) (k : α) : Bool := (t.get? k).isSome

/-- Store `v` under `k`, replacing what was there. -/
def insert (t : Table α β) (k : α) (v : β) : Table α β := ⟨put k v t.entries⟩

/-- Change the value under `k`, if there is one. -/
def modify (t : Table α β) (k : α) (f : β → β) : Table α β :=
  ⟨t.entries.map fun e => if e.1 = k then (e.1, f e.2) else e⟩

/-! ## Lookups -/

@[simp] theorem get?_empty (k : α) : (∅ : Table α β).get? k = none := rfl

theorem find_put (k : α) (v : β) (x : α) (es : List (α × β)) :
    find x (put k v es) = if x = k then some v else find x es := by
  induction es with
  | nil => simp [put, find, eq_comm]
  | cons e es ih =>
    by_cases hk : e.1 = k
    · subst hk; by_cases hx : e.1 = x <;> simp [put, find, hx, @eq_comm _ x]
    · by_cases hx : e.1 = x
      · subst hx; simp [put, find, hk]
      · simp [put, find, hk, hx, ih]

/-- A lookup after an insertion finds the new value under the inserted key and
    is unchanged elsewhere. -/
theorem get?_insert (t : Table α β) (k : α) (v : β) (x : α) :
    (t.insert k v).get? x = if x = k then some v else t.get? x :=
  find_put k v x t.entries

@[simp] theorem get?_insert_self (t : Table α β) (k : α) (v : β) :
    (t.insert k v).get? k = some v := by simp [get?_insert]

theorem get?_insert_of_ne (t : Table α β) {k x : α} (v : β) (h : x ≠ k) :
    (t.insert k v).get? x = t.get? x := by simp [get?_insert, h]

/-- A lookup after a modification finds the changed value under the modified
    key and is unchanged elsewhere. -/
theorem get?_modify (t : Table α β) (k : α) (f : β → β) (x : α) :
    (t.modify k f).get? x = if x = k then (t.get? x).map f else t.get? x := by
  obtain ⟨es⟩ := t
  simp only [get?, modify]
  induction es with
  | nil => simp [find]
  | cons e es ih =>
    by_cases hk : e.1 = k
    · subst hk
      by_cases hx : x = e.1
      · simp [find, hx]
      · simpa [find, hx, Ne.symm hx] using ih
    · by_cases hx : e.1 = x
      · subst hx; simp [find, hk]
      · simpa [find, hk, hx] using ih

theorem contains_iff (t : Table α β) (k : α) : t.contains k = true ↔ ∃ v, t.get? k = some v :=
  Option.isSome_iff_exists

theorem contains_iff_mem_keys (t : Table α β) (k : α) : t.contains k = true ↔ k ∈ t.keys := by
  obtain ⟨es⟩ := t
  simp only [contains, get?, keys]
  induction es with
  | nil => simp [find]
  | cons e es ih =>
    by_cases hk : e.1 = k
    · simp [find, hk]
    · simpa [find, hk, Ne.symm hk] using ih

theorem mem_entries_of_get? {t : Table α β} {k : α} {v : β} (h : t.get? k = some v) :
    (k, v) ∈ t.entries := by
  obtain ⟨es⟩ := t
  simp only [get?] at h ⊢
  induction es with
  | nil => cases h
  | cons e es ih =>
    rw [find] at h
    split at h
    · next hk =>
      cases h
      exact hk ▸ List.mem_cons_self
    · exact List.mem_cons_of_mem _ (ih h)

theorem contains_insert (t : Table α β) (k : α) (v : β) (x : α) :
    (t.insert k v).contains x = (decide (x = k) || t.contains x) := by
  by_cases h : x = k <;> simp [contains, get?_insert, h]

end Table

end MethodResolution

/-!
Tables in the order in which their keys were first entered. Entering a key again changes its
value and keeps its place.
-/

namespace Statechart

structure Table (κ α : Type) where
  entries : List (κ × α)
  deriving Repr, DecidableEq

namespace Table

variable {κ α : Type}

def empty : Table κ α := ⟨[]⟩

def keys (t : Table κ α) : List κ := t.entries.map (·.1)

/-- The entries with `v` under `k`. -/
def put [DecidableEq κ] (k : κ) (v : α) : List (κ × α) → List (κ × α)
  | [] => [(k, v)]
  | e :: es => if e.1 = k then (k, v) :: es else e :: put k v es

def insert [DecidableEq κ] (t : Table κ α) (k : κ) (v : α) : Table κ α := ⟨put k v t.entries⟩

/-- The value under `k` among entries. -/
def look [DecidableEq κ] (k : κ) : List (κ × α) → Option α
  | [] => none
  | e :: es => if e.1 = k then some e.2 else look k es

def get? [DecidableEq κ] (t : Table κ α) (k : κ) : Option α := look k t.entries

def contains [DecidableEq κ] (t : Table κ α) (k : κ) : Bool := (t.get? k).isSome

/-- Enters every pair of a list, from its head on. -/
def insertAll [DecidableEq κ] (t : Table κ α) (es : List (κ × α)) : Table κ α :=
  es.foldl (fun t e => t.insert e.1 e.2) t

/-- Enters everything that `u` holds. -/
def merge [DecidableEq κ] (t u : Table κ α) : Table κ α := t.insertAll u.entries

def ofList [DecidableEq κ] (es : List (κ × α)) : Table κ α := empty.insertAll es

theorem look_put [DecidableEq κ] (k : κ) (v : α) (j : κ) (es : List (κ × α)) :
    look j (put k v es) = if k = j then some v else look j es := by
  induction es with
  | nil => simp [put, look]
  | cons e es ih =>
    by_cases h : e.1 = k
    · by_cases hj : k = j <;> simp [put, look, h, hj]
    · by_cases hj : e.1 = j
      · have : k ≠ j := fun hk => h (hj.trans hk.symm)
        rw [put, if_neg h]
        simp [look, hj, this]
      · simp [put, look, h, hj, ih]

@[simp] theorem get?_insert [DecidableEq κ] (t : Table κ α) (k : κ) (v : α) (j : κ) :
    (t.insert k v).get? j = if k = j then some v else t.get? j :=
  look_put k v j t.entries

@[simp] theorem get?_empty [DecidableEq κ] (k : κ) : (empty : Table κ α).get? k = none := rfl

end Table

end Statechart

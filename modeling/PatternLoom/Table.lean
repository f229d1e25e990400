/-! Values under text keys, in the order in which the keys were first set. -/

namespace PatternLoom

abbrev Table (α : Type) := List (String × α)

namespace Table

/-- Sets a key, in place if it is there. -/
def put {α : Type} (table : Table α) (key : String) (value : α) : Table α :=
  match table with
  | [] => [(key, value)]
  | (k, v) :: rest => if k = key then (k, value) :: rest else (k, v) :: put rest key value

def putAll {α : Type} (table other : Table α) : Table α :=
  other.foldl (fun t entry => t.put entry.1 entry.2) table

def get? {α : Type} (table : Table α) (key : String) : Option α :=
  match table with
  | [] => none
  | (k, v) :: rest => if k = key then some v else get? rest key

theorem get?_put {α : Type} (table : Table α) (key key' : String) (value : α) :
    (table.put key value).get? key' = if key = key' then some value else table.get? key' := by
  induction table with
  | nil => rfl
  | cons entry rest ih =>
    obtain ⟨k, v⟩ := entry
    by_cases h : k = key
    · subst h
      by_cases h' : k = key' <;> simp [put, get?, h']
    · by_cases h' : k = key'
      · subst h'
        simp [put, get?, h, Ne.symm h]
      · simp [put, get?, h, h', ih]

end Table
end PatternLoom

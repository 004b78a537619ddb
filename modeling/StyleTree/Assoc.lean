/-! Association lists in the order of first insertion. A key has one place, the place of its first
    entry, and a later value takes that place over. -/

namespace StyleTree.Assoc

variable {α β : Type} [DecidableEq α]

def get? (m : List (α × β)) (k : α) : Option β :=
  match m with
  | [] => none
  | (k', v) :: rest => if k' = k then some v else get? rest k

def contains (m : List (α × β)) (k : α) : Bool := m.any (·.1 == k)

/-- The list with `v` at `k`: in the place of the old value, or at the end. -/
def put (m : List (α × β)) (k : α) (v : β) : List (α × β) :=
  match m with
  | [] => [(k, v)]
  | (k', v') :: rest => if k' = k then (k, v) :: rest else (k', v') :: put rest k v

def erase (m : List (α × β)) (k : α) : List (α × β) := m.filter (·.1 ≠ k)

/-- The list with a new entry in front of the entry at place `i`. -/
def insertAt (m : List (α × β)) (i : Nat) (k : α) (v : β) : List (α × β) :=
  m.take i ++ (k, v) :: m.drop i

def indexOf? (m : List (α × β)) (k : α) : Option Nat := m.findIdx? (·.1 == k)

/-- The entries put one after the other into the list. -/
def putAll (m entries : List (α × β)) : List (α × β) := entries.foldl (fun m e => put m e.1 e.2) m

/-- The entries with one place for each key. -/
def ofEntries (entries : List (α × β)) : List (α × β) := putAll [] entries

@[simp] theorem get?_nil (k : α) : get? ([] : List (α × β)) k = none := rfl

theorem get?_cons (e : α × β) (m : List (α × β)) (k : α) :
    get? (e :: m) k = if e.1 = k then some e.2 else get? m k := rfl

theorem get?_put (m : List (α × β)) (k k' : α) (v : β) :
    get? (put m k v) k' = if k = k' then some v else get? m k' := by
  induction m with
  | nil => simp [put, get?]
  | cons e m ih => grind [put, get?]

theorem contains_eq_isSome (m : List (α × β)) (k : α) : contains m k = (get? m k).isSome := by
  induction m with
  | nil => rfl
  | cons e m ih => by_cases h : e.1 = k <;> simp_all [contains, get?]

theorem contains_iff {m : List (α × β)} {k : α} : contains m k = true ↔ k ∈ m.map (·.1) := by
  simp [contains, List.mem_map]

/-- An overwritten key stays where it is, and a new one comes last. -/
theorem map_fst_put (m : List (α × β)) (k : α) (v : β) :
    (put m k v).map (·.1) = if k ∈ m.map (·.1) then m.map (·.1) else m.map (·.1) ++ [k] := by
  induction m with
  | nil => simp [put]
  | cons e m ih => grind [put]

end StyleTree.Assoc

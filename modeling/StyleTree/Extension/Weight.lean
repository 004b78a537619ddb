/-! Why expansion ends. An expansion takes away a key of some depth and may bring in any number of keys,
    all of them one deeper. So among the counts of keys by depth the first that changes goes down, and
    the counts, read from the least depth on, go down in the lexicographic order. -/

namespace StyleTree

/-- Counts for the depths below `n`, the least depth first. -/
def Weight : Nat → Type
  | 0 => Unit
  | n + 1 => Nat × Weight n

namespace Weight

/-- The lexicographic order. -/
@[reducible] def order : (n : Nat) → WellFoundedRelation (Weight n)
  | 0 => ⟨fun _ _ => False, ⟨fun _ => ⟨_, fun _ h => h.elim⟩⟩⟩
  | n + 1 => @Prod.lex Nat (Weight n) inferInstance (order n)

instance (n : Nat) : WellFoundedRelation (Weight n) := order n

/-- The counts given by a function. -/
def ofCounts : (n : Nat) → (Nat → Nat) → Weight n
  | 0, _ => ()
  | n + 1, c => (c 0, ofCounts n fun j => c (j + 1))

/-- Where one count goes down and none of a lesser depth goes up, the weight goes down. -/
theorem ofCounts_lt {n d : Nat} {c c' : Nat → Nat} (hd : d < n) (hlt : c' d < c d)
    (hle : ∀ j < d, c' j ≤ c j) : (order n).rel (ofCounts n c') (ofCounts n c) := by
  induction n generalizing d c c' with
  | zero => omega
  | succ n ih =>
    cases d with
    | zero => exact Prod.Lex.left _ _ hlt
    | succ d =>
      rcases Nat.lt_or_eq_of_le (hle 0 (by omega)) with h | h
      · exact Prod.Lex.left _ _ h
      · rw [ofCounts, ofCounts, h]
        exact Prod.Lex.right _ (ih (by omega) hlt fun j hj => hle (j + 1) (by omega))

end Weight

end StyleTree

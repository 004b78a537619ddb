import StyleTree.Proofs.Document.WellFormed

/-! Key paths of a tree. A block is found by the numbers of the children on the way down to it, and it is named by
    their keys. In a well-formed document the name is enough: the keys, looked up one after the other, lead to
    the same block. -/

namespace StyleTree.Block

/-- The block `n` is found from `b` on by the numbers in `position`, and `path` holds the keys on the way. -/
inductive Leads : Block → List Nat → KeyPath → Block → Prop
  | here (b : Block) : Leads b [] [] b
  | child {b c n : Block} {i : Nat} {key : String} {position : List Nat} {path : KeyPath} :
      b.children[i]? = some (.ofBlock key c) → Leads c position path n → Leads b (i :: position) (key :: path) n

namespace Leads
variable {b m n : Block} {position position' : List Nat} {path path' : KeyPath} {key : String}

theorem append (h : b.Leads position path m) (h' : m.Leads position' path' n) :
    b.Leads (position ++ position') (path ++ path') n := by
  induction h with
  | here b => exact h'
  | child hi _ ih => exact .child hi (ih h')

/-- The block of which the last key on the way is a child. -/
theorem parent (h : b.Leads position (path ++ [key]) n) :
    ∃ position' m, b.Leads position' path m ∧ .ofBlock key n ∈ m.children := by
  induction path generalizing b position with
  | nil =>
    cases h with
    | child hi h =>
      cases h
      exact ⟨[], b, .here b, List.mem_of_getElem? hi⟩
  | cons k path ih =>
    cases h with
    | child hi h =>
      obtain ⟨position', m, hm, hn⟩ := ih h
      exact ⟨_, m, .child hi hm, hn⟩

theorem at?_eq (h : b.Leads position path n) (hb : b.WellFormed) : n.WellFormed ∧ b.at? path = some n := by
  induction h with
  | here b => exact ⟨hb, rfl⟩
  | child hi _ ih =>
    have hchild := child?_of_mem hb.childKeys_nodup (List.mem_of_getElem? hi)
    obtain ⟨hn, hat⟩ := ih (hb.child? hchild)
    exact ⟨hn, by rw [at?, hchild]; exact hat⟩

end Leads

end StyleTree.Block

import Mathlib.Data.List.Lex
import StyleTree.Proofs.Document.KeyPaths

/-! Documents in pre-order. A listing has each block that is led to, with its position and the keys on the way,
    and it has them by position: a block before those below it, and those below a child before those below
    the next. The declarations are listed block by block. -/

namespace StyleTree

/-- A block of a document, with the numbers and the keys of the children on the way down to it. -/
structure Located where
  position : List Nat
  path : KeyPath
  block : Block

/-- The block as it is found from one level higher, below the child `i` under `key`. -/
def Located.under (i : Nat) (key : String) (l : Located) : Located := ⟨i :: l.position, key :: l.path, l.block⟩

mutual

/-- The blocks at and below a child with the number `i`. -/
def Node.located (i : Nat) : Node → List Located
  | .raw _ => []
  | .rule key declarations children =>
    (⟨[], [], ⟨declarations, children⟩⟩ :: Node.listLocated 0 children).map (.under i key)

/-- The blocks at and below children that are numbered from `i` on. -/
def Node.listLocated (i : Nat) : List Node → List Located
  | [] => []
  | n :: rest => n.located i ++ Node.listLocated (i + 1) rest

end

/-- The blocks of a tree, each before those below it. -/
def Block.located (b : Block) : List Located := ⟨[], [], b⟩ :: Node.listLocated 0 b.children

namespace Node

theorem located_ofBlock (i : Nat) (key : String) (b : Block) : (ofBlock key b).located i = b.located.map (.under i key) := by
  rw [ofBlock, located, Block.located]

theorem mem_located_iff {m : Node} {i : Nat} {l : Located} :
    l ∈ m.located i ↔ ∃ key c l', m = .ofBlock key c ∧ l' ∈ c.located ∧ l = .under i key l' := by
  cases m with
  | raw text => simp [located, ofBlock]
  | rule key ds cs =>
    constructor
    · intro h
      obtain ⟨l', hl', rfl⟩ := List.mem_map.mp (located_ofBlock i key ⟨ds, cs⟩ ▸ h)
      exact ⟨key, ⟨ds, cs⟩, l', rfl, hl', rfl⟩
    · rintro ⟨key', c, l', hm, hl', rfl⟩
      rw [hm, located_ofBlock]
      exact List.mem_map_of_mem hl'

theorem mem_listLocated_iff {nodes : List Node} {i : Nat} {l : Located} :
    l ∈ listLocated i nodes ↔ ∃ (j : Nat) (m : Node), nodes[j]? = some m ∧ l ∈ m.located (i + j) := by
  induction nodes generalizing i with
  | nil => simp [listLocated]
  | cons m rest ih =>
    rw [listLocated, List.mem_append, ih]
    constructor
    · rintro (h | ⟨j, m', hm', h⟩)
      · exact ⟨0, m, rfl, h⟩
      · exact ⟨j + 1, m', hm', by rwa [Nat.add_right_comm] at h⟩
    · rintro ⟨_ | j, m', hm', h⟩
      · cases hm'
        exact .inl h
      · exact .inr ⟨j, m', hm', by rwa [Nat.add_right_comm]⟩

end Node

namespace Block
variable {b n : Block} {position : List Nat} {path : KeyPath}

theorem mem_located_iff_under {l : Located} : l ∈ b.located ↔ l = ⟨[], [], b⟩ ∨
    ∃ i key c l', b.children[i]? = some (.ofBlock key c) ∧ l' ∈ c.located ∧ l = .under i key l' := by
  rw [located, List.mem_cons]
  simp only [Node.mem_listLocated_iff, Node.mem_located_iff, Nat.zero_add]
  refine or_congr_right ⟨?_, ?_⟩
  · rintro ⟨i, _, hi, key, c, l', rfl, hl', hl⟩
    exact ⟨i, key, c, l', hi, hl', hl⟩
  · rintro ⟨i, key, c, l', hi, hl', hl⟩
    exact ⟨i, _, hi, key, c, l', rfl, hl', hl⟩

/-- The listing has the blocks that are led to, and no others. -/
theorem mem_located_iff : ⟨position, path, n⟩ ∈ b.located ↔ b.Leads position path n := by
  constructor
  · intro h
    induction position generalizing b path with
    | nil =>
      rcases mem_located_iff_under.mp h with h | ⟨i, key, c, l', -, -, h⟩
      · cases h
        exact .here _
      · cases h
    | cons i position ih =>
      rcases mem_located_iff_under.mp h with h | ⟨i, key, c, l', hi, hl', h⟩
      · cases h
      · cases h
        exact .child hi (ih hl')
  · intro h
    induction h with
    | here b => exact mem_located_iff_under.mpr (.inl rfl)
    | child hi _ ih => exact mem_located_iff_under.mpr (.inr ⟨_, _, _, _, hi, ih, rfl⟩)

end Block

/-! ### The order -/

/-- A block comes before all that is below it. -/
theorem Block.pairwise_located_of_children {b : Block}
    (h : (Node.listLocated 0 b.children).Pairwise fun l l' => l.position < l'.position) :
    b.located.Pairwise fun l l' => l.position < l'.position := by
  refine List.pairwise_cons.mpr ⟨fun l hl => ?_, h⟩
  obtain ⟨i, m, -, hl⟩ := Node.mem_listLocated_iff.mp hl
  obtain ⟨key, c, l', -, -, rfl⟩ := Node.mem_located_iff.mp hl
  exact List.nil_lt_cons _ _

mutual

theorem Node.pairwise_located (i : Nat) : (m : Node) → (m.located i).Pairwise fun l l' => l.position < l'.position
  | .raw _ => .nil
  | .rule key ds cs => by
    have hbelow := Block.pairwise_located_of_children (b := ⟨ds, cs⟩) (Node.pairwise_listLocated 0 cs)
    rw [located, List.pairwise_map]
    exact hbelow.imp fun h => List.cons_lt_cons_iff.mpr (.inr ⟨rfl, h⟩)

theorem Node.pairwise_listLocated (i : Nat) : (nodes : List Node) →
    (listLocated i nodes).Pairwise fun l l' => l.position < l'.position
  | [] => .nil
  | m :: rest => by
    rw [listLocated]
    refine List.pairwise_append.mpr ⟨Node.pairwise_located i m, Node.pairwise_listLocated (i + 1) rest, ?_⟩
    intro l hl l' hl'
    obtain ⟨_, _, _, -, -, rfl⟩ := Node.mem_located_iff.mp hl
    obtain ⟨j, m', -, hl'⟩ := Node.mem_listLocated_iff.mp hl'
    obtain ⟨_, _, _, -, -, rfl⟩ := Node.mem_located_iff.mp hl'
    exact List.cons_lt_cons_iff.mpr (.inl (by omega))

end

/-- The listing is in the order of the positions. -/
theorem Block.pairwise_located (b : Block) : b.located.Pairwise fun l l' => l.position < l'.position :=
  pairwise_located_of_children (Node.pairwise_listLocated 0 b.children)

/-- In a listing by position, what is found first is found at the least position. -/
theorem Located.findSome?_eq_some_iff {β : Type} {f : Located → Option β} {b : β} {ls : List Located}
    (h : ls.Pairwise fun l l' => l.position < l'.position) : ls.findSome? f = some b ↔
      ∃ l ∈ ls, f l = some b ∧ ∀ l' ∈ ls, f l' ≠ none → l.position ≤ l'.position := by
  constructor
  · intro hb
    obtain ⟨before, l, after, rfl, hl, hbefore⟩ := List.findSome?_eq_some_iff.mp hb
    refine ⟨l, List.mem_append_right _ List.mem_cons_self, hl, fun l' hl' hsome => ?_⟩
    rcases List.mem_append.mp hl' with hl' | hl'
    · exact absurd (hbefore l' hl') hsome
    · rcases List.mem_cons.mp hl' with rfl | hl'
      · exact le_refl _
      · exact le_of_lt (List.rel_of_pairwise_cons (List.pairwise_append.mp h).2.1 hl')
  · rintro ⟨l, hl, hb, hfirst⟩
    obtain ⟨before, after, rfl⟩ := List.append_of_mem hl
    refine List.findSome?_eq_some_iff.mpr ⟨before, l, after, rfl, hb, fun l' hl' => ?_⟩
    by_contra hsome
    have hearlier : l'.position < l.position := (List.pairwise_append.mp h).2.2 l' hl' l List.mem_cons_self
    exact not_lt_of_ge (hfirst l' (List.mem_append_left _ hl') hsome) hearlier

/-! ### Declarations -/

/-- A declaration with the keys that lead to its block. -/
structure Declaration where
  path : KeyPath
  name : String
  value : Json

def Located.declarations (l : Located) : List Declaration := l.block.declarations.map fun d => ⟨l.path, d.1, d.2⟩

/-- All declarations of a document, in pre-order. -/
def Block.allDeclarations (d : Document) : List Declaration := d.located.flatMap Located.declarations

theorem Block.mem_allDeclarations_iff {d : Document} {x : Declaration} :
    x ∈ d.allDeclarations ↔ ∃ position n, d.Leads position x.path n ∧ (x.name, x.value) ∈ n.declarations := by
  rw [allDeclarations, List.mem_flatMap]
  constructor
  · rintro ⟨⟨position, path, n⟩, hl, hx⟩
    obtain ⟨e, he, rfl⟩ := List.mem_map.mp hx
    exact ⟨position, n, mem_located_iff.mp hl, he⟩
  · rintro ⟨position, n, hn, hx⟩
    exact ⟨⟨position, x.path, n⟩, mem_located_iff.mpr hn, List.mem_map.mpr ⟨_, hx, rfl⟩⟩

end StyleTree

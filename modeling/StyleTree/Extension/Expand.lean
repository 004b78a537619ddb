import StyleTree.Document.Frame
import StyleTree.Extension.Registry
import StyleTree.Extension.Weight

/-! Expanding the invocations of one block. A key that is a registered name invokes its extension: the key
    goes, and the result of the extension is merged into the block. The result may invoke extensions in
    turn, so this goes on until no key of the block is registered.

    Every key has a depth, the number of expansions it came through. An authored key has the depth of its
    block, and a key that an expansion brings in, or touches again, is one deeper than the key expanded.
    A key too deep to expand ends the run, so a cycle is found out, and every run ends (`Weight`). -/

namespace StyleTree

/-- The depth at which a key is no longer expanded. -/
def maxDepth : Nat := 32

/-! ### Invocations -/

/-- An invocation: the name, its extension, the argument, and the block without it, with a slot in the
    place of a declaration. -/
structure Invocation where
  name : String
  extension : Extension
  argument : Json
  rest : Splice

/-- The first registered name among the entries, with its place. -/
def Registry.firstDeclared? (r : Registry) (i : Nat) : List (String × Json) → Option (Nat × String × Json × Extension)
  | [] => none
  | (name, value) :: rest =>
    match r.get? name with
    | some f => some (i, name, value, f)
    | none => firstDeclared? r (i + 1) rest

def Registry.firstChild? (r : Registry) : List Node → Option (String × Json × Extension)
  | [] => none
  | .raw _ :: rest => firstChild? r rest
  | .rule name declarations children :: rest =>
    match r.get? name with
    | some f => some (name, Block.toValue ⟨declarations, children⟩, f)
    | none => firstChild? r rest

/-- The next invocation in a block: the first among the declarations, or else the first among the
    children. A declaration gives its value as the argument, and a child the map of its block. -/
def Registry.invocation? (r : Registry) (b : Block) : Option Invocation :=
  match r.firstDeclared? 0 b.declarations with
  | some (i, name, value, f) =>
    some ⟨name, f, value, { block := { b with declarations := Assoc.erase b.declarations name }, slot := some i }⟩
  | none =>
    match r.firstChild? b.children with
    | some (name, value, f) => some ⟨name, f, value, { block := b.detach name }⟩
    | none => none

def Invocation.fragment (inv : Invocation) : Json := inv.extension inv.argument

def Json.fragmentMaps : Json → List (List (String × Json))
  | .obj fields => [fields]
  | .arr items => maps items
  | _ => []

def Json.fragmentKeys (v : Json) : List String := v.fragmentMaps.flatMap fun m => m.map (·.1)

/-- The block with the fragment merged in. A result that is no fragment leaves no trace. -/
def Splice.mergeFragment (s : Splice) : Json → Splice
  | .obj fields => s.mergeFields fields
  | .arr items => if Json.isSequence items then s.mergeItems items else s
  | _ => s

/-- Whether a result is passed over without a word: null and the empty list stand for nothing. -/
def Json.isNothing : Json → Bool
  | .null => true
  | .arr [] => true
  | _ => false

def Invocation.warnings (inv : Invocation) : List Warning :=
  if inv.fragment.isFragment || inv.fragment.isNothing then [] else [.ignoredResult inv.name inv.fragment]

/-! ### Steps -/

/-- A block under expansion, and the depths of the keys that expansions touched, the latest first. -/
structure Expansion where
  block : Block
  depths : List (String × Nat) := []

namespace Expansion

def depthOf (base : Nat) (e : Expansion) (key : String) : Nat := (Assoc.get? e.depths key).getD base

/-- The block after an invocation at depth `d`. -/
def apply (e : Expansion) (d : Nat) (inv : Invocation) : Expansion where
  block := (inv.rest.mergeFragment inv.fragment).block
  depths := inv.fragment.fragmentKeys.map (·, d + 1) ++ e.depths

/-- How many registered keys of each depth the block holds. -/
def weight (r : Registry) (base : Nat) (e : Expansion) : Weight maxDepth :=
  Weight.ofCounts maxDepth fun j => e.block.countKeys fun k => r.contains k && e.depthOf base k == j

end Expansion

/-! ### Expansion ends -/

theorem Splice.mergeFragment_eq (s : Splice) (v : Json) :
    s.mergeFragment v = v.fragmentMaps.foldl Splice.mergeFields s ∨ s.mergeFragment v = s := by
  cases v with
  | obj fields => exact .inl rfl
  | arr items =>
    rw [mergeFragment]
    split
    · exact .inl (s.mergeItems_eq_foldl items)
    · exact .inr rfl
  | null | bool _ | num _ | str _ => exact .inr rfl

theorem Splice.countKeys_mergeFragment_le {p : String → Bool} (s : Splice) (v : Json)
    (hp : ∀ k ∈ v.fragmentKeys, p k = false) :
    (s.mergeFragment v).block.countKeys p ≤ s.block.countKeys p := by
  rcases s.mergeFragment_eq v with h | h
  · rw [h]
    exact s.countKeys_foldl_le fun m hm k hk => hp k (List.mem_flatMap.mpr ⟨m, hm, hk⟩)
  · exact Nat.le_of_eq (congrArg (fun t : Splice => t.block.countKeys p) h)

namespace Registry
variable {r : Registry}

theorem firstDeclared?_eq_some {i j : Nat} {ds : List (String × Json)} {name : String} {value : Json}
    {f : Extension} (h : r.firstDeclared? i ds = some (j, name, value, f)) :
    (name, value) ∈ ds ∧ r.get? name = some f := by
  induction ds generalizing i with
  | nil => simp [firstDeclared?] at h
  | cons e rest ih =>
    obtain ⟨key, v⟩ := e
    rw [firstDeclared?] at h
    split at h
    · next g hg =>
      simp only [Option.some.injEq, Prod.mk.injEq] at h
      obtain ⟨-, rfl, rfl, rfl⟩ := h
      exact ⟨List.mem_cons_self, hg⟩
    · exact (ih h).imp_left (List.mem_cons_of_mem _)

theorem firstChild?_eq_some {children : List Node} {name : String} {value : Json} {f : Extension}
    (h : r.firstChild? children = some (name, value, f)) :
    (∃ n ∈ children, n.key? = some name) ∧ r.get? name = some f := by
  induction children with
  | nil => simp [firstChild?] at h
  | cons n rest ih =>
    cases n with
    | raw text =>
      rw [firstChild?] at h
      exact (ih h).imp_left fun ⟨n, hn, hk⟩ => ⟨n, List.mem_cons_of_mem _ hn, hk⟩
    | rule key ds cs =>
      rw [firstChild?] at h
      split at h
      · next g hg =>
        simp only [Option.some.injEq, Prod.mk.injEq] at h
        obtain ⟨rfl, -, rfl⟩ := h
        exact ⟨⟨_, List.mem_cons_self, rfl⟩, hg⟩
      · exact (ih h).imp_left fun ⟨n, hn, hk⟩ => ⟨n, List.mem_cons_of_mem _ hn, hk⟩

/-- An invocation is under a registered name. -/
theorem contains_invocation {b : Block} {inv : Invocation} (h : r.invocation? b = some inv) :
    r.contains inv.name = true := by
  rw [invocation?] at h
  split at h
  · next hd =>
    rw [← Option.some.inj h, contains, (firstDeclared?_eq_some hd).2]; rfl
  · split at h
    · next hc => rw [← Option.some.inj h, contains, (firstChild?_eq_some hc).2]; rfl
    · cases h

/-- Without the invocation the block holds no key that it did not hold, and one key less. -/
theorem countKeys_rest {b : Block} {inv : Invocation} (h : r.invocation? b = some inv) (p : String → Bool) :
    inv.rest.block.countKeys p ≤ b.countKeys p ∧
      (p inv.name = true → inv.rest.block.countKeys p < b.countKeys p) := by
  have count_lt {l l' : List String} {key : String} (hl : l'.Sublist l) (hk : key ∈ l) (hk' : key ∉ l')
      (hp : p key = true) : l'.countP p < l.countP p := by
    refine Nat.lt_of_le_of_ne hl.countP_le fun he => hk' ?_
    have hf : l'.filter p = l.filter p := (hl.filter p).eq_of_length (by simpa [List.countP_eq_length_filter] using he)
    exact (List.mem_filter.mp (hf ▸ List.mem_filter.mpr ⟨hk, hp⟩)).1
  rw [invocation?] at h
  split at h
  · next i name value f hd =>
    have hs := Block.declared_erase_sublist b.declarations name
    have hm : name ∈ b.declarations.map (·.1) := List.mem_map.mpr ⟨_, (firstDeclared?_eq_some hd).1, rfl⟩
    rw [← Option.some.inj h]
    simp only [Block.countKeys, Block.keys, Block.declared, Block.childKeys, List.countP_append]
    refine ⟨Nat.add_le_add_right hs.countP_le _, fun hp => Nat.add_lt_add_right (count_lt hs hm ?_ hp) _⟩
    simp [Assoc.erase, List.mem_filter]
  · split at h
    · next name value f hc =>
      have hs := Block.childKeys_detach_sublist b name
      obtain ⟨n, hn, hk⟩ := (firstChild?_eq_some hc).1
      have hm : name ∈ b.childKeys := List.mem_filterMap.mpr ⟨n, hn, hk⟩
      rw [← Option.some.inj h]
      simp only [Block.countKeys, Block.keys, List.countP_append]
      refine ⟨Nat.add_le_add_left hs.countP_le _, fun hp => Nat.add_lt_add_left (count_lt hs hm ?_ hp) _⟩
      simp only [Block.childKeys, Block.detach, List.mem_filterMap, List.mem_filter, not_exists, not_and, and_imp]
      intro m _ hm hk
      simp [Node.hasKey, hk] at hm
    · cases h

end Registry

namespace Expansion
variable {r : Registry} {base : Nat} {e : Expansion} {inv : Invocation}

theorem get?_map_append (keys : List String) (d : Nat) (m : List (String × Nat)) (k : String) :
    Assoc.get? (keys.map (·, d) ++ m) k = if k ∈ keys then some d else Assoc.get? m k := by
  induction keys with
  | nil => simp
  | cons key rest ih =>
    by_cases h : key = k
    · simp [Assoc.get?, h]
    · simp [Assoc.get?, h, ih, Ne.symm h]

/-- A key that the fragment brings in is one deeper than the invocation, and any other is as deep as it
    was. -/
theorem depthOf_apply (base d : Nat) (e : Expansion) (inv : Invocation) (k : String) :
    (e.apply d inv).depthOf base k = if k ∈ inv.fragment.fragmentKeys then d + 1 else e.depthOf base k := by
  rw [depthOf, apply, get?_map_append]
  split <;> rfl

/-- Of the depths up to that of the invocation none gains a key, and the depth itself loses one. -/
theorem weight_apply_lt (h : r.invocation? e.block = some inv) (hd : e.depthOf base inv.name < maxDepth) :
    (Weight.order maxDepth).rel (weight r base (e.apply (e.depthOf base inv.name) inv)) (weight r base e) := by
  have hle (j : Nat) (hj : j ≤ e.depthOf base inv.name) :
      (e.apply (e.depthOf base inv.name) inv).block.countKeys (fun k => r.contains k &&
        (e.apply (e.depthOf base inv.name) inv).depthOf base k == j) ≤
      inv.rest.block.countKeys fun k => r.contains k && e.depthOf base k == j := by
    refine Nat.le_trans (inv.rest.countKeys_mergeFragment_le inv.fragment fun k hk => ?_) ?_
    · rw [depthOf_apply, if_pos hk]
      simp only [Bool.and_eq_false_iff, beq_eq_false_iff_ne]
      exact .inr (by omega)
    · refine List.countP_mono_left fun k _ hk => ?_
      rw [depthOf_apply] at hk
      split at hk
      · simp only [Bool.and_eq_true, beq_iff_eq] at hk
        omega
      · exact hk
  refine Weight.ofCounts_lt hd ?_ fun j hj => ?_
  · refine Nat.lt_of_le_of_lt (hle _ (Nat.le_refl _)) ((r.countKeys_rest h _).2 ?_)
    simp [r.contains_invocation h]
  · exact Nat.le_trans (hle j (Nat.le_of_lt hj)) (r.countKeys_rest h _).1

end Expansion

/-- Expands the invocations of a block at depth `base`, one after the other, until none is left. -/
def Registry.expand (r : Registry) (base : Nat) (e : Expansion) : Report Expansion :=
  match _ : r.invocation? e.block with
  | none => pure e
  | some inv =>
    if _ : e.depthOf base inv.name < maxDepth then do
      Report.warnAll inv.warnings
      r.expand base (e.apply (e.depthOf base inv.name) inv)
    else Report.fail (.cyclicExtension inv.name (e.depthOf base inv.name))
termination_by e.weight r base
decreasing_by exact Expansion.weight_apply_lt ‹_› ‹_›

end StyleTree

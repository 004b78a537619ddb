import StyleTree.Proofs.Arena.Changes
import StyleTree.Proofs.Document.ReadingBack

/-! Merges into a node of an arena. In a sound arena a merge does to the block of the node what it does to a block
    that stands alone. It changes nothing but this node and those below it, and leaves the arena sound. -/

namespace StyleTree.Arena
variable {a a' : Arena} {id : Nat} {slot : Option Nat} {key : String}

/-! ### Opening a child -/

/-- What opening a child makes of an arena and a slot, beside what it makes of a block. -/
structure Opens (a : Arena) (id : Nat) (key : String) (slot : Option Nat) (c : Nat) (a' : Arena) (slot' : Option Nat) :
    Prop where
  sound : a'.Sound
  grows : a.Grows (· = id) a'
  child : c ∈ a'.childIds id
  named : (a'.node c).key = key
  splice : ∀ f, Splice.openChild ⟨a.block id, slot⟩ key f =
    ⟨⟨(a'.block id).declarations, Block.mapChild key f (a'.block id).children⟩, slot'⟩

theorem Sound.openChild (ha : a.Sound) (hid : id < a.size) (key : String) (slot : Option Nat) :
    a.Opens id key slot (a.openChild id key slot).1 (a.openChild id key slot).2.1 (a.openChild id key slot).2.2 := by
  have hkeys : (a.block id).childKeys = a.childKeys id := ha.toLinked.childKeys_block id
  rw [Arena.openChild]
  cases hc : a.child? id key with
  | some c =>
    obtain ⟨hmem, hkey⟩ := child?_eq_some hc
    refine ⟨ha, .refl _ _, hmem, hkey, fun f => if_pos (Block.hasChild_iff.mpr ?_)⟩
    rw [hkeys]
    exact List.mem_map.mpr ⟨c, hmem, hkey⟩
  | none =>
    have hnot : key ∉ (a.block id).childKeys := hkeys ▸ child?_eq_none hc
    have hblock := ha.toLinked.block_erase hid key
    have hsize : (a.erase id key).size = a.size := size_modify
    have hid' : id < (a.erase id key).size := hsize ▸ hid
    have hfree : key ∉ ((a.erase id key).block id).keys := by
      rw [hblock, Block.keys, List.mem_append, not_or]
      exact ⟨fun hm => by simp [Block.declared, Assoc.erase] at hm, hnot⟩
    have herased := ha.erase hid key
    rw [← hsize]
    refine ⟨herased.addChild hid' hfree, (a.grows_erase id key).trans (grows_addChild hid') fun _ _ h => h, ?_, ?_,
      fun f => ?_⟩
    · rw [mem_childIds, node_addChild_self hid']
      exact List.mem_append_right _ List.mem_cons_self
    · rw [node_addChild_new hid']
    · rw [Splice.openChild, if_neg fun h => hnot (Block.hasChild_iff.mp h), herased.toLinked.block_addChild hid', hblock,
        Block.mapChild_append_of_not_mem hnot, Block.mapChild_cons_ofBlock, ← declarations_block]
      rfl

/-! ### Declaring -/

/-- A change at and below a node that makes of its block, and of the slot, what stands in `s`. -/
structure Refines (a : Arena) (id : Nat) (r : Arena × Option Nat) (s : Splice) : Prop where
  sound : r.1.Sound
  grows : a.Grows (a.Below id) r.1
  block : r.1.block id = s.block
  slot : r.2 = s.slot

theorem Refines.splice_eq {r : Arena × Option Nat} {s : Splice} (h : a.Refines id r s) : ⟨r.1.block id, r.2⟩ = s := by
  rw [h.block, h.slot]

theorem Refines.refl (ha : a.Sound) (id : Nat) (slot : Option Nat) : a.Refines id (a, slot) ⟨a.block id, slot⟩ :=
  ⟨ha, .refl _ _, rfl, rfl⟩

theorem Refines.trans (ha : a.Sound) {r r' : Arena × Option Nat} {s s' : Splice} (h : a.Refines id r s)
    (h' : r.1.Refines id r' s') : a.Refines id r' s' :=
  ⟨h'.sound, h.grows.trans_below ha.toLinked h'.grows, h'.block, h'.slot⟩

theorem Sound.closeChild (ha : a.Sound) (hid : id < a.size) (key : String) (slot : Option Nat) :
    a.Refines id (a.closeChild id key, slot) ⟨(a.block id).detach key, slot⟩ := by
  rw [Arena.closeChild]
  split
  · next c hc =>
    obtain ⟨hmem, rfl⟩ := child?_eq_some hc
    exact ⟨ha.detach hid c, (a.grows_detach id c).toBelow, ha.block_detach hmem, rfl⟩
  · next hc =>
    refine ⟨ha, .refl _ _, (Block.detach_of_not_mem ?_).symm, rfl⟩
    rw [ha.toLinked.childKeys_block]
    exact child?_eq_none hc

theorem Sound.refines_declarations (ha : a.Sound) (hid : id < a.size) {g : List (String × Json) → List (String × Json)}
    (hkeys : (Block.mk (g (a.block id).declarations) (a.block id).children).keys.Nodup)
    (hleaves : ∀ d ∈ g (a.block id).declarations, d.2.isFragment = false) (slot : Option Nat) :
    a.Refines id (a.modify id fun n => { n with declarations := g n.declarations }, slot)
      ⟨⟨g (a.block id).declarations, (a.block id).children⟩, slot⟩ :=
  ⟨ha.declarations hid hkeys hleaves, local_declarations.grows.toBelow, ha.toLinked.block_declarations hid, rfl⟩

theorem Sound.declare (ha : a.Sound) (hid : id < a.size) (key : String) {v : Json} (hv : v.isFragment = false)
    (slot : Option Nat) : a.Refines id (a.declare id key v slot) (Splice.declare ⟨a.block id, slot⟩ key v) := by
  have hclose := ha.closeChild hid key slot
  have hid' : id < (a.closeChild id key).size := Nat.lt_of_lt_of_le hid hclose.grows.size_le
  have hblock : (a.closeChild id key).block id = (a.block id).detach key := hclose.block
  have hkeys := Splice.nodup_keys_declare (s := ⟨a.block id, slot⟩) (ha.keys_block id) key v
  have hleaves : ∀ d ∈ (Splice.declare ⟨a.block id, slot⟩ key v).block.declarations, d.2.isFragment = false := by
    intro d hd
    rcases Splice.mem_declarations_declare hd with hd | rfl
    · exact ha.leaves id d (declarations_block a id ▸ hd)
    · exact hv
  -- With the child gone, what is left is a change of the declarations.
  have hdeclared {g : List (String × Json) → List (String × Json)} {slot' : Option Nat}
      (hg : Splice.declare ⟨a.block id, slot⟩ key v =
        ⟨⟨g ((a.block id).detach key).declarations, ((a.block id).detach key).children⟩, slot'⟩) :
      a.Refines id ((a.closeChild id key).modify id fun n => { n with declarations := g n.declarations }, slot')
        (Splice.declare ⟨a.block id, slot⟩ key v) := by
    rw [hg] at hkeys hleaves ⊢
    rw [← hblock] at hkeys hleaves ⊢
    exact hclose.trans ha (hclose.sound.refines_declarations hid' hkeys hleaves slot')
  have hdeclarations : ((a.closeChild id key).node id).declarations = ((a.block id).detach key).declarations := by
    rw [← declarations_block, hblock]
  unfold Arena.declare
  dsimp only
  rw [hdeclarations]
  split
  · next h => exact hdeclared (g := (Assoc.put · key v)) (if_pos h)
  · next h =>
    cases slot with
    | none => exact hdeclared (g := (· ++ [(key, v)])) (if_neg h)
    | some i => exact hdeclared (g := (Assoc.insertAt · _ key v)) (if_neg h)

/-! ### Merging -/

/-- A change below a child that was opened, which makes `f` of its block. -/
theorem Opens.refines (ha : a.Sound) {c : Nat} {slot' : Option Nat} (ho : a.Opens id key slot c a' slot')
    {r : Arena × Option Nat} {s : Splice} (h : a'.Refines c r s) {f : Block → Block} (hf : s.block = f (a'.block c)) :
    a.Refines id (r.1, slot') (Splice.openChild ⟨a.block id, slot⟩ key f) := by
  have hparent := (ho.sound.owned ho.child).2
  refine ⟨h.sound, ho.grows.toBelow.trans h.grows fun k hk hb => ?_, ?_, ?_⟩
  · exact ho.grows.below ha.toLinked hk (hb.of_parent hparent)
  · rw [h.grows.block_parent ho.sound h.sound.toLinked ho.child (h.block.trans hf), ho.named, ho.splice]
  · rw [ho.splice]

mutual

theorem Sound.mergeField {a : Arena} {id : Nat} (ha : a.Sound) (hid : id < a.size) (slot : Option Nat) (key : String) :
    (v : Json) → a.Refines id (a.mergeField id slot key v) (Splice.mergeField ⟨a.block id, slot⟩ key v)
  | .obj fields => by
    have ho := ha.openChild hid key slot
    rw [Arena.mergeField, Splice.mergeField]
    exact ho.refines ha (ho.sound.mergeFields (ho.sound.child_lt ho.child) none fields) rfl
  | .arr items => by
    have ho := ha.openChild hid key slot
    rw [Arena.mergeField, Splice.mergeField]
    split
    · exact ho.refines ha (ho.sound.mergeItems (ho.sound.child_lt ho.child) none items) rfl
    · next h => exact ha.declare hid key (Bool.not_eq_true _ ▸ h) slot
  | .null | .bool _ | .num _ | .str _ => by
    rw [Arena.mergeField, Splice.mergeField]
    exact ha.declare hid key rfl slot

theorem Sound.mergeFields {a : Arena} {id : Nat} (ha : a.Sound) (hid : id < a.size) (slot : Option Nat) :
    (fields : List (String × Json)) →
      a.Refines id (a.mergeFields id slot fields) (Splice.mergeFields ⟨a.block id, slot⟩ fields)
  | [] => by
    rw [Arena.mergeFields, Splice.mergeFields]
    exact .refl ha id slot
  | (key, v) :: rest => by
    have h := ha.mergeField hid slot key v
    rw [Arena.mergeFields, Splice.mergeFields, ← h.splice_eq]
    exact h.trans ha (h.sound.mergeFields (Nat.lt_of_lt_of_le hid h.grows.size_le) _ rest)

theorem Sound.mergeItems {a : Arena} {id : Nat} (ha : a.Sound) (hid : id < a.size) (slot : Option Nat) :
    (items : List Json) → a.Refines id (a.mergeItems id slot items) (Splice.mergeItems ⟨a.block id, slot⟩ items)
  | [] => by
    rw [Arena.mergeItems, Splice.mergeItems]
    exact .refl ha id slot
  | .obj fields :: rest => by
    have h := ha.mergeFields hid slot fields
    rw [Arena.mergeItems, Splice.mergeItems, ← h.splice_eq]
    exact h.trans ha (h.sound.mergeItems (Nat.lt_of_lt_of_le hid h.grows.size_le) _ rest)
  | .arr inner :: rest => by
    have h := ha.mergeItems hid slot inner
    rw [Arena.mergeItems, Splice.mergeItems, ← h.splice_eq]
    exact h.trans ha (h.sound.mergeItems (Nat.lt_of_lt_of_le hid h.grows.size_le) _ rest)
  | .null :: rest | .bool _ :: rest | .num _ :: rest | .str _ :: rest => by
    simp only [Arena.mergeItems, Splice.mergeItems]
    exact ha.mergeItems hid slot rest

end

end StyleTree.Arena

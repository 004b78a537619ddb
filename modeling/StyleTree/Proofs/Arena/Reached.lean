import StyleTree.Proofs.Arena.Resolution

/-! Arenas as operations build them. A document starts with nothing but its root and takes submissions, merges into
    any of its nodes with or without a slot, raw texts, detachments and resolutions, in any order. A node that is
    detached can still be merged into. Every arena so built is sound. -/

namespace StyleTree.Arena

/-- The documents that operations build. -/
inductive Reached : Arena → Prop
  | new : Reached {}
  | merge {a a' : Arena} {v : Json} : Reached a → v.WellFormed → a.merge v = .ok a' → Reached a'
  | mergeMap {a : Arena} {id : Nat} {fields : List (String × Json)} (slot : Option Nat) : Reached a → id < a.size →
      (Json.obj fields).WellFormed → Reached (a.mergeFields id slot fields).1
  | mergeSequence {a : Arena} {id : Nat} {items : List Json} (slot : Option Nat) : Reached a → id < a.size →
      (Json.arr items).WellFormed → Reached (a.mergeItems id slot items).1
  | pushRaw {a : Arena} (text : String) : Reached a → Reached (a.pushRaw text)
  | detach {a : Arena} {id : Nat} (child : Nat) : Reached a → id < a.size → Reached (a.detach id child)
  | clear {a : Arena} : Reached a → Reached a.clear
  | resolve {a a' : Arena} {r : Registry} : Reached a → r.Sound → a.Resolves r (.ok a') → Reached a'

theorem Sound.new : Sound {} := by
  have hnode (id : Nat) : node {} id = {} := by
    cases id <;> rfl
  refine ⟨⟨Nat.one_pos, fun {id p} hp => ?_, fun {id c} hc => ?_⟩, fun id => ?_, fun id d hd => ?_⟩
  · rw [hnode] at hp
    cases hp
  · rw [mem_childIds, hnode] at hc
    cases hc
  · simp [declared, childKeys, childIds, hnode]
  · rw [hnode] at hd
    cases hd

section
variable {a a' : Arena} {id : Nat}

theorem Linked.owned_pushRaw (ha : a.Linked) {text : String} {c : Nat}
    (hc : .node c ∈ (a.node root).children ++ [.raw text]) : c < a.size ∧ (a.node c).parent = some root :=
  ha.owned_node ((List.mem_append.mp hc).resolve_right (by simp))

theorem Linked.block_pushRaw (ha : a.Linked) (text : String) :
    (a.pushRaw text).block root = (a.block root).pushRaw text := by
  have hmodify := ha.block_modify (local_children (h := (· ++ [.raw text]))) (fun _ => ha.owned_pushRaw) ha.nonempty
  rw [pushRaw, hmodify, ha.block_eq, Block.pushRaw, List.map_append]
  rfl

theorem Sound.pushRaw (ha : a.Sound) (text : String) : (a.pushRaw text).Sound := by
  have hblock := ha.toLinked.block_pushRaw text
  have hkeys : ((a.block root).pushRaw text).keys = (a.block root).keys := by
    simp [Block.pushRaw, Block.keys, Block.declared, Block.childKeys, StyleTree.Node.key?]
  refine ha.modify (local_children (h := (· ++ [.raw text]))) (fun _ => ha.toLinked.owned_pushRaw) ?_ fun d hd => ?_
  · rw [← Arena.pushRaw, hblock, hkeys]
    exact ha.keys_block root
  · rw [← Arena.pushRaw, hblock, Block.pushRaw, declarations_block] at hd
    exact ha.leaves root d hd

/-- A submission makes of the arena what it makes of the block of the root. -/
theorem Sound.merge (ha : a.Sound) {v : Json} (h : a.merge v = .ok a') :
    a'.Sound ∧ (a.block root).merge v = .ok (a'.block root) := by
  cases v with
  | obj fields =>
    cases h
    have hmerge := ha.mergeFields ha.nonempty none fields
    exact ⟨hmerge.sound, congrArg _ hmerge.block.symm⟩
  | arr items =>
    rw [Arena.merge] at h
    rw [Block.merge]
    split at h
    · next hseq =>
      cases h
      have hmerge := ha.mergeItems ha.nonempty none items
      rw [if_pos hseq]
      exact ⟨hmerge.sound, congrArg _ hmerge.block.symm⟩
    · next hseq =>
      rw [if_neg hseq]
      split at h
      · next hempty =>
        cases h
        exact ⟨ha, if_pos hempty⟩
      · cases h
  | null | bool _ | num _ | str _ => cases h

/-- A resolution makes of the arena what it makes of the block of the root. -/
theorem Sound.resolve (ha : a.Sound) {r : Registry} (h : a.Resolves r (.ok a')) :
    a'.Sound ∧ (r.resolve (a.block root)).result = .ok (a'.block root) := by
  have hagrees := ha.agrees h
  generalize (r.resolve (a.block root)).result = result at hagrees
  cases hagrees with
  | ok hsound _ => exact ⟨hsound, rfl⟩

theorem Sound.exists_resolves_of_result (ha : a.Sound) {r : Registry} {d : Document}
    (h : (r.resolve (a.block root)).result = .ok d) : ∃ a', a.Resolves r (.ok a') ∧ a'.Sound ∧ a'.block root = d := by
  obtain ⟨out, hout, hagrees⟩ := ha.exists_resolves r
  rw [h] at hagrees
  cases hagrees with
  | ok hsound _ => exact ⟨_, hout, hsound, rfl⟩

theorem Sound.exists_resolves_ok_iff (ha : a.Sound) {r : Registry} :
    (∃ a', a.Resolves r (.ok a')) ↔ ∃ d, (r.resolve (a.block root)).result = .ok d := by
  constructor
  · rintro ⟨a', h⟩
    exact ⟨_, (ha.resolve h).2⟩
  · rintro ⟨d, h⟩
    obtain ⟨a', h, -⟩ := ha.exists_resolves_of_result h
    exact ⟨a', h⟩

theorem Sound.resolves_error_iff (ha : a.Sound) {r : Registry} {fault : Error} :
    a.Resolves r (.error fault) ↔ (r.resolve (a.block root)).result = .error fault := by
  constructor
  · intro h
    exact (ha.agrees h).map_eq.symm
  · intro h
    obtain ⟨out, hout, hagrees⟩ := ha.exists_resolves r
    rw [h] at hagrees
    cases hagrees with
    | error => exact hout

/-- Every document that operations build is sound. -/
theorem Reached.sound (h : a.Reached) : a.Sound := by
  induction h with
  | new | clear => exact .new
  | merge _ _ hm ih => exact (ih.merge hm).1
  | mergeMap slot _ hid _ ih => exact (ih.mergeFields hid slot _).sound
  | mergeSequence slot _ hid _ ih => exact (ih.mergeItems hid slot _).sound
  | pushRaw text _ ih => exact ih.pushRaw text
  | detach child _ hid ih => exact ih.detach hid child
  | resolve _ _ hr ih => exact (ih.resolve hr).1

end

end StyleTree.Arena

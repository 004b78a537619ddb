import StyleTree.Proofs.Document.Reached

/-! Registries whose extensions invoke none. A registered key is then an authored one, and is as deep as its
    block, but the blocks below are one deeper where an expansion has touched them. So the depth that is
    reached is no greater than the number of blocks, one below the other, that invoke extensions: up to
    the greatest depth every such document is resolved, and beyond it one may fail without any cycle. -/

namespace StyleTree

/-! ### Nesting -/

/-- A value with a key in `p`, in a map at any depth, in lists too. -/
inductive Json.Mentions (p : String → Bool) : Json → Prop
  | key {fields : List (String × Json)} {e : String × Json} : e ∈ fields → p e.1 = true → Mentions p (.obj fields)
  | field {fields : List (String × Json)} {e : String × Json} : e ∈ fields → Mentions p e.2 → Mentions p (.obj fields)
  | item {items : List Json} {v : Json} : v ∈ items → Mentions p v → Mentions p (.arr items)

mutual

/-- The greatest number of blocks with a key in `p` on a way down from this one. -/
def Node.nesting (p : String → Bool) : Node → Nat
  | .raw _ => 0
  | .rule _ declarations children =>
    (if (Block.mk declarations children).keys.any p then 1 else 0) + Node.nestingAll p children

def Node.nestingAll (p : String → Bool) : List Node → Nat
  | [] => 0
  | n :: rest => max (n.nesting p) (Node.nestingAll p rest)

end

namespace Block
variable {p : String → Bool} {b b' : Block}

def nestingBelow (p : String → Bool) (b : Block) : Nat := Node.nestingAll p b.children

def nesting (p : String → Bool) (b : Block) : Nat := (if b.keys.any p then 1 else 0) + b.nestingBelow p

theorem nestingBelow_le_iff {n : Nat} :
    b.nestingBelow p ≤ n ↔ ∀ key c, .ofBlock key c ∈ b.children → c.nesting p ≤ n := by
  obtain ⟨ds, children⟩ := b
  induction children with
  | nil => exact iff_of_true (Nat.zero_le n) fun _ _ h => nomatch h
  | cons m rest ih =>
    have hmax : nestingBelow p ⟨ds, m :: rest⟩ ≤ n ↔ m.nesting p ≤ n ∧ nestingBelow p ⟨ds, rest⟩ ≤ n := Nat.max_le
    rw [hmax, ih]
    refine ⟨fun ⟨hm, hrest⟩ key c hc => ?_, fun h => ⟨?_, fun key c hc => h key c (List.mem_cons_of_mem _ hc)⟩⟩
    · rcases List.mem_cons.mp hc with rfl | hc
      · exact hm
      · exact hrest key c hc
    · cases m with
      | raw text => exact Nat.zero_le n
      | rule key ds' cs => exact h key ⟨ds', cs⟩ List.mem_cons_self

theorem nesting_child_le {key : String} {c : Block} (hc : .ofBlock key c ∈ b.children) :
    c.nesting p ≤ b.nestingBelow p := nestingBelow_le_iff.mp (Nat.le_refl _) key c hc

/-- The block `b'` has no key in `p` that `b` does not have, and no deeper nesting below. -/
structure NoMore (p : String → Bool) (b b' : Block) : Prop where
  keys : ∀ key ∈ b'.keys, p key = true → key ∈ b.keys
  below : b'.nestingBelow p ≤ b.nestingBelow p

theorem NoMore.refl (p : String → Bool) (b : Block) : NoMore p b b := ⟨fun _ h _ => h, Nat.le_refl _⟩

theorem NoMore.trans {b'' : Block} (h : NoMore p b b') (h' : NoMore p b' b'') : NoMore p b b'' :=
  ⟨fun key hk hp => h.keys key (h'.keys key hk hp) hp, Nat.le_trans h'.below h.below⟩

theorem NoMore.nesting_le (h : NoMore p b b') : b'.nesting p ≤ b.nesting p := by
  refine Nat.add_le_add ?_ h.below
  cases hb' : b'.keys.any p with
  | false => exact Nat.zero_le _
  | true =>
    obtain ⟨key, hk, hp⟩ := List.any_eq_true.mp hb'
    have hb : b.keys.any p = true := List.any_eq_true.mpr ⟨key, h.keys key hk hp, hp⟩
    exact Nat.le_of_eq (by rw [hb])

theorem NoMore.of_sublist {ds : List (String × Json)} {cs : List Node} (hd : ds.Sublist b.declarations)
    (hc : cs.Sublist b.children) : NoMore p b ⟨ds, cs⟩ :=
  ⟨fun _ hk _ => ((hd.map _).append (hc.filterMap _)).subset hk,
    nestingBelow_le_iff.mpr fun _ _ hm => nesting_child_le (hc.subset hm)⟩

end Block

/-! ### Merges -/

namespace Block.NoMore
variable {p : String → Bool} {s : Splice} {key : String}

theorem openChild (hp : p key = false) {f : Block → Block} (hf : ∀ b, NoMore p b (f b)) :
    NoMore p s.block (s.openChild key f).block := by
  refine ⟨fun k hk hpk => ?_, nestingBelow_le_iff.mpr fun k c hc => ?_⟩
  · have hrest : NoMore p s.block ⟨Assoc.erase s.block.declarations key, s.block.children⟩ :=
      .of_sublist List.filter_sublist (.refl _)
    rcases s.keys_openChild key f with h | ⟨-, h⟩ <;> rw [h] at hk
    · exact hk
    · rcases List.mem_append.mp hk with hk | hk
      · exact hrest.keys k hk hpk
      · rw [List.mem_singleton.mp hk, hp] at hpk
        cases hpk
  · rcases Splice.child_of_openChild hc with hc | rfl | ⟨c', hc', rfl⟩
    · exact nesting_child_le hc
    · exact Nat.le_trans (hf {}).nesting_le (Nat.zero_le _)
    · exact Nat.le_trans (hf c').nesting_le (nesting_child_le hc')

theorem declare (hp : p key = false) (value : Json) : NoMore p s.block (s.declare key value).block := by
  have hchildren := s.children_declare key value
  refine ⟨fun k hk hpk => ?_, nestingBelow_le_iff.mpr fun k c hm => ?_⟩
  · rw [Block.keys, List.mem_append, childKeys, hchildren] at hk
    rw [Block.keys, List.mem_append]
    refine hk.imp (fun hk => ?_) fun hk => (childKeys_detach_sublist s.block key).subset hk
    rcases s.declared_declare key value with h | ⟨i, h⟩ <;> rw [h] at hk
    · exact hk
    · rw [List.perm_middle.mem_iff, List.take_append_drop, List.mem_cons] at hk
      rcases hk with rfl | hk
      · cases hp.symm.trans hpk
      · exact hk
  · rw [hchildren] at hm
    exact nesting_child_le (List.mem_filter.mp hm).1

/-- A merge of a value without keys in `p`. -/
theorem mergeFields {v : Json} (hv : ¬ v.Mentions p) {m : List (String × Json)} (hm : m ∈ v.fragmentMaps) (s : Splice) :
    NoMore p s.block (s.mergeFields m).block := by
  refine Splice.mergeFields_keeps (fun v => ¬ v.Mentions p) (fun key => p key = false) (NoMore p) (.refl p)
    .trans ?_ ?_ ?_ ?_ v hv m hm s
  · exact fun hv e he => ⟨Bool.not_eq_true _ ▸ fun hk => hv (.key he hk), fun h => hv (.field he h)⟩
  · exact fun hv w hw h => hv (.item hw h)
  · exact fun s key f hp hf => openChild hp hf
  · exact fun s key v hp _ _ => declare hp v

theorem mergeFragment {v : Json} (hv : ¬ v.Mentions p) (s : Splice) : NoMore p s.block (s.mergeFragment v).block := by
  rcases s.mergeFragment_eq v with h | h <;> rw [h]
  · exact List.foldlRecOn (motive := fun t : Splice => NoMore p s.block t.block) _ _ (.refl _ _) fun t ht m hm =>
      ht.trans (mergeFields hv hm t)
  · exact .refl _ _

end Block.NoMore

theorem Json.mentions_of_mem {p : String → Bool} {v : Json} {m : List (String × Json)} (hm : m ∈ v.fragmentMaps)
    {e : String × Json} (he : e ∈ m) (hp : p e.1 = true) : v.Mentions p := by
  induction v using Json.parts_induction with
  | obj fields _ =>
    obtain rfl : m = fields := List.mem_singleton.mp hm
    exact .key he hp
  | arr items ih =>
    obtain ⟨v, hv, hm⟩ := Json.mem_maps_iff.mp hm
    exact .item hv (ih v hv hm)
  | leaf v hv => simp [hv] at hm

/-! ### Resolution -/

/-- No result of an extension mentions a registered name. -/
def Registry.Flat (r : Registry) : Prop := ∀ name f, r.get? name = some f → ∀ v : Json, ¬ (f v).Mentions r.contains

/-- The expansions of a block that lead to no further ones: the keys touched are not registered, and are one
    deeper than the block, which must have invoked an extension for that. -/
structure Expansion.Flat (r : Registry) (base : Nat) (b : Block) (e : Expansion) : Prop where
  depth : ∀ {k d}, Assoc.get? e.depths k = some d → d = base + 1 ∧ r.contains k = false ∧ b.keys.any r.contains = true
  noMore : b.NoMore r.contains e.block

section
variable {r : Registry} {base : Nat} {b : Block} {e : Expansion}

theorem Registry.name_mem_keys {inv : Invocation} (hi : r.invocation? b = some inv) : inv.name ∈ b.keys := by
  rw [Block.keys, List.mem_append]
  obtain ⟨-, ⟨hm, -⟩ | ⟨c, hc, -⟩⟩ := invocation?_cases hi
  · exact .inl (List.mem_map.mpr ⟨_, hm, rfl⟩)
  · exact .inr (List.mem_filterMap.mpr ⟨_, hc, rfl⟩)

theorem Expansion.Flat.start : Flat r base b ⟨b, []⟩ where
  depth h := nomatch h
  noMore := .refl _ b

/-- A registered key was not touched, so it is as deep as the block. -/
theorem Expansion.Flat.depthOf_eq (h : Flat r base b e) {key : String} (hk : r.contains key = true) :
    e.depthOf base key = base := by
  rw [depthOf]
  cases hd : Assoc.get? e.depths key with
  | none => rfl
  | some d => cases hk.symm.trans (h.depth hd).2.1

theorem Expansion.Flat.apply (hr : r.Flat) (h : Flat r base b e) {inv : Invocation}
    (hi : r.invocation? e.block = some inv) : Flat r base b (e.apply (e.depthOf base inv.name) inv) := by
  have hname := Registry.contains_invocation hi
  have hfragment : ¬ inv.fragment.Mentions r.contains := hr _ _ (Registry.invocation?_cases hi).1 _
  refine ⟨fun hk => ?_, h.noMore.trans (.trans ?_ (.mergeFragment hfragment inv.rest))⟩
  · rw [Expansion.apply, get?_map_append] at hk
    split at hk
    · next hkey =>
      cases hk
      obtain ⟨m, hm, hkey⟩ := List.mem_flatMap.mp hkey
      obtain ⟨e', he', rfl⟩ := List.mem_map.mp hkey
      refine ⟨by rw [h.depthOf_eq hname], ?_, ?_⟩
      · exact Bool.not_eq_true _ ▸ fun hp => hfragment (Json.mentions_of_mem hm he' hp)
      · exact List.any_eq_true.mpr ⟨_, h.noMore.keys _ (Registry.name_mem_keys hi) hname, hname⟩
    · exact h.depth hk
  · obtain ⟨-, ⟨-, hrest⟩ | ⟨c, -, -, hrest⟩⟩ := Registry.invocation?_cases hi <;> rw [hrest]
    · exact .of_sublist List.filter_sublist (.refl _)
    · exact .of_sublist (.refl _) List.filter_sublist

theorem Expands.flat (hr : r.Flat) {out : Except Error Expansion} (h : Expands r base e out) (hf : e.Flat r base b)
    (hb : base + b.nesting r.contains ≤ maxDepth) : ∃ e', out = .ok e' ∧ e'.Flat r base b := by
  induction h with
  | done _ => exact ⟨_, rfl, hf⟩
  | step hi _ _ ih => exact ih (hf.apply hr hi)
  | @tooDeep e inv hi hd =>
    -- The block itself invokes an extension, so its depth is less than the greatest one.
    have hname := Registry.contains_invocation hi
    have hkeys : b.keys.any r.contains = true :=
      List.any_eq_true.mpr ⟨_, hf.noMore.keys _ (Registry.name_mem_keys hi) hname, hname⟩
    rw [hf.depthOf_eq hname] at hd
    rw [Block.nesting, hkeys, if_pos rfl] at hb
    omega

/-- A child is one deeper only below a block that counts. -/
theorem Expansion.Flat.child_le (h : Flat r base b e) (hb : base + b.nesting r.contains ≤ maxDepth) {key : String}
    {c : Block} (hc : .ofBlock key c ∈ e.block.children) : e.depthOf base key + c.nesting r.contains ≤ maxDepth := by
  have hle : c.nesting r.contains ≤ b.nestingBelow r.contains :=
    Nat.le_trans (Block.nesting_child_le hc) h.noMore.below
  rw [Block.nesting] at hb
  rw [depthOf]
  cases hd : Assoc.get? e.depths key with
  | none =>
    simp only [Option.getD_none]
    omega
  | some d =>
    obtain ⟨rfl, -, hkeys⟩ := h.depth hd
    rw [hkeys, if_pos rfl] at hb
    simp only [Option.getD_some]
    omega

theorem Resolves.ok_of_nesting_le (hr : r.Flat) {out : Except Error Block} (h : Resolves r base b out)
    (hb : base + b.nesting r.contains ≤ maxDepth) : ∃ b', out = .ok b' := by
  induction base, b using Registry.resolve_induction (r := r) generalizing out with
  | step base b ih =>
    cases h with
    | stuck he =>
      obtain ⟨e, hok, -⟩ := he.flat hr .start hb
      cases hok
    | @expanded _ _ e out he hc =>
      have hres : (r.expand base ⟨b, []⟩).result = .ok e := (r.expands_expand base ⟨b, []⟩).unique he
      obtain ⟨e', hok, hflat⟩ := he.flat hr .start hb
      cases hok
      cases out with
      | ok nodes => exact ⟨_, rfl⟩
      | error fault =>
        obtain ⟨key, ds, cs, hn, hfault⟩ := hc.exists_of_error
        obtain ⟨c, hok⟩ := ih e hres key ds cs hn hfault (hflat.child_le hb (c := ⟨ds, cs⟩) hn)
        cases hok

end

/-! ### Nested invocations -/

/-- An extension that sets nothing in the child `p`, but touches it. -/
def Registry.touching : Registry where
  entries := [("ext", fun _ => .obj [("p", .obj [])])]

/-- Blocks one below the other under the key `p`, of which `n` invoke the extension. -/
def Document.nested : Nat → Document
  | 0 => ⟨[("color", .str "red")], []⟩
  | n + 1 => ⟨[("ext", .str "")], [.ofBlock "p" (nested n)]⟩

theorem Registry.touching_flat : touching.Flat := by
  intro name f hf v hmentions
  simp only [get?, touching, Assoc.get?_cons] at hf
  split at hf
  · cases hf
    cases hmentions with
    | key he hp =>
      cases List.mem_singleton.mp he
      exact absurd hp (by decide)
    | field he h =>
      cases List.mem_singleton.mp he
      cases h with
      | key he => cases he
      | field he => cases he
  · cases hf

theorem Document.nested_wellFormed (n : Nat) : (nested n).WellFormed := by
  induction n with
  | zero =>
    refine .intro (by decide) ?_ fun _ _ h => nomatch h
    exact List.forall_mem_singleton.mpr ⟨.str _, rfl⟩
  | succ n ih =>
    have hkeys : (nested (n + 1)).keys = ["ext", "p"] := rfl
    refine .intro (hkeys ▸ by decide) ?_ fun key c hc => ?_
    · exact List.forall_mem_singleton.mpr ⟨.str _, rfl⟩
    · obtain ⟨-, rfl⟩ := Node.ofBlock_inj.mp (List.mem_singleton.mp hc)
      exact ih

theorem Document.nesting_nested (n : Nat) : (nested n).nesting Registry.touching.contains = n := by
  induction n with
  | zero => rfl
  | succ n ih =>
    have hstep : (nested (n + 1)).nesting Registry.touching.contains =
        1 + max ((nested n).nesting Registry.touching.contains) 0 := rfl
    rw [hstep, ih, Nat.max_zero, Nat.add_comm]

/-- Every level is one deeper than the one above, which touched it, up to the first that is too deep. -/
theorem Document.resolves_nested {base n : Nat} (hbase : base ≤ maxDepth) (hn : maxDepth < base + n) :
    Resolves Registry.touching base (nested n) (.error (.cyclicExtension "ext" maxDepth)) := by
  induction n generalizing base with
  | zero => omega
  | succ n ih =>
    have hi : Registry.touching.invocation? (nested (n + 1)) =
        some ⟨"ext", fun _ => .obj [("p", .obj [])], .str "", ⟨⟨[], [.ofBlock "p" (nested n)]⟩, some 0⟩⟩ := rfl
    rcases Nat.lt_or_eq_of_le hbase with hlt | rfl
    · have hexpands : Expands Registry.touching base ⟨nested (n + 1), []⟩
          (.ok ⟨⟨[], [.ofBlock "p" (nested n)]⟩, [("p", base + 1)]⟩) := .step hi hlt (.done rfl)
      have hbelow : Resolves Registry.touching (base + 1) (nested n) _ := ih hlt (by omega)
      exact .expanded hexpands (.stuck hbelow)
    · have hdeep := Expands.tooDeep (e := ⟨nested (n + 1), []⟩) hi (Nat.le_refl _)
      exact .stuck hdeep

/-! ### The greatest nesting -/

/-- Where the extensions invoke none, a document is resolved if at most as many blocks one below the other
    invoke extensions as the greatest depth is. -/
theorem resolve_ok_of_nesting_le {r : Registry} (hr : r.Flat) {d : Document}
    (hd : d.nesting r.contains ≤ maxDepth) : ∃ d', (r.resolve d).result = .ok d' :=
  (r.resolves_resolveBlock 0 d).ok_of_nesting_le hr (Nat.zero_add _ ▸ hd)

theorem resolve_ok_of_nesting_le_nested :
    (Document.nested 32).nesting Registry.touching.contains ≤ maxDepth ∧
      ∃ d', (Registry.touching.resolve (Document.nested 32)).result = .ok d' := by
  have hle := Nat.le_of_eq (Document.nesting_nested 32)
  exact ⟨hle, resolve_ok_of_nesting_le Registry.touching_flat hle⟩

/-- A document that nests invocations deeper than the greatest depth fails, though nothing in it goes round
    in a cycle. -/
theorem nested_cyclic {n : Nat} (hn : maxDepth < n) :
    (Registry.touching.resolve (Document.nested n)).result = .error (.cyclicExtension "ext" maxDepth) :=
  (Registry.touching.resolves_resolveBlock 0 _).unique (Document.resolves_nested (Nat.zero_le _) (by omega))

/-- So an extension that invokes none can be reported as a cycle. -/
theorem flat_cyclic_nested :
    Registry.touching.Flat ∧ (Document.nested 33).WellFormed ∧
      (Registry.touching.resolve (Document.nested 33)).result = .error (.cyclicExtension "ext" 32) :=
  ⟨Registry.touching_flat, Document.nested_wellFormed 33, nested_cyclic (by decide)⟩

end StyleTree

import StyleTree.Proofs.Document.Reached
import StyleTree.Proofs.Resolution.Ending
import StyleTree.Proofs.Resolution.Fixpoint

/-! Registries that never come to rest. Where every extension gives a map with a registered name among its
    keys, at any depth, an expansion leaves a block that invokes extensions, at its own keys or below. So
    no block that invokes one is ever resolved, and since every resolution ends, it ends with a cycle. -/

namespace StyleTree

/-- A map with a key in `p`, its own or that of a map below. -/
inductive Json.HasKey (p : String → Bool) : Json → Prop
  | here {fields : List (String × Json)} {e : String × Json} : e ∈ fields → p e.1 = true → HasKey p (.obj fields)
  | inside {fields : List (String × Json)} {e : String × Json} : e ∈ fields → HasKey p e.2 → HasKey p (.obj fields)

namespace Registry

/-- Every extension gives a map with a registered name among its keys, whatever the argument. -/
def Unending (r : Registry) : Prop :=
  ∀ name f, r.get? name = some f → ∀ v : Json, v.WellFormed →
    ∃ fields, f v = .obj fields ∧ (Json.obj fields).WellFormed ∧ (Json.obj fields).HasKey r.contains

/-- Some block of the tree has a registered name among its declaration keys and child keys. -/
def Invokes (r : Registry) (b : Block) : Prop := ∃ c, b.Reaches c ∧ ∃ key ∈ c.keys, r.contains key = true

variable {r : Registry} {base : Nat} {b : Block}

theorem Unending.sound (hr : r.Unending) : r.Sound := by
  intro name f hf v hv
  obtain ⟨fields, hfields, hwf, -⟩ := hr name f hf v hv
  exact hfields ▸ hwf

theorem not_invokes_iff : ¬ r.Invokes b ↔ r.Quiet b := by
  simp only [Invokes, Quiet, not_exists, not_and, Bool.not_eq_true]

theorem Invokes.child {key : String} {c : Block} (h : r.Invokes c) (hc : .ofBlock key c ∈ b.children) : r.Invokes b := by
  obtain ⟨c', hreach, hkey⟩ := h
  exact ⟨c', .child hc hreach, hkey⟩

/-! ### What an expansion leaves -/

/-- Every key of a map is a key of the block it is merged into. -/
theorem mem_keys_mergeFields {fields : List (String × Json)} (hn : (fields.map (·.1)).Nodup) {e : String × Json}
    (he : e ∈ fields) (s : Splice) : e.1 ∈ (s.mergeFields fields).block.keys := by
  rw [Block.keys, List.mem_append]
  cases hv : e.2.isFragment with
  | true =>
    have hchild := Splice.child?_mergeFields hn he hv s
    exact .inr (Block.child?_isSome_iff.mp (by rw [hchild]; rfl))
  | false =>
    have hdeclared := (Splice.get?_mergeFields hn he hv s).1
    exact .inl (Assoc.contains_iff.mp (by rw [Assoc.contains_eq_isSome, hdeclared]; rfl))

/-- The block a map is merged into invokes what the map does: the key is found where the map has it. -/
theorem invokes_mergeFields {v : Json} (h : v.HasKey r.contains) :
    ∀ fields, v = .obj fields → v.WellFormed → ∀ s : Splice, r.Invokes (s.mergeFields fields).block := by
  induction h with
  | @here fields e he hkey =>
    rintro _ ⟨⟩ hwf s
    exact ⟨_, .refl _, e.1, mem_keys_mergeFields hwf.nodup he s, hkey⟩
  | @inside fields e he hv ih =>
    rintro _ ⟨⟩ hwf s
    obtain ⟨key, value⟩ := e
    obtain ⟨inner, rfl⟩ : ∃ inner, value = .obj inner := by cases hv <;> exact ⟨_, rfl⟩
    have hchild := Splice.child?_mergeFields hwf.nodup he rfl s
    exact (ih inner rfl (hwf.field _ he) ⟨_, none⟩).child (Block.mem_of_child? hchild)

theorem invokes_apply (hr : r.Unending) {e : Expansion} (hb : e.block.WellFormed) {inv : Invocation}
    (hi : r.invocation? e.block = some inv) (d : Nat) : r.Invokes (e.apply d inv).block := by
  obtain ⟨fields, hfields, hwf, hkey⟩ := hr _ _ (invocation?_cases hi).1 _ (hb.argument hi)
  have hfragment : inv.fragment = .obj fields := hfields
  rw [Expansion.apply, hfragment]
  exact invokes_mergeFields hkey fields rfl hwf inv.rest

/-- An expansion that leaves a block at rest had nothing to expand. -/
theorem quiet_of_expands (hr : r.Unending) {e e' : Expansion} {out : Except Error Expansion}
    (h : Expands r base e out) (ho : out = .ok e') (hb : e.block.WellFormed) (hq : r.Quiet e'.block) :
    r.Quiet e.block := by
  induction h with
  | done _ =>
    cases ho
    exact hq
  | step hi _ _ ih =>
    have hnext := ih ho (hb.apply hi (hr.sound.fragment hb hi) _)
    -- A step would leave a block that invokes an extension, and the steps behind it keep that.
    exact absurd (invokes_apply hr hb hi _) (not_invokes_iff.mpr hnext)
  | tooDeep => cases ho

/-- Only a block at rest is resolved. The children that its expansion leaves are resolved, so they are at
    rest, and its keys are settled, so the expansion did nothing. -/
theorem quiet_of_resolved (hr : r.Unending) {b' : Block} (h : Resolves r base b (.ok b')) (hb : b.WellFormed) :
    r.Quiet b := by
  induction base, b using resolve_induction (r := r) generalizing b' with
  | step base b ih =>
    obtain ⟨e, hres, he, nodes, hall, -⟩ := h.exists_of_ok
    have hwf : e.block.WellFormed := he.wellFormed hr.sound hb rfl
    refine quiet_of_expands hr he rfl hb ?_
    refine .of_children (invocation?_eq_none_iff.mp (invocation?_of_expands he rfl)) fun key ds cs hn => ?_
    obtain ⟨n, -, hto⟩ := exists_resolved hall hn
    cases hto with
    | rule hb' => exact ih e hres key ds cs hn hb' (hwf.child hn)

end Registry

/-- Where no extension comes to rest, the documents that end with a cycle are those that invoke an
    extension, and any other document is left as it is. -/
theorem unending_cyclic_iff_invokes {r : Registry} (hr : r.Unending) {d : Document} (hd : d.WellFormed) :
    ((∃ name depth, (r.resolve d).result = .error (.cyclicExtension name depth)) ↔ r.Invokes d) ∧
      (¬ r.Invokes d → r.resolve d = pure d) := by
  have hrun : Resolves r 0 d (r.resolve d).result := r.resolves_resolveBlock 0 d
  have hquiet (h : ¬ r.Invokes d) : r.resolve d = pure d :=
    Registry.resolveBlock_of_quiet (Registry.not_invokes_iff.mp h)
  refine ⟨⟨fun ⟨name, depth, hcyclic⟩ => ?_, fun hinvokes => ?_⟩, hquiet⟩
  · by_contra h
    rw [hquiet h] at hcyclic
    cases hcyclic
  · rcases hrun.okOrCyclic (Nat.zero_le _) with ⟨d', hok⟩ | ⟨name, -, hcyclic⟩
    · have := Registry.quiet_of_resolved hr (hok ▸ hrun) hd
      exact absurd hinvokes (Registry.not_invokes_iff.mpr this)
    · exact ⟨name, _, hcyclic⟩

/-- Two extensions that invoke each other, one of them in a new child. -/
def Registry.pingPong : Registry where
  entries := [("ping", fun _ => .obj [("&:hover", .obj [("pong", .str "")])]),
    ("pong", fun _ => .obj [("ping", .str "")])]

theorem Registry.unending_pingPong : pingPong.Unending := by
  intro name f hf v _
  simp only [get?, pingPong, Assoc.get?_cons] at hf
  split at hf
  · cases hf
    exact ⟨_, rfl, by decide, .inside List.mem_cons_self (.here List.mem_cons_self rfl)⟩
  · split at hf
    · cases hf
      exact ⟨_, rfl, by decide, .here List.mem_cons_self rfl⟩
    · cases hf

/-- The cycle goes through a new child at every turn, and is reported; a document that starts no cycle is
    left alone. -/
theorem unending_cyclic_pingPong :
    (∃ name depth, (Registry.pingPong.resolve (Block.mergeFields {} [("a", .obj [("ping", .null)])])).result =
        .error (.cyclicExtension name depth)) ∧
      Registry.pingPong.resolve (Block.mergeFields {} [("a", .obj [("color", .null)])]) =
        pure (Block.mergeFields {} [("a", .obj [("color", .null)])]) := by
  have hd (value : String × Json) (h : (Json.obj [("a", .obj [value])]).WellFormed) :
      (Block.mergeFields {} [("a", .obj [value])]).WellFormed := .mergeObj (s := ⟨{}, none⟩) h .empty
  have hpinged := unending_cyclic_iff_invokes Registry.unending_pingPong (hd ("ping", .null) (by decide))
  have hcolored := unending_cyclic_iff_invokes Registry.unending_pingPong (hd ("color", .null) (by decide))
  refine ⟨hpinged.1.mpr ?_, hcolored.2 ?_⟩
  · exact ⟨_, .child List.mem_cons_self (.refl _), "ping", List.mem_cons_self, rfl⟩
  · rw [Registry.not_invokes_iff]
    refine .of_children (by decide) fun key ds cs hn => ?_
    cases List.mem_singleton.mp hn
    exact .of_children (by decide) fun _ _ _ h => nomatch h

end StyleTree

import StyleTree.Proofs.Selector.Distinct
import StyleTree.Proofs.Selector.Nesting

/-! Crossing paths with alternatives. A key has a path for each parent path and each alternative, parent by
    parent, and of equal paths only the first. So crossing is associative: a key below a key has the
    paths of one key, whose alternatives are those of the two keys, one behind the other. -/

namespace StyleTree.Selector

/-! ### One alternative below another -/

/-- The alternative `b` below the alternative `a`, as one. -/
def compound (a b : String) : String := if b.toList.head? = some ':' then a ++ b else a ++ " " ++ b

/-- The alternatives of `bs`, each below each of `as`. -/
def compounds (as bs : List String) : List String := as.flatMap fun a => bs.map (compound a)

section
variable {parent a b : String}

/-- What stands behind `a` in a compound, between the two or with the second. -/
def behind (b : List Char) : List Char := if b.head? = some ':' then b else ' ' :: b

theorem toList_compound (a b : String) : (compound a b).toList = a.toList ++ behind b.toList := by
  rw [compound, behind]
  split
  · exact String.toList_append
  · rw [String.toList_append, String.toList_append, List.append_assoc]
    rfl

theorem mark_not_mem_behind {b : List Char} (hb : parentMark ∉ b) : parentMark ∉ behind b := by
  rw [behind]
  split
  · exact hb
  · rw [List.mem_cons, not_or]
    exact ⟨by decide, hb⟩

/-- Without a mark an alternative only stands behind its parent. -/
theorem toList_nest_of_not_mem (path : String) (hb : parentMark ∉ b.toList) :
    (nest path b).toList = path.toList ++ behind b.toList := by
  rw [toList_nest, if_neg hb, behind]
  split <;> rfl

theorem fill_append (parent cs cs' : List Char) : fill parent (cs ++ cs') = fill parent cs ++ fill parent cs' :=
  List.flatMap_append

theorem fill_of_not_mem (parent : List Char) {cs : List Char} (h : parentMark ∉ cs) : fill parent cs = cs := by
  induction cs with
  | nil => rfl
  | cons c cs ih =>
    rw [List.mem_cons, not_or] at h
    rw [fill_cons, if_neg (Ne.symm h.1), ih h.2, List.singleton_append]

/-- A compound joins its parent the way its first alternative does. -/
theorem nest_nest (parent : String) (ha : a ≠ "") (hb : parentMark ∉ b.toList) :
    nest (nest parent a) b = nest parent (compound a b) := by
  have hbehind := mark_not_mem_behind hb
  have hmark : parentMark ∈ (compound a b).toList ↔ parentMark ∈ a.toList := by
    rw [toList_compound, List.mem_append, or_iff_left hbehind]
  have hhead : (compound a b).toList.head? = a.toList.head? := by
    have hne : a.toList ≠ [] := fun hnil => ha (String.toList_eq_nil_iff.mp hnil)
    rw [toList_compound, List.head?_append_of_ne_nil _ hne]
  apply String.toList_inj.mp
  rw [toList_nest_of_not_mem _ hb, toList_nest, toList_nest, hhead, toList_compound]
  rw [toList_compound] at hmark
  simp only [hmark]
  split_ifs
  · rw [fill_append, fill_of_not_mem _ hbehind]
  · rw [List.append_assoc]
  · rw [List.append_assoc, List.append_assoc]

end

/-! ### Crossed paths -/

theorem mem_combine_iff {parents alternatives : List String} {path : String} : path ∈ combine parents alternatives ↔
    ∃ a ∈ alternatives, (parents = [] ∧ path = top a) ∨ ∃ p ∈ parents, path = nest p a := by
  rw [combine, mem_distinct]
  cases parents with
  | nil => simp [eq_comm]
  | cons p rest =>
    simp only [List.isEmpty_cons, Bool.false_eq_true, if_false, List.mem_flatMap, List.mem_map, reduceCtorEq, false_and, false_or]
    constructor
    · rintro ⟨p', hp', a, ha, rfl⟩
      exact ⟨a, ha, p', hp', rfl⟩
    · rintro ⟨a, ha, p', hp', rfl⟩
      exact ⟨p', hp', a, ha, rfl⟩

theorem combine_ne_nil {parents alternatives : List String} (h : alternatives ≠ []) : combine parents alternatives ≠ [] := by
  obtain ⟨a, ha⟩ := List.exists_mem_of_ne_nil _ h
  cases parents with
  | nil => exact List.ne_nil_of_mem (mem_combine_iff.mpr ⟨a, ha, .inl ⟨rfl, rfl⟩⟩)
  | cons p rest => exact List.ne_nil_of_mem (mem_combine_iff.mpr ⟨a, ha, .inr ⟨p, List.mem_cons_self, rfl⟩⟩)

/-! ### Places of paths -/

/-- The path of the parent number `i` and the alternative number `j`. Where there are no parents, number 0
    stands for the top. -/
def pathAt? (parents alternatives : List String) (i j : Nat) : Option String :=
  if parents = [] then if i = 0 then alternatives[j]?.map top else none
  else parents[i]?.bind fun p => alternatives[j]?.map (nest p)

/-- The path is that of `i` and `j`, and of no alternative of an earlier parent and no earlier one of this. -/
structure FirstAt (parents alternatives : List String) (i j : Nat) (path : String) : Prop where
  gives : pathAt? parents alternatives i j = some path
  first : ∀ i' j', pathAt? parents alternatives i' j' = some path → i < i' ∨ i = i' ∧ j ≤ j'

/-- The paths are all that the parents and alternatives give, each once, in the order of the parents and for
    one parent in the order of the alternatives that give them first. -/
structure ParentMajor (parents alternatives paths : List String) : Prop where
  nodup : paths.Nodup
  mem : ∀ path, path ∈ paths ↔ ∃ i j, pathAt? parents alternatives i j = some path
  order : paths.Pairwise fun x y => ∃ i j i' j', FirstAt parents alternatives i j x ∧
    FirstAt parents alternatives i' j' y ∧ (i < i' ∨ i = i' ∧ j < j')

/-- The paths of a key before the first of equal ones are taken. -/
def crossed (parents alternatives : List String) : List String :=
  if parents.isEmpty then alternatives.map top else parents.flatMap fun p => alternatives.map (nest p)

section
variable {parents alternatives : List String} {i j n : Nat} {path : String}

theorem combine_eq (parents alternatives : List String) : combine parents alternatives = distinct (crossed parents alternatives) :=
  rfl

theorem crossed_of_ne_nil (h : parents ≠ []) (alternatives : List String) :
    crossed parents alternatives = parents.flatMap fun p => alternatives.map (nest p) :=
  if_neg fun he => h (List.isEmpty_iff.mp he)

theorem getElem?_flatMap_map {α β γ : Type} (f : α → β → γ) (l : List α) (l' : List β) (n : Nat) :
    (l.flatMap fun a => l'.map (f a))[n]? = l[n / l'.length]?.bind fun a => l'[n % l'.length]?.map (f a) := by
  induction l generalizing n with
  | nil => rfl
  | cons a l ih =>
    rw [List.flatMap_cons]
    by_cases hn : n < l'.length
    · rw [List.getElem?_append_left (by rwa [List.length_map]), List.getElem?_map, Nat.div_eq_of_lt hn, Nat.mod_eq_of_lt hn]
      rfl
    · have hle : l'.length ≤ n := Nat.le_of_not_lt hn
      rw [List.getElem?_append_right (by rwa [List.length_map]), List.length_map, ih]
      rcases Nat.eq_zero_or_pos l'.length with h0 | hpos
      · obtain rfl := List.length_eq_zero_iff.mp h0
        simp
      · rw [Nat.div_eq_sub_div hpos hle, Nat.mod_eq_sub_mod hle, List.getElem?_cons_succ]

/-- The paths stand row by row, a row for each parent. -/
theorem getElem?_crossed (parents alternatives : List String) (n : Nat) :
    (crossed parents alternatives)[n]? = pathAt? parents alternatives (n / alternatives.length) (n % alternatives.length) := by
  rw [pathAt?]
  by_cases hp : parents = []
  · rw [if_pos hp, crossed, if_pos (List.isEmpty_iff.mpr hp), List.getElem?_map]
    by_cases hn : n < alternatives.length
    · rw [Nat.div_eq_of_lt hn, Nat.mod_eq_of_lt hn, if_pos rfl]
    · rw [List.getElem?_eq_none (Nat.le_of_not_lt hn)]
      split
      · next h0 =>
        have hnil : alternatives.length = 0 := (Nat.div_eq_zero_iff.mp h0).resolve_right hn
        rw [List.length_eq_zero_iff.mp hnil]
        rfl
      · rfl
  · rw [if_neg hp, crossed_of_ne_nil hp, getElem?_flatMap_map]

theorem pathAt?_lt (h : pathAt? parents alternatives i j = some path) : j < alternatives.length := by
  refine Nat.lt_of_not_le fun hle => ?_
  have hnone : alternatives[j]? = none := List.getElem?_eq_none hle
  simp [pathAt?, hnone] at h

theorem pathAt?_eq_getElem? (h : j < alternatives.length) :
    pathAt? parents alternatives i j = (crossed parents alternatives)[i * alternatives.length + j]? := by
  have hpos : 0 < alternatives.length := Nat.zero_lt_of_lt h
  rw [getElem?_crossed, Nat.add_comm, Nat.add_mul_div_right _ _ hpos, Nat.div_eq_of_lt h, Nat.zero_add,
    Nat.add_mul_mod_self_right, Nat.mod_eq_of_lt h]

theorem mem_crossed_iff : path ∈ crossed parents alternatives ↔ ∃ i j, pathAt? parents alternatives i j = some path := by
  rw [List.mem_iff_getElem?]
  constructor
  · rintro ⟨n, hn⟩
    exact ⟨_, _, getElem?_crossed parents alternatives n ▸ hn⟩
  · rintro ⟨i, j, h⟩
    exact ⟨_, pathAt?_eq_getElem? (pathAt?_lt h) ▸ h⟩

/-- A later place is in a later row, or later in the same row. -/
theorem div_mod_lt {m n n' : Nat} (h : n < n') : n / m < n' / m ∨ n / m = n' / m ∧ n % m < n' % m := by
  rcases Nat.lt_or_eq_of_le (Nat.div_le_div_right (Nat.le_of_lt h)) with hlt | heq
  · exact .inl hlt
  · have hn := Nat.div_add_mod n m
    have hn' := Nat.div_add_mod n' m
    rw [heq] at hn
    exact .inr ⟨heq, by omega⟩

/-- The first place of a path in the rows gives its parent and its alternative. -/
theorem firstAt_idxOf (h : path ∈ crossed parents alternatives) :
    FirstAt parents alternatives ((crossed parents alternatives).idxOf path / alternatives.length)
      ((crossed parents alternatives).idxOf path % alternatives.length) path where
  gives := by
    rw [← getElem?_crossed]
    exact List.getElem?_idxOf h
  first i' j' hpath := by
    have hj := pathAt?_lt hpath
    have hpos : 0 < alternatives.length := Nat.zero_lt_of_lt hj
    have hdiv : (i' * alternatives.length + j') / alternatives.length = i' := by
      rw [Nat.add_comm, Nat.add_mul_div_right _ _ hpos, Nat.div_eq_of_lt hj, Nat.zero_add]
    have hmod : (i' * alternatives.length + j') % alternatives.length = j' := by
      rw [Nat.add_comm, Nat.add_mul_mod_self_right, Nat.mod_eq_of_lt hj]
    obtain ⟨hbound, hget⟩ := List.getElem?_eq_some_iff.mp (pathAt?_eq_getElem? hj ▸ hpath)
    have hle : (crossed parents alternatives).idxOf path ≤ i' * alternatives.length + j' :=
      Nat.le_of_not_lt fun hlt => absurd (beq_iff_eq.mpr hget) (Bool.not_eq_true _ ▸ List.not_of_lt_findIdx hlt)
    rcases Nat.lt_or_eq_of_le hle with hlt | heq
    · have hrow := div_mod_lt (m := alternatives.length) hlt
      rw [hdiv, hmod] at hrow
      exact hrow.imp_right fun h => ⟨h.1, Nat.le_of_lt h.2⟩
    · rw [heq, hdiv, hmod]
      exact .inr ⟨rfl, Nat.le_refl _⟩

theorem parentMajor_combine (parents alternatives : List String) :
    ParentMajor parents alternatives (combine parents alternatives) where
  nodup := nodup_distinct _
  mem path := by rw [combine_eq, mem_distinct, mem_crossed_iff]
  order := by
    rw [combine_eq]
    refine (pairwise_idxOf_distinct _).imp_of_mem fun hx hy hlt => ?_
    exact ⟨_, _, _, _, firstAt_idxOf (mem_distinct.mp hx), firstAt_idxOf (mem_distinct.mp hy), div_mod_lt hlt⟩

end

/-! ### Associativity -/

section
variable {parents as bs : List String}

theorem flatMap_crossed (hp : parents ≠ []) (ha : ∀ a ∈ as, a ≠ "") (hb : ∀ b ∈ bs, parentMark ∉ b.toList) :
    ((crossed parents as).flatMap fun p => bs.map (nest p)) = crossed parents (compounds as bs) := by
  rw [crossed_of_ne_nil hp, crossed_of_ne_nil hp, List.flatMap_assoc]
  refine List.flatMap_congr fun p _ => ?_
  rw [compounds, List.flatMap_map, List.map_flatMap]
  refine List.flatMap_congr fun a hmem => ?_
  rw [List.map_map]
  exact List.map_congr_left fun b hbmem => nest_nest p (ha a hmem) (hb b hbmem)

end

/-- Two keys one below the other, the lower one without marks, give the paths of one key with the compounds of
    their alternatives. The paths of any key are those of its parents and alternatives, each once, parent
    by parent. -/
theorem combine_combine {parents as bs : List String} (hp : parents ≠ []) (has : as ≠ []) (ha : ∀ a ∈ as, a ≠ "")
    (hb : ∀ b ∈ bs, parentMark ∉ b.toList) :
    combine (combine parents as) bs = combine parents (compounds as bs) ∧
      ∀ above alternatives, ParentMajor above alternatives (combine above alternatives) := by
  have hne : combine parents as ≠ [] := combine_ne_nil has
  refine ⟨?_, parentMajor_combine⟩
  calc combine (combine parents as) bs
      = distinct ((distinct (crossed parents as)).flatMap fun p => bs.map (nest p)) := by
        rw [combine_eq, crossed_of_ne_nil hne, combine_eq]
    _ = distinct ((crossed parents as).flatMap fun p => bs.map (nest p)) := distinct_flatMap_distinct _ _
    _ = combine parents (compounds as bs) := by rw [flatMap_crossed hp ha hb, combine_eq]

/-- Marks, colons and equal paths on both levels. -/
theorem combine_combine_marks :
    let parents := ["x", "y", ":is(&)"]
    let as := ["&:a &", ":a", "p", "& p"]
    let bs := [":b", "q", ":b"]
    (parents ≠ [] ∧ as ≠ [] ∧ (∀ a ∈ as, a ≠ "") ∧ ∀ b ∈ bs, parentMark ∉ b.toList) ∧
      combine (combine parents as) bs = combine parents (compounds as bs) ∧
        ∀ above alternatives, ParentMajor above alternatives (combine above alternatives) := by
  intro parents as bs
  have hb : ∀ b ∈ bs, parentMark ∉ b.toList := by decide
  exact ⟨⟨by decide, by decide, by decide, hb⟩, combine_combine (by decide) (by decide) (by decide) hb⟩

end StyleTree.Selector

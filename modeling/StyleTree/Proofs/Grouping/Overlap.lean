import Mathlib.Data.List.Nodup
import StyleTree.Sheet.Grouping

/-! Overlap and authored order. Of two properties that overlap, one is the other or a shorthand of it. The
    order test of the grouping asks of a rule that exactly those overlapping declarations are out that
    stand before the one at hand. -/

namespace StyleTree.Grouping

/-! ### Overlap -/

theorem isShorthandOf_iff {short long : String} :
    isShorthandOf short long = true ↔ ∃ rest, long = short ++ "-" ++ rest := by
  rw [isShorthandOf, List.isPrefixOf_iff_prefix]
  constructor
  · rintro ⟨rest, h⟩
    refine ⟨String.ofList rest, String.toList_injective ?_⟩
    have hr : (String.ofList rest).toList = rest := String.toList_ofList
    rw [String.toList_append, String.toList_append, hr]
    exact h.symm
  · rintro ⟨rest, rfl⟩
    exact ⟨rest.toList, by rw [String.toList_append, String.toList_append]; rfl⟩

theorem overlaps_comm (a b : String) : overlaps a b = overlaps b a := by
  rw [overlaps, overlaps, Bool.or_assoc, Bool.or_assoc, Bool.or_comm (isShorthandOf a b), Bool.beq_comm]

theorem overlaps_of_shorthand {a b rest : String} (h : b = a ++ "-" ++ rest ∨ a = b ++ "-" ++ rest) :
    overlaps a b = true := by
  rcases h with h | h
  · simp [overlaps, isShorthandOf_iff.mpr ⟨rest, h⟩]
  · simp [overlaps, isShorthandOf_iff.mpr ⟨rest, h⟩]

/-! ### Authored order -/

/-- The place of a property in the declarations of a rule. -/
def place (ds : List (String × String)) (property : String) : Nat := (ds.map (·.1)).idxOf property

section
variable {ds pre post : List (String × String)} {d e : String × String}

theorem eq_of_place_eq (hn : (ds.map (·.1)).Nodup) (hd : d ∈ ds) (he : e ∈ ds)
    (h : place ds d.1 = place ds e.1) : d = e :=
  List.inj_on_of_nodup_map hn hd he ((List.idxOf_inj (List.mem_map_of_mem hd)).mp h)

theorem place_append_cons (hn : ((pre ++ d :: post).map (·.1)).Nodup) :
    place (pre ++ d :: post) d.1 = pre.length := by
  rw [List.map_append, List.map_cons, List.nodup_append] at hn
  have hd : d.1 ∉ pre.map (·.1) := fun h => hn.2.2 _ h _ List.mem_cons_self rfl
  rw [place, List.map_append, List.map_cons, List.idxOf_append_of_notMem hd, List.idxOf_cons_self, List.length_map,
    Nat.add_zero]

/-- The declarations before one are those of a lesser place. -/
theorem place_lt_iff (hn : ((pre ++ d :: post).map (·.1)).Nodup) (he : e ∈ pre ++ d :: post) :
    place (pre ++ d :: post) e.1 < place (pre ++ d :: post) d.1 ↔ e ∈ pre := by
  rw [place_append_cons hn]
  constructor
  · intro h
    by_contra hpre
    have hmem : e.1 ∉ pre.map (·.1) := by
      intro hm
      obtain ⟨e', he', heq⟩ := List.mem_map.mp hm
      exact hpre (List.inj_on_of_nodup_map hn (List.mem_append_left _ he') he heq ▸ he')
    rw [place, List.map_append, List.idxOf_append_of_notMem hmem, List.length_map] at h
    omega
  · intro h
    have hm : e.1 ∈ pre.map (·.1) := List.mem_map_of_mem h
    rw [place, List.map_append, List.idxOf_append_of_mem hm]
    simpa using List.idxOf_lt_length_of_mem hm

theorem place_getElem (hn : (ds.map (·.1)).Nodup) {m : Nat} (h : ds[m]? = some d) : place ds d.1 = m := by
  obtain ⟨hm, rfl⟩ := List.getElem?_eq_some_iff.mp h
  have := hn.idxOf_getElem m (by simpa using hm)
  rwa [List.getElem_map] at this

end

/-! ### The order test -/

/-- The order test, by places: of the declarations that overlap one of a rule, exactly those before it
    are out. -/
theorem inOrder_iff {isEmitted : String → Bool} {ds : List (String × String)} {d : String × String}
    (hn : (ds.map (·.1)).Nodup) (hd : d ∈ ds) :
    inOrder isEmitted ds d.1 = true ↔
      ∀ e ∈ ds, e ≠ d → overlaps e.1 d.1 = true → (isEmitted e.1 = true ↔ place ds e.1 < place ds d.1) := by
  obtain ⟨pre, post, rfl⟩ := List.append_of_mem hd
  obtain ⟨-, hdpost, hdisj⟩ := List.nodup_append.mp hn.of_map
  -- A declaration other than `d` has another property, and stands either before `d` or behind it.
  have key {e : String × String} (he : e ∈ pre ++ d :: post) : e.1 = d.1 ↔ e = d :=
    ⟨List.inj_on_of_nodup_map hn he hd, fun h => h ▸ rfl⟩
  have hpre {e : String × String} (he : e ∈ pre) : e ≠ d := hdisj e he d List.mem_cons_self
  have hpost {e : String × String} (he : e ∈ post) : e ≠ d ∧ e ∉ pre :=
    ⟨fun h => (List.nodup_cons.mp hdpost).1 (h ▸ he), fun h => hdisj e h e (List.mem_cons_of_mem _ he) rfl⟩
  have hne : ∀ e ∈ pre, (decide (e.1 ≠ d.1)) = true := fun e he =>
    decide_eq_true fun h => hpre he ((key (List.mem_append_left _ he)).mp h)
  have htake : (pre ++ d :: post).takeWhile (·.1 ≠ d.1) = pre := by
    rw [List.takeWhile_append_of_pos hne, List.takeWhile_cons_of_neg (by simp), List.append_nil]
  have hdrop : (pre ++ d :: post).dropWhile (·.1 ≠ d.1) = d :: post := by
    rw [List.dropWhile_append_of_pos hne, List.dropWhile_cons_of_neg (by simp)]
  rw [inOrder, htake, hdrop, Bool.and_eq_true, List.all_eq_true, List.all_eq_true]
  constructor
  · rintro ⟨before, behind⟩ e he hed ho
    rw [place_lt_iff hn he]
    rcases List.mem_append.mp he with hm | hm
    · have := before e hm
      simp only [ho, Bool.not_true, Bool.false_or] at this
      exact iff_of_true this hm
    · have hm' := (List.mem_cons.mp hm).resolve_left hed
      have := behind e hm
      simp only [beq_iff_eq, key he, hed, ho, Bool.not_true, Bool.or_eq_true, Bool.not_eq_true', false_or,
        Bool.false_eq_true] at this
      exact iff_of_false (by rw [this]; simp) (hpost hm').2
  · intro h
    refine ⟨fun e hm => ?_, fun e hm => ?_⟩
    · have he := List.mem_append_left (d :: post) hm
      cases ho : overlaps e.1 d.1 with
      | false => rfl
      | true => exact (h e he (hpre hm) ho).mpr ((place_lt_iff hn he).mpr hm)
    · rcases List.mem_cons.mp hm with rfl | hm'
      · simp
      · have he := List.mem_append_right pre hm
        cases ho : overlaps e.1 d.1 with
        | false => simp
        | true =>
          have := (h e he (hpost hm').1 ho).not.mpr fun hlt => (hpost hm').2 ((place_lt_iff hn he).mp hlt)
          simp [this]

end StyleTree.Grouping

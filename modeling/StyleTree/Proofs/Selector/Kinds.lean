import StyleTree.Proofs.Selector.Scanning
import StyleTree.Selector.Kind

/-! What the kind of a key depends on. Blanks around a key do not count, so it is a selector unless its first character
    behind them is the mark of an at-rule. The header of an at-rule is the key without them, and of the same kind. -/

namespace StyleTree.Selector

open Text (isBlank trimChars)

/-- The first character of a trimmed text is the first that is not blank. -/
theorem head?_trimChars (cs : List Char) : (trimChars cs).head? = cs.find? fun c => !isBlank c := by
  have hfind : (cs.find? fun c => !isBlank c) = (cs.dropWhile isBlank).head? := by
    rw [List.find?_eq_head?_dropWhile_not]
    simp only [Bool.not_not]
  rw [hfind]
  have htrim : trimChars cs = (cs.dropWhile isBlank).rdropWhile isBlank := rfl
  have hnot := List.head?_dropWhile_not isBlank cs
  cases hd : cs.dropWhile isBlank with
  | nil => rw [htrim, hd]; rfl
  | cons c rest =>
    rw [hd] at hnot
    obtain ⟨tail, htail⟩ : trimChars cs <+: c :: rest := hd ▸ htrim ▸ List.rdropWhile_prefix ..
    have hne : trimChars cs ≠ [] := fun hnil => by
      rw [htrim, hd, List.rdropWhile_eq_nil_iff] at hnil
      simp_all
    obtain ⟨c', rest', htrim'⟩ := List.exists_cons_of_ne_nil hne
    rw [htrim', List.cons_append] at htail
    rw [htrim', (List.cons.inj htail).1]
    rfl

theorem trimChars_ne_nil_iff {cs : List Char} : trimChars cs ≠ [] ↔ ∃ c ∈ cs, isBlank c = false := by
  rw [← List.isSome_head?, head?_trimChars, List.find?_isSome]
  simp

theorem atRuleName?_eq_none_iff {cs : List Char} : atRuleName? cs = none ↔ cs.head? ≠ some '@' := by
  unfold atRuleName?
  split
  · simp
  · next hnot =>
    refine iff_of_true rfl fun hhead => ?_
    obtain ⟨rest, rfl⟩ := List.head?_eq_some_iff.mp hhead
    exact hnot rest rfl

/-- A key is a selector unless it begins like an at-rule behind blanks. -/
theorem keyKind_eq_selector_iff {key : String} :
    keyKind key = .selector key ↔ key.toList.find? (fun c => !isBlank c) ≠ some '@' := by
  rw [← head?_trimChars, ← atRuleName?_eq_none_iff, keyKind]
  cases atRuleName? (trimChars key.toList) with
  | none => simp
  | some name =>
    refine iff_of_false (fun h => ?_) (by simp)
    dsimp only at h
    split at h
    · cases h
    · split at h <;> cases h

/-! ### Headers -/

variable {key header : String}

/-- The header of a condition or of `@keyframes` is the key without blanks around it. -/
theorem header_eq_trim (h : keyKind key = .conditional header ∨ keyKind key = .keyframes header) :
    header = Text.trim key := by
  rw [keyKind] at h
  cases hname : atRuleName? (trimChars key.toList) with
  | none => simp [hname] at h
  | some name =>
    rw [hname] at h
    dsimp only at h
    split at h
    · simp_all
    · split at h <;> simp_all

theorem trimChars_trimChars (cs : List Char) : trimChars (trimChars cs) = trimChars cs :=
  (trimmed_trimChars cs).trimChars_eq

theorem keyKind_header {kind : KeyKind} (h : keyKind key = kind)
    (hk : kind = .conditional header ∨ kind = .keyframes header) :
    keyKind header = kind := by
  have hheader : header = Text.trim key := header_eq_trim (h ▸ hk)
  have hlist : header.toList = trimChars key.toList := by rw [hheader, Text.trim, String.toList_ofList]
  have htrim : Text.trim header = Text.trim key := by rw [Text.trim, Text.trim, hlist, trimChars_trimChars]
  rw [keyKind] at h ⊢
  rw [hlist, trimChars_trimChars, htrim]
  cases hname : atRuleName? (trimChars key.toList) with
  | none =>
    rw [hname] at h
    rcases hk with rfl | rfl <;> cases h
  | some name => rwa [hname] at h

theorem marked_header (h : keyKind key = .conditional header ∨ keyKind key = .keyframes header) :
    ['@'] <+: header.toList := by
  have hkind : keyKind header ≠ .selector header := by
    rcases h with h | h
    · simp [keyKind_header h (.inl rfl)]
    · simp [keyKind_header h (.inr rfl)]
  rw [ne_eq, keyKind_eq_selector_iff, not_not, ← head?_trimChars, header_eq_trim h, Text.trim, String.toList_ofList,
    trimChars_trimChars] at hkind
  obtain ⟨rest, hrest⟩ := List.head?_eq_some_iff.mp hkind
  rw [header_eq_trim h, Text.trim, String.toList_ofList, hrest]
  exact ⟨rest, rfl⟩

end StyleTree.Selector

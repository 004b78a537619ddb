import StyleTree.Proofs.Selector.Commas
import StyleTree.Sheet.Css

/-! Written lists of selectors. A rule is written with its selectors joined by commas, and these are alternatives of
    keys. Read again they are the same alternatives, unless one of them ends in a backslash that makes the comma behind
    it plain. There is such an alternative where a key has an escaped blank in front of a comma: the blank is cut off,
    and the backslash stays. -/

namespace StyleTree.Selector

open Text (isBlank trimChars joinWith)

/-! ### Taken commas -/

/-- What the splitter has begun is the front of the segment that it ends. -/
theorem Splitter.exists_of_scan {s : Splitter} {cs : List Char} {parts : List (List Char)} (h : s.scan cs = .ok parts) :
    ∃ part rest, parts = s.segments.reverse ++ (s.current.reverse ++ part) :: rest := by
  induction cs generalizing s with
  | nil =>
    obtain ⟨-, -, rfl⟩ := finish_eq_ok h
    exact ⟨[], [], by simp [cut]⟩
  | cons c cs ih =>
    obtain ⟨t, hc, ht⟩ := exists_of_scan_cons h
    obtain ⟨part, rest, rfl⟩ := ih ht
    rcases s.step_cases c with ⟨m, -, hs⟩ | ⟨-, ⟨-, -, hs⟩ | hs⟩ <;> cases hs.symm.trans hc
    · exact ⟨c :: part, rest, by simp [read, keep]⟩
    · exact ⟨[], part :: rest, by simp [cut]⟩

theorem exists_trimmed_append (cs : List Char) :
    ∃ back, cs.dropWhile isBlank = trimChars cs ++ back ∧ ∀ c ∈ back, isBlank c = true := by
  refine ⟨((cs.dropWhile isBlank).reverse.takeWhile isBlank).reverse, ?_, fun c hc => ?_⟩
  · rw [trimChars, ← List.reverse_append, List.takeWhile_append_dropWhile, List.reverse_reverse]
  · exact List.mem_takeWhile_imp (List.mem_reverse.mp hc)

theorem trimChars_append_ne {w r : List Char} {c : Char} (hw : Trimmed w) (hc : isBlank c = false) :
    trimChars (w ++ c :: r) ≠ w := by
  intro h
  have hhead : ∀ d ∈ (w ++ c :: r).head?, isBlank d = false := by
    cases w with
    | nil => simpa using hc
    | cons d w => exact hw.head
  obtain ⟨back, hback, hblank⟩ := exists_trimmed_append (w ++ c :: r)
  rw [h, dropWhile_of_head hhead] at hback
  have hcback : c ∈ back := List.append_cancel_left hback ▸ List.mem_cons_self
  rw [hblank c hcback] at hc
  cases hc

theorem texts_cons {part : List Char} (parts : List (List Char)) (h : ∃ c ∈ part, isBlank c = false) :
    texts (part :: parts) = String.ofList (trimChars part) :: texts parts := by
  have hne : trimChars part ≠ [] := trimChars_ne_nil_iff.mpr h
  simp [texts, hne]

/-- A selector that takes the comma is not the first alternative of a list that begins with it. -/
theorem splitAlternatives_join_ne {separator x y : String} {bs : List String} (hsep : Separates separator)
    (hx : splitAlternatives x = .ok [x]) (hend : endsEscaping x.toList = true) :
    splitAlternatives (x ++ separator ++ y) ≠ .ok (x :: bs) := by
  intro h
  obtain ⟨-, parts, hparts, htexts : x :: bs = texts parts⟩ := splitAlternatives_cases h
  obtain ⟨blanks, hseparator, -⟩ := hsep
  have hmem : x ∈ alternatives x := by simp [alternatives, hx, Except.toOption]
  obtain ⟨⟨escaped, hrun⟩, hsolid⟩ := mem_alternatives hmem
  have hread := Splitter.foldlM_of_run (s := {}) hrun
  obtain rfl : escaped = true := (Splitter.escaped_foldlM hread).trans hend
  have hkey : (x ++ separator ++ y).toList = x.toList ++ ',' :: (blanks ++ y.toList) := by simp [hseparator]
  -- Behind the backslash the comma is kept.
  have hscan : Splitter.scan { current := ',' :: x.toList.reverse } (blanks ++ y.toList) = .ok parts := by
    rw [← hparts, hkey]
    refine Eq.trans ?_ (Splitter.scan_append hread _).symm
    rw [Splitter.scan_cons]
    simp [Splitter.step, Splitter.keep, Except.bind]
  obtain ⟨part, rest, rfl⟩ := Splitter.exists_of_scan hscan
  have hfirst : (',' :: x.toList.reverse).reverse ++ part = x.toList ++ ',' :: part := by simp
  have hcomma : isBlank ',' = false := by decide
  rw [List.reverse_nil, List.nil_append, hfirst, texts_cons _ ⟨',', by simp, hcomma⟩] at htexts
  have hxs := congrArg String.toList (List.cons.inj htexts).1
  rw [String.toList_ofList] at hxs
  exact trimChars_append_ne hsolid.toTrimmed hcomma hxs.symm

/-! ### Escaped blanks -/

/-- A segment stands in the text. -/
theorem Splitter.infix_of_scan {s : Splitter} {cs : List Char} {parts : List (List Char)} (h : s.scan cs = .ok parts)
    {part : List Char} (hpart : part ∈ parts) : part ∈ s.segments ∨ part <:+: s.current.reverse ++ cs := by
  induction cs generalizing s with
  | nil =>
    obtain ⟨-, -, rfl⟩ := finish_eq_ok h
    rw [cut, List.mem_reverse, List.mem_cons] at hpart
    rcases hpart with rfl | hpart
    · exact .inr (List.prefix_append _ _).isInfix
    · exact .inl hpart
  | cons c cs ih =>
    obtain ⟨t, hc, ht⟩ := exists_of_scan_cons h
    rcases s.step_cases c with ⟨m, -, hs⟩ | ⟨-, ⟨-, -, hs⟩ | hs⟩ <;> cases hs.symm.trans hc
    · simpa [read, keep] using ih ht
    · rcases ih ht with hmem | hin
      · rcases List.mem_cons.mp hmem with rfl | hmem
        · exact .inr (List.prefix_append _ _).isInfix
        · exact .inl hmem
      · exact .inr (hin.trans ((List.suffix_cons c cs).trans (List.suffix_append _ _)).isInfix)

theorem mem_texts {a : String} {parts : List (List Char)} (h : a ∈ texts parts) : ∃ part ∈ parts, trimChars part = a.toList := by
  simp only [texts, List.mem_map, List.mem_filter] at h
  obtain ⟨cs, ⟨⟨part, hpart, rfl⟩, -⟩, rfl⟩ := h
  exact ⟨part, hpart, String.toList_ofList.symm⟩

/-- An alternative in front of another comes from a segment in front of another. -/
theorem mem_texts_of_mem_dropLast {a : String} {front : List (List Char)} {last : List Char}
    (h : a ∈ (texts (front ++ [last])).dropLast) : a ∈ texts front := by
  have happend : texts (front ++ [last]) = texts front ++ texts [last] := by simp [texts]
  rw [happend] at h
  by_cases hlast : trimChars last = []
  · have hnil : texts [last] = [] := by simp [texts, hlast]
    rw [hnil, List.append_nil] at h
    exact List.dropLast_subset _ h
  · have hone : texts [last] = [String.ofList (trimChars last)] := by simp [texts, hlast]
    rwa [hone, List.dropLast_concat] at h

/-- A text that leads back to where it begins does not end in a backslash that takes a comma, so what is left of it
    without blanks can only do so in front of a blank. -/
theorem exists_blank_of_endsEscaping {part : List Char} (hpart : Mode.run {} part = some {})
    (hend : endsEscaping (trimChars part) = true) : ∃ b, isBlank b = true ∧ trimChars part ++ [b] <:+: part := by
  obtain ⟨back, hback, hblank⟩ := exists_trimmed_append part
  cases back with
  | nil =>
    have hrun : Mode.run {} (trimChars part) = some {} := by
      have hfront : Mode.run {} (part.takeWhile isBlank) = some {} := Mode.run_blanks fun c hc => List.mem_takeWhile_imp hc
      rw [← List.takeWhile_append_dropWhile (p := isBlank) (l := part), Mode.run_append, hfront, hback,
        List.append_nil] at hpart
      exact hpart
    have hescaped : false = endsEscaping (trimChars part) :=
      Splitter.escaped_foldlM (Splitter.foldlM_of_run (s := {}) hrun)
    rw [hend] at hescaped
    cases hescaped
  | cons b back =>
    refine ⟨b, hblank b List.mem_cons_self, ?_⟩
    have hprefix : trimChars part ++ [b] <+: part.dropWhile isBlank := ⟨back, by simp [hback]⟩
    exact hprefix.isInfix.trans (List.dropWhile_suffix isBlank).isInfix

theorem exists_escaped_blank {key a : String} {as : List String} (h : splitAlternatives key = .ok as)
    (ha : a ∈ as.dropLast) (hend : endsEscaping a.toList = true) :
    ∃ b, isBlank b = true ∧ a.toList ++ [b] <:+: key.toList := by
  obtain ⟨-, parts, hparts, rfl⟩ := splitAlternatives_cases h
  obtain ⟨front, last, rfl, hclosed, -⟩ := segments_eq_ok hparts
  obtain ⟨part, hpart, htrim⟩ := mem_texts (mem_texts_of_mem_dropLast ha)
  rw [← htrim] at hend ⊢
  obtain ⟨b, hb, hin⟩ := exists_blank_of_endsEscaping (hclosed part hpart) hend
  have hkey : part <:+: key.toList := by
    simpa using Splitter.infix_of_scan (s := {}) hparts (List.mem_append_left [last] hpart)
  exact ⟨b, hb, hin.trans hkey⟩

/-! ### Joined selectors -/

theorem splitAlternatives_joinWith_iff {separator : String} (hsep : Separates separator) {as : List String}
    (hne : as ≠ []) (has : ∀ a ∈ as, splitAlternatives a = .ok [a]) :
    splitAlternatives (joinWith separator as) = .ok as ↔ ∀ a ∈ as.dropLast, endsEscaping a.toList = false := by
  induction as with
  | nil => exact absurd rfl hne
  | cons a as ih =>
    rw [List.forall_mem_cons] at has
    cases as with
    | nil => exact iff_of_true has.1 (by simp)
    | cons b as =>
      rw [Text.joinWith_cons_cons, List.dropLast_cons_cons, List.forall_mem_cons]
      cases hend : endsEscaping a.toList with
      | true => exact iff_of_false (splitAlternatives_join_ne hsep has.1 hend) (by simp)
      | false =>
        have hrest := splitAlternatives_join_iff (y := joinWith separator (b :: as)) hsep has.1 hend (List.cons_ne_nil b as)
        rw [List.singleton_append] at hrest
        rw [hrest, ih (List.cons_ne_nil b as) has.2]
        simp

theorem separates_selectorSeparator (minify : Bool) : Separates (CssStyle.ofMinify minify).selectorSeparator := by
  cases minify with
  | true => exact separates_comma
  | false => exact separates_comma_blank

/-- The alternatives of a key, written as the selectors of a rule, are read as the same alternatives exactly if none but
    the last ends in a lone backslash. One that does stands in the key with a blank behind the backslash. -/
theorem written_list_splits_iff {key : String} {as : List String} (h : splitAlternatives key = .ok as) (minify : Bool) :
    (splitAlternatives (joinWith (CssStyle.ofMinify minify).selectorSeparator as) = .ok as ↔
        ∀ a ∈ as.dropLast, endsEscaping a.toList = false) ∧
      ∀ a ∈ as.dropLast, endsEscaping a.toList = true → ∃ b, isBlank b = true ∧ a.toList ++ [b] <:+: key.toList := by
  refine ⟨?_, fun a ha hend => exists_escaped_blank h ha hend⟩
  refine splitAlternatives_joinWith_iff (separates_selectorSeparator minify) (splitAlternatives_cases h).1 fun a ha => ?_
  have hmem : a ∈ alternatives key := by rwa [alternatives, h]
  obtain ⟨hcomplete, hsolid⟩ := mem_alternatives hmem
  exact splitAlternatives_of_complete hcomplete hsolid

theorem written_list_splits_iff_nested :
    splitAlternatives ":is(p, q) , li\\" = .ok [":is(p, q)", "li\\"] ∧
      splitAlternatives (joinWith (CssStyle.ofMinify true).selectorSeparator [":is(p, q)", "li\\"]) =
        .ok [":is(p, q)", "li\\"] := by
  have hsplit : splitAlternatives ":is(p, q) , li\\" = .ok [":is(p, q)", "li\\"] := by decide
  exact ⟨hsplit, (written_list_splits_iff hsplit true).1.mpr (by decide)⟩

/-- An escaped blank in front of a comma: the two alternatives are written as a list that is one selector. -/
theorem escaped_blank_joins_selectors :
    splitAlternatives "a\\ , b" = .ok ["a\\", "b"] ∧
      splitAlternatives (joinWith (CssStyle.ofMinify true).selectorSeparator ["a\\", "b"]) = .ok ["a\\,b"] ∧
      splitAlternatives (joinWith (CssStyle.ofMinify false).selectorSeparator ["a\\", "b"]) = .ok ["a\\, b"] := by
  decide

end StyleTree.Selector

import StyleTree.Proofs.Selector.Kinds

/-! Keys joined by a comma. Behind a key that splits the splitter stands outside all brackets and quotes, so it cuts
    at the comma and goes on from there as if nothing stood in front. A joined key has the alternatives of its
    parts, unless a backslash at the end of the first takes the comma. -/

namespace StyleTree.Selector

open Text (isBlank trimChars)

/-- Whether the text ends in a backslash that is not itself behind a backslash. -/
def endsEscaping (cs : List Char) : Bool := cs.foldl (fun escaped c => !escaped && c == '\\') false

theorem Mode.escaped_step {m m' : Mode} {c : Char} (h : m.step c = some m') : m'.escaped = (!m.escaped && c == '\\') := by
  obtain ⟨opened, quote, escaped⟩ := m
  rw [step] at h
  cases escaped with
  | true =>
    cases h
    rfl
  | false =>
    by_cases hc : c = '\\'
    · rw [if_neg Bool.false_ne_true, if_pos hc] at h
      cases h
      simp [hc]
    · rw [if_neg Bool.false_ne_true, if_neg hc] at h
      -- Neither a quote nor a bracket touches the backslash.
      have hkept : m'.escaped = false := by
        cases quote with
        | some q =>
          cases h
          rfl
        | none =>
          rw [bare] at h
          repeat' split at h
          all_goals cases h
          all_goals rfl
      simp [hkept, hc]

namespace Splitter
variable {s t : Splitter} {front : List (List Char)} {cs : List Char} {c : Char}

theorem escaped_step (h : s.step c = .ok t) : t.escaped = (!s.escaped && c == '\\') := by
  rcases s.step_cases c with ⟨m, hm, hs⟩ | ⟨-, ⟨rfl, hmode, hs⟩ | hs⟩ <;> cases hs.symm.trans h
  · exact Mode.escaped_step hm
  · have hescaped : s.escaped = false := congrArg Mode.escaped hmode
    simp [cut, hescaped]

theorem escaped_foldlM (h : cs.foldlM step s = .ok t) :
    t.escaped = cs.foldl (fun escaped c => !escaped && c == '\\') s.escaped := by
  induction cs generalizing s with
  | nil =>
    cases h
    rfl
  | cons c cs ih =>
    rw [List.foldlM_cons] at h
    cases hs : s.step c with
    | error fault =>
      rw [hs] at h
      cases h
    | ok s' =>
      rw [hs] at h
      rw [ih h, List.foldl_cons, escaped_step hs]

/-- The second splitter stands where the first does, with segments in front, and blanks at the ends of its own may be
    different. -/
structure Behind (front : List (List Char)) (s t : Splitter) : Prop where
  mode : t.mode = s.mode
  segments : t.segments.map trimChars = s.segments.map trimChars ++ front
  current : t.current.reverse.dropWhile isBlank = s.current.reverse.dropWhile isBlank

theorem trimChars_congr {cs ds : List Char} (h : cs.dropWhile isBlank = ds.dropWhile isBlank) :
    trimChars cs = trimChars ds := by
  rw [trimChars, h, trimChars]

theorem Behind.cut (h : Behind front s t) : Behind front s.cut t.cut where
  mode := h.mode
  segments := by
    rw [Splitter.cut, Splitter.cut, List.map_cons, List.map_cons, h.segments, trimChars_congr h.current, List.cons_append]
  current := rfl

theorem Behind.read (h : Behind front s t) (c : Char) (m : Mode) : Behind front (s.read c m) (t.read c m) where
  mode := rfl
  segments := h.segments
  current := by
    simp only [Splitter.read, keep, List.reverse_cons, List.dropWhile_append, h.current]

theorem step_comma (h : s.mode = {}) : s.step ',' = .ok s.cut := by
  obtain ⟨segments, current, opened, quote, escaped⟩ := s
  cases h
  rfl

/-- The two fail on the same texts, and else the second has the segments in front besides those of the first. -/
theorem Behind.scan (h : Behind front s t) (cs : List Char) :
    (t.scan cs).map (List.map trimChars) = (s.scan cs).map fun parts => front.reverse ++ parts.map trimChars := by
  induction cs generalizing s t with
  | nil =>
    have hquote : t.quote = s.quote := congrArg Mode.quote h.mode
    have hopened : t.opened = s.opened := congrArg Mode.opened h.mode
    have hcut : t.cut.segments.reverse.map trimChars = front.reverse ++ s.cut.segments.reverse.map trimChars := by
      rw [List.map_reverse, h.cut.segments, List.reverse_append, List.map_reverse]
    change t.finish.map _ = s.finish.map _
    rw [finish, finish, hquote, hopened]
    split
    · rfl
    · rfl
    · exact congrArg Except.ok hcut
  | cons c cs ih =>
    rw [scan_cons, scan_cons]
    rcases s.step_cases c with ⟨m, hm, hs⟩ | ⟨hnone, ⟨rfl, hmode, hs⟩ | hs⟩
    · rw [hs, step_of_mode (h.mode ▸ hm)]
      exact ih (h.read c m)
    · rw [hs, step_comma (h.mode.trans hmode)]
      exact ih h.cut
    · rcases t.step_cases c with ⟨m, hm, -⟩ | ⟨-, ⟨rfl, hmode, -⟩ | ht⟩
      · cases (h.mode ▸ hnone).symm.trans hm
      · cases (step_comma (h.mode.symm.trans hmode)).symm.trans hs
      · rw [hs, ht]
        rfl

end Splitter

/-! ### Joined keys -/

/-- The separator is a comma and blanks. -/
def Separates (separator : String) : Prop :=
  ∃ blanks, separator.toList = ',' :: blanks ∧ ∀ c ∈ blanks, isBlank c = true

theorem separates_comma : Separates "," := ⟨[], by decide, List.forall_mem_nil _⟩

theorem separates_comma_blank : Separates ", " := ⟨[' '], by decide, List.forall_mem_singleton.mpr (by decide)⟩

theorem Mode.run_blanks {blanks : List Char} (h : ∀ c ∈ blanks, isBlank c = true) : run {} blanks = some {} := by
  induction blanks with
  | nil => rfl
  | cons c blanks ih =>
    rw [List.forall_mem_cons] at h
    rw [run_cons, step_ordinary (quoted_bare [] false) (not_mem_specials_of_isBlank h.1)]
    exact ih h.2

/-- A text that splits leads to the mode in which the splitter begins, unless a backslash ends it. -/
theorem foldlM_of_segments {cs : List Char} {parts : List (List Char)} (h : segments cs = .ok parts) :
    ∃ s : Splitter, cs.foldlM Splitter.step {} = .ok s ∧ s.mode = ⟨[], none, endsEscaping cs⟩ ∧
      parts = s.cut.segments.reverse := by
  rw [segments] at h
  cases hs : cs.foldlM Splitter.step {} with
  | error fault =>
    rw [hs] at h
    cases h
  | ok s =>
    rw [hs] at h
    obtain ⟨hquote, hopened, rfl⟩ := Splitter.finish_eq_ok h
    have hescaped : s.escaped = endsEscaping cs := Splitter.escaped_foldlM hs
    exact ⟨s, rfl, by rw [Splitter.mode, hquote, hopened, hescaped], rfl⟩

theorem segments_join {cs blanks : List Char} {parts : List (List Char)} (hblanks : ∀ c ∈ blanks, isBlank c = true)
    (hcs : segments cs = .ok parts) (hend : endsEscaping cs = false) (ds : List Char) :
    (segments (cs ++ ',' :: (blanks ++ ds))).map (List.map trimChars) =
      (segments ds).map fun parts' => parts.map trimChars ++ parts'.map trimChars := by
  obtain ⟨s, hs, hmode, rfl⟩ := foldlM_of_segments hcs
  rw [hend] at hmode
  have hcut : s.cut.mode = {} := hmode
  have hfront : blanks.foldlM Splitter.step s.cut = .ok { s.cut with current := blanks.reverse } := by
    have hrun : s.cut.mode.run blanks = some s.cut.mode := by rw [hcut, Mode.run_blanks hblanks]
    rw [Splitter.foldlM_of_run hrun]
    simp [Splitter.mode, Splitter.cut]
  -- Behind the comma and the blanks, the splitter is behind one that starts anew.
  have hbehind : Splitter.Behind (s.cut.segments.map trimChars) {} { s.cut with current := blanks.reverse } :=
    ⟨hcut, rfl, by simpa using hblanks⟩
  have hread : segments (cs ++ ',' :: (blanks ++ ds)) = Splitter.scan { s.cut with current := blanks.reverse } ds := by
    refine (Splitter.scan_append hs _).trans ?_
    rw [Splitter.scan_cons, Splitter.step_comma hmode]
    exact Splitter.scan_append hfront ds
  rw [hread, hbehind.scan, List.map_reverse]
  rfl

/-- The alternatives that segments stand for. -/
def texts (parts : List (List Char)) : List String := ((parts.map trimChars).filter (· ≠ [])).map String.ofList

theorem splitAlternatives_of_segments {key : String} {parts : List (List Char)} (h : segments key.toList = .ok parts)
    (hne : texts parts ≠ []) : splitAlternatives key = .ok (texts parts) := by
  have hparts : ((parts.map trimChars).filter (· ≠ [])).isEmpty = false := by
    rw [texts, ne_eq, List.map_eq_nil_iff] at hne
    exact List.isEmpty_eq_false_iff.mpr hne
  simp only [splitAlternatives, h, Bind.bind, Except.bind, hparts, Bool.false_eq_true, if_false, texts]

theorem splitAlternatives_eq_ok_iff {key : String} {as : List String} (hne : as ≠ []) :
    splitAlternatives key = .ok as ↔ ∃ parts, segments key.toList = .ok parts ∧ as = texts parts := by
  refine ⟨fun h => (splitAlternatives_cases h).2, ?_⟩
  rintro ⟨parts, hparts, rfl⟩
  exact splitAlternatives_of_segments hparts hne

/-- A key with a separator behind it, in front of another: the alternatives of the other are those that come behind
    its own, if no backslash takes the comma. -/
theorem splitAlternatives_join_iff {separator x y : String} {as bs : List String} (hsep : Separates separator)
    (hx : splitAlternatives x = .ok as) (hend : endsEscaping x.toList = false) (hne : bs ≠ []) :
    splitAlternatives (x ++ separator ++ y) = .ok (as ++ bs) ↔ splitAlternatives y = .ok bs := by
  obtain ⟨-, parts, hparts, has : as = texts parts⟩ := splitAlternatives_cases hx
  obtain ⟨blanks, hseparator, hblanks⟩ := hsep
  have hkey : (x ++ separator ++ y).toList = x.toList ++ ',' :: (blanks ++ y.toList) := by simp [hseparator]
  have hjoin := segments_join hblanks hparts hend y.toList
  rw [splitAlternatives_eq_ok_iff (List.append_ne_nil_of_right_ne_nil _ hne), splitAlternatives_eq_ok_iff hne, hkey]
  cases hy : segments y.toList with
  | error fault =>
    rw [hy] at hjoin
    refine iff_of_false ?_ (by simp)
    rintro ⟨all, hall, -⟩
    rw [hall] at hjoin
    cases hjoin
  | ok parts' =>
    rw [hy] at hjoin
    cases hall : segments (x.toList ++ ',' :: (blanks ++ y.toList)) with
    | error fault =>
      rw [hall] at hjoin
      cases hjoin
    | ok all =>
      rw [hall] at hjoin
      have htexts : texts all = texts parts ++ texts parts' := by
        rw [texts, Except.ok.inj hjoin, List.filter_append, List.map_append]
        rfl
      simp [has, htexts]

/-- A joined key has the alternatives of both, if no backslash takes the comma. -/
theorem splitAlternatives_join {separator x y : String} {as bs : List String} (hsep : Separates separator)
    (hx : splitAlternatives x = .ok as) (hy : splitAlternatives y = .ok bs) (hend : endsEscaping x.toList = false) :
    splitAlternatives (x ++ separator ++ y) = .ok (as ++ bs) :=
  (splitAlternatives_join_iff hsep hx hend (splitAlternatives_cases hy).1).mpr hy

theorem keyKind_join {x y : String} (hx : keyKind x = .selector x) :
    keyKind (x ++ ", " ++ y) = .selector (x ++ ", " ++ y) := by
  rw [keyKind_eq_selector_iff] at hx ⊢
  have hcomma : (", " : String).toList = [',', ' '] := by decide
  rw [String.toList_append, String.toList_append, List.append_assoc, List.find?_append, hcomma]
  cases hfind : x.toList.find? fun c => !isBlank c with
  | some c => rwa [hfind] at hx
  | none =>
    rw [Option.none_or, List.cons_append, List.find?_cons_of_pos (by decide)]
    decide

end StyleTree.Selector

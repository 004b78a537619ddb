import StyleTree.Proofs.Selector.Commas

/-! The grammar of keys. A key is a row of items, each a plain character, a backslash with the character behind it, a
    text in quotes, or items in brackets; one more backslash may stand at its end. The splitter takes exactly these
    keys, and cuts them at the commas among their own items.

    That a key of the grammar is read is an induction on its items. That nothing else is read is one on the characters,
    from whatever state the splitter is in: there the rest of the key closes what is open. -/

namespace StyleTree.Selector

open Text (isBlank trimChars)

/-! ### Items -/

def quotes : List Char := ['"', '\'']

/-- The opening brackets, each with the one that closes it. -/
def brackets : List (Char × Char) := [('[', ']'), ('(', ')')]

/-- The characters that are not plain. -/
def marks : List Char := ['\\', '"', '\'', '[', '(', ']', ')']

/-- What stands inside quotes: a backslash takes the character behind it, and all else but the quote is plain. -/
inductive QuotedText (q : Char) where
  | nil
  | plain (c : Char) (ordinary : c ≠ '\\' ∧ c ≠ q) (rest : QuotedText q)
  | escaped (c : Char) (rest : QuotedText q)

inductive Items where
  | nil
  | plain (c : Char) (ordinary : c ∉ marks) (rest : Items)
  | escaped (c : Char) (rest : Items)
  | quoted (q : Char) (quote : q ∈ quotes) (body : QuotedText q) (rest : Items)
  | bracketed (o c : Char) (pair : (o, c) ∈ brackets) (inside rest : Items)

/-- A key: items, and whether a lone backslash stands behind them. -/
structure KeyText where
  items : Items
  dangling : Bool := false

def QuotedText.text {q : Char} : QuotedText q → List Char
  | .nil => []
  | .plain c _ rest => c :: rest.text
  | .escaped c rest => '\\' :: c :: rest.text

/-- The segments with more characters in front of the first. -/
def prepend (cs : List Char) : List (List Char) → List (List Char)
  | [] => [cs]
  | part :: rest => (cs ++ part) :: rest

namespace Items

def text : Items → List Char
  | .nil => []
  | .plain c _ rest => c :: rest.text
  | .escaped c rest => '\\' :: c :: rest.text
  | .quoted q _ body rest => q :: (body.text ++ q :: rest.text)
  | .bracketed o c _ inside rest => o :: (inside.text ++ c :: rest.text)

/-- The texts between the commas among the items, with `ending` behind the last. -/
def segments (ending : List Char) : Items → List (List Char)
  | .nil => [ending]
  | .plain c _ rest => if c = ',' then [] :: rest.segments ending else prepend [c] (rest.segments ending)
  | .escaped c rest => prepend ['\\', c] (rest.segments ending)
  | .quoted q _ body rest => prepend (q :: (body.text ++ [q])) (rest.segments ending)
  | .bracketed o c _ inside rest => prepend (o :: (inside.text ++ [c])) (rest.segments ending)

end Items

namespace KeyText

def ending (k : KeyText) : List Char := if k.dangling then ['\\'] else []

def text (k : KeyText) : List Char := k.items.text ++ k.ending

def segments (k : KeyText) : List (List Char) := k.items.segments k.ending

/-- The segments that are not blank, without the blanks around them. -/
def alternatives (k : KeyText) : List String :=
  (k.segments.filter (·.any (!isBlank ·))).map fun part => String.ofList (trimChars part)

end KeyText

theorem prepend_ne_nil (cs : List Char) (parts : List (List Char)) : prepend cs parts ≠ [] := by
  cases parts <;> simp [prepend]

theorem prepend_prepend (cs ds : List Char) (parts : List (List Char)) :
    prepend cs (prepend ds parts) = prepend (cs ++ ds) parts := by
  cases parts <;> simp [prepend]

theorem prepend_nil {parts : List (List Char)} (h : parts ≠ []) : prepend [] parts = parts := by
  cases parts with
  | nil => exact absurd rfl h
  | cons => rfl

theorem Items.segments_ne_nil (x : Items) (ending : List Char) : x.segments ending ≠ [] := by
  cases x <;> simp only [segments]
  · simp
  · split
    · simp
    · exact prepend_ne_nil _ _
  all_goals exact prepend_ne_nil _ _

/-! ### Keys of the grammar are read -/

namespace Mode
variable {opened : List Char} {q o c : Char}

theorem step_plain (hc : c ∉ marks) (h : c = ',' → opened ≠ []) :
    step ⟨opened, none, false⟩ c = some ⟨opened, none, false⟩ := by
  simp only [marks, List.mem_cons, List.not_mem_nil, or_false, not_or] at hc
  obtain ⟨hslash, hdouble, hsingle, hopen, hparen, hclose, hthesis⟩ := hc
  have hcut : ¬(c = ',' ∧ opened = []) := fun ⟨hcomma, hnil⟩ => h hcomma hnil
  simp [step, bare, hslash, hdouble, hsingle, hopen, hparen, hclose, hthesis, hcut]

theorem run_quotedText (body : QuotedText q) (cs : List Char) :
    run ⟨opened, some q, false⟩ (body.text ++ cs) = run ⟨opened, some q, false⟩ cs := by
  induction body with
  | nil => rfl
  | plain c ordinary rest ih =>
    have hstep : step ⟨opened, some q, false⟩ c = some ⟨opened, some q, false⟩ := by
      simp [step, ordinary.1, ordinary.2]
    rw [QuotedText.text, List.cons_append, run_cons, hstep]
    exact ih
  | escaped c rest ih => exact ih

theorem run_quote (hq : q ∈ quotes) (body : QuotedText q) (cs : List Char) :
    run ⟨opened, none, false⟩ (q :: (body.text ++ q :: cs)) = run ⟨opened, none, false⟩ cs := by
  have hopen : step ⟨opened, none, false⟩ q = some ⟨opened, some q, false⟩ := by
    simp only [quotes, List.mem_cons, List.not_mem_nil, or_false] at hq
    rcases hq with rfl | rfl <;> rfl
  have hclose : step ⟨opened, some q, false⟩ q = some ⟨opened, none, false⟩ := by
    simp only [quotes, List.mem_cons, List.not_mem_nil, or_false] at hq
    rcases hq with rfl | rfl <;> rfl
  rw [run_cons, hopen]
  refine (run_quotedText body (q :: cs)).trans ?_
  rw [run_cons, hclose]
  rfl

theorem step_bracket (h : (o, c) ∈ brackets) (opened : List Char) :
    step ⟨opened, none, false⟩ o = some ⟨o :: opened, none, false⟩ ∧
      step ⟨o :: opened, none, false⟩ c = some ⟨opened, none, false⟩ := by
  simp only [brackets, List.mem_cons, List.not_mem_nil, or_false, Prod.mk.injEq] at h
  rcases h with ⟨rfl, rfl⟩ | ⟨rfl, rfl⟩ <;> exact ⟨rfl, rfl⟩

/-- Inside a bracket a comma is plain like any other character. -/
theorem run_inside (x : Items) (o : Char) (opened cs : List Char) :
    run ⟨o :: opened, none, false⟩ (x.text ++ cs) = run ⟨o :: opened, none, false⟩ cs := by
  induction x generalizing o opened cs with
  | nil => rfl
  | plain c ordinary rest ih =>
    rw [Items.text, List.cons_append, run_cons, step_plain ordinary fun _ => List.cons_ne_nil _ _]
    exact ih o opened cs
  | escaped c rest ih => exact ih o opened cs
  | quoted q quote body rest ih =>
    rw [Items.text, List.cons_append, List.append_assoc, List.cons_append, run_quote quote]
    exact ih o opened cs
  | bracketed o' c' pair inside rest ihi ihr =>
    obtain ⟨hopen, hclose⟩ := step_bracket pair (o :: opened)
    rw [Items.text, List.cons_append, List.append_assoc, List.cons_append, run_cons, hopen]
    refine (ihi o' (o :: opened) _).trans ?_
    rw [run_cons, hclose]
    exact ihr o opened cs

theorem run_bracket (h : (o, c) ∈ brackets) (inside : Items) : run {} (o :: (inside.text ++ [c])) = some {} := by
  obtain ⟨hopen, hclose⟩ := step_bracket h []
  rw [run_cons, hopen]
  refine (run_inside inside o [] [c]).trans ?_
  rw [run_cons, hclose]
  rfl

end Mode

namespace Splitter
variable {s t : Splitter}

/-- From outside all brackets and quotes the text is read as these segments, behind what the splitter has. -/
def ReadAs (cs : List Char) (parts : List Char → List (List Char)) : Prop :=
  ∀ s : Splitter, s.mode = {} → ∃ t, cs.foldlM step s = .ok t ∧ t.mode = {} ∧
    ∀ ending, t.segments.reverse ++ [t.current.reverse ++ ending] =
      s.segments.reverse ++ prepend s.current.reverse (parts ending)

variable {cs : List Char} {parts : List Char → List (List Char)}

/-- A text that is closed in itself is read without a cut. -/
theorem ReadAs.closed {w : List Char} (hw : Mode.run {} w = some {}) (h : ReadAs cs parts) :
    ReadAs (w ++ cs) fun ending => prepend w (parts ending) := by
  intro s hs
  have hread : w.foldlM step s = .ok { s with current := w.reverse ++ s.current } := foldlM_of_run (hs ▸ hw)
  obtain ⟨t, ht, hmode, hparts⟩ := h { s with current := w.reverse ++ s.current } hs
  refine ⟨t, ?_, hmode, fun ending => ?_⟩
  · rw [List.foldlM_append, hread]
    exact ht
  · rw [hparts, prepend_prepend]
    simp

theorem ReadAs.comma (hne : ∀ ending, parts ending ≠ []) (h : ReadAs cs parts) :
    ReadAs (',' :: cs) fun ending => [] :: parts ending := by
  intro s hs
  obtain ⟨t, ht, hmode, hparts⟩ := h s.cut hs
  refine ⟨t, ?_, hmode, fun ending => ?_⟩
  · rw [List.foldlM_cons, step_comma hs]
    exact ht
  · have hcurrent : prepend s.cut.current.reverse (parts ending) = parts ending := prepend_nil (hne ending)
    rw [hparts, hcurrent]
    simp [cut, prepend]

end Splitter

theorem Items.readAs (x : Items) : Splitter.ReadAs x.text fun ending => x.segments ending := by
  induction x with
  | nil => exact fun s hs => ⟨s, rfl, hs, fun _ => rfl⟩
  | plain c ordinary rest ih =>
    by_cases hc : c = ','
    · subst hc
      exact ih.comma rest.segments_ne_nil
    · have hw : Mode.run {} [c] = some {} := by
        rw [Mode.run_cons, Mode.step_plain ordinary fun h => absurd h hc]
        rfl
      simp only [segments, if_neg hc]
      exact ih.closed hw
  | escaped c rest ih => exact ih.closed (w := ['\\', c]) rfl
  | quoted q quote body rest ih =>
    have hread := ih.closed (Mode.run_quote quote body [])
    simpa [text, segments] using hread
  | bracketed o c pair inside rest _ ih =>
    have hread := ih.closed (Mode.run_bracket pair inside)
    simpa [text, segments] using hread

theorem segments_keyText (k : KeyText) : Selector.segments k.text = .ok k.segments := by
  obtain ⟨t, ht, hmode, hparts⟩ := k.items.readAs {} rfl
  have hsegments : t.segments.reverse ++ [t.current.reverse ++ k.ending] = k.segments := by
    rw [hparts]
    exact prepend_nil (k.items.segments_ne_nil _)
  obtain ⟨segments, current, opened, quote, escaped⟩ := t
  cases hmode
  rw [Selector.segments, KeyText.text, List.foldlM_append, ht, ← hsegments, KeyText.ending]
  cases k.dangling <;> simp [bind, Except.bind, pure, Except.pure, Splitter.step, Splitter.finish, Splitter.cut, Splitter.keep]

/-! ### Nothing else is read -/

/-- The text closes the brackets, innermost first, with items before each of them and behind the last. -/
def Closes : List Char → List Char → Prop
  | [], cs => ∃ k : KeyText, k.text = cs
  | o :: opened, cs => ∃ (inside : Items) (c : Char) (rest : List Char),
      cs = inside.text ++ c :: rest ∧ (o, c) ∈ brackets ∧ Closes opened rest

/-- One more item in front. -/
theorem Closes.cons {opened cs w : List Char} (item : Items → Items) (hitem : ∀ x, (item x).text = w ++ x.text)
    (h : Closes opened cs) : Closes opened (w ++ cs) := by
  cases opened with
  | nil =>
    obtain ⟨k, rfl⟩ := h
    exact ⟨⟨item k.items, k.dangling⟩, by simp [KeyText.text, KeyText.ending, hitem]⟩
  | cons o opened =>
    obtain ⟨inside, c, rest, rfl, hpair, hrest⟩ := h
    exact ⟨item inside, c, rest, by simp [hitem], hpair, hrest⟩

/-- What the rest of a key has to be, from the mode that the splitter is in. -/
def Mode.Finishes : Mode → List Char → Prop
  | ⟨opened, none, false⟩, cs => Closes opened cs
  | ⟨opened, none, true⟩, cs => opened = [] ∧ cs = [] ∨ ∃ c rest, cs = c :: rest ∧ Closes opened rest
  | ⟨opened, some q, false⟩, cs => ∃ (body : QuotedText q) (rest : List Char), cs = body.text ++ q :: rest ∧ Closes opened rest
  | ⟨opened, some q, true⟩, cs => ∃ (c : Char) (body : QuotedText q) (rest : List Char),
      cs = c :: (body.text ++ q :: rest) ∧ Closes opened rest

namespace Splitter
variable {s t : Splitter} {c : Char} {cs : List Char}

theorem finishes_bare {segments : List (List Char)} {current opened : List Char} (hslash : c ≠ '\\')
    (h : bare ⟨segments, current, opened, none, false⟩ c = .ok t) (hrest : t.mode.Finishes cs) :
    Closes opened (c :: cs) := by
  rw [bare] at h
  by_cases hquote : c = '"' ∨ c = '\''
  · rw [if_pos hquote] at h
    cases h
    obtain ⟨body, rest, rfl, hclosed : Closes opened rest⟩ := hrest
    have hq : c ∈ quotes := by simpa [quotes] using hquote
    have hcons := hclosed.cons (w := c :: (body.text ++ [c])) (.quoted c hq body) fun x => by simp [Items.text]
    simpa using hcons
  rw [if_neg hquote] at h
  by_cases hopen : c = '[' ∨ c = '('
  · rw [if_pos hopen] at h
    cases h
    obtain ⟨inside, d, rest, rfl, hpair, hclosed⟩ := hrest
    have hcons := hclosed.cons (w := c :: (inside.text ++ [d])) (.bracketed c d hpair inside) fun x => by simp [Items.text]
    simpa using hcons
  rw [if_neg hopen] at h
  by_cases hclose : c = ']' ∨ c = ')'
  · rw [if_pos hclose] at h
    cases opened with
    | nil => cases h
    | cons o opened =>
      dsimp only at h
      split at h
      · next ho =>
        cases h
        refine ⟨.nil, c, cs, rfl, ?_, hrest⟩
        rcases hclose with rfl | rfl <;> simp [ho, opening, brackets]
      · cases h
  rw [if_neg hclose] at h
  -- A comma at the top, or any other character: both are plain.
  have hordinary : c ∉ marks := by
    simp only [not_or] at hquote hopen hclose
    simp [marks, hslash, hquote, hopen, hclose]
  have hclosed : Closes opened cs := by
    split at h <;> cases h <;> exact hrest
  exact hclosed.cons (w := [c]) (.plain c hordinary) fun _ => rfl

theorem finishes_step (h : s.step c = .ok t) (hrest : t.mode.Finishes cs) : s.mode.Finishes (c :: cs) := by
  obtain ⟨segments, current, opened, quote, escaped⟩ := s
  cases escaped with
  | true =>
    cases h
    cases quote with
    | none => exact .inr ⟨c, cs, rfl, hrest⟩
    | some q =>
      obtain ⟨body, rest, rfl, hclosed⟩ := hrest
      exact ⟨c, body, rest, rfl, hclosed⟩
  | false =>
    by_cases hslash : c = '\\'
    · subst hslash
      cases h
      cases quote with
      | none =>
        rcases hrest with ⟨rfl, rfl⟩ | ⟨c, rest, rfl, hclosed⟩
        · exact ⟨⟨.nil, true⟩, rfl⟩
        · exact hclosed.cons (w := ['\\', c]) (.escaped c) fun _ => rfl
      | some q =>
        obtain ⟨c, body, rest, rfl, hclosed⟩ := hrest
        exact ⟨.escaped c body, rest, rfl, hclosed⟩
    · rw [step, if_neg Bool.false_ne_true, if_neg hslash] at h
      cases quote with
      | none => exact finishes_bare hslash h hrest
      | some q =>
        cases h
        by_cases hq : c = q
        · subst hq
          simp only [mode, if_true] at hrest
          exact ⟨.nil, cs, rfl, hrest⟩
        · simp only [mode, if_neg hq] at hrest
          obtain ⟨body, rest, rfl, hclosed⟩ := hrest
          exact ⟨.plain c ⟨hslash, hq⟩ body, rest, rfl, hclosed⟩

theorem finishes_scan {parts : List (List Char)} (h : s.scan cs = .ok parts) : s.mode.Finishes cs := by
  induction cs generalizing s with
  | nil =>
    obtain ⟨hquote, hopened, -⟩ := finish_eq_ok h
    obtain ⟨segments, current, opened, quote, escaped⟩ := s
    cases hquote
    cases hopened
    cases escaped with
    | false => exact ⟨⟨.nil, false⟩, rfl⟩
    | true => exact .inl ⟨rfl, rfl⟩
  | cons c cs ih =>
    obtain ⟨t, hc, ht⟩ := exists_of_scan_cons h
    exact finishes_step hc (ih ht)

end Splitter

theorem exists_keyText {key : List Char} {parts : List (List Char)} (h : segments key = .ok parts) :
    ∃ k : KeyText, k.text = key := Splitter.finishes_scan (s := {}) h

/-! ### Alternatives -/

theorem texts_ne_nil_iff {parts : List (List Char)} : texts parts ≠ [] ↔ ∃ part ∈ parts, ∃ c ∈ part, isBlank c = false := by
  rw [texts, ne_eq, List.map_eq_nil_iff, List.filter_eq_nil_iff]
  simp [trimChars_ne_nil_iff]

theorem KeyText.alternatives_eq (k : KeyText) : k.alternatives = texts k.segments := by
  have hblank (part : List Char) : part.any (!isBlank ·) = decide (trimChars part ≠ []) := by
    rw [Bool.eq_iff_iff, decide_eq_true_iff, trimChars_ne_nil_iff, List.any_eq_true]
    simp
  rw [alternatives, texts, List.filter_map, List.map_map]
  simp only [hblank]
  rfl

theorem splitAlternatives_keyText {key : String} {k : KeyText} (hk : k.text = key.toList)
    (hpart : ∃ part ∈ k.segments, ∃ c ∈ part, isBlank c = false) : splitAlternatives key = .ok k.alternatives := by
  rw [k.alternatives_eq]
  exact splitAlternatives_of_segments (hk ▸ segments_keyText k) (texts_ne_nil_iff.mpr hpart)

/-- A key splits exactly if it is one of the grammar with a segment that is not blank, and then into its segments that
    are not, without the blanks around them. Each alternative of a key splits into itself. -/
theorem split_accepts_grammar (key : String) :
    ((∃ as, splitAlternatives key = .ok as) ↔
      ∃ k : KeyText, k.text = key.toList ∧ ∃ part ∈ k.segments, ∃ c ∈ part, isBlank c = false) ∧
    (∀ k : KeyText, k.text = key.toList → (∃ part ∈ k.segments, ∃ c ∈ part, isBlank c = false) →
      splitAlternatives key = .ok k.alternatives) ∧
    ∀ as, splitAlternatives key = .ok as → ∀ a ∈ as, splitAlternatives a = .ok [a] := by
  refine ⟨⟨?reads, ?accepts⟩, fun k hk hpart => splitAlternatives_keyText hk hpart, ?again⟩
  case reads =>
    rintro ⟨as, has⟩
    obtain ⟨hne, parts, hparts, rfl⟩ := splitAlternatives_cases has
    obtain ⟨k, hk⟩ := exists_keyText hparts
    have hsegments := segments_keyText k
    rw [hk, hparts] at hsegments
    cases hsegments
    exact ⟨k, hk, texts_ne_nil_iff.mp hne⟩
  case accepts =>
    rintro ⟨k, hk, hpart⟩
    exact ⟨_, splitAlternatives_keyText hk hpart⟩
  case again =>
    intro as has a ha
    have hmem : a ∈ Selector.alternatives key := by rwa [Selector.alternatives, has]
    obtain ⟨hcomplete, hsolid⟩ := mem_alternatives hmem
    exact splitAlternatives_of_complete hcomplete hsolid

-- Brackets and a backslash keep their comma, and a blank segment is left out.
example : splitAlternatives ":is(a, b), , c\\, d\\" = .ok [":is(a, b)", "c\\, d\\"] := by decide

end StyleTree.Selector

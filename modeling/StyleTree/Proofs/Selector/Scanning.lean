import Mathlib.Data.List.DropRight
import StyleTree.Selector.Split

/-! Where the splitter stands in a key. How it reads on depends on the open brackets, the quote and the
    backslash alone: the mode. A text is complete if it leads from the first mode back outside all brackets
    and quotes and meets no comma at the top on the way. Every alternative of a key is such a text, without
    blanks at its ends, and such a text splits into itself. -/

namespace StyleTree.Selector

/-! ### Modes -/

structure Mode where
  opened : List Char := []
  quote : Option Char := none
  escaped : Bool := false
  deriving DecidableEq, Repr

namespace Mode

/-- The mode behind a character outside quotes. There is none where the splitter fails, and none at a comma at
    the top, where it cuts. -/
def bare (m : Mode) (c : Char) : Option Mode :=
  if c = '"' ∨ c = '\'' then some { m with quote := some c }
  else if c = '[' ∨ c = '(' then some { m with opened := c :: m.opened }
  else if c = ']' ∨ c = ')' then
    match m.opened with
    | o :: rest => if o = Splitter.opening c then some { m with opened := rest } else none
    | [] => none
  else if c = ',' ∧ m.opened = [] then none
  else some m

def step (m : Mode) (c : Char) : Option Mode :=
  if m.escaped then some { m with escaped := false }
  else if c = '\\' then some { m with escaped := true }
  else
    match m.quote with
    | some q => some { m with quote := if c = q then none else some q }
    | none => m.bare c

def run (m : Mode) (cs : List Char) : Option Mode := cs.foldlM step m

theorem run_nil (m : Mode) : m.run [] = some m := rfl

theorem run_cons (m : Mode) (c : Char) (cs : List Char) : m.run (c :: cs) = (m.step c).bind fun m' => m'.run cs := by
  rw [run, List.foldlM_cons]
  rfl

theorem run_append (m : Mode) (cs ds : List Char) : m.run (cs ++ ds) = (m.run cs).bind fun m' => m'.run ds := by
  rw [run, List.foldlM_append]
  rfl

theorem run_concat (m : Mode) (cs : List Char) (c : Char) : m.run (cs ++ [c]) = (m.run cs).bind fun m' => m'.step c := by
  rw [run_append]
  simp only [run_cons, run_nil, Option.bind_fun_some]

/-! ### Ordinary characters -/

/-- The characters that the splitter does not take as they are. -/
def specials : List Char := ['\\', '"', '\'', '[', '(', ']', ')', ',']

/-- The quote, if the mode is in one, is one of the two marks. -/
def Quoted (m : Mode) : Prop := ∀ q, m.quote = some q → q = '"' ∨ q = '\''

theorem Quoted.step {m m' : Mode} {c : Char} (h : m.Quoted) (hs : m.step c = some m') : m'.Quoted := by
  rw [Mode.step] at hs
  split at hs
  · cases hs
    exact h
  split at hs
  · cases hs
    exact h
  split at hs
  · next q hq =>
    cases hs
    intro r hr
    dsimp only at hr
    split at hr
    · cases hr
    · cases hr
      exact h q hq
  · next hq =>
    rw [Mode.bare] at hs
    split at hs
    · next hc =>
      cases hs
      intro r hr
      cases hr
      exact hc
    -- The brackets leave the quote as it is.
    have hkept : m'.quote = m.quote := by
      repeat' split at hs
      all_goals cases hs
      all_goals rfl
    intro r hr
    rw [hkept, hq] at hr
    cases hr

theorem Quoted.run {m m' : Mode} {cs : List Char} (h : m.Quoted) (hr : m.run cs = some m') : m'.Quoted := by
  induction cs generalizing m with
  | nil =>
    cases hr
    exact h
  | cons c cs ih =>
    rw [run_cons] at hr
    obtain ⟨n, hn, hr⟩ := Option.bind_eq_some_iff.mp hr
    exact ih (h.step hn) hr

theorem quoted_bare (opened : List Char) (escaped : Bool) : Quoted ⟨opened, none, escaped⟩ :=
  fun _ h => nomatch h

theorem step_ordinary {m : Mode} {c : Char} (hm : m.Quoted) (hc : c ∉ specials) :
    m.step c = some { m with escaped := false } := by
  simp only [specials, List.mem_cons, List.not_mem_nil, or_false, not_or] at hc
  obtain ⟨hslash, hdouble, hsingle, hopen, hparen, hclose, hthesis, hcomma⟩ := hc
  obtain ⟨opened, quote, escaped⟩ := m
  cases escaped with
  | true => rfl
  | false =>
    cases quote with
    | none => simp [step, bare, hslash, hdouble, hsingle, hopen, hparen, hclose, hthesis, hcomma]
    | some q =>
      have hq : c ≠ q := by rcases hm q rfl with rfl | rfl <;> assumption
      simp [step, hslash, hq]

end Mode

/-! ### The splitter and its mode -/

namespace Splitter
variable {s t : Splitter} {c : Char} {m : Mode}

def mode (s : Splitter) : Mode := ⟨s.opened, s.quote, s.escaped⟩

/-- The splitter with one more character kept, in the mode behind it. -/
def read (s : Splitter) (c : Char) (m : Mode) : Splitter :=
  { s.keep c with opened := m.opened, quote := m.quote, escaped := m.escaped }

/-- What one character does: the splitter keeps it and goes to the mode behind it, cuts at a comma at the top,
    or fails. -/
theorem step_cases (s : Splitter) (c : Char) :
    (∃ m, s.mode.step c = some m ∧ s.step c = .ok (s.read c m)) ∨
      s.mode.step c = none ∧ (c = ',' ∧ s.mode = {} ∧ s.step c = .ok s.cut ∨ s.step c = .error (.unbalanced c)) := by
  obtain ⟨segments, current, opened, quote, escaped⟩ := s
  cases escaped with
  | true => exact .inl ⟨_, rfl, rfl⟩
  | false =>
    by_cases hslash : c = '\\'
    · exact .inl ⟨_, if_pos hslash, if_pos hslash⟩
    cases quote with
    | some q => exact .inl ⟨_, if_neg hslash, if_neg hslash⟩
    | none =>
      have hmode : (mode ⟨segments, current, opened, none, false⟩).step c = Mode.bare ⟨opened, none, false⟩ c :=
        if_neg hslash
      have hstep : step ⟨segments, current, opened, none, false⟩ c = bare ⟨segments, current, opened, none, false⟩ c :=
        if_neg hslash
      rw [hmode, hstep, Mode.bare, bare]
      by_cases hquote : c = '"' ∨ c = '\''
      · rw [if_pos hquote, if_pos hquote]
        exact .inl ⟨_, rfl, rfl⟩
      rw [if_neg hquote, if_neg hquote]
      by_cases hopen : c = '[' ∨ c = '('
      · rw [if_pos hopen, if_pos hopen]
        exact .inl ⟨_, rfl, rfl⟩
      rw [if_neg hopen, if_neg hopen]
      by_cases hclose : c = ']' ∨ c = ')'
      · rw [if_pos hclose, if_pos hclose]
        cases opened with
        | nil => exact .inr ⟨rfl, .inr rfl⟩
        | cons o rest =>
          dsimp only
          split
          · exact .inl ⟨_, rfl, rfl⟩
          · exact .inr ⟨rfl, .inr rfl⟩
      rw [if_neg hclose, if_neg hclose]
      by_cases hcut : c = ',' ∧ opened = []
      · rw [if_pos hcut, if_pos hcut]
        obtain ⟨hcomma, rfl⟩ := hcut
        exact .inr ⟨rfl, .inl ⟨hcomma, rfl, rfl⟩⟩
      · rw [if_neg hcut, if_neg hcut]
        exact .inl ⟨_, rfl, rfl⟩

theorem step_of_mode {s : Splitter} {c : Char} {m : Mode} (h : s.mode.step c = some m) : s.step c = .ok (s.read c m) := by
  rcases s.step_cases c with ⟨m', hm', hs⟩ | ⟨hnone, -⟩
  · cases h.symm.trans hm'
    exact hs
  · cases h.symm.trans hnone

end Splitter

/-! ### Complete texts -/

/-- The text leads back outside brackets and quotes, at most with a backslash at its end. -/
def Complete (cs : List Char) : Prop := ∃ escaped, Mode.run {} cs = some ⟨[], none, escaped⟩

namespace Splitter
variable {s t : Splitter} {cs : List Char}

/-- A splitter that ends outside brackets and quotes has its segments. -/
theorem finish_eq_ok {parts : List (List Char)} (h : s.finish = .ok parts) :
    s.quote = none ∧ s.opened = [] ∧ parts = s.cut.segments.reverse := by
  rw [finish] at h
  split at h
  · cases h
  · cases h
  · next hquote hopened =>
    cases h
    exact ⟨hquote, hopened, rfl⟩

/-- The segments of a text, from where the splitter stands before it. -/
def scan (s : Splitter) (cs : List Char) : Except KeyFault (List (List Char)) := do (← cs.foldlM step s).finish

theorem scan_cons (s : Splitter) (c : Char) (cs : List Char) : s.scan (c :: cs) = (s.step c).bind fun t => t.scan cs := by
  rw [scan, List.foldlM_cons]
  cases s.step c <;> rfl

theorem exists_of_scan_cons {c : Char} {parts : List (List Char)} (h : s.scan (c :: cs) = .ok parts) :
    ∃ t, s.step c = .ok t ∧ t.scan cs = .ok parts := by
  rw [scan_cons] at h
  cases hc : s.step c with
  | error fault =>
    rw [hc] at h
    cases h
  | ok t =>
    rw [hc] at h
    exact ⟨t, rfl, h⟩

theorem scan_append (h : cs.foldlM step s = .ok t) (ds : List Char) : s.scan (cs ++ ds) = t.scan ds := by
  rw [scan, List.foldlM_append, h]
  rfl

/-- What the splitter has read: segments that lead back to where it begins, and a text that leads to its mode. -/
structure Reads (s : Splitter) : Prop where
  segments : ∀ segment ∈ s.segments, Mode.run {} segment = some {}
  current : Mode.run {} s.current.reverse = some s.mode

theorem Reads.step {c : Char} (h : s.Reads) (ht : s.step c = .ok t) : t.Reads := by
  rcases s.step_cases c with ⟨m, hm, hs⟩ | ⟨-, ⟨-, hmode, hs⟩ | hs⟩ <;> cases hs.symm.trans ht
  · refine ⟨h.segments, ?_⟩
    rw [read, keep, List.reverse_cons, Mode.run_concat, h.current]
    exact hm
  · refine ⟨List.forall_mem_cons.mpr ⟨h.current.trans (congrArg some hmode), h.segments⟩, ?_⟩
    exact hmode ▸ rfl

/-- Only the last segment may have a backslash at its end. -/
theorem Reads.scan {parts : List (List Char)} (h : s.Reads) (hs : s.scan cs = .ok parts) :
    ∃ closed last, parts = closed ++ [last] ∧ (∀ part ∈ closed, Mode.run {} part = some {}) ∧ Complete last := by
  induction cs generalizing s with
  | nil =>
    obtain ⟨hquote, hopened, rfl⟩ := finish_eq_ok hs
    refine ⟨s.segments.reverse, s.current.reverse, by simp [cut], by simpa using h.segments, s.escaped, ?_⟩
    rw [h.current, mode, hquote, hopened]
  | cons c cs ih =>
    obtain ⟨t, hc, ht⟩ := exists_of_scan_cons hs
    exact ih (h.step hc) ht

/-- A text that the modes lead through is read without a cut. -/
theorem foldlM_of_run {m : Mode} (h : s.mode.run cs = some m) : cs.foldlM step s =
    .ok { s with current := cs.reverse ++ s.current, opened := m.opened, quote := m.quote, escaped := m.escaped } := by
  induction cs generalizing s with
  | nil =>
    cases h
    rfl
  | cons c cs ih =>
    rw [Mode.run_cons] at h
    obtain ⟨m', hm', h⟩ := Option.bind_eq_some_iff.mp h
    rw [List.foldlM_cons, step_of_mode hm']
    refine (ih (s := s.read c m') h).trans ?_
    simp [read, keep]

end Splitter

theorem segments_eq_ok {key : List Char} {parts : List (List Char)} (h : segments key = .ok parts) :
    ∃ closed last, parts = closed ++ [last] ∧ (∀ part ∈ closed, Mode.run {} part = some {}) ∧ Complete last := by
  have hreads : Splitter.Reads {} := ⟨fun _ hnil => (List.not_mem_nil hnil).elim, rfl⟩
  exact hreads.scan h

theorem complete_of_mem_segments {key : List Char} {parts : List (List Char)} (h : segments key = .ok parts) :
    ∀ part ∈ parts, Complete part := by
  obtain ⟨closed, last, rfl, hclosed, hlast⟩ := segments_eq_ok h
  rw [List.forall_mem_append]
  exact ⟨fun part hpart => ⟨false, hclosed part hpart⟩, by simpa using hlast⟩

theorem segments_of_complete {cs : List Char} (h : Complete cs) : segments cs = .ok [cs] := by
  obtain ⟨escaped, h⟩ := h
  have hread := Splitter.foldlM_of_run (s := {}) h
  rw [segments, hread]
  simp [Bind.bind, Except.bind, Splitter.finish, Splitter.cut]

/-! ### Blanks -/

theorem not_mem_specials_of_isBlank {c : Char} (h : Text.isBlank c = true) : c ∉ Mode.specials := by
  have hspecials : Mode.specials.all (fun c => !Text.isBlank c) = true := by decide
  intro hc
  have hnot := List.all_eq_true.mp hspecials c hc
  rw [h] at hnot
  cases hnot

theorem Complete.dropWhile {cs : List Char} (h : Complete cs) : Complete (cs.dropWhile Text.isBlank) := by
  induction cs with
  | nil => exact h
  | cons c cs ih =>
    rw [List.dropWhile_cons]
    split
    · next hc =>
      obtain ⟨escaped, h⟩ := h
      rw [Mode.run_cons, Mode.step_ordinary (Mode.quoted_bare [] false) (not_mem_specials_of_isBlank hc)] at h
      exact ih ⟨escaped, h⟩
    · exact h

theorem Complete.rdropWhile {cs : List Char} (h : Complete cs) : Complete (cs.rdropWhile Text.isBlank) := by
  induction cs using List.reverseRecOn with
  | nil => exact h
  | append_singleton cs c ih =>
    rw [List.rdropWhile_concat]
    split
    · next hc =>
      obtain ⟨escaped, h⟩ := h
      rw [Mode.run_concat] at h
      obtain ⟨⟨opened, quote, begun⟩, hm, hstep⟩ := Option.bind_eq_some_iff.mp h
      -- A blank changes neither the brackets nor the quote, so these are closed before it.
      rw [Mode.step_ordinary ((Mode.quoted_bare [] false).run hm) (not_mem_specials_of_isBlank hc)] at hstep
      cases hstep
      exact ih ⟨begun, hm⟩
    · exact h

theorem Complete.trimChars {cs : List Char} (h : Complete cs) : Complete (Text.trimChars cs) :=
  h.dropWhile.rdropWhile

/-! ### Alternatives -/

structure Trimmed (cs : List Char) : Prop where
  head : ∀ c ∈ cs.head?, Text.isBlank c = false
  last : ∀ c ∈ cs.getLast?, Text.isBlank c = false

theorem trimmed_trimChars (cs : List Char) : Trimmed (Text.trimChars cs) where
  head c hc := by
    have hprefix : Text.trimChars cs <+: cs.dropWhile Text.isBlank := List.rdropWhile_prefix ..
    obtain ⟨rest, hrest⟩ := hprefix
    have hhead : c ∈ (cs.dropWhile Text.isBlank).head? := by
      rw [← hrest, List.head?_append, hc]
      rfl
    have hnot := List.head?_dropWhile_not Text.isBlank cs
    rw [hhead] at hnot
    exact hnot
  last c hc := by
    have hnot := List.head?_dropWhile_not Text.isBlank (cs.dropWhile Text.isBlank).reverse
    rw [Text.trimChars, List.getLast?_reverse] at hc
    rw [hc] at hnot
    exact hnot

theorem dropWhile_of_head {cs : List Char} (h : ∀ c ∈ cs.head?, Text.isBlank c = false) :
    cs.dropWhile Text.isBlank = cs := by
  cases cs with
  | nil => rfl
  | cons c cs => rw [List.dropWhile_cons, h c rfl, if_neg Bool.false_ne_true]

theorem Trimmed.trimChars_eq {cs : List Char} (h : Trimmed cs) : Text.trimChars cs = cs := by
  have hlast : ∀ c ∈ cs.reverse.head?, Text.isBlank c = false := by
    rw [List.head?_reverse]
    exact h.last
  rw [Text.trimChars, dropWhile_of_head h.head, dropWhile_of_head hlast, List.reverse_reverse]

/-- A text without blanks at its ends. -/
structure Solid (cs : List Char) : Prop extends Trimmed cs where
  nonempty : cs ≠ []

theorem splitAlternatives_cases {key : String} {as : List String} (h : splitAlternatives key = .ok as) :
    as ≠ [] ∧ ∃ parts, segments key.toList = .ok parts ∧
      as = ((parts.map Text.trimChars).filter (· ≠ [])).map String.ofList := by
  rw [splitAlternatives] at h
  cases hs : segments key.toList with
  | error fault =>
    rw [hs] at h
    cases h
  | ok parts =>
    rw [hs] at h
    simp only [Bind.bind, Except.bind] at h
    split at h
    · cases h
    · next hne =>
      cases h
      refine ⟨fun hnil => ?_, parts, rfl, rfl⟩
      exact hne (List.isEmpty_iff.mpr (List.map_eq_nil_iff.mp hnil))

/-- The alternatives of a key, none for a key that does not split. -/
def alternatives (key : String) : List String := (splitAlternatives key).toOption.getD []

theorem mem_alternatives {key a : String} (ha : a ∈ alternatives key) : Complete a.toList ∧ Solid a.toList := by
  rw [alternatives] at ha
  cases hs : splitAlternatives key with
  | error fault =>
    rw [hs] at ha
    cases ha
  | ok as =>
    obtain ⟨-, parts, hparts, rfl⟩ := splitAlternatives_cases hs
    rw [hs] at ha
    simp only [Except.toOption, Option.getD_some, List.mem_map, List.mem_filter, decide_eq_true_eq] at ha
    obtain ⟨cs, ⟨⟨part, hpart, rfl⟩, hne⟩, rfl⟩ := ha
    rw [String.toList_ofList]
    exact ⟨(complete_of_mem_segments hparts part hpart).trimChars, trimmed_trimChars part, hne⟩

/-- One selector splits into itself. -/
theorem splitAlternatives_of_complete {s : String} (h : Complete s.toList) (hs : Solid s.toList) :
    splitAlternatives s = .ok [s] := by
  rw [splitAlternatives, segments_of_complete h]
  simp [Bind.bind, Except.bind, hs.trimChars_eq, hs.nonempty]

end StyleTree.Selector

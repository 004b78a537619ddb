import StyleTree.Proofs.Selector.Scanning
import StyleTree.Selector.Combine

/-! Selectors below selectors. A path put in the place of a mark is read from where the mark stands. Outside
    quotes the brackets around it do not matter, as it closes all that it opens; inside quotes it must not
    end the quote, and behind a backslash it must begin with an ordinary character. Where this is so at
    every mark, the alternatives of keys make one selector, however deep they are nested. -/

namespace StyleTree.Selector

namespace Mode
variable {m m' : Mode} {c : Char} {cs parent rest : List Char}

/-! ### Texts inside others -/

def within (m : Mode) (outer : List Char) : Mode := { m with opened := m.opened ++ outer }

theorem bare_within (h : m.bare c = some m') (outer : List Char) : (m.within outer).bare c = some (m'.within outer) := by
  rw [bare] at h ⊢
  by_cases hquote : c = '"' ∨ c = '\''
  · rw [if_pos hquote] at h ⊢
    cases h
    rfl
  rw [if_neg hquote] at h ⊢
  by_cases hopen : c = '[' ∨ c = '('
  · rw [if_pos hopen] at h ⊢
    cases h
    rfl
  rw [if_neg hopen] at h ⊢
  by_cases hclose : c = ']' ∨ c = ')'
  · rw [if_pos hclose] at h ⊢
    obtain ⟨opened, quote, escaped⟩ := m
    cases opened with
    | nil => cases h
    | cons o opened =>
      dsimp only [within, List.cons_append] at h ⊢
      split at h
      · next ho =>
        cases h
        rw [if_pos ho]
      · cases h
  rw [if_neg hclose] at h ⊢
  by_cases hcut : c = ',' ∧ m.opened = []
  · rw [if_pos hcut] at h
    cases h
  · have hcut' : ¬(c = ',' ∧ (m.within outer).opened = []) := by
      rintro ⟨hcomma, hnil⟩
      exact hcut ⟨hcomma, (List.append_eq_nil_iff.mp hnil).1⟩
    rw [if_neg hcut] at h
    cases h
    rw [if_neg hcut']

theorem step_within (h : m.step c = some m') (outer : List Char) : (m.within outer).step c = some (m'.within outer) := by
  rw [step] at h ⊢
  by_cases hescaped : m.escaped = true
  · have hescaped' : (m.within outer).escaped = true := hescaped
    rw [if_pos hescaped] at h
    cases h
    rw [if_pos hescaped']
    rfl
  have hescaped' : ¬(m.within outer).escaped = true := hescaped
  rw [if_neg hescaped] at h
  rw [if_neg hescaped']
  by_cases hslash : c = '\\'
  · rw [if_pos hslash] at h ⊢
    cases h
    rfl
  rw [if_neg hslash] at h ⊢
  have hquote : (m.within outer).quote = m.quote := rfl
  rw [hquote]
  cases hq : m.quote with
  | some q =>
    rw [hq] at h
    cases h
    rfl
  | none =>
    rw [hq] at h
    exact bare_within h outer

theorem run_within (h : m.run cs = some m') (outer : List Char) : (m.within outer).run cs = some (m'.within outer) := by
  induction cs generalizing m with
  | nil =>
    cases h
    rfl
  | cons c cs ih =>
    rw [run_cons] at h
    obtain ⟨n, hn, h⟩ := Option.bind_eq_some_iff.mp h
    rw [run_cons, step_within hn]
    exact ih h

/-- A text without the quote does not end it. -/
theorem run_quoted {opened : List Char} {q : Char} {escaped : Bool} (hq : q ∉ cs) :
    ∃ escaped', run ⟨opened, some q, escaped⟩ cs = some ⟨opened, some q, escaped'⟩ := by
  induction cs generalizing escaped with
  | nil => exact ⟨escaped, rfl⟩
  | cons c cs ih =>
    obtain ⟨hc, hcs⟩ := List.ne_and_not_mem_of_not_mem_cons hq
    have hstep : ∃ escaped', step ⟨opened, some q, escaped⟩ c = some ⟨opened, some q, escaped'⟩ := by
      cases escaped with
      | true => exact ⟨false, rfl⟩
      | false => by_cases hslash : c = '\\' <;> simp [step, hslash, hc.symm]
    obtain ⟨escaped', hstep⟩ := hstep
    rw [run_cons, hstep]
    exact ih hcs

/-! ### Paths in the place of marks -/

/-- A mark that is met in the mode, with `rest` behind it, can have the parent path in its place. -/
structure Takes (m : Mode) (parent rest : List Char) : Prop where
  quoted : ∀ q ∈ m.quote, q ∉ parent
  escaped : m.escaped = true → ∀ c ∈ parent.head?, c ∉ specials
  -- The path may end in a backslash, and then what stands behind the mark is read as plain.
  behind : ∀ n ∈ m.run parent, n.escaped = true → ∀ c ∈ rest.head?, c ∉ parentMark :: specials

/-- Every mark that is met from the mode on can have the parent path in its place. -/
def MarksFit (parent : List Char) : Mode → List Char → Prop
  | _, [] => True
  | m, c :: rest => (c = parentMark → m.Takes parent rest) ∧ ∀ n ∈ m.step c, MarksFit parent n rest

instance (m : Mode) (parent rest : List Char) : Decidable (m.Takes parent rest) :=
  have : ∀ (o : Option Char) (cs : List Char), Decidable (∀ c ∈ o, c ∉ cs) := fun o _ => Option.decidableForallMem o
  decidable_of_iff ((∀ q ∈ m.quote, q ∉ parent) ∧ (m.escaped = true → ∀ c ∈ parent.head?, c ∉ specials) ∧
      ∀ n ∈ m.run parent, n.escaped = true → ∀ c ∈ rest.head?, c ∉ parentMark :: specials)
    ⟨fun ⟨quoted, escaped, behind⟩ => ⟨quoted, escaped, behind⟩, fun h => ⟨h.quoted, h.escaped, h.behind⟩⟩

instance decidableMarksFit (parent : List Char) : (m : Mode) → (cs : List Char) → Decidable (MarksFit parent m cs)
  | _, [] => isTrue trivial
  | m, c :: rest =>
    have : DecidablePred (MarksFit parent · rest) := fun n => decidableMarksFit parent n rest
    inferInstanceAs (Decidable ((c = parentMark → m.Takes parent rest) ∧ ∀ n ∈ m.step c, MarksFit parent n rest))

theorem Takes.run (h : m.Takes parent rest) (hm : m.Quoted) (hp : Complete parent) :
    ∃ escaped, m.run parent = some { m with escaped } := by
  cases parent with
  | nil => exact ⟨m.escaped, rfl⟩
  | cons c cs =>
    -- Behind a backslash the path begins with an ordinary character, which is read as if there were none.
    have hplain : m.run (c :: cs) = { m with escaped := false }.run (c :: cs) := by
      cases he : m.escaped with
      | false => rw [← he]
      | true =>
        have hc := h.escaped he c rfl
        have hm' : Mode.Quoted { m with escaped := false } := hm
        rw [run_cons, run_cons, step_ordinary hm hc, step_ordinary hm' hc]
    rw [hplain]
    obtain ⟨opened, quote, escaped⟩ := m
    cases quote with
    | none =>
      obtain ⟨escaped', hrun⟩ := hp
      exact ⟨escaped', run_within hrun opened⟩
    | some q => exact run_quoted (h.quoted q rfl)

end Mode

/-- The characters with the parent path in the place of each mark. -/
def fill (parent cs : List Char) : List Char := cs.flatMap fun c => if c = parentMark then parent else [c]

theorem fill_cons (parent : List Char) (c : Char) (cs : List Char) :
    fill parent (c :: cs) = (if c = parentMark then parent else [c]) ++ fill parent cs := rfl

/-- A path that ends in a backslash makes the character behind the mark plain, which it is anyway. -/
theorem Mode.Takes.run_rest {m m' : Mode} {parent rest : List Char} {escaped : Bool} (h : m.Takes parent rest)
    (hm : m.Quoted) (hparent : m.run parent = some { m with escaped })
    (hrest : Mode.run { m with escaped := false } (fill parent rest) = some m') :
    ∃ escaped', Mode.run { m with escaped } (fill parent rest) = some { m' with escaped := escaped' } := by
  cases escaped with
  | false => exact ⟨m'.escaped, hrest⟩
  | true =>
    cases rest with
    | nil =>
      cases hrest
      exact ⟨true, rfl⟩
    | cons c rest =>
      have hc := h.behind _ hparent rfl c rfl
      simp only [List.mem_cons, not_or] at hc
      have hm' : ∀ escaped, Mode.Quoted { m with escaped } := fun _ => hm
      rw [fill_cons, if_neg hc.1, List.singleton_append, Mode.run_cons, Mode.step_ordinary (hm' _) hc.2] at hrest ⊢
      exact ⟨m'.escaped, hrest⟩

theorem run_fill {m m' : Mode} {parent cs : List Char} (hm : m.Quoted) (hp : Complete parent)
    (hfit : Mode.MarksFit parent m cs) (h : m.run cs = some m') :
    ∃ escaped, m.run (fill parent cs) = some { m' with escaped } := by
  induction cs generalizing m with
  | nil =>
    cases h
    exact ⟨_, rfl⟩
  | cons c cs ih =>
    rw [Mode.run_cons] at h
    obtain ⟨n, hn, h⟩ := Option.bind_eq_some_iff.mp h
    obtain ⟨escaped, hrest⟩ := ih (hm.step hn) (hfit.2 n hn) h
    rw [fill_cons]
    by_cases hc : c = parentMark
    · have hordinary : parentMark ∉ Mode.specials := by decide
      have hmark := Mode.step_ordinary hm (hc ▸ hordinary)
      cases hn.symm.trans hmark
      have htakes := hfit.1 hc
      obtain ⟨escaped', hparent⟩ := htakes.run hm hp
      obtain ⟨escaped'', hfill⟩ := htakes.run_rest hm hparent hrest
      rw [if_pos hc, Mode.run_append, hparent]
      exact ⟨escaped'', hfill⟩
    · rw [if_neg hc, List.singleton_append, Mode.run_cons, hn]
      exact ⟨escaped, hrest⟩

/-! ### Complete paths -/

theorem toList_nest (path a : String) : (nest path a).toList =
    if parentMark ∈ a.toList then fill path.toList a.toList
    else if a.toList.head? = some ':' then path.toList ++ a.toList
    else path.toList ++ ([' '] ++ a.toList) := by
  simp only [nest, Alternative.classify, List.contains_iff_mem, if_true]
  split_ifs
  · exact String.toList_ofList
  · exact String.toList_append
  · dsimp only
    rw [String.toList_append, String.toList_append, List.append_assoc]
    rfl

theorem toList_top (a : String) : (top a).toList =
    if parentMark ∈ a.toList then Text.trimChars (fill [] a.toList) else a.toList := by
  simp only [top, Alternative.classify, List.contains_iff_mem, Bool.false_eq_true, if_false]
  split_ifs
  · dsimp only [Text.trim, replaceParent]
    rw [String.toList_ofList, String.toList_ofList]
    rfl
  · rfl
  · rfl

section
variable {parent cs : List Char} {path a : String}

theorem Complete.fill (h : Complete cs) (hp : Complete parent) (hfit : Mode.MarksFit parent {} cs) :
    Complete (fill parent cs) := by
  obtain ⟨escaped, h⟩ := h
  obtain ⟨escaped', hfill⟩ := run_fill (Mode.quoted_bare [] false) hp hfit h
  exact ⟨escaped', hfill⟩

theorem Complete.cons {c : Char} (h : Complete cs) (hc : c ∉ Mode.specials) : Complete (c :: cs) := by
  obtain ⟨escaped, h⟩ := h
  refine ⟨escaped, ?_⟩
  rw [Mode.run_cons, Mode.step_ordinary (Mode.quoted_bare [] false) hc]
  exact h

/-- What begins with an ordinary character may follow a complete text, even one that ends in a backslash. -/
theorem Complete.append (hp : Complete parent) (h : Complete cs) (hc : ∀ c ∈ cs.head?, c ∉ Mode.specials) :
    Complete (parent ++ cs) := by
  obtain ⟨escaped, hp⟩ := hp
  obtain ⟨escaped', h⟩ := h
  cases cs with
  | nil => exact ⟨escaped, by rw [List.append_nil, hp]⟩
  | cons c cs =>
    have hstep := fun e => Mode.step_ordinary (Mode.quoted_bare [] e) (hc c rfl)
    rw [Mode.run_cons, hstep] at h
    refine ⟨escaped', ?_⟩
    rw [Mode.run_append, hp, Option.bind_some, Mode.run_cons, hstep]
    exact h

theorem Complete.nest (hp : Complete path.toList) (h : Complete a.toList)
    (hfit : Mode.MarksFit path.toList {} a.toList) : Complete (nest path a).toList := by
  rw [toList_nest]
  split_ifs with hmark hcolon
  · exact h.fill hp hfit
  · refine hp.append h fun c hc => ?_
    cases hcolon.symm.trans hc
    decide
  · have hblank : ' ' ∉ Mode.specials := by decide
    refine hp.append (h.cons hblank) fun c hc => ?_
    cases hc
    exact hblank

theorem Complete.top (h : Complete a.toList) (hfit : Mode.MarksFit [] {} a.toList) : Complete (top a).toList := by
  rw [toList_top]
  split_ifs
  · have hnone : Complete [] := ⟨false, rfl⟩
    exact (h.fill hnone hfit).trimChars
  · exact h

end

/-! ### Solid paths -/

section
variable {parent cs : List Char} {path a : String}

theorem Solid.fill (h : Solid cs) (hp : Solid parent) : Solid (fill parent cs) where
  head x hx := by
    cases cs with
    | nil => cases hx
    | cons c cs =>
      rw [fill_cons] at hx
      split at hx
      · rw [List.head?_append_of_ne_nil _ hp.nonempty] at hx
        exact hp.head x hx
      · cases hx
        exact h.head x rfl
  last x hx := by
    rcases List.eq_nil_or_concat cs with rfl | ⟨init, c, rfl⟩
    · cases hx
    · rw [List.concat_eq_append] at h
      rw [List.concat_eq_append, Selector.fill, List.flatMap_append, List.flatMap_singleton] at hx
      split at hx
      · rw [List.getLast?_append_of_ne_nil _ hp.nonempty] at hx
        exact hp.last x hx
      · rw [List.getLast?_concat] at hx
        cases hx
        exact h.last x List.getLast?_concat
  nonempty := by
    cases cs with
    | nil => exact absurd rfl h.nonempty
    | cons c cs =>
      rw [fill_cons]
      split
      · exact List.append_ne_nil_of_left_ne_nil hp.nonempty _
      · exact List.cons_ne_nil c _

theorem Solid.append (hp : Solid parent) (h : Solid cs) (between : List Char) : Solid (parent ++ (between ++ cs)) where
  head := by
    rw [List.head?_append_of_ne_nil _ hp.nonempty]
    exact hp.head
  last := by
    rw [← List.append_assoc, List.getLast?_append_of_ne_nil _ h.nonempty]
    exact h.last
  nonempty := List.append_ne_nil_of_left_ne_nil hp.nonempty _

theorem Solid.nest (hp : Solid path.toList) (h : Solid a.toList) : Solid (nest path a).toList := by
  rw [toList_nest]
  split_ifs
  · exact h.fill hp
  · exact hp.append h []
  · exact hp.append h [' ']

theorem Solid.top (h : Solid a.toList) (hne : top a ≠ "") : Solid (top a).toList := by
  have hne' : (Selector.top a).toList ≠ [] := fun hnil => hne (String.toList_eq_nil_iff.mp hnil)
  rw [toList_top] at hne' ⊢
  split_ifs with hmark
  · rw [if_pos hmark] at hne'
    exact ⟨trimmed_trimChars _, hne'⟩
  · exact h

end

/-! ### Alternatives one below the other -/

/-- The path of an alternative below the path over it, if there is one. -/
def join (path? : Option String) (a : String) : String :=
  match path? with
  | none => top a
  | some path => nest path a

def descend (path? : Option String) (as : List String) : Option String :=
  as.foldl (fun path? a => some (join path? a)) path?

theorem descend_concat (path? : Option String) (as : List String) (a : String) :
    descend path? (as ++ [a]) = some (join (descend path? as) a) :=
  List.foldl_concat ..

/-- Every mark in the alternatives can have the path over it in its place. -/
def AllMarksFit : Option String → List String → Prop
  | _, [] => True
  | path?, a :: rest =>
    Mode.MarksFit (path?.getD "").toList {} a.toList ∧ AllMarksFit (some (join path? a)) rest

instance decidableAllMarksFit : (path? : Option String) → (as : List String) → Decidable (AllMarksFit path? as)
  | _, [] => isTrue trivial
  | path?, a :: rest =>
    have := decidableAllMarksFit (some (join path? a)) rest
    inferInstanceAs (Decidable (Mode.MarksFit (path?.getD "").toList {} a.toList ∧ AllMarksFit (some (join path? a)) rest))

section
variable {path? : Option String} {as : List String}

theorem complete_descend (hp : ∀ path ∈ path?, Complete path.toList) (ha : ∀ a ∈ as, Complete a.toList)
    (hfit : AllMarksFit path? as) : ∀ path ∈ descend path? as, Complete path.toList := by
  induction as generalizing path? with
  | nil => exact hp
  | cons a rest ih =>
    obtain ⟨ha, hrest⟩ := List.forall_mem_cons.mp ha
    obtain ⟨hmarks, hfit⟩ := hfit
    refine ih (fun path hpath => ?_) hrest hfit
    cases hpath
    cases path? with
    | none => exact ha.top hmarks
    | some path => exact (hp path rfl).nest ha hmarks

theorem solid_descend (hp : ∀ path ∈ path?, Solid path.toList) (ha : ∀ a ∈ as, Solid a.toList)
    (htop : path? = none → ∀ a ∈ as.head?, top a ≠ "") : ∀ path ∈ descend path? as, Solid path.toList := by
  induction as generalizing path? with
  | nil => exact hp
  | cons a rest ih =>
    obtain ⟨ha, hrest⟩ := List.forall_mem_cons.mp ha
    refine ih (fun path hpath => ?_) hrest fun h => nomatch h
    cases hpath
    cases path? with
    | none => exact ha.top (htop rfl a rfl)
    | some path => exact (hp path rfl).nest ha

end

/-- A path with quotes of one kind can stand inside quotes of the other kind. -/
example : AllMarksFit none ["a[b='c']", "&[title=\"&\"]"] ∧ ¬AllMarksFit none ["a[b='c']", "&[title='&']"] := by decide

end StyleTree.Selector

import StyleTree.Proofs.Text.Joining
import StyleTree.Sheet.Css

/-! What can be read off the text of a stylesheet. If no text in it holds the characters that end it, each piece of
    a stylesheet can be read off the front of what is written: a declaration up to its semicolon, a rule up to
    its brace, and a block of an at-rule likewise. A block is told from a rule by what comes first behind the
    opening brace, another brace or a semicolon. -/

namespace StyleTree

open Text

/-! ### Plain sheets -/

/-- The braces and the semicolon, which end the texts in a stylesheet. -/
def cssStops : List Char := ['\x7b', '\x7d', ';']

/-- A declaration can be read up to its colon and its semicolon. -/
structure PlainDeclaration (d : String × String) : Prop where
  property : d.1.toList.Disjoint (':' :: cssStops)
  value : d.2.toList.Disjoint cssStops

/-- A rule has selectors and declarations, and no text of it holds a character that ends it. -/
structure StyleRule.Plain (r : StyleRule) : Prop where
  selectors : r.selectors ≠ []
  selector : ∀ s ∈ r.selectors, s.toList.Disjoint (',' :: cssStops)
  declarations : r.declarations ≠ []
  declaration : ∀ d ∈ r.declarations, PlainDeclaration d

/-- The unit is a plain rule, and no raw text. -/
def SheetUnit.Plain (u : SheetUnit) : Prop := ∃ r, u.rule? = some r ∧ r.Plain

structure GroupedSheet.Plain (g : GroupedSheet) : Prop where
  root : ∀ u ∈ g.root, u.Plain
  units : ∀ a ∈ g.atRules, ∀ u ∈ a.units, u.Plain
  header : ∀ a ∈ g.atRules, a.header.toList.Disjoint cssStops

instance decidableDisjoint (l l' : List Char) : Decidable (l.Disjoint l') :=
  decidable_of_iff ((l.all fun c => !l'.elem c) = true) (by simp [List.Disjoint])

instance decidablePlainDeclaration : DecidablePred PlainDeclaration := fun d =>
  decidable_of_iff (d.1.toList.Disjoint (':' :: cssStops) ∧ d.2.toList.Disjoint cssStops)
    ⟨fun ⟨hp, hv⟩ => ⟨hp, hv⟩, fun h => ⟨h.property, h.value⟩⟩

instance StyleRule.decidablePlain : DecidablePred StyleRule.Plain := fun r =>
  decidable_of_iff ((r.selectors ≠ [] ∧ ∀ s ∈ r.selectors, s.toList.Disjoint (',' :: cssStops)) ∧
      r.declarations ≠ [] ∧ ∀ d ∈ r.declarations, PlainDeclaration d)
    ⟨fun ⟨⟨hs, hs'⟩, hd, hd'⟩ => ⟨hs, hs', hd, hd'⟩,
      fun h => ⟨⟨h.selectors, h.selector⟩, h.declarations, h.declaration⟩⟩

instance SheetUnit.decidablePlain : DecidablePred SheetUnit.Plain
  | .group r | .solo r => decidable_of_iff r.Plain (by simp [SheetUnit.Plain, SheetUnit.rule?])
  | .raw _ => .isFalse (by simp [SheetUnit.Plain, SheetUnit.rule?])

instance GroupedSheet.decidablePlain : DecidablePred GroupedSheet.Plain := fun g =>
  decidable_of_iff ((∀ u ∈ g.root, u.Plain) ∧
      ∀ a ∈ g.atRules, (∀ u ∈ a.units, u.Plain) ∧ a.header.toList.Disjoint cssStops)
    ⟨fun ⟨hroot, hrest⟩ => ⟨hroot, fun a ha => (hrest a ha).1, fun a ha => (hrest a ha).2⟩,
      fun h => ⟨h.root, fun a ha => ⟨h.units a ha, h.header a ha⟩⟩⟩

/-- The selectors and declarations of units, whether groups or not. -/
def SheetUnit.rules (us : List SheetUnit) : List StyleRule := us.filterMap SheetUnit.rule?

/-- A header and the rules of its block. -/
abbrev CssBlock := String × List StyleRule

/-- The blocks of at-rules that have units, under their headers. -/
def GroupedSheet.blocks (g : GroupedSheet) : List CssBlock :=
  (g.atRules.filter fun a => !a.units.isEmpty).map fun a => (a.header, SheetUnit.rules a.units)

structure CssBlock.Plain (b : CssBlock) : Prop where
  header : b.1.toList.Disjoint cssStops
  rules : b.2 ≠ []
  rule : ∀ r ∈ b.2, r.Plain

/-- A text, and items in braces behind it. -/
def CssStyle.braced (s : CssStyle) (opening head : String) (items : List String) : String :=
  head ++ opening ++ String.join items ++ "\x7d" ++ s.endLine

/-- The text of a block. -/
def CssBlock.css (s : CssStyle) (b : CssBlock) : String := s.braced s.openAtRule b.1 (b.2.map (StyleRule.css s))

/-! ### Stops -/

/-- The first character of the text that ends one is `c`. -/
def StopsAt (c : Char) (t : List Char) : Prop := c ∈ cssStops ∧ ∃ a r, t = a ++ c :: r ∧ a.Disjoint cssStops

theorem StopsAt.cons {c : Char} (hc : c ∈ cssStops) (t : List Char) : StopsAt c (c :: t) :=
  ⟨hc, [], t, rfl, List.disjoint_nil_left _⟩

theorem StopsAt.append {c : Char} {t : List Char} (h : StopsAt c t) (r : List Char) : StopsAt c (t ++ r) := by
  obtain ⟨hc, a, r', rfl, ha⟩ := h
  exact ⟨hc, a, r' ++ r, by rw [List.append_assoc, List.cons_append], ha⟩

theorem StopsAt.behind {c : Char} {a t : List Char} (h : StopsAt c t) (ha : a.Disjoint cssStops) : StopsAt c (a ++ t) := by
  obtain ⟨hc, a', r, rfl, ha'⟩ := h
  exact ⟨hc, a ++ a', r, (List.append_assoc ..).symm, List.disjoint_append_left.mpr ⟨ha, ha'⟩⟩

theorem StopsAt.ne_nil {c : Char} {t : List Char} (h : StopsAt c t) : t ≠ [] := by
  obtain ⟨-, a, r, rfl, -⟩ := h
  simp

theorem StopsAt.unique {c c' : Char} {t : List Char} (h : StopsAt c t) (h' : StopsAt c' t) : c = c' := by
  obtain ⟨hc, a, r, rfl, ha⟩ := h
  obtain ⟨hc', a', r', heq, ha'⟩ := h'
  exact (eq_of_append_stop ha ha' hc hc' heq).2.1

theorem eq_of_brace {a a' b b' t t' : List Char} (ha : a.Disjoint cssStops) (ha' : a'.Disjoint cssStops)
    (hb : b.Disjoint cssStops) (hb' : b'.Disjoint cssStops) (h : a ++ (b ++ '\x7b' :: t) = a' ++ (b' ++ '\x7b' :: t')) :
    a ++ b = a' ++ b' ∧ t = t' := by
  rw [← List.append_assoc, ← List.append_assoc a'] at h
  obtain ⟨hbefore, -, hbehind⟩ := eq_of_append_stop (List.disjoint_append_left.mpr ⟨ha, hb⟩)
    (List.disjoint_append_left.mpr ⟨ha', hb'⟩) (by decide) (by decide) h
  exact ⟨hbefore, hbehind⟩

/-! ### The marks of a style -/

/-- An opening brace with characters around it that end nothing. -/
def Opens (opening : String) : Prop :=
  ∃ before behind, opening.toList = before ++ '\x7b' :: behind ∧ before.Disjoint cssStops ∧ behind.Disjoint cssStops

/-- The marks of a style stand where they are looked for. -/
structure CssStyle.Readable (s : CssStyle) : Prop where
  separator : ∃ blank, s.selectorSeparator.toList = ',' :: blank ∧ blank.Disjoint cssStops
  openRule : Opens s.openRule
  openAtRule : Opens s.openAtRule
  indent : s.indent.toList.Disjoint (':' :: cssStops)

theorem CssStyle.readable_ofMinify (minify : Bool) : (CssStyle.ofMinify minify).Readable := by
  cases minify with
  | true =>
    refine ⟨⟨[], by decide, ?_⟩, ⟨[], [], by decide, ?_, ?_⟩, ⟨[' '], [], by decide, ?_, ?_⟩, ?_⟩
    all_goals simp [cssStops, ofMinify, compact]
  | false =>
    refine ⟨⟨[' '], by decide, ?_⟩, ⟨[' '], ['\n'], by decide, ?_, ?_⟩, ⟨[' '], ['\n'], by decide, ?_, ?_⟩, ?_⟩
    all_goals simp [cssStops, ofMinify, pretty]

section
variable {s : CssStyle}

theorem CssStyle.Readable.separator_disjoint (hs : s.Readable) : s.selectorSeparator.toList.Disjoint cssStops := by
  obtain ⟨blank, hblank, hd⟩ := hs.separator
  rw [hblank]
  exact List.disjoint_cons_left.mpr ⟨by decide, hd⟩

/-! ### Items in braces -/

section
variable {α : Type} {P : α → Prop} {f : α → String} {opening : String}

/-- What stands behind an opening brace. -/
def CssStyle.inside (s : CssStyle) (f : α → String) (l : List α) : List Char :=
  l.flatMap (fun a => (f a).toList) ++ '\x7d' :: s.endLine.toList

theorem toList_braced (head : String) (l : List α) :
    (s.braced opening head (l.map f)).toList = head.toList ++ (opening.toList ++ s.inside f l) := by
  have hclose : ("\x7d" : String).toList = ['\x7d'] := by decide
  simp only [CssStyle.braced, CssStyle.inside, String.toList_append, String.toList_join, List.flatMap_map, hclose,
    List.append_assoc, List.singleton_append]

theorem stopsAt_braced (ho : Opens opening) {head : String} (hhead : head.toList.Disjoint cssStops) (l : List α) :
    StopsAt '\x7b' (s.braced opening head (l.map f)).toList := by
  obtain ⟨before, behind, hopening, hbefore, -⟩ := ho
  rw [toList_braced, hopening, List.append_assoc]
  exact ((StopsAt.cons (by decide) _).behind hbefore).behind hhead

/-- What is inside braces begins like what stands first there. -/
theorem stopsAt_inside {c : Char} {l : List α} (hne : l ≠ []) (hl : ∀ a ∈ l, StopsAt c (f a).toList) :
    StopsAt c (s.inside f l) := by
  obtain ⟨a, l, rfl⟩ := List.exists_cons_of_ne_nil hne
  rw [CssStyle.inside, List.flatMap_cons, List.append_assoc]
  exact (hl a List.mem_cons_self).append _

/-- Items that can be read can be read off their braces, with what stands before and behind. -/
theorem braced_inj (ho : Opens opening) (hf : Text.Readable P fun a => (f a).toList) {c : Char} (hc : c ≠ '\x7d')
    (hstop : ∀ a, P a → StopsAt c (f a).toList) {head head' : String} (hhead : head.toList.Disjoint cssStops)
    (hhead' : head'.toList.Disjoint cssStops) {l l' : List α} (hl : ∀ a ∈ l, P a) (hl' : ∀ a ∈ l', P a) {r r' : List Char}
    (h : (s.braced opening head (l.map f)).toList ++ r = (s.braced opening head' (l'.map f)).toList ++ r') :
    head = head' ∧ l = l' ∧ r = r' := by
  obtain ⟨before, behind, hopening, hbefore, -⟩ := ho
  have hnot (a : α) (t t' : List Char) (ha : P a) : (f a).toList ++ t ≠ '\x7d' :: t' := fun heq =>
    hc (((hstop a ha).append t).unique (heq ▸ StopsAt.cons (by decide) t'))
  simp only [toList_braced, hopening, CssStyle.inside, List.append_assoc, List.cons_append] at h
  obtain ⟨hheads, h⟩ := eq_of_brace hhead hhead' hbefore hbefore h
  obtain ⟨hitems, h⟩ := Text.Readable.flatMap hf hl hl' (fun a t => hnot a t _) (fun a t => hnot a t _)
    (List.append_cancel_left h)
  exact ⟨String.toList_injective (List.append_cancel_right hheads), hitems, List.append_cancel_left (List.cons.inj h).2⟩

end

/-! ### Declarations -/

theorem toList_cssDeclaration (d : String × String) : (cssDeclaration s d).toList =
    (s.indent.toList ++ d.1.toList) ++ ':' :: ((' ' :: d.2.toList) ++ ';' :: s.endLine.toList) := by
  have hcolon : (": " : String).toList = [':', ' '] := by decide
  have hend : (";" : String).toList = [';'] := by decide
  simp [cssDeclaration, hcolon, hend]

theorem PlainDeclaration.before_colon (hs : s.Readable) {d : String × String} (hd : PlainDeclaration d) :
    (s.indent.toList ++ d.1.toList).Disjoint (':' :: cssStops) :=
  List.disjoint_append_left.mpr ⟨hs.indent, hd.property⟩

theorem PlainDeclaration.before_semicolon {d : String × String} (hd : PlainDeclaration d) :
    (' ' :: d.2.toList).Disjoint cssStops :=
  List.disjoint_cons_left.mpr ⟨by decide, hd.value⟩

theorem readable_cssDeclaration (hs : s.Readable) :
    Text.Readable PlainDeclaration fun d => (cssDeclaration s d).toList := by
  intro a b r r' ha hb h
  simp only [toList_cssDeclaration, List.append_assoc (_ ++ _), List.cons_append (a := ':')] at h
  obtain ⟨hproperty, -, h⟩ := eq_of_append_stop (ha.before_colon hs) (hb.before_colon hs) List.mem_cons_self
    List.mem_cons_self h
  rw [List.append_assoc, List.append_assoc, List.cons_append, List.cons_append] at h
  obtain ⟨hvalue, -, h⟩ := eq_of_append_stop ha.before_semicolon hb.before_semicolon (by decide) (by decide) h
  refine ⟨Prod.ext (String.toList_injective (List.append_cancel_left hproperty)) ?_, List.append_cancel_left h⟩
  exact String.toList_injective (List.cons.inj hvalue).2

theorem stopsAt_cssDeclaration (hs : s.Readable) (d : String × String) (hd : PlainDeclaration d) :
    StopsAt ';' (cssDeclaration s d).toList := by
  have hcolon : [':'].Disjoint cssStops := List.singleton_disjoint.mpr (by decide)
  have hend : StopsAt ';' (';' :: s.endLine.toList) := .cons (by decide) _
  rw [toList_cssDeclaration]
  exact ((hend.behind hd.before_semicolon).behind hcolon).behind (List.disjoint_of_disjoint_cons_right (hd.before_colon hs))

/-! ### Rules -/

theorem css_eq_braced (r : StyleRule) : r.css s =
    s.braced s.openRule (joinWith s.selectorSeparator r.selectors) (r.declarations.map (cssDeclaration s)) := rfl

theorem joinWith_disjoint {stops : List Char} {separator : String} (hsep : separator.toList.Disjoint stops) {l : List String}
    (hl : ∀ t ∈ l, t.toList.Disjoint stops) : (joinWith separator l).toList.Disjoint stops := by
  induction l with
  | nil => exact List.disjoint_nil_left _
  | cons t l ih =>
    have ht := hl t List.mem_cons_self
    have ih := ih fun t' ht' => hl t' (List.mem_cons_of_mem _ ht')
    cases l with
    | nil => exact ht
    | cons t' l =>
      rw [joinWith_cons_cons, String.toList_append, String.toList_append]
      exact List.disjoint_append_left.mpr ⟨List.disjoint_append_left.mpr ⟨ht, hsep⟩, ih⟩

theorem StyleRule.Plain.joined_disjoint (hs : s.Readable) {r : StyleRule} (hr : r.Plain) :
    (joinWith s.selectorSeparator r.selectors).toList.Disjoint cssStops :=
  joinWith_disjoint hs.separator_disjoint fun t ht => List.disjoint_of_disjoint_cons_right (hr.selector t ht)

theorem StyleRule.Plain.marked (hs : s.Readable) {r : StyleRule} (hr : r.Plain) :
    Marked [','] s.selectorSeparator r.selectors where
  lacks t ht h := hr.selector t ht (h.subset List.mem_cons_self) List.mem_cons_self
  begins t ht := by
    obtain ⟨blank, hblank, -⟩ := hs.separator
    rw [hblank]
    exact ⟨blank ++ t.toList, rfl⟩

theorem readable_css (hs : s.Readable) : Text.Readable StyleRule.Plain fun r => (r.css s).toList := by
  intro a b r r' ha hb h
  simp only [css_eq_braced] at h
  obtain ⟨hjoined, hdeclarations, hrest⟩ := braced_inj hs.openRule (readable_cssDeclaration hs) (by decide)
    (stopsAt_cssDeclaration hs) (ha.joined_disjoint hs) (hb.joined_disjoint hs) ha.declaration hb.declaration h
  have hselectors := joinWith_inj (borderless_singleton ',') (ha.marked hs) (hb.marked hs) ha.selectors hb.selectors hjoined
  cases a
  cases b
  exact ⟨StyleRule.mk.injEq .. ▸ ⟨hselectors, hdeclarations⟩, hrest⟩

theorem stopsAt_css (hs : s.Readable) (r : StyleRule) (hr : r.Plain) : StopsAt '\x7b' (r.css s).toList := by
  rw [css_eq_braced]
  exact stopsAt_braced hs.openRule (hr.joined_disjoint hs) r.declarations

/-! ### Blocks -/

theorem readable_blockCss (hs : s.Readable) : Text.Readable CssBlock.Plain fun b => (b.css s).toList := by
  intro a b r r' ha hb h
  obtain ⟨hheader, hrules, hrest⟩ := braced_inj hs.openAtRule (readable_css hs) (by decide) (stopsAt_css hs) ha.header
    hb.header ha.rule hb.rule h
  exact ⟨Prod.ext hheader hrules, hrest⟩

/-- The first stop behind the opening brace is that of the item that stands first there. -/
theorem stop_of_braced {α β : Type} {f : α → String} {f' : β → String} {opening opening' head head' : String} {l : List α}
    {l' : List β} {c c' : Char} {r r' : List Char} (ho : Opens opening) (ho' : Opens opening')
    (hhead : head.toList.Disjoint cssStops) (hhead' : head'.toList.Disjoint cssStops) (hne : l ≠ []) (hne' : l' ≠ [])
    (hl : ∀ a ∈ l, StopsAt c (f a).toList) (hl' : ∀ a ∈ l', StopsAt c' (f' a).toList)
    (h : (s.braced opening head (l.map f)).toList ++ r = (s.braced opening' head' (l'.map f')).toList ++ r') : c = c' := by
  obtain ⟨before, behind, hopening, hbefore, hbehind⟩ := ho
  obtain ⟨before', behind', hopening', hbefore', hbehind'⟩ := ho'
  simp only [toList_braced, hopening, hopening', List.append_assoc, List.cons_append] at h
  obtain ⟨-, h⟩ := eq_of_brace hhead hhead' hbefore hbefore' h
  have hstop : StopsAt c (behind ++ (s.inside f l ++ r)) := ((stopsAt_inside hne hl).append r).behind hbehind
  have hstop' : StopsAt c' (behind' ++ (s.inside f' l' ++ r')) := ((stopsAt_inside hne' hl').append r').behind hbehind'
  exact hstop.unique (h ▸ hstop')

/-- A rule begins with a declaration and a block with a rule. -/
theorem css_ne_blockCss (hs : s.Readable) {r : StyleRule} {b : CssBlock} (hr : r.Plain) (hb : b.Plain) (t t' : List Char) :
    (r.css s).toList ++ t ≠ (b.css s).toList ++ t' := by
  intro h
  have hstop := stop_of_braced hs.openRule hs.openAtRule (hr.joined_disjoint hs) hb.header hr.declarations hb.rules
    (fun d hd => stopsAt_cssDeclaration hs d (hr.declaration d hd)) (fun r hr => stopsAt_css hs r (hb.rule r hr)) h
  exact absurd hstop (by decide)

theorem stopsAt_blockCss (hs : s.Readable) {b : CssBlock} (hb : b.Plain) : StopsAt '\x7b' (b.css s).toList :=
  stopsAt_braced hs.openAtRule hb.header b.2

theorem css_ne_blocks (hs : s.Readable) {bs : List CssBlock} (hbs : ∀ b ∈ bs, b.Plain) {r : StyleRule} (hr : r.Plain)
    {t : List Char} : (r.css s).toList ++ t ≠ bs.flatMap fun b => (b.css s).toList := by
  cases bs with
  | nil => exact ((stopsAt_css hs r hr).append t).ne_nil
  | cons b bs => exact css_ne_blockCss hs hr (hbs b List.mem_cons_self) t _

/-! ### Sheets -/

theorem SheetUnit.map_css {us : List SheetUnit} (hus : ∀ u ∈ us, u.Plain) :
    us.map (SheetUnit.css s) = (rules us).map (StyleRule.css s) := by
  induction us with
  | nil => rfl
  | cons u us ih =>
    obtain ⟨r, hr, -⟩ := hus u List.mem_cons_self
    have hcss : u.css s = r.css s := by
      cases u with
      | raw text => cases hr
      | _ => rw [← Option.some.inj hr]; rfl
    rw [rules, List.filterMap_cons_some hr, List.map_cons, List.map_cons, hcss, ← rules,
      ih fun u hu => hus u (List.mem_cons_of_mem _ hu)]

theorem SheetUnit.plain_rules {us : List SheetUnit} (hus : ∀ u ∈ us, u.Plain) : ∀ r ∈ rules us, r.Plain := by
  intro r hr
  obtain ⟨u, hu, hur⟩ := List.mem_filterMap.mp hr
  obtain ⟨r', hr', hplain⟩ := hus u hu
  exact Option.some.inj (hr'.symm.trans hur) ▸ hplain

theorem SheetUnit.rules_ne_nil {us : List SheetUnit} (hus : ∀ u ∈ us, u.Plain) (hne : us ≠ []) : rules us ≠ [] := by
  obtain ⟨u, us, rfl⟩ := List.exists_cons_of_ne_nil hne
  obtain ⟨r, hr, -⟩ := hus u List.mem_cons_self
  exact List.ne_nil_of_mem (List.mem_filterMap.mpr ⟨u, List.mem_cons_self, hr⟩)

theorem GroupedSheet.Plain.blocks {g : GroupedSheet} (hg : g.Plain) : ∀ b ∈ g.blocks, b.Plain := by
  intro b hb
  obtain ⟨a, ha, rfl⟩ := List.mem_map.mp hb
  obtain ⟨ha, hne⟩ := List.mem_filter.mp ha
  refine ⟨hg.header a ha, SheetUnit.rules_ne_nil (hg.units a ha) ?_, SheetUnit.plain_rules (hg.units a ha)⟩
  exact fun hnil => by simp [hnil] at hne

theorem AtRule.join_map_css {as : List AtRule} (has : ∀ a ∈ as, ∀ u ∈ a.units, u.Plain) :
    String.join (as.map (AtRule.css s)) = String.join ((GroupedSheet.blocks ⟨[], as⟩).map (CssBlock.css s)) := by
  induction as with
  | nil => rfl
  | cons a as ih =>
    have ih := ih fun a ha => has a (List.mem_cons_of_mem _ ha)
    rw [List.map_cons, String.join_cons, ih, AtRule.css]
    cases hunits : a.units with
    | nil => simp [GroupedSheet.blocks, hunits]
    | cons u us =>
      have hcss := SheetUnit.map_css (s := s) (has a List.mem_cons_self)
      rw [hunits] at hcss
      simp [GroupedSheet.blocks, hunits, CssBlock.css, CssStyle.braced, hcss]

theorem GroupedSheet.Plain.toList_css {g : GroupedSheet} (hg : g.Plain) (minify : Bool) : (g.css minify).toList =
    (SheetUnit.rules g.root).flatMap (fun r => (r.css (CssStyle.ofMinify minify)).toList) ++
      g.blocks.flatMap fun b => (b.css (CssStyle.ofMinify minify)).toList := by
  rw [GroupedSheet.css, SheetUnit.map_css hg.root, AtRule.join_map_css hg.units, String.toList_append, String.toList_join,
    String.toList_join, List.flatMap_map, List.flatMap_map]
  rfl

/-- Two plain stylesheets have one text just if they have the same rules and the same blocks that are not empty. -/
theorem css_determines_rules {g g' : GroupedSheet} (hg : g.Plain) (hg' : g'.Plain) (minify : Bool) :
    g.css minify = g'.css minify ↔
      SheetUnit.rules g.root = SheetUnit.rules g'.root ∧ g.blocks = g'.blocks := by
  have hs := CssStyle.readable_ofMinify minify
  rw [← String.toList_inj, hg.toList_css, hg'.toList_css]
  refine ⟨fun h => ?_, fun ⟨hroot, hblocks⟩ => by rw [hroot, hblocks]⟩
  obtain ⟨hroot, h⟩ := Text.Readable.flatMap (readable_css hs) (SheetUnit.plain_rules hg.root)
    (SheetUnit.plain_rules hg'.root) (fun _ _ hr => css_ne_blocks hs hg.blocks hr)
    (fun _ _ hr => css_ne_blocks hs hg'.blocks hr) h
  have hend (b : CssBlock) (t : List Char) (hb : b.Plain) : (b.css (CssStyle.ofMinify minify)).toList ++ t ≠ [] :=
    ((stopsAt_blockCss hs hb).append t).ne_nil
  obtain ⟨hblocks, -⟩ := Text.Readable.flatMap (readable_blockCss hs) hg.blocks hg'.blocks hend hend
    (congrArg (· ++ []) h)
  exact ⟨hroot, hblocks⟩

end

/-- Neither the kind of a unit nor an outer condition nor a block without units is in the text, but an empty property
    would be. -/
theorem css_determines_rules_kinds :
    let rule : StyleRule := ⟨["a", "b > i"], [("margin", "0"), ("color", "red")]⟩
    let g : GroupedSheet := ⟨[.group rule], [⟨["@media print"], [.solo rule, .solo ⟨["i"], [("color", "")]⟩]⟩]⟩
    let g' : GroupedSheet := ⟨[.solo rule], [⟨["@font-face"], []⟩,
      ⟨["@supports (a: b)", "@media print"], [.group rule, .group ⟨["i"], [("color", "")]⟩]⟩]⟩
    let h : GroupedSheet := ⟨[.group rule], [⟨["@media print"], [.solo rule, .solo ⟨["i"], [("color", ""), ("", "")]⟩]⟩]⟩
    g ≠ g' ∧ (∀ minify, g.css minify = g'.css minify) ∧ SheetUnit.rules g.root = SheetUnit.rules g'.root ∧
      g.blocks = g'.blocks ∧ ∀ minify, g.css minify ≠ h.css minify := by
  intro rule g g' h
  have hg : g.Plain := by decide
  have hg' : g'.Plain := by decide
  have hh : h.Plain := by decide
  have hsame : ∀ minify, g.css minify = g'.css minify := by decide
  obtain ⟨hroot, hblocks⟩ := (css_determines_rules hg hg' true).mp (hsame true)
  refine ⟨by decide, hsame, hroot, hblocks, fun minify heq => ?_⟩
  exact absurd ((css_determines_rules hg hh minify).mp heq).2 (by decide)

end StyleTree

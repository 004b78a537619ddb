import Mathlib.Data.List.Infix
import StyleTree.Text.Join

/-! Texts one behind the other, and where each of them ends. A text ends at the first of the characters that may
    not stand in it. Texts that are joined end where the separator and the text behind it make a mark that none
    of them holds, so the joined text has them all. -/

namespace StyleTree.Text

/-! ### Up to a stop -/

theorem eq_of_append_stop {stops a b r r' : List Char} {c c' : Char} (ha : a.Disjoint stops) (hb : b.Disjoint stops)
    (hc : c ∈ stops) (hc' : c' ∈ stops) (h : a ++ c :: r = b ++ c' :: r') : a = b ∧ c = c' ∧ r = r' := by
  induction a generalizing b with
  | nil =>
    cases b with
    | nil => exact ⟨rfl, List.cons.inj h⟩
    | cons y b =>
      obtain ⟨rfl, -⟩ := List.cons.inj h
      exact (hb List.mem_cons_self hc).elim
  | cons x a ih =>
    cases b with
    | nil =>
      obtain ⟨rfl, -⟩ := List.cons.inj h
      exact (ha List.mem_cons_self hc').elim
    | cons y b =>
      obtain ⟨rfl, hab⟩ := List.cons.inj h
      obtain ⟨rfl, hrest⟩ := ih (List.disjoint_of_disjoint_cons_left ha) (List.disjoint_of_disjoint_cons_left hb) hab
      exact ⟨rfl, hrest⟩

/-! ### One behind the other -/

/-- What is written of the members of `P` can be read off the front of a text. -/
def Readable {α : Type} (P : α → Prop) (f : α → List Char) : Prop :=
  ∀ {a b r r'}, P a → P b → f a ++ r = f b ++ r' → a = b ∧ r = r'

/-- So can a list of them, if what comes behind it does not begin like one more. -/
theorem Readable.flatMap {α : Type} {P : α → Prop} {f : α → List Char} (hf : Readable P f) {l l' : List α}
    {t t' : List Char} (hl : ∀ a ∈ l, P a) (hl' : ∀ a ∈ l', P a) (ht : ∀ a r, P a → f a ++ r ≠ t)
    (ht' : ∀ a r, P a → f a ++ r ≠ t') (h : l.flatMap f ++ t = l'.flatMap f ++ t') : l = l' ∧ t = t' := by
  induction l generalizing l' with
  | nil =>
    cases l' with
    | nil => exact ⟨rfl, h⟩
    | cons b l' =>
      rw [List.flatMap_cons, List.append_assoc] at h
      exact (ht b _ (hl' b List.mem_cons_self) h.symm).elim
  | cons a l ih =>
    cases l' with
    | nil =>
      rw [List.flatMap_cons, List.append_assoc] at h
      exact (ht' a _ (hl a List.mem_cons_self) h).elim
    | cons b l' =>
      rw [List.flatMap_cons, List.flatMap_cons, List.append_assoc, List.append_assoc] at h
      obtain ⟨rfl, hab⟩ := hf (hl a List.mem_cons_self) (hl' b List.mem_cons_self) h
      obtain ⟨rfl, hrest⟩ := ih (fun x hx => hl x (List.mem_cons_of_mem _ hx))
        (fun x hx => hl' x (List.mem_cons_of_mem _ hx)) hab
      exact ⟨rfl, hrest⟩

/-! ### Joined texts -/

/-- No proper end of the mark is its beginning. -/
def Borderless (mark : List Char) : Prop := ∀ x y, mark = x ++ y → x ≠ [] → y ≠ [] → ¬y <+: mark

theorem borderless_singleton (c : Char) : Borderless [c] := by
  intro x y h hx hy
  have hlen := congrArg List.length h
  rw [List.length_append, List.length_singleton] at hlen
  have := List.length_pos_iff.mpr hx
  have := List.length_pos_iff.mpr hy
  omega

/-- None of the texts holds the mark, and the separator with any of them behind it begins with it. -/
structure Marked (mark : List Char) (separator : String) (texts : List String) : Prop where
  lacks : ∀ s ∈ texts, ¬mark <:+: s.toList
  begins : ∀ s ∈ texts, mark <+: separator.toList ++ s.toList

section
variable {mark : List Char} {separator : String}

theorem Marked.tail {s : String} {texts : List String} (h : Marked mark separator (s :: texts)) :
    Marked mark separator texts :=
  ⟨fun t ht => h.lacks t (List.mem_cons_of_mem _ ht), fun t ht => h.begins t (List.mem_cons_of_mem _ ht)⟩

/-- What stands behind the first of joined texts. -/
def rest (separator : String) : List String → List Char
  | [] => []
  | s :: texts => separator.toList ++ (joinWith separator (s :: texts)).toList

theorem toList_joinWith_cons (s : String) (texts : List String) :
    (joinWith separator (s :: texts)).toList = s.toList ++ rest separator texts := by
  cases texts with
  | nil => exact (List.append_nil _).symm
  | cons t texts => rw [joinWith_cons_cons, String.toList_append, String.toList_append, List.append_assoc, rest]

theorem Marked.rest_cons {s : String} {texts : List String} (h : Marked mark separator (s :: texts)) :
    mark <+: rest separator (s :: texts) := by
  rw [rest, toList_joinWith_cons, ← List.append_assoc]
  exact (h.begins s List.mem_cons_self).trans (List.prefix_append ..)

theorem Marked.rest {texts : List String} (h : Marked mark separator texts) :
    rest separator texts = [] ∨ mark <+: Text.rest separator texts := by
  cases texts with
  | nil => exact .inl rfl
  | cons s texts => exact .inr h.rest_cons

theorem Marked.rest_ne_nil {s : String} {texts : List String} (h : Marked mark separator (s :: texts)) :
    Text.rest separator (s :: texts) ≠ [] := fun hnil => by
  have hmark : mark = [] := List.prefix_nil.mp (hnil ▸ h.rest_cons)
  exact h.lacks s List.mem_cons_self (hmark ▸ List.nil_infix)

/-- A text that holds no mark ends where the mark begins. -/
theorem eq_nil_of_mark (hmark : Borderless mark) {a x t t' : List Char} (ha : ¬mark <:+: a ++ x)
    (ht : t = [] ∨ mark <+: t) (ht' : t' = [] ∨ mark <+: t') (h : t = x ++ t') : x = [] := by
  by_contra hx
  have hprefix : mark <+: x ++ t' := h ▸ ht.resolve_left fun hnil => hx (List.append_eq_nil_iff.mp (h.symm.trans hnil)).1
  have hnot : ¬mark <+: x := fun hm => ha (hm.isInfix.trans (List.suffix_append a x).isInfix)
  -- So `x` is the beginning of the mark, and the rest of the mark is where `t'` begins.
  obtain ⟨y, rfl⟩ := (List.prefix_or_prefix_of_prefix hprefix (List.prefix_append x t')).resolve_left hnot
  have hy : y ≠ [] := fun hnil => hnot (by rw [hnil, List.append_nil])
  have hyt := (List.prefix_append_right_inj x).mp hprefix
  rcases ht' with rfl | ht'
  · exact hy (List.prefix_nil.mp hyt)
  · rcases List.prefix_or_prefix_of_prefix hyt ht' with hborder | hlong
    · exact hmark x y rfl hx hy hborder
    · have hlen := hlong.length_le
      rw [List.length_append] at hlen
      have := List.length_pos_iff.mpr hx
      omega

theorem eq_of_append_mark (hmark : Borderless mark) {a b t t' : List Char} (ha : ¬mark <:+: a) (hb : ¬mark <:+: b)
    (ht : t = [] ∨ mark <+: t) (ht' : t' = [] ∨ mark <+: t') (h : a ++ t = b ++ t') : a = b ∧ t = t' := by
  rcases List.append_eq_append_iff.mp h with ⟨x, rfl, hx⟩ | ⟨x, rfl, hx⟩
  · obtain rfl := eq_nil_of_mark hmark hb ht ht' hx
    exact ⟨(List.append_nil a).symm, hx⟩
  · obtain rfl := eq_nil_of_mark hmark ha ht' ht hx
    exact ⟨List.append_nil b, hx.symm⟩

/-- Joined texts that are marked are determined by what they join to. -/
theorem joinWith_inj (hmark : Borderless mark) {l l' : List String} (hl : Marked mark separator l)
    (hl' : Marked mark separator l') (hne : l ≠ []) (hne' : l' ≠ []) (h : joinWith separator l = joinWith separator l') :
    l = l' := by
  induction l generalizing l' with
  | nil => exact (hne rfl).elim
  | cons s l ih =>
    obtain ⟨s', l', rfl⟩ := List.exists_cons_of_ne_nil hne'
    have h := congrArg String.toList h
    rw [toList_joinWith_cons, toList_joinWith_cons] at h
    obtain ⟨hs, hrest⟩ := eq_of_append_mark hmark (hl.lacks s List.mem_cons_self) (hl'.lacks s' List.mem_cons_self)
      hl.tail.rest hl'.tail.rest h
    obtain rfl := String.toList_injective hs
    cases l with
    | nil =>
      cases l' with
      | nil => rfl
      | cons t' l' => exact (hl'.tail.rest_ne_nil hrest.symm).elim
    | cons t l =>
      cases l' with
      | nil => exact (hl.tail.rest_ne_nil hrest).elim
      | cons t' l' =>
        have hjoined := String.toList_injective (List.append_cancel_left hrest)
        rw [ih hl.tail hl'.tail (List.cons_ne_nil t l) (List.cons_ne_nil t' l') hjoined]

end

end StyleTree.Text

import Mathlib.Data.List.Lex
import StyleTree.Proofs.Assoc
import StyleTree.Proofs.Document.Merging
import StyleTree.Storage

/-! Substitution is one pass. The references of a value stand at positions, whatever is stored: all of them
    are replaced at once, or the first of them that is unknown is the error. -/

namespace StyleTree

/-! ### References -/

/-- The text is a dollar sign and a name of ASCII letters, digits, hyphens and underscores. -/
structure Storage.Refers (text name : String) : Prop where
  text : text = "$" ++ name
  nonempty : name ≠ ""
  named : ∀ c ∈ name.toList,
    ('a' ≤ c ∧ c ≤ 'z') ∨ ('A' ≤ c ∧ c ≤ 'Z') ∨ ('0' ≤ c ∧ c ≤ '9') ∨ c = '-' ∨ c = '_'

/-- A text of the value refers to the name. Its position has the numbers of the children on the way to it, so
    that positions are ordered from left to right. -/
inductive Json.RefersAt : Json → List Nat → String → Prop
  | text {text name : String} : Storage.Refers text name → RefersAt (.str text) [] name
  | child {v child : Json} {i : Nat} {position : List Nat} {name : String} :
      v.children[i]? = some child → RefersAt child position name → RefersAt v (i :: position) name

namespace Storage

/-- The values as they are with every reference replaced by what is stored, and all else as it was. -/
inductive Replaces (s : Storage) : Json → Json → Prop
  | reference {text name : String} {w : Json} :
      Refers text name → Assoc.get? s.values name = some w → Replaces s (.str text) w
  | text {text : String} : (∀ name, ¬ Refers text name) → Replaces s (.str text) (.str text)
  | arr {items items' : List Json} : List.Forall₂ (Replaces s) items items' → Replaces s (.arr items) (.arr items')
  | obj {fields fields' : List (String × Json)} : fields'.map (·.1) = fields.map (·.1) →
      List.Forall₂ (Replaces s) (fields.map (·.2)) (fields'.map (·.2)) → Replaces s (.obj fields) (.obj fields')
  | null : Replaces s .null .null
  | bool (b : Bool) : Replaces s (.bool b) (.bool b)
  | num (n : Number) : Replaces s (.num n) (.num n)

theorem isNameChar_iff {c : Char} : isNameChar c = true ↔
    ('a' ≤ c ∧ c ≤ 'z') ∨ ('A' ≤ c ∧ c ≤ 'Z') ∨ ('0' ≤ c ∧ c ≤ '9') ∨ c = '-' ∨ c = '_' := by
  delta isNameChar Char.isAlphanum Char.isAlpha Char.isUpper Char.isLower Char.isDigit
  simp only [Bool.or_eq_true, Bool.and_eq_true, decide_eq_true_eq, beq_iff_eq, Char.le_def]
  tauto

theorem referenceName?_eq_some_iff {text name : String} : referenceName? text = some name ↔ Refers text name := by
  constructor
  · intro h
    unfold referenceName? at h
    split at h
    · next cs htext =>
      split at h
      · next hcs =>
        cases h
        refine ⟨String.toList_injective ?_, fun hempty => hcs.1 ?_, ?_⟩
        · rw [htext, String.toList_append, String.toList_ofList, String.toList_ofList]
          rfl
        · rw [← String.toList_ofList (l := cs), hempty, String.toList_empty]
        · rw [String.toList_ofList]
          exact fun c hc => isNameChar_iff.mp (List.all_eq_true.mp hcs.2 c hc)
      · cases h
    · cases h
  · rintro ⟨rfl, hne, hnamed⟩
    have htext : ("$" ++ name).toList = '$' :: name.toList := String.toList_append
    have hcs : name.toList ≠ [] := fun hnil => hne (String.toList_eq_nil_iff.mp hnil)
    have hall : name.toList.all isNameChar = true := List.all_eq_true.mpr fun c hc => isNameChar_iff.mpr (hnamed c hc)
    simp only [referenceName?, htext]
    rw [if_pos ⟨hcs, hall⟩, String.ofList_toList]

theorem referenceName?_eq_none_iff {text : String} : referenceName? text = none ↔ ∀ name, ¬ Refers text name := by
  simp only [Option.eq_none_iff_forall_ne_some, ne_eq, referenceName?_eq_some_iff]

end Storage

namespace Json
variable {v : Json} {i : Nat} {position : List Nat} {name : String}

theorem refersAt_nil_iff : v.RefersAt [] name ↔ ∃ text, v = .str text ∧ Storage.Refers text name := by
  constructor
  · rintro ⟨h⟩
    exact ⟨_, rfl, h⟩
  · rintro ⟨text, rfl, h⟩
    exact .text h

/-- A reference has no other reference at or below it. -/
theorem RefersAt.eq_of_refersAt {name' : String} (h : v.RefersAt [] name) (h' : v.RefersAt position name') :
    position = [] ∧ name' = name := by
  obtain ⟨text, rfl, href⟩ := refersAt_nil_iff.mp h
  rcases h' with href' | ⟨hchild, -⟩
  · rw [← Storage.referenceName?_eq_some_iff] at href href'
    exact ⟨rfl, Option.some.inj (href'.symm.trans href)⟩
  · cases hchild

theorem refersAt_cons_iff :
    v.RefersAt (i :: position) name ↔ ∃ child, v.children[i]? = some child ∧ child.RefersAt position name := by
  constructor
  · rintro (_ | ⟨hchild, h⟩)
    exact ⟨_, hchild, h⟩
  · rintro ⟨child, hchild, h⟩
    exact .child hchild h

/-- What holds of every reference, and of every other value wherever it holds of its children, holds of all. -/
theorem reference_induction {motive : Json → Prop} (reference : ∀ v name, v.RefersAt [] name → motive v)
    (other : ∀ v : Json, (∀ name, ¬ v.RefersAt [] name) → (∀ c ∈ v.children, motive c) → motive v) (v : Json) :
    motive v := by
  induction v using children_induction with
  | step v ih =>
    by_cases hself : ∃ name, v.RefersAt [] name
    · obtain ⟨name, hself⟩ := hself
      exact reference v name hself
    · exact other v (not_exists.mp hself) ih

end Json

namespace Storage
variable {s s' : Storage}

/-! ### Values and their children -/

theorem substituteItems_cons (v : Json) (rest : List Json) : s.substituteItems (v :: rest) =
    (s.substitute v).bind fun w => (s.substituteItems rest).map (w :: ·) := by
  rw [substituteItems]
  cases s.substitute v with
  | error e => rfl
  | ok w => cases s.substituteItems rest <;> rfl

theorem substituteItems_eq_ok_iff {items items' : List Json} :
    s.substituteItems items = .ok items' ↔ List.Forall₂ (fun v w => s.substitute v = .ok w) items items' := by
  induction items generalizing items' with
  | nil =>
    rw [substituteItems, List.forall₂_nil_left_iff, Except.ok.injEq]
    exact eq_comm
  | cons v rest ih =>
    rw [substituteItems_cons, List.forall₂_cons_left_iff]
    cases s.substitute v with
    | error e => simp [Except.bind]
    | ok w => cases hrest : s.substituteItems rest <;> simp [Except.bind, Except.map, ← ih, hrest, @eq_comm _ items']

/-- The items fail as the first of them does that fails. -/
theorem substituteItems_eq_error_iff {items : List Json} {e : Error} : s.substituteItems items = .error e ↔
    ∃ (i : Nat) (v : Json), items[i]? = some v ∧ s.substitute v = .error e ∧
      ∀ (j : Nat) (u : Json), items[j]? = some u → j < i → ∃ w, s.substitute u = .ok w := by
  induction items with
  | nil => simp [substituteItems]
  | cons v rest ih =>
    rw [substituteItems_cons]
    cases hv : s.substitute v with
    | error e' =>
      constructor
      · intro h
        cases h
        exact ⟨0, v, rfl, hv, fun j _ _ hj => absurd hj (Nat.not_lt_zero j)⟩
      · rintro ⟨_ | i, u, hu, herror, hbefore⟩
        · cases hu
          cases hv.symm.trans herror
          rfl
        · obtain ⟨w, hw⟩ := hbefore 0 v rfl (Nat.succ_pos i)
          cases hv.symm.trans hw
    | ok w =>
      refine Report.map_eq_error_iff.trans (ih.trans ⟨?_, ?_⟩)
      · rintro ⟨i, u, hu, herror, hbefore⟩
        refine ⟨i + 1, u, hu, herror, ?_⟩
        rintro (_ | j) x hx hj
        · cases hx
          exact ⟨w, hv⟩
        · exact hbefore j x hx (Nat.lt_of_succ_lt_succ hj)
      · rintro ⟨_ | i, u, hu, herror, hbefore⟩
        · cases hu
          cases hv.symm.trans herror
        · exact ⟨i, u, hu, herror, fun j x hx hj => hbefore (j + 1) x hx (Nat.succ_lt_succ hj)⟩

theorem exists_substituteItems_iff {items : List Json} :
    (∃ items', s.substituteItems items = .ok items') ↔ ∀ v ∈ items, ∃ w, s.substitute v = .ok w := by
  induction items with
  | nil => simp [substituteItems]
  | cons v rest ih =>
    rw [substituteItems_cons, List.forall_mem_cons, ← ih]
    cases s.substitute v with
    | error e => simp [Except.bind]
    | ok w => cases s.substituteItems rest <;> simp [Except.bind, Except.map]

theorem substituteItems_congr {items : List Json} (h : ∀ v ∈ items, s'.substitute v = s.substitute v) :
    s'.substituteItems items = s.substituteItems items := by
  induction items with
  | nil => rfl
  | cons v rest ih =>
    obtain ⟨hv, hrest⟩ := List.forall_mem_cons.mp h
    rw [substituteItems_cons, substituteItems_cons, hv, ih hrest]

theorem substituteFields_eq (fields : List (String × Json)) : s.substituteFields fields =
    (s.substituteItems (fields.map (·.2))).map ((fields.map (·.1)).zip ·) := by
  induction fields with
  | nil => rfl
  | cons e rest ih =>
    rw [substituteFields, ih, List.map_cons, List.map_cons, substituteItems]
    cases s.substitute e.2 with
    | error e => rfl
    | ok w => cases s.substituteItems (rest.map (·.2)) <;> rfl

end Storage

/-- The value with other values in the places of its children. -/
def Json.withChildren (v : Json) (children : List Json) : Json :=
  match v with
  | .arr _ => .arr children
  | .obj fields => .obj ((fields.map (·.1)).zip children)
  | .null | .bool _ | .num _ | .str _ => v

namespace Storage
variable {s s' : Storage} {v : Json}

theorem get_eq_ok_iff {name : String} {x : Json} : s.get name = .ok x ↔ Assoc.get? s.values name = some x := by
  unfold get
  cases Assoc.get? s.values name <;> simp

theorem get_eq_error_iff {name : String} {e : Error} :
    s.get name = .error e ↔ name ∉ s.values.map (·.1) ∧ e = .unknownStorage name := by
  rw [← Assoc.get?_eq_none_iff]
  unfold get
  cases Assoc.get? s.values name <;> simp [eq_comm]

theorem exists_get_iff {name : String} : (∃ x, s.get name = .ok x) ↔ name ∈ s.values.map (·.1) := by
  rw [← Assoc.contains_iff, Assoc.contains_eq_isSome, Option.isSome_iff_exists]
  simp only [get_eq_ok_iff]

/-- A value that is no reference is substituted child by child. -/
theorem substitute_of_not_refers (h : ∀ name, ¬ v.RefersAt [] name) :
    s.substitute v = (s.substituteItems v.children).map v.withChildren := by
  cases v with
  | str text =>
    have hnone : referenceName? text = none := referenceName?_eq_none_iff.mpr fun name href => h name (.text href)
    rw [substitute, hnone]
    rfl
  | arr items => rfl
  | obj fields =>
    rw [substitute, substituteFields_eq]
    cases hitems : s.substituteItems (fields.map (·.2)) <;> simp [Json.children, hitems, Except.map, Json.withChildren]
  | null | bool _ | num _ => rfl

theorem substitute_of_refers {name : String} (h : v.RefersAt [] name) : s.substitute v = s.get name := by
  obtain ⟨text, rfl, href⟩ := Json.refersAt_nil_iff.mp h
  rw [substitute, referenceName?_eq_some_iff.mpr href]

/-! ### Failing -/

theorem exists_substitute_iff : (∃ w, s.substitute v = .ok w) ↔
    ∀ position name, v.RefersAt position name → name ∈ s.values.map (·.1) := by
  induction v using Json.reference_induction with
  | reference v name hself =>
    rw [substitute_of_refers hself, exists_get_iff]
    constructor
    · intro hname position name' h
      obtain ⟨-, rfl⟩ := hself.eq_of_refersAt h
      exact hname
    · exact fun h => h [] name hself
  | other v hself ih =>
    have hitems : (∃ w, s.substitute v = .ok w) ↔ ∃ items, s.substituteItems v.children = .ok items := by
      rw [substitute_of_not_refers hself]
      cases s.substituteItems v.children <;> simp [Except.map]
    rw [hitems, exists_substituteItems_iff]
    constructor
    · rintro h (_ | ⟨i, position⟩) name href
      · exact absurd href (hself name)
      · obtain ⟨c, hc, href⟩ := Json.refersAt_cons_iff.mp href
        have hmem := List.mem_of_getElem? hc
        exact (ih c hmem).mp (h c hmem) position name href
    · intro h c hmem
      obtain ⟨i, hc⟩ := List.getElem?_of_mem hmem
      exact (ih c hmem).mpr fun position name href => h (i :: position) name (.child hc href)

theorem position_le_iff {i j : Nat} {position position' : List Nat} :
    i :: position ≤ j :: position' ↔ i < j ∨ i = j ∧ position ≤ position' := by
  rw [← not_lt, List.cons_lt_cons_iff]
  grind

/-- The reference at the position is unknown, and none to the left of it is. -/
structure FirstUnknown (s : Storage) (v : Json) (position : List Nat) (name : String) : Prop where
  refers : v.RefersAt position name
  unknown : name ∉ s.values.map (·.1)
  first : ∀ position' name', v.RefersAt position' name' → name' ∉ s.values.map (·.1) → position ≤ position'

theorem firstUnknown_cons_iff (hself : ∀ name, ¬ v.RefersAt [] name) {i : Nat} {position : List Nat} {name : String} :
    s.FirstUnknown v (i :: position) name ↔ ∃ c, v.children[i]? = some c ∧ s.FirstUnknown c position name ∧
      ∀ (j : Nat) (u : Json), v.children[j]? = some u → j < i → ∃ w, s.substitute u = .ok w := by
  constructor
  · intro h
    obtain ⟨c, hc, href⟩ := Json.refersAt_cons_iff.mp h.refers
    refine ⟨c, hc, ⟨href, h.unknown, fun position' name' href' hunknown => ?_⟩, fun j u hu hj => ?_⟩
    · have hle := h.first (i :: position') name' (.child hc href') hunknown
      exact (position_le_iff.mp hle).resolve_left (Nat.lt_irrefl i) |>.2
    · rw [exists_substitute_iff]
      intro position' name' href'
      by_contra hunknown
      rcases position_le_iff.mp (h.first (j :: position') name' (.child hu href') hunknown) with hlt | ⟨rfl, -⟩
      · exact Nat.lt_asymm hj hlt
      · exact Nat.lt_irrefl i hj
  · rintro ⟨c, hc, h, hbefore⟩
    refine ⟨.child hc h.refers, h.unknown, ?_⟩
    rintro (_ | ⟨j, position'⟩) name' href' hunknown
    · exact absurd href' (hself name')
    · obtain ⟨u, hu, href'⟩ := Json.refersAt_cons_iff.mp href'
      rcases Nat.lt_trichotomy i j with hlt | rfl | hlt
      · exact position_le_iff.mpr (.inl hlt)
      · obtain rfl : c = u := Option.some.inj (hc.symm.trans hu)
        exact position_le_iff.mpr (.inr ⟨rfl, h.first position' name' href' hunknown⟩)
      · exact absurd (exists_substitute_iff.mp (hbefore j u hu hlt) position' name' href') hunknown

theorem substitute_eq_error_iff {e : Error} :
    s.substitute v = .error e ↔ ∃ position name, s.FirstUnknown v position name ∧ e = .unknownStorage name := by
  induction v using Json.reference_induction with
  | reference v name hself =>
    rw [substitute_of_refers hself, get_eq_error_iff]
    constructor
    · rintro ⟨hunknown, rfl⟩
      exact ⟨[], name, ⟨hself, hunknown, fun position' _ _ _ => not_lt.mp (List.not_lt_nil _)⟩, rfl⟩
    · rintro ⟨position, name', h, rfl⟩
      obtain ⟨-, rfl⟩ := hself.eq_of_refersAt h.refers
      exact ⟨h.unknown, rfl⟩
  | other v hself ih =>
    rw [substitute_of_not_refers hself, Report.map_eq_error_iff, substituteItems_eq_error_iff]
    constructor
    · rintro ⟨i, c, hc, herror, hbefore⟩
      obtain ⟨position, name, h, he⟩ := (ih c (List.mem_of_getElem? hc)).mp herror
      exact ⟨i :: position, name, (firstUnknown_cons_iff hself).mpr ⟨c, hc, h, hbefore⟩, he⟩
    · rintro ⟨_ | ⟨i, position⟩, name, h, he⟩
      · exact absurd h.refers (hself name)
      · obtain ⟨c, hc, h, hbefore⟩ := (firstUnknown_cons_iff hself).mp h
        exact ⟨i, c, hc, (ih c (List.mem_of_getElem? hc)).mpr ⟨position, name, h, he⟩, hbefore⟩

/-! ### Replacing -/

theorem substitute_eq_ok_iff {w : Json} : s.substitute v = .ok w ↔ s.Replaces v w := by
  induction v using Json.children_induction generalizing w with
  | step v ih =>
    have hitems {items'} : s.substituteItems v.children = .ok items' ↔ List.Forall₂ s.Replaces v.children items' := by
      rw [substituteItems_eq_ok_iff, List.forall₂_iff_zip, List.forall₂_iff_zip]
      exact and_congr_right fun _ => forall₂_congr fun c w => forall_congr' fun hm => ih c (List.of_mem_zip hm).1
    cases v with
    | str text =>
      constructor
      · intro h
        rw [substitute] at h
        split at h
        · next name hname => exact .reference (referenceName?_eq_some_iff.mp hname) (get_eq_ok_iff.mp h)
        · next hname =>
          cases h
          exact .text (referenceName?_eq_none_iff.mp hname)
      · rintro (⟨href, hw⟩ | hnone)
        · rw [substitute, referenceName?_eq_some_iff.mpr href]
          exact get_eq_ok_iff.mpr hw
        · rw [substitute, referenceName?_eq_none_iff.mpr hnone]
    | arr items =>
      constructor
      · intro h
        obtain ⟨items', hitems', rfl⟩ := Report.map_eq_ok_iff.mp h
        exact .arr (hitems.mp hitems')
      · rintro (_ | _ | h)
        exact Report.map_eq_ok_iff.mpr ⟨_, hitems.mpr h, rfl⟩
    | obj fields =>
      rw [substitute, substituteFields_eq]
      constructor
      · intro h
        obtain ⟨fields', hfields', rfl⟩ := Report.map_eq_ok_iff.mp h
        obtain ⟨values, hvalues, rfl⟩ := Report.map_eq_ok_iff.mp hfields'
        have hvalues := hitems.mp hvalues
        have hlength : (fields.map (·.1)).length = values.length := by
          rw [List.length_map, ← hvalues.length_eq, Json.children, List.length_map]
        refine .obj (List.map_fst_zip (le_of_eq hlength)) ?_
        rwa [List.map_snd_zip (ge_of_eq hlength)]
      · rintro (_ | _ | _ | ⟨hkeys, hvalues⟩)
        have hfields := Report.map_eq_ok_iff.mpr ⟨_, hitems.mpr hvalues, (List.zip_of_prod hkeys rfl).symm⟩
        exact Report.map_eq_ok_iff.mpr ⟨_, hfields, rfl⟩
    | null => exact ⟨fun h => by cases h; exact .null, by rintro ⟨⟩; rfl⟩
    | bool b => exact ⟨fun h => by cases h; exact .bool b, by rintro ⟨⟩; rfl⟩
    | num n => exact ⟨fun h => by cases h; exact .num n, by rintro ⟨⟩; rfl⟩

/-- The result depends only on what is stored under the names that are referred to. -/
theorem substitute_congr (h : ∀ position name, v.RefersAt position name →
    Assoc.get? s'.values name = Assoc.get? s.values name) : s'.substitute v = s.substitute v := by
  induction v using Json.reference_induction with
  | reference v name hself =>
    rw [substitute_of_refers hself, substitute_of_refers hself, get, get, h [] name hself]
  | other v hself ih =>
    have hchildren : ∀ c ∈ v.children, s'.substitute c = s.substitute c := fun c hc => by
      obtain ⟨i, hi⟩ := List.getElem?_of_mem hc
      exact ih c hc fun position name href => h (i :: position) name (.child hi href)
    rw [substitute_of_not_refers hself, substitute_of_not_refers hself, substituteItems_congr hchildren]

end Storage

/-- Substitution succeeds if every reference is stored. Then each reference is replaced by what is stored, and all
    else stays. Otherwise the error names the first unknown reference. Only what is stored under the names that
    are referred to counts. -/
theorem substitute_is_one_pass (s : Storage) (v : Json) :
    ((∃ w, s.substitute v = .ok w) ↔ ∀ position name, v.RefersAt position name → name ∈ s.values.map (·.1)) ∧
      (∀ w, s.substitute v = .ok w ↔ s.Replaces v w) ∧
      (∀ e, s.substitute v = .error e ↔
        ∃ position name, s.FirstUnknown v position name ∧ e = .unknownStorage name) ∧
      ∀ s' : Storage, (∀ position name, v.RefersAt position name →
        Assoc.get? s'.values name = Assoc.get? s.values name) → s'.substitute v = s.substitute v :=
  ⟨Storage.exists_substitute_iff, fun _ => Storage.substitute_eq_ok_iff, fun _ => Storage.substitute_eq_error_iff,
    fun _ h => Storage.substitute_congr h⟩

/-- A reference in a stored value is not followed, a key is none, and a dollar sign alone is none. -/
example : Storage.substitute { values := [("a", .str "$b")] } (.obj [("$a", .arr [.str "$a", .str "$"])]) =
    .ok (.obj [("$a", .arr [.str "$b", .str "$"])]) := by rfl

end StyleTree

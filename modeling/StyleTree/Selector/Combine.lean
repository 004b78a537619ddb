import StyleTree.Text.Blank

/-! Selector paths: how the alternatives of a key extend the paths of the keys above it. -/

namespace StyleTree.Selector

def parentMark : Char := '&'

/-- How one alternative of a key joins the path above it. -/
inductive Alternative where
  /-- plain, at the top of a path -/
  | root (text : String)
  /-- plain, behind the parent path and a space -/
  | descendant (text : String)
  /-- beginning with a colon, directly behind the parent path -/
  | pseudo (text : String)
  /-- with the parent path in the place of each mark -/
  | reference (text : String)
  deriving DecidableEq, Repr

namespace Alternative

def classify (text : String) (hasParent : Bool) : Alternative :=
  if text.toList.contains parentMark then .reference text
  else if text.toList.head? = some ':' then .pseudo text
  else if hasParent then .descendant text
  else .root text

def text : Alternative → String
  | .root t | .descendant t | .pseudo t | .reference t => t

end Alternative

/-- The text with each parent mark replaced by `parent`. -/
def replaceParent (text parent : String) : String :=
  String.ofList (text.toList.flatMap fun c => if c = parentMark then parent.toList else [c])

/-- The path of an alternative below a parent path. -/
def nest (parent text : String) : String :=
  match Alternative.classify text true with
  | .reference t => replaceParent t parent
  | .pseudo t => parent ++ t
  | .descendant t | .root t => parent ++ " " ++ t

/-- The path of an alternative with no path above it; there the mark stands for nothing. -/
def top (text : String) : String :=
  match Alternative.classify text false with
  | .reference t => Text.trim (replaceParent t "")
  | .pseudo t | .descendant t | .root t => t

/-- The list with the first of equal members only. -/
def distinct {α : Type} [DecidableEq α] : List α → List α
  | [] => []
  | x :: xs => x :: (distinct xs).filter (· ≠ x)

/-- The paths of a key: each parent path with each alternative, parent by parent, and the first of
    equal paths only. -/
def combine (parents alternatives : List String) : List String :=
  distinct <|
    if parents.isEmpty then alternatives.map top
    else parents.flatMap fun p => alternatives.map (nest p)

@[simp] theorem distinct_nil {α : Type} [DecidableEq α] : distinct ([] : List α) = [] := rfl

theorem mem_distinct {α : Type} [DecidableEq α] {x : α} {xs : List α} : x ∈ distinct xs ↔ x ∈ xs := by
  induction xs with
  | nil => simp
  | cons y ys ih => by_cases h : x = y <;> simp [distinct, ih, h]

theorem nodup_distinct {α : Type} [DecidableEq α] (xs : List α) : (distinct xs).Nodup := by
  induction xs with
  | nil => simp
  | cons y ys ih => exact List.nodup_cons.mpr ⟨by simp, List.Pairwise.filter _ ih⟩

end StyleTree.Selector

/-! Texts joined by a separator. -/

namespace StyleTree.Text

/-- The texts in order with `separator` between each two neighbours. -/
def joinWith (separator : String) : List String → String
  | [] => ""
  | [s] => s
  | s :: rest => s ++ separator ++ joinWith separator rest

@[simp] theorem joinWith_nil (separator : String) : joinWith separator [] = "" := rfl

@[simp] theorem joinWith_singleton (separator s : String) : joinWith separator [s] = s := rfl

theorem joinWith_cons_cons (separator s t : String) (rest : List String) :
    joinWith separator (s :: t :: rest) = s ++ separator ++ joinWith separator (t :: rest) := rfl

end StyleTree.Text

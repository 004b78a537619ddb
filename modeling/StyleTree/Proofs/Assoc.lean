import Mathlib.Data.List.Induction
import Mathlib.Data.List.Nodup
import StyleTree.Assoc

/-! Look-ups and updates of association lists. What is found under a key is its first entry, a value put in
    changes what is found under its own key only, and the keys keep their places. -/

namespace StyleTree.Assoc

variable {α β : Type} [DecidableEq α] {m : List (α × β)} {k : α}

/-! ### Look-ups -/

theorem get?_append (m₁ m₂ : List (α × β)) (k : α) : get? (m₁ ++ m₂) k = (get? m₁ k).or (get? m₂ k) := by
  induction m₁ with
  | nil => rfl
  | cons e m₁ ih =>
    rw [List.cons_append, get?_cons, get?_cons, ih]
    split <;> rfl

theorem get?_eq_none_iff : get? m k = none ↔ k ∉ m.map (·.1) := by
  rw [← contains_iff, contains_eq_isSome, Bool.not_eq_true, Option.isSome_eq_false_iff, Option.isNone_iff_eq_none]

theorem get?_erase (m : List (α × β)) (k k' : α) : get? (erase m k) k' = if k' = k then none else get? m k' := by
  induction m with
  | nil => simp [erase]
  | cons e m ih => grind [erase, get?]

/-- An entry put in at any place is found, if its key is new. -/
theorem get?_insertAt (hk : k ∉ m.map (·.1)) (i : Nat) (v : β) (k' : α) :
    get? (insertAt m i k v) k' = if k = k' then some v else get? m k' := by
  have hsplit : get? m k' = (get? (m.take i) k').or (get? (m.drop i) k') := by
    rw [← get?_append, List.take_append_drop]
  rw [insertAt, get?_append, get?_cons, hsplit]
  by_cases h : k = k'
  · have : get? (m.take i) k = none :=
      get?_eq_none_iff.mpr fun hm => hk (((List.take_sublist i m).map _).subset hm)
    rw [if_pos h, if_pos h, ← h, this, Option.none_or]
  · rw [if_neg h, if_neg h]

theorem mem_of_get? {v : β} (h : get? m k = some v) : (k, v) ∈ m := by
  induction m with
  | nil => cases h
  | cons e rest ih =>
    rw [get?_cons] at h
    split at h
    · next he =>
      cases h
      exact he ▸ List.mem_cons_self
    · exact List.mem_cons_of_mem _ (ih h)

theorem get?_of_mem {v : β} (hn : (m.map (·.1)).Nodup) (h : (k, v) ∈ m) : get? m k = some v := by
  induction m with
  | nil => cases h
  | cons e rest ih =>
    rw [List.map_cons, List.nodup_cons] at hn
    rw [get?_cons]
    rcases List.mem_cons.mp h with rfl | h
    · exact if_pos rfl
    · have hne : e.1 ≠ k := fun heq => hn.1 (heq ▸ List.mem_map_of_mem h)
      rw [if_neg hne, ih hn.2 h]

/-! ### Entries put in -/

theorem nodup_put {v : β} (h : (m.map (·.1)).Nodup) : ((put m k v).map (·.1)).Nodup := by
  rw [map_fst_put]
  split
  · exact h
  · next hk =>
    rw [← List.concat_eq_append]
    exact List.Nodup.concat hk h

theorem mem_put {v : β} {e : α × β} (h : e ∈ put m k v) : e ∈ m ∨ e = (k, v) := by
  induction m with
  | nil => exact .inr (List.mem_singleton.mp h)
  | cons e' m ih =>
    rw [put] at h
    split at h
    · exact (List.mem_cons.mp h).symm.imp_left (List.mem_cons_of_mem _)
    · rcases List.mem_cons.mp h with rfl | h
      · exact .inl List.mem_cons_self
      · exact (ih h).imp_left (List.mem_cons_of_mem _)

theorem mem_insertAt {α β : Type} {m : List (α × β)} {i : Nat} {k : α} {v : β} {e : α × β} :
    e ∈ insertAt m i k v ↔ e = (k, v) ∨ e ∈ m := by
  rw [insertAt, List.perm_middle.mem_iff, List.mem_cons, List.take_append_drop]

theorem put_of_not_mem (h : k ∉ m.map (·.1)) (v : β) : put m k v = m ++ [(k, v)] := by
  induction m with
  | nil => rfl
  | cons e m ih =>
    rw [List.map_cons, List.mem_cons, not_or] at h
    rw [put, if_neg (Ne.symm h.1), ih h.2, List.cons_append]

/-- A value that is found already does not change the list. -/
theorem put_of_get? {v : β} (h : get? m k = some v) : put m k v = m := by
  induction m with
  | nil => cases h
  | cons e m ih =>
    rw [get?_cons] at h
    rw [put]
    split at h
    · next he =>
      cases h
      rw [if_pos he, ← he]
    · next he => rw [if_neg he, ih h]

theorem erase_of_not_mem (h : k ∉ m.map (·.1)) : erase m k = m :=
  List.filter_eq_self.mpr fun _ he => decide_eq_true fun heq => h (heq ▸ List.mem_map_of_mem he)

theorem erase_cons (e : α × β) (m : List (α × β)) (k : α) :
    erase (e :: m) k = if e.1 = k then erase m k else e :: erase m k := by
  by_cases h : e.1 = k <;> simp [erase, h]

theorem erase_put_of_ne {k' : α} (hne : k ≠ k') (m : List (α × β)) (v : β) : erase (put m k v) k' = put (erase m k') k v := by
  induction m with
  | nil => simp [put, erase, hne]
  | cons e m ih =>
    rw [put, erase_cons]
    by_cases he : e.1 = k
    · rw [if_pos he, erase_cons, if_neg hne, if_neg (he ▸ hne), put, if_pos he]
    · rw [if_neg he, erase_cons]
      by_cases he' : e.1 = k'
      · rw [if_pos he', if_pos he', ih]
      · rw [if_neg he', if_neg he', ih, put, if_neg he]

/-! ### Entries put in again -/

theorem putAll_append (m es es' : List (α × β)) : putAll m (es ++ es') = putAll (putAll m es) es' := List.foldl_append ..

theorem putAll_cons (m : List (α × β)) (e : α × β) (es : List (α × β)) :
    putAll m (e :: es) = putAll (put m e.1 e.2) es := rfl

theorem put_put (m : List (α × β)) (k : α) (v v' : β) : put (put m k v) k v' = put m k v' := by
  induction m with
  | nil => exact if_pos rfl
  | cons e m ih =>
    by_cases h : e.1 = k
    · simp [put, h]
    · simp [put, h, ih]

/-- A value put at a key that is there does not move any other. -/
theorem put_comm {m : List (α × β)} {k k' : α} (hne : k ≠ k') (hk : k' ∈ m.map (·.1)) (v v' : β) :
    put (put m k v) k' v' = put (put m k' v') k v := by
  induction m with
  | nil => cases hk
  | cons e m ih =>
    by_cases h : e.1 = k
    · have h' : e.1 ≠ k' := fun h' => hne (h.symm.trans h')
      simp [put, h, hne]
    · by_cases h' : e.1 = k'
      · simp [put, h', Ne.symm hne]
      · have hk : k' ∈ m.map (·.1) := (List.mem_cons.mp hk).resolve_left (Ne.symm h')
        simp [put, h, h', ih hk]

theorem mem_keys_put {k' : α} {v : β} : k' ∈ (put m k v).map (·.1) ↔ k' ∈ m.map (·.1) ∨ k' = k := by
  rw [map_fst_put]
  split
  · next h => exact ⟨.inl, fun hk => hk.elim id (· ▸ h)⟩
  · rw [List.mem_append, List.mem_singleton]

theorem mem_keys_putAll {m es : List (α × β)} {k : α} :
    k ∈ (putAll m es).map (·.1) ↔ k ∈ m.map (·.1) ∨ k ∈ es.map (·.1) := by
  induction es generalizing m with
  | nil => simp [putAll]
  | cons e es ih => rw [putAll_cons, ih, mem_keys_put, List.map_cons, List.mem_cons, or_assoc]

/-- A value that is overwritten in the end may as well not be put in. -/
theorem put_putAll_put {m es : List (α × β)} (h : ∀ e ∈ es, e.1 ∈ m.map (·.1)) (k : α) (v v' : β) :
    put (putAll (put m k v) es) k v' = put (putAll m es) k v' := by
  induction es generalizing m with
  | nil => exact put_put m k v v'
  | cons e es ih =>
    have hes : ∀ e' ∈ es, e'.1 ∈ (put m e.1 e.2).map (·.1) := fun e' he' =>
      mem_keys_put.mpr (.inl (h e' (List.mem_cons_of_mem _ he')))
    rw [putAll_cons, putAll_cons]
    by_cases hk : k = e.1
    · rw [hk, put_put]
    · rw [put_comm hk (h e List.mem_cons_self), ih hes]

theorem putAll_putAll_self (m es : List (α × β)) : putAll (putAll m es) es = putAll m es := by
  induction es using List.reverseRecOn with
  | nil => rfl
  | append_singleton es e ih =>
    have hkeys : ∀ e' ∈ es, e'.1 ∈ (putAll m es).map (·.1) := fun e' he' =>
      mem_keys_putAll.mpr (.inr (List.mem_map_of_mem he'))
    have hput (m' : List (α × β)) : putAll m' [e] = put m' e.1 e.2 := rfl
    rw [putAll_append, putAll_append, hput, hput, put_putAll_put hkeys, ih]

end StyleTree.Assoc

import ChessRecast.Lib.Keyed

/-!
# Lists that agree in chosen views

A view of a list is what a filter leaves of it. Two lists may differ in the order of their records
and still agree in each view of a family; a program that reads a list through these views only, and
changes it by filters, appends and removals, cannot tell them apart.
-/

namespace Views

variable {α ι : Type} {view : ι → α → Bool} {l l' l₁ l₁' l₂ l₂' : List α}

/-- Both lists show the same in each view. -/
def Agree (view : ι → α → Bool) (l l' : List α) : Prop :=
  ∀ i, l.filter (view i) = l'.filter (view i)

theorem Agree.find? (h : Agree view l l') (i : ι) : l.find? (view i) = l'.find? (view i) := by
  rw [← List.head?_filter, ← List.head?_filter, h i]

theorem Agree.append (h₁ : Agree view l₁ l₁') (h₂ : Agree view l₂ l₂') :
    Agree view (l₁ ++ l₂) (l₁' ++ l₂') := by
  intro i
  rw [List.filter_append, List.filter_append, h₁ i, h₂ i]

theorem Agree.concat (h : Agree view l l') (a : α) : Agree view (l ++ [a]) (l' ++ [a]) :=
  h.append fun _ => rfl

theorem Agree.reverse (h : Agree view l l') : Agree view l.reverse l'.reverse := by
  intro i
  rw [List.filter_reverse, List.filter_reverse, h i]

theorem Agree.filter (h : Agree view l l') (p : α → Bool) :
    Agree view (l.filter p) (l'.filter p) := by
  intro i
  rw [List.filter_comm, h i, List.filter_comm]

/-- Lists that agree in views that show every record are permutations of each other. -/
theorem Agree.perm [DecidableEq α] (hall : ∀ a, ∃ i, view i a = true) (h : Agree view l l') :
    l.Perm l' := by
  rw [List.perm_iff_count]
  intro a
  obtain ⟨i, hi⟩ := hall a
  rw [← List.count_filter hi, h i, List.count_filter hi]

/-! ## Removing one match -/

/-- The first match disappears from the views that show it. -/
theorem filter_eraseP (p q : α → Bool) (l : List α) : (l.eraseP p).filter q =
    if (l.find? p).any q then (l.filter q).eraseP p else l.filter q := by
  induction l with
  | nil => rfl
  | cons a l ih =>
    by_cases hp : p a = true
    · rw [List.eraseP_cons_of_pos hp, List.find?_cons_of_pos hp]
      by_cases hq : q a = true
      · rw [List.filter_cons_of_pos hq, List.eraseP_cons_of_pos hp]
        exact (if_pos hq).symm
      · rw [List.filter_cons_of_neg hq]
        exact (if_neg hq).symm
    · rw [List.eraseP_cons_of_neg hp, List.find?_cons_of_neg hp]
      by_cases hq : q a = true
      · rw [List.filter_cons_of_pos hq, List.filter_cons_of_pos hq, ih,
          List.eraseP_cons_of_neg hp]
        split <;> rfl
      · rw [List.filter_cons_of_neg hq, List.filter_cons_of_neg hq, ih]

theorem Agree.eraseP (h : Agree view l l') {p : α → Bool} (hp : l.find? p = l'.find? p) :
    Agree view (l.eraseP p) (l'.eraseP p) := by
  intro i
  rw [filter_eraseP, filter_eraseP, hp, h i]

theorem Agree.eraseLast (h : Agree view l l') {p : α → Bool}
    (hp : l.reverse.find? p = l'.reverse.find? p) :
    Agree view (Keyed.eraseLast p l) (Keyed.eraseLast p l') :=
  (h.reverse.eraseP hp).reverse

theorem Agree.eraseLast_view (h : Agree view l l') (i : ι) :
    Agree view (Keyed.eraseLast (view i) l) (Keyed.eraseLast (view i) l') :=
  h.eraseLast (h.reverse.find? i)

/-- A given record is found in both lists or in none. -/
theorem find?_eq_of_perm [DecidableEq α] (h : l.Perm l') (a : α) :
    l.find? (fun b => b = a) = l'.find? fun b => b = a := by
  have hfound : ∀ k : List α, k.find? (fun b => b = a) = if a ∈ k then some a else none := by
    intro k
    cases hf : k.find? fun b => b = a with
    | none =>
      rw [if_neg]
      intro ha
      have := List.find?_eq_none.mp hf a ha
      simp at this
    | some b =>
      have hb : b = a := by simpa using List.find?_some hf
      rw [if_pos (hb ▸ List.mem_of_find?_eq_some hf), hb]
  rw [hfound, hfound]
  simp only [h.mem_iff]

/-! ## Distinct keys -/

/-- With distinct keys a permutation shows the same record under each key. -/
theorem filter_key_eq_of_perm {κ : Type} [DecidableEq κ] {key : α → κ}
    (hd : Keyed.Distinct key l) (h : l.Perm l') (k : κ) :
    (l.filter fun a => key a = k) = l'.filter fun a => key a = k := by
  have hperm := h.filter fun a => decide (key a = k)
  have hshort : (l.filter fun a => decide (key a = k)).length ≤ 1 := by
    have hone := hd.filter fun a => decide (key a = k)
    have hkey : ∀ a ∈ l.filter (fun a => decide (key a = k)), key a = k :=
      fun a ha => of_decide_eq_true (List.mem_filter.mp ha).2
    generalize l.filter (fun a => decide (key a = k)) = found at hone hkey
    match found with
    | [] => exact Nat.zero_le 1
    | [_] => exact Nat.le_refl 1
    | a :: b :: _ =>
      refine absurd ?_ ((List.pairwise_cons.mp hone).1 b (by simp))
      rw [hkey a (by simp), hkey b (by simp)]
  generalize l.filter (fun a => decide (key a = k)) = found at hperm hshort
  match found with
  | [] => exact hperm.nil_eq
  | [_] => exact hperm.singleton_eq
  | _ :: _ :: _ => exact absurd hshort (by simp)

end Views

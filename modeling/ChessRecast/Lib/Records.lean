import Mathlib.Data.List.Basic

/-!
# Texts made of fields and of tagged records

A field ends at its separator. A text that lists, index by index, either nothing or a record of
fixed width which ends with the tag of its index can be read back: the tags say which indices have
a record.
-/

namespace Records

variable {ι α : Type}

/-- Fields without the separator can be cut off at it. -/
theorem append_sep_inj {sep : α} {xs xs' ys ys' : List α} (h : sep ∉ xs) (h' : sep ∉ xs') :
    xs ++ sep :: ys = xs' ++ sep :: ys' ↔ xs = xs' ∧ ys = ys' := by
  induction xs generalizing xs' with
  | nil =>
    cases xs' with
    | nil => simp
    | cons x' xs' =>
      have hne : sep ≠ x' := fun heq => h' (by rw [heq]; exact List.mem_cons_self)
      simp [hne]
  | cons x xs ih =>
    cases xs' with
    | nil =>
      have hne : x ≠ sep := fun heq => h (by rw [heq]; exact List.mem_cons_self)
      simp [hne]
    | cons x' xs' =>
      have hrest := ih (fun hmem => h (List.mem_cons_of_mem _ hmem))
        (fun hmem => h' (List.mem_cons_of_mem _ hmem))
      simp [hrest, and_assoc]

/-- Nothing, or `width` letters whose last ones, from `skip` on, are the tag. -/
def IsRecord (width skip : ℕ) (tag r : List α) : Prop :=
  r = [] ∨ (r.length = width ∧ r.drop skip = tag)

/-- The first record of the text shows the tag of one of the indices. -/
theorem exists_tag_of_ne_nil {width skip : ℕ} {tag f : ι → List α} : ∀ indices : List ι,
    (∀ i ∈ indices, IsRecord width skip (tag i) (f i)) → indices.flatMap f ≠ [] →
    ∃ j ∈ indices, ((indices.flatMap f).take width).drop skip = tag j := by
  intro indices
  induction indices with
  | nil => exact fun _ hne => absurd rfl hne
  | cons i indices ih =>
    intro hf hne
    rw [List.flatMap_cons] at hne ⊢
    rcases hf i List.mem_cons_self with hnil | ⟨hlen, htag⟩
    · rw [hnil, List.nil_append] at hne ⊢
      obtain ⟨j, hj, hread⟩ := ih (fun j hj => hf j (List.mem_cons_of_mem _ hj)) hne
      exact ⟨j, List.mem_cons_of_mem _ hj, hread⟩
    · refine ⟨i, List.mem_cons_self, ?_⟩
      rw [← hlen, List.take_left', htag]
      rfl

theorem flatMap_inj {width skip : ℕ} {tag f g : ι → List α} (hwidth : 0 < width) :
    ∀ indices : List ι, indices.Pairwise (fun i j => tag i ≠ tag j) →
      (∀ i ∈ indices, IsRecord width skip (tag i) (f i)) →
      (∀ i ∈ indices, IsRecord width skip (tag i) (g i)) →
      indices.flatMap f = indices.flatMap g → ∀ i ∈ indices, f i = g i := by
  -- a record on one side only: the other text would have to start with the same tag further on
  have hclash : ∀ (f g : ι → List α) (i : ι) (indices : List ι),
      (∀ j ∈ indices, tag i ≠ tag j) → (∀ j ∈ indices, IsRecord width skip (tag j) (f j)) →
      (g i).length = width → (g i).drop skip = tag i →
      indices.flatMap f ≠ g i ++ indices.flatMap g := by
    intro f g i indices hdist hf hlen htag heq
    have hne : indices.flatMap f ≠ [] := by
      intro hnil
      rw [hnil] at heq
      have hzero := congrArg List.length heq
      rw [List.length_append, hlen, List.length_nil] at hzero
      omega
    obtain ⟨j, hj, hread⟩ := exists_tag_of_ne_nil indices hf hne
    rw [heq, ← hlen, List.take_left', htag] at hread
    · exact hdist j hj hread
    · rfl
  intro indices
  induction indices with
  | nil => exact fun _ _ _ _ i hi => (List.not_mem_nil hi).elim
  | cons i indices ih =>
    intro hdist hf hg heq
    rw [List.pairwise_cons] at hdist
    have hf' := fun j hj => hf j (List.mem_cons_of_mem _ hj)
    have hg' := fun j hj => hg j (List.mem_cons_of_mem _ hj)
    rw [List.flatMap_cons, List.flatMap_cons] at heq
    have hhead : f i = g i ∧ indices.flatMap f = indices.flatMap g := by
      rcases hf i List.mem_cons_self with hfnil | ⟨hflen, hftag⟩ <;>
        rcases hg i List.mem_cons_self with hgnil | ⟨hglen, hgtag⟩
      · rw [hfnil, hgnil] at heq
        exact ⟨hfnil.trans hgnil.symm, heq⟩
      · rw [hfnil, List.nil_append] at heq
        exact absurd heq (hclash f g i indices hdist.1 hf' hglen hgtag)
      · rw [hgnil, List.nil_append] at heq
        exact absurd heq.symm (hclash g f i indices hdist.1 hg' hflen hftag)
      · exact List.append_inj heq (hflen.trans hglen.symm)
    intro j hj
    rcases List.mem_cons.mp hj with rfl | hj
    · exact hhead.1
    · exact ih hdist.2 hf' hg' hhead.2 j hj

end Records

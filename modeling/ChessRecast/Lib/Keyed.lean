import Mathlib.Tactic

/-!
# Lists of records looked up by a key

A list of records, each with a key, used as a map: a lookup takes the first record with the
key, an update removes records by key and appends the new one at the end. While keys are
pairwise distinct (`Distinct`), first, last and every match are the same record, so the
different ways of removing it agree and lookups follow the usual laws of a finite map.
-/

namespace Keyed

variable {α κ : Type} [DecidableEq κ] (key : α → κ)

/-- The first record with key `k`. -/
def lookup (l : List α) (k : κ) : Option α := l.find? fun a => key a = k

/-- No two records share a key. -/
def Distinct (l : List α) : Prop := l.Pairwise fun a b => key a ≠ key b

instance (l : List α) : Decidable (Distinct key l) :=
  inferInstanceAs (Decidable (l.Pairwise fun a b => key a ≠ key b))

/-- Remove the last record that satisfies `p`, as a loop that runs backwards does. -/
def eraseLast (p : α → Bool) (l : List α) : List α := (l.reverse.eraseP p).reverse

variable {key} {l : List α}

/-! ## Lookup -/

theorem lookup_eq_none_iff {k : κ} : lookup key l k = none ↔ ∀ a ∈ l, key a ≠ k := by
  simp [lookup]

theorem mem_of_lookup {k : κ} {a : α} (h : lookup key l k = some a) : a ∈ l ∧ key a = k :=
  ⟨List.mem_of_find?_eq_some h, by simpa using List.find?_some h⟩

omit [DecidableEq κ] in
theorem Distinct.eq_of_key (hd : Distinct key l) {a b : α} (ha : a ∈ l) (hb : b ∈ l)
    (h : key a = key b) : a = b := by
  induction l with
  | nil => simp at ha
  | cons x l ih =>
    obtain ⟨hx, hl⟩ := List.pairwise_cons.mp hd
    rcases List.mem_cons.mp ha with rfl | ha'
    · rcases List.mem_cons.mp hb with rfl | hb'
      · rfl
      · exact absurd h (hx b hb')
    · rcases List.mem_cons.mp hb with rfl | hb'
      · exact absurd h.symm (hx a ha')
      · exact ih hl ha' hb'

theorem Distinct.lookup_eq_some_iff (hd : Distinct key l) {k : κ} {a : α} :
    lookup key l k = some a ↔ a ∈ l ∧ key a = k := by
  constructor
  · exact mem_of_lookup
  · rintro ⟨ha, rfl⟩
    cases hl : lookup key l (key a) with
    | none => exact absurd rfl (lookup_eq_none_iff.mp hl a ha)
    | some b =>
      obtain ⟨hb, hkey⟩ := mem_of_lookup hl
      rw [hd.eq_of_key hb ha hkey]

omit [DecidableEq κ] in
theorem Distinct.perm (hd : Distinct key l) {l' : List α} (h : l.Perm l') : Distinct key l' :=
  (h.pairwise_iff fun hne => hne.symm).mp hd

/-- Distinct keys make the order of the records irrelevant. -/
theorem Distinct.lookup_perm (hd : Distinct key l) {l' : List α} (h : l.Perm l') (k : κ) :
    lookup key l k = lookup key l' k := by
  apply Option.ext
  intro a
  rw [hd.lookup_eq_some_iff, (hd.perm h).lookup_eq_some_iff, h.mem_iff]

theorem lookup_append (l l' : List α) (k : κ) :
    lookup key (l ++ l') k = (lookup key l k).or (lookup key l' k) := by
  simp [lookup, List.find?_append]

theorem lookup_append_singleton (a : α) (k : κ) :
    lookup key (l ++ [a]) k
      = (lookup key l k).or (if key a = k then some a else none) := by
  rw [lookup_append]
  congr 1
  by_cases h : key a = k <;> simp [lookup, h]

/-- Removing every record with key `k` empties that key and leaves the others alone. -/
theorem lookup_filter_ne (k j : κ) :
    lookup key (l.filter fun a => key a ≠ k) j = if j = k then none else lookup key l j := by
  induction l with
  | nil => simp [lookup]
  | cons a l ih =>
    unfold lookup at ih ⊢
    by_cases hak : key a = k
    · rw [List.filter_cons_of_neg (by simpa using hak), ih]
      by_cases hjk : j = k
      · simp [hjk]
      · have haj : key a ≠ j := fun h => hjk (h.symm.trans hak)
        simp [hjk, haj]
    · rw [List.filter_cons_of_pos (by simpa using hak)]
      by_cases haj : key a = j
      · have hjk : j ≠ k := fun h => hak (haj.trans h)
        simp [haj, hjk]
      · simp only [haj, decide_false, List.find?_cons_of_neg, Bool.false_eq_true, not_false_eq_true]
        exact ih

/-! ## Distinct keys are kept -/

omit [DecidableEq κ] in
theorem Distinct.filter (hd : Distinct key l) (p : α → Bool) : Distinct key (l.filter p) :=
  List.Pairwise.filter p hd

omit [DecidableEq κ] in
theorem distinct_append_singleton_iff {a : α} :
    Distinct key (l ++ [a]) ↔ Distinct key l ∧ ∀ b ∈ l, key b ≠ key a := by
  unfold Distinct
  rw [List.pairwise_append]
  simp

theorem Distinct.append_singleton (hd : Distinct key l) {a : α}
    (hfresh : lookup key l (key a) = none) : Distinct key (l ++ [a]) := by
  exact distinct_append_singleton_iff.mpr ⟨hd, lookup_eq_none_iff.mp hfresh⟩

/-! ## Records in the order of their keys -/

/-! ## Lists without repetitions -/

variable (key) in
omit [DecidableEq κ] in
theorem nodup_flatMap {ks : List κ} {f : κ → List α} (hks : ks.Nodup) (hf : ∀ k ∈ ks, (f k).Nodup)
    (hkey : ∀ k ∈ ks, ∀ a ∈ f k, key a = k) : (ks.flatMap f).Nodup := by
  rw [List.nodup_flatMap]
  refine ⟨hf, hks.imp_of_mem fun {j k} hj hk hne a haj hak => hne ?_⟩
  rw [← hkey j hj a haj, ← hkey k hk a hak]

variable (key) in
omit [DecidableEq κ] in
theorem nodup_append {l' : List α} (hl : l.Nodup) (hl' : l'.Nodup)
    (hkey : ∀ a ∈ l, ∀ b ∈ l', key a ≠ key b) : (l ++ l').Nodup :=
  hl.append hl' fun a ha ha' => hkey a ha a ha' rfl

section Order

omit [DecidableEq κ]

variable [LinearOrder κ]

/-- Sorting records with distinct keys leaves them strictly ascending. -/
theorem Distinct.ascending_insertionSort (hd : Distinct key l) :
    (l.insertionSort fun a b => key a ≤ key b).Pairwise fun a b => key a < key b := by
  have : Std.Total fun a b : α => key a ≤ key b := ⟨fun a b => le_total (key a) (key b)⟩
  have : IsTrans α fun a b => key a ≤ key b := ⟨fun _ _ _ => le_trans⟩
  have hsorted := List.pairwise_insertionSort (fun a b => key a ≤ key b) l
  have hdistinct := hd.perm (List.perm_insertionSort (fun a b => key a ≤ key b) l).symm
  exact hsorted.imp₂ (fun _ _ hle hne => lt_of_le_of_ne hle hne) hdistinct

variable (key) in
/-- A strictly ascending list is determined by its members. -/
theorem eq_of_ascending {l' : List α} (hl : l.Pairwise fun a b => key a < key b)
    (hl' : l'.Pairwise fun a b => key a < key b) (hmem : ∀ a, a ∈ l ↔ a ∈ l') : l = l' := by
  have hnodup : ∀ {m : List α}, (m.Pairwise fun a b => key a < key b) → m.Nodup :=
    fun hm => hm.imp fun hlt heq => absurd (congrArg key heq) hlt.ne
  have hperm := (List.perm_ext_iff_of_nodup (hnodup hl) (hnodup hl')).mpr hmem
  exact hperm.eq_of_pairwise (fun _ _ _ _ hab hba => absurd (hab.trans hba) (lt_irrefl _)) hl hl'

end Order

/-! ## Removing one match -/

private theorem eraseP_eq_filter_of_unique (p : α → Bool) :
    ∀ l : List α, l.Pairwise (fun a b => ¬ (p a = true ∧ p b = true)) →
      l.eraseP p = l.filter fun a => !p a
  | [], _ => rfl
  | a :: l, h => by
    rw [List.pairwise_cons] at h
    by_cases hpa : p a = true
    · have hrest : l.filter (fun b => !p b) = l := by
        rw [List.filter_eq_self]
        intro b hb
        have := h.1 b hb
        simpa [hpa] using this
      simp [hpa, hrest]
    · simp [hpa, eraseP_eq_filter_of_unique p l h.2]

/-- With at most one match, removing the last match removes all of them. -/
theorem eraseLast_eq_filter {p : α → Bool}
    (h : l.Pairwise fun a b => ¬ (p a = true ∧ p b = true)) :
    eraseLast p l = l.filter fun a => !p a := by
  unfold eraseLast
  rw [eraseP_eq_filter_of_unique p l.reverse, List.filter_reverse, List.reverse_reverse]
  rw [List.pairwise_reverse]
  exact h.imp fun hab hba => hab ⟨hba.2, hba.1⟩

theorem Distinct.eraseLast_key (hd : Distinct key l) (k : κ) :
    eraseLast (fun a => key a = k) l = l.filter fun a => key a ≠ k := by
  rw [eraseLast_eq_filter (hd.imp fun hne hp => hne (by simp at hp; rw [hp.1, hp.2]))]
  simp

section Equality

variable [DecidableEq α]

omit [DecidableEq κ] in
theorem Distinct.eraseLast_eq (hd : Distinct key l) (a : α) :
    eraseLast (fun b => b = a) l = l.filter fun b => b ≠ a := by
  rw [eraseLast_eq_filter (hd.imp fun hne hp => hne (by simp at hp; rw [hp.1, hp.2]))]
  simp

theorem Distinct.filter_ne (hd : Distinct key l) {a : α} (ha : a ∈ l) :
    (l.filter fun b => b ≠ a) = l.filter fun b => key b ≠ key a := by
  apply List.filter_congr
  intro b hb
  rw [decide_eq_decide, not_iff_not]
  exact ⟨congrArg key, hd.eq_of_key hb ha⟩

end Equality

end Keyed

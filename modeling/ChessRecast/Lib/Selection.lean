import Mathlib.Tactic

/-!
# Bounded insertion into an array

An array of items with their scores has a fixed first slot and room for `limit` items. A new item is
moved forward from the end past all lower scores; in a full array it takes the place of the last
one. So after a list of items the array has the best of them, in the order of their scores and, for
equal scores, of the list (`isSelection_run`).
-/

namespace Selection

variable {α : Type}

/-- The slots of an array, those from `count` on without a meaning. -/
structure Slots (α : Type) where
  slot : ℕ → α × ℤ
  count : ℕ

/-- The first `n` slots. -/
def upTo (slot : ℕ → α × ℤ) (n : ℕ) : List (α × ℤ) := (List.range n).map slot

def Slots.list (s : Slots α) : List (α × ℤ) := upTo s.slot s.count

/-- From the slot `n` lower scores are moved back by one, but not the first slot. Returns the slot
that is free then. -/
def shift (limit : ℕ) (score : ℤ) : ℕ → (ℕ → α × ℤ) → ℕ × (ℕ → α × ℤ)
  | 0, slot => (0, slot)
  | n + 1, slot =>
    if n + 1 > 1 ∧ (slot n).2 < score then
      shift limit score n (if n + 1 < limit then Function.update slot (n + 1) (slot n) else slot)
    else (n + 1, slot)

/-- A new item, unless the array is full and its last item as good. -/
def Slots.insert (limit : ℕ) (s : Slots α) (a : α) (score : ℤ) : Slots α :=
  if s.count = limit ∧ score ≤ (s.slot (s.count - 1)).2 then s
  else
    let start := if s.count > limit - 1 then limit - 1 else s.count
    let moved := shift limit score start s.slot
    if moved.1 < limit then
      ⟨Function.update moved.2 moved.1 (a, score), if s.count < limit then s.count + 1 else s.count⟩
    else ⟨moved.2, s.count⟩

section Offer

variable [DecidableEq α]

/-- An item that is there already or has no score is passed over. -/
def Slots.offer (limit : ℕ) (score : α → Option ℤ) (s : Slots α) (a : α) : Slots α :=
  if a ∈ s.list.map Prod.fst then s
  else
    match score a with
    | none => s
    | some v => s.insert limit a v

/-- The array with `first` in its first slot, and then a list of items. -/
def run (limit : ℕ) (first : α × ℤ) (score : α → Option ℤ) (items : List α) : Slots α :=
  items.foldl (Slots.offer limit score) ⟨fun _ => first, 1⟩

/-- A higher score, or the same score and an earlier place in the list. -/
def Before (items : List α) (x y : α × ℤ) : Prop :=
  y.2 < x.2 ∨ x.2 = y.2 ∧ items.idxOf x.1 < items.idxOf y.1

/-- The array that `first` and the best items of the list give. -/
structure IsSelection (limit : ℕ) (first : α × ℤ) (score : α → Option ℤ) (items : List α)
    (chosen : List (α × ℤ)) : Prop where
  head : ∃ rest, chosen = first :: rest
  nodup : (chosen.map Prod.fst).Nodup
  length_le : chosen.length ≤ limit
  scored : ∀ x ∈ chosen.tail, x.1 ∈ items ∧ score x.1 = some x.2
  ordered : chosen.tail.Pairwise (Before items)
  best : ∀ a ∈ items, ∀ v, score a = some v → a ∉ chosen.map Prod.fst →
    chosen.length = limit ∧ ∀ x ∈ chosen.tail, Before items x (a, v)

end Offer

/-! ## The shift -/

theorem upTo_succ (slot : ℕ → α × ℤ) (n : ℕ) : upTo slot (n + 1) = upTo slot n ++ [slot n] := by
  rw [upTo, List.range_succ, List.map_append]
  rfl

@[simp] theorem length_upTo (slot : ℕ → α × ℤ) (n : ℕ) : (upTo slot n).length = n := by
  simp [upTo]

theorem upTo_update {slot : ℕ → α × ℤ} {n k : ℕ} (h : n ≤ k) (x : α × ℤ) :
    upTo (Function.update slot k x) n = upTo slot n := by
  apply List.map_congr_left
  intro i hi
  have := List.mem_range.mp hi
  exact Function.update_of_ne (by omega) _ _

variable {limit : ℕ}

theorem shift_fst_le (score : ℤ) (n : ℕ) :
    ∀ slot : ℕ → α × ℤ, (shift limit score n slot).1 ≤ n := by
  induction n with
  | zero => exact fun slot => le_rfl
  | succ n ih =>
    intro slot
    unfold shift
    split
    · exact (ih _).trans (Nat.le_succ n)
    · exact le_rfl

theorem shift_snd_of_lt (score : ℤ) (n : ℕ) : ∀ (slot : ℕ → α × ℤ) {k : ℕ}, n < k →
    (shift limit score n slot).2 k = slot k := by
  induction n with
  | zero => exact fun slot k _ => rfl
  | succ n ih =>
    intro slot k hk
    unfold shift
    split
    · rw [ih _ (by omega)]
      split
      · exact Function.update_of_ne (by omega) _ _
      · rfl
    · rfl

theorem upTo_succ_left (slot : ℕ → α × ℤ) (n : ℕ) :
    upTo slot (n + 1) = slot 0 :: upTo (fun i => slot (i + 1)) n := by
  rw [upTo, List.range_succ_eq_map, List.map_cons, List.map_map]
  rfl

theorem slot_mem_of_upTo {slot : ℕ → α × ℤ} {x : α × ℤ} {tail : List (α × ℤ)} {n : ℕ}
    (h : upTo slot (n + 2) = x :: tail) : slot (n + 1) ∈ tail := by
  rw [upTo_succ_left] at h
  rw [← (List.cons.inj h).2]
  exact List.mem_map.mpr ⟨n, List.self_mem_range_succ, rfl⟩

theorem upTo_concat_inj {slot : ℕ → α × ℤ} {x y : α × ℤ} {front back : List (α × ℤ)} {n : ℕ}
    (h : upTo slot (n + 1) = x :: (front ++ (back ++ [y]))) :
    upTo slot n = x :: (front ++ back) ∧ slot n = y := by
  rw [upTo_succ, ← List.append_assoc, ← List.cons_append] at h
  obtain ⟨hrest, hlast⟩ := List.append_inj' h rfl
  exact ⟨hrest, List.singleton_injective hlast⟩

/-- The new item in the free slot stands between the scores that are as good and the lower ones. -/
theorem upTo_shift {x : α × ℤ} {front : List (α × ℤ)} (hfront : ∀ y ∈ front, x.2 ≤ y.2)
    (back : List (α × ℤ)) : ∀ (n : ℕ) (slot : ℕ → α × ℤ), n + 1 < limit →
      (∀ y ∈ back, y.2 < x.2) → upTo slot (n + 1) = slot 0 :: (front ++ back) →
      upTo (Function.update (shift limit x.2 (n + 1) slot).2 (shift limit x.2 (n + 1) slot).1 x)
        (n + 2) = slot 0 :: (front ++ x :: back) := by
  induction back using List.reverseRecOn with
  | nil =>
    intro n slot _ _ hlist
    rw [List.append_nil] at hlist
    have hstay : shift limit x.2 (n + 1) slot = (n + 1, slot) := by
      rw [shift, if_neg]
      rintro ⟨hn, hlow⟩
      -- the last slot is not the first one, so its item is as good
      obtain ⟨m, rfl⟩ : ∃ m, n = m + 1 := ⟨n - 1, by omega⟩
      exact (hfront _ (slot_mem_of_upTo hlist)).not_gt hlow
    rw [hstay, upTo_succ, upTo_update le_rfl, hlist, Function.update_self]
    rfl
  | append_singleton back y ih =>
    intro n slot hn hback hlist
    rw [List.forall_mem_append, List.forall_mem_singleton] at hback
    obtain ⟨hrest, rfl⟩ := upTo_concat_inj hlist
    obtain ⟨m, rfl⟩ : ∃ m, n = m + 1 := by
      have hlength := congrArg List.length hrest
      rw [length_upTo, List.length_cons] at hlength
      exact ⟨_, hlength⟩
    -- the last item goes one slot back, and the others are moved as if it were not there
    have hshift : shift limit x.2 (m + 1 + 1) slot =
        shift limit x.2 (m + 1) (Function.update slot (m + 1 + 1) (slot (m + 1))) := by
      rw [shift, if_pos ⟨by omega, hback.2⟩, if_pos hn]
    have hslot : Function.update slot (m + 1 + 1) (slot (m + 1)) 0 = slot 0 :=
      Function.update_of_ne (by omega) _ _
    have hrun := ih m (Function.update slot (m + 1 + 1) (slot (m + 1))) (by omega) hback.1
      (by rw [upTo_update (Nat.le_succ _), hslot, hrest])
    have hle := @shift_fst_le α limit x.2 (m + 1)
      (Function.update slot (m + 1 + 1) (slot (m + 1)))
    rw [hshift, upTo_succ, hrun, hslot, Function.update_of_ne (by omega),
      shift_snd_of_lt _ _ _ (Nat.lt_succ_self _), Function.update_self]
    simp

/-! ## The insertion -/

section

variable {s : Slots α} {first x : α × ℤ} {front back : List (α × ℤ)}

theorem list_insert_of_start {n : ℕ} (hin : ¬ (s.count = limit ∧ x.2 ≤ (s.slot (s.count - 1)).2))
    (hstart : (if s.count > limit - 1 then limit - 1 else s.count) = n + 1) (hn : n + 1 < limit)
    (hcount : (if s.count < limit then s.count + 1 else s.count) = n + 2) :
    (s.insert limit x.1 x.2).list =
      upTo (Function.update (shift limit x.2 (n + 1) s.slot).2 (shift limit x.2 (n + 1) s.slot).1 x)
        (n + 2) := by
  have hlt := (@shift_fst_le α limit x.2 (n + 1) s.slot).trans_lt hn
  rw [Slots.insert, if_neg hin, hstart]
  dsimp only
  rw [if_pos hlt, Slots.list, hcount]

/-- The array has the new item in its place, as far as there is room. -/
theorem list_insert (hlimit : 2 ≤ limit) (hlist : s.list = first :: (front ++ back))
    (hcount : s.count ≤ limit) (hfront : ∀ y ∈ front, x.2 ≤ y.2) (hback : ∀ y ∈ back, y.2 < x.2) :
    (s.insert limit x.1 x.2).list = first :: (front ++ x :: back).take (limit - 1) := by
  have hlength : s.count = (front ++ back).length + 1 := by
    rw [← length_upTo s.slot s.count]
    exact congrArg List.length hlist
  have hfirst : s.slot 0 = first := by
    rw [Slots.list, hlength, upTo_succ_left] at hlist
    exact (List.cons.inj hlist).1
  rw [← hfirst] at hlist ⊢
  rw [List.length_append] at hlength
  by_cases hroom : s.count < limit
  · rw [list_insert_of_start (n := front.length + back.length) (fun h => hroom.ne h.1)
      (by rw [if_neg (by omega), hlength]) (by omega) (by rw [if_pos hroom, hlength]),
      upTo_shift hfront back _ _ (by omega) hback (by rw [← hlength]; exact hlist),
      List.take_of_length_le (by simp; omega)]
  · obtain ⟨n, hn⟩ : ∃ n, s.count = n + 2 := ⟨s.count - 2, by omega⟩
    rw [Slots.list, hn] at hlist
    rcases List.eq_nil_or_concat' back with rfl | ⟨back, y, rfl⟩
    · -- the last item is as good
      rw [List.append_nil] at hlist
      have hlast := hfront _ (slot_mem_of_upTo hlist)
      have hfull : front.length = limit - 1 := by simp at hlength; omega
      rw [Slots.insert, if_pos ⟨by omega, by rw [hn]; exact hlast⟩, Slots.list, hn, hlist,
        List.take_left' hfull]
    · -- the last item is lost
      obtain ⟨hrest, rfl⟩ := upTo_concat_inj hlist
      rw [List.forall_mem_append, List.forall_mem_singleton] at hback
      have hin : ¬ (s.count = limit ∧ x.2 ≤ (s.slot (s.count - 1)).2) := by
        rw [hn]
        exact fun h => h.2.not_gt hback.2
      have hfull : (front ++ x :: back).length = limit - 1 := by simp at hlength ⊢; omega
      rw [list_insert_of_start hin (n := n) (by rw [if_pos (by omega)]; omega) (by omega)
        (by rw [if_neg hroom, hn]), upTo_shift hfront back _ _ (by omega) hback.1 hrest]
      show _ = s.slot 0 :: (front ++ ((x :: back) ++ [s.slot (n + 1)])).take (limit - 1)
      rw [← List.append_assoc, List.take_left' hfull]

theorem exists_split {all : List (α × ℤ)} (h : all.Pairwise fun x y => y.2 ≤ x.2) (v : ℤ) :
    ∃ front back, all = front ++ back ∧ (∀ y ∈ front, v ≤ y.2) ∧ ∀ y ∈ back, y.2 < v := by
  induction all with
  | nil => exact ⟨[], [], rfl, by simp, by simp⟩
  | cons z all ih =>
    obtain ⟨hz, h⟩ := List.pairwise_cons.mp h
    by_cases hlow : z.2 < v
    · refine ⟨[], z :: all, rfl, by simp, ?_⟩
      exact List.forall_mem_cons.mpr ⟨hlow, fun y hy => (hz y hy).trans_lt hlow⟩
    · obtain ⟨front, back, rfl, hfront, hback⟩ := ih h
      exact ⟨z :: front, back, rfl, List.forall_mem_cons.mpr ⟨not_lt.mp hlow, hfront⟩, hback⟩

/-- Of a list that is longer only the first items matter to the insertion. -/
theorem take_insert (k : ℕ) (front back : List (α × ℤ)) :
    (front.take k ++ x :: back.take (k - front.length)).take k = (front ++ x :: back).take k := by
  rw [List.take_append, List.take_append, List.take_take, min_self, List.length_take]
  congr 1
  rcases le_total k front.length with hle | hle
  · rw [min_eq_left hle, Nat.sub_self, Nat.sub_eq_zero_of_le hle]
    rfl
  · rw [min_eq_right hle]
    cases k - front.length with
    | zero => rfl
    | succ j =>
      rw [List.take_succ_cons, List.take_succ_cons, List.take_take, min_eq_left (Nat.le_succ j)]

end

/-! ## The ranking -/

section

variable [DecidableEq α] {done : List α} {x y : α × ℤ} {a : α} {v : ℤ}

theorem Before.le (h : Before done x y) : y.2 ≤ x.2 := h.elim le_of_lt fun h => h.1.ge

theorem Before.append (h : Before done x y) (hx : x.1 ∈ done) (hy : y.1 ∈ done) :
    Before (done ++ [a]) x y := by
  unfold Before
  rwa [List.idxOf_append_of_mem hx, List.idxOf_append_of_mem hy]

/-- Among equals the new item is the last one. -/
theorem before_appended (hx : x.1 ∈ done) (ha : a ∉ done) (hle : v ≤ x.2) :
    Before (done ++ [a]) x (a, v) := by
  rcases hle.lt_or_eq with hlt | heq
  · exact Or.inl hlt
  · refine Or.inr ⟨heq.symm, ?_⟩
    rw [List.idxOf_append_of_mem hx, List.idxOf_append_of_notMem ha]
    have := List.idxOf_lt_length_of_mem hx
    omega

/-- All items that have a score, in their order. An array without a limit would hold them. -/
structure Ranking (first : α × ℤ) (score : α → Option ℤ) (items : List α)
    (all : List (α × ℤ)) : Prop where
  nodup : ((first :: all).map Prod.fst).Nodup
  scored : ∀ x ∈ all, x.1 ∈ items ∧ score x.1 = some x.2
  complete : ∀ a ∈ items, ∀ v, score a = some v → a ∈ (first :: all).map Prod.fst
  ordered : all.Pairwise (Before items)

variable {limit k : ℕ} {first : α × ℤ} {score : α → Option ℤ} {s : Slots α}
  {all front back : List (α × ℤ)}

namespace Ranking

theorem mem_drop (h : Ranking first score done all) (hv : score a = some v)
    (ha : a ∈ (first :: all).map Prod.fst) (hnot : a ∉ (first :: all.take k).map Prod.fst) :
    (a, v) ∈ all.drop k := by
  obtain ⟨x, hx, rfl⟩ := List.mem_map.mp ha
  have hall : x ∈ all := (List.mem_cons.mp hx).resolve_left fun heq => hnot (by simp [heq])
  rw [(h.scored x hall).2] at hv
  obtain rfl := Option.some.inj hv
  rw [← List.take_append_drop k all, List.mem_append] at hall
  apply hall.resolve_left
  exact fun htake => hnot (List.mem_map.mpr ⟨x, List.mem_cons_of_mem _ htake, rfl⟩)

theorem before_of_mem_drop (h : Ranking first score done all) (hx : x ∈ all.drop k) :
    (all.take k).length = k ∧ ∀ y ∈ all.take k, Before done y x := by
  constructor
  · have hpos := List.length_pos_of_mem hx
    rw [List.length_drop] at hpos
    rw [List.length_take]
    omega
  · have hordered := h.ordered
    rw [← List.take_append_drop k all, List.pairwise_append] at hordered
    exact fun y hy => hordered.2.2 y hy x hx

/-- The first ones are the best. -/
theorem isSelection (h : Ranking first score done all) (hlimit : 2 ≤ limit) :
    IsSelection limit first score done (first :: all.take (limit - 1)) where
  head := ⟨_, rfl⟩
  nodup := h.nodup.sublist (((List.take_sublist _ _).cons_cons _).map _)
  length_le := by
    rw [List.length_cons, List.length_take]
    omega
  scored x hx := h.scored x (List.mem_of_mem_take hx)
  ordered := h.ordered.sublist (List.take_sublist _ _)
  best a ha v hv hnot := by
    obtain ⟨hlength, hbefore⟩ := h.before_of_mem_drop (h.mem_drop hv (h.complete a ha v hv) hnot)
    rw [List.length_cons, hlength]
    exact ⟨by omega, hbefore⟩

theorem ordered_append (h : Ranking first score done all) (a : α) :
    all.Pairwise (Before (done ++ [a])) :=
  h.ordered.imp_of_mem fun hx hy hxy => hxy.append (h.scored _ hx).1 (h.scored _ hy).1

theorem scored_append (h : Ranking first score done all) (a : α) :
    ∀ x ∈ all, x.1 ∈ done ++ [a] ∧ score x.1 = some x.2 :=
  fun x hx => ⟨List.mem_append_left _ (h.scored x hx).1, (h.scored x hx).2⟩

theorem skip (h : Ranking first score done all)
    (ha : ∀ v, score a = some v → a ∈ (first :: all).map Prod.fst) :
    Ranking first score (done ++ [a]) all := by
  refine ⟨h.nodup, h.scored_append a, fun b hb v hv => ?_, h.ordered_append a⟩
  rcases List.mem_append.mp hb with hb | hb
  · exact h.complete b hb v hv
  · rw [List.mem_singleton.mp hb] at hv ⊢
    exact ha v hv

theorem insert (h : Ranking first score done (front ++ back)) (hv : score a = some v)
    (hnew : a ∉ (first :: (front ++ back)).map Prod.fst) (hfront : ∀ y ∈ front, v ≤ y.2)
    (hback : ∀ y ∈ back, y.2 < v) :
    Ranking first score (done ++ [a]) (front ++ (a, v) :: back) := by
  have hperm : (first :: (front ++ (a, v) :: back)).Perm ((a, v) :: first :: (front ++ back)) :=
    (List.perm_middle.cons first).trans (List.Perm.swap _ _ _)
  have hdone : a ∉ done := fun hmem => hnew (h.complete a hmem v hv)
  refine ⟨?_, fun x hx => ?_, fun b hb w hw => ?_, ?_⟩
  · rw [(hperm.map Prod.fst).nodup_iff, List.map_cons, List.nodup_cons]
    exact ⟨hnew, h.nodup⟩
  · rcases List.mem_cons.mp (List.perm_middle.mem_iff.mp hx) with rfl | hx
    · exact ⟨by simp, hv⟩
    · exact h.scored_append a x hx
  · rw [(hperm.map Prod.fst).mem_iff, List.map_cons, List.mem_cons]
    rcases List.mem_append.mp hb with hb | hb
    · exact Or.inr (h.complete b hb w hw)
    · exact Or.inl (List.mem_singleton.mp hb)
  · obtain ⟨hff, hbb, hfb⟩ := List.pairwise_append.mp (h.ordered_append a)
    refine List.pairwise_append.mpr ⟨hff, List.pairwise_cons.mpr
      ⟨fun y hy => Or.inl (hback y hy), hbb⟩, fun y hy z hz => ?_⟩
    rcases List.mem_cons.mp hz with rfl | hz
    · exact before_appended (h.scored y (List.mem_append_left _ hy)).1 hdone (hfront y hy)
    · exact hfb y hy z hz

end Ranking

/-- The array holds the beginning of the ranking. -/
theorem Ranking.offer (h : Ranking first score done all) (hlimit : 2 ≤ limit)
    (hlist : s.list = first :: all.take (limit - 1)) (a : α) :
    ∃ all', Ranking first score (done ++ [a]) all' ∧
      (s.offer limit score a).list = first :: all'.take (limit - 1) := by
  have hcount : s.count ≤ limit := by
    rw [← length_upTo s.slot s.count, ← Slots.list, hlist, List.length_cons, List.length_take]
    omega
  unfold Slots.offer
  split
  · next hseen =>
    rw [hlist] at hseen
    have hsub := ((List.take_sublist (limit - 1) all).cons_cons first).map Prod.fst
    exact ⟨all, h.skip fun _ _ => hsub.subset hseen, hlist⟩
  · next hseen =>
    rw [hlist] at hseen
    cases hv : score a with
    | none =>
      refine ⟨all, h.skip fun v hsome => ?_, hlist⟩
      rw [hv] at hsome
      cases hsome
    | some v =>
      by_cases hold : a ∈ (first :: all).map Prod.fst
      · -- the item had its place behind a full array
        obtain ⟨hlength, hbefore⟩ := h.before_of_mem_drop (h.mem_drop hv hold hseen)
        refine ⟨all, h.skip fun _ _ => hold, ?_⟩
        rw [← List.append_nil (all.take _)] at hlist
        rw [← List.take_left' hlength]
        exact list_insert (x := (a, v)) hlimit hlist hcount (fun y hy => (hbefore y hy).le)
          (List.forall_mem_nil _)
      · obtain ⟨front, back, rfl, hfront, hback⟩ := exists_split (h.ordered.imp Before.le) v
        refine ⟨_, h.insert hv hold hfront hback, ?_⟩
        rw [List.take_append] at hlist
        rw [← take_insert]
        exact list_insert (x := (a, v)) hlimit hlist hcount
          (fun y hy => hfront y (List.mem_of_mem_take hy))
          fun y hy => hback y (List.mem_of_mem_take hy)

/-- After all items the array is `first` and the best of them. -/
theorem isSelection_run (hlimit : 2 ≤ limit) (first : α × ℤ) (score : α → Option ℤ)
    (items : List α) : IsSelection limit first score items (run limit first score items).list := by
  have hrun : ∃ all, Ranking first score items all ∧
      (run limit first score items).list = first :: all.take (limit - 1) := by
    induction items using List.reverseRecOn with
    | nil => exact ⟨[], ⟨by simp, by simp, by simp, by simp⟩, by rw [List.take_nil]; rfl⟩
    | append_singleton items a ih =>
      obtain ⟨all, hall, hlist⟩ := ih
      rw [run, List.foldl_append]
      exact hall.offer hlimit hlist a
  obtain ⟨all, hall, hlist⟩ := hrun
  rw [hlist]
  exact hall.isSelection hlimit

end

end Selection

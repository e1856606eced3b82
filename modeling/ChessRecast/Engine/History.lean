import ChessRecast.Lib.Machine
import ChessRecast.Engine.Types

/-!
# The history table (`search.c`)

`update_history` pulls an entry towards `±16384`: the bonus is diminished by the share of it that
the entry already has. Every `int` expression is checked, and an overflow ends the run. The
bound on the entries is what keeps the product `(*entry) * abs(bonus)` an `int`.
-/

namespace ChessRecast.Engine

/-- `s_history`, by side, square of origin and target square. -/
abbrev History := Color → ℤ → ℤ → ℤ

/-- The value of an `int` expression, unless it overflows. -/
def intExpr (n : ℤ) : Option ℤ := if InInt n then some n else none

/-- `*entry + (bonus - (*entry) * abs(bonus) / 16384)` -/
def gravity (entry bonus : ℤ) : Option ℤ := do
  let size ← intExpr |bonus|
  let product ← intExpr (entry * size)
  let delta ← intExpr (bonus - product.tdiv 16384)
  intExpr (entry + delta)

def updateHistory (h : History) (side : Color) (m : Move) (bonus : ℤ) : Option History := do
  let entry ← gravity (h side m.fromSq m.toSq) bonus
  return fun c fromSq toSq =>
    if c = side ∧ fromSq = m.fromSq ∧ toSq = m.toSq then entry else h c fromSq toSq

def recordHistory (h : History) (side : Color) (m : Move) (depth : ℤ) : Option History := do
  let bonus ← intExpr (depth * depth)
  updateHistory h side m bonus

/-- `penalize_quiets`, on the first `count` moves of `quiets`. -/
def penalizeQuiets (h : History) (side : Color) (quiets : List Move) (count : ℕ) (depth : ℤ) :
    Option History := do
  let square ← intExpr (depth * depth)
  let pen ← intExpr (-square)
  (quiets.take count).foldlM (fun h m => updateHistory h side m pen) h

inductive HistoryCall where
  | record (side : Color) (m : Move) (depth : ℤ)
  | penalize (side : Color) (quiets : List Move) (count : ℕ) (depth : ℤ)

def HistoryCall.depth : HistoryCall → ℤ
  | .record _ _ depth => depth
  | .penalize _ _ _ depth => depth

def History.step (h : History) : HistoryCall → Option History
  | .record side m depth => recordHistory h side m depth
  | .penalize side quiets count depth => penalizeQuiets h side quiets count depth

/-! ## One entry -/

theorem intExpr_of_inInt {n : ℤ} (h : InInt n) : intExpr n = some n := if_pos h

/-- An entry that is not negative: the quotient is rounded down. -/
theorem gravity_bounds_of_nonneg {entry bonus : ℤ} (h0 : 0 ≤ entry) (he : entry ≤ 16384)
    (hb : |bonus| ≤ 16384) :
    -16384 ≤ entry + (bonus - (entry * |bonus|).tdiv 16384) ∧
      entry + (bonus - (entry * |bonus|).tdiv 16384) ≤ 16384 ∧
      0 ≤ (entry * |bonus|).tdiv 16384 ∧ (entry * |bonus|).tdiv 16384 ≤ 16384 := by
  have hsize := abs_nonneg bonus
  have hprod : 0 ≤ entry * |bonus| := mul_nonneg h0 hsize
  rw [Int.tdiv_eq_ediv_of_nonneg hprod]
  -- the quotient is at most the entry
  have hshare : entry * |bonus| ≤ entry * 16384 := mul_le_mul_of_nonneg_left hb h0
  -- what the entry and the bonus together can reach
  have hroom : 0 ≤ (16384 - entry) * (16384 - |bonus|) :=
    mul_nonneg (by omega) (by omega)
  have hexpand : (16384 - entry) * (16384 - |bonus|) =
      16384 * 16384 - 16384 * entry - 16384 * |bonus| + entry * |bonus| := by ring
  have habs := abs_cases bonus
  omega

theorem gravity_bounds {entry bonus : ℤ} (he : |entry| ≤ 16384) (hb : |bonus| ≤ 16384) :
    |entry + (bonus - (entry * |bonus|).tdiv 16384)| ≤ 16384 ∧
      |(entry * |bonus|).tdiv 16384| ≤ 16384 := by
  rw [abs_le] at he
  by_cases h0 : 0 ≤ entry
  · have h := gravity_bounds_of_nonneg h0 he.2 hb
    constructor <;> rw [abs_le] <;> omega
  · -- truncation is symmetric: the other sign of the entry and of the bonus
    have h0' : 0 ≤ -entry := by omega
    have hb' : |-bonus| ≤ 16384 := by rwa [abs_neg]
    have h := gravity_bounds_of_nonneg h0' (by omega) hb'
    rw [abs_neg, neg_mul, Int.neg_tdiv] at h
    constructor <;> rw [abs_le] <;> omega

/-- Within the bound no `int` expression of the update overflows, and the bound is kept. -/
theorem gravity_eq_some {entry bonus : ℤ} (he : |entry| ≤ 16384) (hb : |bonus| ≤ 16384) :
    ∃ entry', gravity entry bonus = some entry' ∧ |entry'| ≤ 16384 := by
  obtain ⟨hnew, hquot⟩ := gravity_bounds he hb
  have hprod : |(entry * |bonus|)| ≤ 16384 * 16384 := by
    rw [abs_mul, abs_abs]
    apply mul_le_mul he hb (abs_nonneg bonus) (by norm_num)
  refine ⟨entry + (bonus - (entry * |bonus|).tdiv 16384), ?_, hnew⟩
  have hbonus := abs_le.mp hb
  have hsize := abs_nonneg bonus
  rw [abs_le] at hnew hquot hprod
  unfold gravity
  rw [intExpr_of_inInt (by unfold InInt; omega), Option.bind_eq_bind, Option.bind_some,
    intExpr_of_inInt (by unfold InInt; omega), Option.bind_some,
    intExpr_of_inInt (by unfold InInt; omega), Option.bind_some,
    intExpr_of_inInt (by unfold InInt; omega)]

/-! ## The table -/

/-- Every entry is within `±16384`. -/
def History.Bounded (h : History) : Prop :=
  ∀ side fromSq toSq, -16384 ≤ h side fromSq toSq ∧ h side fromSq toSq ≤ 16384

variable {h : History}

theorem updateHistory_bounded {bonus : ℤ} (hh : h.Bounded) (hb : |bonus| ≤ 16384) (side : Color)
    (m : Move) :
    ∃ h', updateHistory h side m bonus = some h' ∧ h'.Bounded := by
  obtain ⟨entry, hentry, hbound⟩ := gravity_eq_some (abs_le.mpr (hh side m.fromSq m.toSq)) hb
  refine ⟨_, by rw [updateHistory, hentry]; rfl, fun c fromSq toSq => ?_⟩
  split
  · exact abs_le.mp hbound
  · exact hh c fromSq toSq

theorem foldlM_updateHistory_bounded {bonus : ℤ} (hb : |bonus| ≤ 16384) (side : Color)
    (quiets : List Move) (hh : h.Bounded) :
    ∃ h', quiets.foldlM (fun h m => updateHistory h side m bonus) h = some h' ∧ h'.Bounded := by
  induction quiets generalizing h with
  | nil => exact ⟨h, rfl, hh⟩
  | cons m quiets ih =>
    obtain ⟨h₁, hstep, hh₁⟩ := updateHistory_bounded hh hb side m
    obtain ⟨h₂, hrest, hh₂⟩ := ih hh₁
    exact ⟨h₂, by rw [List.foldlM_cons, hstep]; exact hrest, hh₂⟩

theorem step_bounded {call : HistoryCall} (hh : h.Bounded)
    (hdepth : 1 ≤ call.depth ∧ call.depth ≤ 128) : ∃ h', h.step call = some h' ∧ h'.Bounded := by
  have hsquare : 1 ≤ call.depth * call.depth ∧ call.depth * call.depth ≤ 128 * 128 := by
    constructor <;> nlinarith
  have hint : intExpr (call.depth * call.depth) = some (call.depth * call.depth) :=
    intExpr_of_inInt (by unfold InInt; omega)
  cases call with
  | record side m depth =>
    dsimp only [HistoryCall.depth] at hsquare hint
    dsimp only [History.step, recordHistory]
    rw [hint]
    exact updateHistory_bounded hh (by rw [abs_le]; omega) side m
  | penalize side quiets count depth =>
    dsimp only [HistoryCall.depth] at hsquare hint
    dsimp only [History.step, penalizeQuiets]
    rw [hint, Option.bind_eq_bind, Option.bind_some, intExpr_of_inInt (by unfold InInt; omega)]
    exact foldlM_updateHistory_bounded (by rw [abs_le]; omega) side _ hh

/-- From the cleared table calls at depths from 1 to 128 never overflow and keep every entry within
`±16384`. -/
theorem history_bounded (calls : List HistoryCall)
    (hdepth : ∀ call ∈ calls, 1 ≤ call.depth ∧ call.depth ≤ 128) :
    ∃ h, Machine.run History.step (fun _ _ _ => 0) calls = some h ∧
      ∀ side fromSq toSq, -16384 ≤ h side fromSq toSq ∧ h side fromSq toSq ≤ 16384 := by
  have hrun : ∀ h : History, h.Bounded →
      ∃ h', Machine.run History.step h calls = some h' ∧ h'.Bounded := by
    induction calls with
    | nil => exact fun h hh => ⟨h, rfl, hh⟩
    | cons call calls ih =>
      intro h hh
      obtain ⟨h₁, hstep, hh₁⟩ := step_bounded hh (hdepth call (by simp))
      obtain ⟨h₂, hrest, hh₂⟩ := ih (fun call' hcall' => hdepth call' (by simp [hcall'])) h₁ hh₁
      exact ⟨h₂, Machine.run_cons_iff.mpr ⟨h₁, hstep, hrest⟩, hh₂⟩
  exact hrun _ fun _ _ _ => by norm_num

/-- A cutoff at full depth, and the quiet move that was searched before it. -/
theorem history_bounded_cutoff :
    let calls : List HistoryCall := [.record .white (moveSimple 12 28 .pawn) 128,
      .penalize .white [moveSimple 6 21 .knight] 1 128]
    (∀ call ∈ calls, 1 ≤ call.depth ∧ call.depth ≤ 128) ∧
      ∃ h, Machine.run History.step (fun _ _ _ => 0) calls = some h ∧
        ∀ side fromSq toSq, -16384 ≤ h side fromSq toSq ∧ h side fromSq toSq ≤ 16384 := by
  have hdepth : ∀ call ∈ [HistoryCall.record .white (moveSimple 12 28 .pawn) 128,
      .penalize .white [moveSimple 6 21 .knight] 1 128], 1 ≤ call.depth ∧ call.depth ≤ 128 := by
    decide
  exact ⟨hdepth, history_bounded _ hdepth⟩

end ChessRecast.Engine

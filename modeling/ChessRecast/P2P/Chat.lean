import Mathlib.Tactic

/-!
# Chat rate limit (`ChatRateLimiter` in `frame.dart`)

Old time stamps are dropped only by a `canSend` that gets as far as the window, so the list may hold
more than the window. From the cutoff of the current time on it holds exactly the recorded messages
(`ChatRun.Inv.kept`), and the last message of an interval then bounds those before it.
-/

namespace ChessRecast.P2P

structure ChatRateLimiter where
  timestamps : List ℤ := []
  total : ℕ := 0
deriving DecidableEq, Repr

namespace ChatRateLimiter

def windowMs : ℤ := 30000

def maxPerWindow : ℕ := 10

def maxPerGame : ℕ := 200

def canSend (l : ChatRateLimiter) (nowMs : ℤ) : Bool × ChatRateLimiter :=
  if l.total ≥ maxPerGame then (false, l)
  else
    let cutoff := nowMs - windowMs
    let timestamps := l.timestamps.filter fun ts => ¬ ts < cutoff
    (timestamps.length < maxPerWindow, { l with timestamps })

def record (l : ChatRateLimiter) (nowMs : ℤ) : ChatRateLimiter where
  timestamps := l.timestamps ++ [nowMs]
  total := l.total + 1

end ChatRateLimiter

/-- A limiter, and the times of the messages recorded so far. -/
structure ChatRun where
  limiter : ChatRateLimiter := {}
  recorded : List ℤ := []

namespace ChatRun

open ChatRateLimiter

/-- A message is asked for, and recorded if it is permitted. -/
def next (r : ChatRun) (nowMs : ℤ) : ChatRun :=
  let (allowed, limiter) := r.limiter.canSend nowMs
  if allowed then ⟨limiter.record nowMs, r.recorded ++ [nowMs]⟩ else ⟨limiter, r.recorded⟩

def run (times : List ℤ) : ChatRun := times.foldl next {}

/-- The recorded messages of a closed interval. -/
def within (r : ChatRun) (first last : ℤ) : List ℤ :=
  r.recorded.filter fun t => first ≤ t ∧ t ≤ last

/-- What holds at a time when nothing later was recorded. -/
structure Inv (r : ChatRun) (nowMs : ℤ) : Prop where
  total : r.limiter.total = r.recorded.length
  past : ∀ t ∈ r.recorded, t ≤ nowMs
  kept : ∀ cutoff, nowMs - windowMs ≤ cutoff →
    (r.limiter.timestamps.filter fun t => ¬ t < cutoff) = r.recorded.filter fun t => ¬ t < cutoff
  window : ∀ first, (r.within first (first + windowMs)).length ≤ maxPerWindow
  game : r.recorded.length ≤ maxPerGame

variable {r : ChatRun} {nowMs later : ℤ}

theorem Inv.mono (h : r.Inv nowMs) (hle : nowMs ≤ later) : r.Inv later where
  total := h.total
  past t ht := (h.past t ht).trans hle
  kept cutoff hcutoff := h.kept cutoff (by omega)
  window := h.window
  game := h.game

theorem Inv.purged (h : r.Inv nowMs) :
    (r.limiter.timestamps.filter fun t => ¬ t < nowMs - windowMs) =
      r.within (nowMs - windowMs) nowMs := by
  rw [h.kept _ le_rfl]
  apply List.filter_congr
  intro t ht
  have hle := h.past t ht
  simp [hle]

theorem Inv.canSend_iff (h : r.Inv nowMs) :
    (r.limiter.canSend nowMs).1 = true ↔ r.recorded.length < maxPerGame ∧
      (r.within (nowMs - windowMs) nowMs).length < maxPerWindow := by
  rw [← h.total, ← h.purged]
  unfold canSend
  split
  · next hfull => exact iff_of_false Bool.false_ne_true fun hand => absurd hand.1 (by omega)
  · next hfull =>
    have hroom : r.limiter.total < maxPerGame := by omega
    simp [hroom]

/-- `canSend` drops nothing that is still in the window. -/
theorem Inv.canSend (h : r.Inv nowMs) : Inv ⟨(r.limiter.canSend nowMs).2, r.recorded⟩ nowMs := by
  unfold ChatRateLimiter.canSend
  split
  · exact h
  · refine ⟨h.total, h.past, fun cutoff hcutoff => ?_, h.window, h.game⟩
    rw [← h.kept cutoff hcutoff, List.filter_filter]
    apply List.filter_congr
    intro t _
    simp only [Bool.and_eq_left_iff_imp, decide_eq_true_eq]
    omega

theorem Inv.record (h : r.Inv nowMs) (hgame : r.recorded.length < maxPerGame)
    (hwindow : (r.within (nowMs - windowMs) nowMs).length < maxPerWindow) :
    Inv ⟨r.limiter.record nowMs, r.recorded ++ [nowMs]⟩ nowMs where
  total := by simp [ChatRateLimiter.record, h.total]
  past := by
    intro t ht
    rcases List.mem_append.mp ht with ht | ht
    · exact h.past t ht
    · exact (List.mem_singleton.mp ht).le
  kept cutoff hcutoff := by
    simp only [ChatRateLimiter.record, List.filter_append, h.kept cutoff hcutoff]
  window first := by
    have hold := h.window first
    unfold within at hold hwindow ⊢
    rw [List.filter_append, List.length_append]
    by_cases hin : first ≤ nowMs ∧ nowMs ≤ first + windowMs
    · -- the new message is in the interval: the others in it are in the window it was checked with
      have hsub : (r.recorded.filter fun t => first ≤ t ∧ t ≤ first + windowMs).length ≤
          (r.recorded.filter fun t => nowMs - windowMs ≤ t ∧ t ≤ nowMs).length := by
        rw [← List.countP_eq_length_filter, ← List.countP_eq_length_filter]
        apply List.countP_mono_left
        intro t ht hin'
        have hle := h.past t ht
        simp only [decide_eq_true_eq] at hin' ⊢
        omega
      have hone := List.length_filter_le (fun t => first ≤ t ∧ t ≤ first + windowMs) [nowMs]
      rw [List.length_singleton] at hone
      omega
    · rw [List.filter_cons_of_neg (by simpa using hin)]
      simpa using hold
  game := by
    rw [List.length_append]
    exact hgame

theorem Inv.next (h : r.Inv nowMs) : (r.next nowMs).Inv nowMs := by
  unfold ChatRun.next
  by_cases hallowed : (r.limiter.canSend nowMs).1 = true
  · obtain ⟨hgame, hwindow⟩ := h.canSend_iff.mp hallowed
    simpa [hallowed] using h.canSend.record hgame hwindow
  · simpa [hallowed] using h.canSend

theorem inv_run (times : List ℤ) : ∀ nowMs, times.Pairwise (· ≤ ·) → (∀ t ∈ times, t ≤ nowMs) →
    (run times).Inv nowMs := by
  induction times using List.reverseRecOn with
  | nil =>
    intro nowMs _ _
    constructor <;> simp [run, within]
  | append_singleton times t ih =>
    intro nowMs hsorted hle
    obtain ⟨hsorted', -, hlast⟩ := List.pairwise_append.mp hsorted
    have h := (ih t hsorted' fun t' ht' => hlast t' ht' t (by simp)).next
    rw [run, List.foldl_append]
    exact h.mono (hle t (by simp))

end ChatRun

/-- At times that do not decrease, with a record after each permission: ten messages in 30 seconds,
200 in a game, and no other refusals. -/
theorem chat_rate_limited (times : List ℤ) (hsorted : times.Pairwise (· ≤ ·)) :
    (∀ first, ((ChatRun.run times).within first (first + 30000)).length ≤ 10) ∧
      (ChatRun.run times).recorded.length ≤ 200 ∧
      ∀ earlier nowMs later, times = earlier ++ nowMs :: later →
        ((ChatRun.run earlier).limiter.canSend nowMs).1 = false →
        10 ≤ ((ChatRun.run earlier).within (nowMs - 30000) nowMs).length ∨
          200 ≤ (ChatRun.run earlier).recorded.length := by
  obtain ⟨last, hlast⟩ : ∃ last, ∀ t ∈ times, t ≤ last := by
    obtain ⟨last, hlast⟩ := times.toFinset.bddAbove
    exact ⟨last, fun t ht => hlast (by simpa using ht)⟩
  have hinv := ChatRun.inv_run times last hsorted hlast
  refine ⟨hinv.window, hinv.game, fun earlier nowMs later htimes hrefused => ?_⟩
  rw [htimes] at hsorted
  obtain ⟨hearlier, -, hle⟩ := List.pairwise_append.mp hsorted
  have hbefore := ChatRun.inv_run earlier nowMs hearlier fun t ht => hle t ht nowMs (by simp)
  have hnot : ¬ ((ChatRun.run earlier).limiter.canSend nowMs).1 = true := by simp [hrefused]
  rw [hbefore.canSend_iff, ChatRateLimiter.maxPerGame, ChatRateLimiter.maxPerWindow] at hnot
  unfold ChatRateLimiter.windowMs at hnot
  omega

/-- Eleven messages at once: the last one is refused. -/
theorem chat_rate_limited_burst :
    let times : List ℤ := List.replicate 11 5
    times.Pairwise (· ≤ ·) ∧ (ChatRun.run times).recorded.length = 10 ∧
      ∀ first, ((ChatRun.run times).within first (first + 30000)).length ≤ 10 :=
  ⟨by decide, by decide, (chat_rate_limited (List.replicate 11 5) (by decide)).1⟩

end ChessRecast.P2P

import ChessRecast.Lib.Keyed
import ChessRecast.Lib.Machine

/-!
# Late join (`late_join_sync.dart`)

A peer that rejoins is brought up to date with segments of a move log whose moves carry Lamport
clocks. Two peers play by turns, and between the moves any segment of either log may reach the other
peer, late, repeated or out of order (`Session`). The moves made carry different clocks whoever made
them, so no segment ever conflicts and a log is determined by the set of moves its replica holds
(`late_join_converges`).
-/

namespace ChessRecast.P2P

structure LamportMove where
  lamportClock : ℤ
  uciMove : List Char
  boardStateHash : List Char
deriving DecidableEq, Repr

def kLamportConflict : List Char := "LAMPORT_CONFLICT".toList

structure LateJoinMoveLog where
  lamportClock : ℤ := 0
  log : List LamportMove := []
deriving DecidableEq, Repr

namespace LateJoinMoveLog

def recordLocal (r : LateJoinMoveLog) (uciMove boardStateHash : List Char) : ℤ × LateJoinMoveLog :=
  let lamportClock := r.lamportClock + 1
  (lamportClock,
    { lamportClock
      log := r.log ++ [{ lamportClock, uciMove, boardStateHash }] })

/-- The clock after the first lines of the loop of `receiveRemoteLog`. -/
def updateClock (r : LateJoinMoveLog) (remote : LamportMove) : LateJoinMoveLog :=
  if remote.lamportClock > r.lamportClock then { r with lamportClock := remote.lamportClock + 1 }
  else r

/-- `sort` by Lamport clock. -/
def sortLog (r : LateJoinMoveLog) : LateJoinMoveLog :=
  { r with log := r.log.insertionSort fun a b => a.lamportClock ≤ b.lamportClock }

/-- `receiveRemoteLog`; a conflict leaves the loop, without the sorting at its end. -/
def receiveRemoteLog (r : LateJoinMoveLog) : List LamportMove → Option (List Char) × LateJoinMoveLog
  | [] => (none, r.sortLog)
  | remote :: remoteMoves =>
    let r := r.updateClock remote
    match Keyed.lookup LamportMove.lamportClock r.log remote.lamportClock with
    | some existing =>
      if existing.uciMove ≠ remote.uciMove then (some kLamportConflict, r)
      else r.receiveRemoteLog remoteMoves
    | none => { r with log := r.log ++ [remote] }.receiveRemoteLog remoteMoves

def backfillFrom (r : LateJoinMoveLog) (fromClock : ℤ) : List LamportMove :=
  r.log.filter fun m => m.lamportClock ≥ fromClock

/-- Segments received one after another. -/
def receiveAll (r : LateJoinMoveLog) (segments : List (List LamportMove)) : LateJoinMoveLog :=
  segments.foldl (fun r segment => (r.receiveRemoteLog segment).2) r

/-! ## What a segment adds -/

/-- A log of moves from `made`, each with a clock of its own that the replica has reached. -/
structure Holds (made : LamportMove → Prop) (r : LateJoinMoveLog) : Prop where
  distinct : Keyed.Distinct LamportMove.lamportClock r.log
  known : ∀ m ∈ r.log, made m
  reached : ∀ m ∈ r.log, m.lamportClock ≤ r.lamportClock

/-- Clocks strictly increasing along the log. -/
def Ascending (r : LateJoinMoveLog) : Prop :=
  r.log.Pairwise fun a b => a.lamportClock < b.lamportClock

/-- Moves made carry different clocks. -/
def Unique (made : LamportMove → Prop) : Prop :=
  ∀ m m', made m → made m' → m.lamportClock = m'.lamportClock → m = m'

variable {made : LamportMove → Prop} {r : LateJoinMoveLog} {remote : LamportMove}

@[simp] theorem updateClock_log : (r.updateClock remote).log = r.log := by
  unfold updateClock
  split <;> rfl

theorem le_updateClock : r.lamportClock ≤ (r.updateClock remote).lamportClock := by
  unfold updateClock
  split_ifs with h
  · show r.lamportClock ≤ remote.lamportClock + 1
    omega
  · exact le_rfl

theorem remote_le_updateClock : remote.lamportClock ≤ (r.updateClock remote).lamportClock := by
  unfold updateClock
  split_ifs with h
  · show remote.lamportClock ≤ remote.lamportClock + 1
    omega
  · exact not_lt.mp h

theorem Holds.updateClock (h : r.Holds made) : (r.updateClock remote).Holds made where
  distinct := by simpa using h.distinct
  known := by simpa using h.known
  reached := by
    intro m hm
    rw [updateClock_log] at hm
    exact (h.reached m hm).trans le_updateClock

theorem Holds.append (h : r.Holds made) (hremote : made remote)
    (hnew : Keyed.lookup LamportMove.lamportClock r.log remote.lamportClock = none)
    (hclock : remote.lamportClock ≤ r.lamportClock) :
    { r with log := r.log ++ [remote] }.Holds made where
  distinct := h.distinct.append_singleton hnew
  known := by
    intro m hm
    rcases List.mem_append.mp hm with hm | hm
    · exact h.known m hm
    · rwa [List.mem_singleton.mp hm]
  reached := by
    intro m hm
    rcases List.mem_append.mp hm with hm | hm
    · exact h.reached m hm
    · rwa [List.mem_singleton.mp hm]

theorem Holds.mono {made' : LamportMove → Prop} (h : r.Holds made)
    (hmade : ∀ m, made m → made' m) : r.Holds made' where
  distinct := h.distinct
  known := fun m hm => hmade m (h.known m hm)
  reached := h.reached

theorem Holds.recordLocal (h : r.Holds made) (hasc : r.Ascending)
    {uciMove boardStateHash : List Char}
    (hnew : made ⟨r.lamportClock + 1, uciMove, boardStateHash⟩) :
    (r.recordLocal uciMove boardStateHash).2.Holds made ∧
      (r.recordLocal uciMove boardStateHash).2.Ascending := by
  have hbelow : ∀ m ∈ r.log, m.lamportClock < r.lamportClock + 1 :=
    fun m hm => Int.lt_add_one_iff.mpr (h.reached m hm)
  refine ⟨⟨?_, ?_, ?_⟩, ?_⟩
  · exact Keyed.distinct_append_singleton_iff.mpr ⟨h.distinct, fun m hm => (hbelow m hm).ne⟩
  · intro m hm
    rcases List.mem_append.mp hm with hm | hm
    · exact h.known m hm
    · rwa [List.mem_singleton.mp hm]
  · intro m hm
    rcases List.mem_append.mp hm with hm | hm
    · exact (hbelow m hm).le
    · rw [List.mem_singleton.mp hm]
      exact le_rfl
  · apply List.pairwise_append.mpr
    refine ⟨hasc, List.pairwise_singleton _ _, fun m hm m' hm' => ?_⟩
    rw [List.mem_singleton.mp hm']
    exact hbelow m hm

theorem mem_sortLog {m : LamportMove} : m ∈ r.sortLog.log ↔ m ∈ r.log :=
  List.mem_insertionSort _

theorem Holds.sortLog (h : r.Holds made) : r.sortLog.Holds made where
  distinct := h.distinct.perm (List.perm_insertionSort _ _).symm
  known := fun m hm => h.known m (mem_sortLog.mp hm)
  reached := fun m hm => h.reached m (mem_sortLog.mp hm)

theorem Holds.ascending_sortLog (h : r.Holds made) : r.sortLog.Ascending :=
  h.distinct.ascending_insertionSort

/-- A segment of moves made is received without a conflict and adds just its moves. -/
theorem Holds.receiveRemoteLog (hunique : Unique made) (segment : List LamportMove)
    (hsegment : ∀ m ∈ segment, made m) : ∀ {r : LateJoinMoveLog}, r.Holds made →
    ∃ r', r.receiveRemoteLog segment = (none, r') ∧ r'.Holds made ∧ r'.Ascending ∧
      ∀ m, m ∈ r'.log ↔ m ∈ r.log ∨ m ∈ segment := by
  induction segment with
  | nil =>
    intro r h
    exact ⟨r.sortLog, rfl, h.sortLog, h.ascending_sortLog, fun m => by simp [mem_sortLog]⟩
  | cons remote segment ih =>
    intro r h
    have hremote := hsegment remote (by simp)
    have hrest : ∀ m ∈ segment, made m := fun m hm => hsegment m (by simp [hm])
    have hclock : (r.updateClock remote).Holds made := h.updateClock
    cases hlook : Keyed.lookup LamportMove.lamportClock r.log remote.lamportClock with
    | some existing =>
      -- the move under this clock is the same one
      obtain ⟨hmem, hkey⟩ := Keyed.mem_of_lookup hlook
      obtain rfl := hunique existing remote (h.known existing hmem) hremote hkey
      obtain ⟨r', hrun, hholds, hasc, hlog⟩ := ih hrest hclock
      refine ⟨r', ?_, hholds, hasc, fun m => ?_⟩
      · simpa [LateJoinMoveLog.receiveRemoteLog, hlook] using hrun
      · rw [hlog, updateClock_log, List.mem_cons]
        constructor
        · rintro (hm | hm)
          · exact .inl hm
          · exact .inr (.inr hm)
        · rintro (hm | rfl | hm)
          · exact .inl hm
          · exact .inl hmem
          · exact .inr hm
    | none =>
      have hnew : Keyed.lookup LamportMove.lamportClock (r.updateClock remote).log
          remote.lamportClock = none := by rw [updateClock_log, hlook]
      obtain ⟨r', hrun, hholds, hasc, hlog⟩ :=
        ih hrest (hclock.append hremote hnew remote_le_updateClock)
      refine ⟨r', ?_, hholds, hasc, fun m => ?_⟩
      · simpa [LateJoinMoveLog.receiveRemoteLog, hlook] using hrun
      · rw [hlog]
        simp [or_assoc]

theorem Holds.receiveAll (hunique : Unique made) (segments : List (List LamportMove))
    (hsegments : ∀ m ∈ segments.flatten, made m) :
    ∀ {r : LateJoinMoveLog}, r.Holds made → r.Ascending →
    (r.receiveAll segments).Ascending ∧
      ∀ m, m ∈ (r.receiveAll segments).log ↔ m ∈ r.log ∨ m ∈ segments.flatten := by
  induction segments with
  | nil =>
    intro r _ hasc
    exact ⟨hasc, fun m => by simp [LateJoinMoveLog.receiveAll]⟩
  | cons segment segments ih =>
    intro r h _
    obtain ⟨r', hrun, hholds, hasc, hlog⟩ :=
      h.receiveRemoteLog hunique segment fun m hm => hsegments m (by simp [hm])
    obtain ⟨hasc', hlog'⟩ := ih (fun m hm => hsegments m (by
      rw [List.flatten_cons, List.mem_append]
      exact .inr hm)) hholds hasc
    have hfirst : r.receiveAll (segment :: segments) = r'.receiveAll segments := by
      simp [LateJoinMoveLog.receiveAll, hrun]
    rw [hfirst]
    refine ⟨hasc', fun m => ?_⟩
    rw [hlog', hlog, List.flatten_cons, List.mem_append, or_assoc]

end LateJoinMoveLog

/-! ## The session -/

inductive Peer where
  | one
  | two
deriving DecidableEq, Repr

def Peer.other : Peer → Peer
  | .one => .two
  | .two => .one

/-- Two replicas and the segments on their way. `results` are the answers of `receiveRemoteLog` and
`received p` the moves that `p` has recorded or been sent. -/
structure Session where
  toMove : Peer
  replica : Peer → LateJoinMoveLog
  wire : List (Peer × List LamportMove)
  results : List (Option (List Char))
  received : Peer → List LamportMove

/-- What can happen: a player moves, a segment is sent to the other peer, and the `i`-th segment
ever sent arrives, perhaps not for the first time. -/
inductive SessionEvent where
  | move (p : Peer) (uciMove boardStateHash : List Char)
  | send (p : Peer) (fromClock : ℤ)
  | deliver (i : ℕ)

namespace Session

/-- Before the first move. -/
def start (first : Peer) : Session where
  toMove := first
  replica _ := {}
  wire := []
  results := []
  received _ := []

/-- It is `p`'s turn, and `p` has all moves made. -/
def MayMove (s : Session) (p : Peer) : Prop :=
  s.toMove = p ∧ ∀ m ∈ (s.replica p.other).log, m ∈ (s.replica p).log

instance (s : Session) (p : Peer) : Decidable (s.MayMove p) :=
  inferInstanceAs (Decidable (_ ∧ _))

/-- `p` records its move. -/
def move (s : Session) (p : Peer) (uciMove boardStateHash : List Char) : Session :=
  let recorded := (s.replica p).recordLocal uciMove boardStateHash
  { s with
    toMove := p.other
    replica := Function.update s.replica p recorded.2
    received := Function.update s.received p
      (s.received p ++ [{ lamportClock := recorded.1, uciMove, boardStateHash }]) }

/-- A segment arrives at `p`. -/
def deliver (s : Session) (p : Peer) (segment : List LamportMove) : Session :=
  let answer := (s.replica p).receiveRemoteLog segment
  { s with
    replica := Function.update s.replica p answer.2
    results := s.results ++ [answer.1]
    received := Function.update s.received p (s.received p ++ segment) }

def step (s : Session) : SessionEvent → Option Session
  | .move p uciMove boardStateHash =>
    if s.MayMove p then some (s.move p uciMove boardStateHash) else none
  | .send p fromClock =>
    some { s with wire := s.wire ++ [(p.other, (s.replica p).backfillFrom fromClock)] }
  | .deliver i => s.wire[i]?.map fun sent => s.deliver sent.1 sent.2

/-- The moves made: each is in the log of the player who made it. -/
def Made (s : Session) (m : LamportMove) : Prop := ∃ p, m ∈ (s.replica p).log

/-- What the logs of a session promise. -/
structure Converges (s : Session) : Prop where
  noConflict : ∀ result ∈ s.results, result = none
  ascending : ∀ p, (s.replica p).Ascending
  fresh : ∀ p, s.MayMove p → ∀ uciMove boardStateHash q, ∀ m ∈ (s.replica q).log,
    m.lamportClock < ((s.replica p).recordLocal uciMove boardStateHash).1
  peersAgree : (∀ m, m ∈ s.received .one ↔ m ∈ s.received .two) →
    (s.replica .one).log = (s.replica .two).log
  rejoinedAgree : ∀ segments segments', (∀ m ∈ segments.flatten, s.Made m) →
    (∀ m, m ∈ segments.flatten ↔ m ∈ segments'.flatten) →
    (({} : LateJoinMoveLog).receiveAll segments).log =
      (({} : LateJoinMoveLog).receiveAll segments').log

/-! ## The invariant -/

/-- Moves made carry different clocks; the replicas and the wire hold moves made. -/
structure Inv (s : Session) : Prop where
  unique : LateJoinMoveLog.Unique s.Made
  holds : ∀ p, (s.replica p).Holds s.Made
  ascending : ∀ p, (s.replica p).Ascending
  sent : ∀ segment ∈ s.wire, ∀ m ∈ segment.2, s.Made m
  heard : ∀ p m, m ∈ s.received p ↔ m ∈ (s.replica p).log
  noConflict : ∀ result ∈ s.results, result = none

variable {s : Session} {p : Peer}

theorem inv_start (first : Peer) : (start first).Inv where
  unique := by
    rintro m m' ⟨p, hm⟩
    cases hm
  holds _ := ⟨List.Pairwise.nil, by simp [start], by simp [start]⟩
  ascending _ := List.Pairwise.nil
  sent := by simp [start]
  heard := by simp [start]
  noConflict := by simp [start]

theorem Inv.clock_reached (h : s.Inv) (hmay : s.MayMove p) {m : LamportMove} (hm : s.Made m) :
    m.lamportClock ≤ (s.replica p).lamportClock := by
  obtain ⟨q, hq⟩ := hm
  by_cases hpq : q = p
  · subst hpq
    exact (h.holds q).reached m hq
  · have hother : q = p.other := by cases p <;> cases q <;> simp_all [Peer.other]
    subst hother
    exact (h.holds p).reached m (hmay.2 m hq)

section Update

-- one replica has taken in some moves
variable {t : Session} {r : LateJoinMoveLog} {news : List LamportMove}

theorem made_update (ht : t.replica = Function.update s.replica p r)
    (hlog : ∀ m, m ∈ r.log ↔ m ∈ (s.replica p).log ∨ m ∈ news) (m : LamportMove) :
    t.Made m ↔ s.Made m ∨ m ∈ news := by
  constructor
  · rintro ⟨q, hq⟩
    rw [ht] at hq
    by_cases hpq : q = p
    · subst hpq
      rw [Function.update_self, hlog] at hq
      exact hq.imp_left fun hm => ⟨q, hm⟩
    · rw [Function.update_of_ne hpq] at hq
      exact .inl ⟨q, hq⟩
  · rintro (⟨q, hq⟩ | hm)
    · refine ⟨q, ?_⟩
      rw [ht]
      by_cases hpq : q = p
      · subst hpq
        rw [Function.update_self, hlog]
        exact .inl hq
      · rwa [Function.update_of_ne hpq]
    · refine ⟨p, ?_⟩
      rw [ht, Function.update_self, hlog]
      exact .inr hm

theorem Inv.update (h : s.Inv) (ht : t.replica = Function.update s.replica p r)
    (hlog : ∀ m, m ∈ r.log ↔ m ∈ (s.replica p).log ∨ m ∈ news)
    (hreceived : t.received = Function.update s.received p (s.received p ++ news))
    (hwire : t.wire = s.wire) (hresults : ∀ result ∈ t.results, result = none)
    (hunique : LateJoinMoveLog.Unique t.Made) (hholds : r.Holds t.Made) (hasc : r.Ascending) :
    t.Inv := by
  have hold : ∀ m, s.Made m → t.Made m := fun m hm => (made_update ht hlog m).mpr (.inl hm)
  refine ⟨hunique, fun q => ?_, fun q => ?_, ?_, fun q m => ?_, hresults⟩
  · rw [ht]
    by_cases hpq : q = p
    · subst hpq
      rwa [Function.update_self]
    · rw [Function.update_of_ne hpq]
      exact (h.holds q).mono hold
  · rw [ht]
    by_cases hpq : q = p
    · subst hpq
      rwa [Function.update_self]
    · rw [Function.update_of_ne hpq]
      exact h.ascending q
  · rw [hwire]
    exact fun segment hsegment m hm => hold m (h.sent segment hsegment m hm)
  · rw [ht, hreceived]
    by_cases hpq : q = p
    · subst hpq
      rw [Function.update_self, Function.update_self, hlog, List.mem_append, h.heard]
    · rw [Function.update_of_ne hpq, Function.update_of_ne hpq]
      exact h.heard q m

end Update

theorem Inv.move (h : s.Inv) (hmay : s.MayMove p) (uciMove boardStateHash : List Char) :
    (s.move p uciMove boardStateHash).Inv := by
  set new : LamportMove := ⟨(s.replica p).lamportClock + 1, uciMove, boardStateHash⟩
  set t := s.move p uciMove boardStateHash
  have hlog : ∀ m, m ∈ ((s.replica p).recordLocal uciMove boardStateHash).2.log ↔
      m ∈ (s.replica p).log ∨ m ∈ [new] := fun _ => List.mem_append
  have hmade : ∀ m, t.Made m ↔ s.Made m ∨ m ∈ [new] := made_update rfl hlog
  have hbelow : ∀ m, s.Made m → m.lamportClock < new.lamportClock :=
    fun m hm => Int.lt_add_one_iff.mpr (h.clock_reached hmay hm)
  have hunique : LateJoinMoveLog.Unique t.Made := by
    -- the new clock is above all others
    intro m m' hm hm' hclock
    simp only [hmade, List.mem_singleton] at hm hm'
    rcases hm with hm | rfl <;> rcases hm' with hm' | rfl
    · exact h.unique m m' hm hm' hclock
    · exact absurd hclock (hbelow m hm).ne
    · exact absurd hclock (hbelow m' hm').ne'
    · rfl
  have hmover := ((h.holds p).mono fun m hm => (hmade m).mpr (.inl hm)).recordLocal
    (h.ascending p) ((hmade new).mpr (.inr (List.mem_singleton_self new)))
  exact h.update rfl hlog rfl rfl h.noConflict hunique hmover.1 hmover.2

theorem Inv.deliver (h : s.Inv) {segment : List LamportMove} (hsent : ∀ m ∈ segment, s.Made m) :
    (s.deliver p segment).Inv := by
  obtain ⟨r', hrun, hholds, hasc, hlog⟩ := (h.holds p).receiveRemoteLog h.unique segment hsent
  set t := s.deliver p segment with ht
  have hreplica : t.replica = Function.update s.replica p r' := by
    rw [ht]
    simp [Session.deliver, hrun]
  -- nothing new is made
  have hmade : t.Made = s.Made := by
    funext m
    rw [made_update hreplica hlog]
    exact propext (or_iff_left_of_imp (hsent m))
  have hresults : ∀ result ∈ t.results, result = none := by
    intro result hresult
    rcases List.mem_append.mp hresult with hresult | hresult
    · exact h.noConflict result hresult
    · rw [List.mem_singleton.mp hresult, hrun]
  apply h.update hreplica hlog rfl rfl hresults
  · rw [hmade]
    exact h.unique
  · rwa [hmade]
  · exact hasc

theorem Inv.step (h : s.Inv) {e : SessionEvent} {t : Session} (hstep : s.step e = some t) :
    t.Inv := by
  cases e with
  | move p uciMove boardStateHash =>
    simp only [Session.step] at hstep
    split_ifs at hstep with hmay
    cases hstep
    exact h.move hmay uciMove boardStateHash
  | send p fromClock =>
    cases hstep
    refine ⟨h.unique, h.holds, h.ascending, fun segment hseg m hm => ?_, h.heard, h.noConflict⟩
    rcases List.mem_append.mp hseg with hseg | hseg
    · exact h.sent segment hseg m hm
    · rw [List.mem_singleton.mp hseg] at hm
      exact ⟨p, List.mem_of_mem_filter hm⟩
  | deliver i =>
    obtain ⟨sent, hsent, rfl⟩ := Option.map_eq_some_iff.mp hstep
    exact h.deliver (h.sent sent (List.mem_of_getElem? hsent))

theorem Inv.converges (h : s.Inv) : s.Converges where
  noConflict := h.noConflict
  ascending := h.ascending
  fresh := fun _ hmay _ _ q _ hm => Int.lt_add_one_iff.mpr (h.clock_reached hmay ⟨q, hm⟩)
  peersAgree := by
    intro hsame
    apply Keyed.eq_of_ascending _ (h.ascending .one) (h.ascending .two)
    intro m
    rw [← h.heard, ← h.heard, hsame]
  rejoinedAgree := by
    intro segments segments' hmade hsame
    have hempty : ({} : LateJoinMoveLog).Holds s.Made := ⟨List.Pairwise.nil, by simp, by simp⟩
    obtain ⟨hasc, hlog⟩ := hempty.receiveAll h.unique segments hmade List.Pairwise.nil
    obtain ⟨hasc', hlog'⟩ := hempty.receiveAll h.unique segments'
      (fun m hm => hmade m ((hsame m).mpr hm)) List.Pairwise.nil
    apply Keyed.eq_of_ascending _ hasc hasc'
    intro m
    rw [hlog, hlog', hsame]

end Session

/-- However moves and segments interleave, no segment conflicts, the logs ascend, a new move carries
a clock above all others, and replicas with the same moves have the same log. -/
theorem late_join_converges (first : Peer) (s : Session)
    (h : Machine.Reachable Session.step (Session.start first) s) : s.Converges :=
  (h.invariant (Session.inv_start first) fun _ _ _ hinv hstep => hinv.step hstep).converges

/-- Two moves, with the first one delivered twice. -/
theorem late_join_converges_twoMoves :
    ∃ s, Machine.run Session.step (Session.start .one)
        [.move .one "e2e4".toList [], .send .one 0, .deliver 0, .move .two "e7e5".toList [],
          .deliver 0] = some s ∧
      ((s.replica .one).log.length = 1 ∧ (s.replica .two).log.length = 2) ∧ s.Converges := by
  have hrun : ∃ s, Machine.run Session.step (Session.start .one)
      [.move .one "e2e4".toList [], .send .one 0, .deliver 0, .move .two "e7e5".toList [],
        .deliver 0] = some s ∧
      (s.replica .one).log.length = 1 ∧ (s.replica .two).log.length = 2 := ⟨_, rfl, rfl, rfl⟩
  obtain ⟨s, hs, hlogs⟩ := hrun
  exact ⟨s, hs, hlogs, late_join_converges .one s ⟨_, hs⟩⟩

end ChessRecast.P2P

import Mathlib.Tactic

/-!
# Resynchronisation of two peers (`resync_protocol.dart`)

After a reconnect each peer sends a SYNC_REQ with the number of its last move, the number of the
last move it has received, and the hash of the state at that ply. `resolve` compares the hashes
and says how many moves to send again; `receiveMove` filters what arrives. Strings are lists of
characters. The timeout of the source is not part of the model.

`resolve` compares hashes that the two peers have taken at plies of their own, so it is right only
when both have received equally many moves (`resolve_exact_iff`). The filter applies every missing
move once and in order, whatever is repeated (`replay_exactly_once`).
-/

namespace ChessRecast.P2P

inductive ResyncAction where
  | replayUnackedMoves
  | continueFromSeq
  | mismatch
deriving DecidableEq, Repr

inductive MoveReceiveResult where
  | applied
  | alreadySeen
  | outOfSequence
deriving DecidableEq, Repr

structure SyncReq where
  lastSentSeq : ℤ
  lastAckedRemoteSeq : ℤ
  stateHashAtLastAckedPly : List Char
deriving DecidableEq, Repr

structure ResyncResolution where
  action : ResyncAction
  unackedCount : ℤ := 0
  continueFromSeq : Option ℤ := none
deriving DecidableEq, Repr

/-- `ResyncProtocol`, with the private counter `_lastProcessedSeq`. -/
structure ResyncProtocol where
  myLastSentSeq : ℤ
  myLastAckedRemoteSeq : ℤ
  myStateHashAtLastAckedPly : List Char
  lastProcessedSeq : ℤ
deriving DecidableEq, Repr

namespace ResyncProtocol

/-- The constructor. -/
def create (myLastSentSeq myLastAckedRemoteSeq : ℤ) (myStateHashAtLastAckedPly : List Char)
    (lastProcessedSeq : Option ℤ) : ResyncProtocol where
  myLastSentSeq := myLastSentSeq
  myLastAckedRemoteSeq := myLastAckedRemoteSeq
  myStateHashAtLastAckedPly := myStateHashAtLastAckedPly
  lastProcessedSeq := lastProcessedSeq.getD myLastAckedRemoteSeq

def syncReq (p : ResyncProtocol) : SyncReq where
  lastSentSeq := p.myLastSentSeq
  lastAckedRemoteSeq := p.myLastAckedRemoteSeq
  stateHashAtLastAckedPly := p.myStateHashAtLastAckedPly

def resolve (p : ResyncProtocol) (peer : SyncReq) : ResyncResolution :=
  let commonSeq := if p.myLastAckedRemoteSeq < peer.lastAckedRemoteSeq then p.myLastAckedRemoteSeq
    else peer.lastAckedRemoteSeq
  if p.myStateHashAtLastAckedPly ≠ peer.stateHashAtLastAckedPly then { action := .mismatch }
  else
    let myUnacked := p.myLastSentSeq - commonSeq
    if myUnacked > 0 then { action := .replayUnackedMoves, unackedCount := myUnacked }
    else { action := .continueFromSeq, continueFromSeq := some commonSeq }

def receiveMove (p : ResyncProtocol) (seq : ℤ) : MoveReceiveResult × ResyncProtocol :=
  if seq ≤ p.lastProcessedSeq then (.alreadySeen, p)
  else if seq > p.lastProcessedSeq + 1 then (.outOfSequence, p)
  else (.applied, { p with lastProcessedSeq := seq })

/-! ## What `resolve` answers -/

section Resolve

variable {p : ResyncProtocol} {peer : SyncReq}

theorem resolve_mismatch_iff : (p.resolve peer).action = .mismatch ↔
    p.myStateHashAtLastAckedPly ≠ peer.stateHashAtLastAckedPly := by
  unfold resolve
  by_cases hhash : p.myStateHashAtLastAckedPly = peer.stateHashAtLastAckedPly
  · simp only [hhash, ne_eq, not_true_eq_false, if_false, iff_false]
    split_ifs <;> simp
  · simp only [hhash, ne_eq, not_false_eq_true, if_true]

/-- The count is taken from the smaller of the two directions. -/
theorem resolve_unackedCount (hhash : p.myStateHashAtLastAckedPly = peer.stateHashAtLastAckedPly) :
    (p.resolve peer).unackedCount =
      max 0 (p.myLastSentSeq - min p.myLastAckedRemoteSeq peer.lastAckedRemoteSeq) := by
  have hcommon : (if p.myLastAckedRemoteSeq < peer.lastAckedRemoteSeq then p.myLastAckedRemoteSeq
      else peer.lastAckedRemoteSeq) = min p.myLastAckedRemoteSeq peer.lastAckedRemoteSeq := by
    split_ifs <;> omega
  unfold resolve
  simp only [hhash, ne_eq, not_true_eq_false, if_false, hcommon]
  split_ifs with hpos
  · show p.myLastSentSeq - _ = _
    omega
  · show (0 : ℤ) = _
    omega

end Resolve

end ResyncProtocol

/-! ## Two honest peers and their link -/

/-- One direction of the link. The moves 1, …, `sent` were sent and the moves 1, …, `received`
have arrived; once cut, nothing more arrives. -/
structure Direction where
  sent : ℕ := 0
  received : ℕ := 0
  cut : Bool := false

/-- What happens in one direction: delivery is in order, and the cut loses what is under way. -/
inductive Direction.Step : Direction → Direction → Prop
  | send (d : Direction) : Step d { d with sent := d.sent + 1 }
  | deliver (d : Direction) (hsent : d.received < d.sent) (hcut : d.cut = false) :
      Step d { d with received := d.received + 1 }
  | lose (d : Direction) : Step d { d with cut := true }

/-- Peer A sends on `ab`, peer B on `ba`. -/
structure Link where
  ab : Direction := {}
  ba : Direction := {}

namespace Link

/-- The directions move on their own. -/
inductive Step : Link → Link → Prop
  | ab {l : Link} {d : Direction} (h : l.ab.Step d) : Step l { l with ab := d }
  | ba {l : Link} {d : Direction} (h : l.ba.Step d) : Step l { l with ba := d }

/-- The links that arise, in any interleaving. -/
def Run (l : Link) : Prop := Relation.ReflTransGen Step {} l

def InOrder (l : Link) : Prop := l.ab.received ≤ l.ab.sent ∧ l.ba.received ≤ l.ba.sent

theorem received_le_of_step {d d' : Direction} (h : d.Step d') (hle : d.received ≤ d.sent) :
    d'.received ≤ d'.sent := by
  cases h with
  | send => exact Nat.le_succ_of_le hle
  | deliver hsent => exact hsent
  | lose => exact hle

theorem InOrder.step {l l' : Link} (h : InOrder l) (hstep : Step l l') : InOrder l' := by
  cases hstep with
  | ab hd => exact ⟨received_le_of_step hd h.1, h.2⟩
  | ba hd => exact ⟨h.1, received_le_of_step hd h.2⟩

theorem Run.inOrder {l : Link} (h : Run l) : InOrder l := by
  induction h with
  | refl => exact ⟨le_rfl, le_rfl⟩
  | tail _ hstep ih => exact ih.step hstep

variable {hash : ℕ → List Char} {l : Link}

/-- Peer A after the reconnect; `hash` gives the state of the common game at a ply. -/
def peerA (hash : ℕ → List Char) (l : Link) : ResyncProtocol :=
  .create l.ab.sent l.ba.received (hash l.ba.received) none

/-- Peer B after the reconnect. -/
def peerB (hash : ℕ → List Char) (l : Link) : ResyncProtocol :=
  .create l.ba.sent l.ab.received (hash l.ab.received) none

/-- Neither peer reports a mismatch, and each is told to repeat exactly what the other lacks. -/
structure Resolved (hash : ℕ → List Char) (l : Link) : Prop where
  no_mismatchA : ((l.peerA hash).resolve (l.peerB hash).syncReq).action ≠ .mismatch
  no_mismatchB : ((l.peerB hash).resolve (l.peerA hash).syncReq).action ≠ .mismatch
  countA : ((l.peerA hash).resolve (l.peerB hash).syncReq).unackedCount =
    l.ab.sent - l.ab.received
  countB : ((l.peerB hash).resolve (l.peerA hash).syncReq).unackedCount =
    l.ba.sent - l.ba.received

/-- In every run the resolution is right exactly if both peers have received equally many moves. -/
theorem resolve_exact_iff (hhash : Function.Injective hash) (hrun : Run l) :
    Resolved hash l ↔ l.ab.received = l.ba.received := by
  constructor
  · intro h
    -- without a mismatch the hashes, and so the two last plies, are the same
    by_contra hne
    exact h.no_mismatchA (ResyncProtocol.resolve_mismatch_iff.mpr
      fun heq => hne (hhash heq).symm)
  · intro heq
    obtain ⟨hab, hba⟩ := hrun.inOrder
    have hsameA : (l.peerA hash).myStateHashAtLastAckedPly =
        (l.peerB hash).syncReq.stateHashAtLastAckedPly := congrArg hash heq.symm
    have hsameB : (l.peerB hash).myStateHashAtLastAckedPly =
        (l.peerA hash).syncReq.stateHashAtLastAckedPly := hsameA.symm
    refine ⟨fun h => ResyncProtocol.resolve_mismatch_iff.mp h hsameA,
      fun h => ResyncProtocol.resolve_mismatch_iff.mp h hsameB, ?_, ?_⟩
    · rw [ResyncProtocol.resolve_unackedCount hsameA]
      show max 0 ((l.ab.sent : ℤ) - min (l.ba.received : ℤ) l.ab.received) = _
      omega
    · rw [ResyncProtocol.resolve_unackedCount hsameB]
      show max 0 ((l.ba.sent : ℤ) - min (l.ab.received : ℤ) l.ba.received) = _
      omega

/-- A hash for each ply: as many strokes as plies. -/
def strokes (ply : ℕ) : List Char := List.replicate ply 'x'

theorem strokes_injective : Function.Injective strokes := by
  intro m n h
  simpa [strokes] using congrArg List.length h

/-- A sends two moves, of which only the first arrives; B answers it, and the answer arrives. -/
def oneLost : Link where
  ab := { sent := 2, received := 1, cut := true }
  ba := { sent := 1, received := 1 }

theorem run_oneLost : Run oneLost := by
  have hsend : Run { ab := { sent := 2 } } :=
    .tail (.tail .refl (.ab (.send _))) (.ab (.send _))
  have hanswer : Run { ab := { sent := 2, received := 1 }, ba := { sent := 1, received := 1 } } :=
    .tail (.tail (.tail hsend (.ab (.deliver _ (by decide) rfl))) (.ba (.send _)))
      (.ba (.deliver _ (by decide) rfl))
  exact .tail hanswer (.ab (.lose _))

theorem resolve_exact_oneLost : Function.Injective strokes ∧ Run oneLost ∧
    (Resolved strokes oneLost ↔ oneLost.ab.received = oneLost.ba.received) :=
  ⟨strokes_injective, run_oneLost, resolve_exact_iff strokes_injective run_oneLost⟩

/-- A has sent one move, B has received it, and nothing is lost: both peers report a mismatch. -/
theorem move_in_hand_mismatches : ∃ l : Link, Run l ∧ l.ab.received = l.ab.sent ∧
    l.ba.received = l.ba.sent ∧ ∀ hash : ℕ → List Char, Function.Injective hash →
      ((l.peerA hash).resolve (l.peerB hash).syncReq).action = .mismatch ∧
      ((l.peerB hash).resolve (l.peerA hash).syncReq).action = .mismatch := by
  refine ⟨{ ab := { sent := 1, received := 1 } },
    .tail (.tail .refl (.ab (.send _))) (.ab (.deliver _ (by decide) rfl)), rfl, rfl, ?_⟩
  intro hash hhash
  exact ⟨ResyncProtocol.resolve_mismatch_iff.mpr fun h => absurd (hhash h) (by decide),
    ResyncProtocol.resolve_mismatch_iff.mpr fun h => absurd (hhash h) (by decide)⟩

end Link

/-! ## Replay -/

namespace ResyncProtocol

/-- What `receiveMove` answers to a series of moves, and the peer afterwards. -/
def receiveMoves (p : ResyncProtocol) : List ℤ → List (ℤ × MoveReceiveResult) × ResyncProtocol
  | [] => ([], p)
  | seq :: seqs =>
    let (result, q) := p.receiveMove seq
    let (results, r) := q.receiveMoves seqs
    ((seq, result) :: results, r)

/-- The numbers that were applied, in the order in which they were. -/
def appliedSeqs (p : ResyncProtocol) (seqs : List ℤ) : List ℤ :=
  ((p.receiveMoves seqs).1.filter fun r => r.2 = .applied).map Prod.fst

/-- The numbers `low + 1`, …, `high`. -/
def numbers (low high : ℤ) : List ℤ :=
  (List.range (high - low).toNat).map fun i : ℕ => low + 1 + (i : ℤ)

/-- A delivery of moves up to `n`: every number above `low` comes, and for the first time after
the smaller ones; repetitions and numbers up to `low` may stand anywhere. -/
structure Delivery (low n : ℤ) (seqs : List ℤ) : Prop where
  le : ∀ seq ∈ seqs, seq ≤ n
  complete : ∀ k, low < k → k ≤ n → k ∈ seqs
  ordered : ∀ j k, low < j → j < k → k ≤ n → seqs.idxOf j < seqs.idxOf k

section Receive

variable {p : ResyncProtocol} {low n seq : ℤ} {seqs : List ℤ}

theorem numbers_of_le {low high : ℤ} (h : high ≤ low) : numbers low high = [] := by
  rw [numbers, Int.toNat_of_nonpos (by omega)]
  rfl

theorem numbers_of_lt {low high : ℤ} (h : low < high) :
    numbers low high = (low + 1) :: numbers (low + 1) high := by
  obtain ⟨k, hk⟩ : ∃ k : ℕ, (high - low).toNat = k + 1 := ⟨(high - low).toNat - 1, by omega⟩
  rw [numbers, numbers, hk, show (high - (low + 1)).toNat = k by omega, List.range_succ_eq_map,
    List.map_cons, List.map_map]
  congr 1
  · simp
  · refine List.map_congr_left fun i _ => ?_
    show low + 1 + ((i + 1 : ℕ) : ℤ) = low + 1 + 1 + i
    push_cast
    ring

/-- A number that was seen already may come at any time. -/
theorem Delivery.tail_of_le (h : Delivery low n (seq :: seqs)) (hseq : seq ≤ low) :
    Delivery low n seqs := by
  refine ⟨fun s hs => h.le s (List.mem_cons_of_mem _ hs), fun k hk hkn => ?_,
    fun j k hj hjk hkn => ?_⟩
  · rcases List.mem_cons.mp (h.complete k hk hkn) with rfl | hmem
    · omega
    · exact hmem
  · have hidx := h.ordered j k hj hjk hkn
    rw [List.idxOf_cons_ne _ (by omega), List.idxOf_cons_ne _ (by omega)] at hidx
    omega

theorem Delivery.head_eq (h : Delivery low n (seq :: seqs)) (hseq : low < seq) :
    seq = low + 1 := by
  by_contra hne
  have hidx := h.ordered (low + 1) seq (by omega) (by omega) (h.le seq List.mem_cons_self)
  rw [List.idxOf_cons_self] at hidx
  omega

theorem Delivery.tail_of_eq (h : Delivery low n ((low + 1) :: seqs)) :
    Delivery (low + 1) n seqs := by
  refine ⟨fun s hs => h.le s (List.mem_cons_of_mem _ hs), fun k hk hkn => ?_,
    fun j k hj hjk hkn => ?_⟩
  · rcases List.mem_cons.mp (h.complete k (by omega) hkn) with rfl | hmem
    · omega
    · exact hmem
  · have hidx := h.ordered j k (by omega) hjk hkn
    rw [List.idxOf_cons_ne _ (by omega), List.idxOf_cons_ne _ (by omega)] at hidx
    omega

/-- The missing numbers are applied, each once and in order, and the counter ends at the last. -/
theorem receiveMoves_of_delivery (seqs : List ℤ) : ∀ p : ResyncProtocol,
    Delivery p.lastProcessedSeq n seqs →
      p.appliedSeqs seqs = numbers p.lastProcessedSeq n ∧
        (p.receiveMoves seqs).2.lastProcessedSeq = max p.lastProcessedSeq n := by
  induction seqs with
  | nil =>
    intro p h
    have hle : n ≤ p.lastProcessedSeq := by
      by_contra hlt
      cases h.complete n (by omega) le_rfl
    rw [numbers_of_le hle]
    exact ⟨rfl, (max_eq_left hle).symm⟩
  | cons seq seqs ih =>
    intro p h
    by_cases hseen : seq ≤ p.lastProcessedSeq
    · have hreceive : p.receiveMove seq = (.alreadySeen, p) := if_pos hseen
      obtain ⟨happlied, hlast⟩ := ih p (h.tail_of_le hseen)
      simp only [appliedSeqs, receiveMoves, hreceive]
      exact ⟨happlied, hlast⟩
    · obtain rfl := h.head_eq (by omega)
      have hle := h.le _ List.mem_cons_self
      have hreceive : p.receiveMove (p.lastProcessedSeq + 1) =
          (.applied, { p with lastProcessedSeq := p.lastProcessedSeq + 1 }) := by
        rw [receiveMove, if_neg hseen, if_neg (by omega)]
      obtain ⟨happlied, hlast⟩ :=
        ih { p with lastProcessedSeq := p.lastProcessedSeq + 1 } h.tail_of_eq
      simp only [appliedSeqs, receiveMoves, hreceive, numbers_of_lt (show p.lastProcessedSeq < n by
        omega)]
      refine ⟨congrArg _ happlied, hlast.trans ?_⟩
      show max (p.lastProcessedSeq + 1) n = _
      omega

/-! ## Sending the last moves again -/

theorem Delivery.of_le (hle : n ≤ low) (hseqs : ∀ seq ∈ seqs, seq ≤ n) : Delivery low n seqs :=
  ⟨hseqs, fun _ _ _ => by omega, fun _ _ _ _ _ => by omega⟩

theorem Delivery.cons_of_le (h : Delivery low n seqs) (hseq : seq ≤ low) (hn : seq ≤ n) :
    Delivery low n (seq :: seqs) := by
  refine ⟨fun s hs => ?_, fun k hk hkn => List.mem_cons_of_mem _ (h.complete k hk hkn),
    fun j k hj hjk hkn => ?_⟩
  · rcases List.mem_cons.mp hs with rfl | hmem
    · exact hn
    · exact h.le s hmem
  · have hidx := h.ordered j k hj hjk hkn
    rw [List.idxOf_cons_ne _ (by omega), List.idxOf_cons_ne _ (by omega)]
    omega

theorem Delivery.cons_of_eq (h : Delivery (low + 1) n seqs) (hn : low + 1 ≤ n) :
    Delivery low n ((low + 1) :: seqs) := by
  refine ⟨fun s hs => ?_, fun k hk hkn => ?_, fun j k hj hjk hkn => ?_⟩
  · rcases List.mem_cons.mp hs with rfl | hmem
    · exact hn
    · exact h.le s hmem
  · by_cases hk' : k = low + 1
    · rw [hk']
      exact List.mem_cons_self
    · exact List.mem_cons_of_mem _ (h.complete k (by omega) hkn)
  · rw [List.idxOf_cons_ne _ (show low + 1 ≠ k by omega)]
    by_cases hj' : j = low + 1
    · rw [hj', List.idxOf_cons_self]
      omega
    · rw [List.idxOf_cons_ne _ (show low + 1 ≠ j by omega)]
      exact Nat.succ_lt_succ (h.ordered j k (by omega) hjk hkn)

/-- A series of numbers that starts early enough is a delivery, whatever comes after it. -/
theorem delivery_numbers_append {rest : List ℤ} (hrest : ∀ seq ∈ rest, seq ≤ n)
    (k : ℕ) : ∀ start low : ℤ, (n - start).toNat = k → start ≤ low →
      Delivery low n (numbers start n ++ rest) := by
  induction k with
  | zero =>
    intro start low hk hlow
    rw [numbers_of_le (by omega)]
    exact .of_le (by omega) hrest
  | succ k ih =>
    intro start low hk hlow
    rw [numbers_of_lt (by omega)]
    rcases Int.lt_or_eq_of_le hlow with hlt | rfl
    · exact (ih (start + 1) low (by omega) (by omega)).cons_of_le (by omega) (by omega)
    · exact (ih (start + 1) (start + 1) (by omega) le_rfl).cons_of_eq (by omega)

theorem le_of_mem_numbers {start : ℤ} (h : seq ∈ numbers start n) : seq ≤ n := by
  obtain ⟨i, hi, rfl⟩ := List.mem_map.mp h
  have := List.mem_range.mp hi
  omega

/-- The last `count` of the moves 1, …, `sent`, sent `times` times. -/
def replay (count sent : ℤ) (times : ℕ) : List ℤ :=
  (List.replicate times (numbers (sent - count) sent)).flatten

theorem delivery_replay {count sent : ℤ} (hcount : sent - low ≤ count) (times : ℕ) :
    Delivery low sent (replay count sent (times + 1)) := by
  rw [replay, List.replicate_succ, List.flatten_cons]
  refine delivery_numbers_append (fun seq hseq => ?_) _ (sent - count) low rfl (by omega)
  obtain ⟨moves, hmoves, hmem⟩ := List.mem_flatten.mp hseq
  rw [List.eq_of_mem_replicate hmoves] at hmem
  exact le_of_mem_numbers hmem

/-- Every missing move is applied once and in order and nothing else is; so the moves that
`resolve` asks for, sent any number of times, bring the peer up to date when they reach back to
its last one. -/
theorem replay_exactly_once (p : ResyncProtocol) :
    (∀ (n : ℤ) (seqs : List ℤ), Delivery p.lastProcessedSeq n seqs →
      p.appliedSeqs seqs = numbers p.lastProcessedSeq n ∧
      (p.lastProcessedSeq ≤ n → (p.receiveMoves seqs).2.lastProcessedSeq = n) ∧
      (n < p.lastProcessedSeq →
        (p.receiveMoves seqs).2.lastProcessedSeq = p.lastProcessedSeq)) ∧
    ∀ (sender : ResyncProtocol) (peer : SyncReq) (times : ℕ),
      p.lastProcessedSeq ≤ sender.myLastSentSeq →
      sender.myLastSentSeq - p.lastProcessedSeq ≤ (sender.resolve peer).unackedCount →
      (p.receiveMoves (replay (sender.resolve peer).unackedCount sender.myLastSentSeq
        (times + 1))).2.lastProcessedSeq = sender.myLastSentSeq := by
  constructor
  · intro n seqs h
    obtain ⟨happlied, hlast⟩ := receiveMoves_of_delivery seqs p h
    refine ⟨happlied, fun hle => ?_, fun hlt => ?_⟩
    · rw [hlast, max_eq_right hle]
    · rw [hlast, max_eq_left (le_of_lt hlt)]
  · intro sender peer times hle hcount
    rw [(receiveMoves_of_delivery _ p (delivery_replay hcount times)).2, max_eq_right hle]

/-- Peer A of a link on which A has sent three moves of which none has arrived. -/
def threeSent : ResyncProtocol := .create 3 0 [] none

/-- The moves 1, 2, 3 with repetitions reach peer B of that link, first in a series of their own
and then as the answer to its SYNC_REQ. -/
theorem replay_exactly_once_threeSent :
    ((ResyncProtocol.create 0 0 [] none).appliedSeqs [1, 0, 1, 2, 2, 1, 3] = [1, 2, 3]) ∧
    ((ResyncProtocol.create 0 0 [] none).receiveMoves
      (replay (threeSent.resolve (ResyncProtocol.create 0 0 [] none).syncReq).unackedCount
        threeSent.myLastSentSeq 2)).2.lastProcessedSeq = 3 := by
  constructor
  · refine ((replay_exactly_once (ResyncProtocol.create 0 0 [] none)).1 3 [1, 0, 1, 2, 2, 1, 3]
      ⟨by decide, fun k hk hk3 => ?_, fun j k hj hjk hk3 => ?_⟩).1.trans (by decide)
    · replace hk : 0 < k := hk
      interval_cases k <;> decide
    · replace hj : 0 < j := hj
      have hk : 0 < k := hj.trans hjk
      interval_cases k <;> interval_cases j <;> decide
  · exact (replay_exactly_once (ResyncProtocol.create 0 0 [] none)).2 threeSent
      (ResyncProtocol.create 0 0 [] none).syncReq 1 (by decide) (by decide)

end Receive

end ResyncProtocol

end ChessRecast.P2P

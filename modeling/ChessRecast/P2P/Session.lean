import ChessRecast.Lib.Machine
import ChessRecast.P2P.Frame

/-!
# The session of a game (`session.dart`)

A session is a state machine with the last sequence number of each direction and the last 64 frames
of each side. A reset clears the numbers of the directions 0 and 1 and the frames, but neither the
metadata nor the number of any other direction, so it shows afterwards which session it was
(`session_reset_iff`). A direction without a number reads as 0, and nothing else reads the map.
-/

namespace ChessRecast.P2P

inductive SessionState where
  | idle
  | handshake
  | playing
  | finished
  | aborted
deriving DecidableEq, Repr

def legalTransitions : SessionState → List String
  | .idle => ["start_handshake"]
  | .handshake => ["confirm", "abort"]
  | .playing => ["game_end", "mismatch", "abort"]
  | .finished => ["reset"]
  | .aborted => ["reset"]

/-- `Session` of `session.dart` -/
structure P2PSession where
  state : SessionState := .idle
  lastSeenSeq : ℤ → ℤ := fun _ => 0
  localFrames : List Frame := []
  remoteFrames : List Frame := []
  modId : Option String := none
  sessionId : Option (List UInt8) := none

structure ForensicBundle where
  sessionId : List UInt8
  localFrames : List Frame
  remoteFrames : List Frame
  localMoveList : List String
  remoteMoveList : List String
  modId : String
  nativeLibSha : String
deriving DecidableEq, Repr

/-- What a call returns or throws. -/
inductive SessionReply where
  | done
  | protocolStateError (current : SessionState) (event : String)
  | outOfSequenceError (received lastSeen : ℤ)
  | bundle (b : ForensicBundle)
deriving DecidableEq, Repr

/-- The calls of a session, and the assignments to its two public fields. -/
inductive SessionCall where
  | transition (event : String)
  | validateAndRecordSequence (direction seq : ℤ)
  | recordLocalFrame (frame : Frame)
  | recordRemoteFrame (frame : Frame)
  | setModId (modId : Option String)
  | setSessionId (sessionId : Option (List UInt8))
  | buildForensicBundle (localMoveList remoteMoveList : List String) (modIdStr nativeLibSha : String)
deriving DecidableEq, Repr

namespace P2PSession

def maxForensicFrames : ℕ := 64

def transition (s : P2PSession) (event : String) : P2PSession × SessionReply :=
  if event ∉ legalTransitions s.state then (s, .protocolStateError s.state event)
  else if event = "start_handshake" then ({ s with state := .handshake }, .done)
  else if event = "confirm" then ({ s with state := .playing }, .done)
  else if event = "abort" then ({ s with state := .aborted }, .done)
  else if event = "game_end" then ({ s with state := .finished }, .done)
  else if event = "mismatch" then ({ s with state := .aborted }, .done)
  else if event = "reset" then
    ({ s with
        state := .idle
        lastSeenSeq := Function.update (Function.update s.lastSeenSeq 0 0) 1 0
        localFrames := []
        remoteFrames := [] }, .done)
  else (s, .done)

def validateAndRecordSequence (s : P2PSession) (direction seq : ℤ) : P2PSession × SessionReply :=
  let last := s.lastSeenSeq direction
  if seq ≤ last then (s, .outOfSequenceError seq last)
  else ({ s with lastSeenSeq := Function.update s.lastSeenSeq direction seq }, .done)

/-- A frame added to the frames of its side. -/
def recordFrame (frames : List Frame) (frame : Frame) : List Frame :=
  let frames := frames ++ [frame]
  if frames.length > maxForensicFrames then frames.tail else frames

def buildForensicBundle (s : P2PSession) (localMoveList remoteMoveList : List String)
    (modIdStr nativeLibSha : String) : ForensicBundle where
  sessionId := s.sessionId.getD []
  localFrames := s.localFrames
  remoteFrames := s.remoteFrames
  localMoveList := localMoveList
  remoteMoveList := remoteMoveList
  modId := modIdStr
  nativeLibSha := nativeLibSha

def step (s : P2PSession) : SessionCall → P2PSession × SessionReply
  | .transition event => s.transition event
  | .validateAndRecordSequence direction seq => s.validateAndRecordSequence direction seq
  | .recordLocalFrame frame => ({ s with localFrames := recordFrame s.localFrames frame }, .done)
  | .recordRemoteFrame frame => ({ s with remoteFrames := recordFrame s.remoteFrames frame }, .done)
  | .setModId modId => ({ s with modId := modId }, .done)
  | .setSessionId sessionId => ({ s with sessionId := sessionId }, .done)
  | .buildForensicBundle localMoveList remoteMoveList modIdStr nativeLibSha =>
    (s, .bundle (s.buildForensicBundle localMoveList remoteMoveList modIdStr nativeLibSha))

def next (s : P2PSession) (call : SessionCall) : P2PSession := (s.step call).1

def run (s : P2PSession) (calls : List SessionCall) : P2PSession := calls.foldl next s

/-- What a sequence of calls shows: the reply to each, and the state after it. -/
def observe : P2PSession → List SessionCall → List (SessionReply × SessionState)
  | _, [] => []
  | s, call :: calls => ((s.step call).2, (s.next call).state) :: observe (s.next call) calls

/-- The session has ended. -/
def CanReset (s : P2PSession) : Prop := "reset" ∈ legalTransitions s.state

instance (s : P2PSession) : Decidable s.CanReset := inferInstanceAs (Decidable (_ ∈ _))

variable {s t : P2PSession} {call : SessionCall} {calls : List SessionCall} {direction : ℤ}

/-! ## Sessions that cannot be told apart -/

/-- The sessions agree in everything but the way in which an empty `sessionId` is written and in
the `modId`, which nothing reads. -/
structure Same (s t : P2PSession) : Prop where
  state : s.state = t.state
  lastSeenSeq : s.lastSeenSeq = t.lastSeenSeq
  localFrames : s.localFrames = t.localFrames
  remoteFrames : s.remoteFrames = t.remoteFrames
  sessionId : s.sessionId.getD [] = t.sessionId.getD []

theorem Same.transition (h : Same s t) (event : String) :
    (s.transition event).2 = (t.transition event).2 ∧
      Same (s.transition event).1 (t.transition event).1 := by
  unfold P2PSession.transition
  rw [h.state]
  have hsame : ∀ state, Same { s with state := state } { t with state := state } :=
    fun _ => ⟨rfl, h.lastSeenSeq, h.localFrames, h.remoteFrames, h.sessionId⟩
  split_ifs
  · exact ⟨rfl, hsame _⟩
  · exact ⟨rfl, hsame _⟩
  · exact ⟨rfl, hsame _⟩
  · exact ⟨rfl, hsame _⟩
  · exact ⟨rfl, hsame _⟩
  · refine ⟨rfl, rfl, ?_, rfl, rfl, h.sessionId⟩
    show Function.update _ 1 0 = Function.update _ 1 0
    rw [h.lastSeenSeq]
  · exact ⟨rfl, h⟩
  · exact ⟨rfl, h⟩

theorem Same.step (h : Same s t) (call : SessionCall) :
    (s.step call).2 = (t.step call).2 ∧ Same (s.next call) (t.next call) := by
  obtain ⟨hstate, hseq, hlocal, hremote, hid⟩ := h
  cases call with
  | transition event => exact Same.transition ⟨hstate, hseq, hlocal, hremote, hid⟩ event
  | validateAndRecordSequence direction seq =>
    unfold next P2PSession.step validateAndRecordSequence
    dsimp only
    rw [hseq]
    split
    · exact ⟨rfl, hstate, hseq, hlocal, hremote, hid⟩
    · exact ⟨rfl, hstate, rfl, hlocal, hremote, hid⟩
  | recordLocalFrame frame =>
    exact ⟨rfl, hstate, hseq, congrArg (recordFrame · frame) hlocal, hremote, hid⟩
  | recordRemoteFrame frame =>
    exact ⟨rfl, hstate, hseq, hlocal, congrArg (recordFrame · frame) hremote, hid⟩
  | setModId modId => exact ⟨rfl, hstate, hseq, hlocal, hremote, hid⟩
  | setSessionId sessionId => exact ⟨rfl, hstate, hseq, hlocal, hremote, rfl⟩
  | buildForensicBundle localMoveList remoteMoveList modIdStr nativeLibSha =>
    refine ⟨?_, hstate, hseq, hlocal, hremote, hid⟩
    unfold P2PSession.step P2PSession.buildForensicBundle
    dsimp only
    rw [hid, hlocal, hremote]

theorem Same.observe (h : Same s t) (calls : List SessionCall) :
    s.observe calls = t.observe calls := by
  induction calls generalizing s t with
  | nil => rfl
  | cons call calls ih =>
    obtain ⟨hreply, hnext⟩ := h.step call
    unfold P2PSession.observe
    rw [hreply, hnext.state, ih hnext]

/-! ## Resets -/

/-- Nothing is left of the session that a reset does not clear. -/
def Forgettable (s : P2PSession) : Prop :=
  s.sessionId.getD [] = [] ∧ ∀ direction, direction ≠ 0 → direction ≠ 1 → s.lastSeenSeq direction = 0

theorem transition_reset (h : s.CanReset) : (s.transition "reset").1 =
    { s with
      state := .idle
      lastSeenSeq := Function.update (Function.update s.lastSeenSeq 0 0) 1 0
      localFrames := []
      remoteFrames := [] } := by
  have hlegal : ¬ "reset" ∉ legalTransitions s.state := not_not.mpr h
  unfold transition
  rw [if_neg hlegal, if_neg (by decide), if_neg (by decide), if_neg (by decide),
    if_neg (by decide), if_neg (by decide), if_pos rfl]

/-- A session after a reset cannot be told from a new one exactly if there was nothing else to
clear. -/
theorem observe_reset_iff (h : s.CanReset) :
    (∀ later, (s.transition "reset").1.observe later = observe {} later) ↔ s.Forgettable := by
  rw [transition_reset h]
  constructor
  · intro hsame
    constructor
    · -- a bundle shows the identifier
      have hbundle := hsame [.buildForensicBundle [] [] "" ""]
      unfold observe at hbundle
      have hreply := (Prod.mk.inj (List.cons.inj hbundle).1).1
      exact congrArg ForensicBundle.sessionId (SessionReply.bundle.inj hreply)
    · -- a number between the two last ones is accepted by one session only
      intro direction hzero hone
      have hlast : Function.update (Function.update s.lastSeenSeq 0 0) 1 0 direction =
          s.lastSeenSeq direction := by
        rw [Function.update_of_ne hone, Function.update_of_ne hzero]
      have hseq := hsame [.validateAndRecordSequence direction (max 0 (s.lastSeenSeq direction))]
      unfold observe at hseq
      have hreply := (Prod.mk.inj (List.cons.inj hseq).1).1
      unfold step validateAndRecordSequence at hreply
      dsimp only at hreply
      rw [hlast] at hreply
      split_ifs at hreply with h₁ h₂
      · exact (SessionReply.outOfSequenceError.inj hreply).2
      · omega
  · rintro ⟨hid, hseq⟩ later
    apply Same.observe
    refine ⟨rfl, ?_, rfl, rfl, hid⟩
    funext direction
    show Function.update (Function.update s.lastSeenSeq 0 0) 1 0 direction = 0
    by_cases hone : direction = 1
    · rw [hone, Function.update_self]
    · rw [Function.update_of_ne hone]
      by_cases hzero : direction = 0
      · rw [hzero, Function.update_self]
      · rw [Function.update_of_ne hzero, hseq direction hzero hone]

/-! ## Between resets -/

/-- The call is not a reset, or one that is refused. -/
def Continues (s : P2PSession) (call : SessionCall) : Prop :=
  ¬ (call = .transition "reset" ∧ s.CanReset)

/-- The numbers of a direction that are accepted, in their order. -/
def accepted (direction : ℤ) : P2PSession → List SessionCall → List ℤ
  | _, [] => []
  | s, .validateAndRecordSequence d seq :: calls =>
    (if d = direction ∧ (s.validateAndRecordSequence d seq).2 = .done then [seq] else []) ++
      accepted direction (s.next (.validateAndRecordSequence d seq)) calls
  | s, call :: calls => accepted direction (s.next call) calls

/-- The local frames that are recorded in a call. -/
def localOf : SessionCall → List Frame
  | .recordLocalFrame frame => [frame]
  | _ => []

/-- The remote frames that are recorded in a call. -/
def remoteOf : SessionCall → List Frame
  | .recordRemoteFrame frame => [frame]
  | _ => []

/-- The last 64 of some frames. -/
def lastFrames (frames : List Frame) : List Frame :=
  frames.drop (frames.length - maxForensicFrames)

theorem transition_of_continues {event : String} (h : s.Continues (.transition event)) :
    ∃ state, (s.transition event).1 = { s with state := state } := by
  unfold transition
  split_ifs with hlegal _ _ _ _ _ hreset
  · exact ⟨_, rfl⟩
  · exact ⟨_, rfl⟩
  · exact ⟨_, rfl⟩
  · exact ⟨_, rfl⟩
  · exact ⟨_, rfl⟩
  · subst hreset
    exact absurd ⟨rfl, hlegal⟩ h
  · exact ⟨s.state, rfl⟩
  · exact ⟨s.state, rfl⟩

theorem lastSeenSeq_next (h : s.Continues call) (direction : ℤ) :
    s.lastSeenSeq direction ≤ (s.next call).lastSeenSeq direction := by
  cases call with
  | transition event =>
    obtain ⟨state, hnext⟩ := transition_of_continues h
    show _ ≤ (s.transition event).1.lastSeenSeq direction
    rw [hnext]
  | validateAndRecordSequence d seq =>
    unfold next step validateAndRecordSequence
    dsimp only
    split
    · exact le_rfl
    · show _ ≤ Function.update s.lastSeenSeq d seq direction
      by_cases hd : direction = d
      · rw [hd, Function.update_self]
        omega
      · rw [Function.update_of_ne hd]
  | _ => exact le_rfl

/-- A number that is accepted is above the last one and becomes it. -/
theorem lastSeenSeq_of_done {seq : ℤ}
    (h : (s.validateAndRecordSequence direction seq).2 = .done) : s.lastSeenSeq direction < seq ∧
      (s.next (.validateAndRecordSequence direction seq)).lastSeenSeq direction = seq := by
  unfold next step validateAndRecordSequence at *
  dsimp only at *
  split_ifs at h ⊢
  exact ⟨by omega, Function.update_self ..⟩

/-- Accepted numbers are above the last one, and strictly increasing. -/
theorem accepted_spec (hrun : Machine.Along next Continues s calls) (direction : ℤ) :
    (∀ seq ∈ accepted direction s calls, s.lastSeenSeq direction < seq) ∧
      (accepted direction s calls).Pairwise (· < ·) := by
  -- the last number only grows, so what is accepted later is above it
  induction calls generalizing s with
  | nil => exact ⟨fun _ h => absurd h List.not_mem_nil, List.Pairwise.nil⟩
  | cons call calls ih =>
    obtain ⟨habove, hpair⟩ := ih hrun.2
    have hle := lastSeenSeq_next hrun.1 direction
    have hrest : ∀ seq ∈ accepted direction (s.next call) calls, s.lastSeenSeq direction < seq :=
      fun seq hseq => hle.trans_lt (habove seq hseq)
    cases call with
    | validateAndRecordSequence d seq =>
      unfold accepted
      split
      · rename_i hdone
        obtain ⟨rfl, hdone⟩ := hdone
        obtain ⟨hlt, hnew⟩ := lastSeenSeq_of_done hdone
        rw [hnew] at habove
        refine ⟨fun seq' hmem => ?_, List.Pairwise.cons habove hpair⟩
        rcases List.mem_cons.mp hmem with rfl | hmem
        · exact hlt
        · exact hrest seq' hmem
      · exact ⟨hrest, hpair⟩
    | _ => exact ⟨hrest, hpair⟩

theorem recordFrame_lastFrames (frames : List Frame) (frame : Frame) :
    recordFrame (lastFrames frames) frame = lastFrames (frames ++ [frame]) := by
  unfold recordFrame lastFrames maxForensicFrames
  by_cases hfull : frames.length < 64
  · have hnone : frames.length - 64 = 0 := by omega
    have hnone' : (frames ++ [frame]).length - 64 = 0 := by
      rw [List.length_append, List.length_singleton]
      omega
    rw [hnone, hnone', List.drop_zero, List.drop_zero]
    refine if_neg ?_
    rw [List.length_append, List.length_singleton]
    omega
  · have hdrop : frames.drop (frames.length - 64) ++ [frame] =
        (frames ++ [frame]).drop (frames.length - 64) :=
      (List.drop_append_of_le_length (by omega)).symm
    have hlen : ((frames ++ [frame]).drop (frames.length - 64)).length > 64 := by
      rw [List.length_drop, List.length_append, List.length_singleton]
      omega
    dsimp only
    rw [hdrop, if_pos hlen, List.tail_drop]
    congr 1
    rw [List.length_append, List.length_singleton]
    omega

theorem frames_next {l r : List Frame} (h : s.Continues call)
    (hlocal : s.localFrames = lastFrames l) (hremote : s.remoteFrames = lastFrames r) :
    (s.next call).localFrames = lastFrames (l ++ localOf call) ∧
      (s.next call).remoteFrames = lastFrames (r ++ remoteOf call) := by
  cases call with
  | transition event =>
    obtain ⟨state, hnext⟩ := transition_of_continues h
    show (s.transition event).1.localFrames = lastFrames (l ++ []) ∧
      (s.transition event).1.remoteFrames = lastFrames (r ++ [])
    rw [hnext, List.append_nil, List.append_nil]
    exact ⟨hlocal, hremote⟩
  | recordLocalFrame frame =>
    simp only [localOf, remoteOf, List.append_nil, ← recordFrame_lastFrames, ← hlocal]
    exact ⟨rfl, hremote⟩
  | recordRemoteFrame frame =>
    simp only [localOf, remoteOf, List.append_nil, ← recordFrame_lastFrames, ← hremote]
    exact ⟨hlocal, rfl⟩
  | validateAndRecordSequence direction seq =>
    simp only [localOf, remoteOf, List.append_nil, next, step, validateAndRecordSequence]
    split <;> exact ⟨hlocal, hremote⟩
  | _ =>
    simp only [localOf, remoteOf, List.append_nil]
    exact ⟨hlocal, hremote⟩

theorem frames_run {l r : List Frame} (hrun : Machine.Along next Continues s calls)
    (hlocal : s.localFrames = lastFrames l) (hremote : s.remoteFrames = lastFrames r) :
    (s.run calls).localFrames = lastFrames (l ++ calls.flatMap localOf) ∧
      (s.run calls).remoteFrames = lastFrames (r ++ calls.flatMap remoteOf) := by
  induction calls generalizing s l r with
  | nil =>
    rw [List.flatMap_nil, List.flatMap_nil, List.append_nil, List.append_nil]
    exact ⟨hlocal, hremote⟩
  | cons call calls ih =>
    obtain ⟨hlocal', hremote'⟩ := frames_next hrun.1 hlocal hremote
    rw [List.flatMap_cons, List.flatMap_cons, ← List.append_assoc, ← List.append_assoc]
    exact ih hrun.2 hlocal' hremote'

/-- A reset makes a session that has ended into a new one exactly if it had no identifier and no
number in a direction other than 0 and 1. From a new session or a reset on, until the next reset,
accepted numbers are strictly increasing and the frames are the last 64 that were recorded. -/
theorem session_reset_iff (s : P2PSession) :
    (s.CanReset → ((∀ later, (s.transition "reset").1.observe later = observe {} later) ↔
      s.Forgettable)) ∧
    ∀ start calls, start = {} ∨ s.CanReset ∧ start = (s.transition "reset").1 →
      Machine.Along next Continues start calls →
        (∀ direction, (accepted direction start calls).Pairwise (· < ·)) ∧
          (start.run calls).localFrames = lastFrames (calls.flatMap localOf) ∧
          (start.run calls).remoteFrames = lastFrames (calls.flatMap remoteOf) := by
  refine ⟨observe_reset_iff, fun start calls hstart hrun => ?_⟩
  have hempty : start.localFrames = lastFrames [] ∧ start.remoteFrames = lastFrames [] := by
    rcases hstart with rfl | ⟨hreset, rfl⟩
    · exact ⟨rfl, rfl⟩
    · rw [transition_reset hreset]
      exact ⟨rfl, rfl⟩
  have hframes := frames_run hrun hempty.1 hempty.2
  rw [List.nil_append, List.nil_append] at hframes
  exact ⟨fun direction => (accepted_spec hrun direction).2, hframes⟩

/-- After a reset a bundle still has the identifier of the session before. -/
theorem session_reset_keeps_id :
    let s := run {} [.setSessionId (some [1]), .transition "start_handshake", .transition "abort"]
    s.CanReset ∧ (s.transition "reset").1.observe [.buildForensicBundle [] [] "" ""] ≠
      observe {} [.buildForensicBundle [] [] "" ""] := by
  decide +kernel

end P2PSession

end ChessRecast.P2P

import ChessRecast.Lib.Ascii
import ChessRecast.P2P.Rekey

/-!
# Tournament pairings (`tournament_session.dart`)

The players are shuffled with the bytes of a digest, which are used again from the start for more
than 33 players, and paired as they then stand. Whatever the bytes are, the shuffle only swaps.
-/

namespace ChessRecast.P2P

structure TournamentPairing where
  accountA : String
  accountB : String
  round : ℤ
  boardNumber : ℕ
deriving DecidableEq, Repr

/-- `TournamentSession`, with the hash of its `bracketCommitment`. -/
structure TournamentSession where
  hash : List UInt8
  round : ℤ

/-- The loop of `_deterministicShuffle` from the index `i` down; `s` counts the bytes taken. -/
def shuffleFrom (seed : List UInt8) (hseed : 0 < seed.length) :
    (i s : ℕ) → (list : Array String) → i ≤ list.size - 1 → Array String
  | 0, _, list, _ => list
  | i + 1, s, list, hi =>
    have hs := Nat.mod_lt s hseed
    let j := seed[s % seed.length].toNat % (i + 1 + 1)
    have hj : j < i + 1 + 1 := Nat.mod_lt _ (Nat.succ_pos _)
    shuffleFrom seed hseed i (s + 1) (list.swap (i + 1) j (by omega) (by omega))
      (by rw [Array.size_swap]; omega)

def deterministicShuffle (list : List String) (seed : List UInt8) (hseed : 0 < seed.length) :
    List String :=
  (shuffleFrom seed hseed (list.length - 1) 0 list.toArray (by simp)).toList

/-- The pairing loop, with the number of pairings made so far. -/
def pairUp (round : ℤ) : ℕ → List String → List TournamentPairing
  | made, a :: b :: rest => ⟨a, b, round, made + 1⟩ :: pairUp round (made + 1) rest
  | _, _ => []

/-- The seed of `pairingsForRound`. -/
def TournamentSession.seed (sha256 : Sha256) (t : TournamentSession) : List UInt8 :=
  sha256.convert (t.hash ++ Ascii.ofChars ":round".toList ++ Ascii.intText t.round)

theorem TournamentSession.seed_pos (sha256 : Sha256) (t : TournamentSession) :
    0 < (t.seed sha256).length := by
  rw [seed, sha256.length_convert]
  norm_num

def TournamentSession.pairingsForRound (sha256 : Sha256) (t : TournamentSession)
    (players : List String) : List TournamentPairing :=
  pairUp t.round 0 (deterministicShuffle players (t.seed sha256) (t.seed_pos sha256))

/-! ## The shuffle -/

theorem shuffleFrom_perm (seed : List UInt8) (hseed : 0 < seed.length) (i : ℕ) :
    ∀ s list hi, (shuffleFrom seed hseed i s list hi).toList.Perm list.toList := by
  induction i with
  | zero => exact fun s list _ => List.Perm.refl _
  | succ i ih =>
    intro s list hi
    unfold shuffleFrom
    apply (ih _ _ _).trans
    exact (Array.swap_perm _ _).toList

theorem deterministicShuffle_perm (players : List String) (seed : List UInt8)
    (hseed : 0 < seed.length) : (deterministicShuffle players seed hseed).Perm players :=
  shuffleFrom_perm seed hseed _ 0 players.toArray _

/-! ## The pairings -/

def paired (pairings : List TournamentPairing) : List String :=
  pairings.flatMap fun p => [p.accountA, p.accountB]

theorem pairUp_rest (round : ℤ) (made : ℕ) (list : List String) :
    ∃ rest, list = paired (pairUp round made list) ++ rest ∧ rest.length = list.length % 2 := by
  fun_induction pairUp round made list with
  | case1 made a b rest ih =>
    obtain ⟨left, hrest, hlength⟩ := ih
    refine ⟨left, ?_, ?_⟩
    · rw [paired, List.flatMap_cons, List.append_assoc]
      exact congrArg (a :: b :: ·) hrest
    · rw [hlength, List.length_cons, List.length_cons]
      omega
  | case2 list made hshort =>
    refine ⟨list, rfl, ?_⟩
    cases list with
    | nil => rfl
    | cons a list =>
      cases list with
      | nil => rfl
      | cons b rest => exact absurd rfl (hshort a b rest)

theorem boardNumber_pairUp (round : ℤ) (made : ℕ) (list : List String) :
    (pairUp round made list).map TournamentPairing.boardNumber =
      List.range' (made + 1) (pairUp round made list).length := by
  fun_induction pairUp round made list with
  | case1 made a b rest ih => rw [List.map_cons, ih, List.length_cons, List.range'_succ]
  | case2 => rfl

/-- Each player is paired at most once and with someone else, one is left over if their number is
odd and none otherwise, and the boards are numbered from one. -/
theorem pairings_fair (sha256 : Sha256) (t : TournamentSession) (players : List String)
    (hdistinct : players.Nodup) :
    let pairings := t.pairingsForRound sha256 players
    (paired pairings).Nodup ∧ (∀ a ∈ paired pairings, a ∈ players) ∧
      (∀ p ∈ pairings, p.accountA ≠ p.accountB) ∧
      (players.filter fun a => a ∉ paired pairings).length = players.length % 2 ∧
      pairings.map TournamentPairing.boardNumber = List.range' 1 pairings.length := by
  have hperm := deterministicShuffle_perm players (t.seed sha256) (t.seed_pos sha256)
  obtain ⟨rest, hsplit, hlength⟩ :=
    pairUp_rest t.round 0 (deterministicShuffle players (t.seed sha256) (t.seed_pos sha256))
  have hnodup := hperm.nodup_iff.mpr hdistinct
  intro pairings
  change _ = paired pairings ++ rest at hsplit
  rw [hperm.length_eq] at hlength
  rw [hsplit] at hnodup hperm
  obtain ⟨hpaired, -, hdisjoint⟩ := List.nodup_append.mp hnodup
  refine ⟨hpaired, fun a ha => hperm.subset (List.mem_append_left rest ha), ?_, ?_, ?_⟩
  · intro p hp heq
    -- the two players of a pairing stand next to each other
    obtain ⟨before, after, hbefore⟩ := List.append_of_mem hp
    rw [hbefore, paired, List.flatMap_append, List.flatMap_cons, heq] at hpaired
    simp [List.nodup_append] at hpaired
  · rw [← (hperm.filter _).length_eq, List.filter_append, List.filter_eq_nil_iff.mpr (by simp),
      List.nil_append, List.filter_eq_self.mpr, hlength]
    intro a ha
    rw [decide_eq_true_iff]
    exact fun hmem => hdisjoint a hmem a ha rfl
  · exact boardNumber_pairUp t.round 0 _

/-- Three players: one of them has no opponent. -/
theorem pairings_fair_three :
    let players := ["ann", "bo", "cy"]
    players.Nodup ∧ (players.filter fun a =>
      a ∉ paired (TournamentSession.pairingsForRound .sample ⟨[1, 2], 1⟩ players)).length = 1 :=
  ⟨by decide, (pairings_fair .sample ⟨[1, 2], 1⟩ ["ann", "bo", "cy"] (by decide)).2.2.2.1⟩

end ChessRecast.P2P

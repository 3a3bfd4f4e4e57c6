import Plasma.Contract.Run

/-!
# Signatures behind an exit

`startExit` compares, for each input of the transaction, the signer of the
transaction with the signer of the confirmation.  The second comparison
depends on the product of the two block numbers, and a malformed signature has
the zero address as its signer.
-/

namespace Plasma.Contract

open Plasma.Core Plasma.Lib

/-- The block number of one of the two inputs. -/
def PlasmaRLP.inputNumber (txBytes rest : Bytes) (slot : Nat) : Option Word :=
  (fields txBytes rest).bind fun numbers => numbers[3 * slot]?

section

variable (c : Crypto) (txHash root : Hash) (sigs : Bytes) (slot : Nat)

def txSig : Option Bytes := ByteUtils.slice sigs (65 * slot) 65

def confSig : Option Bytes := ByteUtils.slice sigs (130 + 65 * slot) 65

/-- Transaction and confirmation were signed by one address, or both
signatures are malformed. -/
def PairAgrees : Prop :=
  ∃ sig ∈ txSig sigs slot, ∃ confirmation ∈ confSig sigs slot,
    ECRecovery.recover c txHash sig =
      ECRecovery.recover c
        (c.keccak256 (wordBytes txHash ++ wordBytes root)) confirmation

def HasSigner : Prop :=
  ∃ sig ∈ txSig sigs slot, ECRecovery.recover c txHash sig ≠ 0

/-- Every input with a block number is signed and confirmed by the same
non-zero address. -/
def Backed (txBytes rest : Bytes) : Prop :=
  ∀ slot < 2, ∀ number ∈ PlasmaRLP.inputNumber txBytes rest slot,
    number ≠ 0 → PairAgrees c txHash root sigs slot ∧
      HasSigner c txHash sigs slot

/-- The signatures of inputs with a block number are well formed, and when the
product of the two numbers hides the second input its pair agrees. -/
def Covered (txBytes rest : Bytes) : Prop :=
  ∀ first ∈ PlasmaRLP.inputNumber txBytes rest 0,
    ∀ second ∈ PlasmaRLP.inputNumber txBytes rest 1,
      (first ≠ 0 → HasSigner c txHash sigs 0) ∧
        (second ≠ 0 → HasSigner c txHash sigs 1 ∧
          (first * second = 0 → PairAgrees c txHash root sigs 1))

end

theorem PlasmaRLP.inputCount_eq {txBytes rest : Bytes} {oindex : Word}
    {exitingTx : ExitingTx}
    (created : createExitingTx txBytes rest oindex = some exitingTx) :
    ∃ first second, inputNumber txBytes rest 0 = some first ∧
      inputNumber txBytes rest 1 = some second ∧
      exitingTx.inputCount = first * second := by
  simp only [createExitingTx, Option.bind_eq_bind, Option.bind_eq_some_iff,
    Option.pure_def, Option.some.injEq] at created
  obtain ⟨txList, parsed, _, _, _, _, _, _, _, _, _, _, first, atFirst, second,
    atSecond, rfl⟩ := created
  refine ⟨_, _, ?_, ?_, rfl⟩
  · simp [inputNumber, fields, parsed, atFirst]
  · simp [inputNumber, fields, parsed, atSecond]

/-- What a passed check says about the two pairs. -/
theorem Validate.pairAgrees_of_checkSigs {c : Crypto} {txHash root : Hash}
    {product : Word} {sigs : Bytes}
    (checked : checkSigs c txHash root product sigs = some true) :
    PairAgrees c txHash root sigs 0 ∧
      (product ≠ 0 → PairAgrees c txHash root sigs 1) := by
  simp only [checkSigs, Option.bind_eq_bind, Option.bind_eq_some_iff]
    at checked
  obtain ⟨_, _, sig1, atSig1, sig2, atSig2, confSig1, atConf1, checked⟩ :=
    checked
  have first : ∀ others : Bool,
      (ECRecovery.recover c txHash sig1 == ECRecovery.recover c
        (c.keccak256 (wordBytes txHash ++ wordBytes root)) confSig1 &&
          others) = true → PairAgrees c txHash root sigs 0 := by
    intro others both
    rw [Bool.and_eq_true] at both
    exact ⟨sig1, atSig1, confSig1, atConf1, eq_of_beq both.1⟩
  split at checked
  · next positive =>
      simp only [Option.bind_eq_some_iff, Option.pure_def, Option.some.injEq]
        at checked
      obtain ⟨confSig2, atConf2, both⟩ := checked
      refine ⟨first _ both, ?_⟩
      intro _
      rw [Bool.and_eq_true] at both
      exact ⟨sig2, atSig2, confSig2, atConf2, eq_of_beq both.2⟩
  · next zero =>
      simp only [Option.pure_def, Option.some.injEq] at checked
      refine ⟨first true (by rw [checked]; rfl), ?_⟩
      intro nonzero
      refine (zero ?_).elim
      rw [BitVec.lt_def]
      exact Nat.pos_of_ne_zero fun same => nonzero (BitVec.eq_of_toNat_eq same)

/-!
## A transaction nobody signed

Its first input is null, its second input is the output of deposit block 1,
and all its signatures are zero bytes.  The tables hold the digests of a child
block that contains it.
-/

namespace Sample

def unsignedBytes : Bytes :=
  Rlp.encodeList ([[], [], [], [1], [], [], addressBytes 0, addressBytes bob,
    [5], addressBytes 0, []].map Rlp.encodeString)

def unsignedHash : Hash :=
  0x2f9b36c7ed4ff81134cb76c07b8af96b74b9a1b54a8b5462a378dffc556ae594

def unsignedPath : List Hash :=
  [0xf3d3d771d5d384c791c892dc512d10386c738fef954266b4eeedc028b9b17512,
    0x5ea965b0c46735bd003eba2dc327516e3ff85cbac2c153e9b82d5917679d477a,
    0xdc43743b203fafe25d3030be50c20071a8520488903dff343c1737de135f66b7,
    0xb115e614d2225a2c665ff65822475178d6e8f60470875d8998d6f6fd506ce2e6,
    0x4942f6201fccd6d3a7c1c20de7d295dd2b5393508ab1dead2186eab5b568c0ab,
    0x89fa35959f48a2b2a9db0fefbcaba258d603caf26db08bc00cf040d39080d2e5,
    0xdfe9ffc55186552586de872bc9b0329846a5d0daf0ffa1402349688c7c6b68d3,
    0xc460eef2ce1b6013dc18f49594978d4444e1614390be1c08fddcf351ec514437,
    0x8899d5095e3a1fa5000f1cff3272095511ec4750884ccfacacf1952b73f77816,
    0xeec7cbf8874c89532d914feb5852d1ceddf5678ef3d9216a3b1e8341021ee3ee,
    0x62e27b577dec1af757d3da7d5595af21ac0e690b3730e605b44611a61f53db62,
    0xcc0a9412bb0ac221130075891b6c0bb01720c13dae2898b443a4820f63876b4d,
    0x9f288e094c6900b51de7b2e807b01754d39851cc346fc0924252f002c94562f7,
    0x83ebb1f027020ebe11666ae08a753170b2a3ba5e2b490980757a4f19e086af81,
    0xdb61299383b7ec43b7d7c91fb82b5e2c5769bb4d88dbd94b8ec8a3ad8c079235,
    0xf0c9439e2a2cabab4a124365edd72979fc029be2225eede761db6aec14be2c60,
    0xd985e8ddedbf5adff4dd746afbcc6714c0324fab364651da1dd22dd925892564]

def unsignedRoot : Hash := unsignedPath.getLastD 0

def unsignedDigests : List (Bytes × Hash) :=
  [(unsignedBytes, unsignedHash),
    (wordBytes unsignedHash ++ List.replicate 130 0, unsignedPath.headD 0),
    (wordBytes unsignedHash ++ wordBytes unsignedRoot,
      0xf304aa0c5dbe9fc04d0e9fb18f16468fbd5a4c8e241ded28e9fae11649de5022)] ++
  (unsignedPath.zip unsignedPath.tail).map fun link =>
    (wordBytes link.1 ++ wordBytes 0, link.2)

/-- The precompile rejects a signature of zeros. -/
def unsignedCrypto : Crypto :=
  { keccak256 := fun input =>
      ((unsignedDigests.find? fun entry => entry.1 = input).map
        Prod.snd).getD 0
    ecrecover := fun _ _ _ _ => 0 }

/-- The contract after the block was submitted. -/
def unsignedChain : RootChain :=
  (execute (RootChain.step unsignedCrypto) (RootChain.new alice)
    [message alice 10 (.submitBlock unsignedRoot)]).1

/-- The contract after the block with the signed transaction was
submitted. -/
def signedChain : RootChain :=
  (execute (RootChain.step crypto) (RootChain.new alice)
    [depositMessage alice 5, submitMessage]).1

end Sample

namespace RootChain

/-- When a successful exit is backed by the signatures of all its inputs. -/
theorem exit_backed_iff {c : Crypto} {s next : RootChain} {sender : Address}
    {now utxoPos : Word} {txBytes proof sigs rest : Bytes}
    {effects : List Effect}
    (performed : startExit c s sender now utxoPos txBytes proof sigs rest =
      some (next, effects)) :
    Backed c (c.keccak256 txBytes)
        (s.childChain (utxoPos / 1000000000)).root sigs txBytes rest ↔
      Covered c (c.keccak256 txBytes)
        (s.childChain (utxoPos / 1000000000)).root sigs txBytes rest := by
  simp only [startExit, Option.bind_eq_bind, Option.bind_eq_some_iff,
    require_eq_some] at performed
  obtain ⟨exitingTx, created, _, _, _, _, signed, checked, _, passed, _⟩ :=
    performed
  subst passed
  obtain ⟨first, second, atFirst, atSecond, product⟩ :=
    PlasmaRLP.inputCount_eq created
  rw [product] at checked
  obtain ⟨firstAgrees, secondAgrees⟩ :=
    Validate.pairAgrees_of_checkSigs checked
  constructor
  · intro backed first' firstRead second' secondRead
    refine ⟨?_, ?_⟩
    · intro nonzero
      exact (backed 0 (by omega) first' firstRead nonzero).2
    · intro nonzero
      obtain ⟨agrees, signer⟩ :=
        backed 1 (by omega) second' secondRead nonzero
      exact ⟨signer, fun _ => agrees⟩
  · intro covered slot small number read nonzero
    obtain ⟨onFirst, onSecond⟩ := covered first atFirst second atSecond
    have slots : slot = 0 ∨ slot = 1 := by omega
    rcases slots with rfl | rfl
    · rw [atFirst] at read
      cases read
      exact ⟨firstAgrees, onFirst nonzero⟩
    · rw [atSecond] at read
      cases read
      obtain ⟨signer, hidden⟩ := onSecond nonzero
      refine ⟨?_, signer⟩
      by_cases zero : first * second = 0
      · exact hidden zero
      · exact secondAgrees zero

theorem signed_exit_is_backed :
    ∃ next effects, startExit Sample.crypto Sample.signedChain Sample.bob
        (Sample.start + 25) 1000000000000 Sample.spendBytes Sample.proof
        (Sample.spendSigs ++ Sample.confirmationSig) [] =
        some (next, effects) ∧
      Backed Sample.crypto (Sample.crypto.keccak256 Sample.spendBytes)
        (Sample.signedChain.childChain (1000000000000 / 1000000000)).root
        (Sample.spendSigs ++ Sample.confirmationSig) Sample.spendBytes [] := by
  have succeeds : (startExit Sample.crypto Sample.signedChain Sample.bob
      (Sample.start + 25) 1000000000000 Sample.spendBytes Sample.proof
      (Sample.spendSigs ++ Sample.confirmationSig) []).isSome = true := by
    decide +kernel
  obtain ⟨⟨next, effects⟩, performed⟩ := Option.isSome_iff_exists.mp succeeds
  refine ⟨next, effects, performed, (exit_backed_iff performed).mpr ?_⟩
  have firstInput : PlasmaRLP.inputNumber Sample.spendBytes [] 0 = some 1 := by
    decide +kernel
  have secondInput : PlasmaRLP.inputNumber Sample.spendBytes [] 1 =
      some 0 := by
    decide +kernel
  intro first firstRead second secondRead
  rw [firstInput] at firstRead
  rw [secondInput] at secondRead
  cases firstRead
  cases secondRead
  refine ⟨fun _ => ?_, fun nonzero => (nonzero rfl).elim⟩
  refine ⟨Sample.spendSigs.take 65, ?_, ?_⟩
  · decide +kernel
  · decide +kernel

/-- The exit of an output of a transaction without any signature succeeds. -/
theorem unsigned_exit_succeeds :
    (startExit Sample.unsignedCrypto Sample.unsignedChain Sample.bob
        (Sample.start + 25) 1000000000000 Sample.unsignedBytes Sample.proof
        (List.replicate 195 0) []).isSome = true ∧
      PlasmaRLP.inputNumber Sample.unsignedBytes [] 1 = some 1 ∧
      ¬ Backed Sample.unsignedCrypto
        (Sample.unsignedCrypto.keccak256 Sample.unsignedBytes)
        (Sample.unsignedChain.childChain (1000000000000 / 1000000000)).root
        (List.replicate 195 0) Sample.unsignedBytes [] := by
  have secondInput : PlasmaRLP.inputNumber Sample.unsignedBytes [] 1 =
      some 1 := by
    decide +kernel
  refine ⟨by decide +kernel, secondInput, ?_⟩
  have missing : confSig (List.replicate 195 0) 1 = none := by decide +kernel
  intro backed
  obtain ⟨⟨_, _, confirmation, read, _⟩, _⟩ :=
    backed 1 (by decide) 1 secondInput (by decide)
  rw [missing] at read
  cases read

end RootChain

end Plasma.Contract

import Plasma.Core.Types
import Plasma.Lib.Bytes

/-!
# Words, bytes and the libraries of the contract

The `RootChain` contract computes with 256-bit words and byte strings.
A call that fails a `require` is reverted, which is `none` here.  The Keccak
digest and the curve precompile of the virtual machine are parameters.  The
libraries `SafeMath`, `Math`, `ByteUtils`, `ECRecovery`, `Merkle` and
`Validate` follow.
-/

namespace Plasma.Contract

open Plasma.Core Plasma.Lib

abbrev Word := BitVec 256

abbrev Bytes := List UInt8

instance : LinearOrder Word where
  le_refl _ := Nat.le_refl _
  le_trans _ _ _ := Nat.le_trans
  le_antisymm _ _ below above := BitVec.eq_of_toNat_eq (below.antisymm above)
  le_total left right := Nat.le_total left.toNat right.toNat
  lt_iff_le_not_ge _ _ := Nat.lt_iff_le_and_not_ge
  toDecidableLE := inferInstance
  toDecidableLT := inferInstance

/-- The digest and the curve precompile of the virtual machine; a failed
recovery gives the zero address. -/
structure Crypto where
  keccak256 : Bytes → Hash
  ecrecover : Hash → UInt8 → Hash → Hash → Address

def wordBytes (word : Word) : Bytes := bigEndian 32 word.toNat

def addressBytes (address : Address) : Bytes := bigEndian 20 address.toNat

theorem length_wordBytes (word : Word) : (wordBytes word).length = 32 :=
  length_bigEndian _ _

theorem length_addressBytes (address : Address) :
    (addressBytes address).length = 20 :=
  length_bigEndian _ _

def weeks (n : Word) : Word := n * 604800

def require (condition : Prop) [Decidable condition] : Option Unit :=
  if condition then some () else none

theorem require_eq_some {condition : Prop} [Decidable condition]
    {result : Unit} : require condition = some result ↔ condition := by
  simp [require]

namespace SafeMath

def sub (a b : Word) : Option Word :=
  if b ≤ a then some (a - b) else none

def add (a b : Word) : Option Word :=
  if a ≤ a + b then some (a + b) else none

theorem add_eq_some {a b sum : Word} :
    add a b = some sum ↔
      a.toNat + b.toNat < 2 ^ 256 ∧ sum = a + b := by
  have wraps : a ≤ a + b ↔ a.toNat + b.toNat < 2 ^ 256 := by
    rw [BitVec.le_def, BitVec.toNat_add]
    omega
  rw [add]
  split
  · next fits =>
      constructor
      · intro result
        exact ⟨wraps.mp fits, (Option.some.inj result).symm⟩
      · intro result
        rw [result.2]
  · next overflows =>
      constructor
      · intro result
        cases result
      · intro result
        exact (overflows (wraps.mpr result.1)).elim

theorem sub_eq_some {a b difference : Word} :
    sub a b = some difference ↔
      b.toNat ≤ a.toNat ∧ difference = a - b := by
  rw [sub]
  split
  · next fits =>
      constructor
      · intro result
        exact ⟨fits, (Option.some.inj result).symm⟩
      · intro result
        rw [result.2]
  · next negative =>
      constructor
      · intro result
        cases result
      · intro result
        exact (negative result.1).elim

end SafeMath

/-- `Math.max`. -/
def max (a b : Word) : Word := if b ≤ a then a else b

namespace ByteUtils

def slice (bytes : Bytes) (start length : Nat) : Option Bytes :=
  if start + length ≤ bytes.length then
    some ((bytes.drop start).take length)
  else none

end ByteUtils

section

variable (c : Crypto)

namespace ECRecovery

/-- A signature of another length or version recovers the zero address. -/
def recover (hash : Hash) (sig : Bytes) : Address :=
  if sig.length ≠ 65 then 0
  else
    let r := BitVec.ofNat 256 (fromBigEndian (sig.take 32))
    let s := BitVec.ofNat 256 (fromBigEndian ((sig.drop 32).take 32))
    let v := sig.getD 64 0
    let v := if v < 27 then v + 27 else v
    if v ≠ 27 ∧ v ≠ 28 then 0 else c.ecrecover hash v r s

end ECRecovery

namespace Merkle

/-- The 32-byte pieces of a proof. -/
def proofElements : Nat → Bytes → List Hash
  | 0, _ => []
  | count + 1, proof =>
      BitVec.ofNat 256 (fromBigEndian (proof.take 32)) ::
        proofElements count (proof.drop 32)

/-- The input of one level: the index says on which side the element goes. -/
def nodeInput (index : Word) (computedHash proofElement : Hash) : Bytes :=
  if index % 2 = 0 then wordBytes computedHash ++ wordBytes proofElement
  else wordBytes proofElement ++ wordBytes computedHash

def climb : List Hash → Word → Hash → Hash
  | [], _, computedHash => computedHash
  | proofElement :: rest, index, computedHash =>
      climb rest (index / 2)
        (c.keccak256 (nodeInput index computedHash proofElement))

/-- The inputs hashed on the way up. -/
def climbInputs : List Hash → Word → Hash → List Bytes
  | [], _, _ => []
  | proofElement :: rest, index, computedHash =>
      nodeInput index computedHash proofElement ::
        climbInputs rest (index / 2)
          (c.keccak256 (nodeInput index computedHash proofElement))

def checkMembership (leaf : Hash) (index : Word) (rootHash : Hash)
    (proof : Bytes) : Option Bool :=
  if proof.length = 512 then
    some (climb c (proofElements 16 proof) index leaf == rootHash)
  else none

theorem length_nodeInput (index : Word) (computedHash proofElement : Hash) :
    (nodeInput index computedHash proofElement).length = 64 := by
  rw [nodeInput]
  split <;> simp [length_wordBytes]

/-- The root a proof of at least one level computes is the digest of the last
input. -/
theorem climb_mem (elements : List Hash) (index : Word) (leaf : Hash)
    (proper : elements ≠ []) :
    ∃ input ∈ climbInputs c elements index leaf,
      input.length = 64 ∧ c.keccak256 input = climb c elements index leaf := by
  induction elements generalizing index leaf with
  | nil => exact (proper rfl).elim
  | cons element rest induction =>
      cases rest with
      | nil =>
          exact ⟨_, List.mem_cons_self, length_nodeInput _ _ _, rfl⟩
      | cons next rest =>
          obtain ⟨input, member, size, digest⟩ :=
            induction (index / 2)
              (c.keccak256 (nodeInput index leaf element)) (by simp)
          exact ⟨input, List.mem_cons_of_mem _ member, size, digest⟩

end Merkle

namespace Validate

/-- The second confirmation signature is looked at when the product of the
two block numbers is not zero. -/
def checkSigs (txHash rootHash : Hash) (blknum2 : Word) (sigs : Bytes) :
    Option Bool := do
  require (sigs.length % 65 = 0 ∧ sigs.length ≤ 260)
  let sig1 ← ByteUtils.slice sigs 0 65
  let sig2 ← ByteUtils.slice sigs 65 65
  let confSig1 ← ByteUtils.slice sigs 130 65
  let confirmationHash :=
    c.keccak256 (wordBytes txHash ++ wordBytes rootHash)
  let check1 := ECRecovery.recover c txHash sig1 ==
    ECRecovery.recover c confirmationHash confSig1
  if 0 < blknum2 then
    let confSig2 ← ByteUtils.slice sigs 195 65
    let check2 := ECRecovery.recover c txHash sig2 ==
      ECRecovery.recover c confirmationHash confSig2
    return check1 && check2
  else return check1

end Validate

end

end Plasma.Contract

import Plasma.Contract.PriorityQueue
import Plasma.Contract.Rlp
import Plasma.Lib.Trace

/-!
# The root chain contract

The storage of `RootChain` and its public functions.  A call returns the new
storage and a list of effects: the byte strings it hashed and the changes it
made.  A reverted call returns nothing and changes nothing.  The gas of a call
is not counted; whether a payee accepts a transfer is an input of the call.
-/

namespace Plasma.Contract

open Plasma.Core Plasma.Lib

structure Exit where
  owner : Address
  token : Address
  amount : Word
deriving DecidableEq, Repr

structure ChildBlock where
  root : Hash
  timestamp : Word
deriving DecidableEq, Repr

/-- The constructor creates the queue of the zero token and no function adds
another, so `exitsQueues` is this one queue. -/
structure RootChain where
  operator : Address
  currentChildBlock : Word
  currentDepositBlock : Word
  currentFeeExit : Word
  childChain : Word → ChildBlock
  exits : Word → Exit
  queue : PriorityQueue
  balance : Nat

inductive Call where
  | submitBlock (root : Hash)
  | deposit
  | startDepositExit (depositPos : Word) (token : Address) (amount : Word)
  | startFeeExit (token : Address) (amount : Word)
  | startExit (utxoPos : Word) (txBytes proof sigs rest : Bytes)
  | challengeExit (cUtxoPos eUtxoIndex : Word)
      (txBytes proof sigs confirmationSig rest : Bytes)
  | finalizeExits (token : Address) (accepts : Address → Bool)

structure Message where
  sender : Address
  value : Word
  timestamp : Word
  call : Call

inductive ExitKind where
  | deposit
  | utxo
  | fee
deriving DecidableEq, Repr

inductive Effect where
  | hashed (input : Bytes)
  | registered (blknum : Word) (root : Hash) (timestamp : Word)
  | exitStarted (kind : ExitKind) (utxoPos timestamp exitableAt : Word)
  | challenged (utxoPos : Word) (owner : Address)
  | removed (utxoPos : Word) (payee : Address) (amount timestamp : Word)
deriving DecidableEq, Repr

def childBlockInterval : Word := 1000

/-- What the digest of a deposit covers. -/
def depositInput (sender token : Address) (amount : Word) : Bytes :=
  addressBytes sender ++ addressBytes token ++ wordBytes amount

namespace RootChain

def new (sender : Address) : RootChain :=
  { operator := sender
    currentChildBlock := childBlockInterval
    currentDepositBlock := 1
    currentFeeExit := 1
    childChain := fun _ => ⟨0, 0⟩
    exits := fun _ => ⟨0, 0, 0⟩
    queue := PriorityQueue.new
    balance := 0 }

def hasQueue (token : Address) : Bool := token == 0

def getDepositBlock (s : RootChain) : Option Word := do
  let previous ← SafeMath.sub s.currentChildBlock childBlockInterval
  SafeMath.add previous s.currentDepositBlock

def submitBlock (s : RootChain) (sender : Address) (now : Word)
    (root : Hash) : Option (RootChain × List Effect) := do
  require (sender = s.operator)
  let next ← SafeMath.add s.currentChildBlock childBlockInterval
  return ({ s with
      childChain := Function.update s.childChain s.currentChildBlock ⟨root, now⟩
      currentChildBlock := next
      currentDepositBlock := 1 },
    [.registered s.currentChildBlock root now])

def exitableAt (createdAt now : Word) : Word :=
  max (createdAt + weeks 2) (now + weeks 1)

def addExitToQueue (s : RootChain) (now utxoPos : Word)
    (exitor token : Address) (amount createdAt : Word) : Option RootChain := do
  require (hasQueue token)
  require (0 < amount)
  require ((s.exits utxoPos).amount = 0)
  return { s with
    queue := s.queue.insert (exitableAt createdAt now) utxoPos
    exits := Function.update s.exits utxoPos ⟨exitor, token, amount⟩ }

def startFeeExit (s : RootChain) (sender : Address) (now : Word)
    (token : Address) (amount : Word) : Option (RootChain × List Effect) := do
  require (sender = s.operator)
  let next ← addExitToQueue s now s.currentFeeExit sender token amount (now + 1)
  let currentFeeExit ← SafeMath.add s.currentFeeExit 1
  return ({ next with currentFeeExit := currentFeeExit },
    [.exitStarted .fee s.currentFeeExit now (exitableAt (now + 1) now)])

section

variable (c : Crypto)

def deposit (s : RootChain) (sender : Address) (value now : Word) :
    Option (RootChain × List Effect) := do
  require (s.currentDepositBlock < childBlockInterval)
  let root := c.keccak256 (depositInput sender 0 value)
  let depositBlock ← s.getDepositBlock
  let currentDepositBlock ← SafeMath.add s.currentDepositBlock 1
  return ({ s with
      childChain := Function.update s.childChain depositBlock ⟨root, now⟩
      currentDepositBlock := currentDepositBlock
      balance := s.balance + value.toNat },
    [.hashed (depositInput sender 0 value), .registered depositBlock root now])

def startDepositExit (s : RootChain) (sender : Address)
    (now depositPos : Word) (token : Address) (amount : Word) :
    Option (RootChain × List Effect) := do
  let blknum := depositPos / 1000000000
  require (blknum % childBlockInterval ≠ 0)
  let root := (s.childChain blknum).root
  let depositHash := c.keccak256 (depositInput sender token amount)
  require (root = depositHash)
  let createdAt := (s.childChain blknum).timestamp
  let next ← addExitToQueue s now depositPos sender token amount createdAt
  return (next, [.hashed (depositInput sender token amount),
    .exitStarted .deposit depositPos now (exitableAt createdAt now)])

def startExit (s : RootChain) (sender : Address) (now utxoPos : Word)
    (txBytes proof sigs rest : Bytes) : Option (RootChain × List Effect) := do
  let blknum := utxoPos / 1000000000
  let txindex := utxoPos % 1000000000 / 10000
  let oindex := utxoPos - blknum * 1000000000 - txindex * 10000
  let exitingTx ← PlasmaRLP.createExitingTx txBytes rest oindex
  require (sender = exitingTx.exitor)
  let root := (s.childChain blknum).root
  let txHash := c.keccak256 txBytes
  let txSigs ← ByteUtils.slice sigs 0 130
  let merkleHash := c.keccak256 (wordBytes txHash ++ txSigs)
  let signed ← Validate.checkSigs c txHash root exitingTx.inputCount sigs
  require signed
  let included ← Merkle.checkMembership c merkleHash txindex root proof
  require included
  let createdAt := (s.childChain blknum).timestamp
  let next ← addExitToQueue s now utxoPos exitingTx.exitor exitingTx.token
    exitingTx.amount createdAt
  let inputs := [txBytes, wordBytes txHash ++ txSigs,
      wordBytes txHash ++ wordBytes root] ++
    Merkle.climbInputs c (Merkle.proofElements 16 proof) txindex merkleHash
  return (next, inputs.map .hashed ++
    [.exitStarted .utxo utxoPos now (exitableAt createdAt now)])

def challengeExit (s : RootChain) (cUtxoPos eUtxoIndex : Word)
    (txBytes proof sigs confirmationSig rest : Bytes) :
    Option (RootChain × List Effect) := do
  let eUtxoPos ← PlasmaRLP.getUtxoPos txBytes rest eUtxoIndex
  let txindex := cUtxoPos % 1000000000 / 10000
  let root := (s.childChain (cUtxoPos / 1000000000)).root
  let txHash := c.keccak256 txBytes
  let confirmationHash := c.keccak256 (wordBytes txHash ++ wordBytes root)
  let merkleHash := c.keccak256 (wordBytes txHash ++ sigs)
  let owner := (s.exits eUtxoPos).owner
  require (owner = ECRecovery.recover c confirmationHash confirmationSig)
  let included ← Merkle.checkMembership c merkleHash txindex root proof
  require included
  let inputs := [txBytes, wordBytes txHash ++ wordBytes root,
      wordBytes txHash ++ sigs] ++
    Merkle.climbInputs c (Merkle.proofElements 16 proof) txindex merkleHash
  return ({ s with
      exits := Function.update s.exits eUtxoPos
        { s.exits eUtxoPos with owner := 0 } },
    inputs.map .hashed ++ [.challenged eUtxoPos owner])

end

/-- One round of the loop: the transfer, the removal and the deletion of the
owner.  The zero address accepts every transfer. -/
def finalizeRound (s : RootChain) (now utxoPos : Word)
    (accepts : Address → Bool) : Option (RootChain × Effect) := do
  let currentExit := s.exits utxoPos
  require (currentExit.amount.toNat ≤ s.balance)
  require (currentExit.owner = 0 ∨ accepts currentExit.owner)
  let (queue, _) ← s.queue.delMin
  return ({ s with
      balance := s.balance - currentExit.amount.toNat
      queue := queue
      exits := Function.update s.exits utxoPos { currentExit with owner := 0 } },
    .removed utxoPos currentExit.owner currentExit.amount now)

/-- Every round shortens the queue, so its size bounds the rounds. -/
def finalizeLoop (now : Word) (accepts : Address → Bool) :
    Nat → RootChain → Word × Word → Option (RootChain × List Effect)
  | 0, s, _ => some (s, [])
  | rounds + 1, s, (exitableAt, utxoPos) =>
      if exitableAt < now then do
        let (s, effect) ← finalizeRound s now utxoPos accepts
        if 0 < s.queue.currentSize then
          let next ← s.queue.getMin
          let (s, effects) ← finalizeLoop now accepts rounds s next
          return (s, effect :: effects)
        else return (s, [effect])
      else some (s, [])

def finalizeExits (s : RootChain) (now : Word) (token : Address)
    (accepts : Address → Bool) : Option (RootChain × List Effect) := do
  require (hasQueue token)
  let next ← s.queue.getMin
  finalizeLoop now accepts s.queue.currentSize s next

/-- Only `deposit` accepts a value. -/
def perform (c : Crypto) (s : RootChain) (m : Message) :
    Option (RootChain × List Effect) :=
  match m.call with
  | .deposit => deposit c s m.sender m.value m.timestamp
  | call => do
      require (m.value = 0)
      match call with
      | .submitBlock root => submitBlock s m.sender m.timestamp root
      | .deposit => none
      | .startDepositExit depositPos token amount =>
          startDepositExit c s m.sender m.timestamp depositPos token amount
      | .startFeeExit token amount =>
          startFeeExit s m.sender m.timestamp token amount
      | .startExit utxoPos txBytes proof sigs rest =>
          startExit c s m.sender m.timestamp utxoPos txBytes proof sigs rest
      | .challengeExit cUtxoPos eUtxoIndex txBytes proof sigs
          confirmationSig rest =>
          challengeExit c s cUtxoPos eUtxoIndex txBytes proof sigs
            confirmationSig rest
      | .finalizeExits token accepts =>
          finalizeExits s m.timestamp token accepts

/-- A reverted call leaves the storage as it was. -/
def step (c : Crypto) (s : RootChain) (m : Message) :
    RootChain × List Effect :=
  (perform c s m).getD (s, [])

end RootChain

end Plasma.Contract

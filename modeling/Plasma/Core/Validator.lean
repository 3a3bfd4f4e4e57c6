import Plasma.Core.Startup

/-!
# The validator

A validator only writes the blocks it receives.  Its `WriteBlock` differs from
that of the operator in two points: a failed deletion of a spent output is only
logged, and its counter is set to the number of every block that reached the
chain, also when the commit fails afterwards.
-/

namespace Plasma.Core

open Plasma.Lib Plasma.Store

structure Validator where
  chain : BlockChain
  currentChildBlock : UInt64

namespace Validator

/-- The loop over the inputs of a transaction goes on after a failed
deletion. -/
def removeInputs (disk : Bool) :
    List UTXO → Database → Database × Except DbError Unit
  | [], d => (d, .ok ())
  | input :: rest, d =>
      removeInputs disk rest (Rawdb.deleteUTXO disk input.id d).1

theorem buffersDeletions_removeInputs (disk : Bool) :
    BuffersDeletions (removeInputs disk) := by
  intro ins contents batch
  induction ins generalizing batch with
  | nil => simp [removeInputs]
  | cons input ins induction =>
      simp [removeInputs, Rawdb.deleteUTXO, induction]

def newValidator (chain : BlockChain) : Validator :=
  let currentBlockNum := uint64 chain.currentHeader.number
  { chain := chain
    currentChildBlock :=
      if currentBlockNum % childBlockInterval = 0 then currentBlockNum
      else (currentBlockNum / childBlockInterval + 1) * childBlockInterval }

def writeBlock (p : Primitives) (signer : EIP155Signer) (disk : Bool)
    (v : Validator) (block : Block) :
    Validator × List NodeEvent × Except WriteError Unit :=
  let (chain, events, result) :=
    v.chain.writeWith (removeInputs disk) p signer disk block
  let currentChildBlock :=
    match result with
    | .error .databaseRace => v.currentChildBlock
    | .error (.block _) => v.currentChildBlock
    | .error (.db _) => block.numberU64
    | .ok _ => block.numberU64
  ({ chain := chain, currentChildBlock := currentChildBlock }, events, result)

/-- The block is always validated, the outputs stay as they are and the
transaction is only ended when the block is refused. -/
def processRemoteBlock (p : Primitives) (signer : EIP155Signer) (disk : Bool)
    (subscribed : Bool) (v : Validator) (block : Block) :
    Validator × List NodeEvent :=
  match v.chain.db.beginTx with
  | (_, false) => (v, [])
  | (db, true) =>
      match { v.chain with db := db }.writeBlock p signer disk block with
      | (chain, .error _) => ({ v with chain := chain.rollback }, [])
      | (chain, .ok _) =>
          ({ v with chain := chain },
            if subscribed then [.broadcast block] else [])

end Validator

def startValidator (p : Primitives) (disk : Bool) (d : Database) :
    Except StartError Validator :=
  match startChain p disk d with
  | .error failure => .error failure
  | .ok chain => .ok (Validator.newValidator chain)

end Plasma.Core

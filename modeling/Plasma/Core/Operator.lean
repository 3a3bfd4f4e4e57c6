import Plasma.Core.BlockWriter

/-!
# The operator

The operator seals transaction lists into child blocks, writes deposit blocks
for the events of the root chain and submits child blocks.  The clock, the
answer of the disk and the answer of `SubmitBlock` are inputs of a call.
-/

namespace Plasma.Core

open Plasma.Lib Plasma.Store

structure TxPool where
  queue : List Transaction
  all : List (Hash × Transaction)
deriving DecidableEq, Repr

namespace TxPool

/-- Swap the element with the last one and truncate. -/
def removeAt (queue : List Transaction) (index : Nat) : List Transaction :=
  match queue.getLast? with
  | none => queue
  | some last => (queue.set index last).dropLast

def removeTx (p : Primitives) (pool : TxPool) (hash : Hash) : TxPool :=
  match pool.all.find? fun entry => entry.1 == hash with
  | none => pool
  | some _ =>
      let pool :=
        { pool with all := pool.all.filter fun entry => entry.1 != hash }
      match pool.queue.findIdx? fun tx => p.txHash tx == hash with
      | none => pool
      | some txOffset => { pool with queue := removeAt pool.queue txOffset }

end TxPool

def childBlockInterval : UInt64 := 1000

structure Operator where
  addr : Address
  chain : BlockChain
  txPool : TxPool
  currentChildBlock : UInt64

inductive OperatorError where
  | write (failure : WriteError)
  | submit
deriving DecidableEq, Repr

namespace Operator

/-- The loop over the inputs of a transaction stops at a failed deletion. -/
def removeInputs (disk : Bool) :
    List UTXO → Database → Database × Except DbError Unit
  | [], d => (d, .ok ())
  | input :: rest, d =>
      match Rawdb.deleteUTXO disk input.id d with
      | (d, .error failure) => (d, .error failure)
      | (d, .ok _) => removeInputs disk rest d

theorem buffersDeletions_removeInputs (disk : Bool) :
    BuffersDeletions (removeInputs disk) := by
  intro ins contents batch
  induction ins generalizing batch with
  | nil => simp [removeInputs]
  | cons input ins induction =>
      simp [removeInputs, Rawdb.deleteUTXO, induction]

section

variable (p : Primitives) (signer : EIP155Signer)

def newOperator (addr : Address) (chain : BlockChain) (pool : TxPool) :
    Operator :=
  let currentBlockNum := uint64 chain.currentHeader.number
  { addr := addr
    chain := chain
    txPool := pool
    currentChildBlock :=
      currentBlockNum / childBlockInterval * childBlockInterval }

def writeBlock (disk : Bool) (o : Operator) (block : Block) :
    Operator × List NodeEvent × Except WriteError Unit :=
  let (chain, events, result) :=
    o.chain.writeWith (removeInputs disk) p signer disk block
  ({ o with chain := chain }, events, result)

def constructDepositBlock (time : Int) (o : Operator)
    (depositBlockNum : Int) (tx : Transaction) : Block :=
  Block.newBlock p
    { parentHash := o.chain.currentBlock.hash p
      coinbase := o.addr
      txHash := 0
      number := depositBlockNum
      time := time
      extra := [] } [tx]

def sealDeposit (time : Int) (disk : Bool) (o : Operator)
    (depositBlockNum : Int) (tx : Transaction) :
    Operator × List NodeEvent × Except WriteError Unit :=
  o.writeBlock p signer disk
    (o.constructDepositBlock p time depositBlockNum tx)

/-- The null input of a deposit transaction. -/
def nullInput : UTXO := ⟨⟨0, 0, 0⟩, ⟨0, 0⟩⟩

def depositTx (depositor : Address) (amount : Int) : Transaction :=
  Transaction.newTransaction nullInput nullInput ⟨depositor, amount⟩ ⟨0, 0⟩ 1

@[simp] theorem constructDepositBlock_transactions (time : Int)
    (o : Operator) (depositBlockNum : Int) (tx : Transaction) :
    (o.constructDepositBlock p time depositBlockNum tx).transactions =
      [tx] := rfl

@[simp] theorem depositTx_realInputs (depositor : Address) (amount : Int) :
    (depositTx depositor amount).realInputs = [] := rfl

@[simp] theorem depositTx_outs (depositor : Address) (amount : Int) :
    (depositTx depositor amount).outs = (⟨depositor, amount⟩, ⟨0, 0⟩) := rfl

/-- The token of the event is not used. -/
def handleDepositEvent (time : Int) (disk : Bool) (o : Operator)
    (depositBlockNum : Int) (depositor _token : Address) (amount : Int) :
    Operator × List NodeEvent × Except WriteError Unit :=
  o.sealDeposit p signer time disk depositBlockNum
    (depositTx depositor amount)

/-- The counter moves before anything can fail. -/
def constructBlock (time : Int) (o : Operator) (txs : List Transaction) :
    Operator × Block :=
  let nextChildBlock := o.currentChildBlock + childBlockInterval
  ({ o with currentChildBlock := nextChildBlock },
    Block.newBlock p
      { parentHash := 0
        coinbase := o.addr
        txHash := 0
        number := nextChildBlock.toNat
        time := time
        extra := [] } txs)

@[simp] theorem constructBlock_transactions (time : Int) (o : Operator)
    (txs : List Transaction) :
    (o.constructBlock p time txs).2.transactions = txs := by
  simp only [constructBlock, Block.newBlock_transactions]

def removeTxs (o : Operator) (txs : List Transaction) : Operator :=
  { o with
    txPool := txs.foldl (fun pool tx => pool.removeTx p (p.txHash tx))
      o.txPool }

/-- `submits` is the answer of the root chain to `SubmitBlock`. -/
def sealTxs (time : Int) (disk submits : Bool) (o : Operator)
    (txs : List Transaction) :
    Operator × List NodeEvent × Except OperatorError Unit :=
  let (o, block) := o.constructBlock p time txs
  match o.writeBlock p signer disk block with
  | (o, events, .error failure) => (o, events, .error (.write failure))
  | (o, events, .ok _) =>
      let o := o.removeTxs p block.transactions
      if submits then (o, events ++ [.submitted block], .ok ())
      else (o, events, .error .submit)

variable (o : Operator) (time : Int) (disk submits : Bool)
  (txs : List Transaction)

/-- The write of the block that `Seal` constructs. -/
def sealWrite : BlockChain × List NodeEvent × Except WriteError Unit :=
  o.chain.writeWith (removeInputs disk) p signer disk
    (o.constructBlock p time txs).2

theorem sealTxs_of_error {failure : WriteError}
    (failed : (o.sealWrite p signer time disk txs).2.2 = .error failure) :
    o.sealTxs p signer time disk submits txs =
      ({ o with
          currentChildBlock := o.currentChildBlock + childBlockInterval
          chain := (o.sealWrite p signer time disk txs).1 },
        (o.sealWrite p signer time disk txs).2.1,
        .error (.write failure)) := by
  unfold sealWrite at failed
  simp only [sealTxs, writeBlock, sealWrite, constructBlock] at failed ⊢
  simp only [failed]

theorem sealTxs_of_ok
    (written : (o.sealWrite p signer time disk txs).2.2 = .ok ()) :
    o.sealTxs p signer time disk submits txs =
      (removeTxs p
        { o with
          currentChildBlock := o.currentChildBlock + childBlockInterval
          chain := (o.sealWrite p signer time disk txs).1 } txs,
        (o.sealWrite p signer time disk txs).2.1 ++
          (if submits then [.submitted (o.constructBlock p time txs).2]
          else []),
        if submits then .ok () else .error .submit) := by
  unfold sealWrite at written
  simp only [sealTxs, writeBlock, sealWrite, constructBlock] at written ⊢
  simp only [written, Block.newBlock_transactions]
  cases submits <;>
    simp only [Bool.false_eq_true, if_true, if_false, List.append_nil]

theorem sealTxs_chain :
    (o.sealTxs p signer time disk submits txs).1.chain =
      (o.sealWrite p signer time disk txs).1 := by
  cases outcome : (o.sealWrite p signer time disk txs).2.2 with
  | error failure =>
      rw [sealTxs_of_error p signer o time disk submits txs outcome]
  | ok written =>
      rw [sealTxs_of_ok p signer o time disk submits txs outcome]
      rfl

theorem sealTxs_addr :
    (o.sealTxs p signer time disk submits txs).1.addr = o.addr := by
  cases outcome : (o.sealWrite p signer time disk txs).2.2 with
  | error failure =>
      rw [sealTxs_of_error p signer o time disk submits txs outcome]
  | ok written =>
      rw [sealTxs_of_ok p signer o time disk submits txs outcome]
      rfl

theorem sealTxs_currentChildBlock :
    (o.sealTxs p signer time disk submits txs).1.currentChildBlock =
      o.currentChildBlock + childBlockInterval := by
  cases outcome : (o.sealWrite p signer time disk txs).2.2 with
  | error failure =>
      rw [sealTxs_of_error p signer o time disk submits txs outcome]
  | ok written =>
      rw [sealTxs_of_ok p signer o time disk submits txs outcome]
      rfl

theorem sealTxs_committed :
    committedBlocks (o.sealTxs p signer time disk submits txs).2.1 =
      committedBlocks (o.sealWrite p signer time disk txs).2.1 := by
  cases outcome : (o.sealWrite p signer time disk txs).2.2 with
  | error failure =>
      rw [sealTxs_of_error p signer o time disk submits txs outcome]
  | ok written =>
      rw [sealTxs_of_ok p signer o time disk submits txs outcome]
      cases submits <;> simp [committedBlocks]

end

end Operator

end Plasma.Core

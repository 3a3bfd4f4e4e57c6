import Plasma.Lib.Trace
import Plasma.Lib.Changes
import Plasma.Lib.Ledger
import Plasma.Lib.BigInt
import Plasma.Lib.Bytes
import Plasma.Lib.Heap
import Plasma.Lib.Rlp
import Plasma.Contract.Evm
import Plasma.Contract.PriorityQueue
import Plasma.Contract.Rlp
import Plasma.Contract.RootChain
import Plasma.Contract.Run
import Plasma.Contract.Layout
import Plasma.Contract.Numbering
import Plasma.Store.Database
import Plasma.Core.Types
import Plasma.Core.Signer
import Plasma.Core.Rawdb
import Plasma.Core.TxValidator
import Plasma.Core.BlockValidator
import Plasma.Core.BlockChain
import Plasma.Core.BlockWriter
import Plasma.Core.BlockEffect
import Plasma.Core.Operator
import Plasma.Core.Startup
import Plasma.Core.OperatorRun
import Plasma.Core.Conservation
import Plasma.Core.Spending
import Plasma.Core.Validator
import Plasma.Core.Node
import Plasma.Core.Replay
import Plasma.Core.Peers
import Plasma.Contract.Priority
import Plasma.Contract.Exits
import Plasma.Contract.Challenge
import Plasma.Core.EventLoop
import Plasma.Core.EventDelivery
import Plasma.Bridge.BlockNumbers
import Plasma.Core.EventOnce
import Plasma.Core.SharedHandle
import Plasma.Core.BlockOrder
import Plasma.Core.Transactions
import Plasma.Core.Merkle
import Plasma.Contract.Signatures
import Plasma.Contract.LifeCycle
import Plasma.Bridge.Encoding
import Plasma.Contract.Finalization
import Plasma.Bridge.Inclusion
import Plasma.Core.BlockFrame
import Plasma.Core.Pool
import Plasma.Core.PoolContent
import Plasma.Core.Journal
import Plasma.Core.MerkleBinding
import Plasma.Bridge.Membership
import Plasma.Contract.QueueRun
import Plasma.Core.Signing
import Plasma.Core.Json
import Plasma.Core.Incoming
import Plasma.Bridge.Download
import Plasma.Core.Heads
import Plasma.Core.HeadRun
import Plasma.Bridge.ChildNumbers
import Plasma.Core.GenesisSetup
import Plasma.Store.Isolation
import Plasma.Core.Accessors
import Plasma.Core.Tables
import Plasma.Core.PoolIndex
import Plasma.Bridge.Sync
import Plasma.Bridge.SyncRun
import Plasma.Core.Holdings
import Plasma.Lib.Flooding
import Plasma.Network.BlockGossip
import Plasma.Network.BlockRelay
import Plasma.Network.TxGossip
import Plasma.Core.Agreement
import Plasma.Core.Sealing
import Plasma.Core.SealingOnce
import Plasma.Core.SealingProgress
import Plasma.Network.Replicas
import Plasma.Contract.Deposits
import Plasma.Core.Transfer
import Plasma.Bridge.Solvency
import Plasma.Bridge.ExitBinding

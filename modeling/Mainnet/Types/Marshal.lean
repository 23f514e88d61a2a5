import Mainnet.Types.Rlp

namespace Mainnet.Types

open Lib

structure Log where
  address : Address
  topics : List Hash
  data : Bytes
deriving DecidableEq, Inhabited

structure Receipt where
  root : Hash
  cumulativeGasUsed : ℕ
  logsBloom : Bloom
  logs : List Log
  status : Option ℕ
  gasUsed : ℕ
  contractAddress : Option Address
  txHash : Hash
deriving DecidableEq, Inhabited

structure Body where
  transactions : List Transaction
  uncles : List Header
deriving DecidableEq, Inhabited

namespace Rlp

def newFixed {n : ℕ} (b : FixedBytes n) : Value := .bytes b.bytes

def newAddr? : Option Address → Value
  | none => .bytes []
  | some addr => newFixed addr

end Rlp

open Rlp

def Header.marshalRLPWith (h : Header) : Value :=
  .array [newFixed h.parentHash, newFixed h.sha3Uncles, .bytes h.miner, newFixed h.stateRoot,
    newFixed h.txRoot, newFixed h.receiptsRoot, newFixed h.logsBloom, newUint h.difficulty,
    newUint h.number, newUint h.gasLimit, newUint h.gasUsed, newUint h.timestamp,
    .bytes h.extraData, newFixed h.mixHash, newFixed h.nonce]

def Transaction.marshalRLPWith (t : Transaction) : Value :=
  .array [newUint t.nonce, newUint t.gasPrice, newUint t.gas, newAddr? t.toAddr, newUint t.value,
    .bytes t.input, newUint t.v, newUint t.r, newUint t.s]

def Block.marshalRLPWith (b : Block) : Value :=
  .array [b.header.marshalRLPWith, .array (b.transactions.map Transaction.marshalRLPWith),
    .array (b.uncles.map Header.marshalRLPWith)]

def Log.marshalRLPWith (l : Log) : Value :=
  .array [newFixed l.address, .array (l.topics.map newFixed), .bytes l.data]

namespace Receipt

def marshalLogsWith (r : Receipt) : Value := .array (r.logs.map Log.marshalRLPWith)

def marshalRLPWith (r : Receipt) : Value :=
  let postState := match r.status with
    | some status => newUint status
    | none => newFixed r.root
  .array [postState, newUint r.cumulativeGasUsed, newFixed r.logsBloom, r.marshalLogsWith]

def marshalStoreRLPWith (r : Receipt) : Value :=
  .array [r.marshalRLPWith, newAddr? r.contractAddress, newUint r.gasUsed, newFixed r.txHash]

end Receipt

def receiptsMarshalRLPWith (rs : List Receipt) : Value := .array (rs.map Receipt.marshalRLPWith)

def receiptsMarshalStoreRLPWith (rs : List Receipt) : Value :=
  .array (rs.map Receipt.marshalStoreRLPWith)

def Transaction.marshalStoreRLPWith (t : Transaction) : Value :=
  .array [t.marshalRLPWith, newFixed t.fromAddr]

def Body.marshalRLPWith (b : Body) : Value :=
  .array [.array (b.transactions.map Transaction.marshalStoreRLPWith),
    .array (b.uncles.map Header.marshalRLPWith)]

/-- The printer and hash function together with the header hash in use: the default one or the one
that the consensus engine has put in its place. It reads the other fields only. -/
structure Codec extends Keccak where
  headerHash : Header → Hash
  headerHash_with : ∀ h hash, headerHash { h with hash := hash } = headerHash h

def defHeaderHash (K : Keccak) (h : Header) : Hash := K.keccak256Rlp h.marshalRLPWith

def Keccak.codec (K : Keccak) : Codec :=
  { K with headerHash := defHeaderHash K, headerHash_with := fun _ _ ↦ rfl }

def Header.computeHash (C : Codec) (h : Header) : Header := { h with hash := C.headerHash h }

def Transaction.computeHash (K : Keccak) (t : Transaction) : Transaction :=
  { t with hash := K.keccak256Rlp t.marshalRLPWith }

end Mainnet.Types

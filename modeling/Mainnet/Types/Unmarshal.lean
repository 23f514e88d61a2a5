import Mainnet.Types.Marshal

namespace Mainnet.Types

open Lib Transaction

inductive UnmarshalError
  | fastrlp
  /-- Too few elements; the text names what was decoded and how many were expected. -/
  | elements (what : String) (found : ℕ)
deriving DecidableEq

def fetch {α : Type} : Option α → Except UnmarshalError α
  | none => .error .fastrlp
  | some a => .ok a

namespace Rlp

def getFixed (n : ℕ) : Value → Option (FixedBytes n)
  | .bytes b => if h : b.length = n then some ⟨b, h⟩ else none
  | .array _ => none

def getHash : Value → Option Hash := getFixed 32

def getUint64 : Value → Option ℕ
  | .bytes b => if b.length ≤ 8 then some (BigEndian.ofBytes b) else none
  | .array _ => none

def getBigInt : Value → Option ℕ
  | .bytes b => some (BigEndian.ofBytes b)
  | .array _ => none

end Rlp

open Rlp

def nonceOfUint64 (n : ℕ) : Nonce := ⟨BigEndian.putUint64 n, BigEndian.length_putUint64 n⟩

section Unmarshal

variable (C : Codec)

def Header.unmarshalRLPFrom (v : Value) : Except UnmarshalError Header := do
  let elems ← fetch (getElems v)
  match elems with
  | e0 :: e1 :: e2 :: e3 :: e4 :: e5 :: e6 :: e7 :: e8 :: e9 :: e10 :: e11 :: e12 :: e13 :: e14 :: _ =>
    let parentHash ← fetch (getHash e0)
    let sha3Uncles ← fetch (getHash e1)
    let miner ← fetch (getBytes e2)
    let stateRoot ← fetch (getHash e3)
    let txRoot ← fetch (getHash e4)
    let receiptsRoot ← fetch (getHash e5)
    let logsBloom ← fetch (getFixed 256 e6)
    let difficulty ← fetch (getUint64 e7)
    let number ← fetch (getUint64 e8)
    let gasLimit ← fetch (getUint64 e9)
    let gasUsed ← fetch (getUint64 e10)
    let timestamp ← fetch (getUint64 e11)
    let extraData ← fetch (getBytes e12)
    let mixHash ← fetch (getHash e13)
    let nonce ← fetch (getUint64 e14)
    .ok (Header.computeHash C
      { parentHash, sha3Uncles, miner, stateRoot, txRoot, receiptsRoot, logsBloom, difficulty,
        number, gasLimit, gasUsed, timestamp, extraData, mixHash,
        nonce := nonceOfUint64 nonce, hash := zeroHash })
  | _ => .error (.elements "header, expected 15" elems.length)

/-- The recipient; every item that is not a string of twenty bytes resets it. -/
def recipient (v : Value) : Option Address :=
  match getBytes v with
  | some b => if b.length = 20 then some (bytesToAddress b) else none
  | none => none

/-- The hash is that of the item's own bytes, which a faithful parser has read from its printed
form. -/
def Transaction.unmarshalRLPFrom (K : Keccak) (v : Value) : Except UnmarshalError Transaction := do
  let elems ← fetch (getElems v)
  match elems with
  | e0 :: e1 :: e2 :: e3 :: e4 :: e5 :: e6 :: e7 :: e8 :: _ =>
    let nonce ← fetch (getUint64 e0)
    let gasPrice ← fetch (getBigInt e1)
    let gas ← fetch (getUint64 e2)
    let value ← fetch (getBigInt e4)
    let input ← fetch (getBytes e5)
    let v' ← fetch (getBigInt e6)
    let r ← fetch (getBigInt e7)
    let s ← fetch (getBigInt e8)
    .ok { nonce, gasPrice, gas, toAddr := recipient e3, value, input, v := v', r, s,
          hash := K.keccak256Rlp v, fromAddr := zeroAddress }
  | _ => .error (.elements "transaction, expected 9" elems.length)

def Block.unmarshalRLPFrom (v : Value) : Except UnmarshalError Block := do
  let elems ← fetch (getElems v)
  match elems with
  | e0 :: e1 :: e2 :: _ =>
    let header ← Header.unmarshalRLPFrom C e0
    let txns ← fetch (getElems e1)
    let transactions ← txns.mapM (Transaction.unmarshalRLPFrom C.toKeccak)
    let headers ← fetch (getElems e2)
    let uncles ← headers.mapM (Header.unmarshalRLPFrom C)
    .ok { header, transactions, uncles }
  | _ => .error (.elements "block, expected 3" elems.length)

def Log.unmarshalRLPFrom (v : Value) : Except UnmarshalError Log := do
  let elems ← fetch (getElems v)
  match elems with
  | e0 :: e1 :: e2 :: _ =>
    let address ← fetch (getAddr e0)
    let topicElems ← fetch (getElems e1)
    let topics ← topicElems.mapM fun topic ↦ fetch (getHash topic)
    let data ← fetch (getBytes e2)
    .ok { address, topics, data }
  | _ => .error (.elements "log, expected 3" elems.length)

/-- The root, or else the status, told apart by the number of bytes. -/
def postState (b : Bytes) : Hash × Option ℕ :=
  if b.length = 32 then (bytesToHash b, none)
  else
    match b with
    | [status] => (zeroHash, some status.toNat)
    | _ => (zeroHash, some 0)

def Receipt.unmarshalRLPFrom (v : Value) : Except UnmarshalError Receipt := do
  let elems ← fetch (getElems v)
  match elems with
  | e0 :: e1 :: e2 :: e3 :: _ =>
    let buf ← fetch (getBytes e0)
    let cumulativeGasUsed ← fetch (getUint64 e1)
    let logsBloom ← fetch (getFixed 256 e2)
    let logsElems ← fetch (getElems e3)
    let logs ← logsElems.mapM Log.unmarshalRLPFrom
    .ok { root := (postState buf).1, cumulativeGasUsed, logsBloom, logs,
          status := (postState buf).2, gasUsed := 0, contractAddress := none, txHash := zeroHash }
  | _ => .error (.elements "receipt, expected 4" elems.length)

def receiptsUnmarshalRLPFrom (v : Value) : Except UnmarshalError (List Receipt) := do
  let elems ← fetch (getElems v)
  elems.mapM Receipt.unmarshalRLPFrom

def Transaction.unmarshalStoreRLPFrom (K : Keccak) (v : Value) :
    Except UnmarshalError Transaction := do
  let elems ← fetch (getElems v)
  match elems with
  | e0 :: e1 :: _ =>
    let t ← unmarshalRLPFrom K e0
    let fromAddr ← fetch (getAddr e1)
    .ok { t with fromAddr }
  | _ => .error (.elements "transaction, expected 2" elems.length)

/-- The text of the error names a header. -/
def Body.unmarshalRLPFrom (v : Value) : Except UnmarshalError Body := do
  let tuple ← fetch (getElems v)
  match tuple with
  | e0 :: e1 :: _ =>
    let txns ← fetch (getElems e0)
    let transactions ← txns.mapM (unmarshalStoreRLPFrom C.toKeccak)
    let headers ← fetch (getElems e1)
    let uncles ← headers.mapM (Header.unmarshalRLPFrom C)
    .ok { transactions, uncles }
  | _ => .error (.elements "header, expected 2" tuple.length)

/-- Receipts of the old format have no transaction hash. -/
def Receipt.unmarshalStoreRLPFrom (v : Value) : Except UnmarshalError Receipt := do
  let elems ← fetch (getElems v)
  match elems with
  | e0 :: e1 :: e2 :: rest =>
    let r ← Receipt.unmarshalRLPFrom e0
    let vv ← fetch (getBytes e1)
    let contractAddress := if vv.length = 20 then some (bytesToAddress vv) else none
    let gasUsed ← fetch (getUint64 e2)
    match rest with
    | [e3] =>
      let hash ← fetch (getBytes e3)
      .ok { r with contractAddress, gasUsed, txHash := bytesToHash hash }
    | _ => .ok { r with contractAddress, gasUsed }
  | _ => .error (.elements "receipt, expected at least 3" elems.length)

def receiptsUnmarshalStoreRLPFrom (v : Value) : Except UnmarshalError (List Receipt) := do
  let elems ← fetch (getElems v)
  elems.mapM Receipt.unmarshalStoreRLPFrom

end Unmarshal

def unmarshalRlp {α : Type} (R : Fastrlp) (obj : Value → Except UnmarshalError α) (input : Bytes) :
    Except UnmarshalError α := do
  let v ← fetch (R.parse input)
  obj v

section Bytes

variable (C : Codec)

def Transaction.marshalRLP (R : Fastrlp) (t : Transaction) : Bytes := R.marshal t.marshalRLPWith

def Transaction.unmarshalRLP (K : Keccak) : Bytes → Except UnmarshalError Transaction :=
  unmarshalRlp K.toFastrlp (unmarshalRLPFrom K)

def Block.marshalRLP (R : Fastrlp) (b : Block) : Bytes := R.marshal b.marshalRLPWith

def Block.unmarshalRLP : Bytes → Except UnmarshalError Block :=
  unmarshalRlp C.toFastrlp (Block.unmarshalRLPFrom C)

def receiptsMarshalRLPTo (R : Fastrlp) (rs : List Receipt) : Bytes :=
  R.marshal (receiptsMarshalRLPWith rs)

def receiptsUnmarshalRLP (R : Fastrlp) : Bytes → Except UnmarshalError (List Receipt) :=
  unmarshalRlp R receiptsUnmarshalRLPFrom

end Bytes

end Mainnet.Types

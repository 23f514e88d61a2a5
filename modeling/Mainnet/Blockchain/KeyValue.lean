import Mainnet.Lib.Outcome
import Mainnet.Types.Unmarshal

namespace Mainnet.Blockchain

open Types Lib Rlp

abbrev KV := Bytes → Option Bytes

inductive StorageError
  /-- "not found" -/
  | notFound
  | unmarshal (e : UnmarshalError)
deriving DecidableEq

section Paths

def DIFFICULTY : Bytes := [0x64] -- "d"
def HEADER : Bytes := [0x68] -- "h"
def HEAD : Bytes := [0x6f] -- "o"
def FORK : Bytes := [0x66] -- "f"
def CANONICAL : Bytes := [0x63] -- "c"
def BODY : Bytes := [0x62] -- "b"
def RECEIPTS : Bytes := [0x72] -- "r"
def TX_LOOKUP : Bytes := [0x6c] -- "l"

def HASH : Bytes := [0x68, 0x61, 0x73, 0x68] -- "hash"
def NUMBER : Bytes := [0x6e, 0x75, 0x6d, 0x62, 0x65, 0x72] -- "number"
def EMPTY : Bytes := [0x65, 0x6d, 0x70, 0x74, 0x79] -- "empty"

end Paths

def encodeUint (n : UInt64) : Bytes := BigEndian.putUint64 n.toNat

def decodeUint (b : Bytes) : UInt64 := UInt64.ofNat (BigEndian.ofBytes b)

def forksMarshalRLPWith (forks : List Hash) : Value := .array (forks.map newFixed)

def forksUnmarshalRLPFrom (v : Value) : Except UnmarshalError (List Hash) := do
  let elems ← fetch (getElems v)
  elems.mapM fun elem ↦ fetch (getHash elem)

namespace KV

variable (C : Codec) (db : KV)

def set (p k v : Bytes) : KV := Function.update db (p ++ k) (some v)

def get (p k : Bytes) : Option Bytes := db (p ++ k)

def writeRLP (p k : Bytes) (raw : Value) : KV := db.set p k (C.marshal raw)

def readRLP {α : Type} (p k : Bytes) (obj : Value → Except UnmarshalError α) :
    Except StorageError α :=
  match db.get p k with
  | none => .error .notFound
  | some data =>
    match unmarshalRlp C.toFastrlp obj data with
    | .error e => .error (.unmarshal e)
    | .ok a => .ok a

def writeCanonicalHash (n : UInt64) (hash : Hash) : KV := db.set CANONICAL (encodeUint n) hash.bytes

def readCanonicalHash (n : UInt64) : Option Hash :=
  (db.get CANONICAL (encodeUint n)).map bytesToHash

def writeHeadHash (h : Hash) : KV := db.set HEAD HASH h.bytes

def readHeadHash : Option Hash := (db.get HEAD HASH).map bytesToHash

def writeHeadNumber (n : UInt64) : KV := db.set HEAD NUMBER (encodeUint n)

def readHeadNumber : Option UInt64 :=
  match db.get HEAD NUMBER with
  | none => none
  | some data => if data.length ≠ 8 then none else some (decodeUint data)

def writeForks (forks : List Hash) : KV := db.writeRLP C FORK EMPTY (forksMarshalRLPWith forks)

def readForks : Except StorageError (List Hash) := db.readRLP C FORK EMPTY forksUnmarshalRLPFrom

/-- `big.Int.Bytes` drops the sign. -/
def writeTotalDifficulty (hash : Hash) (diff : ℤ) : KV :=
  db.set DIFFICULTY hash.bytes (BigEndian.toBytes diff.natAbs)

def readTotalDifficulty (hash : Hash) : Option ℤ :=
  (db.get DIFFICULTY hash.bytes).map fun v ↦ (BigEndian.ofBytes v : ℤ)

def writeHeader (h : Header) : KV := db.writeRLP C HEADER h.hash.bytes h.marshalRLPWith

def readHeader (hash : Hash) : Except StorageError Header :=
  db.readRLP C HEADER hash.bytes (Header.unmarshalRLPFrom C)

def writeCanonicalHeader (h : Header) (diff : ℤ) : KV :=
  let db := db.writeHeader C h
  let db := db.writeHeadHash h.hash
  let db := db.writeHeadNumber (UInt64.ofNat h.number)
  let db := db.writeCanonicalHash (UInt64.ofNat h.number) h.hash
  db.writeTotalDifficulty h.hash diff

def writeBody (hash : Hash) (body : Body) : KV := db.writeRLP C BODY hash.bytes body.marshalRLPWith

def readBody (hash : Hash) : Except StorageError Body :=
  db.readRLP C BODY hash.bytes (Body.unmarshalRLPFrom C)

def writeReceipts (hash : Hash) (receipts : List Receipt) : KV :=
  db.writeRLP C RECEIPTS hash.bytes (receiptsMarshalStoreRLPWith receipts)

def readReceipts (hash : Hash) : Except StorageError (List Receipt) :=
  db.readRLP C RECEIPTS hash.bytes receiptsUnmarshalStoreRLPFrom

def writeTxLookup (hash blockHash : Hash) : KV :=
  db.writeRLP C TX_LOOKUP hash.bytes (newFixed blockHash)

/-- An entry that is no RLP counts as missing; an item of another length panics. -/
def readTxLookup (hash : Hash) : Outcome Empty (Option Hash) :=
  match (db.get TX_LOOKUP hash.bytes).bind C.parse with
  | none => .ok none
  | some v =>
    match getFixed 32 v with
    | none => .panic
    | some blockHash => .ok (some blockHash)

end KV

inductive Write
  | canonicalHash (n : UInt64) (hash : Hash)
  | headHash (h : Hash)
  | headNumber (n : UInt64)
  | forks (forks : List Hash)
  | totalDifficulty (hash : Hash) (diff : ℤ)
  | header (h : Header)
  | canonicalHeader (h : Header) (diff : ℤ)
  | body (hash : Hash) (body : Body)
  | receipts (hash : Hash) (receipts : List Receipt)
  | txLookup (hash blockHash : Hash)

def KV.write (C : Codec) (db : KV) : Write → KV
  | .canonicalHash n hash => db.writeCanonicalHash n hash
  | .headHash h => db.writeHeadHash h
  | .headNumber n => db.writeHeadNumber n
  | .forks forks => db.writeForks C forks
  | .totalDifficulty hash diff => db.writeTotalDifficulty hash diff
  | .header h => db.writeHeader C h
  | .canonicalHeader h diff => db.writeCanonicalHeader C h diff
  | .body hash body => db.writeBody C hash body
  | .receipts hash receipts => db.writeReceipts C hash receipts
  | .txLookup hash blockHash => db.writeTxLookup C hash blockHash

def KV.writes (C : Codec) (db : KV) (ws : List Write) : KV := ws.foldl (KV.write C) db

def emptyKV : KV := fun _ ↦ none

end Mainnet.Blockchain

import Mainnet.Types.Address
import Mainnet.Parallel.Executor

namespace Mainnet.Executor

open Types Parallel

/-- The library functions behind the key texts: the hash, and the sender of a transaction with the
flag that its recovery succeeded. -/
structure Keys where
  keccak256 : Bytes → Hash
  getSender : Transaction → Address × Bool

variable (K : Keys)

def Keys.text (a : Address) : String := a.string K.keccak256

def extractAddressFromInput (input : Bytes) (offset : ℕ) : String :=
  if input.length < offset + 32 then ""
  else encodeToHex ((input.drop (offset + 12)).take 20)

def isTransferMethod (methodID : Bytes) : Bool := decide (methodID = [0xa9, 0x05, 0x9c, 0xbb])
def isApproveMethod (methodID : Bytes) : Bool := decide (methodID = [0x09, 0x5e, 0xa7, 0xb3])
def isTransferFromMethod (methodID : Bytes) : Bool := decide (methodID = [0x23, 0xb8, 0x72, 0xdd])
def isBalanceOfMethod (methodID : Bytes) : Bool := decide (methodID = [0x70, 0xa0, 0x82, 0x31])
def isAllowanceMethod (methodID : Bytes) : Bool := decide (methodID = [0xdd, 0x62, 0xed, 0x3e])
def isTotalSupplyMethod (methodID : Bytes) : Bool := decide (methodID = [0x18, 0x16, 0x0d, 0xdd])
def isMintMethod (methodID : Bytes) : Bool := decide (methodID = [0x40, 0xc1, 0x0f, 0x19])
def isBurnMethod (methodID : Bytes) : Bool := decide (methodID = [0x42, 0x96, 0x6c, 0x68])

def balanceKey (account : String) : String := "acc20:balance:" ++ account
def allowanceKey (owner spender : String) : String :=
  "acc20:allowance:" ++ (owner ++ (":" ++ spender))
def supplyKey (token : String) : String := "acc20:supply:" ++ token

def readEntries (t : Transaction) : List String :=
  if t.input.length < 4 then []
  else
    let methodID := t.input.take 4
    if isBalanceOfMethod methodID then
      if 36 ≤ t.input.length then [balanceKey (extractAddressFromInput t.input 4)] else []
    else if isAllowanceMethod methodID then
      if 68 ≤ t.input.length then
        [allowanceKey (extractAddressFromInput t.input 4) (extractAddressFromInput t.input 36)]
      else []
    else if isTotalSupplyMethod methodID then
      match t.toAddr with
      | some token => [supplyKey (K.text token)]
      | none => []
    else []

def extractReadSet (t : Transaction) : List String :=
  [K.text (K.getSender t).1] ++ (t.toAddr.map K.text).toList ++ readEntries K t

def writeEntries (t : Transaction) : List String :=
  let sender := K.text (K.getSender t).1
  if t.input.length < 4 then []
  else
    let methodID := t.input.take 4
    if isTransferMethod methodID then
      if 36 ≤ t.input.length then
        [balanceKey sender, balanceKey (extractAddressFromInput t.input 4)]
      else []
    else if isApproveMethod methodID then
      if 36 ≤ t.input.length then [allowanceKey sender (extractAddressFromInput t.input 4)] else []
    else if isTransferFromMethod methodID then
      if 68 ≤ t.input.length then
        [balanceKey (extractAddressFromInput t.input 4),
          balanceKey (extractAddressFromInput t.input 36),
          allowanceKey (extractAddressFromInput t.input 4) sender]
      else []
    else if isMintMethod methodID || isBurnMethod methodID then
      match t.toAddr with
      | some token =>
        if 36 ≤ t.input.length then
          [balanceKey (extractAddressFromInput t.input 4), supplyKey (K.text token)]
        else []
      | none => []
    else []

def extractWriteSet (t : Transaction) : List String :=
  [K.text (K.getSender t).1] ++ (if 0 < t.value then (t.toAddr.map K.text).toList else []) ++
    writeEntries K t

def parallelTx (ref : ℕ) (t : Transaction) : ParallelTx :=
  ⟨ref, some t, extractReadSet K t, extractWriteSet K t⟩

end Mainnet.Executor

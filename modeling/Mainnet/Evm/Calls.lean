import Mainnet.Evm.Instructions
import Mainnet.Evm.OpCode

namespace Mainnet.Evm

open Types Mainnet.Runtime Lib

variable {σ : Type} (E : Env σ) (op : OpCode)

/-- What `buildCallContract` and `buildCreateContract` return: nothing when the frame has stopped, a
contract, or an error with the contract whose gas goes back to the frame. -/
inductive Built (α : Type)
  | stopped
  | failed (contract : Option Contract)
  | contract (a : α)

def createAddress (addr : Address) (nonce : ℕ) : Address :=
  let dst := E.marshal (.array [.bytes addr.bytes, Rlp.newUint nonce])
  bytesToAddress ((E.keccak256 dst).bytes.drop 12)

def createAddress2 (addr : Address) (salt : Hash) (inithash : Bytes) : Address :=
  bytesToAddress ((E.keccak256
    (0xff :: addr.bytes ++ salt.bytes ++ (E.keccak256 inithash).bytes)).bytes.drop 12)

def callsNewAccount (addr : Address) (transfersValue : Bool) : Machine σ Bool :=
  if op = .CALL then
    if E.config.eip158 then
      if transfersValue then callHost (E.host.empty addr) else pure false
    else do
      pure !(← callHost (E.host.accountExists addr))
  else pure false

def callCost (config : ForksInTime) (newAccount transfersValue : Bool) : ℕ :=
  (if config.eip150 then 700 else 40) + (if newAccount then 25000 else 0) +
    (if transfersValue then 9000 else 0)

/-- The gas that a call hands on, `none` without EIP-150 where the operand does not fit. -/
def callGas (config : ForksInTime) (initialGas : ℤ) (gas gasCost : ℕ) : Option ℕ :=
  if config.eip150 then
    let availableGas := (gas + 2 ^ 64 - gasCost) % 2 ^ 64
    let availableGas := availableGas - availableGas / 64
    if !isUint64 initialGas || availableGas < uint64 initialGas then some availableGas
    else some (uint64 initialGas)
  else if isUint64 initialGas then some (uint64 initialGas)
  else none

def popIf (p : Prop) [Decidable p] : Machine σ (Option ℤ) :=
  if p then some <$> pop else pure none

def lacksFunds (value : ℤ) : Machine σ Bool :=
  if value ≠ 0 then do
    pure (decide ((← callHost (E.host.getBalance E.msg.address)) < value))
  else pure false

def callContract (addr : Address) (value : Option ℤ) (gas : ℕ) (code args : Bytes) :
    Contract :=
  let contract : Contract :=
    { newContractCall (E.msg.depth + 1) E.msg.origin E.msg.address addr value gas code args with
      static := op = .STATICCALL || E.msg.static }
  if op = .CALLCODE then { contract with address := E.msg.address }
  else if op = .DELEGATECALL then
    { contract with address := E.msg.address, value := E.msg.value, caller := E.msg.caller }
  else contract

abbrev OpCode.values (op : OpCode) : ℕ := if op = .CALL ∨ op = .CALLCODE then 1 else 0

/-- `buildCallContract` from the gas that the call costs on. -/
def finishCall (initialGas : ℤ) (addr : Address) (value : Option ℤ) (args : Bytes)
    (retOffset retSize : ℤ) : Machine σ (Built (Contract × ℕ × ℕ)) := do
  let transfersValue := value.any (· ≠ 0)
  let newAccount ← callsNewAccount E op addr transfersValue
  let gasCost := callCost E.config newAccount transfersValue
  match callGas E.config initialGas (← get).gas gasCost with
  | none =>
    exit .outOfGas
    pure .stopped
  | some gas =>
    if ← consumeGas ((gasCost + gas) % 2 ^ 64) then
      let gas := if transfersValue then (gas + 2300) % 2 ^ 64 else gas
      let contract := callContract E op addr value gas (← callHost (E.host.getCode addr)) args
      if ← lacksFunds E (value.getD 0) then pure (.failed (some contract))
      else pure (.contract (contract, uint64 retOffset, uint64 retSize))
    else pure .stopped

def buildCallContract : Machine σ (Built (Contract × ℕ × ℕ)) := do
  let initialGas ← pop
  let addr ← popAddr
  let value ← popIf (op = .CALL ∨ op = .CALLCODE)
  let inOffset ← pop
  let inSize ← pop
  let retOffset ← pop
  let retSize ← pop
  match ← get2 E inOffset inSize with
  | none => pure .stopped
  | some args =>
    if ← allocateMemory E retOffset retSize then
      finishCall E op initialGas addr value args retOffset retSize
    else pure .stopped

def callType : OpCode → Option CallType
  | .CALL => some .call
  | .CALLCODE => some .callCode
  | .DELEGATECALL => some .delegateCall
  | .STATICCALL => some .staticCall
  | _ => none

def returnFromCall (offset size : ℕ) (result : ExecutionResult) : Machine σ Unit := do
  push (if result.succeeded then 1 else 0)
  if (result.succeeded || result.reverted) && result.returnValue ≠ [] then
    copyToMemory offset (offset + size) result.returnValue
  addGas result.gasLeft
  modify fun c ↦ { c with returnData := result.returnValue }

def endCall (type : CallType) : Built (Contract × ℕ × ℕ) → Machine σ Unit
  | .stopped => pure ()
  | .failed contract => do
    push 0
    match contract with
    | some contract => addGas contract.gas
    | none => pure ()
  | .contract (contract, offset, size) => do
    returnFromCall offset size (← callHost (E.host.callx { contract with type := type }))

def runCall : Machine σ Unit :=
  match callType op with
  | none => Prog.panic
  | some type => buildCallContract E op >>= endCall E type

def opCall : Machine σ Unit := do
  resetReturnData
  if op = .CALL ∧ E.msg.static then
    if (← peekAt 3) ≠ 0 then exit .writeProtection else runCall E op
  else if op = .DELEGATECALL ∧ !E.config.homestead then exit .opCodeNotFound
  else if op = .STATICCALL ∧ !E.config.byzantium then exit .opCodeNotFound
  else runCall E op

def consumeHashGas (length : ℤ) : Machine σ Bool :=
  if op = .CREATE2 then consumeGas ((uint64 length + 31) % 2 ^ 64 / 32 * 6) else pure true

def newAddress (salt : Option ℤ) (input : Bytes) : Machine σ Address :=
  match salt with
  | none => createAddress E E.msg.address <$> callHost (E.host.getNonce E.msg.address)
  | some salt => pure (createAddress2 E E.msg.address (bigToHash salt) input)

def finishCreate (value length : ℤ) (salt : Option ℤ) (input : Bytes) :
    Machine σ (Built Contract) := do
  if ← consumeGas 0 then
    if ← lacksFunds E value then pure (.failed none)
    else if ← consumeHashGas op length then
      let gas := (← get).gas
      let gas := if E.config.eip150 ∨ op = .CREATE2 then gas - gas / 64 else gas
      if ← consumeGas gas then
        let address ← newAddress E salt input
        pure (.contract (newContract (E.msg.depth + 1) E.msg.origin E.msg.address address value gas
          input))
      else pure .stopped
    else pure .stopped
  else pure .stopped

def buildCreateContract : Machine σ (Built Contract) := do
  let value ← pop
  let offset ← pop
  let length ← pop
  let salt ← popIf (op = .CREATE2)
  match ← get2 E offset length with
  | none => pure .stopped
  | some input => finishCreate E op value length salt input

def returnFromCreate (address : Address) (result : ExecutionResult) :
    Machine σ Unit := do
  let codeStoreOutOfGas := result.err = some .codeStoreOutOfGas
  if op = .CREATE ∧ E.config.homestead ∧ codeStoreOutOfGas then push 0
  else if result.failed ∧ ¬codeStoreOutOfGas then push 0
  else push (setBytes address.bytes)
  addGas result.gasLeft
  if result.reverted then modify fun c ↦ { c with returnData := result.returnValue }

def endCreate : Built Contract → Machine σ Unit
  | .stopped => pure ()
  | .failed contract => do
    push 0
    match contract with
    | some contract => addGas contract.gas
    | none => pure ()
  | .contract contract => do
    returnFromCreate E op contract.address
      (← callHost (E.host.callx { contract with type := .create }))

def opCreate : Machine σ Unit := do
  if E.msg.static then exit .writeProtection
  else if op = .CREATE2 ∧ !E.config.constantinople then exit .opCodeNotFound
  else
    resetReturnData
    buildCreateContract E op >>= endCreate E op

def opHalt : Machine σ Unit := do
  if op = .REVERT ∧ !E.config.byzantium then exit .opCodeNotFound
  else
    let offset ← pop
    let size ← pop
    match ← get2 E offset size with
    | none => modify fun c ↦ { c with ret := [] }
    | some ret =>
      modify fun c ↦ { c with ret := ret }
      if op = .REVERT then exit .executionReverted else halt

end Mainnet.Evm

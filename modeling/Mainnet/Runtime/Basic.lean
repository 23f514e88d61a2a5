import Mainnet.Types.Basic

namespace Mainnet.Runtime

open Types

structure ForksInTime where
  homestead : Bool
  byzantium : Bool
  constantinople : Bool
  petersburg : Bool
  istanbul : Bool
  eip150 : Bool
  eip158 : Bool
  eip155 : Bool
deriving DecidableEq, Inhabited

inductive StorageStatus
  | unchanged
  | modified
  | modifiedAgain
  | added
  | deleted
deriving DecidableEq, Inhabited

/-- The errors of the runtime and of the virtual machine; `other` is any error of a host. -/
inductive RuntimeError
  | outOfGas
  | stackOverflow
  | stackUnderflow
  | notEnoughFunds
  | insufficientBalance
  | maxCodeSizeExceeded
  | contractAddressCollision
  | depth
  | executionReverted
  | codeStoreOutOfGas
  | gasUintOverflow
  | writeProtection
  | invalidJump
  | opCodeNotFound
  | returnDataOutOfBounds
  | other (text : String)
deriving DecidableEq

structure ExecutionResult where
  returnValue : Bytes
  gasLeft : ℕ
  gasUsed : ℕ
  err : Option RuntimeError
deriving DecidableEq

namespace ExecutionResult

variable (r : ExecutionResult)

def succeeded : Bool := r.err.isNone

def failed : Bool := r.err.isSome

def reverted : Bool := r.err = some .executionReverted

end ExecutionResult

inductive CallType
  | call
  | callCode
  | delegateCall
  | staticCall
  | create
  | create2
deriving DecidableEq, Inhabited

structure Contract where
  code : Bytes
  type : CallType
  codeAddress : Address
  address : Address
  origin : Address
  caller : Address
  depth : ℕ
  value : Option ℤ
  input : Bytes
  gas : ℕ
  static : Bool
deriving DecidableEq, Inhabited

-- A contract is a `Call` until its type is set, `Call` being the zero value of `CallType`.
def newContract (depth : ℕ) (origin caller addr : Address) (value : Option ℤ) (gas : ℕ)
    (code : Bytes) : Contract :=
  ⟨code, .call, addr, addr, origin, caller, depth, value, [], gas, false⟩

def newContractCall (depth : ℕ) (origin caller addr : Address) (value : Option ℤ) (gas : ℕ)
    (code input : Bytes) : Contract :=
  { newContract depth origin caller addr value gas code with input := input }

structure TxContext where
  gasPrice : Hash
  origin : Address
  coinbase : Address
  number : ℤ
  timestamp : ℤ
  gasLimit : ℤ
  chainID : ℤ
  difficulty : Hash
deriving DecidableEq, Inhabited

/-- The execution host; every method may change the host's own state. The two methods of its
tracer are methods here, which do nothing where there is no tracer; `captureState` also says
whether the tracer halts the frame. -/
structure Host (σ : Type) where
  accountExists : Address → σ → Bool × σ
  getStorage : Address → Hash → σ → Hash × σ
  setStorage : Address → Hash → Hash → ForksInTime → σ → StorageStatus × σ
  getBalance : Address → σ → ℤ × σ
  getCodeSize : Address → σ → ℤ × σ
  getCodeHash : Address → σ → Hash × σ
  getCode : Address → σ → Bytes × σ
  selfdestruct : Address → Address → σ → Unit × σ
  getTxContext : σ → TxContext × σ
  getBlockHash : ℤ → σ → Hash × σ
  emitLog : Address → List Hash → Bytes → σ → Unit × σ
  callx : Contract → σ → ExecutionResult × σ
  empty : Address → σ → Bool × σ
  getNonce : Address → σ → ℕ × σ
  captureState : Bytes → List ℤ → UInt8 → Address → ℕ → σ → Bool × σ
  executeState : Address → ℕ → UInt8 → ℕ → ℕ → Bytes → ℕ → Option RuntimeError → σ → Unit × σ

end Mainnet.Runtime

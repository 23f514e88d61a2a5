import Mainnet.Evm.Calls
import Mainnet.Lib.Loop

namespace Mainnet.Evm

open Types Mainnet.Runtime Lib

variable {σ : Type}

structure Handler (σ : Type) where
  inst : Machine σ Unit
  stack : ℕ
  gas : ℕ

variable (E : Env σ)

def handler : OpCode → Handler σ
  | .STOP => ⟨opStop, 0, 0⟩
  | .ADD => ⟨opAdd, 2, 3⟩
  | .SUB => ⟨opSub, 2, 3⟩
  | .MUL => ⟨opMul, 2, 5⟩
  | .DIV => ⟨opDiv, 2, 5⟩
  | .SDIV => ⟨opSDiv, 2, 5⟩
  | .MOD => ⟨opMod, 2, 5⟩
  | .SMOD => ⟨opSMod, 2, 5⟩
  | .EXP => ⟨opExp E, 2, 10⟩
  | .PUSH n => ⟨opPush E n, 0, 3⟩
  | .DUP n => ⟨opDup n, 0, 3⟩
  | .SWAP n => ⟨opSwap n, 0, 3⟩
  | .LOG n => ⟨opLog E n, 0, 375⟩
  | .ADDMOD => ⟨opAddMod, 3, 8⟩
  | .MULMOD => ⟨opMulMod, 3, 8⟩
  | .AND => ⟨opAnd, 2, 3⟩
  | .OR => ⟨opOr, 2, 3⟩
  | .XOR => ⟨opXor, 2, 3⟩
  | .BYTE => ⟨opByte, 2, 3⟩
  | .NOT => ⟨opNot, 1, 3⟩
  | .ISZERO => ⟨opIsZero, 1, 3⟩
  | .EQ => ⟨opEq, 2, 3⟩
  | .LT => ⟨opLt, 2, 3⟩
  | .GT => ⟨opGt, 2, 3⟩
  | .SLT => ⟨opSlt, 2, 3⟩
  | .SGT => ⟨opSgt, 2, 3⟩
  | .SIGNEXTEND => ⟨opSignExtension, 1, 5⟩
  | .SHL => ⟨opShl E, 2, 3⟩
  | .SHR => ⟨opShr E, 2, 3⟩
  | .SAR => ⟨opSar E, 2, 3⟩
  | .CREATE => ⟨opCreate E .CREATE, 3, 32000⟩
  | .CREATE2 => ⟨opCreate E .CREATE2, 4, 32000⟩
  | .CALL => ⟨opCall E .CALL, 7, 0⟩
  | .CALLCODE => ⟨opCall E .CALLCODE, 7, 0⟩
  | .DELEGATECALL => ⟨opCall E .DELEGATECALL, 6, 0⟩
  | .STATICCALL => ⟨opCall E .STATICCALL, 6, 0⟩
  | .REVERT => ⟨opHalt E .REVERT, 2, 0⟩
  | .RETURN => ⟨opHalt E .RETURN, 2, 0⟩
  | .MLOAD => ⟨opMload E, 1, 3⟩
  | .MSTORE => ⟨opMStore E, 2, 3⟩
  | .MSTORE8 => ⟨opMStore8 E, 2, 3⟩
  | .SLOAD => ⟨opSload E, 1, 0⟩
  | .SSTORE => ⟨opSStore E, 2, 0⟩
  | .SHA3 => ⟨opSha3 E, 2, 30⟩
  | .POP => ⟨opPop, 1, 2⟩
  | .EXTCODEHASH => ⟨opExtCodeHash E, 1, 0⟩
  | .ADDRESS => ⟨opAddress E, 0, 2⟩
  | .BALANCE => ⟨opBalance E, 1, 0⟩
  | .SELFBALANCE => ⟨opSelfBalance E, 0, 5⟩
  | .ORIGIN => ⟨opOrigin E, 0, 2⟩
  | .CALLER => ⟨opCaller E, 0, 2⟩
  | .CALLVALUE => ⟨opCallValue E, 0, 2⟩
  | .CALLDATALOAD => ⟨opCallDataLoad E, 1, 3⟩
  | .CALLDATASIZE => ⟨opCallDataSize E, 0, 2⟩
  | .CODESIZE => ⟨opCodeSize E, 0, 2⟩
  | .EXTCODESIZE => ⟨opExtCodeSize E, 1, 0⟩
  | .GASPRICE => ⟨opGasPrice E, 0, 2⟩
  | .RETURNDATASIZE => ⟨opReturnDataSize E, 0, 2⟩
  | .CHAINID => ⟨opChainID E, 0, 2⟩
  | .PC => ⟨opPC, 0, 2⟩
  | .MSIZE => ⟨opMSize, 0, 2⟩
  | .GAS => ⟨opGas, 0, 2⟩
  | .EXTCODECOPY => ⟨opExtCodeCopy E, 4, 0⟩
  | .CALLDATACOPY => ⟨opCallDataCopy E, 3, 3⟩
  | .RETURNDATACOPY => ⟨opReturnDataCopy E, 3, 3⟩
  | .CODECOPY => ⟨opCodeCopy E, 3, 3⟩
  | .BLOCKHASH => ⟨opBlockHash E, 1, 20⟩
  | .COINBASE => ⟨opCoinbase E, 0, 2⟩
  | .TIMESTAMP => ⟨opTimestamp E, 0, 2⟩
  | .NUMBER => ⟨opNumber E, 0, 2⟩
  | .DIFFICULTY => ⟨opDifficulty E, 0, 2⟩
  | .GASLIMIT => ⟨opGasLimit E, 0, 2⟩
  | .SELFDESTRUCT => ⟨opSelfDestruct E, 1, 0⟩
  | .JUMP => ⟨opJump E, 1, 8⟩
  | .JUMPI => ⟨opJumpi E, 2, 10⟩
  | .JUMPDEST => ⟨opJumpDest, 0, 1⟩

def captureState (op : UInt8) : Machine σ Unit := do
  let c ← get
  let stack := c.stack.live.reverse ++ c.stack.dead
  if ← callHost (E.host.captureState c.memory.live stack op E.msg.address c.stack.live.length) then
    halt

/-- Both `captureSuccessfulExecution` and `captureExecutionError`. -/
def captureExecution (op : UInt8) (gas : ℕ) : Machine σ Unit := do
  let c ← get
  callHost (E.host.executeState E.msg.address (c.ip % 2 ^ 64).toNat op gas c.currentConsumedGas
    c.returnData E.msg.depth c.err)

def stackSize : ℕ := 1024

def abort (err : RuntimeError) (op : UInt8) (gasCopy : ℕ) : Machine σ Bool := do
  exit err
  captureExecution E op gasCopy
  pure false

def turn : Machine σ Bool := do
  let c ← get
  let gasCopy := c.gas
  if c.ip ≥ E.msg.code.length then
    captureState E 0
    halt
    pure false
  else
    match if c.ip < 0 then none else E.msg.code[c.ip.toNat]? with
    | none => Prog.panic
    | some op =>
      captureState E op
      match (OpCode.ofByte op).map (handler E) with
      | none => abort E .opCodeNotFound op gasCopy
      | some inst =>
        if (← get).stack.live.length < inst.stack then abort E .stackUnderflow op gasCopy
        else if ← consumeGas inst.gas then
          captureExecution E op gasCopy
          inst.inst
          if (← get).stack.live.length > stackSize then
            exit .stackOverflow
            pure false
          else
            modify fun c ↦ { c with ip := c.ip + 1 }
            pure true
        else abort E .outOfGas op gasCopy

structure Pooled where
  memory : Bytes
  bitmap : Bytes

def State.init (pooled : Pooled) (gas : ℕ) (host : σ) : State σ :=
  ⟨0, ⟨[], pooled.memory⟩, 0, ⟨[], []⟩, none, false, gas, 0, [], [], host⟩

def runLoop (fuel : ℕ) (c : State σ) : Loop.Result (State σ) :=
  Loop.loop (fun c ↦ !c.stop) (fun c ↦ turn E c) fuel c

def State.result (msg : Contract) (c : State σ) : ExecutionResult × σ :=
  let gasLeft := if c.err = none ∨ c.err = some .executionReverted then c.gas else 0
  (⟨c.ret, gasLeft, (msg.gas + 2 ^ 64 - gasLeft) % 2 ^ 64, c.err⟩, c.host)

/-- The frame that `EVM.Run` sets up, given the bitmap that `setCode` has made. -/
def frame (L : Library) (H : Host σ) (msg : Contract) (config : ForksInTime) (bitmap : Bytes) :
    Env σ :=
  ⟨L, H, msg, config, bitmap⟩

def run (L : Library) (H : Host σ) (msg : Contract) (config : ForksInTime) (pooled : Pooled)
    (host : σ) (fuel : ℕ) : Loop.Result (ExecutionResult × σ) :=
  match setCode L.grow ⟨[], pooled.bitmap⟩ msg.code with
  | none => .panic
  | some bitmap =>
    (runLoop (frame L H msg config bitmap) fuel (.init pooled msg.gas host)).map (State.result msg)

end Mainnet.Evm

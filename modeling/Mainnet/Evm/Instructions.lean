import Mainnet.Evm.State

namespace Mainnet.Evm

open Types Mainnet.Runtime Lib Word Prog

variable {σ : Type}

/-! Arithmetic and logic -/

def unary (f : ℤ → ℤ) : Machine σ Unit := do
  setTop (f (← top))

def binary (f : ℤ → ℤ → ℤ × ℤ) : Machine σ Unit := do
  let a ← pop
  let b ← top
  setPopped (f a b).1
  setTop (f a b).2

/-- Only the slot of the first operand is scratch; the second is popped after it. -/
def ternary (f : ℤ → ℤ → ℤ → ℤ × ℤ) : Machine σ Unit := do
  let a ← pop
  let b ← pop
  let z ← top
  modify fun c ↦ { c with stack := ⟨(f a b z).2 :: c.stack.live.tail,
    b :: (f a b z).1 :: c.stack.dead.tail.tail⟩ }

def opAdd : Machine σ Unit := binary add

def opMul : Machine σ Unit := binary mul

def opSub : Machine σ Unit := binary sub

def opDiv : Machine σ Unit := binary div

def opSDiv : Machine σ Unit := binary sdiv

def opMod : Machine σ Unit := binary mod

def opSMod : Machine σ Unit := binary smod

def opAddMod : Machine σ Unit := ternary addMod

def opMulMod : Machine σ Unit := ternary mulMod

def opAnd : Machine σ Unit := binary and

def opOr : Machine σ Unit := binary or

def opXor : Machine σ Unit := binary xor

def opByte : Machine σ Unit := binary byte

def opNot : Machine σ Unit := unary not

def opIsZero : Machine σ Unit := unary isZero

def opEq : Machine σ Unit := binary eq

def opLt : Machine σ Unit := binary lt

def opGt : Machine σ Unit := binary gt

def opSlt : Machine σ Unit := binary slt

def opSgt : Machine σ Unit := binary sgt

-- The table asks for one operand only, and a missing second one is the nil that is tested for.
-- `Bit` panics on an index that is negative as an `int`.
def opSignExtension : Machine σ Unit := do
  let ext ← pop
  if ext > 32 ∨ (← get).stack.live = [] then pure ()
  else
    let bit := (uint64 ext * 8 + 7) % 2 ^ 64
    if bit < 2 ^ 63 then unary (signExtend bit) else panic

variable (E : Env σ)

def opExp : Machine σ Unit := do
  let x ← pop
  let y ← top
  let gas := if E.config.eip158 then 50 else 10
  if ← consumeGas ((bitLen y + 7) / 8 * gas) then
    setPopped (exp x y).1
    setTop (exp x y).2

def sinceFork (active : Bool) (inst : Machine σ Unit) : Machine σ Unit :=
  if active then inst else exit .opCodeNotFound

def opShl : Machine σ Unit := sinceFork E.config.constantinople (binary shl)

def opShr : Machine σ Unit := sinceFork E.config.constantinople (binary shr)

def opSar : Machine σ Unit := sinceFork E.config.constantinople (binary sar)

/-! Memory -/

def opMload : Machine σ Unit := do
  let offset ← pop
  match ← get2 E offset 32 with
  | some data => push (setBytes data)
  | none => pure ()

def copyToMemory (lo hi : ℕ) (data : Bytes) : Machine σ Unit := do
  let c ← get
  match c.memory.slice lo hi with
  | some dst => set { c with memory := c.memory.write lo (data.take dst.length) }
  | none => panic

-- The loop fills 32 bytes from their end, a word at a time, and runs out of them on a fifth word.
def opMStore : Machine σ Unit := do
  let offset ← pop
  let val ← pop
  if ← allocateMemory E offset 32 then
    if val.natAbs < 2 ^ 256 then
      copyToMemory (uint64 offset) (uint64 offset + 32) (bigToHash val).bytes
    else panic

def opMStore8 : Machine σ Unit := do
  let offset ← pop
  let val ← pop
  if ← allocateMemory E offset 1 then
    let c ← get
    if uint64 offset < c.memory.len then
      set { c with memory := c.memory.write (uint64 offset) [UInt8.ofNat (uint64 val)] }
    else panic

/-! Storage -/

def opSload : Machine σ Unit := do
  let loc ← top
  let gas := if E.config.istanbul then 800 else if E.config.eip150 then 200 else 50
  if ← consumeGas gas then
    let val ← callHost (E.host.getStorage E.msg.address (bigToHash loc))
    setTop (setBytes val.bytes)

def storageCost (config : ForksInTime) (status : StorageStatus) : ℕ :=
  let legacyGasMetering := !config.istanbul && (config.petersburg || !config.constantinople)
  match status with
  | .unchanged | .modifiedAgain =>
    if config.istanbul then 800 else if legacyGasMetering then 5000 else 200
  | .modified | .deleted => 5000
  | .added => 20000

def opSStore : Machine σ Unit := do
  if E.msg.static then exit .writeProtection
  else if E.config.istanbul && (← get).gas ≤ 2300 then exit .outOfGas
  else
    let key ← popHash
    let val ← popHash
    let status ← callHost (E.host.setStorage E.msg.address key val E.config)
    let _ ← consumeGas (storageCost E.config status)

def opSha3 : Machine σ Unit := do
  let offset ← pop
  let length ← pop
  match ← get2 E offset length with
  | some data =>
    if ← consumeGas ((uint64 length + 31) % 2 ^ 64 / 32 * 6) then
      push (setBytes (E.keccak256 data).bytes)
  | none => pure ()

def opPop : Machine σ Unit := do
  let _ ← pop

/-! Context -/

def opAddress : Machine σ Unit := push (setBytes E.msg.address.bytes)

def opBalance : Machine σ Unit := do
  let addr ← popAddr
  let gas := if E.config.istanbul then 700 else if E.config.eip150 then 400 else 20
  if ← consumeGas gas then push (← callHost (E.host.getBalance addr))

def opSelfBalance : Machine σ Unit :=
  sinceFork E.config.istanbul do push (← callHost (E.host.getBalance E.msg.address))

def opChainID : Machine σ Unit :=
  sinceFork E.config.istanbul do push ((← callHost E.host.getTxContext).chainID % 2 ^ 64)

def opOrigin : Machine σ Unit := do
  push (setBytes (← callHost E.host.getTxContext).origin.bytes)

def opCaller : Machine σ Unit := push (setBytes E.msg.caller.bytes)

def opCallValue : Machine σ Unit := push (E.msg.value.getD 0)

/-- The method `setBytes`: `dst` after `size` bytes of `input` from `dataOffset` on, with zeros
beyond its end, have been put at its beginning. -/
def setSlice (dst input : Bytes) (size : ℕ) (dataOffset : ℤ) : Option Bytes :=
  if !isUint64 dataOffset then
    if size ≤ dst.length then some (List.replicate size 0 ++ dst.drop size) else none
  else
    let start := min (uint64 dataOffset) input.length
    let copySize := min size (input.length - start)
    let copied := ((input.drop start).take copySize).take dst.length
    let dst := copied ++ dst.drop copied.length
    if size ≤ copySize then some dst
    else if size ≤ dst.length then
      some (dst.take copySize ++ List.replicate (size - copySize) 0 ++ dst.drop size)
    else none

def opCallDataLoad : Machine σ Unit := do
  let offset ← top
  match setSlice (List.replicate 32 0) E.msg.input 32 offset with
  | some buf => setTop (setBytes buf)
  | none => panic

def opCallDataSize : Machine σ Unit := push E.msg.input.length

def opCodeSize : Machine σ Unit := push E.msg.code.length

def opExtCodeSize : Machine σ Unit := do
  let addr ← popAddr
  let gas := if E.config.eip150 then 700 else 20
  if ← consumeGas gas then push ((← callHost (E.host.getCodeSize addr)) % 2 ^ 64)

def opGasPrice : Machine σ Unit := do
  push (setBytes (← callHost E.host.getTxContext).gasPrice.bytes)

def opReturnDataSize : Machine σ Unit :=
  sinceFork E.config.byzantium do push (← get).returnData.length

def opExtCodeHash : Machine σ Unit :=
  sinceFork E.config.constantinople do
    let address ← popAddr
    let gas := if E.config.istanbul then 700 else 400
    if ← consumeGas gas then
      if ← callHost (E.host.empty address) then push 0
      else push (setBytes (← callHost (E.host.getCodeHash address)).bytes)

def opPC : Machine σ Unit := do
  push ((← get).ip % 2 ^ 64)

def opMSize : Machine σ Unit := do
  push (← get).memory.len

def opGas : Machine σ Unit := do
  push (← get).gas

/-! Copies to memory -/

def setMemory (memOffset : ℕ) (input : Bytes) (size : ℕ) (dataOffset : ℤ) : Machine σ Unit := do
  let c ← get
  match c.memory.tail memOffset with
  | none => panic
  | some dst =>
    match setSlice dst input size dataOffset with
    | none => panic
    | some dst => set { c with memory := c.memory.write memOffset dst }

def copyCost (size : ℕ) : ℕ := (size + 31) % 2 ^ 64 / 32 * 3

def dataCopy (input : Bytes) : Machine σ Unit := do
  let memOffset ← pop
  let dataOffset ← pop
  let length ← pop
  if ← allocateMemory E memOffset length then
    let size := uint64 length
    if ← consumeGas (copyCost size) then
      if size ≠ 0 then setMemory (uint64 memOffset) input size dataOffset

def opCallDataCopy : Machine σ Unit := dataCopy E E.msg.input

def opCodeCopy : Machine σ Unit := dataCopy E E.msg.code

def opExtCodeCopy : Machine σ Unit := do
  let address ← popAddr
  let memOffset ← pop
  let codeOffset ← pop
  let length ← pop
  if ← allocateMemory E memOffset length then
    let size := uint64 length
    if ← consumeGas (copyCost size) then
      let gas := if E.config.eip150 then 700 else 20
      if ← consumeGas gas then
        let code ← callHost (E.host.getCode address)
        if size ≠ 0 then setMemory (uint64 memOffset) code size codeOffset

-- Unlike the other copies this one also takes the slice of memory when the length is zero.
def opReturnDataCopy : Machine σ Unit :=
  sinceFork E.config.byzantium do
    let memOffset ← pop
    let dataOffset ← pop
    let length ← pop
    if ← allocateMemory E memOffset length then
      if !isUint64 dataOffset then exit .gasUintOverflow
      else if ← consumeGas (copyCost (uint64 length)) then
        let dataEnd := dataOffset + length
        setPopped dataEnd
        let c ← get
        if !isUint64 dataEnd then exit .returnDataOutOfBounds
        else if c.returnData.length < uint64 dataEnd then exit .returnDataOutOfBounds
        else if uint64 dataOffset ≤ uint64 dataEnd then
          let data := (c.returnData.take (uint64 dataEnd)).drop (uint64 dataOffset)
          match c.memory.tail (uint64 memOffset) with
          | none => panic
          | some dst =>
            set { c with memory := c.memory.write (uint64 memOffset) (data.take dst.length) }
        else panic

/-! The block -/

def opBlockHash : Machine σ Unit := do
  let num ← top
  if isInt64 num then
    let lastBlock := (← callHost E.host.getTxContext).number
    if wrapInt64 (lastBlock - 257) < num ∧ num < lastBlock then
      setTop (setBytes (← callHost (E.host.getBlockHash num)).bytes)
    else setTop 0
  else setTop 0

def opCoinbase : Machine σ Unit := do
  push (setBytes (← callHost E.host.getTxContext).coinbase.bytes)

def opTimestamp : Machine σ Unit := do
  push (← callHost E.host.getTxContext).timestamp

def opNumber : Machine σ Unit := do
  push (← callHost E.host.getTxContext).number

def opDifficulty : Machine σ Unit := do
  push (setBytes (← callHost E.host.getTxContext).difficulty.bytes)

def opGasLimit : Machine σ Unit := do
  push (← callHost E.host.getTxContext).gasLimit

def selfDestructCost (address : Address) : Machine σ ℕ := do
  if E.config.eip150 then
    if E.config.eip158 then
      if ← callHost (E.host.empty address) then
        if (← callHost (E.host.getBalance E.msg.address)) ≠ 0 then pure 30000 else pure 5000
      else pure 5000
    else if ← callHost (E.host.accountExists address) then pure 5000
    else pure 30000
  else pure 0

def opSelfDestruct : Machine σ Unit := do
  if E.msg.static then exit .writeProtection
  else
    let address ← popAddr
    if ← consumeGas (← selfDestructCost E address) then
      callHost (E.host.selfdestruct E.msg.address address)
      halt

/-! Control -/

def jumpTo (dest : ℤ) : Machine σ Unit := do
  if ← validJumpdest E dest then modify fun c ↦ { c with ip := (uint64 dest : ℤ) - 1 }
  else exit .invalidJump

def opJump : Machine σ Unit := do
  jumpTo E (← pop)

def opJumpi : Machine σ Unit := do
  let dest ← pop
  let cond ← pop
  if cond ≠ 0 then jumpTo E dest

def opJumpDest : Machine σ Unit := pure ()

-- The data of a push that the code cuts short is filled up with zeros.
def opPush (n : ℕ) : Machine σ Unit := do
  let c ← get
  let ip := c.ip.toNat
  if ip + 1 ≤ E.msg.code.length then
    let data := (E.msg.code.drop (ip + 1)).take n
    if ip + 1 + n > E.msg.code.length then push (setBytes (data ++ List.replicate n 0))
    else push (setBytes data)
    modify fun c ↦ { c with ip := c.ip + n }
  else panic

def opDup (n : ℕ) : Machine σ Unit := do
  if ← stackAtLeast n then push (← peekAt n) else exit .stackUnderflow

def opSwap (n : ℕ) : Machine σ Unit := do
  if ← stackAtLeast (n + 1) then swap n else exit .stackUnderflow

def popTopics : ℕ → Machine σ (List Hash)
  | 0 => pure []
  | n + 1 => do
    let topic ← popHash
    let topics ← popTopics n
    pure (topic :: topics)

def opLog (size : ℕ) : Machine σ Unit := do
  if E.msg.static then exit .writeProtection
  else if ← stackAtLeast (2 + size) then
    let mStart ← pop
    let mSize ← pop
    let topics ← popTopics size
    match ← get2 E mStart mSize with
    | some data =>
      callHost (E.host.emitLog E.msg.address topics data)
      if ← consumeGas (size * 375) then
        let _ ← consumeGas (uint64 mSize * 8 % 2 ^ 64)
    | none => pure ()
  else exit .stackUnderflow

def opStop : Machine σ Unit := halt

end Mainnet.Evm

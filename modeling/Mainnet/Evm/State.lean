import Mainnet.Evm.Word
import Mainnet.Lib.Prog
import Mainnet.Runtime.Basic
import Mainnet.Types.Rlp

namespace Mainnet.Evm

open Types Mainnet.Runtime Lib

/-- A byte slice that owns its array: the bytes up to its length, and those up to its capacity. -/
structure Slice where
  live : Bytes
  spare : Bytes
deriving DecidableEq, Inhabited

namespace Slice

variable (b : Slice)

def len : ℕ := b.live.length

def cap : ℕ := b.live.length + b.spare.length

/-- `b[lo:hi]`, which may reach beyond the length up to the capacity. -/
def slice (lo hi : ℕ) : Option Bytes :=
  if lo ≤ hi ∧ hi ≤ b.cap then some (((b.live ++ b.spare).take hi).drop lo) else none

def tail (lo : ℕ) : Option Bytes := if lo ≤ b.len then some (b.live.drop lo) else none

def write (off : ℕ) (data : Bytes) : Slice :=
  let all := (b.live ++ b.spare).take off ++ data ++ (b.live ++ b.spare).drop (off + data.length)
  ⟨all.take b.len, all.drop b.len⟩

end Slice

def extendByteSlice (grow : ℕ → ℕ → ℕ) (b : Slice) (needLen : ℕ) : Slice :=
  let all := b.live ++ b.spare
  if needLen ≤ all.length then ⟨all.take needLen, all.drop needLen⟩
  else
    ⟨all ++ List.replicate (needLen - all.length) 0,
      List.replicate (grow all.length needLen - needLen) 0⟩

/-- The stack slots below the stack pointer, top first, and those above it, the nearest first. -/
structure Stack where
  live : List ℤ
  dead : List ℤ
deriving DecidableEq, Inhabited

/-- The hash function, and the capacity that `append` gives a slice of some capacity when it has to
hold a number of bytes. -/
structure Library extends Fastrlp where
  keccak256 : Bytes → Hash
  grow : ℕ → ℕ → ℕ

structure Env (σ : Type) extends Library where
  host : Host σ
  msg : Contract
  config : ForksInTime
  bitmap : Bytes

structure State (σ : Type) where
  ip : ℤ
  memory : Slice
  lastGasCost : ℕ
  stack : Stack
  err : Option RuntimeError
  stop : Bool
  gas : ℕ
  currentConsumedGas : ℕ
  returnData : Bytes
  ret : Bytes
  host : σ

abbrev Machine (σ : Type) := Prog (State σ)

variable {σ α : Type}

def exit (err : RuntimeError) : Machine σ Unit :=
  modify fun c ↦ { c with stop := true, err := some err }

def halt : Machine σ Unit := modify fun c ↦ { c with stop := true }

def callHost (method : σ → α × σ) : Machine σ α := do
  let c ← get
  set { c with host := (method c.host).2 }
  pure (method c.host).1

def push (val : ℤ) : Machine σ Unit :=
  modify fun c ↦ { c with stack := ⟨val :: c.stack.live, c.stack.dead.tail⟩ }

-- `pop` and `top` give nil on an empty stack; every use of the result but the two that say so
-- dereferences it, so the empty stack is a panic here.
def pop : Machine σ ℤ := do
  let c ← get
  match c.stack with
  | ⟨val :: live, dead⟩ =>
    set { c with stack := ⟨live, val :: dead⟩ }
    pure val
  | ⟨[], _⟩ => Prog.panic

def top : Machine σ ℤ := do
  match (← get).stack.live with
  | val :: _ => pure val
  | [] => Prog.panic

def setTop (val : ℤ) : Machine σ Unit :=
  modify fun c ↦ { c with stack := { c.stack with live := val :: c.stack.live.tail } }

/-- Overwrites the number that was popped last, which instructions go on using as scratch. -/
def setPopped (val : ℤ) : Machine σ Unit :=
  modify fun c ↦ { c with stack := { c.stack with dead := val :: c.stack.dead.tail } }

def popHash : Machine σ Hash := do
  pure (bigToHash (← pop))

-- The nil of an empty stack is the zero address here.
def popAddr : Machine σ Address := do
  if (← get).stack.live = [] then pure zeroAddress else pure (bigToAddress (← pop))

def stackAtLeast (n : ℕ) : Machine σ Bool := do
  pure (decide (n ≤ (← get).stack.live.length))

def peekAt (n : ℕ) : Machine σ ℤ := do
  match (← get).stack.live[n - 1]? with
  | some val => pure val
  | none => Prog.panic

def swap (n : ℕ) : Machine σ Unit := do
  let c ← get
  match c.stack.live[0]?, c.stack.live[n]? with
  | some a, some b =>
    set { c with stack := { c.stack with live := (c.stack.live.set 0 b).set n a } }
  | _, _ => Prog.panic

def consumeGas (gas : ℕ) : Machine σ Bool := do
  modify fun c ↦ { c with currentConsumedGas := (c.currentConsumedGas + gas) % 2 ^ 64 }
  if (← get).gas < gas then
    exit .outOfGas
    pure false
  else
    modify fun c ↦ { c with gas := c.gas - gas }
    pure true

def addGas (gas : ℕ) : Machine σ Unit :=
  modify fun c ↦ { c with gas := (c.gas + gas) % 2 ^ 64 }

def resetReturnData : Machine σ Unit := modify fun c ↦ { c with returnData := [] }

def memoryCost (w : ℕ) : ℕ := 3 * w + w * w % 2 ^ 64 / 512

variable (E : Env σ)

def allocateMemory (offset size : ℤ) : Machine σ Bool := do
  if !isUint64 offset || !isUint64 size then
    exit .gasUintOverflow
    pure false
  else if size = 0 then pure true
  else if uint64 offset > 0xffffffffe0 ∨ uint64 size > 0xffffffffe0 then
    exit .gasUintOverflow
    pure false
  else
    let newSize := uint64 offset + uint64 size
    let c ← get
    if c.memory.len < newSize then
      let w := (newSize + 31) / 32
      let newCost := memoryCost w
      modify fun c ↦ { c with lastGasCost := newCost }
      if ← consumeGas ((newCost + 2 ^ 64 - c.lastGasCost) % 2 ^ 64) then
        modify fun c ↦ { c with memory := extendByteSlice E.grow c.memory (w * 32) }
        pure true
      else
        exit .outOfGas
        pure false
    else pure true

def get2 (offset length : ℤ) : Machine σ (Option Bytes) := do
  if length = 0 then pure (some [])
  else if ← allocateMemory E offset length then
    match (← get).memory.slice (uint64 offset) (uint64 offset + uint64 length) with
    | some data => pure (some data)
    | none => Prog.panic
  else pure none

def isSet (bitmap : Bytes) (i : ℕ) : Option Bool :=
  bitmap[i / 8]?.map fun b ↦ b.toNat.testBit (i % 8)

def setBit (bitmap : Bytes) (i : ℕ) : Option Bytes :=
  bitmap[i / 8]?.map fun b ↦ bitmap.set (i / 8) (UInt8.ofNat (b.toNat ||| 1 <<< (i % 8)))

def isPushOp (i : UInt8) : Bool := i >>> 5 == 3

/-- The scan of `setCode` from position `i`, where `code` is what is left. The first argument bounds
the number of turns, and the length of the code is enough. -/
def markJumpdests : ℕ → Bytes → ℕ → Bytes → Option Bytes
  | fuel + 1, c :: code, i, bitmap =>
    if isPushOp c then
      let skip := c.toNat - 0x60 + 2
      markJumpdests fuel (code.drop (skip - 1)) (i + skip) bitmap
    else if c = 0x5b then
      (setBit bitmap i).bind (markJumpdests fuel code (i + 1))
    else markJumpdests fuel code (i + 1) bitmap
  | _, _, _, bitmap => some bitmap

def setCode (grow : ℕ → ℕ → ℕ) (buf : Slice) (code : Bytes) : Option Bytes :=
  markJumpdests code.length code 0 (extendByteSlice grow buf (code.length / 8 + 1)).live

def validJumpdest (dest : ℤ) : Machine σ Bool := do
  if bitLen dest ≥ 63 ∨ uint64 dest ≥ E.msg.code.length then pure false
  else
    match isSet E.bitmap (uint64 dest) with
    | some b => pure b
    | none => Prog.panic

end Mainnet.Evm

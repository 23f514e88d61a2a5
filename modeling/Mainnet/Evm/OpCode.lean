import Mainnet.Types.Basic

namespace Mainnet.Evm

/-- The opcodes of the machine. `PUSH`, `DUP` and `SWAP` count from one, `LOG` from zero. -/
inductive OpCode
  | STOP | ADD | MUL | SUB | DIV | SDIV | MOD | SMOD | ADDMOD | MULMOD | EXP | SIGNEXTEND | LT
  | GT | SLT | SGT | EQ | ISZERO | AND | OR | XOR | NOT | BYTE | SHL | SHR | SAR | SHA3 | ADDRESS
  | BALANCE | ORIGIN | CALLER | CALLVALUE | CALLDATALOAD | CALLDATASIZE | CALLDATACOPY | CODESIZE
  | CODECOPY | GASPRICE | EXTCODESIZE | EXTCODECOPY | RETURNDATASIZE | RETURNDATACOPY
  | EXTCODEHASH | BLOCKHASH | COINBASE | TIMESTAMP | NUMBER | DIFFICULTY | GASLIMIT | CHAINID
  | SELFBALANCE | POP | MLOAD | MSTORE | MSTORE8 | SLOAD | SSTORE | JUMP | JUMPI | PC | MSIZE
  | GAS | JUMPDEST | CREATE | CALL | CALLCODE | RETURN | DELEGATECALL | CREATE2 | STATICCALL
  | REVERT | SELFDESTRUCT
  | PUSH (n : ℕ) | DUP (n : ℕ) | SWAP (n : ℕ) | LOG (n : ℕ)
deriving DecidableEq

def OpCode.ofByte (b : UInt8) : Option OpCode :=
  let op := b.toNat
  if 0x60 ≤ op ∧ op ≤ 0x7f then some (.PUSH (op - 0x60 + 1))
  else if 0x80 ≤ op ∧ op ≤ 0x8f then some (.DUP (op - 0x80 + 1))
  else if 0x90 ≤ op ∧ op ≤ 0x9f then some (.SWAP (op - 0x90 + 1))
  else if 0xa0 ≤ op ∧ op ≤ 0xa4 then some (.LOG (op - 0xa0))
  else
    match op with
    | 0x00 => some .STOP
    | 0x01 => some .ADD
    | 0x02 => some .MUL
    | 0x03 => some .SUB
    | 0x04 => some .DIV
    | 0x05 => some .SDIV
    | 0x06 => some .MOD
    | 0x07 => some .SMOD
    | 0x08 => some .ADDMOD
    | 0x09 => some .MULMOD
    | 0x0a => some .EXP
    | 0x0b => some .SIGNEXTEND
    | 0x10 => some .LT
    | 0x11 => some .GT
    | 0x12 => some .SLT
    | 0x13 => some .SGT
    | 0x14 => some .EQ
    | 0x15 => some .ISZERO
    | 0x16 => some .AND
    | 0x17 => some .OR
    | 0x18 => some .XOR
    | 0x19 => some .NOT
    | 0x1a => some .BYTE
    | 0x1b => some .SHL
    | 0x1c => some .SHR
    | 0x1d => some .SAR
    | 0x20 => some .SHA3
    | 0x30 => some .ADDRESS
    | 0x31 => some .BALANCE
    | 0x32 => some .ORIGIN
    | 0x33 => some .CALLER
    | 0x34 => some .CALLVALUE
    | 0x35 => some .CALLDATALOAD
    | 0x36 => some .CALLDATASIZE
    | 0x37 => some .CALLDATACOPY
    | 0x38 => some .CODESIZE
    | 0x39 => some .CODECOPY
    | 0x3a => some .GASPRICE
    | 0x3b => some .EXTCODESIZE
    | 0x3c => some .EXTCODECOPY
    | 0x3d => some .RETURNDATASIZE
    | 0x3e => some .RETURNDATACOPY
    | 0x3f => some .EXTCODEHASH
    | 0x40 => some .BLOCKHASH
    | 0x41 => some .COINBASE
    | 0x42 => some .TIMESTAMP
    | 0x43 => some .NUMBER
    | 0x44 => some .DIFFICULTY
    | 0x45 => some .GASLIMIT
    | 0x46 => some .CHAINID
    | 0x47 => some .SELFBALANCE
    | 0x50 => some .POP
    | 0x51 => some .MLOAD
    | 0x52 => some .MSTORE
    | 0x53 => some .MSTORE8
    | 0x54 => some .SLOAD
    | 0x55 => some .SSTORE
    | 0x56 => some .JUMP
    | 0x57 => some .JUMPI
    | 0x58 => some .PC
    | 0x59 => some .MSIZE
    | 0x5a => some .GAS
    | 0x5b => some .JUMPDEST
    | 0xf0 => some .CREATE
    | 0xf1 => some .CALL
    | 0xf2 => some .CALLCODE
    | 0xf3 => some .RETURN
    | 0xf4 => some .DELEGATECALL
    | 0xf5 => some .CREATE2
    | 0xfa => some .STATICCALL
    | 0xfd => some .REVERT
    | 0xff => some .SELFDESTRUCT
    | _ => none

end Mainnet.Evm

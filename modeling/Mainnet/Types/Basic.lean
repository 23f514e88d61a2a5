import Mathlib.Data.List.TakeWhile
import Mathlib.Tactic.Linarith

namespace Mainnet.Types

open List

abbrev Bytes := List UInt8

structure FixedBytes (n : ℕ) where
  bytes : Bytes
  length_eq : bytes.length = n
deriving DecidableEq

namespace FixedBytes

variable {n : ℕ}

@[ext] theorem ext {a b : FixedBytes n} (h : a.bytes = b.bytes) : a = b := by
  cases a; cases b; simpa using h

def zero (n : ℕ) : FixedBytes n := ⟨replicate n 0, by simp⟩

instance : Inhabited (FixedBytes n) := ⟨zero n⟩

/-- The last `n` bytes of `b`, padded with zeros on the left. -/
def ofBytes (n : ℕ) (b : Bytes) : FixedBytes n where
  bytes := replicate (n - min b.length n) 0 ++ b.drop (b.length - min b.length n)
  length_eq := by
    rw [length_append, length_replicate, length_drop]
    omega

theorem ofBytes_bytes (a : FixedBytes n) : ofBytes n a.bytes = a := by
  apply ext
  simp [ofBytes, a.length_eq]

theorem ofBytes_dropWhile (a : FixedBytes n) : ofBytes n (a.bytes.dropWhile (· = 0)) = a := by
  have hsplit := takeWhile_append_dropWhile (p := (· = 0)) (l := a.bytes)
  have hzero : a.bytes.takeWhile (· = 0) =
      replicate (a.bytes.takeWhile (· = 0)).length 0 :=
    eq_replicate_of_mem fun b hb ↦ by simpa using mem_takeWhile_imp hb
  have hlen := congrArg length hsplit
  rw [length_append, a.length_eq] at hlen
  apply ext
  dsimp only [ofBytes]
  rw [Nat.min_eq_left (by omega), Nat.sub_self, drop_zero]
  nth_rewrite 3 [← hsplit]
  rw [hzero, Nat.sub_eq_of_eq_add hlen.symm]

end FixedBytes

abbrev Hash := FixedBytes 32
abbrev Address := FixedBytes 20
abbrev Nonce := FixedBytes 8
abbrev Bloom := FixedBytes 256

def zeroHash : Hash := FixedBytes.zero 32
def zeroAddress : Address := FixedBytes.zero 20

def bytesToHash (b : Bytes) : Hash := FixedBytes.ofBytes 32 b
def bytesToAddress (b : Bytes) : Address := FixedBytes.ofBytes 20 b

structure Header where
  parentHash : Hash
  sha3Uncles : Hash
  miner : Bytes
  stateRoot : Hash
  txRoot : Hash
  receiptsRoot : Hash
  logsBloom : Bloom
  difficulty : ℕ
  number : ℕ
  gasLimit : ℕ
  gasUsed : ℕ
  timestamp : ℕ
  extraData : Bytes
  mixHash : Hash
  nonce : Nonce
  hash : Hash
deriving DecidableEq, Inhabited

structure Transaction where
  nonce : ℕ
  gasPrice : ℕ
  gas : ℕ
  toAddr : Option Address
  value : ℕ
  input : Bytes
  v : ℕ
  r : ℕ
  s : ℕ
  hash : Hash
  fromAddr : Address
deriving DecidableEq, Inhabited

def Transaction.exceedsBlockGasLimit (t : Transaction) (blockGasLimit : ℕ) : Bool :=
  decide (t.gas > blockGasLimit)

structure Block where
  header : Header
  transactions : List Transaction
  uncles : List Header
deriving DecidableEq, Inhabited

end Mainnet.Types

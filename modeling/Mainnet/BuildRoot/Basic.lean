import Mainnet.Itrie.Map

namespace Mainnet.BuildRoot

open Types Lib Itrie

structure FastHasher where
  k : Bytes
  dst : Bytes
  buf : Bytes
  buf2 : Bytes
deriving DecidableEq

def newFastHasher : FastHasher := ⟨[], [], [], []⟩

def reset (_ : FastHasher) : FastHasher := ⟨[], [], [], []⟩

def leafVal : Bytes := [0x20]
def rlpEmptyValue : Bytes := [0x80]
def rlpHashPrefix : Bytes := [0xa0]
def zeroKey : Bytes := [0x30]
def oneKey : Bytes := [0x31]
def singleKey : Bytes := [0x82, 0x20, 0x80]

def intsize (val : ℕ) : ℕ :=
  if val < 2 ^ 8 then 1
  else if val < 2 ^ 16 then 2
  else if val < 2 ^ 24 then 3
  else if val < 2 ^ 32 then 4
  else if val < 2 ^ 40 then 5
  else if val < 2 ^ 48 then 6
  else if val < 2 ^ 56 then 7
  else 8

def getRlpSize (size : ℕ) : ℕ := if size < 56 then 1 else intsize size + 1

def marshalRlpSize (dst : Bytes) (size : ℕ) (short long : UInt8) : Bytes :=
  if size < 56 then dst ++ [short + UInt8.ofNat size]
  else dst ++ [long + UInt8.ofNat (intsize size)] ++
    (BigEndian.putUint64 size).drop (8 - intsize size)

def marshalItemRlpSize (dst : Bytes) (size : ℕ) : Bytes := marshalRlpSize dst size 0x80 0xb7

def marshalListRlpSize (dst : Bytes) (size : ℕ) : Bytes := marshalRlpSize dst size 0xc0 0xf7

section Fast

variable (K : Keccak) (num : ℕ) (cb : ℕ → Bytes)

def getCb (i : ℕ) : Option Bytes :=
  if i > num then none
  else if (cb i).length < 32 then none
  else some (cb i)

namespace FastHasher

variable (f : FastHasher)

def hash (dst b : Bytes) : Bytes × FastHasher :=
  (dst ++ (K.keccak256 (f.k ++ b)).bytes, { f with k := [] })

def encodeOneItem : Option Bytes × FastHasher :=
  match getCb num cb 0 with
  | none => (none, f)
  | some val =>
    let n := getRlpSize val.length
    let buf2 := marshalListRlpSize [] (n + val.length + singleKey.length)
    let buf2 := marshalItemRlpSize (buf2 ++ singleKey) val.length ++ val
    let (dst, f) := { f with buf2 := buf2 }.hash K f.dst buf2
    (some dst, { f with dst := dst })

def encodeSingle (dst v : Bytes) (b : Bool) : Bytes × FastHasher :=
  let n := getRlpSize v.length
  let buf2 := marshalListRlpSize [] (n + v.length + 1)
  let buf2 := buf2 ++ if b then oneKey else zeroKey
  let buf2 := marshalItemRlpSize buf2 v.length ++ v
  { f with buf2 := buf2 }.hash K dst buf2

def groupItem (f : FastHasher) (i : ℕ) : Bool × FastHasher :=
  match getCb num cb i with
  | none => (false, f)
  | some val =>
    let f := { f with buf := f.buf ++ rlpHashPrefix }
    let n := getRlpSize val.length
    let buf2 := marshalListRlpSize [] (n + 1 + val.length)
    let buf2 := marshalItemRlpSize (buf2 ++ leafVal) val.length ++ val
    let (buf, f) := { f with buf2 := buf2 }.hash K f.buf buf2
    (true, { f with buf := buf })

def groupItems : FastHasher → List ℕ → Bool × FastHasher
  | f, [] => (true, f)
  | f, i :: is =>
    match groupItem K num cb f i with
    | (false, f) => (false, f)
    | (true, f) => groupItems f is

def groupPadding (start num : ℕ) : ℕ :=
  if num < 16 then (if start ≠ 1 then 16 else 15) - num else 0

def deriveGroup (dst : Bytes) (start stop : ℕ) : Option Bytes × FastHasher :=
  let f := { f with buf := [] }
  if stop - start = 1 then
    match getCb num cb start with
    | none => (none, f)
    | some val =>
      let (dst, f) := f.encodeSingle K dst val (start == 1)
      (some dst, f)
  else
    let f := if start = 1 then { f with buf := f.buf ++ rlpEmptyValue } else f
    match groupItems K num cb f (List.range' start (stop - start)) with
    | (false, f) => (none, f)
    | (true, f) =>
      let buf := f.buf ++
        (List.replicate (groupPadding start (stop - start)) rlpEmptyValue).flatten ++ rlpEmptyValue
      let buf2 := marshalListRlpSize [] buf.length ++ buf
      let (dst, f) := { f with buf := buf, buf2 := buf2 }.hash K dst buf2
      (some dst, f)

/-- The loop over the groups of sixteen; `false` is the early return. -/
def deriveGroups (step1 : ℕ) : FastHasher → List ℕ → Bool × FastHasher
  | f, [] => (true, f)
  | f, i :: is =>
    let ini := if i = 0 then 1 else i
    match f.deriveGroup K num cb (f.dst ++ rlpHashPrefix) ini (min step1 (i + 16)) with
    | (none, f) => (false, { f with dst := [] })
    | (some dst, f) => deriveGroups step1 { f with dst := dst } is

def Hash : Option Bytes × FastHasher :=
  if num = 1 then f.encodeOneItem K num cb
  else
    let step1 := min num 128
    match f.deriveGroups K num cb step1 (List.range' 0 ((step1 + 15) / 16) 16) with
    | (false, f) => (none, f)
    | (true, f) =>
      let dst := f.dst ++ (List.replicate ((128 - step1) / 16) rlpEmptyValue).flatten
      match getCb num cb 0 with
      | none => (none, { f with dst := dst ++ rlpHashPrefix })
      | some val =>
        let (dst, f) := f.encodeSingle K (dst ++ rlpHashPrefix) val false
        let dst := dst ++ (List.replicate 8 rlpEmptyValue).flatten
        let buf2 := marshalListRlpSize [] dst.length ++ dst
        let (dst, f) := { f with buf2 := buf2 }.hash K [] buf2
        (some dst, { f with dst := dst })

end FastHasher

variable (fuel : ℕ)

def slowOps : List Op := (List.range num).map fun i ↦ .insert (K.marshal (Rlp.newUint i)) (cb i)

def deriveSlow : Outcome DecodeError Hash := do
  let txn ← newTrie.txn.run K fuel [] (slowOps K num cb)
  let (root, _, _) ← txn.hash K
  .ok root

abbrev Pool := List FastHasher

/-- A pool hands out any of its hashers, or none and a new one is made. -/
def acquireFastHasher (pool : Pool) (pick : Option ℕ) : FastHasher × Pool :=
  match pick with
  | none => (newFastHasher, pool)
  | some i =>
    match pool[i]? with
    | none => (newFastHasher, pool)
    | some f => (f, pool.eraseIdx i)

def releaseFastHasher (pool : Pool) (f : FastHasher) : Pool := reset f :: pool

def calculateRoot (pool : Pool) (pick : Option ℕ) : Outcome DecodeError Hash × Pool :=
  if num = 0 then (.ok emptyRoot, pool)
  else if num ≤ 128 then
    let (fastH, pool) := acquireFastHasher pool pick
    let (dst, fastH) := fastH.Hash K num cb
    let pool := releaseFastHasher pool fastH
    match dst with
    | some dst => (.ok (bytesToHash dst), pool)
    | none => (deriveSlow K num cb fuel, pool)
  else (deriveSlow K num cb fuel, pool)

end Fast

end Mainnet.BuildRoot

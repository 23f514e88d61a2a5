import Mainnet.Lib.Outcome
import Mainnet.Lib.Reader
import Mainnet.Types.Unmarshal

namespace Mainnet.Archive

open Types Types.Rlp Lib

structure Metadata where
  latest : ℕ
  latestHash : Hash
deriving DecidableEq

def Metadata.marshalRLPWith (m : Metadata) : Value :=
  .array [newUint m.latest, newFixed m.latestHash]

def Metadata.marshalRLP (R : Fastrlp) (m : Metadata) : Bytes := R.marshal m.marshalRLPWith

def Metadata.unmarshalRLPFrom (v : Value) : Except UnmarshalError Metadata := do
  let elems ← fetch (getElems v)
  match elems with
  | e0 :: e1 :: _ =>
    let latest ← fetch (getUint64 e0)
    let latestHash ← fetch (getHash e1)
    .ok { latest, latestHash }
  | _ => .error (.elements "Metadata, expected 2" elems.length)

def Metadata.unmarshalRLP (R : Fastrlp) : Bytes → Except UnmarshalError Metadata :=
  unmarshalRlp R unmarshalRLPFrom

inductive StreamError
  | eof
  | expectedArray
  | unmarshal (e : UnmarshalError)
deriving DecidableEq

/-- The input and the memory of `buffer` up to its capacity. -/
structure BlockStream where
  input : Reader
  buffer : Bytes

def newBlockStream (input : Reader) : BlockStream := ⟨input, List.replicate 1024 0⟩

namespace BlockStream

variable (maxAlloc : ℕ) (b : BlockStream)

/-- `Read` into `buffer[offset : offset+size]`; the places it does not fill keep their bytes. -/
def readInto (offset size : ℕ) : BlockStream :=
  ⟨b.input.after size, b.buffer.take offset ++ b.input.data size ++
    b.buffer.drop (offset + b.input.count size)⟩

def loadRLPPrefix : Option UInt8 × BlockStream :=
  let b' := b.readInto 0 1
  if b.input.eof 1 then (none, b') else (some (b'.buffer.headD 0), b')

/-- `maxAlloc` is the largest slice that the runtime can make. From `2 ^ 63` on the size is negative
as an `int64`, and the buffer is cut at a place it does not have. -/
def reserveCap (size : ℕ) : Outcome StreamError BlockStream :=
  if 2 ^ 63 ≤ size then .panic
  else if b.buffer.length < size then
    if maxAlloc < size - b.buffer.length then .panic
    else .ok { b with buffer := b.buffer ++ List.replicate (size - b.buffer.length) 0 }
  else .ok b

def loadPrefixSize (offset : ℕ) (tag : UInt8) : Outcome StreamError ((ℕ × ℕ) × BlockStream) :=
  if 0xc0 ≤ tag ∧ tag ≤ 0xf7 then .ok ((1, tag.toNat - 0xc0), b)
  else if 0xf8 ≤ tag then do
    let payloadSizeSize := tag.toNat - 0xf7
    let b ← b.reserveCap maxAlloc (offset + payloadSizeSize)
    let b' := b.readInto offset payloadSizeSize
    if b.input.eof payloadSizeSize then .error .eof
    else if b.input.count payloadSizeSize < payloadSizeSize then .error .eof
    else
      let payloadSizeBytes := (b'.buffer.drop offset).take payloadSizeSize
      .ok ((payloadSizeSize + 1, BigEndian.ofBytes payloadSizeBytes), b')
  else .error .expectedArray

def loadPayload (offset size : ℕ) : Outcome StreamError BlockStream := do
  let total := (offset + size) % 2 ^ 64
  let b ← b.reserveCap maxAlloc total
  if total < offset then .panic
  else if b.input.eof size then .error .eof
  else .ok (b.readInto offset size)

def loadRLPArray : Outcome StreamError (ℕ × BlockStream) :=
  match b.loadRLPPrefix with
  | (none, b) => .ok (0, b)
  | (some tag, b) => do
    let ((headerSize, payloadSize), b) ← b.loadPrefixSize maxAlloc 1 tag
    let b ← b.loadPayload maxAlloc headerSize payloadSize
    .ok ((headerSize + payloadSize) % 2 ^ 64, b)

def loadItem : Outcome StreamError (Option Bytes × BlockStream) := do
  let (size, b) ← b.loadRLPArray maxAlloc
  if size = 0 then .ok (none, b) else .ok (some (b.buffer.take size), b)

def next {α : Type} (parse : Bytes → Except UnmarshalError α) :
    Outcome StreamError (Option α × BlockStream) := do
  let (data, b) ← b.loadItem maxAlloc
  match data.map parse with
  | none => .ok (none, b)
  | some (.ok value) => .ok (some value, b)
  | some (.error e) => .error (.unmarshal e)

variable (C : Codec)

def getMetadata : Outcome StreamError (Option Metadata × BlockStream) :=
  b.next maxAlloc (Metadata.unmarshalRLP C.toFastrlp)

def nextBlock : Outcome StreamError (Option Block × BlockStream) :=
  b.next maxAlloc (Block.unmarshalRLP C)

def nextBlocks : ℕ → BlockStream → List (Outcome StreamError (Option Block))
  | 0, _ => []
  | n + 1, b =>
    match b.nextBlock maxAlloc C with
    | .ok (block, b) => .ok block :: nextBlocks n b
    | .error e => [.error e]
    | .panic => [.panic]

def results (n : ℕ) :
    Outcome StreamError (Option Metadata) × List (Outcome StreamError (Option Block)) :=
  match b.getMetadata maxAlloc C with
  | .ok (metadata, b) => (.ok metadata, nextBlocks maxAlloc C n b)
  | .error e => (.error e, [])
  | .panic => (.panic, [])

end BlockStream

def decodeItem (bytes : Bytes) : Outcome StreamError (Option Bytes × Bytes) :=
  match bytes with
  | [] => .ok (none, [])
  | d :: _ =>
    if d < 0xc0 then .error .expectedArray
    else
      match Rlp.split bytes with
      | none => .error .eof
      | some (_, _, rest) => .ok (some (bytes.take (bytes.length - rest.length)), rest)

def parseItem {α : Type} (parse : Bytes → Except UnmarshalError α) :
    Option Bytes × Bytes → Outcome StreamError (Option α × Bytes)
  | (none, rest) => .ok (none, rest)
  | (some data, rest) =>
    match parse data with
    | .ok value => .ok (some value, rest)
    | .error e => .error (.unmarshal e)

def decodeNext {α : Type} (parse : Bytes → Except UnmarshalError α) (bytes : Bytes) :
    Outcome StreamError (Option α × Bytes) :=
  decodeItem bytes >>= parseItem parse

def decodeBlocks (C : Codec) : ℕ → Bytes → List (Outcome StreamError (Option Block))
  | 0, _ => []
  | n + 1, bytes =>
    match decodeNext (Block.unmarshalRLP C) bytes with
    | .ok (block, rest) => .ok block :: decodeBlocks C n rest
    | .error e => [.error e]
    | .panic => [.panic]

def decodeArchive (C : Codec) (n : ℕ) (bytes : Bytes) :
    Outcome StreamError (Option Metadata) × List (Outcome StreamError (Option Block)) :=
  match decodeNext (Metadata.unmarshalRLP C.toFastrlp) bytes with
  | .ok (metadata, rest) => (.ok metadata, decodeBlocks C n rest)
  | .error e => (.error e, [])
  | .panic => (.panic, [])

theorem decodeItem_array {d : UInt8} (hd : 0xc0 ≤ d) {rest : Bytes} {n : ℕ} {p : Bytes}
    (hsplit : Rlp.split (d :: rest) =
      if n ≤ rest.length then some (true, p, rest.drop n) else none) :
    decodeItem (d :: rest) =
      if n ≤ rest.length then .ok (some (d :: rest.take n), rest.drop n) else .error .eof := by
  by_cases hn : n ≤ rest.length
  · rw [if_pos hn] at hsplit ⊢
    have hlen : (d :: rest).length - (rest.drop n).length = n + 1 := by
      rw [List.length_cons, List.length_drop]
      omega
    simp only [decodeItem, if_neg (UInt8.not_lt.mpr hd), hsplit, hlen, List.take_succ_cons]
  · rw [if_neg hn] at hsplit ⊢
    simp only [decodeItem, if_neg (UInt8.not_lt.mpr hd), hsplit]

theorem decodeItem_short {d : UInt8} (hd : 0xc0 ≤ d) (hd' : d < 0xf8) (rest : Bytes) :
    decodeItem (d :: rest) =
      if d.toNat - 0xc0 ≤ rest.length then
        .ok (some (d :: rest.take (d.toNat - 0xc0)), rest.drop (d.toNat - 0xc0))
      else .error .eof := by
  have h1 : ¬ d < 0x80 := UInt8.not_lt.mpr (UInt8.le_trans (by decide) hd)
  have h2 : ¬ d < 0xb8 := UInt8.not_lt.mpr (UInt8.le_trans (by decide) hd)
  apply decodeItem_array hd (p := rest.take (d.toNat - 0xc0))
  simp only [Rlp.split, if_neg h1, if_neg h2, if_neg (UInt8.not_lt.mpr hd), if_pos hd']

theorem decodeItem_long {d : UInt8} (hd : 0xf8 ≤ d) (rest : Bytes) :
    decodeItem (d :: rest) =
      let n := d.toNat - 0xf7 + BigEndian.ofBytes (rest.take (d.toNat - 0xf7))
      if n ≤ rest.length then .ok (some (d :: rest.take n), rest.drop n) else .error .eof := by
  have h1 : ¬ d < 0x80 := UInt8.not_lt.mpr (UInt8.le_trans (by decide) hd)
  have h2 : ¬ d < 0xb8 := UInt8.not_lt.mpr (UInt8.le_trans (by decide) hd)
  have h3 : ¬ d < 0xc0 := UInt8.not_lt.mpr (UInt8.le_trans (by decide) hd)
  apply decodeItem_array (UInt8.not_lt.mp h3) (p := (rest.drop (d.toNat - 0xf7)).take
    (BigEndian.ofBytes (rest.take (d.toNat - 0xf7))))
  simp only [Rlp.split, if_neg h1, if_neg h2, if_neg h3, if_neg (UInt8.not_lt.mpr hd)]

end Mainnet.Archive

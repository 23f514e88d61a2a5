import Mainnet.Lib.BigEndian

namespace Mainnet.Lib.Rlp

/-- An RLP item. Null values are the empty byte string and the empty array. -/
inductive Item
  | bytes (b : List UInt8)
  | array (elems : List Item)
deriving Inhabited

/-- The length header of a payload; `offset` is `0x80` for strings and `0xc0` for lists. -/
def header (offset : ℕ) (payload : List UInt8) : List UInt8 :=
  if payload.length < 56 then [UInt8.ofNat (offset + payload.length)]
  else
    let size := BigEndian.toBytes payload.length
    UInt8.ofNat (offset + 55 + size.length) :: size

def encodeBytes (b : List UInt8) : List UInt8 :=
  match b with
  | [d] => if d < 0x80 then [d] else header 0x80 b ++ b
  | _ => header 0x80 b ++ b

mutual

def encode : Item → List UInt8
  | .bytes b => encodeBytes b
  | .array elems => header 0xc0 (encodeElems elems) ++ encodeElems elems

def encodeElems : List Item → List UInt8
  | [] => []
  | e :: es => encode e ++ encodeElems es

end

def split (b : List UInt8) : Option (Bool × List UInt8 × List UInt8) :=
  match b with
  | [] => none
  | d :: rest =>
    let short (isList : Bool) (size : ℕ) :=
      if size ≤ rest.length then some (isList, rest.take size, rest.drop size) else none
    let long (isList : Bool) (width : ℕ) :=
      let size := BigEndian.ofBytes (rest.take width)
      if width + size ≤ rest.length then
        some (isList, (rest.drop width).take size, rest.drop (width + size)) else none
    if d < 0x80 then some (false, [d], rest)
    else if d < 0xb8 then short false (d.toNat - 0x80)
    else if d < 0xc0 then long false (d.toNat - 0xb7)
    else if d < 0xf8 then short true (d.toNat - 0xc0)
    else long true (d.toNat - 0xf7)

def decodeElems : ℕ → List UInt8 → Option (List Item)
  | _, [] => some []
  | 0, _ :: _ => none
  | fuel + 1, b => do
    let (isList, payload, rest) ← split b
    let item ← if isList then (decodeElems fuel payload).map .array else some (.bytes payload)
    let items ← decodeElems fuel rest
    return item :: items

def decode (b : List UInt8) : Option Item :=
  match decodeElems b.length b with
  | some [item] => some item
  | _ => none

end Mainnet.Lib.Rlp

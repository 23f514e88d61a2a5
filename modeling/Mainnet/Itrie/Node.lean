import Mainnet.Lib.Outcome
import Mainnet.Lib.PatriciaEdit
import Mainnet.Itrie.Encoding
import Mainnet.Types.Rlp

namespace Mainnet.Itrie

open Types Lib Function Rlp

/-- A node of the trie. A cached hash is the empty slice while it is not set; the edges of a full
node are its sixteen children and, at the terminator, its value. -/
inductive Node
  | nil
  | value (hash : Bool) (buf : Bytes)
  | short (hash : Bytes) (key : List Nibble) (child : Node)
  | full (hash : Bytes) (epoch : UInt32) (edges : Nibble → Node)
deriving Inhabited

namespace Node

def isNil : Node → Bool
  | .nil => true
  | _ => false

def isRef : Node → Bool
  | .value hash _ => hash
  | _ => false

end Node

def noEdges : Nibble → Node := fun _ ↦ .nil

abbrev Storage := List (Bytes × Bytes)

def Storage.get (s : Storage) (k : Bytes) : Option Bytes := s.lookup k

inductive DecodeError
  | parse
  | itemNotArray
  | shortKeyNotBytes
  | shortLeafNotBytes
  | fullValueNotBytes
  | leafCount
deriving DecidableEq

def decodeShort (key val : Value) (child : Outcome DecodeError Node) : Outcome DecodeError Node :=
  match key with
  | .array _ => .error .shortKeyNotBytes
  | .bytes compact =>
    match decodeCompact compact with
    | none => .panic
    | some key =>
      if hasTerminator key then
        match val with
        | .array _ => .error .shortLeafNotBytes
        | .bytes v => .ok (.short [] key (.value false v))
      else child.map (.short [] key)

def decodeValue : Value → Outcome DecodeError Node
  | .array _ => .error .fullValueNotBytes
  | .bytes [] => .ok .nil
  | .bytes v => .ok (.value false v)

def decodeChild (v : Value) (child : Outcome DecodeError Node) : Outcome DecodeError Node :=
  match v with
  | .bytes [] => .ok .nil
  | _ => child

def decodeElems (elems : List Value) (nodes : List (Outcome DecodeError Node)) :
    Outcome DecodeError Node :=
  match elems, nodes with
  | [key, val], [_, child] => decodeShort key val child
  | elems, nodes =>
    if elems.length = 17 then do
      let children ← Outcome.collect fun i : Fin 16 ↦
        decodeChild (elems.getD i default) (nodes.getD i .panic)
      let value ← decodeValue (elems.getD 16 default)
      .ok (.full [] 0 fun i ↦ if h : i.val < 16 then children ⟨i.val, h⟩ else value)
    else .error .leafCount

mutual

def decodeNode : Value → Outcome DecodeError Node
  | .bytes b => .ok (.value true b)
  | .array elems => decodeElems elems (decodeNodes elems)

def decodeNodes : List Value → List (Outcome DecodeError Node)
  | [] => []
  | v :: vs => decodeNode v :: decodeNodes vs

end

variable (K : Keccak) (S : Storage) (epoch : UInt32)

/-- `ok none` is a root that the storage does not have. -/
def getNode (root : Bytes) : Outcome DecodeError (Option Node) :=
  match S.get root with
  | none => .ok none
  | some data =>
    match K.parse data with
    | none => .error .parse
    | some (.bytes _) => .error .itemNotArray
    | some v => (decodeNode v).map some

namespace Node

-- In all three recursions the fuel bounds the depth of the calls, which pass through loaded nodes;
-- running out of it is a panic, as is a node that the storage holds in a broken form.

/-- The value under a key, with the node after the loaded nodes were linked in. -/
def lookup : ℕ → Node → List Nibble → Outcome DecodeError (Node × Option Bytes)
  | 0, _, _ => .panic
  | _ + 1, .nil, _ => .ok (.nil, none)
  | fuel + 1, .value true buf, key =>
    match getNode K S buf with
    | .ok (some nc) => nc.lookup fuel key
    | .ok none => .ok (.value true buf, none)
    | _ => .panic
  | _ + 1, .value false buf, key => .ok (.value false buf, if key = [] then some buf else none)
  | fuel + 1, .short hash k child, key =>
    if k.length ≤ key.length ∧ key.take k.length = k then do
      let (child, res) ← child.lookup fuel (key.drop k.length)
      .ok (.short hash k child, res)
    else .ok (.short hash k child, none)
  | fuel + 1, .full hash epoch edges, [] => do
    let (_, res) ← (edges terminator).lookup fuel []
    .ok (.full hash epoch edges, res)
  | fuel + 1, .full hash epoch edges, e :: key => do
    let (child, res) ← (edges e).lookup fuel key
    -- A loaded value would be linked past the sixteen children.
    if e = terminator ∧ (edges e).isRef ∧ !child.isRef then .panic
    else .ok (.full hash epoch (update edges e child), res)

def writeNode (hash : Bytes) (e : UInt32) (edges : Nibble → Node) : Node :=
  if epoch = e then .full hash e edges else .full [] epoch edges

def insert : ℕ → Node → List Nibble → Bytes → Outcome DecodeError Node
  | 0, _, _, _ => .panic
  | _ + 1, .nil, [], val => .ok (.value false val)
  | fuel + 1, .nil, search, val => do
    let child ← Node.nil.insert fuel [] val
    .ok (.short [] search child)
  | fuel + 1, .value true buf, search, val =>
    match getNode K S buf with
    | .ok (some nc) => nc.insert fuel search val
    | .ok none => .ok .nil
    | _ => .panic
  | _ + 1, .value false _, [], val => .ok (.value false val)
  | fuel + 1, .value false buf, search, val =>
    (Node.full [] epoch (update noEdges terminator (.value false buf))).insert fuel search val
  | fuel + 1, .short _ key child, search, val =>
    let plen := Patricia.Tree.prefixLen search key
    match key.drop plen with
    | [] => do
      let child ← child.insert fuel (search.drop plen) val
      .ok (.short [] key child)
    | k :: rest => do
      let edge := if rest = [] then child else .short [] rest child
      let child ← (Node.full [] epoch (update noEdges k edge)).insert
        fuel (search.drop plen) val
      if plen = 0 then .ok child else .ok (.short [] (search.take plen) child)
  | fuel + 1, .full hash e edges, [], val => do
    let v ← (edges terminator).insert fuel [] val
    .ok (writeNode epoch hash e (update edges terminator v))
  | fuel + 1, .full hash e edges, k :: search, val => do
    let child ← (edges k).insert fuel search val
    .ok (writeNode epoch hash e (update edges k child))

/-- A copied full node after an edge was cleared; `none` when its last child is not in storage. -/
def collapse (edges : Nibble → Node) : Outcome DecodeError (Option Node) :=
  match (List.finRange 16).filter fun i ↦ !(edges i.castSucc).isNil with
  | [] =>
    match edges terminator with
    | .nil => .ok (some .nil)
    | v => .ok (some (.short [] [terminator] v))
  | [i] =>
    if !(edges terminator).isNil then .ok (some (.full [] 0 edges))
    else
      match edges i.castSucc with
      | .value true buf =>
        match getNode K S buf with
        | .ok (some (.short _ key child)) => .ok (some (.short [] (i.castSucc :: key) child))
        | .ok (some nc) => .ok (some (.short [] [i.castSucc] nc))
        | .ok none => .ok none
        | _ => .panic
      | .short _ key child => .ok (some (.short [] (i.castSucc :: key) child))
      | nc => .ok (some (.short [] [i.castSucc] nc))
  | _ => .ok (some (.full [] 0 edges))

def mergeShort (key : List Nibble) : Node → Node
  | .nil => .nil
  | .short _ k child => .short [] (key ++ k) child
  | child => .short [] key child

/-- The node after the hashes on the search path were cleared, and its replacement when the key
was found. -/
def delete : ℕ → Node → List Nibble → Outcome DecodeError (Node × Option Node)
  | 0, _, _ => .panic
  | _ + 1, .nil, _ => .ok (.nil, none)
  | fuel + 1, .short _ key child, search =>
    let plen := Patricia.Tree.prefixLen search key
    if plen = search.length then .ok (.short [] key child, some .nil)
    else if plen = 0 then .ok (.short [] key child, none)
    else do
      let (child, res) ← child.delete fuel (search.drop plen)
      .ok (.short [] key child, res.map (mergeShort key))
  | fuel + 1, .value true buf, search =>
    match getNode K S buf with
    | .ok (some nc) => do
      let (_, res) ← nc.delete fuel search
      .ok (.value true buf, res)
    | .ok none => .ok (.value true buf, none)
    | _ => .panic
  | _ + 1, .value false buf, search =>
    .ok (.value false buf, if search = [] then some .nil else none)
  | _ + 1, .full _ _ _, [] => .panic
  | fuel + 1, .full hash epoch edges, k :: search => do
    let (child, res) ← (edges k).delete fuel search
    let node := .full hash epoch (update edges k child)
    match res with
    | none => .ok (node, none)
    | some newChild => do
      let res ← collapse K S (update edges k newChild)
      .ok (node, res)

/-- The end of `hash`: an item below 32 bytes stays embedded, another is put under its hash. -/
def sealItem (item : Value) (puts : Storage) (node : Bytes → Node) : Value × Node × Storage :=
  let data := K.marshal item
  if data.length < 32 then (item, node [], puts)
  else
    let tmp := (K.keccak256 data).bytes
    (.bytes tmp, node tmp, (tmp, data) :: puts)

/-- The item that stands for a node in its parent, the node with the hashes set, and what was put.
A nil node is dereferenced. -/
def hash : Node → Outcome DecodeError (Value × Node × Storage)
  | .nil => .panic
  | .value h buf => .ok (.bytes buf, .value h buf, [])
  | .short cached key child =>
    if cached ≠ [] then .ok (.bytes cached, .short cached key child, [])
    else do
      let (item, child, puts) ← child.hash
      .ok (sealItem K (.array [.bytes (encodeCompact key), item]) puts fun h ↦ .short h key child)
  | .full cached epoch edges =>
    if cached ≠ [] then .ok (.bytes cached, .full cached epoch edges, [])
    else do
      let rs ← Outcome.collect fun i ↦
        if (edges i).isNil then .ok (.bytes [], .nil, []) else (edges i).hash
      .ok (sealItem K (.array ((List.finRange 17).map fun i ↦ (rs i).1))
        ((List.finRange 17).reverse.flatMap fun i ↦ (rs i).2.2) fun h ↦ .full h epoch fun i ↦ (rs i).2.1)

end Node

def emptyRoot : Hash := bytesToHash (BigEndian.toBytes
  0x56e81f171bcc55a6ff8345e692c0f86e5b48e01b996cadc001622fb5e363b421)

structure Trie where
  root : Node
  epoch : UInt32

def newTrie : Trie := ⟨.nil, 0⟩

structure Txn where
  root : Node
  epoch : UInt32

def Trie.txn (t : Trie) : Txn := ⟨t.root, t.epoch + 1⟩

namespace Txn

variable (fuel : ℕ) (t : Txn)

def commit : Trie := ⟨t.root, t.epoch⟩

-- The root itself is never replaced by a lookup; the nodes below it are linked in place.
def lookup (key : Bytes) : Outcome DecodeError (Txn × Option Bytes) := do
  let (root, res) ← t.root.lookup K S fuel (bytesToHexNibbles key)
  .ok (if t.root.isRef then t else { t with root := root }, res)

def insert (key value : Bytes) : Outcome DecodeError Txn := do
  let root ← t.root.insert K S t.epoch fuel (bytesToHexNibbles key) value
  .ok (if root.isNil then t else { t with root := root })

def delete (key : Bytes) : Outcome DecodeError Txn := do
  let (node, res) ← t.root.delete K S fuel (bytesToHexNibbles key)
  .ok { t with root := res.getD node }

def hash : Outcome DecodeError (Hash × Txn × Storage) :=
  if t.root.isNil then .ok (emptyRoot, t, [])
  else do
    let (val, root, puts) ← t.root.hash K
    match val with
    | .bytes b =>
      if b.length ≠ 32 then
        let h := K.keccak256 b
        .ok (h, { t with root := root }, (h.bytes, b) :: puts)
      else .ok (bytesToHash b, { t with root := root }, puts)
    | .array elems =>
      let data := K.marshal (.array elems)
      let h := K.keccak256 data
      .ok (h, { t with root := root }, (h.bytes, data) :: puts)

end Txn

/-- `State.newTrieAt` without its cache; `none` is a root that cannot be loaded. -/
def newTrieAt (root : Hash) : Option Trie :=
  if root = emptyRoot then some newTrie
  else
    match getNode K S root.bytes with
    | .ok (some n) => some ⟨n, 0⟩
    | _ => none

end Mainnet.Itrie

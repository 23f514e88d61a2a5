import Mainnet.Lib.Outcome
import Mainnet.Types.Unmarshal

namespace Mainnet.Types

open Lib Rlp BigEndian Outcome Transaction Block Header Receipt

section Fields

theorem getUint64_newUint {n : ℕ} (h : n < 2 ^ 64) : getUint64 (newUint n) = some n := by
  rw [newUint, getUint64, if_pos (Lib.Rlp.length_toBytes h), ofBytes_toBytes]

theorem getBigInt_newUint (n : ℕ) : getBigInt (newUint n) = some n := by
  rw [newUint, getBigInt, ofBytes_toBytes]

theorem getFixed_newFixed {n : ℕ} (b : FixedBytes n) : getFixed n (newFixed b) = some b := by
  rw [newFixed, getFixed, dif_pos b.length_eq]

theorem getHash_newFixed (h : Hash) : getHash (newFixed h) = some h := getFixed_newFixed h

theorem getAddr_newFixed (a : Address) : getAddr (newFixed a) = some a := by
  rw [newFixed, getAddr, dif_pos a.length_eq]

theorem getUint64_nonce (b : Nonce) : getUint64 (newFixed b) = some (ofBytes b.bytes) := by
  rw [newFixed, getUint64, if_pos b.length_eq.le]

theorem nonceOfUint64_ofBytes (b : Nonce) : nonceOfUint64 (ofBytes b.bytes) = b :=
  FixedBytes.ext (putUint64_ofBytes b.length_eq)

theorem recipient_newAddr? (o : Option Address) : recipient (newAddr? o) = o := by
  cases o with
  | none => rfl
  | some a =>
    simp only [newAddr?, newFixed, recipient, getBytes, a.length_eq, if_true, bytesToAddress,
      FixedBytes.ofBytes_bytes]

theorem fetch_some {α β : Type} (a : α) (f : α → Except UnmarshalError β) :
    (fetch (some a) >>= f) = f a := rfl

end Fields

structure Header.Typed (h : Header) : Prop where
  difficulty : h.difficulty < 2 ^ 64
  number : h.number < 2 ^ 64
  gasLimit : h.gasLimit < 2 ^ 64
  gasUsed : h.gasUsed < 2 ^ 64
  timestamp : h.timestamp < 2 ^ 64

structure Transaction.Typed (t : Transaction) : Prop where
  nonce : t.nonce < 2 ^ 64
  gas : t.gas < 2 ^ 64

structure Receipt.Typed (r : Receipt) : Prop where
  cumulativeGasUsed : r.cumulativeGasUsed < 2 ^ 64
  gasUsed : r.gasUsed < 2 ^ 64

instance (h : Header) : Decidable h.Typed :=
  decidable_of_iff (h.difficulty < 2 ^ 64 ∧ h.number < 2 ^ 64 ∧ h.gasLimit < 2 ^ 64 ∧
      h.gasUsed < 2 ^ 64 ∧ h.timestamp < 2 ^ 64)
    ⟨fun ⟨a, b, c, d, e⟩ ↦ ⟨a, b, c, d, e⟩, fun ⟨a, b, c, d, e⟩ ↦ ⟨a, b, c, d, e⟩⟩

instance (t : Transaction) : Decidable t.Typed :=
  decidable_of_iff (t.nonce < 2 ^ 64 ∧ t.gas < 2 ^ 64) ⟨fun ⟨a, b⟩ ↦ ⟨a, b⟩, fun ⟨a, b⟩ ↦ ⟨a, b⟩⟩

instance (r : Receipt) : Decidable r.Typed :=
  decidable_of_iff (r.cumulativeGasUsed < 2 ^ 64 ∧ r.gasUsed < 2 ^ 64)
    ⟨fun ⟨a, b⟩ ↦ ⟨a, b⟩, fun ⟨a, b⟩ ↦ ⟨a, b⟩⟩

structure Block.Typed (b : Block) : Prop where
  header : b.header.Typed
  transactions : ∀ t ∈ b.transactions, t.Typed
  uncles : ∀ u ∈ b.uncles, u.Typed

variable {C : Codec}

theorem Header.unmarshalRLPFrom_marshalRLPWith {h : Header} (ht : h.Typed) :
    unmarshalRLPFrom C h.marshalRLPWith = .ok (h.computeHash C) := by
  simp only [unmarshalRLPFrom, marshalRLPWith, getElems, fetch_some, getHash_newFixed,
    getFixed_newFixed, getBytes, getUint64_newUint ht.difficulty, getUint64_newUint ht.number,
    getUint64_newUint ht.gasLimit, getUint64_newUint ht.gasUsed, getUint64_newUint ht.timestamp,
    getUint64_nonce, nonceOfUint64_ofBytes, computeHash]
  rw [← C.headerHash_with h zeroHash]

/-- The fields of a transaction that are on the wire, with the hash of its encoding. -/
def Transaction.onWire (K : Keccak) (t : Transaction) : Transaction :=
  { t.computeHash K with fromAddr := zeroAddress }

theorem Transaction.unmarshalRLPFrom_marshalRLPWith {K : Keccak} {t : Transaction} (ht : t.Typed) :
    unmarshalRLPFrom K t.marshalRLPWith = .ok (t.onWire K) := by
  simp only [unmarshalRLPFrom, marshalRLPWith, getElems, fetch_some,
    getBytes, getUint64_newUint ht.nonce, getUint64_newUint ht.gas, getBigInt_newUint,
    recipient_newAddr?]
  rfl

theorem Block.unmarshalRLPFrom_marshalRLPWith {b : Block} (hb : b.Typed) :
    unmarshalRLPFrom C b.marshalRLPWith =
      .ok ⟨b.header.computeHash C, b.transactions.map (Transaction.onWire C.toKeccak),
        b.uncles.map (Header.computeHash C)⟩ := by
  have htxs := mapM_map_ok fun t ht ↦
    Transaction.unmarshalRLPFrom_marshalRLPWith (K := C.toKeccak) (hb.transactions t ht)
  have huncles := mapM_map_ok fun u hu ↦
    Header.unmarshalRLPFrom_marshalRLPWith (C := C) (hb.uncles u hu)
  simp only [unmarshalRLPFrom, marshalRLPWith, getElems, fetch_some,
    Header.unmarshalRLPFrom_marshalRLPWith hb.header, htxs, huncles]
  rfl

theorem Log.unmarshalRLPFrom_marshalRLPWith (l : Log) :
    Log.unmarshalRLPFrom l.marshalRLPWith = .ok l := by
  have htopics : (l.topics.map newFixed).mapM (fun topic ↦ fetch (getHash topic)) =
      .ok l.topics :=
    mapM_map_self fun t _ ↦ by rw [getHash_newFixed]; rfl
  simp only [Log.unmarshalRLPFrom, Log.marshalRLPWith, getElems, fetch_some, getBytes,
    getAddr_newFixed, htopics]
  rfl

/-- The consensus fields of a receipt; the root is one only where there is no status. -/
def Receipt.consensus (r : Receipt) : Receipt :=
  { r with root := if r.status = none then r.root else zeroHash, gasUsed := 0,
           contractAddress := none, txHash := zeroHash }

theorem postState_newUint {n : ℕ} (h : n < 256) : postState (toBytes n) = (zeroHash, some n) := by
  rcases Nat.eq_zero_or_pos n with rfl | hpos
  · rfl
  · have hb : toBytes n = [UInt8.ofNat n] := by
      rw [toBytes, Nat.digits_of_lt 256 n (by omega) h]
      rfl
    rw [hb, postState, if_neg (by simp), UInt8.toNat_ofNat', Nat.mod_eq_of_lt h]

theorem postState_root (h : Hash) : postState h.bytes = (h, none) := by
  unfold postState
  rw [if_pos h.length_eq, bytesToHash, FixedBytes.ofBytes_bytes]

theorem Receipt.unmarshalRLPFrom_marshalRLPWith {r : Receipt} (hr : r.Typed)
    (hs : ∀ s ∈ r.status, s < 256) :
    unmarshalRLPFrom r.marshalRLPWith = .ok r.consensus := by
  have hlogs : (r.logs.map Log.marshalRLPWith).mapM Log.unmarshalRLPFrom = .ok r.logs :=
    mapM_map_self fun l _ ↦ Log.unmarshalRLPFrom_marshalRLPWith l
  simp only [unmarshalRLPFrom, marshalRLPWith, marshalLogsWith, getElems,
    fetch_some, getUint64_newUint hr.cumulativeGasUsed, getFixed_newFixed, hlogs]
  cases hst : r.status with
  | none =>
    simp only [newFixed, getBytes, fetch_some, postState_root, consensus, hst]
    rfl
  | some s =>
    simp only [newUint, getBytes, fetch_some, postState_newUint (hs s hst), consensus, hst]
    rfl

theorem unmarshalRlp_marshal {α : Type} {R : Fastrlp} (hR : R.Faithful)
    (obj : Value → Except UnmarshalError α) (v : Value) :
    unmarshalRlp R obj (R.marshal v) = obj v := by
  rw [unmarshalRlp, hR.parse_marshal, fetch_some]

/-- Blocks and receipts are read back from the wire with their fields; the hashes are those of the
fields. -/
theorem unmarshalRLP_marshalRLP (hC : C.Faithful) {b : Block} (hb : b.Typed) {rs : List Receipt}
    (hrs : ∀ r ∈ rs, r.Typed ∧ ∀ s ∈ r.status, s < 256) :
    unmarshalRLP C (marshalRLP C.toFastrlp b) =
      .ok ⟨b.header.computeHash C, b.transactions.map (onWire C.toKeccak),
        b.uncles.map (computeHash C)⟩ ∧
    receiptsUnmarshalRLP C.toFastrlp (receiptsMarshalRLPTo C.toFastrlp rs) =
      .ok (rs.map consensus) := by
  constructor
  · rw [Block.unmarshalRLP, Block.marshalRLP, unmarshalRlp_marshal hC,
      Block.unmarshalRLPFrom_marshalRLPWith hb]
  · rw [receiptsUnmarshalRLP, receiptsMarshalRLPTo, unmarshalRlp_marshal hC]
    exact mapM_map_ok fun r hr ↦ unmarshalRLPFrom_marshalRLPWith (hrs r hr).1 (hrs r hr).2

def wireBlock : Block where
  header := { (default : Header) with
    number := 1, extraData := [7], nonce := nonceOfUint64 5 }
  transactions := [
    { (default : Transaction) with
      gasPrice := 1, gas := 21000, value := 5, input := [1], v := 27, r := 1, s := 1 },
    { (default : Transaction) with
      nonce := 1, gasPrice := 1, gas := 21000, toAddr := some (bytesToAddress (List.replicate 20 0x11)),
      value := 5, v := 28, r := 1, s := 1 }]
  uncles := [default]

def wireReceipts : List Receipt :=
  [{ (default : Receipt) with status := some 0 },
    { (default : Receipt) with
      status := some 1, cumulativeGasUsed := 21000, logs := [⟨default, [default], [1, 2]⟩] },
    { (default : Receipt) with root := bytesToHash [1] }]

noncomputable def wireCodec : Codec :=
  Keccak.codec { rlpCodec with
    keccak256 := fun b ↦
      if b = rlpCodec.marshal wireBlock.header.marshalRLPWith then
        bytesToHash (toBytes 0x0b37abc574528be43cd0659f91f039ec05cbf0968201b8a2d3ad5fbc7b648a67)
      else if b = rlpCodec.marshal (default : Header).marshalRLPWith then
        bytesToHash (toBytes 0x688791f81afbd650ca58238bea20c370ed98108ecdaa8792ed08112361462486)
      else if b.length = 12 then
        bytesToHash (toBytes 0xb459a7416923735608f24dc8277dc799951a00d8bc83cd6290699b1a587ae4ae)
      else
        bytesToHash (toBytes 0x89c61017be42e7c9d9abdf753f3f9c7db6fcce259f72dd6594aa1428605ad4d7) }

theorem unmarshalRLP_marshalRLP_wireBlock :
    unmarshalRLP wireCodec (marshalRLP wireCodec.toFastrlp wireBlock) =
      .ok ⟨wireBlock.header.computeHash wireCodec,
        wireBlock.transactions.map (onWire wireCodec.toKeccak),
        wireBlock.uncles.map (computeHash wireCodec)⟩ ∧
    receiptsUnmarshalRLP wireCodec.toFastrlp
        (receiptsMarshalRLPTo wireCodec.toFastrlp wireReceipts) =
      .ok (wireReceipts.map consensus) :=
  unmarshalRLP_marshalRLP rlpCodec_faithful ⟨by decide, by decide, by decide⟩ (by decide)

end Mainnet.Types

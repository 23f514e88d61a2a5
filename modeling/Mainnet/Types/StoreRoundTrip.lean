import Mainnet.Types.RoundTrip

namespace Mainnet.Types

open Lib Rlp List Outcome Transaction Header

variable {C : Codec}

structure Transaction.Hashed (K : Keccak) (t : Transaction) : Prop where
  typed : t.Typed
  hash : t.hash = K.keccak256Rlp t.marshalRLPWith

structure Header.Hashed (C : Codec) (h : Header) : Prop where
  typed : h.Typed
  hash : h.hash = C.headerHash h

structure Body.Hashed (C : Codec) (b : Body) : Prop where
  transactions : ∀ t ∈ b.transactions, t.Hashed C.toKeccak
  uncles : ∀ u ∈ b.uncles, u.Hashed C

variable {h : Header} {K : Keccak} {t : Transaction}

theorem Header.Typed.hashed (ht : h.Typed) : (h.computeHash C).Hashed C :=
  ⟨⟨ht.difficulty, ht.number, ht.gasLimit, ht.gasUsed, ht.timestamp⟩, (C.headerHash_with h _).symm⟩

theorem Transaction.Typed.hashed (ht : t.Typed) : (t.computeHash K).Hashed K :=
  ⟨⟨ht.nonce, ht.gas⟩, rfl⟩

theorem Block.Typed.hashed {b : Block} (hb : b.Typed) :
    Body.Hashed C ⟨b.transactions.map (computeHash C.toKeccak), b.uncles.map (computeHash C)⟩ where
  transactions t ht := by
    obtain ⟨t', ht', rfl⟩ := mem_map.mp ht
    exact (hb.transactions t' ht').hashed
  uncles u hu := by
    obtain ⟨u', hu', rfl⟩ := mem_map.mp hu
    exact (hb.uncles u' hu').hashed

def Receipt.stored (r : Receipt) : Receipt :=
  { r with root := if r.status = none then r.root else zeroHash }

structure Receipt.Storable (r : Receipt) : Prop where
  typed : r.Typed
  status : ∀ s ∈ r.status, s < 256

theorem Header.unmarshalRLPFrom_of_hashed (hh : h.Hashed C) :
    unmarshalRLPFrom C h.marshalRLPWith = .ok h := by
  rw [unmarshalRLPFrom_marshalRLPWith hh.typed, computeHash, ← hh.hash]

theorem Transaction.unmarshalStoreRLPFrom_marshalStoreRLPWith
    (ht : t.Hashed K) : unmarshalStoreRLPFrom K t.marshalStoreRLPWith = .ok t := by
  simp only [unmarshalStoreRLPFrom, marshalStoreRLPWith, getElems,
    fetch_some, unmarshalRLPFrom_marshalRLPWith ht.typed, getAddr_newFixed]
  simp only [onWire, computeHash, ← ht.hash]
  rfl

theorem Body.unmarshalRLPFrom_marshalRLPWith {b : Body} (hb : b.Hashed C) :
    Body.unmarshalRLPFrom C b.marshalRLPWith = .ok b := by
  have htxs : (b.transactions.map marshalStoreRLPWith).mapM
      (unmarshalStoreRLPFrom C.toKeccak) = .ok b.transactions :=
    mapM_map_self fun t ht ↦ unmarshalStoreRLPFrom_marshalStoreRLPWith (hb.transactions t ht)
  have huncles : (b.uncles.map Header.marshalRLPWith).mapM (Header.unmarshalRLPFrom C) =
      .ok b.uncles :=
    mapM_map_self fun u hu ↦ Header.unmarshalRLPFrom_of_hashed (hb.uncles u hu)
  simp only [Body.unmarshalRLPFrom, Body.marshalRLPWith, getElems, fetch_some, htxs, huncles]
  rfl

theorem getBytes_newAddr? (o : Option Address) :
    ∃ b, getBytes (newAddr? o) = some b ∧
      (if b.length = 20 then some (bytesToAddress b) else none) = o := by
  cases o with
  | none => exact ⟨[], rfl, rfl⟩
  | some a =>
    refine ⟨a.bytes, rfl, ?_⟩
    rw [if_pos a.length_eq, bytesToAddress, FixedBytes.ofBytes_bytes]

theorem Receipt.unmarshalStoreRLPFrom_marshalStoreRLPWith {r : Receipt} (hr : r.Storable) :
    Receipt.unmarshalStoreRLPFrom r.marshalStoreRLPWith = .ok r.stored := by
  obtain ⟨b, hb, haddr⟩ := getBytes_newAddr? r.contractAddress
  have hhash : getBytes (newFixed r.txHash) = some r.txHash.bytes := rfl
  simp only [Receipt.unmarshalStoreRLPFrom, Receipt.marshalStoreRLPWith, getElems, fetch_some,
    Receipt.unmarshalRLPFrom_marshalRLPWith hr.typed hr.status, hb, haddr,
    getUint64_newUint hr.typed.gasUsed, hhash, bytesToHash, FixedBytes.ofBytes_bytes]
  rfl

theorem receiptsUnmarshalStoreRLPFrom_marshal {rs : List Receipt} (hrs : ∀ r ∈ rs, r.Storable) :
    receiptsUnmarshalStoreRLPFrom (receiptsMarshalStoreRLPWith rs) = .ok (rs.map Receipt.stored) :=
  mapM_map_ok fun r hr ↦ Receipt.unmarshalStoreRLPFrom_marshalStoreRLPWith (hrs r hr)

end Mainnet.Types

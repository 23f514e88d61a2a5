import Mainnet.Types.RoundTrip

namespace Mainnet.Types

open Lib Rlp List BigEndian Outcome Transaction

/-- The form in which transactions are printed: nine fields, a recipient of no or twenty bytes, and
numbers without leading zeros. -/
def CanonicalItem (v : Value) : Prop :=
  ∃ nonce gasPrice gas dest value input v' r s : Bytes,
    v = .array [.bytes nonce, .bytes gasPrice, .bytes gas, .bytes dest, .bytes value, .bytes input,
      .bytes v', .bytes r, .bytes s] ∧
    (dest.length = 0 ∨ dest.length = 20) ∧
    ∀ n ∈ [nonce, gasPrice, gas, value, v', r, s], n.head? ≠ some 0

def CanonicalTx (R : Fastrlp) (b : Bytes) : Prop := ∃ v, R.parse b = some v ∧ CanonicalItem v

variable {K : Keccak} {v : Value} {tx : Transaction} {b : Bytes}

theorem fetch_eq_ok {α : Type} {o : Option α} {a : α} : fetch o = .ok a ↔ o = some a := by
  cases o <;> simp [fetch]

theorem getUint64_eq_some {n : ℕ} (h : getUint64 v = some n) :
    ∃ b, v = .bytes b ∧ n = ofBytes b := by
  cases v with
  | bytes b =>
    rw [getUint64] at h
    split at h
    · exact ⟨b, rfl, (Option.some.inj h).symm⟩
    · cases h
  | array => cases h

theorem getBigInt_eq_some {n : ℕ} (h : getBigInt v = some n) :
    ∃ b, v = .bytes b ∧ n = ofBytes b := by
  cases v with
  | bytes b => exact ⟨b, rfl, (Option.some.inj h).symm⟩
  | array => cases h

theorem getBytes_eq_some (h : getBytes v = some b) : v = .bytes b := by
  cases v with
  | bytes => rw [Option.some.inj h]
  | array => cases h

theorem Transaction.unmarshalRLPFrom_eq_ok (h : unmarshalRLPFrom K v = .ok tx) :
    ∃ (nonce gasPrice gas value input v' r s : Bytes) (dest : Value) (rest : List Value),
      v = .array (.bytes nonce :: .bytes gasPrice :: .bytes gas :: dest :: .bytes value ::
        .bytes input :: .bytes v' :: .bytes r :: .bytes s :: rest) ∧
      tx = { nonce := ofBytes nonce, gasPrice := ofBytes gasPrice,
             gas := ofBytes gas, toAddr := recipient dest,
             value := ofBytes value, input := input, v := ofBytes v',
             r := ofBytes r, s := ofBytes s, hash := K.keccak256Rlp v,
             fromAddr := zeroAddress } := by
  unfold unmarshalRLPFrom at h
  obtain ⟨elems, helems, h⟩ := except_bind_eq_ok.mp h
  cases v with
  | bytes => cases helems
  | array es =>
    obtain rfl := Option.some.inj (fetch_eq_ok.mp helems)
    split at h
    · simp only [except_bind_eq_ok, fetch_eq_ok] at h
      obtain ⟨_, h0, _, h1, _, h2, _, h4, _, h5, _, h6, _, h7, _, h8, h⟩ := h
      obtain ⟨nonce, rfl, rfl⟩ := getUint64_eq_some h0
      obtain ⟨gasPrice, rfl, rfl⟩ := getBigInt_eq_some h1
      obtain ⟨gas, rfl, rfl⟩ := getUint64_eq_some h2
      obtain ⟨value, rfl, rfl⟩ := getBigInt_eq_some h4
      obtain rfl := getBytes_eq_some h5
      obtain ⟨v', rfl, rfl⟩ := getBigInt_eq_some h6
      obtain ⟨r, rfl, rfl⟩ := getBigInt_eq_some h7
      obtain ⟨s, rfl, rfl⟩ := getBigInt_eq_some h8
      exact ⟨nonce, gasPrice, gas, value, _, v', r, s, _, _, rfl, (Except.ok.inj h).symm⟩
    · cases h

theorem canonicalItem_marshalRLPWith (t : Transaction) : CanonicalItem t.marshalRLPWith := by
  obtain ⟨dest, hto, hlen⟩ :
      ∃ dest, newAddr? t.toAddr = .bytes dest ∧ (dest.length = 0 ∨ dest.length = 20) := by
    cases t.toAddr with
    | none => exact ⟨[], rfl, .inl rfl⟩
    | some a => exact ⟨a.bytes, rfl, .inr a.length_eq⟩
  refine ⟨toBytes t.nonce, toBytes t.gasPrice, toBytes t.gas, dest,
    toBytes t.value, t.input, toBytes t.v, toBytes t.r, toBytes t.s, ?_, hlen, ?_⟩
  · rw [marshalRLPWith, hto]
    rfl
  · simp only [forall_mem_cons, not_mem_nil, false_imp_iff, implies_true, and_true]
    exact ⟨head?_toBytes _, head?_toBytes _, head?_toBytes _,
      head?_toBytes _, head?_toBytes _, head?_toBytes _, head?_toBytes _⟩

theorem newAddr?_recipient {dest : Bytes} (h : dest.length = 0 ∨ dest.length = 20) :
    newAddr? (recipient (.bytes dest)) = .bytes dest := by
  rcases h with h | h
  · rw [length_eq_zero_iff.mp h]
    rfl
  · have haddr : (bytesToAddress dest).bytes = dest :=
      congrArg FixedBytes.bytes (FixedBytes.ofBytes_bytes (⟨dest, h⟩ : Address))
    simp only [recipient, getBytes, h, if_true, newAddr?, newFixed, haddr]

theorem marshalRLPWith_eq_iff (h : unmarshalRLPFrom K v = .ok tx) :
    tx.marshalRLPWith = v ↔ CanonicalItem v := by
  constructor
  · intro he
    exact he ▸ canonicalItem_marshalRLPWith tx
  · rintro ⟨nonce, gasPrice, gas, dest, value, input, v', r, s, rfl, hto, hmin⟩
    obtain ⟨_, _, _, _, _, _, _, _, _, _, hv, rfl⟩ := unmarshalRLPFrom_eq_ok h
    simp only [Lib.Rlp.Item.array.injEq, List.cons.injEq, Lib.Rlp.Item.bytes.injEq] at hv
    obtain ⟨rfl, rfl, rfl, rfl, rfl, rfl, rfl, rfl, rfl, -⟩ := hv
    simp only [forall_mem_cons, not_mem_nil, false_imp_iff, implies_true, and_true] at hmin
    obtain ⟨h0, h1, h2, h4, h6, h7, h8⟩ := hmin
    simp only [marshalRLPWith, newUint, toBytes_ofBytes h0,
      toBytes_ofBytes h1, toBytes_ofBytes h2, toBytes_ofBytes h4,
      toBytes_ofBytes h6, toBytes_ofBytes h7, toBytes_ofBytes h8, newAddr?_recipient hto]

theorem Transaction.unmarshalRLP_eq_ok (hK : K.Strict) (h : unmarshalRLP K b = .ok tx) :
    ∃ v, K.parse b = some v ∧ K.marshal v = b ∧ unmarshalRLPFrom K v = .ok tx ∧
      tx.hash = K.keccak256 b := by
  obtain ⟨v, hv, hfrom⟩ := except_bind_eq_ok.mp h
  rw [fetch_eq_ok] at hv
  have hb := hK b v hv
  refine ⟨v, hv, hb, hfrom, ?_⟩
  obtain ⟨_, _, _, _, _, _, _, _, _, _, -, rfl⟩ := unmarshalRLPFrom_eq_ok hfrom
  rw [← hb]
  rfl

theorem Transaction.canonicalTx_iff (hK : K.Faithful) (hstrict : K.Strict)
    (h : unmarshalRLP K b = .ok tx) :
    CanonicalTx K.toFastrlp b ↔ tx.marshalRLP K.toFastrlp = b := by
  obtain ⟨v, hv, hb, hfrom, -⟩ := unmarshalRLP_eq_ok hstrict h
  have hcanon : CanonicalTx K.toFastrlp b ↔ CanonicalItem v :=
    ⟨fun ⟨w, hw, hc⟩ ↦ Option.some.inj (hw.symm.trans hv) ▸ hc, fun hc ↦ ⟨v, hv, hc⟩⟩
  rw [hcanon, ← marshalRLPWith_eq_iff hfrom, marshalRLP, ← hb]
  exact ⟨congrArg K.marshal, fun he ↦ hK.marshal_injective he⟩

/-- The hash of an accepted transaction is that of its re-encoding exactly for canonical input; among
canonical inputs, those of one transaction have one hash. -/
theorem Transaction.hash_eq_iff_canonical (hK : K.Faithful) (hstrict : K.Strict)
    (h : unmarshalRLP K b = .ok tx)
    (hinj : K.keccak256 b = K.keccak256 (tx.marshalRLP K.toFastrlp) →
      b = tx.marshalRLP K.toFastrlp) :
    (tx.hash = K.keccak256 (tx.marshalRLP K.toFastrlp) ↔ CanonicalTx K.toFastrlp b) ∧
      (CanonicalTx K.toFastrlp b → ∀ b' tx', unmarshalRLP K b' = .ok tx' →
        CanonicalTx K.toFastrlp b' → { tx' with hash := tx.hash } = tx → tx'.hash = tx.hash) := by
  obtain ⟨-, -, -, -, hhash⟩ := unmarshalRLP_eq_ok hstrict h
  constructor
  · rw [canonicalTx_iff hK hstrict h, hhash]
    exact ⟨fun he ↦ (hinj he).symm, fun he ↦ by rw [he]⟩
  · intro hc b' tx' h' hc' heq
    obtain ⟨-, -, -, -, hhash'⟩ := unmarshalRLP_eq_ok hstrict h'
    have hsame : tx'.marshalRLP K.toFastrlp = tx.marshalRLP K.toFastrlp := by rw [← heq]; rfl
    rw [hhash, hhash', ← (canonicalTx_iff hK hstrict h).mp hc,
      ← (canonicalTx_iff hK hstrict h').mp hc', hsame]

def paddedTx (extra : List Value) : Value :=
  .array ([.bytes [], .bytes [1], .bytes [0x52, 0x08], .bytes [], .bytes [5], .bytes [1],
    .bytes [27], .bytes [1], .bytes [1]] ++ extra)

noncomputable def paddedKeccak : Keccak :=
  { rlpCodec with
    keccak256 := fun b ↦
      if b = rlpCodec.marshal (paddedTx []) then
        bytesToHash (toBytes 0xb459a7416923735608f24dc8277dc799951a00d8bc83cd6290699b1a587ae4ae)
      else
        bytesToHash (toBytes 0x77cbb0a7f5bed4daba373e416626401cc1c5c23593f8c8604a5ecb10ffcdecda) }

noncomputable def paddedRead (extra : List Value) : Transaction :=
  { (default : Transaction) with
    gasPrice := 1, gas := 21000, value := 5, input := [1], v := 27, r := 1, s := 1
    hash := paddedKeccak.keccak256Rlp (paddedTx extra), fromAddr := zeroAddress }

theorem unmarshalRLP_paddedTx (extra : List Value) :
    unmarshalRLP paddedKeccak (rlpCodec.marshal (paddedTx extra)) =
      .ok (paddedRead extra) := by
  rw [unmarshalRLP]
  exact unmarshalRlp_marshal rlpCodec_faithful _ (paddedTx extra)

/-- The fields are the same, and the hash is not that of the re-encoding. -/
theorem Transaction.hash_ne_of_tenth_element :
    unmarshalRLP paddedKeccak (rlpCodec.marshal (paddedTx [])) = .ok (paddedRead []) ∧
    unmarshalRLP paddedKeccak (rlpCodec.marshal (paddedTx [.bytes []])) =
      .ok (paddedRead [.bytes []]) ∧
    { paddedRead [.bytes []] with hash := (paddedRead []).hash } = paddedRead [] ∧
    (paddedRead [.bytes []]).hash ≠
      paddedKeccak.keccak256 ((paddedRead [.bytes []]).marshalRLP paddedKeccak.toFastrlp) ∧
    (paddedRead [.bytes []]).hash ≠ (paddedRead []).hash := by
  refine ⟨unmarshalRLP_paddedTx _, unmarshalRLP_paddedTx _, rfl, ?_, ?_⟩
  · decide +kernel
  · decide +kernel

theorem Transaction.hash_eq_iff_canonical_printed :
    ((paddedRead []).hash =
        paddedKeccak.keccak256 ((paddedRead []).marshalRLP paddedKeccak.toFastrlp) ↔
      CanonicalTx paddedKeccak.toFastrlp (rlpCodec.marshal (paddedTx []))) ∧
    (CanonicalTx paddedKeccak.toFastrlp (rlpCodec.marshal (paddedTx [])) →
      ∀ b' tx', unmarshalRLP paddedKeccak b' = .ok tx' →
        CanonicalTx paddedKeccak.toFastrlp b' →
        { tx' with hash := (paddedRead []).hash } = paddedRead [] →
        tx'.hash = (paddedRead []).hash) := by
  refine hash_eq_iff_canonical rlpCodec_faithful rlpCodec_strict (unmarshalRLP_paddedTx []) fun _ ↦ ?_
  decide +kernel

end Mainnet.Types

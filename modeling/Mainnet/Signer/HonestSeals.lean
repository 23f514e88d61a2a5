import Mainnet.Signer.Panics

namespace Mainnet.Signer

open Types Validators Lib List Option Nat Outcome Prod Crypto BigEndian

inductive SealError
  | invalidValidators
  | invalidSignature
  | signerMismatch
  | nonValidatorCommittedSeal
  | validatorNotFound
  | bls
  | invalidBLSSignature
deriving DecidableEq

variable (P : Primitives) (K : Keys)
  (verify : P.BlsPublicKey → Bytes → K.BlsSignature → Option Bool)

/-- `verify` is the check of one signature by the BLS library. -/
def verifyBLSSignatureFromBytes (rawPubkey rawSig message : Bytes) : Outcome SealError Unit := do
  let pubkey ← ofOption .bls (P.unmarshalBLSPublicKey rawPubkey)
  let signature ← ofOption .bls (K.unmarshalSignature rawSig)
  let valid ← ofOption .bls (verify pubkey message signature)
  if valid then return () else .error .invalidBLSSignature

def keyManagerVerifyCommittedSeal (t : ValidatorType) (vals : ValidatorSet) (addr : Address)
    (signature message : Bytes) : Outcome SealError Unit :=
  if vals.validatorType ≠ t then .error .invalidValidators
  else match t with
    | .ecdsa => do
      let signer ← ofOption .invalidSignature (ecrecover P signature message)
      if addr ≠ signer then .error .signerMismatch
      else if !vals.includes addr then .error .nonValidatorCommittedSeal
      else return ()
    | .bls => do
      let index ← ofOption .validatorNotFound (vals.index addr)
      match vals.validators[index]? with
      | some (.bls _ blsPublicKey) =>
        verifyBLSSignatureFromBytes P K verify blsPublicKey signature message
      | _ => .error .invalidValidators

def SignerImpl.verifyCommittedSeal (s : SignerImpl) (vals : ValidatorSet) (signer : Address)
    (signature : Bytes) (hash : Hash) : Outcome SealError Unit :=
  keyManagerVerifyCommittedSeal P K verify s.keyManager vals signer signature (commitDigest P hash)

/-- What the two libraries promise: a compact signature has 65 bytes, and the aggregate of
signatures that are valid one by one is valid for their keys, in whatever order both come. -/
structure Aggregates : Prop where
  compact : ∀ {sig digest pub : Bytes}, P.recoverCompact sig digest = some pub → sig.length = 65
  multi : ∀ {digest : Bytes} {shares : List (P.BlsPublicKey × K.BlsSignature)}, shares ≠ [] →
    (∀ share ∈ shares, verify share.1 digest share.2 = some true) →
    ∃ bytes, K.aggregateSignatures (shares.map snd) = some bytes ∧ bytes ≠ [] ∧
      ∃ sig, P.unmarshalMultiSignature bytes = some sig ∧
        ∀ keys, keys.Perm (shares.map fst) → ∃ key, P.aggregatePublicKeys keys = some key ∧
          P.verifyMultiSignature key digest sig = some true

variable {P K verify}

section Ecdsa

variable {vals : ValidatorSet} {digest : Bytes} {sealMap : List (Address × Bytes)}

theorem ecrecover_length (hA : Aggregates P K verify) {sig : Bytes} {addr : Address}
    (h : ecrecover P sig digest = some addr) : sig.length = istanbulExtraSeal := by
  unfold ecrecover recoverPubkey at h
  obtain ⟨pub, hpub, _⟩ := map_eq_some_iff.mp h
  split at hpub
  · cases hpub
  · rename_i last hlast
    have hlen := hA.compact hpub
    rw [length_cons, length_dropLast] at hlen
    unfold istanbulExtraSeal
    omega

theorem verified_ecdsa {addr : Address} {sig : Bytes}
    (h : keyManagerVerifyCommittedSeal P K verify .ecdsa vals addr sig digest = .ok ()) :
    vals.validatorType = .ecdsa ∧ ecrecover P sig digest = some addr ∧
      addr ∈ vals.addrs := by
  rw [keyManagerVerifyCommittedSeal] at h
  by_cases ht : vals.validatorType ≠ .ecdsa
  · rw [if_pos ht] at h
    cases h
  rw [if_neg ht] at h
  obtain ⟨signer, hsigner, h⟩ := bind_eq_ok.mp h
  split_ifs at h with haddr hin
  obtain rfl := not_not.mp haddr
  exact ⟨not_not.mp ht, ofOption_eq_ok.mp hsigner, by simpa using hin⟩

theorem recoverSealers_of_verified {visited : List Address}
    (hsigs : ∀ e ∈ sealMap, ecrecover P e.2 digest = some e.1 ∧ e.1 ∈ vals.addrs)
    (hkeys : (sealMap.map fst).Nodup) (hfresh : ∀ e ∈ sealMap, e.1 ∉ visited) :
    recoverSealers P digest vals (sealMap.map snd) visited = .ok () := by
  induction sealMap generalizing visited with
  | nil => rfl
  | cons e sealMap ih =>
    obtain ⟨hnew, hkeys⟩ := nodup_cons.mp hkeys
    obtain ⟨hrecover, hmem⟩ := hsigs e mem_cons_self
    have hincludes : vals.includes e.1 = true := (vals.includes_iff e.1).mpr hmem
    rw [map_cons, recoverSealers, hrecover]
    simp only [if_neg (hfresh e mem_cons_self), hincludes, Bool.not_true, Bool.false_eq_true,
      if_false]
    apply ih (fun e' he' ↦ hsigs e' (mem_cons_of_mem _ he')) hkeys
    intro e' he' hin
    rcases mem_cons.mp hin with heq | hin
    · exact hnew (mem_map.mpr ⟨e', he', heq⟩)
    · exact hfresh e' (mem_cons_of_mem _ he') hin

theorem ecdsa_seals_verify (hA : Aggregates P K verify) (hne : sealMap ≠ [])
    (hkeys : (sealMap.map fst).Nodup) (hvalid : ∀ e ∈ sealMap,
      keyManagerVerifyCommittedSeal P K verify .ecdsa vals e.1 e.2 digest = .ok ()) :
    ∃ seals, generateCommittedSeals K .ecdsa sealMap vals = .ok seals ∧
      keyManagerVerifyCommittedSeals P .ecdsa seals digest vals = .ok sealMap.length := by
  have hall : sealMap.all fun e ↦ e.2.length = istanbulExtraSeal := by
    simp only [List.all_eq_true, decide_eq_true_eq]
    intro e he
    exact ecrecover_length hA (verified_ecdsa (hvalid e he)).2.1
  obtain ⟨e, he⟩ := exists_mem_of_ne_nil sealMap hne
  have htype := (verified_ecdsa (hvalid e he)).1
  have hrecover : recoverSealers P digest vals (sealMap.map snd) [] = .ok () :=
    recoverSealers_of_verified (fun e he ↦ (verified_ecdsa (hvalid e he)).2) hkeys
      fun _ _ ↦ not_mem_nil
  refine ⟨.serialized (sealMap.map snd), if_pos hall, ?_⟩
  simp [keyManagerVerifyCommittedSeals, htype, verifyCommittedSealsImpl, hne, hrecover]

end Ecdsa

section Bls

variable {vals : ValidatorSet} {digest : Bytes} {sealMap : List (Address × Bytes)} {addr : Address}
  {i : ℕ} {index : Address × Bytes → ℕ}

theorem index_getElem (h : vals.index addr = some i) :
    ∃ v, vals.validators[i]? = some v ∧ v.addr = addr := by
  obtain ⟨hi, haddr, _⟩ := findIdx?_eq_some_iff_getElem.mp h
  exact ⟨vals.validators[i], getElem?_eq_getElem hi, of_decide_eq_true haddr⟩

theorem verified_bls {sig : Bytes}
    (h : keyManagerVerifyCommittedSeal P K verify .bls vals addr sig digest = .ok ()) :
    ∃ i key pubkey signature, vals.validatorType = .bls ∧ vals.index addr = some i ∧
      vals.validators[i]? = some (.bls addr key) ∧ P.unmarshalBLSPublicKey key = some pubkey ∧
      K.unmarshalSignature sig = some signature ∧ verify pubkey digest signature = some true := by
  rw [keyManagerVerifyCommittedSeal] at h
  by_cases ht : vals.validatorType ≠ .bls
  · rw [if_pos ht] at h
    cases h
  rw [if_neg ht] at h
  obtain ⟨i, hi, hverify⟩ := bind_eq_ok.mp h
  rw [ofOption_eq_ok] at hi
  obtain ⟨v, hv, rfl⟩ := index_getElem hi
  rw [hv] at hverify
  cases v with
  | ecdsa a => cases hverify
  | bls a key =>
    simp only [verifyBLSSignatureFromBytes, bind_eq_ok, ofOption_eq_ok] at hverify
    obtain ⟨pubkey, hpubkey, signature, hsignature, valid, hvalid, hverify⟩ := hverify
    split_ifs at hverify with htrue
    subst htrue
    exact ⟨i, key, pubkey, signature, not_not.mp ht, hi, hv, hpubkey, hsignature, hvalid⟩

def bitmapOf (indices : List ℕ) : ℕ := indices.foldr (fun index bitMap ↦ bitMap ||| 1 <<< index) 0

theorem testBit_bitmapOf {indices : List ℕ} :
    (bitmapOf indices).testBit i = true ↔ i ∈ indices := by
  induction indices with
  | nil => simp [bitmapOf]
  | cons index indices ih =>
    rw [bitmapOf, foldr_cons, testBit_or, Bool.or_eq_true, ← bitmapOf, ih,
      one_shiftLeft, testBit_two_pow, decide_eq_true_eq, mem_cons, or_comm, eq_comm]

theorem getBLSSignatures_eq
    {signature : Address × Bytes → K.BlsSignature}
    (h : ∀ e ∈ sealMap, vals.index e.1 = some (index e) ∧
      K.unmarshalSignature e.2 = some (signature e)) :
    getBLSSignatures K vals sealMap =
      .ok (sealMap.map signature, bitmapOf (sealMap.map index)) := by
  induction sealMap with
  | nil => rfl
  | cons e sealMap ih =>
    obtain ⟨hindex, hsig⟩ := h e mem_cons_self
    rw [getBLSSignatures, hindex, ih fun e he ↦ h e (mem_cons_of_mem _ he)]
    simp only [hsig, ofOption, ok_bind, pure_eq, map_cons]
    rfl

def blsKey (P : Primitives) : Validator → Option P.BlsPublicKey
  | .ecdsa _ => none
  | .bls _ k => P.unmarshalBLSPublicKey k

theorem collectPubkeys_eq {bitmap idx : ℕ} {vs : List Validator}
    (h : ∀ m ∈ vs.zipIdx idx, bitmap.testBit m.2 = true → (blsKey P m.1).isSome) :
    collectPubkeys P bitmap idx vs =
      .ok (((vs.zipIdx idx).filter fun m ↦ bitmap.testBit m.2).filterMap fun m ↦ blsKey P m.1) := by
  induction vs generalizing idx with
  | nil => rfl
  | cons v vs ih =>
    have hrest := ih fun m hm ↦ h m (by rw [zipIdx_cons]; exact mem_cons_of_mem _ hm)
    rw [zipIdx_cons]
    unfold collectPubkeys
    rw [hrest]
    by_cases hbit : bitmap.testBit idx = true
    · have hkey := h (v, idx) (by rw [zipIdx_cons]; exact mem_cons_self) hbit
      obtain ⟨pubkey, hpubkey⟩ := isSome_iff_exists.mp hkey
      cases v with
      | ecdsa a => cases hkey
      | bls a k =>
        have hk : P.unmarshalBLSPublicKey k = some pubkey := hpubkey
        simp [hbit, hk, blsKey, ofOption]
    · simp [hbit]

theorem marked_perm {member : Address × Bytes → Validator}
    (hmember : ∀ e ∈ sealMap, vals.validators[index e]? = some (member e) ∧ (member e).addr = e.1)
    (hkeys : (sealMap.map fst).Nodup) :
    ((vals.validators.zipIdx).filter fun m ↦ (bitmapOf (sealMap.map index)).testBit m.2).Perm
      (sealMap.map fun e ↦ (member e, index e)) := by
  have hzip : vals.validators.zipIdx.Nodup := by
    apply List.Nodup.of_map snd
    rw [List.zipIdx_map_snd]
    exact nodup_range'
  have hmap : (sealMap.map fun e ↦ (member e, index e)).Nodup := by
    apply List.Nodup.of_map fun m ↦ m.1.addr
    rw [List.map_map]
    convert hkeys using 1
    exact List.map_congr_left fun e he ↦ (hmember e he).2
  rw [List.perm_ext_iff_of_nodup (hzip.filter _) hmap]
  rintro ⟨v, i⟩
  rw [List.mem_filter, List.mem_zipIdx_iff_getElem?, testBit_bitmapOf, List.mem_map, List.mem_map]
  constructor
  · rintro ⟨hv, e, he, rfl⟩
    rw [(hmember e he).1] at hv
    exact ⟨e, he, by rw [some.inj hv]⟩
  · rintro ⟨e, he, heq⟩
    cases heq
    exact ⟨(hmember e he).1, e, he, rfl⟩

theorem collectPubkeys_perm {key : Address × Bytes → Bytes}
    {pubkey : Address × Bytes → P.BlsPublicKey}
    (hmember : ∀ e ∈ sealMap, vals.validators[index e]? = some (.bls e.1 (key e)))
    (hpubkey : ∀ e ∈ sealMap, P.unmarshalBLSPublicKey (key e) = some (pubkey e))
    (hkeys : (sealMap.map fst).Nodup) :
    ∃ pubkeys, collectPubkeys P (bitmapOf (sealMap.map index)) 0 vals.validators = .ok pubkeys ∧
      pubkeys.Perm (sealMap.map pubkey) := by
  have hperm := marked_perm (fun e he ↦ ⟨hmember e he, rfl⟩) hkeys
  refine ⟨_, collectPubkeys_eq ?_, ?_⟩
  · intro m hm hbit
    obtain ⟨e, he, rfl⟩ := mem_map.mp (hperm.subset (mem_filter.mpr ⟨hm, hbit⟩))
    exact isSome_iff_exists.mpr ⟨pubkey e, hpubkey e he⟩
  · refine (hperm.filterMap _).trans (Perm.of_eq ?_)
    rw [filterMap_map, ← filterMap_eq_map]
    exact filterMap_congr hpubkey

theorem bls_seals_verify (hA : Aggregates P K verify) (hne : sealMap ≠ [])
    (hkeys : (sealMap.map fst).Nodup) (hvalid : ∀ e ∈ sealMap,
      keyManagerVerifyCommittedSeal P K verify .bls vals e.1 e.2 digest = .ok ()) :
    ∃ seals, generateCommittedSeals K .bls sealMap vals = .ok seals ∧
      keyManagerVerifyCommittedSeals P .bls seals digest vals = .ok sealMap.length := by
  obtain ⟨e₀, he₀⟩ := exists_mem_of_ne_nil sealMap hne
  obtain ⟨_, _, pubkey₀, signature₀, htype, _⟩ := verified_bls (hvalid e₀ he₀)
  have : Nonempty P.BlsPublicKey := ⟨pubkey₀⟩
  have : Nonempty K.BlsSignature := ⟨signature₀⟩
  have hparts := fun e he ↦ verified_bls (hvalid e he)
  choose! index key pubkey signature _ hindex hmember hpubkey hsignature hverify using hparts
  have hsignatures : getBLSSignatures K vals sealMap =
      .ok (sealMap.map signature, bitmapOf (sealMap.map index)) :=
    getBLSSignatures_eq fun e he ↦ ⟨hindex e he, hsignature e he⟩
  have hshares : ∀ share ∈ sealMap.map fun e ↦ (pubkey e, signature e),
      verify share.1 digest share.2 = some true := by
    intro share hshare
    obtain ⟨e, he, rfl⟩ := mem_map.mp hshare
    exact hverify e he
  obtain ⟨bytes, hbytes, hlong, sig, hsig, hkeysig⟩ :=
    hA.multi (by simpa using hne) hshares
  simp only [List.map_map, Function.comp_def] at hbytes hkeysig
  obtain ⟨pubkeys, hcollect, hperm⟩ := collectPubkeys_perm hmember hpubkey hkeys
  obtain ⟨multiKey, hmulti, htrue⟩ := hkeysig pubkeys hperm
  have hbits : (bitmapOf (sealMap.map index)).size ≠ 0 := by
    intro hzero
    have hbit := testBit_bitmapOf.mpr (mem_map_of_mem he₀ : index e₀ ∈ sealMap.map index)
    rw [size_eq_zero.mp hzero, zero_testBit] at hbit
    cases hbit
  refine ⟨.aggregated (some (bitmapOf (sealMap.map index))) bytes, ?_, ?_⟩
  · simp [generateCommittedSeals, htype, hsignatures, hbytes, ofOption]
  · simp [keyManagerVerifyCommittedSeals, htype, verifyBLSCommittedSealsImpl, hlong, hbits,
      createAggregatedBLSPubKeys, hcollect, hmulti, hsig, htrue, ofOption, hperm.length_eq]

end Bls

theorem committed_seals_verify (hA : Aggregates P K verify) {t : ValidatorType}
    {vals : ValidatorSet} {digest : Bytes} {sealMap : List (Address × Bytes)} (hne : sealMap ≠ [])
    (hkeys : (sealMap.map fst).Nodup) (hvalid : ∀ e ∈ sealMap,
      keyManagerVerifyCommittedSeal P K verify t vals e.1 e.2 digest = .ok ()) :
    ∃ seals, generateCommittedSeals K t sealMap vals = .ok seals ∧
      keyManagerVerifyCommittedSeals P t seals digest vals = .ok sealMap.length := by
  cases t with
  | ecdsa => exact ecdsa_seals_verify hA hne hkeys hvalid
  | bls => exact bls_seals_verify hA hne hkeys hvalid

/-- The seals of distinct members, each valid for the hash of the header, are written in whatever
order the map gives them, and the header is then accepted for exactly the quorums they reach. -/
theorem honest_seals_verify (hP : P.Faithful) (hA : Aggregates P K verify) {s : SignerImpl}
    {header : Header} {extra : IstanbulExtra} {hash : Hash}
    (hextra : s.getIBFTExtra P header = .ok extra)
    (hhash : s.calculateHeaderHash P header = .ok hash) (sealMap : List (Address × Bytes))
    (hne : sealMap ≠ []) (hkeys : (sealMap.map fst).Nodup)
    (hvalid : ∀ e ∈ sealMap,
      s.verifyCommittedSeal P K verify extra.validators e.1 e.2 hash = .ok ()) (q : ℕ) :
    ∃ header', s.writeCommittedSeals P K header sealMap = .ok header' ∧
      (s.verifyCommittedSeals P header' extra.validators q = .ok () ↔ q ≤ sealMap.length) := by
  obtain ⟨seals, hgen, hverify⟩ := committed_seals_verify hA hne hkeys hvalid
  obtain ⟨header', hwrite, hreseals⟩ := writeCommittedSeals_of_generated hP hne hextra hgen
  have hhash' : s.calculateHeaderHash P header' = .ok hash :=
    (hreseals.calculateHeaderHash_eq rfl rfl).trans hhash
  refine ⟨header', hwrite, ?_⟩
  simp only [SignerImpl.verifyCommittedSeals, hreseals.after, hhash', hverify, ok_bind]
  split_ifs with hq
  · simp [hq]
  · simpa using hq

noncomputable def sumPrimitives : Primitives :=
  { sealingPrimitives with
    recoverCompact := fun sig _ ↦ if sig.length = 65 then some sig else none
    BlsPublicKey := ℕ
    MultiPublicKey := ℕ
    MultiSignature := ℕ
    unmarshalBLSPublicKey := fun b ↦ some (ofBytes b)
    aggregatePublicKeys := fun keys ↦ some keys.sum
    unmarshalMultiSignature := fun b ↦ some (ofBytes (b.drop 1))
    verifyMultiSignature := fun key _ sig ↦ some (decide (key = sig)) }

def sumKeys : Keys where
  sign _ := none
  BlsSignature := ℕ
  unmarshalSignature b := some (ofBytes b)
  aggregateSignatures sigs := some (0 :: toBytes sigs.sum)

def sumVerify (pubkey : ℕ) (_ : Bytes) (signature : ℕ) : Option Bool :=
  some (decide (pubkey = signature))

theorem sum_of_verified {digest : Bytes} {shares : List (ℕ × ℕ)} {keys : List ℕ}
    (hshares : ∀ share ∈ shares, sumVerify share.1 digest share.2 = some true)
    (hperm : keys.Perm (shares.map fst)) : keys.sum = (shares.map snd).sum := by
  have heq : shares.map fst = shares.map snd :=
    map_congr_left fun share hshare ↦ of_decide_eq_true (some.inj (hshares share hshare))
  rw [← heq]
  exact hperm.sum_eq

theorem sum_aggregates : Aggregates sumPrimitives sumKeys sumVerify where
  compact {sig digest pub} h := by
    simp only [sumPrimitives] at h
    split_ifs at h with hlen
    exact hlen
  multi {digest shares} hne hshares := by
    refine ⟨_, rfl, cons_ne_nil _ _, _, rfl, ?_⟩
    intro keys hperm
    refine ⟨_, rfl, congrArg some (decide_eq_true ?_)⟩
    exact (sum_of_verified hshares hperm).trans (ofBytes_toBytes _).symm

def pairAddress : Address := bytesToAddress [9]

def pairSet : ValidatorSet :=
  ⟨.bls, [.bls soloAddress [3], .bls pairAddress [5]], by simp [Validator.type]⟩

def pairSigner : SignerImpl := ⟨.bls, none⟩

def pairExtra : IstanbulExtra := ⟨pairSet, [], .aggregated (some 0) [], none⟩

def pairHeader : Header := headerOf pairExtra

theorem pairHeader_extra : pairSigner.getIBFTExtra sumPrimitives pairHeader = .ok pairExtra := by
  refine getIBFTExtra_eq_ok.mpr ⟨by decide +kernel, none, pairExtra.marshalRLPWith, rfl, ?_⟩
  exact ⟨rlpCodec_faithful.parse_marshal pairExtra.marshalRLPWith, by decide +kernel⟩

theorem honest_seals_verify_pair : ∃ header',
    pairSigner.writeCommittedSeals sumPrimitives sumKeys pairHeader
        [(pairAddress, [5]), (soloAddress, [3])] = .ok header' ∧
      (pairSigner.verifyCommittedSeals sumPrimitives header' pairSet 2 = .ok () ↔ 2 ≤ 2) := by
  have hhash : ∃ hash, pairSigner.calculateHeaderHash sumPrimitives pairHeader = .ok hash := by
    simp only [SignerImpl.calculateHeaderHash, SignerImpl.filterHeaderForHash, pairHeader_extra,
      ok_bind]
    exact ⟨_, rfl⟩
  obtain ⟨hash, hhash⟩ := hhash
  refine honest_seals_verify rlpCodec_faithful sum_aggregates pairHeader_extra hhash _ (by simp)
    (by decide +kernel) ?_ 2
  intro e he
  simp only [mem_cons, not_mem_nil, or_false] at he
  rcases he with rfl | rfl
  · rfl
  · rfl

end Mainnet.Signer

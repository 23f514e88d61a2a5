import Mainnet.Signer.Extra
import Mainnet.Lib.Quorum

namespace Mainnet.Signer

open Types Validators Lib List Outcome BigEndian Crypto

variable (P : Primitives)

def recoverSealers (digest : Bytes) (vals : ValidatorSet) :
    List Bytes → List Address → Outcome SignerError Unit
  | [], _ => .ok ()
  | sig :: sigs, visited =>
    match ecrecover P sig digest with
    | none => .error .ecrecover
    | some addr =>
      if addr ∈ visited then .error .repeatedCommittedSeal
      else if !vals.includes addr then .error .nonValidatorCommittedSeal
      else recoverSealers digest vals sigs (addr :: visited)

def verifyCommittedSealsImpl (seals : List Bytes) (digest : Bytes) (vals : ValidatorSet) :
    Outcome SignerError ℕ :=
  if seals.length = 0 then .error .emptyCommittedSeals
  else do
    recoverSealers P digest vals seals []
    return seals.length

/-- The loop over the validators from position `idx` on; bits beyond the set are never read. -/
def collectPubkeys (bitmap : ℕ) : ℕ → List Validator → Outcome SignerError (List P.BlsPublicKey)
  | _, [] => .ok []
  | idx, v :: vs =>
    if bitmap.testBit idx then
      match v with
      | .ecdsa _ => .error .invalidValidator
      | .bls _ k => do
        let pubKey ← ofOption .bls (P.unmarshalBLSPublicKey k)
        let pubkeys ← collectPubkeys bitmap (idx + 1) vs
        return pubKey :: pubkeys
    else collectPubkeys bitmap (idx + 1) vs

def createAggregatedBLSPubKeys (vals : ValidatorSet) (bitmap : ℕ) :
    Outcome SignerError (P.MultiPublicKey × ℕ) := do
  let pubkeys ← collectPubkeys P bitmap 0 vals.validators
  let key ← ofOption .bls (P.aggregatePublicKeys pubkeys)
  return (key, pubkeys.length)

def verifyBLSCommittedSealsImpl (bitmap : Option ℕ) (signature digest : Bytes)
    (vals : ValidatorSet) : Outcome SignerError ℕ :=
  match bitmap with
  | none => .error .emptyCommittedSeals
  | some bits =>
    if signature.length = 0 ∨ bits.size = 0 then .error .emptyCommittedSeals
    else do
      let (aggregatedPubKey, numKeys) ← createAggregatedBLSPubKeys P vals bits
      let multi ← ofOption .bls (P.unmarshalMultiSignature signature)
      let valid ← ofOption .bls (P.verifyMultiSignature aggregatedPubKey digest multi)
      if valid then return numKeys else .error .invalidSignature

def keyManagerVerifyCommittedSeals (t : ValidatorType) (seals : Seals) (digest : Bytes)
    (vals : ValidatorSet) : Outcome SignerError ℕ :=
  match t, seals with
  | .ecdsa, .serialized sigs =>
    if vals.validatorType ≠ .ecdsa then .error .invalidValidators
    else verifyCommittedSealsImpl P sigs digest vals
  | .bls, .aggregated bitmap signature =>
    if vals.validatorType ≠ .bls then .error .invalidValidators
    else verifyBLSCommittedSealsImpl P bitmap signature digest vals
  | _, _ => .error .invalidCommittedSealType

def legacyCommitCode : UInt8 := 2

def wrapCommitHash (data : Bytes) : Bytes := (P.keccak256 (data ++ [legacyCommitCode])).bytes

def commitDigest (hash : Hash) : Bytes := (P.keccak256 (wrapCommitHash P hash.bytes)).bytes

def SignerImpl.verifyCommittedSeals (s : SignerImpl) (header : Header) (vals : ValidatorSet)
    (quorumSize : ℕ) : Outcome SignerError Unit := do
  let extra ← s.getIBFTExtra P header
  let hash ← s.calculateHeaderHash P header
  let numSeals ← keyManagerVerifyCommittedSeals P s.keyManager extra.committedSeals
    (commitDigest P hash) vals
  if numSeals < quorumSize then .error .notEnoughCommittedSeals else return ()

def calcMaxFaultyNodes (vals : ValidatorSet) : ℕ := (vals.len - 1) / 3

/-- The ceiling of `2N/3`, or the entire set when it tolerates no fault. -/
def optimalQuorumSize (vals : ValidatorSet) : ℕ :=
  if calcMaxFaultyNodes vals = 0 then vals.len else (2 * vals.len + 2) / 3

theorem quorum_lt (vals : ValidatorSet) (h : 1 ≤ vals.len) :
    vals.len + calcMaxFaultyNodes vals < 2 * optimalQuorumSize vals := by
  have hf : calcMaxFaultyNodes vals = (vals.len - 1) / 3 := rfl
  unfold optimalQuorumSize
  split <;> omega

theorem quorum_reachable (vals : ValidatorSet) :
    optimalQuorumSize vals ≤ vals.len - calcMaxFaultyNodes vals := by
  have hf : calcMaxFaultyNodes vals = (vals.len - 1) / 3 := rfl
  unfold optimalQuorumSize
  split <;> omega

theorem recoverSealers_ok {digest : Bytes} {vals : ValidatorSet} {sigs : List Bytes}
    {visited : List Address} (h : recoverSealers P digest vals sigs visited = .ok ()) :
    ∃ addrs : List Address, addrs.length = sigs.length ∧ addrs.Nodup ∧
      ∀ a ∈ addrs, a ∉ visited ∧ a ∈ vals.addrs ∧
        ∃ sig ∈ sigs, ecrecover P sig digest = some a := by
  induction sigs generalizing visited with
  | nil => exact ⟨[], rfl, nodup_nil, by simp⟩
  | cons sig sigs ih =>
    rw [recoverSealers] at h
    split at h
    · cases h
    · rename_i addr haddr
      split_ifs at h with hv hm
      obtain ⟨addrs, hlen, hnd, hall⟩ := ih h
      have hfresh : addr ∉ addrs := fun hin ↦ (hall addr hin).1 mem_cons_self
      refine ⟨addr :: addrs, by simp [hlen], nodup_cons.mpr ⟨hfresh, hnd⟩, ?_⟩
      intro a ha
      rcases mem_cons.mp ha with rfl | ha
      · exact ⟨hv, by simpa using hm, sig, mem_cons_self, haddr⟩
      · obtain ⟨hnv, hin, sig', hsig', hrec⟩ := hall a ha
        exact ⟨fun hin' ↦ hnv (mem_cons_of_mem _ hin'), hin, sig', mem_cons_of_mem _ hsig', hrec⟩

theorem collectPubkeys_ok {bitmap idx : ℕ} {vs : List Validator} {keys : List P.BlsPublicKey}
    (h : collectPubkeys P bitmap idx vs = .ok keys) :
    ∃ signers : List Validator, signers.Sublist vs ∧ signers.length = keys.length ∧
      ∀ v ∈ signers, ∃ a k pk, v = .bls a k ∧ P.unmarshalBLSPublicKey k = some pk ∧ pk ∈ keys := by
  induction vs generalizing idx keys with
  | nil =>
    cases h
    exact ⟨[], Sublist.refl _, rfl, by simp⟩
  | cons v vs ih =>
    unfold collectPubkeys at h
    split_ifs at h with hbit
    · cases v with
      | ecdsa a => cases h
      | bls a k =>
        simp only [bind_eq_ok, ofOption_eq_ok] at h
        obtain ⟨pk, hpk, rest, hrest, hkeys⟩ := h
        cases hkeys
        obtain ⟨signers, hsub, hlen, hall⟩ := ih hrest
        refine ⟨.bls a k :: signers, hsub.cons_cons _, by simp [hlen], ?_⟩
        intro w hw
        rcases mem_cons.mp hw with rfl | hw
        · exact ⟨a, k, pk, rfl, hpk, mem_cons_self⟩
        · obtain ⟨b, j, pj, hb, hj, hin⟩ := hall w hw
          exact ⟨b, j, pj, hb, hj, mem_cons_of_mem _ hin⟩
    · obtain ⟨signers, hsub, hrest⟩ := ih h
      exact ⟨signers, hsub.cons _, hrest⟩

/-- What is known about who signed a digest: by address for ECDSA, by key for BLS. -/
structure SignatureFacts where
  signedEcdsa : Address → Bytes → Prop
  signedBls : P.BlsPublicKey → Bytes → Prop

variable {P}

def SignatureFacts.Sealed (F : SignatureFacts P) (digest : Bytes) : Validator → Prop
  | .ecdsa a => F.signedEcdsa a digest
  | .bls _ k => ∃ pk, P.unmarshalBLSPublicKey k = some pk ∧ F.signedBls pk digest

/-- Recovery and multi-signature verification never name a key that did not sign. -/
structure SignatureFacts.Sound (F : SignatureFacts P) : Prop where
  ecrecover : ∀ {sig digest : Bytes} {a : Address},
    ecrecover P sig digest = some a → F.signedEcdsa a digest
  multi : ∀ {keys : List P.BlsPublicKey} {key : P.MultiPublicKey} {digest : Bytes}
    {sig : P.MultiSignature}, P.aggregatePublicKeys keys = some key →
    P.verifyMultiSignature key digest sig = some true → ∀ pk ∈ keys, F.signedBls pk digest

variable {F : SignatureFacts P} {vals : ValidatorSet} {digest : Bytes} {n : ℕ}

theorem ecdsa_sealers (hF : F.Sound) (ht : vals.validatorType = .ecdsa) {sigs : List Bytes}
    (h : verifyCommittedSealsImpl P sigs digest vals = .ok n) :
    ∃ S ⊆ vals.validators.toFinset, n = S.card ∧ ∀ v ∈ S, F.Sealed digest v := by
  rw [verifyCommittedSealsImpl] at h
  split_ifs at h with h0
  obtain ⟨_, hrec, hn⟩ := bind_eq_ok.mp h
  cases hn
  obtain ⟨addrs, hlen, hnd, hall⟩ := recoverSealers_ok P hrec
  refine ⟨(addrs.map Validator.ecdsa).toFinset, ?_, ?_, ?_⟩
  · intro v hv
    obtain ⟨a, ha, rfl⟩ := mem_map.mp (mem_toFinset.mp hv)
    obtain ⟨w, hw, hwa⟩ := mem_map.mp (hall a ha).2.1
    have hwt := (vals.typed w hw).trans ht
    cases w with
    | ecdsa b =>
      cases hwa
      exact mem_toFinset.mpr hw
    | bls b k => cases hwt
  · rw [toFinset_card_of_nodup (hnd.map fun a b hab ↦ by cases hab; rfl), length_map, hlen]
  · intro v hv
    obtain ⟨a, ha, rfl⟩ := mem_map.mp (mem_toFinset.mp hv)
    obtain ⟨_, _, sig, _, hsig⟩ := hall a ha
    exact hF.ecrecover hsig

section

variable (hF : F.Sound) (hd : vals.addrs.Nodup)
include hF hd

theorem bls_sealers {bitmap : Option ℕ} {signature : Bytes}
    (h : verifyBLSCommittedSealsImpl P bitmap signature digest vals = .ok n) :
    ∃ S ⊆ vals.validators.toFinset, n = S.card ∧ ∀ v ∈ S, F.Sealed digest v := by
  cases bitmap with
  | none => cases h
  | some bits =>
    simp only [verifyBLSCommittedSealsImpl] at h
    split_ifs at h with h0
    obtain ⟨⟨key, num⟩, hagg, h⟩ := bind_eq_ok.mp h
    simp only [bind_eq_ok, ofOption_eq_ok] at h
    obtain ⟨multi, _, valid, hvalid, h⟩ := h
    split_ifs at h with hv
    cases h
    subst hv
    simp only [createAggregatedBLSPubKeys, bind_eq_ok, ofOption_eq_ok] at hagg
    obtain ⟨keys, hkeys, key', hkey, hpair⟩ := hagg
    cases hpair
    obtain ⟨signers, hsub, hlen, hall⟩ := collectPubkeys_ok P hkeys
    have hnd : signers.Nodup := (Nodup.of_map _ hd).sublist hsub
    refine ⟨signers.toFinset, ?_, ?_, ?_⟩
    · intro v hv
      exact mem_toFinset.mpr (hsub.subset (mem_toFinset.mp hv))
    · rw [toFinset_card_of_nodup hnd, hlen]
    · intro v hv
      obtain ⟨a, k, pk, rfl, hpk, hin⟩ := hall v (mem_toFinset.mp hv)
      exact ⟨pk, hpk, hF.multi hkey hvalid pk hin⟩

theorem sealers {t : ValidatorType} {seals : Seals}
    (h : keyManagerVerifyCommittedSeals P t seals digest vals = .ok n) :
    ∃ S ⊆ vals.validators.toFinset, n = S.card ∧ ∀ v ∈ S, F.Sealed digest v := by
  cases t <;> cases seals <;> simp only [keyManagerVerifyCommittedSeals, reduceCtorEq] at h
  · split_ifs at h with ht
    exact ecdsa_sealers hF (not_not.mp ht) h
  · split_ifs at h with ht
    exact bls_sealers hF hd h

theorem verifyCommittedSeals_sealers {s : SignerImpl}
    {header : Header} {hash : Hash} {q : ℕ} (hh : s.calculateHeaderHash P header = .ok hash)
    (h : s.verifyCommittedSeals P header vals q = .ok ()) :
    ∃ S ⊆ vals.validators.toFinset, q ≤ S.card ∧ ∀ v ∈ S, F.Sealed (commitDigest P hash) v := by
  simp only [SignerImpl.verifyCommittedSeals, bind_eq_ok] at h
  obtain ⟨extra, _, hash', hhash', numSeals, hnum, h⟩ := h
  split_ifs at h with hq
  rw [hh] at hhash'
  cases hhash'
  obtain ⟨S, hS, hcard, hall⟩ := sealers hF hd hnum
  exact ⟨S, hS, by omega, hall⟩

end

/-- Quorum safety: two headers with different hashes that are both accepted have more than `F`
common sealers, and the quorum does not need the votes of `F` members. -/
theorem quorum_safety (hF : F.Sound) (vals : ValidatorSet) (hd : vals.addrs.Nodup)
    (hN : 1 ≤ vals.len) {s₁ s₂ : SignerImpl} {h₁ h₂ : Header} {x₁ x₂ : Hash}
    (hx₁ : s₁.calculateHeaderHash P h₁ = .ok x₁) (hx₂ : s₂.calculateHeaderHash P h₂ = .ok x₂)
    (hne : x₁ ≠ x₂) (hinj : commitDigest P x₁ = commitDigest P x₂ → x₁ = x₂)
    (ha₁ : s₁.verifyCommittedSeals P h₁ vals (optimalQuorumSize vals) = .ok ())
    (ha₂ : s₂.verifyCommittedSeals P h₂ vals (optimalQuorumSize vals) = .ok ()) :
    (∃ both ⊆ vals.validators.toFinset, calcMaxFaultyNodes vals < both.card ∧
      commitDigest P x₁ ≠ commitDigest P x₂ ∧
      ∀ v ∈ both, F.Sealed (commitDigest P x₁) v ∧ F.Sealed (commitDigest P x₂) v) ∧
    optimalQuorumSize vals ≤ vals.len - calcMaxFaultyNodes vals := by
  refine ⟨?_, quorum_reachable vals⟩
  obtain ⟨A, hA, hqA, hallA⟩ := verifyCommittedSeals_sealers hF hd hx₁ ha₁
  obtain ⟨B, hB, hqB, hallB⟩ := verifyCommittedSeals_sealers hF hd hx₂ ha₂
  have hcard : vals.validators.toFinset.card = vals.len :=
    toFinset_card_of_nodup (Nodup.of_map _ hd)
  have hlt : vals.validators.toFinset.card + calcMaxFaultyNodes vals < 2 * optimalQuorumSize vals := by
    rw [hcard]
    exact quorum_lt vals hN
  refine ⟨A ∩ B, Finset.inter_subset_left.trans hA, Quorum.lt_card_inter hA hB hqA hqB hlt,
    fun he ↦ hne (hinj he), ?_⟩
  intro v hv
  rw [Finset.mem_inter] at hv
  exact ⟨hallA v hv.1, hallB v hv.2⟩

def soloAddress : Address :=
  bytesToAddress (toBytes 0x7e5f4552091a69125d5dfcb7b8c2659029395bdf)

def soloSet : ValidatorSet := ⟨.ecdsa, [.ecdsa soloAddress], by simp [Validator.type]⟩

def soloPrimitives : Primitives := ecdsaPrimitives ⟨Rlp.encode, Rlp.decode⟩
  (fun b ↦ bytesToHash <| toBytes <|
    if b.length = 492 then 0xc15f2cb0a1127df3f0c12cac6c0fe07c4e5cef4b7e54bf533f63d4e702e3b5de
    else 0xc0a6c424ac7157ae408398df7e5f4552091a69125d5dfcb7b8c2659029395bdf)
  fun _ _ ↦ some (4 :: toBytes
    0x79be667ef9dcbbac55a06295ce870b07029bfcdb2dce28d959f2815b16f81798483ada7726a3c4655da4fbfc0e1108a8fd17b448a68554199c47d08ffb10d4b8)

def soloSigner : SignerImpl := ⟨.ecdsa, none⟩

def soloHashA : Hash := bytesToHash <| toBytes
  0xc15f2cb0a1127df3f0c12cac6c0fe07c4e5cef4b7e54bf533f63d4e702e3b5de

/-- The signature of the key `i` on a digest is `i` followed by the digest. -/
def quorumPrimitives : Primitives :=
  { soloPrimitives with
    keccak256 := fun b ↦ bytesToHash (toBytes (ofBytes b % (2 ^ 256 - 189)))
    recoverCompact := fun sig digest ↦
      if sig.drop 2 = digest then some (4 :: replicate 64 (sig.getD 1 0)) else none }

def quorumFacts : SignatureFacts quorumPrimitives where
  signedEcdsa a digest := ∃ sig, ecrecover quorumPrimitives sig digest = some a
  signedBls _ _ := False

theorem quorumFacts_sound : quorumFacts.Sound where
  ecrecover h := ⟨_, h⟩
  multi h := by cases h

def quorumSet : ValidatorSet where
  validatorType := .ecdsa
  validators := [1, 2, 3, 4].map fun i ↦
    .ecdsa (pubKeyToAddress quorumPrimitives (4 :: replicate 64 i))
  typed := by simp [Validator.type]

def quorumHeader (timestamp : ℕ) (seals : List Bytes) : Header :=
  { (default : Header) with
    number := 1
    timestamp := timestamp
    extraData := replicate 32 0 ++
      Rlp.encode (IstanbulExtra.marshalRLPWith ⟨quorumSet, [], .serialized seals, none⟩) }

def quorumHash (timestamp : ℕ) : Hash :=
  Signer.calculateHeaderHash quorumPrimitives (quorumHeader timestamp [])

def sealedHeader (timestamp : ℕ) (signers : List UInt8) : Header :=
  quorumHeader timestamp <| signers.map fun i ↦
    i :: commitDigest quorumPrimitives (quorumHash timestamp) ++ [0]

/-- Of four validators the first three seal one header and the last three another one. -/
theorem quorum_safety_four :
    (soloSigner.verifyCommittedSeals quorumPrimitives (sealedHeader 5 [1, 2, 3]) quorumSet 3 =
        .ok () ∧
      soloSigner.verifyCommittedSeals quorumPrimitives (sealedHeader 6 [2, 3, 4]) quorumSet 3 =
        .ok ()) ∧
    ∃ both ⊆ quorumSet.validators.toFinset, 1 < both.card ∧
      ∀ v ∈ both, quorumFacts.Sealed (commitDigest quorumPrimitives (quorumHash 5)) v ∧
        quorumFacts.Sealed (commitDigest quorumPrimitives (quorumHash 6)) v := by
  have hA : soloSigner.calculateHeaderHash quorumPrimitives (sealedHeader 5 [1, 2, 3]) =
      .ok (quorumHash 5) := by
    decide +kernel
  have hB : soloSigner.calculateHeaderHash quorumPrimitives (sealedHeader 6 [2, 3, 4]) =
      .ok (quorumHash 6) := by
    decide +kernel
  have hdigest : commitDigest quorumPrimitives (quorumHash 5) ≠
      commitDigest quorumPrimitives (quorumHash 6) := by
    decide +kernel
  have hA' : soloSigner.verifyCommittedSeals quorumPrimitives (sealedHeader 5 [1, 2, 3]) quorumSet
      3 = .ok () := by
    decide +kernel
  have hB' : soloSigner.verifyCommittedSeals quorumPrimitives (sealedHeader 6 [2, 3, 4]) quorumSet
      3 = .ok () := by
    decide +kernel
  obtain ⟨⟨both, hboth, hcard, -, hall⟩, -⟩ := quorum_safety quorumFacts_sound quorumSet
    (by decide +kernel) (by decide) hA hB (ne_of_apply_ne _ hdigest) (fun h ↦ absurd h hdigest) hA'
    hB'
  exact ⟨⟨hA', hB'⟩, both, hboth, hcard, hall⟩

end Mainnet.Signer

import Mainnet.Signer.HonestSeals

namespace Mainnet.Signer

open Types Validators Lib List Nat Outcome Validator

namespace Seals

def type : Seals → ValidatorType
  | .serialized _ => .ecdsa
  | .aggregated _ _ => .bls

def normal : Seals → Seals
  | .serialized seals => .serialized seals
  | .aggregated bitmap signature => .aggregated (some (bitmap.getD 0)) signature

def isEmpty : Seals → Bool
  | .serialized seals => seals.isEmpty
  | .aggregated bitmap signature => bitmap.getD 0 == 0 && signature.isEmpty

def contents (seals : Option Seals) : Option Seals := (seals.map normal).filter fun s ↦ !s.isEmpty

theorem unmarshal_marshal (seals : Seals) :
    unmarshalRLPFrom seals.type seals.marshalRLPWith = .ok seals.normal := by
  cases seals with
  | serialized sigs =>
    simp only [type, unmarshalRLPFrom, marshalRLPWith, Rlp.getElems, mapM_getBytes,
      ofOption, ok_bind, pure_eq, normal]
  | aggregated bitmap signature =>
    have hread : BigEndian.ofBytes (bitmap.elim [] BigEndian.toBytes) = bitmap.getD 0 := by
      cases bitmap with
      | none => rfl
      | some bits => exact BigEndian.ofBytes_toBytes bits
    simp only [type, unmarshalRLPFrom, marshalRLPWith, Rlp.getElems, Rlp.getBytes,
      ofOption, ok_bind, pure_eq, normal, hread]

end Seals

theorem unmarshal_marshal_validator (v : Validator) :
    unmarshalRLPFrom v.type v.marshalRLPWith = some v := by
  cases v with
  | ecdsa a => simp [unmarshalRLPFrom, marshalRLPWith, type, Rlp.getAddr,
      a.length_eq]
  | bls a k => simp [unmarshalRLPFrom, marshalRLPWith, type, Rlp.getElems,
      Rlp.getAddr, Rlp.getBytes, a.length_eq]

theorem mapM_unmarshal_validators {t : ValidatorType} {vs : List Validator}
    (h : ∀ v ∈ vs, v.type = t) :
    (vs.map marshalRLPWith).mapM (unmarshalRLPFrom t) = some vs := by
  induction vs with
  | nil => rfl
  | cons v vs ih =>
    have hv : unmarshalRLPFrom t v.marshalRLPWith = some v := by
      rw [← h v mem_cons_self]
      exact unmarshal_marshal_validator v
    have hvs := ih fun w hw ↦ h w (mem_cons_of_mem v hw)
    simp [hv, hvs]

theorem unmarshal_marshal_validators (set : ValidatorSet) :
    unmarshalValidators set.validatorType (marshalValidators set) = .ok set := by
  have h := mapM_unmarshal_validators set.typed
  simp only [unmarshalValidators, marshalValidators, Rlp.getElems]
  split
  · rename_i hnone
    rw [h] at hnone
    cases hnone
  · rename_i vs hsome
    rw [h] at hsome
    cases hsome
    rfl

structure IstanbulExtra.Same (extra extra' : IstanbulExtra) : Prop where
  validators : extra.validators = extra'.validators
  proposerSeal : extra.proposerSeal = extra'.proposerSeal
  committedSeals : extra.committedSeals.normal = extra'.committedSeals.normal
  parentCommittedSeals :
    Seals.contents extra.parentCommittedSeals = Seals.contents extra'.parentCommittedSeals

section RoundTrip

variable {P : Crypto.Primitives} {extra : IstanbulExtra} {header : Header} {t : ValidatorType}

theorem putIbftExtra_parts (P : Crypto.Primitives) (header : Header) (extra : IstanbulExtra) :
    ∃ vanity, vanity.length = istanbulExtraVanity ∧
      (putIbftExtra P header extra).extraData = vanity ++ P.marshal extra.marshalRLPWith := by
  unfold putIbftExtra
  dsimp only
  refine ⟨_, ?_, rfl⟩
  split_ifs with hlen
  · rw [length_append, length_replicate]
    omega
  · rw [length_take]
    omega

theorem parse_putIbftExtra (hP : P.Faithful) (header : Header) (extra : IstanbulExtra) :
    istanbulExtraVanity ≤ (putIbftExtra P header extra).extraData.length ∧
      P.parse ((putIbftExtra P header extra).extraData.drop istanbulExtraVanity) =
        some extra.marshalRLPWith := by
  obtain ⟨vanity, hlen, hdata⟩ := putIbftExtra_parts P header extra
  rw [hdata, drop_left' hlen, length_append, hlen]
  exact ⟨le_add_right _ _, hP.parse_marshal _⟩

theorem unmarshalForParentCS_marshal
    (ht : ∀ seals ∈ extra.parentCommittedSeals, seals.type = t) :
    ∃ seals, IstanbulExtra.unmarshalRLPFromForParentCS t extra.marshalRLPWith = .ok seals ∧
      Seals.contents (some seals) = Seals.contents extra.parentCommittedSeals := by
  obtain ⟨validators, proposerSeal, committedSeals, parentCommittedSeals⟩ := extra
  cases parentCommittedSeals with
  | none => exact ⟨Seals.empty t, rfl, by cases t <;> rfl⟩
  | some seals =>
    obtain rfl := ht seals rfl
    exact ⟨seals.normal, Seals.unmarshal_marshal seals, by cases seals <;> rfl⟩

theorem unmarshal_marshal_extra {parent : Option ValidatorType}
    (hvalidators : extra.validators.validatorType = t) (hcommitted : extra.committedSeals.type = t)
    (hparent : ∀ p ∈ parent, ∀ seals ∈ extra.parentCommittedSeals, seals.type = p)
    (hnone : parent = none → Seals.contents extra.parentCommittedSeals = none) :
    ∃ extra', IstanbulExtra.unmarshalRLPFrom t parent extra.marshalRLPWith = .ok extra' ∧
      extra'.Same extra := by
  subst hvalidators
  have hvals := unmarshal_marshal_validators extra.validators
  have hseals := Seals.unmarshal_marshal extra.committedSeals
  rw [hcommitted] at hseals
  cases parent with
  | none =>
    refine ⟨⟨extra.validators, extra.proposerSeal, extra.committedSeals.normal, none⟩, ?_, rfl, rfl,
      ?_, (hnone rfl).symm⟩
    · refine unmarshalRLPFrom_eq_ok.mpr ⟨_, _, _, _, rfl, hvals, rfl, hseals, ?_⟩
      cases extra.parentCommittedSeals <;> rfl
    · cases extra.committedSeals <;> rfl
  | some p =>
    obtain ⟨seals, hread, hcontents⟩ := unmarshalForParentCS_marshal (hparent p rfl)
    refine ⟨⟨extra.validators, extra.proposerSeal, extra.committedSeals.normal, some seals⟩, ?_, rfl,
      rfl, ?_, hcontents⟩
    · refine unmarshalRLPFrom_eq_ok.mpr ⟨_, _, _, _, rfl, hvals, rfl, hseals, ?_⟩
      exact readParentSeals_eq_ok.mpr hread
    · cases extra.committedSeals <;> rfl

/-- What is put into the extra data is read back by a signer of the header's types, where at the
heights 0 and 1 no seals of a parent are read, and at every height by a signer of the parent's. -/
theorem ibftExtra_round_trip (hP : P.Faithful) (header : Header) (extra : IstanbulExtra) :
    (∀ s : SignerImpl, extra.validators.validatorType = s.keyManager →
      extra.committedSeals.type = s.keyManager →
      (header.number > 1 → ∃ p, s.parentKeyManager = some p ∧
        ∀ seals ∈ extra.parentCommittedSeals, seals.type = p) →
      (header.number ≤ 1 → Seals.contents extra.parentCommittedSeals = none) →
      ∃ extra', s.getIBFTExtra P (putIbftExtra P header extra) = .ok extra' ∧ extra'.Same extra) ∧
    ∀ parentSigner : SignerImpl,
      (∀ seals ∈ extra.parentCommittedSeals, seals.type = parentSigner.keyManager) →
      ∃ seals, parentSigner.getParentCommittedSeals P (putIbftExtra P header extra) = .ok seals ∧
        Seals.contents (some seals) = Seals.contents extra.parentCommittedSeals := by
  obtain ⟨hlen, hparse⟩ := parse_putIbftExtra hP header extra
  constructor
  · intro s hvalidators hcommitted hhigh hlow
    have hparts : ∃ parent, s.parentSealType header.number = .ok parent ∧
        (∀ p ∈ parent, ∀ seals ∈ extra.parentCommittedSeals, seals.type = p) ∧
        (parent = none → Seals.contents extra.parentCommittedSeals = none) := by
      by_cases hnumber : header.number > 1
      · obtain ⟨p, hkey, htype⟩ := hhigh hnumber
        refine ⟨some p, parentSealType_eq_some.mpr ⟨hnumber, hkey⟩, ?_, by simp⟩
        intro q hq
        obtain rfl := Option.some.inj hq
        exact htype
      · refine ⟨none, if_neg hnumber, by simp, ?_⟩
        intro _
        exact hlow (le_of_not_gt hnumber)
    obtain ⟨parent, hseal, htype, hnone⟩ := hparts
    obtain ⟨extra', hread, hsame⟩ := unmarshal_marshal_extra hvalidators hcommitted htype hnone
    exact ⟨extra', getIBFTExtra_eq_ok.mpr ⟨hlen, parent, _, hseal, hparse, hread⟩, hsame⟩
  · intro parentSigner hparent
    obtain ⟨seals, hread, hcontents⟩ := unmarshalForParentCS_marshal hparent
    refine ⟨seals, ?_, hcontents⟩
    rw [SignerImpl.getParentCommittedSeals, if_neg (not_lt.mpr hlen), hparse]
    exact hread

end RoundTrip

def switchedSigner : SignerImpl := ⟨.ecdsa, some .bls⟩

def switchedExtra : IstanbulExtra :=
  ⟨soloSet, [1], .serialized [[2], [3]], some (.aggregated (some 1) [7])⟩

theorem ibftExtra_round_trip_switched :
    (∃ extra, switchedSigner.getIBFTExtra sealingPrimitives (putIbftExtra sealingPrimitives
        { (default : Header) with number := 2 } switchedExtra) = .ok extra ∧
        extra.Same switchedExtra) ∧
      ∀ number, ∃ seals, pairSigner.getParentCommittedSeals sealingPrimitives
        (putIbftExtra sealingPrimitives { (default : Header) with number := number } switchedExtra) =
          .ok seals ∧ Seals.contents (some seals) = some (.aggregated (some 1) [7]) := by
  constructor
  · refine (ibftExtra_round_trip rlpCodec_faithful _ switchedExtra).1 switchedSigner rfl rfl ?_
      (by simp)
    intro _
    refine ⟨.bls, rfl, ?_⟩
    rintro seals ⟨⟩
    rfl
  · intro number
    refine (ibftExtra_round_trip rlpCodec_faithful _ switchedExtra).2 pairSigner ?_
    rintro seals ⟨⟩
    rfl

/-- In the first block the seals of the parent are written and not read back. -/
theorem switchedExtra_lost :
    sealingPrimitives.Faithful ∧ switchedExtra.validators.validatorType = switchedSigner.keyManager ∧
      switchedExtra.committedSeals.type = switchedSigner.keyManager ∧
      ∃ extra, switchedSigner.getIBFTExtra sealingPrimitives (putIbftExtra sealingPrimitives
          { (default : Header) with number := 1 } switchedExtra) = .ok extra ∧
        extra.parentCommittedSeals = none ∧ ¬extra.Same switchedExtra := by
  refine ⟨rlpCodec_faithful, rfl, rfl, { switchedExtra with parentCommittedSeals := none }, ?_, rfl,
    ?_⟩
  · have hput := parse_putIbftExtra (P := sealingPrimitives) rlpCodec_faithful
      { (default : Header) with number := 1 } switchedExtra
    refine getIBFTExtra_eq_ok.mpr ⟨hput.1, none, _, rfl, hput.2, ?_⟩
    decide +kernel
  · intro hsame
    have hlost : none = some (Seals.aggregated (some 1) [7]) := hsame.parentCommittedSeals
    cases hlost

end Mainnet.Signer

import Mainnet.Lib.Store
import Mainnet.Signer.Sealing

namespace Mainnet.Signer

open Types Lib Window Rlp

abbrev ByteArrays := Store (ℕ → UInt8)

section Packing

variable (P : Crypto.Primitives) (grow : ℕ → ℕ) (arrays : ByteArrays) (extraBytes : Window)

def packFieldsIntoSlice (packFn : List Value → List Value) :
    Outcome SignerError (Window × ByteArrays) :=
  if extraBytes.len < istanbulExtraVanity then .panic
  else
    let extraHeader := { extraBytes with len := istanbulExtraVanity }
    let extraBody := (extraBytes.items arrays).drop istanbulExtraVanity
    let elems := match (P.parse extraBody).bind getElems with
      | some elems => if elems.length < 3 then [] else packFn elems
      | none => []
    .ok (extraHeader.appendAll grow arrays (P.marshal (.array elems)))

def packProposerSealIntoSlice (proposerSeal : Bytes) : Outcome SignerError (Window × ByteArrays) :=
  packFieldsIntoSlice P grow arrays extraBytes fun oldValues ↦
    oldValues.take 1 ++ [.bytes proposerSeal] ++ (oldValues.drop 2).take 2

def packCommittedSealsIntoSlice (committedSeal : Seals) :
    Outcome SignerError (Window × ByteArrays) :=
  packFieldsIntoSlice P grow arrays extraBytes fun oldValues ↦
    oldValues.take 2 ++ [committedSeal.marshalRLPWith] ++ (oldValues.drop 3).take 1

variable {P grow arrays extraBytes}

/-- The bytes of a slice stay when its first bytes get the new body by an append: there is no room
for the body behind them, or it is what stands there. -/
def Spares (arrays : ByteArrays) (extraBytes : Window) (body : Bytes) : Prop :=
  extraBytes.cap < istanbulExtraVanity + body.length ∨
    ((extraBytes.items arrays).drop istanbulExtraVanity).take body.length =
      body.take (extraBytes.len - istanbulExtraVanity)

variable (grow) {elems : List Value} (hlen : istanbulExtraVanity ≤ extraBytes.len)
  (hparse : P.parse ((extraBytes.items arrays).drop istanbulExtraVanity) = some (.array elems))
  (hthree : 3 ≤ elems.length)
include hlen hparse hthree

theorem packFieldsIntoSlice_eq (packFn : List Value → List Value) :
    packFieldsIntoSlice P grow arrays extraBytes packFn =
      .ok ({ extraBytes with len := istanbulExtraVanity }.appendAll grow arrays
        (P.marshal (.array (packFn elems)))) := by
  unfold packFieldsIntoSlice
  rw [if_neg (not_lt.mpr hlen)]
  dsimp only
  rw [hparse]
  simp only [Option.bind_some, getElems, if_neg (not_lt.mpr hthree)]

theorem packFieldsIntoSlice_keeps_iff (halloc : extraBytes.array < arrays.next)
    (packFn : List Value → List Value) :
    (∃ packed, packFieldsIntoSlice P grow arrays extraBytes packFn = .ok packed ∧
        extraBytes.items packed.2 = extraBytes.items arrays) ↔
      Spares arrays extraBytes (P.marshal (.array (packFn elems))) := by
  rw [packFieldsIntoSlice_eq grow hlen hparse hthree]
  constructor
  · rintro ⟨packed, hok, hkeep⟩
    cases hok
    exact (items_appendAll_eq_iff grow halloc hlen _).mp hkeep
  · intro hspares
    exact ⟨_, rfl, (items_appendAll_eq_iff grow halloc hlen _).mpr hspares⟩

/-- Sealing leaves the slice it was given as it was exactly when the encoded fields do not fit
behind its vanity, or do not differ from what is there. -/
theorem sealing_keeps_slice_iff (halloc : extraBytes.array < arrays.next) (proposerSeal : Bytes)
    (committedSeal : Seals) :
    ((∃ packed, packProposerSealIntoSlice P grow arrays extraBytes proposerSeal = .ok packed ∧
        extraBytes.items packed.2 = extraBytes.items arrays) ↔
      Spares arrays extraBytes (P.marshal (.array
        (elems.take 1 ++ [.bytes proposerSeal] ++ (elems.drop 2).take 2)))) ∧
    ((∃ packed, packCommittedSealsIntoSlice P grow arrays extraBytes committedSeal = .ok packed ∧
        extraBytes.items packed.2 = extraBytes.items arrays) ↔
      Spares arrays extraBytes (P.marshal (.array
        (elems.take 2 ++ [committedSeal.marshalRLPWith] ++ (elems.drop 3).take 1)))) :=
  ⟨packFieldsIntoSlice_keeps_iff grow hlen hparse hthree halloc _,
    packFieldsIntoSlice_keeps_iff grow hlen hparse hthree halloc _⟩

end Packing

def unsealedArrays : ByteArrays := (Window.ofList ⟨0, fun _ _ ↦ 0⟩ unsealedHeader.extraData).2

def unsealedSlice (cap : ℕ) : Window := ⟨0, unsealedHeader.extraData.length, cap⟩

theorem unsealedSlice_items (cap : ℕ) :
    (unsealedSlice cap).items unsealedArrays = unsealedHeader.extraData :=
  items_ofList ⟨0, fun _ _ ↦ 0⟩ unsealedHeader.extraData

theorem unsealedSlice_parse (cap : ℕ) :
    sealingPrimitives.parse (((unsealedSlice cap).items unsealedArrays).drop istanbulExtraVanity) =
      some unsealedExtra.marshalRLPWith := by
  rw [unsealedSlice_items]
  exact unsealedHeader_parse

theorem sealing_keeps_slice_full : ∃ packed,
    packProposerSealIntoSlice sealingPrimitives id unsealedArrays (unsealedSlice 57)
        soloProposerSeal = .ok packed ∧
      (unsealedSlice 57).items packed.2 = (unsealedSlice 57).items unsealedArrays := by
  refine (sealing_keeps_slice_iff id (by decide +kernel) (unsealedSlice_parse 57) (by decide)
    (by decide) soloProposerSeal (.serialized [])).1.mpr (.inl ?_)
  decide +kernel

/-- With room behind it the seal is written into the slice: the length in the list's first byte
and what follows the validators change for every holder. -/
theorem sealing_overwrites_slice : ∃ packed,
    packProposerSealIntoSlice sealingPrimitives id unsealedArrays (unsealedSlice 256)
        soloProposerSeal = .ok packed ∧
      (unsealedSlice 256).items packed.2 ≠ (unsealedSlice 256).items unsealedArrays := by
  refine ⟨_, packFieldsIntoSlice_eq id (by decide +kernel) (unsealedSlice_parse 256) (by decide) _,
    ?_⟩
  rw [Ne, items_appendAll_eq_iff id (by decide) (by decide +kernel), unsealedSlice_items]
  decide +kernel

end Mainnet.Signer

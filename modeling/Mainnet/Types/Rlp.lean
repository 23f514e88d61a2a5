import Mainnet.Types.Basic
import Mainnet.Lib.RlpCodec

namespace Mainnet.Types

open Lib Lib.Rlp

namespace Rlp

abbrev Value := Item

def newUint (n : ℕ) : Value := .bytes (BigEndian.toBytes n)

def getElems : Value → Option (List Value)
  | .bytes _ => none
  | .array elems => some elems

def getBytes : Value → Option Bytes
  | .bytes b => some b
  | .array _ => none

def getAddr : Value → Option Address
  | .bytes b => if h : b.length = 20 then some ⟨b, h⟩ else none
  | .array _ => none

end Rlp

structure Fastrlp where
  marshal : Rlp.Value → Bytes
  parse : Bytes → Option Rlp.Value

structure Fastrlp.Faithful (R : Fastrlp) : Prop where
  parse_marshal : ∀ v, R.parse (R.marshal v) = some v

/-- The parser accepts nothing but what is printed. -/
def Fastrlp.Strict (R : Fastrlp) : Prop := ∀ b v, R.parse b = some v → R.marshal v = b

theorem Fastrlp.Faithful.marshal_injective {R : Fastrlp} (h : R.Faithful) :
    Function.Injective R.marshal := by
  intro v w hvw
  have := h.parse_marshal v
  rw [hvw, h.parse_marshal w] at this
  exact (Option.some.inj this).symm

def Fastrlp.TagsLists (R : Fastrlp) : Prop :=
  ∀ elems, ∃ tag rest, R.marshal (.array elems) = tag :: rest ∧ 0xc0 ≤ tag

noncomputable def rlpCodec : Fastrlp := ⟨print, parse⟩

theorem rlpCodec_faithful : rlpCodec.Faithful := ⟨fun v ↦ (parse_iff _ v).mpr rfl⟩

theorem rlpCodec_strict : rlpCodec.Strict := fun b v ↦ (parse_iff b v).mp

theorem rlpCodec_tagsLists : rlpCodec.TagsLists := by
  intro elems
  show ∃ tag rest, print (.array elems) = tag :: rest ∧ 0xc0 ≤ tag
  rw [print]
  split
  · rename_i hfits
    exact encode_array_tag hfits
  · exact ⟨0xc0, _, rfl, by decide⟩

structure Keccak extends Fastrlp where
  keccak256 : Bytes → Hash

def Keccak.keccak256Rlp (K : Keccak) (v : Rlp.Value) : Hash := K.keccak256 (K.marshal v)

end Mainnet.Types

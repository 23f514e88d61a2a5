import Mathlib.Data.Nat.Digits.Lemmas
import Mainnet.Types.Address

namespace Mainnet.Types

open List Nat

def encodeUint64 (i : ℕ) : String :=
  "0x" ++ String.ofList (if i = 0 then ['0'] else (digits 16 i).reverse.map digitChar)

def parseDigit (base n : ℕ) (c : Char) : Option ℕ :=
  match hexValue c with
  | some d => if d < base then some (n * base + d) else none
  | none => none

def parseUint (digits : List Char) (base : ℕ) : Option ℕ :=
  if digits = [] then none
  else (digits.foldlM (parseDigit base) 0).filter (· < 2 ^ 64)

def parseUint64orHex (val : String) : Option ℕ :=
  match val.toList with
  | '0' :: 'x' :: digits => parseUint digits 16
  | digits => parseUint digits 10

def JSONNumber.marshalJSON (value : ℕ) : String := encodeUint64 value

/-- `JSONNumber.UnmarshalJSON` of a quoted text; from `2 ^ 63` on the number is negative as an
`int64`. -/
def JSONNumber.unmarshalJSON (text : String) : Option ℕ :=
  (parseUint64orHex text).filter (· < 2 ^ 63)

theorem foldlM_parseDigit_digits {ds : List ℕ} (h : ∀ d ∈ ds, d < 16) :
    (ds.reverse.map digitChar).foldlM (parseDigit 16) 0 = some (ofDigits 16 ds) := by
  have hvalue : ∀ d : Fin 16, hexValue (digitChar d) = some d.val := by decide
  induction ds with
  | nil => rfl
  | cons d ds ih =>
    have hd := h d mem_cons_self
    have htail := ih fun e he ↦ h e (mem_cons_of_mem d he)
    rw [reverse_cons, map_append, foldlM_append, htail]
    simp only [map_cons, map_nil, foldlM_cons, foldlM_nil, Option.bind_eq_bind,
      Option.bind_some, parseDigit, hvalue ⟨d, hd⟩, if_pos hd, ofDigits_cons]
    rw [add_comm, mul_comm]
    rfl

theorem parseUint64orHex_encodeUint64 (i : ℕ) :
    parseUint64orHex (encodeUint64 i) = if i < 2 ^ 64 then some i else none := by
  rw [parseUint64orHex, encodeUint64, toList_hexText]
  rcases eq_or_ne i 0 with rfl | hi
  · decide
  · have hne : (digits 16 i).reverse.map digitChar ≠ [] := by
      rw [Ne, map_eq_nil_iff, reverse_eq_nil_iff]
      exact digits_ne_nil_iff_ne_zero.mpr hi
    simp only [if_neg hi, parseUint, if_neg hne,
      foldlM_parseDigit_digits fun d hd ↦ digits_lt_base (by decide) hd, ofDigits_digits,
      Option.filter, decide_eq_true_eq]

theorem JSONNumber.unmarshalJSON_marshalJSON (n : ℕ) :
    unmarshalJSON (marshalJSON n) = if n < 2 ^ 63 then some n else none := by
  rw [unmarshalJSON, marshalJSON, parseUint64orHex_encodeUint64]
  by_cases h : n < 2 ^ 63
  · rw [if_pos (h.trans (by decide)), if_pos h, Option.filter, if_pos (decide_eq_true h)]
  · rw [if_neg h]
    split
    · rw [Option.filter, if_neg (by rwa [decide_eq_true_eq])]
    · rfl

end Mainnet.Types

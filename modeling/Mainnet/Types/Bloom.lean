import Mathlib.Data.Nat.Bitwise
import Mainnet.Types.Marshal

namespace Mainnet.Types.Bloom

open List Nat FixedBytes

/-- `1 << n` as a byte, of which nothing is left from eight places on. -/
def oneShl (n : ℕ) : UInt8 := if n < 8 then UInt8.ofNat (2 ^ n) else 0

def bitAt (buf : Bytes) (i : ℕ) : ℕ :=
  ((buf.getD (i + 1) 0).toNat + ((buf.getD i 0).toNat <<< 8)) &&& 2047

def byteAt (b : Bloom) (bit : ℕ) : UInt8 := b.bytes.getD (256 - 1 - bit / 8) 0

def setBit (b : Bloom) (bit : ℕ) : Bloom where
  bytes := b.bytes.set (256 - 1 - bit / 8) (byteAt b bit ||| oneShl (bit % 8))
  length_eq := by rw [length_set, b.length_eq]

/-- The bit location less one is a `uint`. -/
def isSet (b : Bloom) (bit : ℕ) : Bool :=
  byteAt b bit &&& oneShl ((bit % 8 + (2 ^ 64 - 1)) % 2 ^ 64) != 0

section Model

variable (keccak : Bytes → Hash)

def bitsOf (h : Bytes) : List ℕ := [0, 2, 4].map (bitAt (keccak h).bytes)

def setEncode (b : Bloom) (h : Bytes) : Bloom := (bitsOf keccak h).foldl setBit b

def isByteArrPresent (b : Bloom) (data : Bytes) : Bool := (bitsOf keccak data).all (isSet b)

def createBloom (receipts : List Receipt) : Bloom :=
  receipts.foldl (fun b receipt ↦ receipt.logs.foldl (fun b log ↦
    log.topics.foldl (fun b topic ↦ setEncode keccak b topic.bytes)
      (setEncode keccak b log.address.bytes)) b) (zero 256)

def isLogInBloom (b : Bloom) (log : Log) : Bool :=
  isByteArrPresent keccak b log.address.bytes &&
    log.topics.all fun topic ↦ isByteArrPresent keccak b topic.bytes

end Model

def has (b : Bloom) (bit : ℕ) : Prop := (byteAt b bit).toNat.testBit (bit % 8)

def items (log : Log) : List Bytes := log.address.bytes :: log.topics.map (·.bytes)

variable {keccak : Bytes → Hash} {b : Bloom} {bit bit' : ℕ} {h : Bytes}

theorem toNat_oneShl {n : ℕ} (h : n < 8) : (oneShl n).toNat = 2 ^ n := by
  rw [oneShl, if_pos h, UInt8.toNat_ofNat']
  exact Nat.mod_eq_of_lt (Nat.pow_lt_pow_right (by omega) h)

theorem has_setBit (hbit : bit < 2048) (hbit' : bit' < 2048) :
    has (setBit b bit) bit' ↔ has b bit' ∨ bit' = bit := by
  have hlt : 256 - 1 - bit / 8 < b.bytes.length := by
    rw [b.length_eq]
    omega
  rw [has, has, byteAt, setBit]
  simp only [getD_eq_getElem?_getD, List.getElem?_set]
  by_cases hsame : 256 - 1 - bit / 8 = 256 - 1 - bit' / 8
  · rw [if_pos hsame, if_pos hlt, Option.getD_some, UInt8.toNat_or, toNat_oneShl (by omega),
      testBit_or, testBit_two_pow, Bool.or_eq_true, decide_eq_true_eq, byteAt, byteAt, hsame]
    exact or_congr_right (by omega)
  · rw [if_neg hsame, ← getD_eq_getElem?_getD, ← byteAt]
    exact (or_iff_left fun heq ↦ hsame (by rw [heq])).symm

theorem isSet_iff (b : Bloom) (bit : ℕ) : isSet b bit ↔ bit % 8 ≠ 0 ∧ has b (bit - 1) := by
  by_cases hzero : bit % 8 = 0
  · rw [isSet, hzero, oneShl, if_neg (by omega), UInt8.and_zero]
    simp
  · have hplace : (bit % 8 + (2 ^ 64 - 1)) % 2 ^ 64 = (bit - 1) % 8 := by omega
    have hbyte : byteAt b (bit - 1) = byteAt b bit := by
      rw [byteAt, byteAt, show (bit - 1) / 8 = bit / 8 by omega]
    rw [isSet, hplace, bne_iff_ne, Ne, ← UInt8.toNat_inj, UInt8.toNat_and,
      toNat_oneShl (mod_lt _ (by omega)), and_two_pow, has, hbyte]
    cases (byteAt b bit).toNat.testBit ((bit - 1) % 8) <;> simp [hzero]

theorem bitsOf_lt (hbit : bit ∈ bitsOf keccak h) : bit < 2048 := by
  obtain ⟨i, -, rfl⟩ := mem_map.mp hbit
  exact lt_succ_of_le and_le_right

theorem has_setEncode (hbit : bit < 2048) :
    has (setEncode keccak b h) bit ↔ has b bit ∨ bit ∈ bitsOf keccak h := by
  have hlt : ∀ bit ∈ bitsOf keccak h, bit < 2048 := fun _ ↦ bitsOf_lt
  rw [setEncode]
  generalize bitsOf keccak h = bits at hlt
  induction bits generalizing b with
  | nil => simp
  | cons bit' bits ih =>
    refine (ih fun bit h ↦ hlt bit (mem_cons_of_mem _ h)).trans ?_
    rw [has_setBit (hlt bit' mem_cons_self) hbit, mem_cons, or_assoc]

def allItems (receipts : List Receipt) : List Bytes := receipts.flatMap (·.logs.flatMap items)

theorem createBloom_eq (receipts : List Receipt) :
    createBloom keccak receipts =
      (allItems receipts).foldl (setEncode keccak) (zero 256) := by
  simp only [createBloom, allItems, items, foldl_flatMap, foldl_cons, foldl_map]

theorem has_createBloom (receipts : List Receipt) (hbit : bit < 2048) :
    has (createBloom keccak receipts) bit ↔
      ∃ item ∈ allItems receipts, bit ∈ bitsOf keccak item := by
  have hfold (l : List Bytes) (b : Bloom) : has (l.foldl (setEncode keccak) b) bit ↔
      has b bit ∨ ∃ item ∈ l, bit ∈ bitsOf keccak item := by
    induction l generalizing b with
    | nil => simp
    | cons item l ih => simp [ih, has_setEncode hbit, or_assoc]
  have hempty : ¬ has (zero 256) bit := by
    have hbyte : byteAt (zero 256) bit = 0 := by
      rw [byteAt, FixedBytes.zero, getD_replicate _ (by omega)]
    rw [has, hbyte]
    simp
  rw [createBloom_eq, hfold, or_iff_right hempty]

theorem isLogInBloom_eq (log : Log) :
    isLogInBloom keccak b log = (items log).all (isByteArrPresent keccak b) := by
  simp only [isLogInBloom, items, all_cons, all_map, Function.comp_def]

/-- A reader looks one bit below each bit that was set, and within its byte. -/
theorem logs_in_bloom_iff (keccak : Bytes → Hash) (receipts : List Receipt) :
    (∀ receipt ∈ receipts, ∀ log ∈ receipt.logs,
      isLogInBloom keccak (createBloom keccak receipts) log) ↔
      ∀ item ∈ allItems receipts, ∀ bit ∈ bitsOf keccak item,
        bit % 8 ≠ 0 ∧ ∃ other ∈ allItems receipts, bit - 1 ∈ bitsOf keccak other := by
  have hitem (item : Bytes) : isByteArrPresent keccak (createBloom keccak receipts) item ↔
      ∀ bit ∈ bitsOf keccak item,
        bit % 8 ≠ 0 ∧ ∃ other ∈ allItems receipts, bit - 1 ∈ bitsOf keccak other := by
    rw [isByteArrPresent, all_eq_true]
    refine forall₂_congr fun bit hbit ↦ ?_
    have hlt := bitsOf_lt hbit
    rw [isSet_iff, has_createBloom receipts (by omega)]
  simp only [isLogInBloom_eq, all_eq_true, hitem]
  constructor
  · intro hall item hmem
    obtain ⟨receipt, hreceipt, hmem⟩ := mem_flatMap.mp hmem
    obtain ⟨log, hlog, hmem⟩ := mem_flatMap.mp hmem
    exact hall receipt hreceipt log hlog item hmem
  · intro hall receipt hreceipt log hlog item hmem
    exact hall item (mem_flatMap.mpr ⟨receipt, hreceipt, mem_flatMap.mpr ⟨log, hlog, hmem⟩⟩)

def zeroAddressHash : Hash :=
  bytesToHash (Lib.BigEndian.toBytes
    0x5380c7b7ae81a58eb98d9c78de4a1fd7fd9535fc953ed2be602daaa41767312a)

/-- The first bit of a log of the zero address is the lowest of its byte. -/
theorem zeroAddress_log_missed :
    bitsOf (fun _ ↦ zeroAddressHash) zeroAddress.bytes = [896, 1975, 1665] ∧
      isLogInBloom (fun _ ↦ zeroAddressHash)
        (createBloom (fun _ ↦ zeroAddressHash) [{ (default : Receipt) with logs := [default] }])
        default = false := by
  decide +kernel

end Mainnet.Types.Bloom

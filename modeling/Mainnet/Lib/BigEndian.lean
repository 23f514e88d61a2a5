import Mathlib.Data.Nat.Digits.Lemmas
import Mathlib.Tactic.Positivity

namespace Mainnet.Lib.BigEndian

open List Nat

def ofBytes (b : List UInt8) : ℕ := b.foldl (fun n d ↦ n * 256 + d.toNat) 0

/-- The shortest big-endian representation; zero has no digits. -/
def toBytes (n : ℕ) : List UInt8 := ((digits 256 n).map UInt8.ofNat).reverse

theorem ofBytes_toBytes (n : ℕ) : ofBytes (toBytes n) = n := by
  rw [ofBytes, toBytes, foldl_reverse, foldr_map]
  conv_rhs => rw [← ofDigits_digits 256 n, ofDigits_eq_foldr]
  have hlt : ∀ d ∈ digits 256 n, d < 256 := fun d hd ↦ digits_lt_base (by decide) hd
  generalize digits 256 n = l at hlt
  induction l with
  | nil => rfl
  | cons d ds ih =>
    have hd : (UInt8.ofNat d).toNat = d := by
      rw [UInt8.toNat_ofNat', mod_eq_of_lt (hlt d mem_cons_self)]
    rw [foldr_cons, foldr_cons, ih fun e he ↦ hlt e (mem_cons_of_mem _ he), hd]
    simp only [cast_id]
    omega

theorem toBytes_injective : Function.Injective toBytes :=
  Function.LeftInverse.injective ofBytes_toBytes

variable {n k : ℕ} {b c : List UInt8}

theorem length_toBytes_le (h : n < 256 ^ k) : (toBytes n).length ≤ k := by
  rw [toBytes, length_reverse, length_map]
  exact (digits_length_le_iff (b := 256) (by omega) n).mpr h

theorem length_toBytes_eq (h : 256 ^ k ≤ n) (h' : n < 256 ^ (k + 1)) :
    (toBytes n).length = k + 1 := by
  have h1 := (lt_digits_length_iff (b := 256) (by omega) n).mpr h
  have h2 := length_toBytes_le h'
  rw [toBytes, length_reverse, length_map] at h2 ⊢
  omega

theorem head?_toBytes (n : ℕ) : (toBytes n).head? ≠ some 0 := by
  intro h
  rw [toBytes, head?_reverse, getLast?_map, Option.map_eq_some_iff] at h
  obtain ⟨d, hd, h0⟩ := h
  have hne := ne_nil_of_mem (mem_of_getLast? hd)
  have hlast : (digits 256 n).getLast hne = d :=
    Option.some.inj ((getLast?_eq_some_getLast hne).symm.trans hd)
  have hlt : d < 256 := digits_lt_base (by omega) (mem_of_getLast? hd)
  refine getLast_digit_ne_zero 256 (digits_ne_nil_iff_ne_zero.mp hne) (hlast.trans ?_)
  have := congrArg UInt8.toNat h0
  rwa [UInt8.toNat_ofNat', mod_eq_of_lt hlt] at this

def putUint64 (n : ℕ) : List UInt8 :=
  (range 8).map fun i ↦ UInt8.ofNat (n / 256 ^ (7 - i))

theorem length_putUint64 (n : ℕ) : (putUint64 n).length = 8 := by
  rw [putUint64, length_map, length_range]

theorem ofBytes_cons (d : UInt8) (b : List UInt8) :
    ofBytes (d :: b) = d.toNat * 256 ^ b.length + ofBytes b := by
  have key : ∀ n, b.foldl (fun n d ↦ n * 256 + d.toNat) n = n * 256 ^ b.length + ofBytes b := by
    unfold ofBytes
    induction b with
    | nil => intro n; simp
    | cons c b ih =>
      intro n
      rw [foldl_cons, foldl_cons, ih, ih (0 * 256 + c.toNat), length_cons, pow_succ]
      ring
  rw [ofBytes, foldl_cons, key, zero_mul, zero_add]

theorem ofBytes_lt (b : List UInt8) : ofBytes b < 256 ^ b.length := by
  induction b with
  | nil => decide
  | cons d b ih =>
    have hd : d.toNat ≤ 255 := le_of_lt_succ d.toNat_lt
    rw [ofBytes_cons, length_cons, pow_succ]
    have := mul_le_mul_right (256 ^ b.length) hd
    omega

theorem ofBytes_inj (hl : b.length = c.length) (h : ofBytes b = ofBytes c) : b = c := by
  induction b generalizing c with
  | nil => exact (length_eq_zero_iff.mp hl.symm).symm
  | cons d b ih =>
    obtain ⟨e, c, rfl⟩ := exists_cons_of_length_eq_add_one hl.symm
    have hbc : b.length = c.length := succ_injective hl
    rw [ofBytes_cons, ofBytes_cons, hbc] at h
    have hb := ofBytes_lt b
    have hc := ofBytes_lt c
    rw [hbc] at hb
    have hd : d.toNat = e.toNat := by
      have hpos : 0 < 256 ^ c.length := by positivity
      have h1 := congrArg (· / 256 ^ c.length) h
      simpa only [add_comm _ (ofBytes _), add_mul_div_right _ _ hpos,
        div_eq_of_lt hb, div_eq_of_lt hc, zero_add] using h1
    rw [UInt8.toNat_inj.mp hd, ih hbc (by rw [hd] at h; omega)]

theorem toBytes_ofBytes (h : b.head? ≠ some 0) : toBytes (ofBytes b) = b := by
  refine ofBytes_inj ?_ (ofBytes_toBytes _)
  cases b with
  | nil => rfl
  | cons d b =>
    have hd : 0 < d.toNat := by
      rw [pos_iff_ne_zero]
      exact fun h0 ↦ h (congrArg some (UInt8.toNat_inj.mp h0))
    refine length_toBytes_eq ?_ (ofBytes_lt (d :: b))
    rw [ofBytes_cons]
    exact (Nat.le_mul_of_pos_left _ hd).trans (Nat.le_add_right _ _)

theorem ofBytes_map_range (n k : ℕ) :
    ofBytes ((range k).map fun i ↦ UInt8.ofNat (n / 256 ^ (k - 1 - i))) = n % 256 ^ k := by
  induction k with
  | zero => simp [ofBytes, mod_one]
  | succ k ih =>
    have htail : (range k).map ((fun i ↦ UInt8.ofNat (n / 256 ^ (k + 1 - 1 - i))) ∘ succ) =
        (range k).map fun i ↦ UInt8.ofNat (n / 256 ^ (k - 1 - i)) := by
      refine map_congr_left fun i _ ↦ ?_
      rw [Function.comp_apply, show k + 1 - 1 - i.succ = k - 1 - i by omega]
    rw [range_succ_eq_map, map_cons, map_map, htail, ofBytes_cons, ih,
      length_map, length_range, UInt8.toNat_ofNat', mod_pow_succ (x := n),
      show (2 : ℕ) ^ 8 = 256 from rfl]
    simp only [Nat.add_sub_cancel, Nat.sub_zero]
    ring

theorem ofBytes_putUint64 (h : n < 2 ^ 64) : ofBytes (putUint64 n) = n := by
  rw [putUint64, ofBytes_map_range n 8]
  exact mod_eq_of_lt h

theorem putUint64_ofBytes (h : b.length = 8) : putUint64 (ofBytes b) = b := by
  refine ofBytes_inj (by rw [length_putUint64, h]) (ofBytes_putUint64 ?_)
  have hlt := ofBytes_lt b
  rwa [h] at hlt

theorem ofBytes_append (b c : List UInt8) :
    ofBytes (b ++ c) = ofBytes b * 256 ^ c.length + ofBytes c := by
  induction b with
  | nil => simp [ofBytes]
  | cons d b ih =>
    rw [cons_append, ofBytes_cons, ofBytes_cons, ih, length_append, pow_add]
    ring

theorem ofBytes_zeros (n : ℕ) : ofBytes (replicate n 0) = 0 := by
  induction n with
  | zero => rfl
  | succ n ih => rw [replicate_succ, ofBytes_cons, ih, UInt8.toNat_zero, zero_mul]

/-- The number of `n` bytes that begins with `b`, which is cut or filled up with zeros. -/
def leading (n : ℕ) (b : List UInt8) : ℕ := ofBytes ((b ++ replicate n 0).take n)

theorem leading_cons (n : ℕ) (d : UInt8) (b : List UInt8) :
    leading (n + 1) (d :: b) = d.toNat * 256 ^ n + leading n b := by
  have htake : ((b ++ replicate (n + 1) 0).take n) = (b ++ replicate n 0).take n := by
    rw [replicate_succ', ← append_assoc, take_append_of_le_length (by simp)]
  rw [leading, cons_append, take_succ_cons, htake, ofBytes_cons, leading,
    length_take_of_le (by simp)]

theorem leading_lt (n : ℕ) (b : List UInt8) : leading n b < 256 ^ n := by
  have h := ofBytes_lt ((b ++ replicate n 0).take n)
  rwa [length_take_of_le (by simp)] at h

theorem leading_of_le (h : b.length ≤ n) : leading n b = ofBytes b * 256 ^ (n - b.length) := by
  rw [leading, take_append, take_of_length_le h, take_replicate, min_eq_left (n.sub_le _),
    ofBytes_append, ofBytes_zeros, length_replicate, add_zero]

theorem leading_of_ge (h : n ≤ b.length) : leading n b = ofBytes (b.take n) := by
  rw [leading, take_append_of_le_length h]

theorem compare_eq_lt_iff (hc : c.getLast? ≠ some 0) :
    compare b c = .lt ↔ leading c.length b < ofBytes c := by
  induction c generalizing b with
  | nil => cases b <;> simp [leading, ofBytes]
  | cons d c ih =>
    have hpow : 0 < 256 ^ c.length := by positivity
    have hc' : c.getLast? ≠ some 0 := by
      intro h
      rw [getLast?_cons, h] at hc
      exact hc rfl
    have hlt := ofBytes_lt c
    cases b with
    | nil =>
      have hpos : ofBytes (d :: c) ≠ 0 := by
        intro h0
        have hall : d :: c = replicate (c.length + 1) 0 :=
          ofBytes_inj (by simp) (by rw [h0, ofBytes_zeros])
        rw [hall, getLast?_replicate] at hc
        exact hc rfl
      have hzero : leading (c.length + 1) [] = 0 := by
        rw [leading, nil_append, take_replicate, ofBytes_zeros]
      refine iff_of_true (List.compareLex_nil_cons) ?_
      rw [List.length_cons, hzero]
      exact pos_of_ne_zero hpos
    | cons e b =>
      have hb := leading_lt c.length b
      rw [List.compare_eq_compareLex, List.compareLex_cons_cons, ← List.compare_eq_compareLex,
        Ordering.then_eq_lt, ih hc', Std.compare_eq_lt, Std.compare_eq_iff_eq, List.length_cons,
        leading_cons, ofBytes_cons, UInt8.lt_iff_toNat_lt, ← UInt8.toNat_inj]
      rcases lt_trichotomy e.toNat d.toNat with h | h | h
      · have := mul_le_mul_right (256 ^ c.length) h
        rw [succ_mul] at this
        exact iff_of_true (.inl h) (by omega)
      · simp [h]
      · have := mul_le_mul_right (256 ^ c.length) h
        rw [succ_mul] at this
        exact iff_of_false (by omega) (by omega)

end Mainnet.Lib.BigEndian

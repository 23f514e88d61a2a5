import Mathlib.Tactic.Ring
import Mathlib.Tactic.Linarith

namespace Mainnet.Lib

open Int

/-- A moment of Go's clock, in nanoseconds from the start of the year 1. Its seconds are a signed
word. -/
structure Time where
  ns : ℤ
  sec_ge : -2 ^ 63 ≤ ns / 10 ^ 9
  sec_lt : ns / 10 ^ 9 < 2 ^ 63

namespace Time

def sec (t : Time) : ℤ := t.ns / 10 ^ 9

def unixToInternal : ℤ := 62135596800

def unix (sec : ℤ) : Time where
  ns := (sec + unixToInternal).bmod (2 ^ 64) * 10 ^ 9
  sec_ge := by
    have h := le_bmod (x := sec + unixToInternal) (m := 2 ^ 64) (by decide)
    omega
  sec_lt := by
    have h := bmod_lt (x := sec + unixToInternal) (m := 2 ^ 64) (by decide)
    omega

def unixSec (t : Time) : ℤ := (t.sec - unixToInternal).bmod (2 ^ 64)

/-- `t.Add(d)`: the seconds saturate, while the part below a second is kept. -/
def add (t : Time) (d : ℤ) : Time :=
  let n := t.ns + d
  if h : -2 ^ 63 ≤ n / 10 ^ 9 ∧ n / 10 ^ 9 < 2 ^ 63 then ⟨n, h.1, h.2⟩
  else if 0 < d then ⟨(2 ^ 63 - 1) * 10 ^ 9 + n % 10 ^ 9, by omega, by omega⟩
  else ⟨-(2 ^ 63 - 1) * 10 ^ 9 + n % 10 ^ 9, by omega, by omega⟩

def before (t u : Time) : Bool := decide (t.ns < u.ns)

/-- `t.Round(d)`: to the nearest multiple of `d` from the year 1 on, and up from the middle. -/
def round (t : Time) (d : ℤ) : Time :=
  if d ≤ 0 then t
  else
    let r := t.ns % d
    if r + r < d then t.add (-r) else t.add (d - r)

variable {t : Time} {d : ℤ}

theorem sec_unix (sec : ℤ) : (unix sec).sec = (sec + unixToInternal).bmod (2 ^ 64) := by
  unfold Time.sec unix
  dsimp only
  omega

theorem ns_unix (sec : ℤ) : (unix sec).ns = (unix sec).sec * 10 ^ 9 := by
  rw [sec_unix]
  rfl

theorem ns_add (hge : -2 ^ 63 ≤ (t.ns + d) / 10 ^ 9) (hlt : (t.ns + d) / 10 ^ 9 < 2 ^ 63) :
    (t.add d).ns = t.ns + d := by
  unfold add
  dsimp only
  rw [dif_pos ⟨hge, hlt⟩]

theorem sec_add (hd : 0 < d) : (t.add d).sec = min ((t.ns + d) / 10 ^ 9) (2 ^ 63 - 1) := by
  have hge := t.sec_ge
  unfold add Time.sec
  dsimp only
  split_ifs with h
  · dsimp only
    omega
  · dsimp only
    omega

/-- The multiples of `d` that rounding up from `n` may give: `n` itself is one for an odd `d`
alone. -/
def Multiple (d n m : ℤ) : Prop := d ∣ m ∧ (n < m ∨ n = m ∧ Odd d)

theorem le_of_dvd_of_sub_lt {x m : ℤ} (hx : d ∣ x) (hm : d ∣ m) (h : x - d < m) : x ≤ m := by
  by_contra hlt
  have hle : d ≤ x - m := Int.le_of_dvd (by omega) (Int.dvd_sub hx hm)
  omega

theorem isLeast_multiple {n c : ℤ} (hd : 0 < d) (hc : c = n + d / 2) :
    IsLeast {m | Multiple d n m} (if c % d + c % d < d then c - c % d else c + (d - c % d)) := by
  have hr := emod_nonneg c hd.ne'
  have hr' := emod_lt_of_pos c hd
  have hdvd : d ∣ c - c % d := dvd_self_sub_emod
  generalize c % d = r at *
  have hdvd' : d ∣ c + (d - r) := by
    rw [show c + (d - r) = c - r + d by ring]
    exact Int.dvd_add hdvd (Int.dvd_refl d)
  split_ifs with hhalf
  · refine ⟨⟨hdvd, ?_⟩, ?_⟩
    · rw [Int.odd_iff]
      omega
    · rintro m ⟨hm, hlater⟩
      exact le_of_dvd_of_sub_lt hdvd hm (by omega)
  · refine ⟨⟨hdvd', .inl (by omega)⟩, ?_⟩
    rintro m ⟨hm, hlater⟩
    refine le_of_dvd_of_sub_lt hdvd' hm ?_
    rw [odd_iff] at hlater
    omega

theorem isLeast_roundUp (hd : 0 < d) (hlt : (t.ns + d) / 10 ^ 9 < 2 ^ 63) :
    IsLeast {m | Multiple d t.ns m} ((t.add (d / 2)).round d).ns := by
  have hge := t.sec_ge
  have hc : (t.add (d / 2)).ns = t.ns + d / 2 := ns_add (by omega) (by omega)
  have hr := emod_nonneg (t.add (d / 2)).ns hd.ne'
  have hr' := emod_lt_of_pos (t.add (d / 2)).ns hd
  have hleast := isLeast_multiple hd hc
  unfold round
  rw [if_neg (not_le.mpr hd)]
  dsimp only
  generalize (t.add (d / 2)).ns % d = r at *
  by_cases hhalf : r + r < d
  · rw [if_pos hhalf] at hleast ⊢
    rwa [ns_add (by omega) (by omega)]
  · rw [if_neg hhalf] at hleast ⊢
    rwa [ns_add (by omega) (by omega)]

def clip (n : ℤ) : ℤ := if n / 10 ^ 9 < 2 ^ 63 then n else (2 ^ 63 - 1) * 10 ^ 9 + n % 10 ^ 9

def Nearest (d c m : ℤ) : Prop := d ∣ m ∧ 2 * (c - m) < d ∧ 2 * (m - c) ≤ d

theorem Nearest.unique {c m m' : ℤ} (h : Nearest d c m) (h' : Nearest d c m') : m = m' := by
  obtain ⟨hm, hm₁, hm₂⟩ := h
  obtain ⟨hm', hm₁', hm₂'⟩ := h'
  exact le_antisymm (le_of_dvd_of_sub_lt hm hm' (by omega)) (le_of_dvd_of_sub_lt hm' hm (by omega))

theorem nearest_emod (hd : 0 < d) (c : ℤ) :
    Nearest d c (if c % d + c % d < d then c - c % d else c + (d - c % d)) := by
  have hr := emod_nonneg c hd.ne'
  have hr' := emod_lt_of_pos c hd
  have hdvd : d ∣ c - c % d := dvd_self_sub_emod
  generalize c % d = r at *
  split_ifs with hhalf
  · exact ⟨hdvd, by omega, by omega⟩
  · refine ⟨?_, by omega, by omega⟩
    rw [show c + (d - r) = c - r + d by ring]
    exact Int.dvd_add hdvd (Int.dvd_refl d)

theorem ns_add_clip (hd : 0 ≤ d) : (t.add d).ns = clip (t.ns + d) := by
  have hge := t.sec_ge
  have hlt := t.sec_lt
  unfold add clip
  dsimp only
  split_ifs <;> dsimp only <;> omega

theorem sec_roundUp {m : ℤ} (hd : 0 < d) (hm : Nearest d (clip (t.ns + d / 2)) m)
    (hlow : -2 ^ 63 ≤ m / 10 ^ 9) :
    ((t.add (d / 2)).round d).sec = min (m / 10 ^ 9) (2 ^ 63 - 1) := by
  have hc : (t.add (d / 2)).ns = clip (t.ns + d / 2) := ns_add_clip (by omega)
  have hupper := (t.add (d / 2)).sec_lt
  rw [← hc] at hm
  generalize t.add (d / 2) = c at *
  obtain rfl := hm.unique (nearest_emod hd c.ns)
  have hr := emod_nonneg c.ns hd.ne'
  have hr' := emod_lt_of_pos c.ns hd
  unfold round
  rw [if_neg (not_le.mpr hd)]
  dsimp only
  by_cases hhalf : c.ns % d + c.ns % d < d
  · rw [if_pos hhalf] at hlow ⊢
    rw [if_pos hhalf]
    have hns : (c.add (-(c.ns % d))).ns = c.ns - c.ns % d := ns_add (by omega) (by omega)
    unfold Time.sec
    rw [hns]
    omega
  · rw [if_neg hhalf] at hlow ⊢
    rw [if_neg hhalf]
    exact sec_add (by omega)

end Time

end Mainnet.Lib

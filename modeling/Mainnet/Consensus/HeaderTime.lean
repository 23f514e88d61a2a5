import Mainnet.Lib.GoTime

namespace Mainnet.Consensus

open Lib Int Time

def parentTimestamp (parentUnix : ℕ) : Time := unix ((parentUnix : ℤ).bmod (2 ^ 64))

def roundUpTime (t : Time) (roundOn : ℤ) : Time := (t.add (roundOn / 2)).round roundOn

def calcHeaderTimestamp (blockTime : ℤ) (parentUnix : ℕ) (currentTime : Time) : Time :=
  let potentialTimestamp := (parentTimestamp parentUnix).add blockTime
  if potentialTimestamp.before currentTime then roundUpTime currentTime blockTime
  else potentialTimestamp

def timestampOf (t : Time) : ℕ := (t.unixSec % 2 ^ 64).toNat

def headerTimestamp (blockTime : ℤ) (parentUnix : ℕ) (currentTime : Time) : ℕ :=
  timestampOf (calcHeaderTimestamp blockTime parentUnix currentTime)

section

variable {t u : Time} {parent : ℕ}

theorem timestampOf_eq (t : Time) : (timestampOf t : ℤ) = (t.sec - unixToInternal) % 2 ^ 64 := by
  have hmod : t.unixSec % 2 ^ 64 = (t.sec - unixToInternal) % 2 ^ 64 := bmod_emod
  rw [timestampOf, hmod]
  exact toNat_of_nonneg (emod_nonneg _ (by decide))

theorem timestampOf_lt_iff :
    timestampOf t < timestampOf u ↔
      t.sec < u.sec ∧ (t.sec < unixToInternal → u.sec < unixToInternal) ∨
        u.sec < unixToInternal ∧ unixToInternal ≤ t.sec := by
  have ht := t.sec_ge
  have ht' := t.sec_lt
  have hu := u.sec_ge
  have hu' := u.sec_lt
  rw [← ofNat_lt, timestampOf_eq, timestampOf_eq]
  unfold sec unixToInternal
  omega

theorem bmod_add_emod (x c : ℤ) (m : ℕ) : (x.bmod m + c) % m = (x + c) % m := by
  rw [add_emod, bmod_emod, ← add_emod]

theorem timestampOf_parentTimestamp (h : parent < 2 ^ 64) :
    timestampOf (parentTimestamp parent) = parent := by
  have hback : ((timestampOf (parentTimestamp parent) : ℕ) : ℤ) = parent := by
    rw [timestampOf_eq, parentTimestamp, sec_unix, sub_eq_add_neg]
    refine (bmod_add_emod _ _ (2 ^ 64)).trans ?_
    rw [add_assoc]
    refine (bmod_add_emod _ _ (2 ^ 64)).trans ?_
    rw [add_neg_cancel, add_zero]
    exact emod_eq_of_lt (natCast_nonneg _) (by exact_mod_cast h)
  exact_mod_cast hback

variable {blockTime : ℤ} {now : Time}

/-- The block comes in a later second than its parent. After a parent whose timestamp is read as one
before 1970, it is to be before 1970 too. -/
inductive Advances (blockTime : ℤ) (parent : ℕ) (now : Time) : Prop
  /-- A block time after the parent is not past, and is at least a second later. -/
  | inTime (hnow : now.ns ≤ ((parentTimestamp parent).add blockTime).ns)
      (hsecond : 10 ^ 9 ≤ blockTime) (hlast : (parentTimestamp parent).sec < 2 ^ 63 - 1)
      (hold : (parentTimestamp parent).sec < unixToInternal →
        (parentTimestamp parent).sec + blockTime / 10 ^ 9 < unixToInternal)
  /-- It is past, and no multiple of the block time from now on is in the parent's second. -/
  | late (hnow : ((parentTimestamp parent).add blockTime).ns < now.ns)
      (hclock : (now.ns + blockTime) / 10 ^ 9 < 2 ^ 63)
      (hnext : ∀ m, Multiple blockTime now.ns m → ((parentTimestamp parent).sec + 1) * 10 ^ 9 ≤ m)
      (hold : (parentTimestamp parent).sec < unixToInternal →
        ∃ m, Multiple blockTime now.ns m ∧ m < unixToInternal * 10 ^ 9)
  /-- It is past, and the clock ends; the multiple that counts is that nearest to half a block time
  from now, or to the last second. -/
  | saturated (hnow : ((parentTimestamp parent).add blockTime).ns < now.ns)
      (hclock : 2 ^ 63 ≤ (now.ns + blockTime) / 10 ^ 9) {m : ℤ}
      (hnear : Nearest blockTime (clip (now.ns + blockTime / 2)) m)
      (hnext : ((parentTimestamp parent).sec + 1) * 10 ^ 9 ≤ m)
      (hlast : (parentTimestamp parent).sec < 2 ^ 63 - 1)
      (hold : unixToInternal ≤ (parentTimestamp parent).sec)

theorem sec_parentTimestamp_add (parent : ℕ) (hb : 0 < blockTime) :
    ((parentTimestamp parent).add blockTime).sec =
      min ((parentTimestamp parent).sec + blockTime / 10 ^ 9) (2 ^ 63 - 1) := by
  rw [sec_add hb, parentTimestamp, ns_unix]
  omega

theorem lt_timestampOf_add_iff (hp : parent < 2 ^ 64) (hb : 0 < blockTime) :
    parent < timestampOf ((parentTimestamp parent).add blockTime) ↔
      10 ^ 9 ≤ blockTime ∧ (parentTimestamp parent).sec < 2 ^ 63 - 1 ∧
        ((parentTimestamp parent).sec < unixToInternal →
          (parentTimestamp parent).sec + blockTime / 10 ^ 9 < unixToInternal) := by
  nth_rewrite 1 [← timestampOf_parentTimestamp hp]
  have hlt : (parentTimestamp parent).sec < 2 ^ 63 := (parentTimestamp parent).sec_lt
  rw [timestampOf_lt_iff, sec_parentTimestamp_add parent hb]
  unfold unixToInternal
  omega

theorem lt_timestampOf_roundUpTime_iff (hp : parent < 2 ^ 64) (hb : 0 < blockTime)
    (hlate : (parentTimestamp parent).ns ≤ now.ns)
    (hlt : (now.ns + blockTime) / 10 ^ 9 < 2 ^ 63) :
    parent < timestampOf (roundUpTime now blockTime) ↔
      (∀ m, Multiple blockTime now.ns m → ((parentTimestamp parent).sec + 1) * 10 ^ 9 ≤ m) ∧
        ((parentTimestamp parent).sec < unixToInternal →
          ∃ m, Multiple blockTime now.ns m ∧ m < unixToInternal * 10 ^ 9) := by
  obtain ⟨hmem, hlower⟩ := isLeast_roundUp hb hlt
  have hle : now.ns ≤ (roundUpTime now blockTime).ns := by
    rcases hmem.2 with h | ⟨h, _⟩
    · exact h.le
    · exact h.le
  have hsec : (roundUpTime now blockTime).sec = (roundUpTime now blockTime).ns / 10 ^ 9 := rfl
  have hstart : (parentTimestamp parent).ns = (parentTimestamp parent).sec * 10 ^ 9 := ns_unix _
  have hfirst : (∀ m, Multiple blockTime now.ns m →
      ((parentTimestamp parent).sec + 1) * 10 ^ 9 ≤ m) ↔
        ((parentTimestamp parent).sec + 1) * 10 ^ 9 ≤ (roundUpTime now blockTime).ns := by
    constructor
    · intro h
      exact h _ hmem
    · intro h m hm
      exact h.trans (hlower hm)
  have hsecond : (∃ m, Multiple blockTime now.ns m ∧ m < unixToInternal * 10 ^ 9) ↔
      (roundUpTime now blockTime).ns < unixToInternal * 10 ^ 9 := by
    constructor
    · rintro ⟨m, hm, hlt⟩
      exact (hlower hm).trans_lt hlt
    · intro h
      exact ⟨_, hmem, h⟩
  rw [hfirst, hsecond]
  nth_rewrite 1 [← timestampOf_parentTimestamp hp]
  rw [timestampOf_lt_iff]
  unfold unixToInternal
  omega

theorem lt_timestampOf_saturated_iff {m : ℤ} (hp : parent < 2 ^ 64) (hb : 0 < blockTime)
    (hmax : blockTime < 2 ^ 63) (hclock : 2 ^ 63 ≤ (now.ns + blockTime) / 10 ^ 9)
    (hnear : Nearest blockTime (clip (now.ns + blockTime / 2)) m) :
    parent < timestampOf (roundUpTime now blockTime) ↔
      ((parentTimestamp parent).sec + 1) * 10 ^ 9 ≤ m ∧ (parentTimestamp parent).sec < 2 ^ 63 - 1 ∧
        unixToInternal ≤ (parentTimestamp parent).sec := by
  have hlow : 2 ^ 62 ≤ m / 10 ^ 9 := by
    obtain ⟨-, hlow, -⟩ := hnear
    unfold clip at hlow
    split_ifs at hlow <;> omega
  have hsec : (roundUpTime now blockTime).sec = min (m / 10 ^ 9) (2 ^ 63 - 1) :=
    sec_roundUp hb hnear (by omega)
  nth_rewrite 1 [← timestampOf_parentTimestamp hp]
  rw [timestampOf_lt_iff, hsec]
  unfold unixToInternal
  omega

theorem advances_of_second_le (hb : 10 ^ 9 ≤ blockTime)
    (hstart : unixToInternal ≤ (parentTimestamp parent).sec)
    (hlast : (parentTimestamp parent).sec < 2 ^ 63 - 1)
    (hclock : (now.ns + blockTime) / 10 ^ 9 < 2 ^ 63) : Advances blockTime parent now := by
  have hsec := sec_parentTimestamp_add parent (show 0 < blockTime by omega)
  rcases le_or_gt now.ns ((parentTimestamp parent).add blockTime).ns with hnow | hnow
  · exact .inTime hnow hb hlast fun h ↦ absurd hstart (not_le.mpr h)
  · refine .late hnow hclock ?_ fun h ↦ absurd hstart (not_le.mpr h)
    rintro m ⟨_, hlater⟩
    have hle : now.ns ≤ m := hlater.elim le_of_lt fun h ↦ h.1.le
    unfold sec at hsec hlast ⊢
    omega

theorem parentTimestamp_le_of_late (hb : 0 < blockTime)
    (hnow : ((parentTimestamp parent).add blockTime).ns < now.ns) :
    (parentTimestamp parent).ns ≤ now.ns := by
  have hsec := sec_parentTimestamp_add parent hb
  have hstart : (parentTimestamp parent).ns = (parentTimestamp parent).sec * 10 ^ 9 := ns_unix _
  have hupper : (parentTimestamp parent).sec < 2 ^ 63 := (parentTimestamp parent).sec_lt
  unfold sec at hsec hupper hstart
  omega

/-- The timestamp of a block is greater than that of its parent exactly if the block advances. -/
theorem headerTimestamp_increases_iff (hp : parent < 2 ^ 64) (hb : 0 < blockTime)
    (hmax : blockTime < 2 ^ 63) (now : Time) :
    parent < headerTimestamp blockTime parent now ↔ Advances blockTime parent now := by
  unfold headerTimestamp calcHeaderTimestamp
  dsimp only
  rcases le_or_gt now.ns ((parentTimestamp parent).add blockTime).ns with hnow | hnow
  · have hbefore : ((parentTimestamp parent).add blockTime).before now = false :=
      decide_eq_false (not_lt.mpr hnow)
    rw [hbefore, if_neg Bool.false_ne_true, lt_timestampOf_add_iff hp hb]
    constructor
    · rintro ⟨hsecond, hlast, hold⟩
      exact .inTime hnow hsecond hlast hold
    · rintro (⟨_, hsecond, hlast, hold⟩ | ⟨hlate, _, _, _⟩ | ⟨hlate, _, _, _, _, _⟩)
      · exact ⟨hsecond, hlast, hold⟩
      · exact absurd hlate (not_lt.mpr hnow)
      · exact absurd hlate (not_lt.mpr hnow)
  · have hbefore : ((parentTimestamp parent).add blockTime).before now = true := decide_eq_true hnow
    rw [hbefore, if_pos rfl]
    constructor
    · intro hlt
      rcases lt_or_ge ((now.ns + blockTime) / 10 ^ 9) (2 ^ 63) with hclock | hclock
      · obtain ⟨hnext, hold⟩ := (lt_timestampOf_roundUpTime_iff hp hb
          (parentTimestamp_le_of_late hb hnow) hclock).mp hlt
        exact .late hnow hclock hnext hold
      · have hnear := nearest_emod hb (clip (now.ns + blockTime / 2))
        obtain ⟨hnext, hlast, hold⟩ := (lt_timestampOf_saturated_iff hp hb hmax hclock hnear).mp hlt
        exact .saturated hnow hclock hnear hnext hlast hold
    · rintro (⟨hearly, _, _, _⟩ | ⟨_, hclock, hnext, hold⟩ | ⟨_, hclock, hnear, hnext, hlast, hold⟩)
      · exact absurd hearly (not_le.mpr hnow)
      · exact (lt_timestampOf_roundUpTime_iff hp hb (parentTimestamp_le_of_late hb hnow) hclock).mpr
          ⟨hnext, hold⟩
      · exact (lt_timestampOf_saturated_iff hp hb hmax hclock hnear).mpr ⟨hnext, hlast, hold⟩

end

def tenthLater : Time := ⟨(1000 + 62135596800) * 10 ^ 9 + 10 ^ 8, by decide, by decide⟩

theorem headerTimestamp_increases_two_seconds :
    1000 < headerTimestamp (2 * 10 ^ 9) 1000 tenthLater := by
  have hp : 1000 < 2 ^ 64 := by decide
  have hb : (0 : ℤ) < 2 * 10 ^ 9 := by decide
  refine (headerTimestamp_increases_iff hp hb (by decide) tenthLater).mpr ?_
  exact advances_of_second_le (by decide) (by decide) (by decide) (by decide)

/-- With blocks five times a second, a block has the timestamp of its parent. -/
theorem headerTimestamp_stays : headerTimestamp (2 * 10 ^ 8) 1000 tenthLater = 1000 := by
  decide +kernel

end Mainnet.Consensus

import Mainnet.Lib.Search

namespace Mainnet.Lib.Timeline

open List Option Nat

variable {α : Type} (key : α → ℕ)

def Ascending (l : List α) : Prop := l.Pairwise fun a b ↦ key a < key b

instance (l : List α) : Decidable (Ascending key l) :=
  inferInstanceAs (Decidable (l.Pairwise fun a b ↦ key a < key b))

/-- The entry in force at `n`: the last one whose key is at most `n`. -/
def inForce (l : List α) (n : ℕ) : Option α := (l.filter fun a ↦ key a ≤ n).getLast?

def next (l : List α) (n : ℕ) : Option α := l.find? fun a ↦ n < key a

/-- The search for the entry of `n`: the last one where all are below, else the one found at the
first key that is not below `n`, or the one before it. -/
def lookup (l : List α) (n : ℕ) : Option α :=
  match l.getLast? with
  | none => none
  | some last =>
    if key last < n then some last
    else
      let i := Search.search l.length fun i ↦ (l[i]?).all fun a ↦ n ≤ key a
      match l[i]? with
      | none => none
      | some a =>
        if i = 0 then some a
        else if key a = n then some a
        else l[i - 1]?

theorem lookup_map {β : Type} (f : β → α) (l : List β) (n : ℕ) :
    lookup key (l.map f) n = (lookup (key ∘ f) l n).map f := by
  have hsearch : ∀ i : ℕ, ((l.map f)[i]?).all (fun a ↦ n ≤ key a) =
      (l[i]?).all fun b ↦ n ≤ (key ∘ f) b := by
    intro i
    rw [getElem?_map]
    cases l[i]? <;> rfl
  simp only [lookup, getLast?_map, length_map, hsearch]
  cases l.getLast? with
  | none => rfl
  | some last =>
    simp only [map_some, getElem?_map, Function.comp_apply]
    by_cases hlt : key (f last) < n
    · rw [if_pos hlt, if_pos hlt, map_some]
    · rw [if_neg hlt, if_neg hlt]
      generalize Search.search l.length _ = i
      cases l[i]? with
      | none => rfl
      | some b =>
        simp only [map_some]
        split_ifs <;> rfl

variable {key} {l : List α} {n i j : ℕ}

section

variable (h : Ascending key l)
include h

theorem Ascending.lt (hi : i < l.length) (hj : j < l.length) (hij : i < j) :
    key l[i] < key l[j] := pairwise_iff_getElem.mp h i j hi hj hij

theorem Ascending.le (hi : i < l.length) (hj : j < l.length) (hij : i ≤ j) :
    key l[i] ≤ key l[j] := by
  rcases lt_or_eq_of_le hij with hlt | rfl
  · exact (h.lt hi hj hlt).le
  · exact le_rfl

theorem Ascending.drop : Ascending key (l.drop i) :=
  Pairwise.sublist (drop_sublist i l) h

theorem Ascending.take_le (hi : i < l.length) : ∀ a ∈ l.take (i + 1), key a ≤ key l[i] := by
  intro a ha
  obtain ⟨k, hk, rfl⟩ := mem_iff_getElem.mp ha
  rw [length_take] at hk
  rw [getElem_take]
  exact h.le (by omega) hi (by omega)

theorem inForce_eq (hi : i < l.length) (hle : key l[i] ≤ n)
    (hnext : ∀ hj : i + 1 < l.length, n < key l[i + 1]) : inForce key l n = some l[i] := by
  have hfilter : (l.filter fun a ↦ key a ≤ n) = l.take (i + 1) := by
    conv_lhs => rw [← take_append_drop (i + 1) l]
    rw [filter_append, filter_eq_self.mpr, filter_eq_nil_iff.mpr, append_nil]
    · intro a ha
      obtain ⟨k, hk, rfl⟩ := mem_iff_getElem.mp ha
      rw [length_drop] at hk
      have hk' : i + 1 < l.length := by omega
      have hlt := hnext hk'
      have hmono := h.le (j := i + 1 + k) hk' (by omega) (by omega)
      rw [getElem_drop, decide_eq_true_eq]
      omega
    · exact fun a ha ↦ decide_eq_true ((h.take_le hi a ha).trans hle)
  rw [inForce, hfilter, getLast?_take]
  simp [hi]

theorem inForce_until {a : α} (ha : a ∈ l) (hle : key a ≤ n)
    (hnext : ∀ b ∈ l, key b ≤ key a ∨ n < key b) : inForce key l n = some a := by
  obtain ⟨i, hi, rfl⟩ := mem_iff_getElem.mp ha
  refine inForce_eq h hi hle fun hj ↦ ?_
  rcases hnext _ (getElem_mem hj) with hback | hlt
  · exact absurd (h.lt hi hj (lt_succ_self i)) (not_lt.mpr hback)
  · exact hlt

theorem inForce_key {a : α} (ha : a ∈ l) : inForce key l (key a) = some a :=
  inForce_until h ha le_rfl fun b _ ↦ le_or_gt (key b) (key a)

theorem Ascending.inj (hi : i < l.length) (hj : j < l.length)
    (hkey : key l[i] = key l[j]) : i = j := by
  rcases lt_trichotomy i j with hlt | heq | hgt
  · exact absurd hkey (h.lt hi hj hlt).ne
  · exact heq
  · exact absurd hkey (h.lt hj hi hgt).ne'

end

theorem ascending_iff_nodup (hle : l.Pairwise fun a b ↦ key a ≤ key b) :
    Ascending key l ↔ (l.map key).Nodup := by
  rw [Ascending, Nodup, pairwise_map]
  constructor
  · exact Pairwise.imp fun hlt ↦ hlt.ne
  · intro hne
    exact (hle.and hne).imp fun hab ↦ lt_of_le_of_ne hab.1 hab.2

theorem inForce_drop (hi : i < l.length) (hle : key l[i] ≤ n) :
    inForce key (l.drop i) n = inForce key l n := by
  have hmem : l[i] ∈ (l.drop i).filter fun a ↦ key a ≤ n := by
    rw [drop_eq_getElem_cons hi, mem_filter]
    exact ⟨mem_cons_self, by simpa using hle⟩
  obtain ⟨b, hb⟩ := ne_none_iff_exists'.mp (mt getLast?_eq_none_iff.mp (ne_nil_of_mem hmem))
  conv_rhs => rw [inForce, ← take_append_drop i l, filter_append, getLast?_append, hb]
  rw [inForce, hb, some_or]

theorem inForce_eq_none (h : Ascending key l) (hn : ∀ h0 : 0 < l.length, n < key l[0]) :
    inForce key l n = none := by
  rw [inForce, getLast?_eq_none_iff, filter_eq_nil_iff]
  intro a ha
  obtain ⟨k, hk, rfl⟩ := mem_iff_getElem.mp ha
  have h0 := hn (by omega)
  have hmono := h.le (i := 0) (by omega) hk (by omega)
  rw [decide_eq_true_eq]
  omega

theorem next_eq (h : Ascending key l) (hi : i < l.length) (hle : key l[i] ≤ n)
    (hnext : ∀ hj : i + 1 < l.length, n < key l[i + 1]) : next key l n = l[i + 1]? := by
  rw [next]
  conv_lhs => rw [← take_append_drop (i + 1) l]
  rw [find?_append, find?_eq_none.mpr, none_or]
  · by_cases hj : i + 1 < l.length
    · rw [drop_eq_getElem_cons hj, find?_cons_of_pos (by simpa using hnext hj),
        getElem?_eq_getElem hj]
    · rw [drop_of_length_le (by omega), getElem?_eq_none (by omega), find?_nil]
  · intro a ha
    simpa using (h.take_le hi a ha).trans hle

theorem exists_position (h : Ascending key l) (hex : ∃ a ∈ l, key a ≤ n) :
    ∃ i, ∃ hi : i < l.length, key l[i] ≤ n ∧ ∀ hj : i + 1 < l.length, n < key l[i + 1] := by
  induction l with
  | nil =>
    obtain ⟨a, ha, _⟩ := hex
    cases ha
  | cons a l ih =>
    by_cases htail : ∃ b ∈ l, key b ≤ n
    · obtain ⟨i, hi, hle, hnext⟩ := ih (Pairwise.of_cons h) htail
      exact ⟨i + 1, succ_lt_succ hi, hle, fun hj ↦ hnext (lt_of_succ_lt_succ hj)⟩
    · obtain ⟨b, hb, hle⟩ := hex
      have hba : b = a := by
        rcases mem_cons.mp hb with hba | hb
        · exact hba
        · exact absurd ⟨b, hb, hle⟩ htail
      refine ⟨0, succ_pos _, by simpa [← hba] using hle, fun hj ↦ ?_⟩
      by_contra hnot
      exact htail ⟨_, getElem_mem (lt_of_succ_lt_succ hj), not_lt.mp hnot⟩

end Mainnet.Lib.Timeline

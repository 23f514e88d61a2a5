import Mathlib.Data.List.AList
import Mathlib.Data.Set.Function

namespace Mainnet.Lib

open List AList

variable {α κ : Type} [DecidableEq κ]

def Indexes (f : α → κ) (s : Set α) (m : AList fun _ : κ ↦ α) : Prop :=
  ∀ k a, m.lookup k = some a ↔ f a = k ∧ a ∈ s

namespace Indexes

variable {f : α → κ} {s t S : Set α} {m : AList fun _ : κ ↦ α} {a : α} {k : κ}

theorem empty : Indexes f ∅ ∅ := by
  intro k a
  simp

section

variable (h : Indexes f s m)
include h

theorem congr (hst : ∀ a, a ∈ t ↔ a ∈ s) : Indexes f t m := by
  intro k a
  rw [hst]
  exact h k a

theorem mem_iff : k ∈ m ↔ ∃ a ∈ s, f a = k := by
  rw [← lookup_isSome, Option.isSome_iff_exists]
  constructor
  · rintro ⟨a, ha⟩
    obtain ⟨hk, hmem⟩ := (h k a).mp ha
    exact ⟨a, hmem, hk⟩
  · rintro ⟨a, hmem, hk⟩
    exact ⟨a, (h k a).mpr ⟨hk, hmem⟩⟩

theorem insert (ha : f a ∉ m) : Indexes f {b | b = a ∨ b ∈ s} (m.insert (f a) a) := by
  intro k b
  by_cases hk : k = f a
  · subst hk
    rw [lookup_insert, Option.some.injEq]
    constructor
    · rintro rfl
      exact ⟨rfl, .inl rfl⟩
    · rintro ⟨hkey, rfl | hmem⟩
      · rfl
      · exact absurd (h.mem_iff.mpr ⟨b, hmem, hkey⟩) ha
  · rw [lookup_insert_ne hk, h]
    constructor
    · rintro ⟨hkey, hmem⟩
      exact ⟨hkey, .inr hmem⟩
    · rintro ⟨hkey, rfl | hmem⟩
      · exact absurd hkey.symm hk
      · exact ⟨hkey, hmem⟩

theorem erase (hinj : S.InjOn f) (hs : s ⊆ S) (ha : a ∈ S) :
    Indexes f {b | b ∈ s ∧ b ≠ a} (m.erase (f a)) := by
  intro k b
  by_cases hk : k = f a
  · subst hk
    rw [lookup_erase]
    refine iff_of_false (by simp) ?_
    rintro ⟨hkey, hmem, hne⟩
    exact hne (hinj (hs hmem) ha hkey)
  · rw [lookup_erase_ne hk, h]
    constructor
    · rintro ⟨hkey, hmem⟩
      refine ⟨hkey, hmem, ?_⟩
      rintro rfl
      exact hk hkey.symm
    · rintro ⟨hkey, hmem, _⟩
      exact ⟨hkey, hmem⟩

theorem eraseAll (hinj : S.InjOn f) (hs : s ⊆ S) {l : List α}
    (hl : ∀ a ∈ l, a ∈ S) :
    Indexes f {b | b ∈ s ∧ b ∉ l} (l.foldl (fun m a ↦ m.erase (f a)) m) := by
  induction l generalizing s m with
  | nil =>
    refine h.congr ?_
    simp
  | cons a l ih =>
    rw [forall_mem_cons] at hl
    refine (ih (h.erase hinj hs hl.1) (fun b hb ↦ hs hb.1) hl.2).congr ?_
    intro b
    simp only [Set.mem_ofPred_eq, mem_cons, not_or, and_assoc]

end

end Indexes

variable {m : AList fun _ : κ ↦ α} {k : κ}

theorem length_insert (hk : k ∉ m) (a : α) :
    (m.insert k a).entries.length = m.entries.length + 1 := by
  rw [insert_of_notMem hk, length_cons]

theorem length_erase (m : AList fun _ : κ ↦ α) (k : κ) :
    (m.erase k).entries.length = m.entries.length - if k ∈ m then 1 else 0 := by
  have hkeys : ∀ m : AList fun _ : κ ↦ α, m.entries.length = m.keys.length := by
    intro m
    rw [AList.keys, List.keys, length_map]
  rw [hkeys, hkeys, keys_erase]
  split_ifs with hk
  · exact length_erase_of_mem (mem_keys.mp hk)
  · rw [erase_of_not_mem hk, Nat.sub_zero]

theorem length_foldl_erase (f : α → κ) (l : List α) (m : AList fun _ : κ ↦ α) :
    (l.foldl (fun m a ↦ m.erase (f a)) m).entries.length ≤ m.entries.length := by
  induction l generalizing m with
  | nil => exact le_rfl
  | cons a l ih =>
    refine (ih _).trans ?_
    rw [length_erase]
    exact Nat.sub_le _ _

end Mainnet.Lib

import Mainnet.Validators.SnapshotRestart

namespace Mainnet.Validators

open Types Lib List Timeline Snapshot Search

namespace SnapshotStore

variable (s : SnapshotStore)

/-- The search looks for an equal number, not for the first one that is not below. -/
def putByNumber (snap : Snapshot) : SnapshotStore :=
  let i := search s.list.length fun i ↦
    (s.list[i]?).any fun x ↦ decide (x.number = snap.number)
  if i < s.list.length then { s with list := s.list.set i snap } else s.add snap

/-- The chain has no header at the height that an unsigned `fromHeight - 1` gives for zero. -/
def updateValidatorSet (chain : List Header) (newValidators : ValidatorSet) (fromHeight : ℕ) :
    Except InitError SnapshotStore :=
  let snapshotHeight := (fromHeight + 2 ^ 64 - 1) % 2 ^ 64
  match chain[snapshotHeight]? with
  | none => .error (.headerAtNotFound snapshotHeight)
  | some header => .ok (s.putByNumber ⟨header.number, header.hash, [], newValidators⟩)

structure Puts (s s' : SnapshotStore) (snap : Snapshot) : Prop where
  ascending : Ascending number s'.list
  others : ∀ x, x ∈ s'.list ↔ x = snap ∨ (x ∈ s.list ∧ x.number ≠ snap.number)
  found : s'.find snap.number = some snap

/-- The search for the number of `snap` looks at the snapshot that has it. -/
def Probed (snap : Snapshot) : Prop :=
  ∀ p, (hp : p < s.list.length) → s.list[p].number = snap.number →
    p ∈ probes s.list.length 0 s.list.length

instance (snap : Snapshot) : Decidable (s.Probed snap) :=
  inferInstanceAs (Decidable (∀ p, (hp : p < s.list.length) → _ → _))

variable {s} {snap : Snapshot}

theorem find_number (h : Ascending number s.list) (hs : snap ∈ s.list) :
    s.find snap.number = some snap :=
  find_of_inForce h (inForce_key h hs)

theorem mem_add {x : Snapshot} : x ∈ (s.add snap).list ↔ x ∈ s.list ∨ x = snap := by
  rw [add, mem_insertionSort, mem_append, mem_singleton]

section

variable (h : Ascending number s.list)
include h

theorem add_ascending_iff :
    Ascending number (s.add snap).list ↔
      ∀ x ∈ s.list, x.number ≠ snap.number := by
  have hsorted : (s.add snap).list.Pairwise fun a b ↦ a.number ≤ b.number :=
    pairwise_insertionSort _ _
  have hperm : ((s.add snap).list.map number).Perm
      (s.list.map number ++ [snap.number]) := by
    have hp := (perm_insertionSort (fun a b : Snapshot ↦ a.number ≤ b.number)
      (s.list ++ [snap])).map number
    rwa [map_append, map_singleton] at hp
  have hnodup := (ascending_iff_nodup (h.imp fun hab ↦ hab.le)).mp h
  rw [ascending_iff_nodup hsorted, hperm.nodup_iff, ← concat_eq_append, nodup_concat]
  constructor
  · rintro ⟨hnot, -⟩ x hx heq
    exact hnot (heq ▸ mem_map_of_mem hx)
  · intro hne
    refine ⟨fun hmem ↦ ?_, hnodup⟩
    obtain ⟨x, hx, heq⟩ := mem_map.mp hmem
    exact hne x hx heq

theorem puts_add (hne : ∀ x ∈ s.list, x.number ≠ snap.number) : Puts s (s.add snap) snap := by
  have hasc := (add_ascending_iff h).mpr hne
  refine ⟨hasc, fun x ↦ ?_, find_number hasc (mem_add.mpr (.inr rfl))⟩
  rw [mem_add]
  constructor
  · rintro (hx | hx)
    · exact .inr ⟨hx, hne x hx⟩
    · exact .inl hx
  · rintro (hx | hx)
    · exact .inr hx
    · exact .inl hx.1

theorem puts_set {p : ℕ} (hp : p < s.list.length)
    (hnum : s.list[p].number = snap.number) :
    Puts s { s with list := s.list.set p snap } snap := by
  have hnums : (s.list.set p snap).map number = s.list.map number := by
    apply ext_getElem (by simp)
    intro i hi _
    rw [getElem_map, getElem_map, getElem_set]
    split_ifs with heq
    · subst heq
      exact hnum.symm
    · rfl
  have hasc : Ascending number (s.list.set p snap) := by
    have hlt := pairwise_map.mpr h
    rw [← hnums] at hlt
    exact pairwise_map.mp hlt
  refine ⟨hasc, fun x ↦ ?_, find_number hasc (mem_set hp snap)⟩
  show x ∈ s.list.set p snap ↔ _
  constructor
  · intro hx
    obtain ⟨i, hi, rfl⟩ := mem_iff_getElem.mp hx
    rw [length_set] at hi
    rw [getElem_set]
    by_cases heq : p = i
    · rw [if_pos heq]
      exact .inl rfl
    · rw [if_neg heq]
      exact .inr ⟨getElem_mem hi, fun hn ↦ heq (h.inj hp hi (hnum.trans hn.symm))⟩
  · rintro (rfl | ⟨hx, hn⟩)
    · exact mem_set hp x
    · obtain ⟨i, hi, rfl⟩ := mem_iff_getElem.mp hx
      have hpi : p ≠ i := by
        rintro rfl
        exact hn hnum
      exact mem_iff_getElem.mpr ⟨i, by rwa [length_set], by rw [getElem_set_ne hpi]⟩

end

theorem putByNumber_absent (hne : ∀ x ∈ s.list, x.number ≠ snap.number) :
    s.putByNumber snap = s.add snap := by
  have hsearch : search s.list.length (fun i ↦
      (s.list[i]?).any fun x ↦ decide (x.number = snap.number)) = s.list.length := by
    apply search_false
    intro k hk
    simpa [getElem?_eq_getElem hk] using hne _ (getElem_mem hk)
  simp only [putByNumber, hsearch, lt_irrefl, if_false]

theorem putByNumber_present (h : Ascending number s.list) {p : ℕ}
    (hp : p < s.list.length) (hnum : s.list[p].number = snap.number) :
    s.putByNumber snap =
      if p ∈ probes s.list.length 0 s.list.length then { s with list := s.list.set p snap }
      else s.add snap := by
  have hsearch := search_single (n := s.list.length) (p := p)
    (f := fun i ↦ (s.list[i]?).any fun x ↦ decide (x.number = snap.number)) (fun k hk ↦ by
      rw [getElem?_eq_getElem hk, Option.any_some, decide_eq_true_eq, ← hnum]
      constructor
      · exact h.inj hk hp
      · rintro rfl
        rfl)
  simp only [putByNumber, hsearch]
  by_cases hin : p ∈ probes s.list.length 0 s.list.length
  · rw [if_pos hin, if_pos hin, if_pos hp]
  · rw [if_neg hin, if_neg hin, if_neg (lt_irrefl _)]

theorem puts_of_probed (h : Ascending number s.list) (hprobed : s.Probed snap) :
    Puts s (s.putByNumber snap) snap := by
  by_cases hne : ∀ x ∈ s.list, x.number ≠ snap.number
  · rw [putByNumber_absent hne]
    exact puts_add h hne
  · push Not at hne
    obtain ⟨x, hx, hnum⟩ := hne
    obtain ⟨p, hp, rfl⟩ := mem_iff_getElem.mp hx
    rw [putByNumber_present h hp hnum, if_pos (hprobed p hp hnum)]
    exact puts_set h hp hnum

/-- Putting a snapshot keeps the list sorted by distinct numbers exactly when the number is
missing or the search looks at the snapshot that has it. -/
theorem putByNumber_puts_iff (s : SnapshotStore) (snap : Snapshot)
    (h : Ascending number s.list) :
    Puts s (s.putByNumber snap) snap ↔ s.Probed snap := by
  constructor
  · intro hput p hp hnum
    by_contra hnot
    have hasc := hput.ascending
    rw [putByNumber_present h hp hnum, if_neg hnot, add_ascending_iff h] at hasc
    exact hasc _ (getElem_mem hp) hnum
  · exact puts_of_probed h

theorem updateValidatorSet_validators {s' : SnapshotStore} {newValidators : ValidatorSet}
    {height : ℕ} (chain : List Header) (header : Header)
    (h : Ascending number s.list) (hat : chain[header.number]? = some header)
    (hlt : header.number < 2 ^ 64)
    (hprobed : s.Probed ⟨header.number, header.hash, [], newValidators⟩)
    (hs : s.updateValidatorSet chain newValidators (header.number + 1) = .ok s')
    (hle : header.number ≤ height)
    (hnext : ∀ x ∈ s.list, x.number ≤ header.number ∨ height < x.number) :
    s'.getValidatorsByHeight height = .ok newValidators := by
  have hheight : (header.number + 1 + 2 ^ 64 - 1) % 2 ^ 64 = header.number := by omega
  simp only [updateValidatorSet, hheight, hat, Except.ok.injEq] at hs
  subst hs
  have hput := puts_of_probed h hprobed
  have hin := inForce_until hput.ascending ((hput.others _).mpr (.inl rfl)) hle
    (fun x hx ↦ by
      rcases (hput.others x).mp hx with rfl | ⟨hx, -⟩
      · exact .inl le_rfl
      · exact hnext x hx)
  rw [getValidatorsByHeight, find_of_inForce hput.ascending hin]

theorem putByNumber_puts_three :
    Puts (numbered [1, 2, 3]) ((numbered [1, 2, 3]).putByNumber ⟨3, zeroHash, [], emptySet⟩)
      ⟨3, zeroHash, [], emptySet⟩ :=
  (putByNumber_puts_iff (numbered [1, 2, 3]) ⟨3, zeroHash, [], emptySet⟩ (by decide)).mpr (by decide)

def oneValidator : ValidatorSet := ⟨.ecdsa, [.ecdsa (Tracked.addressOf 1)], by simp [Validator.type]⟩

def sixHeaders : List Header :=
  (range 6).map fun number ↦ { (default : Header) with number := number }

/-- The set of height 4 is replaced, and holds up to the snapshot of height 9. -/
theorem updateValidatorSet_validators_four :
    ∃ s', (numbered [0, 2, 4, 9]).updateValidatorSet sixHeaders oneValidator 5 = .ok s' ∧
      s'.getValidatorsByHeight 8 = .ok oneValidator ∧
      s'.list.map number = [0, 2, 4, 9] ∧ s'.getValidatorsByHeight 9 = .ok emptySet := by
  have hs : (numbered [0, 2, 4, 9]).updateValidatorSet sixHeaders oneValidator 5 = .ok _ := rfl
  exact ⟨_, hs, updateValidatorSet_validators sixHeaders { (default : Header) with number := 4 }
    (by decide) rfl (by decide) (by decide) hs (by decide) (by decide), by decide, by decide⟩

/-- In 0, 10 the search for 0 looks at 10 only: the set that is to hold from block 1 on comes second,
and the old one still answers. -/
theorem putByNumber_duplicates :
    ¬ ∀ (s : SnapshotStore) (snap : Snapshot), Ascending number s.list →
      Puts s (s.putByNumber snap) snap := by
  intro hall
  have hput := hall (numbered [0, 10]) ⟨0, zeroHash, [], oneValidator⟩ (by decide)
  exact absurd hput.found (by decide +kernel)

end SnapshotStore

end Mainnet.Validators

import Mainnet.Lib.Run
import Mathlib.Data.List.Perm.Basic

namespace Mainnet.Txpool

open Lib List

def lockKind (write : Bool) : UInt32 := if write then 1 else 0

/-- How far a goroutine is: before `lock(write)`, between its lock and its store, before `unlock`,
and before the release that `unlock` has chosen by the flag it swapped out. -/
inductive Goroutine
  | idle
  | locked (write : Bool)
  | stored (write : Bool)
  | swapped (write : Bool) (flag : UInt32)
deriving DecidableEq

namespace Goroutine

/-- The kind of lock that the goroutine has acquired and not yet released. -/
def holds : Goroutine → Option Bool
  | idle => none
  | locked write => some write
  | stored write => some write
  | swapped write _ => some write

def Agrees (wLock : UInt32) : Goroutine → Prop
  | stored write => wLock = lockKind write
  | swapped write flag => flag = lockKind write
  | _ => True

end Goroutine

open Goroutine

/-- The locks of the `RWMutex` that are held, its flag and the goroutines. -/
structure QueueLock where
  held : List Bool
  wLock : UInt32
  goroutines : List Goroutine

namespace QueueLock

def start (n : ℕ) : QueueLock := ⟨[], 0, replicate n idle⟩

def grants (s : QueueLock) (write : Bool) : Bool :=
  if write then s.held.isEmpty else !s.held.contains true

/-- A goroutine makes its next move. One that is idle calls `lock(write)`, and waits while the mutex
does not grant it. -/
def step (s : QueueLock) (e : ℕ × Bool) : QueueLock :=
  match s.goroutines[e.1]? with
  | none => s
  | some .idle =>
    if s.grants e.2 then
      { s with held := e.2 :: s.held, goroutines := s.goroutines.set e.1 (locked e.2) }
    else s
  | some (.locked write) =>
    { s with wLock := lockKind write, goroutines := s.goroutines.set e.1 (stored write) }
  | some (.stored write) =>
    { s with wLock := 0, goroutines := s.goroutines.set e.1 (swapped write s.wLock) }
  | some (.swapped _ flag) =>
    { s with held := s.held.erase (flag == 1), goroutines := s.goroutines.set e.1 idle }

def run (n : ℕ) (es : List (ℕ × Bool)) : QueueLock := Run.exec step (start n) es

/-- A goroutine that is about to release a lock releases the kind that it has acquired, and the
mutex is held in that kind. -/
def ReleasesOwn (s : QueueLock) : Prop :=
  ∀ write flag, swapped write flag ∈ s.goroutines → (flag == 1) = write ∧ write ∈ s.held

structure Consistent (s : QueueLock) : Prop where
  held : s.held ~ s.goroutines.filterMap holds
  exclusive : true ∈ s.held → s.held = [true]
  agrees : ∀ g ∈ s.goroutines, g.Agrees s.wLock

variable {s : QueueLock}

theorem consistent_start (n : ℕ) : (start n).Consistent := by
  refine ⟨?_, by simp [start], fun g hg ↦ ?_⟩
  · simp [start, filterMap_replicate, holds]
  · rw [eq_of_mem_replicate hg]
    trivial

section

variable {g : Goroutine} {others : List Goroutine} (hperm : s.goroutines ~ g :: others)
include hperm

theorem consistent_of_perm (hheld : s.held ~ (g :: others).filterMap holds)
    (hexclusive : true ∈ s.held → s.held = [true]) (hg : g.Agrees s.wLock)
    (hothers : ∀ g' ∈ others, g'.Agrees s.wLock) : s.Consistent := by
  refine ⟨hheld.trans (hperm.filterMap holds).symm, hexclusive, fun g' hg' ↦ ?_⟩
  rcases mem_cons.mp (hperm.mem_iff.mp hg') with rfl | hg'
  · exact hg
  · exact hothers g' hg'

variable (h : s.Consistent) {write : Bool} (hg : g.holds = some write)
include h hg

theorem Consistent.held_perm : s.held ~ write :: others.filterMap holds := by
  rw [← filterMap_cons_some hg]
  exact h.held.trans (hperm.filterMap holds)

/-- While a goroutine has a lock, another one can only have one if both are for reading. -/
theorem Consistent.readers {g' : Goroutine} (hg' : g' ∈ others) {write' : Bool}
    (hw : g'.holds = some write') : write = false ∧ write' = false := by
  have hheld := h.held_perm hperm hg
  have hmem : write' ∈ others.filterMap holds := mem_filterMap.mpr ⟨g', hg', hw⟩
  by_contra hne
  have htrue : true ∈ s.held := by
    rw [hheld.mem_iff, mem_cons]
    cases write <;> cases write' <;> simp_all
  rw [h.exclusive htrue] at hheld
  have hlen := hheld.length_eq
  have hpos := length_pos_of_mem hmem
  simp only [length_cons, length_nil] at hlen
  omega

theorem Consistent.others_agree {wLock : UInt32} (hv : write = false → wLock = 0) :
    ∀ g' ∈ others, g'.Agrees wLock := by
  intro g' hg'
  have hagrees := h.agrees g' (hperm.mem_iff.mpr (mem_cons_of_mem g hg'))
  cases g' with
  | idle | locked write' => trivial
  | stored write' =>
    obtain ⟨hfalse, rfl⟩ := h.readers hperm hg hg' rfl
    exact hv hfalse
  | swapped write' flag => exact hagrees

end

theorem Consistent.step (h : s.Consistent) (e : ℕ × Bool) : (s.step e).Consistent := by
  rw [QueueLock.step]
  cases hi : s.goroutines[e.1]? with
  | none => exact h
  | some g =>
    obtain ⟨hlt, hat⟩ := List.getElem?_eq_some_iff.mp hi
    have hperm : s.goroutines ~ g :: s.goroutines.eraseIdx e.1 :=
      hat ▸ (getElem_cons_eraseIdx_perm hlt).symm
    have hset : ∀ g', s.goroutines.set e.1 g' ~ g' :: s.goroutines.eraseIdx e.1 :=
      set_perm_cons_eraseIdx hlt
    have hown := h.agrees g (hperm.mem_iff.mpr mem_cons_self)
    cases g with
    | idle =>
      dsimp only
      split
      · rename_i hgrant
        refine consistent_of_perm (hset _) ((h.held.trans (hperm.filterMap holds)).cons e.2) ?_
          trivial fun g' hg' ↦ h.agrees g' (hperm.mem_iff.mpr (mem_cons_of_mem _ hg'))
        cases hw : e.2 <;> simp_all [grants]
      · exact h
    | locked write =>
      refine consistent_of_perm (hset _) (h.held_perm hperm rfl) h.exclusive rfl
        (h.others_agree hperm rfl ?_)
      rintro rfl
      rfl
    | stored write =>
      exact consistent_of_perm (hset _) (h.held_perm hperm rfl) h.exclusive hown
        (h.others_agree hperm rfl fun _ ↦ rfl)
    | swapped write flag =>
      have hheld := h.held_perm hperm rfl
      have hflag : (flag == 1) = write := by
        rw [show flag = lockKind write from hown]
        cases write <;> rfl
      simp only [hflag]
      refine consistent_of_perm (hset _) ?_ (fun htrue ↦ ?_) trivial
        fun g' hg' ↦ h.agrees g' (hperm.mem_iff.mpr (mem_cons_of_mem _ hg'))
      · exact (hheld.erase write).trans (by rw [erase_cons_head]; rfl)
      · have hsingle := h.exclusive (mem_of_mem_erase htrue)
        have hwrite : write ∈ s.held := hheld.mem_iff.mpr mem_cons_self
        rw [hsingle] at htrue hwrite
        rw [mem_singleton.mp hwrite] at htrue
        cases htrue

theorem unlock_releases_own (n : ℕ) (es : List (ℕ × Bool)) : (run n es).ReleasesOwn := by
  have h : (run n es).Consistent :=
    Run.exec_invariant (consistent_start n) (fun s e hs ↦ hs.step e) es
  intro write flag hmem
  have hflag : flag = lockKind write := h.agrees _ hmem
  refine ⟨?_, h.held.mem_iff.mpr (mem_filterMap.mpr ⟨_, hmem, rfl⟩)⟩
  rw [hflag]
  cases write <;> rfl

end QueueLock

end Mainnet.Txpool

import Mainnet.Lib.IndexedHeap

namespace Mainnet.Jsonrpc

open Lib List Function Heap

structure FilterBase where
  heapIndex : ℤ
  expiresAt : ℕ
  ws : Bool
deriving DecidableEq

structure TimeHeap where
  items : List String
  bases : String → FilterBase

def noIndexInHeap : ℤ := -1

namespace TimeHeap

def setHeapIndex (bases : String → FilterBase) (id : String) (index : ℤ) : String → FilterBase :=
  update bases id { bases id with heapIndex := index }

def less (t : TimeHeap) (i j : ℕ) : Bool :=
  match t.items[i]?, t.items[j]? with
  | some a, some b => decide ((t.bases a).expiresAt < (t.bases b).expiresAt)
  | _, _ => false

def swap (t : TimeHeap) (i j : ℕ) : TimeHeap :=
  match t.items[i]?, t.items[j]? with
  | some a, some b =>
    { items := (t.items.set i b).set j a
      bases := setHeapIndex (setHeapIndex t.bases b i) a j }
  | _, _ => t

def push (t : TimeHeap) (id : String) : TimeHeap where
  items := t.items ++ [id]
  bases := setHeapIndex t.bases id t.items.length

def pop (t : TimeHeap) : TimeHeap :=
  match t.items.getLast? with
  | some item =>
    { items := t.items.dropLast
      bases := setHeapIndex t.bases item noIndexInHeap }
  | none => t

def ops : Ops TimeHeap := ⟨less, swap⟩

def addFilter (t : TimeHeap) (id : String) : TimeHeap :=
  up ops (t.push id) t.items.length

def remove (t : TimeHeap) (i : ℕ) : TimeHeap := (bringLast ops t i (t.items.length - 1)).pop

def removeFilter (t : TimeHeap) (id : String) : TimeHeap × Bool :=
  if (t.bases id).heapIndex = noIndexInHeap then (t, false)
  else (t.remove (t.bases id).heapIndex.toNat, true)

structure Indexed (t : TimeHeap) : Prop where
  nodup : t.items.Nodup
  heapIndex : ∀ (k : ℕ) id, t.items[k]? = some id → (t.bases id).heapIndex = k
  outside : ∀ id ∉ t.items, (t.bases id).heapIndex = noIndexInHeap

variable {t t' : TimeHeap} {id : String} {i j k n : ℕ}

theorem heapIndex_setHeapIndex (bases : String → FilterBase) (id : String) (index : ℤ) :
    (fun other ↦ (setHeapIndex bases id index other).heapIndex) =
      update (fun other ↦ (bases other).heapIndex) id index := by
  funext other
  by_cases h : other = id
  · rw [h, setHeapIndex, update_self, update_self]
  · rw [setHeapIndex, update_of_ne h, update_of_ne h]

theorem setHeapIndex_ws (bases : String → FilterBase) (id other : String) (index : ℤ) :
    (setHeapIndex bases id index other).ws = (bases other).ws := by
  by_cases h : other = id
  · rw [h, setHeapIndex, update_self]
  · rw [setHeapIndex, update_of_ne h]

theorem indexed_iff : t.Indexed ↔ Heap.Indexed t.items fun id ↦ (t.bases id).heapIndex :=
  ⟨fun h ↦ ⟨h.nodup, h.heapIndex, h.outside⟩, fun h ↦ ⟨h.nodup, h.place, h.outside⟩⟩

structure Holds (t : TimeHeap) (items : List String) (ws : String → Bool) : Prop where
  indexed : t.Indexed
  perm : t.items.Perm items
  ws : ∀ id, (t.bases id).ws = ws id

variable {items : List String} {ws : String → Bool}

theorem Indexed.holds (h : t.Indexed) : t.Holds t.items fun id ↦ (t.bases id).ws :=
  ⟨h, Perm.refl _, fun _ ↦ rfl⟩

theorem Holds.length_eq (h : t.Holds items ws) : t.items.length = items.length :=
  h.perm.length_eq

theorem Holds.mem_iff (h : t.Holds items ws) : id ∈ t.items ↔ id ∈ items := h.perm.mem_iff

theorem swap_eq (hi : i < t.items.length) (hj : j < t.items.length) :
    t.swap i j =
      { items := (t.items.set i t.items[j]).set j t.items[i]
        bases := setHeapIndex (setHeapIndex t.bases t.items[j] i) t.items[i] j } := by
  rw [swap, getElem?_eq_getElem hi, getElem?_eq_getElem hj]

theorem getElem?_swap (hi : i < t.items.length) (hj : j < t.items.length) (k : ℕ) :
    (t.swap i j).items[k]? =
      if k = j then t.items[i]? else if k = i then t.items[j]? else t.items[k]? := by
  rw [swap_eq hi hj, getElem?_set, getElem?_set, length_set,
    getElem?_eq_getElem hi, getElem?_eq_getElem hj]
  grind

section

variable (h : t.Holds items ws)
include h

theorem Holds.swap (hi : i < t.items.length) (hj : j < t.items.length) :
    (t.swap i j).Holds items ws := by
  have hswap := (indexed_iff.mp h.indexed).swap (getElem?_eq_getElem hi)
    (getElem?_eq_getElem hj)
  rw [swap_eq hi hj]
  refine ⟨indexed_iff.mpr ?_, (set_set_perm hi hj).trans h.perm, fun id ↦ ?_⟩
  · rwa [heapIndex_setHeapIndex, heapIndex_setHeapIndex]
  · rw [setHeapIndex_ws, setHeapIndex_ws, h.ws]

theorem Holds.push (hid : id ∉ items) : (t.push id).Holds (items ++ [id]) ws := by
  rw [← h.mem_iff] at hid
  refine ⟨indexed_iff.mpr ?_, h.perm.append_right [id], fun other ↦ ?_⟩
  · dsimp only [TimeHeap.push]
    rw [heapIndex_setHeapIndex]
    exact (indexed_iff.mp h.indexed).push hid
  · exact (setHeapIndex_ws ..).trans (h.ws other)

theorem Holds.addFilter (hid : id ∉ items) : (t.addFilter id).Holds (items ++ [id]) ws := by
  have hpush := h.push hid
  have hlen : t.items.length + 1 = (items ++ [id]).length :=
    length_append.symm.trans hpush.length_eq
  refine up_invariant (I := fun s : TimeHeap ↦ s.Holds (items ++ [id]) ws)
    (n := t.items.length + 1) ?_ (Nat.lt_succ_self _) hpush
  intro s i j hi hj hs
  rw [hlen, ← hs.length_eq] at hi hj
  exact hs.swap hi hj

theorem Holds.pop (hlast : t.items.getLast? = some id) : t.pop.Holds (items.erase id) ws := by
  have hsplit := dropLast_append_getLast? id hlast
  have hindexed := indexed_iff.mp h.indexed
  rw [← hsplit] at hindexed
  rw [TimeHeap.pop, hlast]
  refine ⟨indexed_iff.mpr ?_, ?_, fun other ↦ (setHeapIndex_ws ..).trans (h.ws other)⟩
  · rw [heapIndex_setHeapIndex]
    exact hindexed.pop
  · have hperm : (id :: t.items.dropLast).Perm items :=
      (perm_append_singleton id _).symm.trans ((Perm.of_eq hsplit).trans h.perm)
    exact erase_cons_head id t.items.dropLast ▸ hperm.erase id

theorem Holds.remove (hi : t.items[i]? = some id) : (t.remove i).Holds (items.erase id) ws := by
  have hlt := (List.getElem?_eq_some_iff.mp hi).1
  obtain ⟨n, hn⟩ : ∃ n, t.items.length = n + 1 := ⟨t.items.length - 1, by omega⟩
  have hnlt : n < t.items.length := by omega
  have hlast : (bringLast ops t i n).Holds items ws ∧
      (bringLast ops t i n).items[n]? = some id := by
    rcases Nat.lt_or_eq_of_le (Nat.le_of_lt_succ (hn ▸ hlt)) with hin | rfl
    · -- the element is swapped to the end, and the sifts stay below it
      refine bringLast_invariant
        (I := fun s : TimeHeap ↦ s.Holds items ws ∧ s.items[n]? = some id) ?_ hin
        ⟨h.swap hlt hnlt, ?_⟩
      · rintro s i j hi hj ⟨hs, hsn⟩
        have hslen : s.items.length = n + 1 := hs.length_eq.trans (h.length_eq.symm.trans hn)
        refine ⟨hs.swap (by omega) (by omega), ?_⟩
        refine (getElem?_swap (by omega) (by omega) n).trans ?_
        rw [if_neg (by omega), if_neg (by omega), hsn]
      · exact (getElem?_swap hlt hnlt n).trans ((if_pos rfl).trans hi)
    · rw [bringLast, if_neg (by simp)]
      exact ⟨h, hi⟩
  rw [TimeHeap.remove, hn, Nat.add_sub_cancel]
  refine hlast.1.pop ?_
  rw [getLast?_eq_getElem?, hlast.1.length_eq, ← h.length_eq, hn, Nat.add_sub_cancel, hlast.2]

theorem Holds.removeFilter (id : String) :
    (t.removeFilter id).1.Holds (items.erase id) ws ∧
      ((t.removeFilter id).2 = true ↔ id ∈ items) := by
  rw [← h.mem_iff]
  by_cases hid : id ∈ t.items
  · obtain ⟨k, hk⟩ := mem_iff_getElem?.mp hid
    have hindex := h.indexed.heapIndex k id hk
    have hne : (t.bases id).heapIndex ≠ noIndexInHeap := by
      rw [hindex, noIndexInHeap]
      omega
    rw [TimeHeap.removeFilter, if_neg hne, hindex]
    exact ⟨h.remove hk, fun _ ↦ hid, fun _ ↦ rfl⟩
  · rw [TimeHeap.removeFilter, if_pos (h.indexed.outside id hid)]
    rw [erase_of_not_mem (h.mem_iff.not.mp hid)]
    exact ⟨h, nofun, fun hmem ↦ absurd hmem hid⟩

end

end TimeHeap

end Mainnet.Jsonrpc

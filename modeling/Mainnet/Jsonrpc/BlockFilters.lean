import Mainnet.Lib.Run
import Mainnet.Types.Address

namespace Mainnet.Jsonrpc

open Types Lib List Option Nat

/-- An element of the stream. Of a block only its hash is read; the first head may have none. -/
structure HeadElem where
  header : Option Hash
  next : Option ℕ

/-- `poll` is a call of `getUpdates` on its way: the element it has come to and what it has found.
`results` are the hashes that earlier calls have returned. The blocks that had been pushed when the
filter was made, and when its last call ended, are counted by `created` and `polled`. -/
structure BlockFilter where
  block : ℕ
  poll : Option (ℕ × List Hash)
  results : List String
  created : ℕ
  polled : ℕ
deriving DecidableEq

/-- `newHead` is an element that `push` has linked and not yet made the head; `pushed` are the blocks
of all events. -/
structure BlockStream where
  elems : List HeadElem
  head : ℕ
  newHead : Option ℕ
  pushed : List Hash
  filters : List BlockFilter

inductive StreamAction
  | push (hash : Hash)
  | storeHead
  | newBlockFilter
  | getUpdates (filter : ℕ)
  | next (filter : ℕ)

namespace BlockStream

def new (header : Option Hash) : BlockStream := ⟨[⟨header, none⟩], 0, none, [], []⟩

def completed (s : BlockStream) : ℕ := if s.newHead.isSome then s.pushed.length - 1 else s.pushed.length

def advance (s : BlockStream) (f : BlockFilter) : BlockFilter :=
  match f.poll with
  | none => f
  | some (cur, res) =>
    match (s.elems[cur]?).bind (·.next) with
    | none =>
      { f with
        block := cur
        poll := none
        results := f.results ++ res.map fun hash ↦ encodeToHex hash.bytes }
    | some next =>
      { f with poll := some (next, res ++ ((s.elems[next]?).bind (·.header)).toList) }

/-- A call that comes to its end is marked with the blocks that have been pushed by then. -/
def next (s : BlockStream) (f : BlockFilter) : BlockFilter :=
  if f.poll.isSome ∧ (s.advance f).poll.isNone then { s.advance f with polled := s.pushed.length }
  else s.advance f

/-- Calls of `getUpdates` on one filter do not overlap. -/
def step (s : BlockStream) : StreamAction → BlockStream
  | .push hash =>
    if s.newHead.isSome then s
    else
      { s with
        elems := s.elems.modify s.head (fun e ↦ { e with next := some s.elems.length }) ++
          [⟨some hash, none⟩]
        newHead := some s.elems.length
        pushed := s.pushed ++ [hash] }
  | .storeHead =>
    match s.newHead with
    | none => s
    | some head => { s with head := head, newHead := none }
  | .newBlockFilter =>
    { s with filters := s.filters ++ [⟨s.head, none, [], s.completed, s.completed⟩] }
  | .getUpdates i =>
    { s with filters := s.filters.modify i fun f ↦
        if f.poll.isSome then f else { f with poll := some (f.block, []) } }
  | .next i => { s with filters := s.filters.modify i s.next }

def between (pushed : List Hash) (a b : ℕ) : List Hash := (pushed.take b).drop a

structure Linked (s : BlockStream) : Prop where
  length : s.elems.length = s.pushed.length + 1
  header : ∀ n, ((s.elems[n + 1]?).bind (·.header)) = s.pushed[n]?
  next : ∀ n, ((s.elems[n]?).bind (·.next)) = if n < s.pushed.length then some (n + 1) else none
  newHead : ∀ n, s.newHead = some n → n = s.pushed.length
  head : s.head = s.completed

structure Follows (pushed : List Hash) (f : BlockFilter) : Prop where
  created_le : f.created ≤ f.polled
  polled_le : f.polled ≤ pushed.length
  block : f.block = f.polled
  results : f.results = (between pushed f.created f.polled).map fun hash ↦ encodeToHex hash.bytes
  poll : ∀ cur res, f.poll = some (cur, res) →
    f.polled ≤ cur ∧ cur ≤ pushed.length ∧ res = between pushed f.polled cur

variable {s : BlockStream} {f : BlockFilter} {pushed : List Hash} {a b c : ℕ} {hash : Hash}

theorem between_push (a : ℕ) (hb : b ≤ pushed.length) :
    between (pushed ++ [hash]) a b = between pushed a b := by
  rw [between, take_append_of_le_length hb, between]

theorem between_self (pushed : List Hash) (n : ℕ) : between pushed n n = [] := by
  rw [between, drop_eq_nil_iff, length_take]
  exact min_le_left _ _

theorem between_append (hab : a ≤ b) (hbc : b ≤ c) (hc : c ≤ pushed.length) :
    between pushed a b ++ between pushed b c = between pushed a c := by
  have hsplit := take_append_drop b (pushed.take c)
  rw [take_take, min_eq_left hbc] at hsplit
  have hlength : a ≤ (pushed.take b).length := by
    rw [length_take]
    omega
  rw [between, between, ← drop_append_of_le_length hlength, hsplit, between]

theorem between_single (h : pushed[b]? = some hash) : between pushed b (b + 1) = [hash] := by
  have hlt := (List.getElem?_eq_some_iff.mp h).1
  rw [between, take_add_one, h, drop_left' (length_take_of_le hlt.le)]
  rfl

theorem Linked.push (h : Linked s) (hash : Hash) : Linked (s.step (.push hash)) := by
  rw [step]
  split
  · exact h
  next hnone =>
    have hhead : s.head = s.pushed.length := h.head.trans (if_neg hnone)
    have hlength := h.length
    refine ⟨by simp [hlength], fun n ↦ ?_, fun n ↦ ?_, ?_, ?_⟩
    · rw [getElem?_append, getElem?_append, length_modify, hlength, getElem?_modify, ← h.header n]
      split
      · rw [if_pos (by omega)]
        cases s.elems[n + 1]? with
        | none => rfl
        | some e =>
          dsimp only [map_some, bind_some]
          split <;> rfl
      · rw [if_neg (by omega), Nat.add_sub_add_right]
        cases n - s.pushed.length <;> rfl
    · have hold := h.next n
      rw [getElem?_append, length_modify, hlength, getElem?_modify, hhead,
        length_append, length_singleton]
      by_cases hlt : n < s.pushed.length + 1
      · rw [if_pos hlt, if_pos hlt, getElem?_eq_getElem (by omega)]
        rw [getElem?_eq_getElem (by omega), bind_some] at hold
        change (if s.pushed.length = n then _ else _ : HeadElem).next = _
        split
        · next heq => rw [heq]
        · rw [hold, if_pos (by omega)]
      · rw [if_neg hlt, if_neg hlt]
        cases n - (s.pushed.length + 1) <;> rfl
    · rintro _ ⟨⟩
      simp [hlength]
    · simp [completed, hhead]

theorem Linked.step (h : Linked s) (a : StreamAction) : Linked (s.step a) := by
  cases a with
  | push hash => exact h.push hash
  | storeHead =>
    rw [BlockStream.step]
    split
    · exact h
    · next n hn => exact ⟨h.length, h.header, h.next, by simp, h.newHead n hn⟩
  | newBlockFilter | getUpdates i | next i => exact ⟨h.length, h.header, h.next, h.newHead, h.head⟩

theorem Follows.push (h : Follows pushed f) (hash : Hash) : Follows (pushed ++ [hash]) f := by
  have hle {n : ℕ} (hn : n ≤ pushed.length) : n ≤ (pushed ++ [hash]).length := by
    rw [length_append]
    exact le_add_right_of_le hn
  refine ⟨h.created_le, hle h.polled_le, h.block, ?_, fun cur res hpoll ↦ ?_⟩
  · rw [h.results, between_push _ h.polled_le]
  · obtain ⟨hpolled, hcur, hres⟩ := h.poll cur res hpoll
    exact ⟨hpolled, hle hcur, by rw [hres, between_push _ hcur]⟩

theorem next_of_lt (hs : Linked s) {res : List Hash} (hpoll : f.poll = some (a, res))
    (h : s.pushed[a]? = some hash) : s.next f = { f with poll := some (a + 1, res ++ [hash]) } := by
  have hlt := (List.getElem?_eq_some_iff.mp h).1
  have hadvance : s.advance f = { f with poll := some (a + 1, res ++ [hash]) } := by
    simp only [advance, hpoll, hs.next a, if_pos hlt, hs.header, h, toList_some]
  simp [next, hadvance]

theorem next_of_end (hs : Linked s) {res : List Hash} (hpoll : f.poll = some (a, res))
    (h : s.pushed.length ≤ a) : s.next f = { f with
      block := a
      poll := none
      results := f.results ++ res.map fun hash ↦ encodeToHex hash.bytes
      polled := s.pushed.length } := by
  simp [next, advance, hpoll, hs.next a, not_lt.mpr h]

theorem Follows.next (h : Follows s.pushed f) (hs : Linked s) : Follows s.pushed (s.next f) := by
  cases hpoll : f.poll with
  | none =>
    have hnext : s.next f = f := by simp [BlockStream.next, advance, hpoll]
    rwa [hnext]
  | some poll =>
    obtain ⟨cur, res⟩ := poll
    obtain ⟨hpolled, hcur, hres⟩ := h.poll cur res hpoll
    rcases hcur.lt_or_eq with hlt | rfl
    · have hat := getElem?_eq_getElem hlt
      rw [next_of_lt hs hpoll hat]
      refine ⟨h.created_le, h.polled_le, h.block, h.results, ?_⟩
      rintro _ _ ⟨⟩
      refine ⟨hpolled.trans (le_succ _), hlt, ?_⟩
      rw [hres, ← between_single hat, between_append hpolled (le_succ _) hlt]
    · rw [next_of_end hs hpoll le_rfl]
      refine ⟨h.created_le.trans hpolled, le_refl _, rfl, ?_, by simp⟩
      rw [h.results, hres, ← map_append, between_append h.created_le hpolled hcur]

/-- A call that is not interrupted by new blocks comes to its end. -/
theorem exists_poll_end (hs : Linked s) {i : ℕ} (hf : s.filters[i]? = some f) {res : List Hash}
    (hpoll : f.poll = some (a, res)) : ∃ n f',
      (Run.exec step s (replicate n (.next i))).filters[i]? = some f' ∧ f'.poll = none ∧ f'.polled = s.pushed.length := by
  have hnext : (s.step (.next i)).filters[i]? = some (s.next f) := by
    rw [step, getElem?_modify_eq, hf]
    rfl
  induction hk : s.pushed.length - a generalizing s f a res with
  | zero =>
    rw [next_of_end hs hpoll (by omega)] at hnext
    exact ⟨1, _, hnext, rfl, rfl⟩
  | succ k ih =>
    rw [next_of_lt hs hpoll (getElem?_eq_getElem (by omega))] at hnext
    obtain ⟨n, f', hend⟩ := ih (hs.step (.next i)) hnext rfl (by
      rw [step, getElem?_modify_eq, hnext]
      rfl) (show s.pushed.length - (a + 1) = k by omega)
    exact ⟨n + 1, f', hend⟩

theorem follows_step (hs : Linked s) (h : ∀ f ∈ s.filters, Follows s.pushed f) (a : StreamAction) :
    ∀ f ∈ (s.step a).filters, Follows (s.step a).pushed f := by
  have hmodify {i : ℕ} {g : BlockFilter → BlockFilter}
      (hg : ∀ f ∈ s.filters, Follows s.pushed (g f)) :
      ∀ f ∈ s.filters.modify i g, Follows s.pushed f := by
    intro f hf
    obtain ⟨j, hj⟩ := getElem?_of_mem hf
    rw [getElem?_modify] at hj
    obtain ⟨t, ht, rfl⟩ := map_eq_some_iff.mp hj
    have hmem := mem_of_getElem? ht
    split
    · exact hg t hmem
    · exact h t hmem
  cases a with
  | push hash =>
    rw [step]
    split
    · exact h
    · exact fun f hf ↦ (h f hf).push hash
  | storeHead =>
    rw [step]
    split <;> exact h
  | newBlockFilter =>
    intro f hf
    rcases mem_append.mp hf with hold | hnew
    · exact h f hold
    · cases mem_singleton.mp hnew
      have hle : s.completed ≤ s.pushed.length := by
        rw [completed]
        split <;> omega
      exact ⟨le_refl _, hle, hs.head, by simp [between_self], by simp⟩
  | getUpdates i =>
    refine hmodify fun f hf ↦ ?_
    obtain ⟨hcreated, hpolled, hblock, hresults, hpoll⟩ := id (h f hf)
    split
    · exact h f hf
    · refine ⟨hcreated, hpolled, hblock, hresults, ?_⟩
      rintro _ _ ⟨⟩
      exact ⟨hblock.ge, hblock ▸ hpolled, by rw [hblock, between_self]⟩
  | next i => exact hmodify fun f hf ↦ (h f hf).next hs

/-- The results of a filter are the hashes of the blocks that were pushed after it was made and before
its last call of `getUpdates` ended, in their order; and a call that has begun can end. -/
theorem blockFilter_exactly_once (header : Option Hash) (as : List StreamAction) :
    let s := Run.exec step (new header) as
    (∀ f ∈ s.filters, f.results = ((s.pushed.take f.polled).drop f.created).map
      fun hash ↦ encodeToHex hash.bytes) ∧
    ∀ (i : ℕ) (f : BlockFilter), s.filters[i]? = some f → f.poll.isSome → ∃ n f',
      (Run.exec step s (replicate n (.next i))).filters[i]? = some f' ∧ f'.poll = none ∧
        f'.polled = s.pushed.length := by
  have hnew : Linked (new header) ∧ ∀ f ∈ (new header).filters, Follows (new header).pushed f := by
    refine ⟨⟨rfl, fun n ↦ rfl, fun n ↦ ?_, by simp [new], rfl⟩, by simp [new]⟩
    cases n <;> rfl
  have h := Run.exec_invariant (I := fun s ↦ Linked s ∧ ∀ f ∈ s.filters, Follows s.pushed f) hnew
    (fun s a hs ↦ ⟨hs.1.step a, follows_step hs.1 hs.2 a⟩) as
  refine ⟨fun f hf ↦ (h.2 f hf).results, fun i f hf hpoll ↦ ?_⟩
  obtain ⟨⟨cur, res⟩, hpoll⟩ := isSome_iff_exists.mp hpoll
  exact exists_poll_end h.1 hf hpoll

/-- A poll of the first filter goes on while the second filter is made and two blocks are pushed. -/
def crossedPolls : List StreamAction :=
  [.push (bytesToHash [1]), .storeHead, .newBlockFilter, .push (bytesToHash [2]), .getUpdates 0,
    .next 0, .storeHead, .newBlockFilter, .push (bytesToHash [3]), .next 0, .getUpdates 1, .next 0,
    .next 1, .next 1]

theorem blockFilter_exactly_once_two :
    let s := Run.exec step (new none) crossedPolls
    s.filters.map (fun f ↦ (f.created, f.polled, f.poll)) = [(1, 3, none), (2, 3, none)] ∧
      ∀ f ∈ s.filters, f.results = ((s.pushed.take f.polled).drop f.created).map
        fun hash ↦ encodeToHex hash.bytes :=
  ⟨by decide +kernel, (blockFilter_exactly_once none crossedPolls).1⟩

end BlockStream

end Mainnet.Jsonrpc

import Mainnet.Blockchain.Mining
import Mainnet.Lib.Machine

namespace Mainnet.Blockchain

open Types Txpool Lib List Option Nat Machine

/-- Where a goroutine of `Execute` is. -/
inductive Phase
  | fresh
  | passed
  | failed
  | left
  | released
  | closing
  | ended
deriving DecidableEq

open Phase

namespace Phase

def holds : Phase → Bool
  | .fresh | .passed | .failed | .left => true
  | _ => false

def counted : Phase → Bool
  | .closing | .ended => true
  | _ => false

def acted : Phase → Bool
  | .fresh | .passed | .failed => false
  | _ => true

def rank : Phase → ℕ
  | .fresh => 0
  | .passed | .failed => 1
  | .left => 2
  | .released => 3
  | .closing => 4
  | .ended => 5

end Phase

/-- A call of `Execute`: `workerLimit` counts the slots it has, `completed` is the word of the
counter, `errChan` says whether the one place of the channel is taken. -/
structure ExecuteCall where
  goroutines : List Phase
  receipts : List (Option ExecReceipt)
  workerLimit : ℕ
  completed : ℕ
  errChan : Bool
  closed : Bool
  cancelled : Bool
  result : Option (Except MineError (List (Option ExecReceipt)))
  panicked : Bool

open ExecuteCall

/-- What happens next; the loop gives up when the context is cancelled. -/
inductive Move
  | cancel
  | start
  | giveUp
  | receive
  | go (index : ℕ)

namespace ExecuteCall

variable (M : TxMethods) (workers : ℕ) (txs : List PoolTransaction)

def begin : ExecuteCall where
  goroutines := []
  receipts := replicate txs.length none
  workerLimit := 0
  completed := 0
  errChan := false
  closed := false
  cancelled := false
  result := if txs = [] then some (.ok []) else none
  panicked := false

def proceed (s : ExecuteCall) (index : ℕ) : Phase → Option ExecuteCall
  | .fresh =>
    some { s with goroutines := s.goroutines.set index (if s.cancelled then .failed else .passed) }
  | .passed => some { s with
      goroutines := s.goroutines.set index .left
      receipts := s.receipts.set index (txs[index]?.map (receiptOf M)) }
  | .failed =>
    -- a send on a closed channel panics; on a full one the error is dropped
    if s.closed then some { s with panicked := true }
    else some { s with goroutines := s.goroutines.set index .left, errChan := true }
  | .left =>
    if s.workerLimit = 0 then none
    else some { s with
      goroutines := s.goroutines.set index .released
      workerLimit := s.workerLimit - 1 }
  | .released =>
    let completed := (s.completed + 1) % 2 ^ 32
    some { s with
      goroutines := s.goroutines.set index
        (if completed = txs.length % 2 ^ 32 then .closing else .ended)
      completed := completed }
  | .closing =>
    if s.closed then some { s with panicked := true }
    else some { s with goroutines := s.goroutines.set index .ended, closed := true }
  | .ended => none

/-- `none` is a move that is not possible. -/
def step (s : ExecuteCall) (move : Move) : Option ExecuteCall :=
  if s.panicked then none
  else match move with
    | .cancel => if s.cancelled then none else some { s with cancelled := true }
    | .start =>
      if s.result = none ∧ s.goroutines.length < txs.length ∧ s.workerLimit < workers then
        some { s with goroutines := s.goroutines ++ [.fresh], workerLimit := s.workerLimit + 1 }
      else none
    | .giveUp =>
      if s.result = none ∧ s.goroutines.length < txs.length ∧ s.cancelled then
        some { s with result := some (.error .cancelled) }
      else none
    | .receive =>
      if s.result = none ∧ s.goroutines.length = txs.length then
        if s.errChan then some { s with result := some (.error .cancelled), errChan := false }
        else if s.closed then some { s with result := some (.ok s.receipts) }
        else none
      else none
    | .go index => (s.goroutines[index]?).bind (s.proceed M txs index)

section Counting

variable {l : List Phase} {i : ℕ} {a : Phase}

theorem set_perm (h : l[i]? = some a) (b : Phase) : a :: l.set i b ~ b :: l := by
  obtain ⟨hi, rfl⟩ := List.getElem?_eq_some_iff.mp h
  calc l[i] :: l.set i b
    _ ~ l[i] :: b :: l.eraseIdx i := (set_perm_cons_eraseIdx hi b).cons _
    _ ~ b :: l[i] :: l.eraseIdx i := .swap _ _ _
    _ ~ b :: l := (getElem_cons_eraseIdx_perm hi).cons _

theorem countP_set_add (p : Phase → Bool) (h : l[i]? = some a) (b : Phase) :
    (l.set i b).countP p + (p a).toNat = l.countP p + (p b).toNat := by
  have hcount := (set_perm h b).countP_eq p
  simp only [countP_cons] at hcount
  simp only [Bool.toNat, Bool.cond_eq_ite]
  exact hcount

theorem rank_set_add (h : l[i]? = some a) (b : Phase) :
    ((l.set i b).map rank).sum + a.rank = (l.map rank).sum + b.rank := by
  have hsum := ((set_perm h b).map rank).sum_nat
  rw [map_cons, map_cons, sum_cons, sum_cons] at hsum
  omega

end Counting

structure Tally (s : ExecuteCall) : Prop where
  spawned : s.goroutines.length ≤ txs.length
  slots : s.workerLimit = s.goroutines.countP holds
  counter : s.completed = s.goroutines.countP counted % 2 ^ 32
  once : txs ≠ [] → s.goroutines.countP (· = .closing) + s.closed.toNat =
    if s.goroutines.countP counted = txs.length then 1 else 0

structure Regular (s : ExecuteCall) : Prop where
  tally : Tally txs s
  length : s.receipts.length = txs.length
  stored : ∀ (i : ℕ) (phase : Phase), s.goroutines[i]? = some phase → phase.acted = true →
    s.receipts[i]? = some (txs[i]?.map (receiptOf M)) ∨ s.errChan = true ∨
      s.result = some (.error .cancelled)
  begun : s.result = none → txs ≠ []
  ok : ∀ receipts, s.result = some (.ok receipts) →
    receipts = txs.map fun tx ↦ some (receiptOf M tx)
  calm : s.panicked = false

variable {M workers txs} {s s' : ExecuteCall} {index : ℕ} {phase phase' : Phase}

theorem regular_begin : Regular M txs (begin txs) where
  tally := by
    refine ⟨zero_le _, rfl, rfl, ?_⟩
    intro hne
    have hlen : 0 ≠ txs.length := (length_pos_of_ne_nil hne).ne
    exact (if_neg hlen).symm
  length := length_replicate
  stored := by simp [begin]
  begun h hnil := by simp [begin, hnil] at h
  ok receipts h := by
    unfold begin at h
    split_ifs at h with hnil
    obtain rfl := Except.ok.inj (some.inj h)
    rw [hnil, map_nil]
  calm := rfl

namespace Tally

section

variable (h : Tally txs s) (hat : s.goroutines[index]? = some phase)
include h hat

theorem txs_ne_nil : txs ≠ [] := by
  obtain ⟨hlt, -⟩ := List.getElem?_eq_some_iff.mp hat
  exact ne_nil_of_length_pos ((zero_lt_of_lt hlt).trans_le h.spawned)

theorem counted_lt (hphase : phase.counted = false) : s.goroutines.countP counted < txs.length := by
  refine (lt_of_le_of_ne countP_le_length fun heq ↦ ?_).trans_le h.spawned
  rw [countP_eq_length.mp heq phase (mem_of_getElem? hat)] at hphase
  cases hphase

theorem open_of_uncounted (hphase : phase.counted = false) : s.closed = false := by
  have honce := h.once (h.txs_ne_nil hat)
  rw [if_neg (h.counted_lt hat hphase).ne] at honce
  cases hclosed : s.closed with
  | false => rfl
  | true => simp [hclosed] at honce

end

section

variable (h : Tally txs s)
include h

theorem open_of_closing (hat : s.goroutines[index]? = some .closing) : s.closed = false := by
  have honce := h.once (h.txs_ne_nil hat)
  have hpos : 0 < s.goroutines.countP (· = .closing) :=
    countP_pos_iff.mpr ⟨_, mem_of_getElem? hat, by decide⟩
  cases hclosed : s.closed with
  | false => rfl
  | true =>
    rw [hclosed, Bool.toNat_true] at honce
    split_ifs at honce
    · omega

theorem set (hat : s.goroutines[index]? = some phase)
    (hgoroutines : s'.goroutines = s.goroutines.set index phase')
    (hcompleted : s'.completed = s.completed) (hcounted : phase'.counted = phase.counted)
    (hslots : s'.workerLimit + phase.holds.toNat = s.workerLimit + phase'.holds.toNat)
    (hclose : s'.closed.toNat + (decide (phase' = .closing)).toNat =
      s.closed.toNat + (decide (phase = .closing)).toNat) : Tally txs s' := by
  have hcount := countP_set_add counted hat phase'
  have hhold := countP_set_add holds hat phase'
  have hclosing := countP_set_add (· = .closing) hat phase'
  have hsame : (s.goroutines.set index phase').countP counted =
      s.goroutines.countP counted := by
    rw [hcounted] at hcount
    omega
  refine ⟨?_, ?_, ?_, ?_⟩
  · rw [hgoroutines, length_set]
    exact h.spawned
  · rw [hgoroutines]
    have hold := h.slots
    omega
  · rw [hgoroutines, hsame, hcompleted]
    exact h.counter
  · intro hne
    rw [hgoroutines, hsame, ← h.once hne]
    omega

theorem counter_eq_iff (hlen : txs.length ≤ 2 ^ 32)
    (hat : s.goroutines[index]? = some .released) :
    (s.completed + 1) % 2 ^ 32 = txs.length % 2 ^ 32 ↔
      s.goroutines.countP counted + 1 = txs.length := by
  have hlt := h.counted_lt hat rfl
  rw [h.counter, mod_add_mod]
  omega

theorem count (hat : s.goroutines[index]? = some .released)
    (hnext : phase' = if s.goroutines.countP counted + 1 = txs.length then .closing else .ended) :
    Tally txs { s with
      goroutines := s.goroutines.set index phase'
      completed := (s.completed + 1) % 2 ^ 32 } := by
  have hlt := h.counted_lt hat rfl
  have honce := h.once (h.txs_ne_nil hat)
  have hkind : phase'.holds = false ∧ phase'.counted = true := by
    subst hnext
    split_ifs <;> exact ⟨rfl, rfl⟩
  have hcounted : (s.goroutines.set index phase').countP counted =
      s.goroutines.countP counted + 1 := by
    have hadd := countP_set_add counted hat phase'
    rw [hkind.2] at hadd
    exact hadd
  have hholds : (s.goroutines.set index phase').countP holds =
      s.goroutines.countP holds := by
    have hadd := countP_set_add holds hat phase'
    rw [hkind.1] at hadd
    exact hadd
  have hclosing := countP_set_add (· = .closing) hat phase'
  rw [if_neg hlt.ne] at honce
  refine ⟨?_, ?_, ?_, ?_⟩
  · rw [length_set]
    exact h.spawned
  · exact h.slots.trans hholds.symm
  · rw [hcounted, h.counter, mod_add_mod]
  · intro _
    dsimp only
    rw [hcounted]
    split_ifs at hnext ⊢ <;> subst hnext <;> simp at hclosing <;> omega

theorem start (hlt : s.goroutines.length < txs.length) :
    Tally txs { s with
      goroutines := s.goroutines ++ [.fresh]
      workerLimit := s.workerLimit + 1 } := by
  have hcount : ∀ p : Phase → Bool, (s.goroutines ++ [fresh]).countP p =
      s.goroutines.countP p + if p .fresh then 1 else 0 := by
    intro p
    rw [countP_append, countP_singleton]
  refine ⟨?_, ?_, ?_, ?_⟩
  · rw [length_append]
    exact hlt
  · rw [hcount, ← h.slots]
    rfl
  · rw [hcount]
    exact h.counter
  · rw [hcount, hcount]
    exact h.once

end

end Tally

def work (s : ExecuteCall) : ℕ :=
  s.cancelled.toNat + s.result.isSome.toNat + s.goroutines.length +
    (s.goroutines.map rank).sum

theorem rank_sum_le (l : List Phase) : (l.map rank).sum ≤ 5 * l.length := by
  induction l with
  | nil => exact le_rfl
  | cons phase l ih =>
    have hphase : phase.rank ≤ 5 := by cases phase <;> decide
    rw [map_cons, sum_cons, length_cons]
    omega

theorem work_le (h : s.goroutines.length ≤ txs.length) : s.work ≤ 6 * txs.length + 2 := by
  have hrank := rank_sum_le s.goroutines
  have hcancelled := Bool.toNat_le s.cancelled
  have hresult := Bool.toNat_le s.result.isSome
  unfold work
  omega

theorem work_lt_of_set (hat : s.goroutines[index]? = some phase)
    (hgoroutines : s'.goroutines = s.goroutines.set index phase') (hrank : phase.rank < phase'.rank)
    (hcancelled : s'.cancelled = s.cancelled) (hresult : s'.result = s.result) :
    s.work < s'.work := by
  have hadd := rank_set_add hat phase'
  unfold work
  rw [hgoroutines, length_set, hcancelled, hresult]
  omega

theorem work_lt_of_result (h : s.result = none) (r : Except MineError (List (Option ExecReceipt)))
    (errChan : Bool) : s.work < work { s with result := some r, errChan := errChan } := by
  simp only [work, h, isSome_none, isSome_some, Bool.toNat_false, Bool.toNat_true]
  omega

theorem Regular.moved (h : Regular M txs s) (hat : s.goroutines[index]? = some phase)
    (hgoroutines : s'.goroutines = s.goroutines.set index phase') (hrank : phase.rank < phase'.rank)
    (hacted : phase'.acted = true → phase.acted = true) (htally : Tally txs s')
    (hsame : { s' with goroutines := [], workerLimit := 0, completed := 0, closed := false } =
      { s with goroutines := [], workerLimit := 0, completed := 0, closed := false }) :
    Regular M txs s' ∧ s.work < s'.work := by
  obtain ⟨goroutines, receipts, workerLimit, completed, errChan, closed, cancelled, result,
    panicked⟩ := s'
  obtain ⟨rfl, rfl, rfl, rfl, rfl⟩ := hsame
  refine ⟨⟨htally, h.length, ?_, h.begun, h.ok, h.calm⟩, work_lt_of_set hat hgoroutines hrank rfl rfl⟩
  intro i other hi hother
  rw [hgoroutines] at hi
  by_cases heq : index = i
  · subst heq
    obtain ⟨hlt, -⟩ := List.getElem?_eq_some_iff.mp hat
    rw [List.getElem?_set_self hlt] at hi
    obtain rfl := some.inj hi
    exact h.stored index phase hat (hacted hother)
  · rw [getElem?_set_ne heq] at hi
    exact h.stored i other hi hother

theorem Regular.store (h : Regular M txs s) (hat : s.goroutines[index]? = some .passed) :
    Regular M txs { s with
      goroutines := s.goroutines.set index .left
      receipts := s.receipts.set index (txs[index]?.map (receiptOf M)) } := by
  refine ⟨h.tally.set hat rfl rfl rfl rfl rfl, ?_, ?_, h.begun, h.ok, h.calm⟩
  · rw [length_set]
    exact h.length
  · intro i other hi hother
    obtain ⟨hlt, -⟩ := List.getElem?_eq_some_iff.mp hat
    by_cases heq : index = i
    · subst heq
      exact .inl (getElem?_set_self (h.length ▸ hlt.trans_le h.tally.spawned))
    · rw [getElem?_set_ne heq] at hi ⊢
      exact h.stored i other hi hother

theorem Regular.proceed (h : Regular M txs s) (hlen : txs.length ≤ 2 ^ 32)
    (hat : s.goroutines[index]? = some phase) (hstep : s.proceed M txs index phase = some s') :
    Regular M txs s' ∧ s.work < s'.work := by
  cases phase with
  | fresh =>
    obtain rfl := some.inj hstep
    refine h.moved hat rfl ?_ ?_ (h.tally.set hat rfl rfl ?_ ?_ ?_) rfl <;> split_ifs <;>
      first | decide | rfl
  | passed =>
    obtain rfl := some.inj hstep
    exact ⟨h.store hat, work_lt_of_set hat rfl (by decide) rfl rfl⟩
  | failed =>
    have hopen := h.tally.open_of_uncounted hat rfl
    simp only [proceed, hopen, Bool.false_eq_true, if_false, some.injEq] at hstep
    subst hstep
    refine ⟨⟨h.tally.set hat rfl rfl rfl rfl ?_, h.length, ?_, h.begun, h.ok, h.calm⟩,
      work_lt_of_set hat rfl (by decide) rfl rfl⟩
    · rw [hopen]
      rfl
    · intro i other _ _
      exact .inr (.inl rfl)
  | left =>
    simp only [proceed, ite_none_left_eq_some, some.injEq] at hstep
    obtain ⟨hne, rfl⟩ := hstep
    refine h.moved hat rfl (by decide) (fun _ ↦ rfl) (h.tally.set hat rfl rfl rfl ?_ rfl) rfl
    exact Nat.sub_add_cancel (Nat.pos_of_ne_zero hne)
  | released =>
    obtain rfl := some.inj hstep
    have hnext := h.tally.counter_eq_iff hlen hat
    refine h.moved hat rfl ?_ (fun _ ↦ rfl) (h.tally.count hat (if_congr hnext rfl rfl)) rfl
    split_ifs <;> decide
  | closing =>
    have hopen := h.tally.open_of_closing hat
    simp only [proceed, hopen, Bool.false_eq_true, if_false, some.injEq] at hstep
    subst hstep
    refine h.moved hat rfl (by decide) (fun _ ↦ rfl) (h.tally.set hat rfl rfl rfl rfl ?_) rfl
    rw [hopen]
    rfl
  | ended => cases hstep

theorem Regular.receipts_eq (h : Regular M txs s) (hne : txs ≠ []) (hresult : s.result = none)
    (herr : s.errChan = false) (hclosed : s.closed = true) :
    s.receipts = txs.map fun tx ↦ some (receiptOf M tx) := by
  have hcount : s.goroutines.countP counted = txs.length := by
    by_contra hlt
    have honce := h.tally.once hne
    rw [if_neg hlt, hclosed, Bool.toNat_true] at honce
    omega
  have hlength : s.goroutines.length = txs.length := by
    refine le_antisymm h.tally.spawned ?_
    rw [← hcount]
    exact countP_le_length
  have hcounted := countP_eq_length.mp (hcount.trans hlength.symm)
  refine ext_getElem? fun i ↦ ?_
  rw [getElem?_map]
  rcases lt_or_ge i txs.length with hi | hi
  · have hi' : i < s.goroutines.length := hlength ▸ hi
    have hacted : (s.goroutines[i]).acted = true := by
      have hcounted := hcounted _ (getElem_mem hi')
      cases hphase : s.goroutines[i] <;> rw [hphase] at hcounted <;> first | rfl | cases hcounted
    rcases h.stored i _ (getElem?_eq_getElem hi') hacted with hstored | hstored | hstored
    · rw [hstored, getElem?_eq_getElem hi]
      rfl
    · rw [herr] at hstored
      cases hstored
    · rw [hresult] at hstored
      cases hstored
  · rw [getElem?_eq_none (h.length ▸ hi), getElem?_eq_none hi, map_none]

theorem Regular.start (h : Regular M txs s) (hlt : s.goroutines.length < txs.length) :
    Regular M txs
      { s with goroutines := s.goroutines ++ [.fresh], workerLimit := s.workerLimit + 1 } := by
  refine ⟨h.tally.start hlt, h.length, ?_, h.begun, h.ok, h.calm⟩
  intro i other hi hother
  rcases lt_or_ge i s.goroutines.length with hi' | hi'
  · rw [getElem?_append_left hi'] at hi
    exact h.stored i other hi hother
  · rw [getElem?_append_right hi', getElem?_singleton] at hi
    split_ifs at hi
    obtain rfl := some.inj hi
    cases hother

theorem Regular.fail (h : Regular M txs s) (errChan : Bool) :
    Regular M txs { s with result := some (.error .cancelled), errChan := errChan } :=
  ⟨{ h.tally with }, h.length, fun _ _ _ _ ↦ .inr (.inr rfl), by simp, by simp, h.calm⟩

theorem Regular.succeed (h : Regular M txs s) (hresult : s.result = none)
    (herr : s.errChan = false) (hclosed : s.closed = true) :
    Regular M txs { s with result := some (.ok s.receipts) } := by
  refine ⟨{ h.tally with }, h.length, ?_, by simp, ?_, h.calm⟩
  · intro i other hi hother
    rcases h.stored i other hi hother with hstored | hstored | hstored
    · exact .inl hstored
    · exact .inr (.inl hstored)
    · rw [hresult] at hstored
      cases hstored
  · intro receipts hok
    obtain rfl := Except.ok.inj (some.inj hok)
    exact h.receipts_eq (h.begun hresult) hresult herr hclosed

theorem Regular.step (h : Regular M txs s) (hlen : s.goroutines ≠ [] → txs.length ≤ 2 ^ 32)
    {move : Move} (hstep : s.step M workers txs move = some s') :
    Regular M txs s' ∧ s.work < s'.work := by
  unfold ExecuteCall.step at hstep
  rw [if_neg (Bool.eq_false_iff.mp h.calm)] at hstep
  cases move with
  | cancel =>
    simp only [ite_none_left_eq_some, some.injEq, Bool.not_eq_true] at hstep
    obtain ⟨hcancelled, rfl⟩ := hstep
    refine ⟨⟨{ h.tally with }, h.length, h.stored, h.begun, h.ok, h.calm⟩, ?_⟩
    simp only [work, hcancelled, Bool.toNat_false, Bool.toNat_true]
    omega
  | start =>
    simp only [ite_none_right_eq_some, some.injEq] at hstep
    obtain ⟨⟨-, hlt, -⟩, rfl⟩ := hstep
    refine ⟨h.start hlt, ?_⟩
    simp only [work, length_append, map_append, sum_append_nat, length_singleton]
    omega
  | giveUp =>
    simp only [ite_none_right_eq_some, some.injEq] at hstep
    obtain ⟨⟨hresult, -⟩, rfl⟩ := hstep
    exact ⟨h.fail s.errChan, work_lt_of_result hresult _ _⟩
  | receive =>
    simp only [ite_none_right_eq_some] at hstep
    obtain ⟨⟨hresult, hspawned⟩, hstep⟩ := hstep
    cases herr : s.errChan with
    | true =>
      rw [if_pos herr] at hstep
      obtain rfl := some.inj hstep
      exact ⟨h.fail false, work_lt_of_result hresult _ _⟩
    | false =>
      rw [if_neg (Bool.eq_false_iff.mp herr), ite_none_right_eq_some] at hstep
      obtain ⟨hclosed, hstep⟩ := hstep
      obtain rfl := some.inj hstep
      exact ⟨h.succeed hresult herr hclosed, work_lt_of_result hresult _ _⟩
  | go index =>
    obtain ⟨phase, hat, hstep⟩ := bind_eq_some_iff.mp hstep
    exact h.proceed (hlen (ne_nil_of_mem (mem_of_getElem? hat))) hat hstep

theorem step_no_workers {move : Move} (h : s.goroutines = [])
    (hstep : s.step M 0 txs move = some s') : s'.goroutines = [] := by
  unfold step at hstep
  rw [ite_none_left_eq_some] at hstep
  obtain ⟨-, hstep⟩ := hstep
  cases move with
  | cancel =>
    simp only [ite_none_left_eq_some, some.injEq] at hstep
    obtain ⟨-, rfl⟩ := hstep
    exact h
  | start => simp at hstep
  | giveUp =>
    simp only [ite_none_right_eq_some, some.injEq] at hstep
    obtain ⟨-, rfl⟩ := hstep
    exact h
  | receive =>
    simp only [ite_none_right_eq_some] at hstep
    obtain ⟨-, hstep⟩ := hstep
    split_ifs at hstep
    · obtain rfl := some.inj hstep
      exact h
    · obtain rfl := some.inj hstep
      exact h
  | go index => simp [h] at hstep

/-- What is asked of a call at every moment; no slot is left when no goroutine can go on. -/
structure Safe (M : TxMethods) (workers : ℕ) (txs : List PoolTransaction) (s : ExecuteCall) :
    Prop where
  calm : s.panicked = false
  slots : s.workerLimit = s.goroutines.countP holds
  freed : (∀ index, s.step M workers txs (.go index) = none) → s.workerLimit = 0
  ok : ∀ receipts, s.result = some (.ok receipts) →
    receipts = txs.map fun tx ↦ some (receiptOf M tx)

theorem Regular.ended (h : Regular M txs s)
    (hstuck : ∀ index, s.step M workers txs (.go index) = none) :
    ∀ phase ∈ s.goroutines, phase = .ended := by
  intro phase hmem
  obtain ⟨index, hat⟩ := mem_iff_getElem?.mp hmem
  have hnone := hstuck index
  unfold ExecuteCall.step at hnone
  rw [if_neg (Bool.eq_false_iff.mp h.calm)] at hnone
  dsimp only at hnone
  rw [hat, bind_some] at hnone
  cases phase with
  | fresh | passed | released => cases hnone
  | failed =>
    simp only [ExecuteCall.proceed, h.tally.open_of_uncounted hat rfl, Bool.false_eq_true, if_false,
      reduceCtorEq] at hnone
  | left =>
    have hpos : 0 < s.goroutines.countP holds := countP_pos_iff.mpr ⟨_, hmem, rfl⟩
    rw [← h.tally.slots] at hpos
    simp only [ExecuteCall.proceed, if_neg hpos.ne', reduceCtorEq] at hnone
  | closing =>
    simp only [ExecuteCall.proceed, h.tally.open_of_closing hat, Bool.false_eq_true, if_false,
      reduceCtorEq] at hnone
  | ended => rfl

theorem Regular.safe (h : Regular M txs s) (workers : ℕ) : Safe M workers txs s := by
  refine ⟨h.calm, h.tally.slots, ?_, h.ok⟩
  intro hstuck
  rw [h.tally.slots, countP_eq_zero]
  intro phase hmem
  rw [h.ended hstuck phase hmem]
  decide

theorem run_safe (J : ExecuteCall → Prop)
    (hlen : ∀ s, J s → s.goroutines ≠ [] → txs.length ≤ 2 ^ 32)
    (hstep : ∀ s move t, J s → s.step M workers txs move = some t → J t) (hbegin : J (begin txs))
    {moves : List Move} (hrun : run (step M workers txs) (begin txs) moves = some s) :
    moves.length ≤ 6 * txs.length + 2 ∧ Safe M workers txs s := by
  have hkeep : ∀ s move t, Regular M txs s ∧ J s → s.step M workers txs move = some t →
      Regular M txs t ∧ J t := by
    rintro s move t ⟨hregular, hJ⟩ ht
    exact ⟨(hregular.step (hlen s hJ) ht).1, hstep s move t hJ ht⟩
  have hwork : ∀ s move t, Regular M txs s ∧ J s → s.step M workers txs move = some t →
      6 * txs.length + 2 - t.work < 6 * txs.length + 2 - s.work := by
    rintro s move t ⟨hregular, hJ⟩ ht
    obtain ⟨hregular', hlt⟩ := hregular.step (hlen s hJ) ht
    have hle := work_le hregular'.tally.spawned
    omega
  have hmeasure := run_measure hkeep hwork ⟨regular_begin, hbegin⟩ hrun
  have hregular := run_invariant hkeep ⟨regular_begin, hbegin⟩ hrun
  exact ⟨(le_add_right _ _).trans (hmeasure.trans (sub_le _ _)), hregular.1.safe workers⟩

theorem Regular.execute_eq (h : Regular M txs s) {receipts : List (Option ExecReceipt)}
    (hok : s.result = some (.ok receipts)) :
    (execute M false txs).map (·.map some) = .ok receipts := by
  rw [h.ok receipts hok, execute]
  by_cases hnil : txs = []
  · rw [if_pos hnil, hnil]
    rfl
  · rw [if_neg hnil, if_neg Bool.false_ne_true, Except.map, List.map_map]
    rfl

section Overflow

def cycle (index : ℕ) : List Move := [.start, .go index, .go index, .go index, .go index]

theorem run_cycle (M : TxMethods) {goroutines : List Phase} (receipts : List (Option ExecReceipt))
    (completed : ℕ) (hlt : goroutines.length < txs.length) (hworkers : 0 < workers) :
    run (step M workers txs)
        ⟨goroutines, receipts, 0, completed, false, false, false, none, false⟩
        (cycle goroutines.length) =
      some ⟨goroutines ++ [if (completed + 1) % 2 ^ 32 = txs.length % 2 ^ 32 then .closing else .ended],
        receipts.set goroutines.length (txs[goroutines.length]?.map (receiptOf M)), 0,
        (completed + 1) % 2 ^ 32, false, false, false, none, false⟩ := by
  simp [cycle, run, step, proceed, hlt, hworkers]

theorem exists_run_cycles (M : TxMethods) (hne : txs ≠ []) (hworkers : 0 < workers) {n : ℕ}
    (hlt : n ≤ txs.length) (hword : ∀ i, 0 < i → i ≤ n → i % 2 ^ 32 ≠ txs.length % 2 ^ 32) :
    ∃ moves goroutines receipts, goroutines.length = n ∧
      run (step M workers txs) (begin txs) moves =
        some ⟨goroutines, receipts, 0, n % 2 ^ 32, false, false, false, none, false⟩ := by
  induction n with
  | zero =>
    refine ⟨[], [], replicate txs.length none, rfl, ?_⟩
    rw [run, begin, if_neg hne, zero_mod]
  | succ n ih =>
    obtain ⟨moves, goroutines, receipts, rfl, hrun⟩ := ih (le_of_succ_le hlt)
      fun i hi hin ↦ hword i hi (le_succ_of_le hin)
    have hcycle := run_cycle M receipts (goroutines.length % 2 ^ 32) hlt hworkers
    rw [mod_add_mod, if_neg (hword _ (succ_pos _) le_rfl)] at hcycle
    refine ⟨moves ++ cycle goroutines.length, goroutines ++ [.ended],
      receipts.set goroutines.length (txs[goroutines.length]?.map (receiptOf M)), by simp, ?_⟩
    rw [run_append, hrun, bind_some]
    exact hcycle

theorem exists_panic (M : TxMethods) (hlen : 2 ^ 32 < txs.length) (hworkers : 0 < workers) :
    ∃ moves s, run (step M workers txs) (begin txs) moves = some s ∧ s.panicked = true := by
  have hne : txs ≠ [] := ne_nil_of_length_pos (by omega)
  -- the counter is first equal to the word of the length after `n + 1` goroutines
  obtain ⟨n, hn⟩ : ∃ n, n = (txs.length - 1) % 2 ^ 32 := ⟨_, rfl⟩
  have hfirst : ∀ i, 0 < i → i ≤ n → i % 2 ^ 32 ≠ txs.length % 2 ^ 32 := by omega
  have hequal : (n + 1) % 2 ^ 32 = txs.length % 2 ^ 32 := by omega
  obtain ⟨moves, goroutines, receipts, hlength, hrun⟩ :=
    exists_run_cycles M hne hworkers (by omega) hfirst
  have hcycle := run_cycle M receipts (n % 2 ^ 32) (show goroutines.length < txs.length by omega)
    hworkers
  rw [mod_add_mod, if_pos hequal] at hcycle
  refine ⟨moves ++ (cycle goroutines.length ++ [.go goroutines.length, .start, .cancel,
    .go (goroutines.length + 1), .go (goroutines.length + 1)]), ?_⟩
  rw [run_append, hrun, bind_some, run_append, hcycle, bind_some]
  have hnext : goroutines.length + 1 < txs.length := by omega
  simp [run, step, proceed, hnext, hworkers]

end Overflow

/-- A call that can do nothing but be cancelled has returned, with an error or with the receipts of
`execute`. -/
theorem execute_returns (moves : List Move) (hlen : txs.length ≤ 2 ^ 32) (hworkers : 0 < workers)
    (hrun : run (step M workers txs) (begin txs) moves = some s)
    (hstuck : ∀ move, move ≠ .cancel → s.step M workers txs move = none) :
    ∃ result, s.result = some result ∧ ∀ receipts, result = .ok receipts →
      (execute M false txs).map (·.map some) = .ok receipts := by
  have h : Regular M txs s :=
    run_invariant (fun _ _ _ h ht ↦ (h.step (fun _ ↦ hlen) ht).1) regular_begin hrun
  cases hresult : s.result with
  | some result => exact ⟨result, rfl, fun receipts hok ↦ h.execute_eq (hok ▸ hresult)⟩
  | none =>
    have hgo := fun index ↦ hstuck (.go index) (by simp)
    have hended := h.ended hgo
    -- no slot is taken, so the loop is over; the last goroutine has closed the channel
    have hstart := hstuck .start (by simp)
    simp [step, h.calm, hresult, (h.safe workers).freed hgo, hworkers] at hstart
    have hall := le_antisymm h.tally.spawned hstart
    have hcounted : s.goroutines.countP counted = txs.length := by
      rw [← hall, countP_eq_length]
      exact fun phase hmem ↦ hended phase hmem ▸ rfl
    have hclosing : s.goroutines.countP (· = .closing) = 0 :=
      countP_eq_zero.mpr fun phase hmem ↦ by simp [hended phase hmem]
    have honce := h.tally.once (h.begun hresult)
    rw [hclosing, if_pos hcounted, zero_add, Bool.toNat_eq_one] at honce
    have hreceive := hstuck .receive (by simp)
    simp [step, h.calm, hresult, hall, honce] at hreceive
    split_ifs at hreceive

def threeTxs : List PoolTransaction := [soloTx 0 1, soloTx 1 2, soloTx 2 3]

/-- The third goroutine starts when the second has given back its slot, and the first comes last. -/
def crossedMoves : List Move :=
  [.start, .start, .go 0, .go 1, .go 1, .go 1, .start, .go 2, .go 0, .go 2, .go 0, .go 2, .go 2,
    .go 1, .go 0, .go 0, .receive]

theorem execute_returns_three :
    ∃ s receipts, run (step soloMethods 2 threeTxs) (begin threeTxs) crossedMoves = some s ∧
      s.result = some (.ok receipts) ∧
      (execute soloMethods false threeTxs).map (·.map some) = .ok receipts := by
  obtain ⟨result, hresult, hok⟩ := execute_returns crossedMoves (by decide) two_pos
    (show run (step soloMethods 2 threeTxs) (begin threeTxs) crossedMoves = some _ from rfl)
    fun move hne ↦ by
      match move, hne with
      | .cancel, hne => exact absurd rfl hne
      | .go 0, _ | .go 1, _ | .go 2, _ | .go (_ + 3), _ => rfl
      | .start, _ | .giveUp, _ | .receive, _ => rfl
  cases hresult
  exact ⟨_, _, rfl, rfl, hok _ rfl⟩

/-- Every call comes to an end, and is safe at every moment, exactly if the transactions are no more
than the counter can tell apart or there are no workers. -/
theorem execute_safe_iff (M : TxMethods) (workers : ℕ) (txs : List PoolTransaction) :
    (∀ moves s, run (step M workers txs) (begin txs) moves = some s →
        moves.length ≤ 6 * txs.length + 2 ∧ Safe M workers txs s) ↔
      txs.length ≤ 2 ^ 32 ∨ workers = 0 := by
  constructor
  · intro hsafe
    by_contra hcond
    push Not at hcond
    obtain ⟨moves, s, hrun, hpanic⟩ := exists_panic M hcond.1 (pos_of_ne_zero hcond.2)
    have hcalm := (hsafe moves s hrun).2.calm
    rw [hpanic] at hcalm
    cases hcalm
  · intro hcond moves s hrun
    rcases hcond with hlen | rfl
    · exact run_safe (fun _ ↦ True) (fun _ _ _ ↦ hlen) (fun _ _ _ _ _ ↦ trivial) trivial hrun
    · exact run_safe (fun s ↦ s.goroutines = []) (fun s hnone hne ↦ absurd hnone hne)
        (fun _ _ _ hnone hstep ↦ step_no_workers hnone hstep) rfl hrun

/-- The first of so many goroutines closes the channel, and the second one sends on it. -/
theorem execute_panics : ∃ s,
    run (step ⟨fun _ ↦ zeroHash, fun _ ↦ none⟩ 4 (replicate (2 ^ 32 + 1) default))
        (begin (replicate (2 ^ 32 + 1) default))
        (cycle 0 ++ [.go 0, .start, .cancel, .go 1, .go 1]) = some s ∧ s.panicked = true := by
  obtain ⟨txs, htxs⟩ : ∃ txs, txs = replicate (2 ^ 32 + 1) (default : PoolTransaction) := ⟨_, rfl⟩
  have hlen : txs.length = 2 ^ 32 + 1 := htxs ▸ length_replicate
  rw [← htxs]
  have hne : txs ≠ [] := ne_nil_of_length_pos (by omega)
  have hbegin : begin txs =
      ⟨[], replicate txs.length none, 0, 0, false, false, false, none, false⟩ := by
    rw [begin, if_neg hne]
  have hcycle := run_cycle ⟨fun _ ↦ zeroHash, fun _ ↦ none⟩ (replicate txs.length none) 0
    (show ([] : List Phase).length < txs.length by rw [length_nil]; omega) four_pos
  rw [if_pos (by rw [hlen]; rfl)] at hcycle
  rw [hbegin, run_append]
  rw [length_nil] at hcycle
  rw [hcycle, bind_some]
  have hnext : 1 < txs.length := by omega
  simp [run, step, proceed, hnext]

end ExecuteCall

end Mainnet.Blockchain

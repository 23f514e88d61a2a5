import Mainnet.Lib.Machine
import Mainnet.Parallel.Executor

namespace Mainnet.Parallel

open Lib List Option Nat FirstFit Machine ExecutionResult

/-- Where a goroutine of a batch stands: before it writes its result, before `wg.Done`, at its
end. -/
inductive Stage
  | running
  | written
  | done
deriving DecidableEq

/-- A call of `executeBatchCPU`: the goroutines it has started, its wait group, and the shared
slice, in which `none` is a nil pointer. -/
structure Batch where
  goroutines : List Stage
  wg : ℕ
  results : List (Option ExecutionResult)

open Batch

def newBatch (txs : List ParallelTx) : Batch := ⟨[], 0, replicate txs.length none⟩

inductive Turn
  | spawn
  | write (i : ℕ)
  | done (i : ℕ)
  | wait

def Batch.step (txs : List ParallelTx) (b : Batch) : Turn → Option Batch
  | .spawn =>
    if b.goroutines.length < txs.length then
      some { b with goroutines := b.goroutines ++ [.running], wg := b.wg + 1 }
    else none
  | .write i =>
    match txs[i]?, b.goroutines[i]? with
    | some tx, some .running => some { b with
        goroutines := b.goroutines.set i .written
        results := b.results.set i (some ⟨tx, executeTx tx⟩) }
    | _, _ => none
  | .done i =>
    if b.goroutines[i]? = some .written then
      some { b with goroutines := b.goroutines.set i .done, wg := b.wg - 1 }
    else none
  | .wait => none

/-- The loop of `ExecuteTransactions`, inside the batch of the first group that is left. -/
structure Execution where
  groups : List (List ParallelTx)
  batch : Batch
  allResults : List (Option ExecutionResult)

open Execution

def enter (groups : List (List ParallelTx)) (allResults : List (Option ExecutionResult)) :
    Execution :=
  ⟨groups, newBatch (groups.headD []), allResults⟩

/-- When `wg.Wait` returns, the results of the batch are appended and the next group begins. -/
def Execution.step (s : Execution) (turn : Turn) : Option Execution :=
  match s.groups with
  | [] => none
  | txs :: groups =>
    match turn with
    | .wait =>
      if s.batch.goroutines.length = txs.length ∧ s.batch.wg = 0 then
        some (enter groups (s.allResults ++ s.batch.results))
      else none
    | turn => (s.batch.step txs turn).map fun batch ↦ { s with batch := batch }

structure Batch.Sound (txs : List ParallelTx) (b : Batch) : Prop where
  spawned : b.goroutines.length ≤ txs.length
  length : b.results.length = txs.length
  wg : b.wg + b.goroutines.count .done = b.goroutines.length
  written : ∀ (i : ℕ) (tx : ParallelTx), txs[i]? = some tx →
    b.goroutines[i]? = some .written ∨ b.goroutines[i]? = some .done →
    b.results[i]? = some (some ⟨tx, executeTx tx⟩)

def Batch.work (b : Batch) : ℕ :=
  b.goroutines.length + b.goroutines.countP (· ≠ .running) + b.goroutines.count .done

section Batch

variable {txs : List ParallelTx} {b b' : Batch}

theorem newBatch_sound (txs : List ParallelTx) : (newBatch txs).Sound txs where
  spawned := zero_le _
  length := length_replicate
  wg := rfl
  written := by simp [newBatch]

theorem Batch.Sound.spawn (h : b.Sound txs) (hlt : b.goroutines.length < txs.length) :
    Sound txs { b with goroutines := b.goroutines ++ [.running], wg := b.wg + 1 } where
  spawned := by
    rw [length_append]
    exact hlt
  length := h.length
  wg := by
    have hwg := h.wg
    simp only [count_append, length_append, length_singleton]
    rw [show [Stage.running].count .done = 0 from rfl]
    omega
  written i tx htx hstage := by
    refine h.written i tx htx ?_
    rcases lt_or_ge i b.goroutines.length with hi | hi
    · rwa [getElem?_append_left hi] at hstage
    · rw [getElem?_append_right hi, getElem?_singleton] at hstage
      split_ifs at hstage <;> simp at hstage

theorem Batch.Sound.write (h : b.Sound txs) {i : ℕ} {tx : ParallelTx} (htx : txs[i]? = some tx)
    (hi : b.goroutines[i]? = some .running) :
    Sound txs { b with
      goroutines := b.goroutines.set i .written
      results := b.results.set i (some ⟨tx, executeTx tx⟩) } where
  spawned := by
    rw [length_set]
    exact h.spawned
  length := by
    rw [length_set]
    exact h.length
  wg := by
    obtain ⟨hlt, hget⟩ := List.getElem?_eq_some_iff.mp hi
    simp [count_set hlt, hget, h.wg]
  written j tx' htx' hstage := by
    by_cases hij : i = j
    · subst hij
      obtain ⟨hlt, -⟩ := List.getElem?_eq_some_iff.mp htx
      obtain rfl := some.inj (htx.symm.trans htx')
      exact getElem?_set_self (h.length ▸ hlt)
    · rw [getElem?_set_ne hij] at hstage ⊢
      exact h.written j tx' htx' hstage

theorem count_done_lt {goroutines : List Stage} {i : ℕ} {stage : Stage}
    (hi : goroutines[i]? = some stage) (hstage : stage ≠ .done) :
    goroutines.count .done < goroutines.length := by
  refine lt_of_le_of_ne count_le_length fun heq ↦ hstage ?_
  exact (count_eq_length.mp heq stage (mem_of_getElem? hi)).symm

section

variable (h : b.Sound txs)
include h

theorem Batch.Sound.finish {i : ℕ} (hi : b.goroutines[i]? = some .written) :
    Sound txs { b with goroutines := b.goroutines.set i .done, wg := b.wg - 1 } where
  spawned := by
    rw [length_set]
    exact h.spawned
  length := h.length
  wg := by
    obtain ⟨hlt, hget⟩ := List.getElem?_eq_some_iff.mp hi
    have hwg := h.wg
    have hother := count_done_lt hi (by decide)
    simp only [count_set hlt, hget, length_set]
    rw [if_neg (by decide), if_pos (by decide)]
    omega
  written j tx htx hstage := by
    refine h.written j tx htx ?_
    by_cases hij : i = j
    · subst hij
      exact .inl hi
    · rwa [getElem?_set_ne hij] at hstage

theorem Batch.Sound.step {turn : Turn} (hstep : b.step txs turn = some b') :
    b'.Sound txs ∧ b'.work = b.work + 1 := by
  cases turn with
  | spawn =>
    simp only [Batch.step, ite_none_right_eq_some, some.injEq] at hstep
    obtain ⟨hlt, rfl⟩ := hstep
    refine ⟨h.spawn hlt, ?_⟩
    simp only [work, length_append, countP_append, count_append]
    have hrunning : [Stage.running].countP (· ≠ .running) = 0 := rfl
    have hdone : [Stage.running].count .done = 0 := rfl
    rw [hrunning, hdone, length_singleton]
    omega
  | write i =>
    simp only [Batch.step] at hstep
    split at hstep
    · rename_i tx htx hi
      obtain rfl := some.inj hstep
      obtain ⟨hlt, hget⟩ := List.getElem?_eq_some_iff.mp hi
      refine ⟨h.write htx hi, ?_⟩
      simp only [work, length_set, countP_set hlt, count_set hlt, hget]
      rw [if_neg (by decide), if_pos (by decide), if_neg (by decide), if_neg (by decide)]
      omega
    · cases hstep
  | done i =>
    simp only [Batch.step, ite_none_right_eq_some, some.injEq] at hstep
    obtain ⟨hi, rfl⟩ := hstep
    obtain ⟨hlt, hget⟩ := List.getElem?_eq_some_iff.mp hi
    have hpos : 0 < b.goroutines.countP (· ≠ .running) :=
      countP_pos_iff.mpr ⟨_, mem_of_getElem? hi, by decide⟩
    refine ⟨h.finish hi, ?_⟩
    simp only [work, length_set, countP_set hlt, count_set hlt, hget]
    rw [if_pos (by decide), if_pos (by decide), if_neg (by decide), if_pos (by decide)]
    omega
  | wait => cases hstep

theorem Batch.Sound.work_le : b.work ≤ 3 * txs.length := by
  have hspawned := h.spawned
  have hwritten : b.goroutines.countP (· ≠ .running) ≤ b.goroutines.length := countP_le_length
  have hdone : b.goroutines.count .done ≤ b.goroutines.length := count_le_length
  unfold work
  omega

theorem Batch.Sound.all_done (hwg : b.wg = 0) : ∀ stage ∈ b.goroutines, stage = .done := by
  have hcount := h.wg
  rw [hwg, zero_add] at hcount
  intro stage hmem
  exact (count_eq_length.mp hcount stage hmem).symm

theorem Batch.Sound.waited (hspawned : b.goroutines.length = txs.length)
    (hwg : b.wg = 0) :
    b.results = (executeBatch txs).map some ∧ b.work = 3 * txs.length := by
  have hdone := h.all_done hwg
  constructor
  · refine ext_getElem? fun i ↦ ?_
    rw [executeBatch, List.map_map, List.getElem?_map]
    cases htx : txs[i]? with
    | none =>
      have hge := getElem?_eq_none_iff.mp htx
      rw [getElem?_eq_none (h.length ▸ hge), map_none]
    | some tx =>
      obtain ⟨hlt, -⟩ := List.getElem?_eq_some_iff.mp htx
      have hi : i < b.goroutines.length := hspawned ▸ hlt
      refine h.written i tx htx (.inr ?_)
      rw [getElem?_eq_getElem hi, hdone _ (getElem_mem hi)]
  · have hcount : b.goroutines.count .done = b.goroutines.length :=
      count_eq_length.mpr fun stage hmem ↦ (hdone stage hmem).symm
    have hcountP : b.goroutines.countP (· ≠ .running) = b.goroutines.length :=
      countP_eq_length.mpr fun stage hmem ↦ by rw [hdone stage hmem]; decide
    unfold work
    omega

theorem Batch.Sound.progress :
    b.goroutines.length = txs.length ∧ b.wg = 0 ∨
      ∃ turn b', turn ≠ .wait ∧ b.step txs turn = some b' := by
  rcases h.spawned.lt_or_eq with hlt | hspawned
  · exact .inr ⟨.spawn, _, by simp, if_pos hlt⟩
  · by_cases hdone : ∀ stage ∈ b.goroutines, stage = .done
    · have hcount : b.goroutines.count .done = b.goroutines.length :=
        count_eq_length.mpr fun stage hmem ↦ (hdone stage hmem).symm
      have hwg := h.wg
      exact .inl ⟨hspawned, by omega⟩
    · push Not at hdone
      obtain ⟨stage, hmem, hne⟩ := hdone
      obtain ⟨i, hi⟩ := mem_iff_getElem?.mp hmem
      obtain ⟨hlt, -⟩ := List.getElem?_eq_some_iff.mp hi
      have htx : txs[i]? = some txs[i] := List.getElem?_eq_getElem (hspawned ▸ hlt)
      cases stage with
      | running => exact .inr ⟨.write i, _, by simp, by rw [Batch.step, htx, hi]⟩
      | written => exact .inr ⟨.done i, _, by simp, if_pos hi⟩
      | done => exact absurd rfl hne

end

end Batch

section Execution

variable {groups₀ : List (List ParallelTx)} {s s' : Execution}

structure Execution.Sound (groups₀ : List (List ParallelTx)) (s : Execution) : Prop where
  batch : s.batch.Sound (s.groups.headD [])
  results : s.allResults ++ (s.groups.flatMap executeBatch).map some =
    (groups₀.flatMap executeBatch).map some

def Execution.left (s : Execution) : ℕ :=
  (s.groups.map fun txs ↦ 3 * txs.length + 1).sum - s.batch.work

theorem enter_sound (groups : List (List ParallelTx)) : (enter groups []).Sound groups :=
  ⟨newBatch_sound _, nil_append _⟩

theorem Execution.step_cases {turn : Turn} (h : s.step turn = some s') :
    ∃ txs groups, s.groups = txs :: groups ∧
      ((∃ b, s.batch.step txs turn = some b ∧ s' = { s with batch := b }) ∨
        (s.batch.goroutines.length = txs.length ∧ s.batch.wg = 0 ∧
          s' = enter groups (s.allResults ++ s.batch.results))) := by
  unfold step at h
  split at h
  · cases h
  · rename_i txs groups hgroups
    refine ⟨txs, groups, hgroups, ?_⟩
    cases turn with
    | wait =>
      obtain ⟨⟨hspawned, hwg⟩, rfl⟩ := (ite_none_right_eq_some.mp h).imp_right some.inj
      exact .inr ⟨hspawned, hwg, rfl⟩
    | _ =>
      obtain ⟨b, hb, rfl⟩ := map_eq_some_iff.mp h
      exact .inl ⟨b, hb, rfl⟩

theorem Execution.Sound.step (h : s.Sound groups₀) {turn : Turn} (hstep : s.step turn = some s') :
    s'.Sound groups₀ ∧ s'.left < s.left := by
  obtain ⟨txs, groups, hgroups, ⟨b, hb, rfl⟩ | ⟨hspawned, hwg, rfl⟩⟩ := step_cases hstep
  · have hbatch := h.batch
    rw [hgroups, headD_cons] at hbatch
    obtain ⟨hsound, hwork⟩ := hbatch.step hb
    refine ⟨⟨?_, h.results⟩, ?_⟩
    · rw [hgroups]
      exact hsound
    · have hle := hsound.work_le
      simp only [left, hgroups, map_cons, sum_cons]
      omega
  · have hbatch := h.batch
    have hresults := h.results
    rw [hgroups, headD_cons] at hbatch
    obtain ⟨hall, hwork⟩ := hbatch.waited hspawned hwg
    refine ⟨⟨newBatch_sound _, ?_⟩, ?_⟩
    · rw [hgroups, flatMap_cons, map_append, ← append_assoc, ← hall] at hresults
      exact hresults
    · have hnew : (newBatch (groups.headD [])).work = 0 := rfl
      simp only [left, enter, hgroups, map_cons, sum_cons, hwork, hnew]
      omega

theorem Execution.Sound.groups_of_stuck (h : s.Sound groups₀)
    (hstuck : Stuck Execution.step s) : s.groups = [] := by
  cases hgroups : s.groups with
  | nil => rfl
  | cons txs groups =>
    have hbatch := h.batch
    rw [hgroups, headD_cons] at hbatch
    rcases hbatch.progress with ⟨hspawned, hwg⟩ | ⟨turn, b, hne, hb⟩
    · have hnone := hstuck .wait
      simp only [Execution.step, hgroups] at hnone
      rw [if_pos ⟨hspawned, hwg⟩] at hnone
      cases hnone
    · have hnone := hstuck turn
      cases turn with
      | wait => exact absurd rfl hne
      | _ =>
        simp only [Execution.step, hgroups, hb] at hnone
        cases hnone

theorem interleaved_results {groups : List (List ParallelTx)} {turns : List Turn}
    (hrun : run Execution.step (enter groups []) turns = some s) :
    turns.length ≤ (groups.map fun txs ↦ 3 * txs.length + 1).sum ∧
      (Stuck Execution.step s →
        s.groups = [] ∧ s.allResults = (groups.flatMap executeBatch).map some) := by
  have hsound : s.Sound groups :=
    run_invariant (fun _ _ _ h hstep ↦ (h.step hstep).1) (enter_sound groups) hrun
  have hmeasure := run_measure (fun _ _ _ h hstep ↦ (h.step hstep).1)
    (fun _ _ _ h hstep ↦ (h.step hstep).2) (enter_sound groups) hrun
  refine ⟨?_, ?_⟩
  · have hstart : (enter groups []).left = (groups.map fun txs ↦ 3 * txs.length + 1).sum := rfl
    omega
  · intro hstuck
    have hdone := hsound.groups_of_stuck hstuck
    have hresults := hsound.results
    rw [hdone, flatMap_nil, map_nil, append_nil] at hresults
    exact ⟨hdone, hresults⟩

end Execution

def validTxs (txs : List (Option ParallelTx)) : List ParallelTx :=
  (txs.filterMap id).filter fun tx ↦ tx.tx.isSome

structure Independent (tx1 tx2 : ParallelTx) : Prop where
  writes : ∀ key ∈ tx1.writeSet, key ∉ tx2.writeSet
  reads : ∀ key ∈ tx1.readSet, key ∉ tx2.writeSet
  readBy : ∀ key ∈ tx1.writeSet, key ∉ tx2.readSet

theorem notMem_of_intersects {a b : List String} (h : intersects a b = false) {key : String}
    (hb : key ∈ b) : key ∉ a := by
  intro ha
  rw [intersects_iff.mpr ⟨key, ha, hb⟩] at h
  cases h

theorem independent_of_conflicts {tx1 tx2 : ParallelTx} (hne : tx1.ref ≠ tx2.ref)
    (h : conflicts tx2 tx1 = false) : Independent tx1 tx2 := by
  rw [conflicts, if_neg hne.symm, setsConflict, Bool.or_eq_false_iff, Bool.or_eq_false_iff] at h
  obtain ⟨hww, hrw, hwr⟩ := h
  exact ⟨fun _ ↦ notMem_of_intersects hww, fun _ ↦ notMem_of_intersects hwr,
    fun _ ↦ notMem_of_intersects hrw⟩

theorem groupTransactions_independent {txs : List ParallelTx}
    (hdistinct : (txs.map ParallelTx.ref).Nodup) :
    ∀ group ∈ groupTransactions txs, group.Pairwise Independent := by
  intro group hgroup
  have hfree := firstFit_pairwise conflicts txs group hgroup
  have hsub := firstFit_sublist conflicts txs group hgroup
  have hne : group.Pairwise fun tx1 tx2 ↦ tx1.ref ≠ tx2.ref :=
    pairwise_map.mp (hdistinct.sublist (hsub.map _))
  exact (hne.and hfree).imp fun h ↦ independent_of_conflicts h.1 h.2

/-- The groups are a partition into independent transactions in block order. However the goroutines
that execute them are interleaved, they come to an end, and then each valid transaction has one
result, with which it is paired. -/
theorem parallel_execution_complete (txs : List (Option ParallelTx))
    (hdistinct : ((txs.filterMap id).map ParallelTx.ref).Nodup) :
    (groupTransactions (validTxs txs)).flatten.Perm (validTxs txs) ∧
      (∀ group ∈ groupTransactions (validTxs txs),
        group ≠ [] ∧ group.Sublist (validTxs txs) ∧ group.Pairwise Independent) ∧
      ∀ turns s,
        run step (enter (groupTransactions (validTxs txs)) []) turns = some s →
        turns.length ≤ ((groupTransactions (validTxs txs)).map fun g ↦ 3 * g.length + 1).sum ∧
        (Stuck step s → s.groups = [] ∧
          ∃ results, s.allResults = results.map some ∧
            executeTransactions (some txs) = .ok results ∧ (results.map tx).Perm (validTxs txs) ∧
            ∀ r ∈ results, r.result = executeTx r.tx) := by
  have hvalid : ((validTxs txs).map ParallelTx.ref).Nodup :=
    hdistinct.sublist (filter_sublist.map _)
  have hflatten := firstFit_flatten conflicts (validTxs txs)
  refine ⟨hflatten, ?_, ?_⟩
  · intro group hgroup
    exact ⟨firstFit_ne_nil conflicts _ group hgroup, firstFit_sublist conflicts _ group hgroup,
      groupTransactions_independent hvalid group hgroup⟩
  · intro turns s hrun
    obtain ⟨hlength, hend⟩ := interleaved_results hrun
    refine ⟨hlength, ?_⟩
    intro hstuck
    obtain ⟨hgroups, hresults⟩ := hend hstuck
    refine ⟨hgroups, _, hresults, rfl, ?_, ?_⟩
    · have htxs : ((groupTransactions (validTxs txs)).flatMap executeBatch).map tx =
          (groupTransactions (validTxs txs)).flatten := by
        rw [map_flatMap, flatten_eq_flatMap]
        refine flatMap_congr ?_
        intro group _
        rw [executeBatch, List.map_map]
        exact List.map_id _
      rw [htxs]
      exact hflatten
    · intro r hr
      obtain ⟨group, _, hr⟩ := mem_flatMap.mp hr
      obtain ⟨tx, _, rfl⟩ := mem_map.mp hr
      rfl

def payTx (ref : ℕ) (readSet writeSet : List String) : ParallelTx :=
  ⟨ref, some default, readSet, writeSet⟩

/-- The first two are independent, and the third one reads what the first one writes. -/
def threeTxs : List (Option ParallelTx) :=
  [some (payTx 0 ["b"] ["a", "a"]), none, some (payTx 1 ["b"] ["c"]), some (payTx 2 ["a"] ["d"])]

def crossedTurns : List Turn :=
  [.spawn, .spawn, .write 1, .write 0, .done 0, .done 1, .wait, .spawn, .write 0, .done 0, .wait]

theorem parallel_execution_complete_three : ∃ s,
    groupTransactions (validTxs threeTxs) =
        [[payTx 0 ["b"] ["a", "a"], payTx 1 ["b"] ["c"]], [payTx 2 ["a"] ["d"]]] ∧
      run step (enter (groupTransactions (validTxs threeTxs)) []) crossedTurns = some s ∧
      s.groups = [] ∧ ∃ results, s.allResults = results.map some ∧
        executeTransactions (some threeTxs) = .ok results ∧
        (results.map tx).Perm (validTxs threeTxs) ∧ ∀ r ∈ results, r.result = executeTx r.tx := by
  refine ⟨_, by decide, rfl, ?_⟩
  refine ((parallel_execution_complete threeTxs (by decide)).2.2 crossedTurns _ rfl).2 ?_
  intro turn
  rfl

end Mainnet.Parallel

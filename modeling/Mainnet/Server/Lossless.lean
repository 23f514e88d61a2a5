import Mainnet.Archive.Backup

namespace Mainnet.Server

open Types Lib List Nat NodeChain Export Archive

variable {C : Codec} {chain : NodeChain C} {head maxPayload fromNumber toNumber : ℕ}

def lastExported (head toNumber : ℕ) : ℕ := if toNumber = 0 then head else min toNumber head

namespace Export

structure OnFixedChain (chain : NodeChain C) (head maxPayload fromNumber toNumber : ℕ) (s : Export) :
    Prop where
  bounded : s.i ≤ max fromNumber (lastExported head toNumber + 1)
  running : s.status = .running → ∃ p, s.writer.Holds chain fromNumber p s.i ∧
    s.writer.Bounded maxPayload p s.i
  finished : s.status = .finished → s.writer.Holds chain fromNumber s.i s.i ∧
    s.writer.Bounded maxPayload s.i s.i ∧ s.i = max fromNumber (lastExported head toNumber + 1)

theorem OnFixedChain.step {s : Export} (hhead : chain.blocks.length = head + 1)
    (hR : ∀ v, C.marshal v ≠ []) (h : OnFixedChain chain head maxPayload fromNumber toNumber s) :
    OnFixedChain chain head maxPayload fromNumber toNumber
      (s.step chain maxPayload toNumber ⟨head, head, head⟩) := by
  have hlast : ∀ i, canLoop toNumber head i = true ∧ i ≤ head ↔ i ≤ lastExported head toNumber := by
    intro i
    simp only [canLoop, lastExported]
    split <;> simp
  cases hrun : s.status with
  | finished | failed e => rwa [Export.step, hrun]
  | running =>
    obtain ⟨p, hp, hb⟩ := h.running hrun
    have hle := h.bounded
    have hfrom := hp.sent.le.trans hp.le
    obtain ⟨w', ⟨p', hcan, hstored, hp', heq, hw', hb'⟩ | ⟨hcan, heq, hw', hb'⟩⟩ :=
      step_cases maxPayload hR hrun hp (v := ⟨head, head, head⟩)
        (hhead ▸ lt_succ_self head)
    · have hi := (hlast s.i).mp ⟨hcan, hstored⟩
      rw [heq]
      refine ⟨?_, fun _ ↦ ⟨p', hw', hb' hb⟩, fun hf ↦ by cases hrun.symm.trans hf⟩
      show s.i + 1 ≤ _
      omega
    · have hi : lastExported head toNumber < s.i := by
        by_contra hnot
        obtain ⟨hc, hs⟩ := (hlast s.i).mpr (not_lt.mp hnot)
        exact absurd hs (not_le.mpr (hcan hc))
      rw [heq]
      refine ⟨hle, fun hr ↦ (by cases hr), fun _ ↦ ⟨hw', hb' hb, ?_⟩⟩
      show s.i = _
      omega

end Export

/-- The events of an export cover the range without gaps, each with the encoding of its blocks, and
only one of a single block can reach the maximum payload. -/
theorem export_lossless (chain : NodeChain C) (head : ℕ) (hhead : chain.blocks.length = head + 1)
    (hR : ∀ v, C.marshal v ≠ []) (maxPayload fromNumber toNumber turns : ℕ) {s : Export}
    (hs : runUpTo chain maxPayload fromNumber toNumber (replicate turns ⟨head, head, head⟩) = s)
    (hfinished : s.status = .finished) :
    s.writer.sent.flatMap ExportEvent.data =
        chain.rlpBlocks fromNumber (lastExported head toNumber + 1) ∧
      Contiguous chain fromNumber s.writer.sent
        (max fromNumber (lastExported head toNumber + 1)) ∧
      ∀ e ∈ s.writer.sent, e.fromNumber < e.toNumber → e.data.length < maxPayload := by
  have h : OnFixedChain chain head maxPayload fromNumber toNumber s := by
    rw [← hs]
    refine Run.exec_invariant_mem ?_ fun v hv s h ↦ eq_of_mem_replicate hv ▸ h.step hhead hR
    exact ⟨le_max_left _ _, fun _ ↦ ⟨fromNumber, holds_begin,
      fun hlt ↦ absurd hlt (not_lt.mpr (le_succ fromNumber)), nofun⟩,
      fun hf ↦ absurd hf begin_not_finished⟩
  obtain ⟨hw, hb, hi⟩ := h.finished hfinished
  rw [hi] at hw
  refine ⟨?_, hw.sent, hb.2⟩
  rw [hw.sent.data_eq]
  rcases le_total fromNumber (lastExported head toNumber + 1) with hle | hle
  · rw [max_eq_right hle]
  · rw [max_eq_left hle, rlpBlocks, rlpBlocks, Nat.sub_self, Nat.sub_eq_zero_of_le hle]

theorem export_lossless_pair :
    (runUpTo pairChain 24 0 0 (replicate 3 ⟨1, 1, 1⟩)).status = .finished ∧
      (runUpTo pairChain 24 0 0 (replicate 3 ⟨1, 1, 1⟩)).writer.sent.flatMap ExportEvent.data =
        pairChain.rlpBlocks 0 2 := by
  have hfinished : (runUpTo pairChain 24 0 0 (replicate 3 ⟨1, 1, 1⟩)).status = .finished := by
    decide +kernel
  exact ⟨hfinished, (export_lossless pairChain 1 rfl marshal_ne_nil 24 0 0 3 rfl
    hfinished).1⟩

end Mainnet.Server

import Mathlib.Data.List.Basic

namespace Mainnet.Lib.Run

open List

variable {σ α : Type} (step : σ → α → σ) (ok : σ → α → Prop)

def exec (s : σ) (as : List α) : σ := as.foldl step s

def Admits : σ → List α → Prop
  | _, [] => True
  | s, a :: as => ok s a ∧ Admits (step s a) as

instance decidableAdmits [∀ s a, Decidable (ok s a)] : ∀ s as, Decidable (Admits step ok s as)
  | _, [] => inferInstanceAs (Decidable True)
  | s, a :: as =>
    have := decidableAdmits (step s a) as
    inferInstanceAs (Decidable (ok s a ∧ Admits step ok (step s a) as))

variable {step ok} {I : σ → Prop} {s : σ} {as : List α}

theorem exec_invariant_mem (hs : I s)
    (hstep : ∀ a ∈ as, ∀ s, I s → I (step s a)) : I (exec step s as) := by
  induction as generalizing s with
  | nil => exact hs
  | cons a as ih =>
    exact ih (hstep a mem_cons_self s hs) fun b hb ↦ hstep b (mem_cons_of_mem a hb)

theorem exec_invariant (hs : I s) (hstep : ∀ s a, I s → I (step s a))
    (as : List α) : I (exec step s as) :=
  exec_invariant_mem hs fun a _ s ↦ hstep s a

theorem Admits.invariant (h : Admits step ok s as)
    (hs : I s) (hstep : ∀ s a, I s → ok s a → I (step s a)) : I (exec step s as) := by
  induction as generalizing s with
  | nil => exact hs
  | cons a as ih => exact ih h.2 (hstep s a hs h.1)

/-- Where a step that keeps the property `G` is admitted, and the admitted steps keep an invariant
that implies it, the runs that keep it are those whose steps are admitted. -/
theorem admits_iff {G : σ → Prop} (hs : I s) (hG : ∀ s, I s → G s)
    (hstep : ∀ s a, I s → ok s a → I (step s a)) (hok : ∀ s a, I s → G (step s a) → ok s a)
    (as : List α) : (∀ n, G (exec step s (as.take n))) ↔ Admits step ok s as := by
  induction as generalizing s with
  | nil => exact iff_of_true (fun n ↦ by rw [take_nil]; exact hG s hs) trivial
  | cons a as ih =>
    constructor
    · intro h
      have hfirst := hok s a hs (h 1)
      exact ⟨hfirst, (ih (hstep s a hs hfirst)).mp fun n ↦ h (n + 1)⟩
    · rintro ⟨hfirst, hrest⟩ n
      cases n with
      | zero => exact hG s hs
      | succ n => exact (ih (hstep s a hs hfirst)).mpr hrest n

theorem Admits.and_mem {P : α → Prop} (h : Admits step ok s as)
    (hP : ∀ a ∈ as, P a) : Admits step (fun s a ↦ ok s a ∧ P a) s as := by
  induction as generalizing s with
  | nil => trivial
  | cons a as ih =>
    exact ⟨⟨h.1, hP a mem_cons_self⟩, ih h.2 fun b hb ↦ hP b (mem_cons_of_mem a hb)⟩

theorem Admits.and {ok' : σ → α → Prop} (h : Admits step ok s as)
    (h' : Admits step ok' s as) : Admits step (fun s a ↦ ok s a ∧ ok' s a) s as := by
  induction as generalizing s with
  | nil => trivial
  | cons a as ih => exact ⟨⟨h.1, h'.1⟩, ih h.2 h'.2⟩

theorem admits_append {bs : List α} : Admits step ok s (as ++ bs) ↔
    Admits step ok s as ∧ Admits step ok (exec step s as) bs := by
  induction as generalizing s with
  | nil => exact (and_iff_right trivial).symm
  | cons a as ih => exact (and_congr_right fun _ ↦ ih).trans and_assoc.symm

theorem exec_append (s : σ) (as bs : List α) :
    exec step s (as ++ bs) = exec step (exec step s as) bs :=
  foldl_append

end Mainnet.Lib.Run

import Mathlib.Data.Fin.Basic

namespace Mainnet.Lib

open List

/-- What a Go call can do: return a value, return an error, or panic. -/
inductive Outcome (ε α : Type)
  | ok (a : α)
  | error (e : ε)
  | panic
deriving DecidableEq

namespace Outcome

variable {ε α β : Type}

def bind (m : Outcome ε α) (f : α → Outcome ε β) : Outcome ε β :=
  match m with
  | .ok a => f a
  | .error e => .error e
  | .panic => .panic

instance : Monad (Outcome ε) where
  pure := .ok
  bind := bind

def map (f : α → β) : Outcome ε α → Outcome ε β
  | .ok a => .ok (f a)
  | .error e => .error e
  | .panic => .panic

def mapError {δ : Type} (f : ε → δ) : Outcome ε α → Outcome δ α
  | .ok a => .ok a
  | .error e => .error (f e)
  | .panic => .panic

def ofOption (e : ε) : Option α → Outcome ε α
  | some a => .ok a
  | none => .error e

instance decidableForallOk {P : α → Prop} [DecidablePred P] :
    ∀ m : Outcome ε α, Decidable (∀ a, m = .ok a → P a)
  | .ok a => decidable_of_iff (P a) ⟨fun h _ hb ↦ ok.inj hb ▸ h, fun h ↦ h a rfl⟩
  | .error _ => isTrue fun _ h ↦ nomatch h
  | .panic => isTrue fun _ h ↦ nomatch h

@[simp] theorem pure_eq (a : α) : (pure a : Outcome ε α) = .ok a := rfl

@[simp] theorem ok_bind (a : α) (f : α → Outcome ε β) : (Outcome.ok a >>= f) = f a := rfl

theorem foldlM_append {f : List β → α → Outcome ε (List β)} {g : α → List β} {l : List α}
    (h : ∀ acc, ∀ a ∈ l, f acc a = .ok (acc ++ g a)) (acc : List β) :
    l.foldlM f acc = .ok (acc ++ l.flatMap g) := by
  induction l generalizing acc with
  | nil => simp
  | cons a l ih =>
    have htail := ih fun acc b hb ↦ h acc b (mem_cons_of_mem a hb)
    rw [foldlM_cons, h acc a mem_cons_self, ok_bind, htail, flatMap_cons, append_assoc]

def collect : {n : ℕ} → (Fin n → Outcome ε α) → Outcome ε (Fin n → α)
  | 0, _ => .ok nofun
  | _ + 1, f => do
    let a ← f 0
    let rest ← collect fun i ↦ f i.succ
    .ok fun i ↦ if h : i = 0 then a else rest (i.pred h)

variable {n : ℕ} {m : Outcome ε α} {b : β} {δ : Type} {a : α} {e : ε} {o : Option α} {xs : List α}
  {f : Fin n → Outcome ε α} {g : Fin n → α}

theorem collect_ok (h : ∀ i, f i = .ok (g i)) : collect f = .ok g := by
  induction n with
  | zero => exact congrArg Outcome.ok (funext nofun)
  | succ n ih =>
    rw [collect, h 0, ok_bind, ih (g := fun i ↦ g i.succ) fun i ↦ h i.succ, ok_bind]
    congr 1
    funext i
    by_cases hi : i = 0
    · rw [dif_pos hi, hi]
    · simp only [dif_neg hi, Fin.succ_pred]

theorem bind_eq_ok {f : α → Outcome ε β} : (m >>= f) = .ok b ↔ ∃ a, m = .ok a ∧ f a = .ok b := by
  cases m <;> simp [Bind.bind, bind]

theorem bind_eq_panic {f : α → Outcome ε β} :
    (m >>= f) = .panic ↔ m = .panic ∨ ∃ a, m = .ok a ∧ f a = .panic := by
  cases m <;> simp [Bind.bind, bind]

theorem map_eq_ok {f : α → β} : m.map f = .ok b ↔ ∃ a, m = .ok a ∧ f a = b := by
  cases m <;> simp [map]

theorem of_collect_eq_ok (h : collect f = .ok g) (i : Fin n) : f i = .ok (g i) := by
  induction n with
  | zero => exact i.elim0
  | succ n ih =>
    rw [collect] at h
    obtain ⟨a, ha, h⟩ := bind_eq_ok.mp h
    obtain ⟨rest, hrest, h⟩ := bind_eq_ok.mp h
    cases h
    by_cases hi : i = 0
    · subst hi
      exact ha
    · simp only [dif_neg hi]
      rw [← ih hrest (i.pred hi), Fin.succ_pred]

theorem mapError_eq_ok {f : ε → δ} : m.mapError f = .ok a ↔ m = .ok a := by
  cases m <;> simp [mapError]

theorem ofOption_eq_ok : ofOption e o = .ok a ↔ o = some a := by
  cases o <;> simp [ofOption]

@[simp] theorem ofOption_ne_panic : ofOption e o ≠ .panic := by
  cases o <;> simp [ofOption]

theorem except_bind_eq_ok {m : Except ε α} {f : α → Except ε β} :
    (m >>= f) = .ok b ↔ ∃ a, m = .ok a ∧ f a = .ok b := by
  cases m <;> simp [Bind.bind, Except.bind]

theorem mapM_map_ok {γ : Type} {f : β → Except ε γ} {g : α → β} {k : α → γ}
    (h : ∀ x ∈ xs, f (g x) = .ok (k x)) : (xs.map g).mapM f = .ok (xs.map k) := by
  induction xs with
  | nil => rfl
  | cons x xs ih =>
    rw [map_cons, mapM_cons, h x mem_cons_self, ih fun y hy ↦ h y (mem_cons_of_mem _ hy)]
    rfl

theorem mapM_map_self {f : β → Except ε α} {g : α → β}
    (h : ∀ x ∈ xs, f (g x) = .ok x) : (xs.map g).mapM f = .ok xs :=
  (mapM_map_ok h).trans (congrArg Except.ok (map_id' xs))

end Outcome

end Mainnet.Lib

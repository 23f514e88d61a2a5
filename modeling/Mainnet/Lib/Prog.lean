import Mathlib.Logic.Basic

namespace Mainnet.Lib

open Option

abbrev Prog (σ : Type) := StateT σ Option

namespace Prog

variable {σ α β : Type} {s : σ} {P Q : α → σ → Prop}

def panic : Prog σ α := fun _ ↦ none

variable {m n : Prog σ α} {a : α} {t : σ} {f : α → Prog σ β} {R : PUnit → σ → Prop} {c : Prop}

theorem bind_apply (h : m s = some (a, t)) (f : α → Prog σ β) : (m >>= f) s = f a t :=
  congrArg (Option.bind · _) h

def Returns (m : Prog σ α) (s : σ) (Q : α → σ → Prop) : Prop :=
  ∃ a s', m s = some (a, s') ∧ Q a s'

theorem Returns.mono (h : Returns m s P) (hPQ : ∀ a s', P a s' → Q a s') : Returns m s Q := by
  obtain ⟨a, s', heq, hP⟩ := h
  exact ⟨a, s', heq, hPQ a s' hP⟩

@[simp] theorem returns_pure : Returns (pure a) s Q ↔ Q a s := by
  constructor
  · rintro ⟨b, s', heq, hQ⟩
    cases heq
    exact hQ
  · exact fun hQ ↦ ⟨a, s, rfl, hQ⟩

@[simp] theorem returns_bind {R : β → σ → Prop} :
    Returns (m >>= f) s R ↔ Returns m s fun a s' ↦ Returns (f a) s' R := by
  constructor
  · rintro ⟨b, t, heq, hR⟩
    obtain ⟨⟨a, s'⟩, hm, hf⟩ := bind_eq_some_iff.mp heq
    exact ⟨a, s', hm, b, t, hf, hR⟩
  · rintro ⟨a, s', hm, b, t, hf, hR⟩
    exact ⟨b, t, bind_eq_some_iff.mpr ⟨(a, s'), hm, hf⟩, hR⟩

@[simp] theorem returns_get {R : σ → σ → Prop} : Returns (get : Prog σ σ) s R ↔ R s s :=
  returns_pure (a := s)

@[simp] theorem returns_set : Returns (set t : Prog σ PUnit) s R ↔ R ⟨⟩ t := by
  constructor
  · rintro ⟨_, s', heq, hR⟩
    cases heq
    exact hR
  · exact fun hR ↦ ⟨⟨⟩, t, rfl, hR⟩

@[simp] theorem returns_modify {f : σ → σ} :
    Returns (modify f : Prog σ PUnit) s R ↔ R ⟨⟩ (f s) := by
  constructor
  · rintro ⟨_, s', heq, hR⟩
    cases heq
    exact hR
  · exact fun hR ↦ ⟨⟨⟩, f s, rfl, hR⟩

theorem returns_ite [Decidable c] (hm : c → Returns m s Q)
    (hn : ¬c → Returns n s Q) : Returns (if c then m else n) s Q := by
  by_cases hc : c
  · rw [if_pos hc]
    exact hm hc
  · rw [if_neg hc]
    exact hn hc

/-- Whatever `m` returns from `s` satisfies `Q`; it may panic. -/
def Ensures (m : Prog σ α) (s : σ) (Q : α → σ → Prop) : Prop :=
  ∀ a s', m s = some (a, s') → Q a s'

theorem Ensures.mono (h : Ensures m s P) (hPQ : ∀ a s', P a s' → Q a s') : Ensures m s Q :=
  fun a s' heq ↦ hPQ a s' (h a s' heq)

theorem Ensures.and (h : Ensures m s P) (h' : Ensures m s Q) :
    Ensures m s fun a s' ↦ P a s' ∧ Q a s' :=
  fun a s' heq ↦ ⟨h a s' heq, h' a s' heq⟩

theorem Returns.ensures (h : Returns m s Q) : Ensures m s Q := by
  obtain ⟨a, s', heq, hQ⟩ := h
  intro b t heq'
  cases heq.symm.trans heq'
  exact hQ

@[simp] theorem ensures_panic : Ensures (panic : Prog σ α) s Q :=
  fun _ _ h ↦ nomatch h

@[simp] theorem ensures_pure : Ensures (pure a) s Q ↔ Q a s := by
  constructor
  · exact fun h ↦ h a s rfl
  · intro hQ b s' heq
    cases heq
    exact hQ

@[simp] theorem ensures_bind {R : β → σ → Prop} :
    Ensures (m >>= f) s R ↔ Ensures m s fun a s' ↦ Ensures (f a) s' R := by
  constructor
  · intro h a s' hm b t hf
    exact h b t (bind_eq_some_iff.mpr ⟨(a, s'), hm, hf⟩)
  · intro h b t heq
    obtain ⟨⟨a, s'⟩, hm, hf⟩ := bind_eq_some_iff.mp heq
    exact h a s' hm b t hf

@[simp] theorem ensures_get {R : σ → σ → Prop} : Ensures (get : Prog σ σ) s R ↔ R s s :=
  ensures_pure (a := s)

@[simp] theorem ensures_set : Ensures (set t : Prog σ PUnit) s R ↔ R ⟨⟩ t := by
  constructor
  · exact fun h ↦ h ⟨⟩ t rfl
  · intro hR _ s' heq
    cases heq
    exact hR

@[simp] theorem ensures_modify {f : σ → σ} :
    Ensures (modify f : Prog σ PUnit) s R ↔ R ⟨⟩ (f s) := by
  constructor
  · exact fun h ↦ h ⟨⟩ (f s) rfl
  · intro hR _ s' heq
    cases heq
    exact hR

theorem ensures_ite [Decidable c] (hm : c → Ensures m s Q)
    (hn : ¬c → Ensures n s Q) : Ensures (if c then m else n) s Q := by
  by_cases hc : c
  · rw [if_pos hc]
    exact hm hc
  · rw [if_neg hc]
    exact hn hc

end Prog

end Mainnet.Lib

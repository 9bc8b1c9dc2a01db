/-
Readers and the relation they decide.

A reader consumes input from the front of its state.  `Accepts m R` says that
`m` succeeds with `a` exactly when some word `w` with `R a w` is next in the
input, and then consumes `w`.  It is an equivalence, so one statement about a
reader gives both that it reads what a writer wrote and that it reads nothing
else.  The rules below follow the way readers are put together.
-/
import Mathlib.Data.List.Basic

namespace IndieWorker
namespace Reading

/-- States an input can be read from.  `follows s w s'` says that `w` is next in
`s` and that reading it leaves `s'`. -/
class Input (σ : Type) (β : outParam Type) where
  follows : σ → List β → σ → Prop
  follows_nil : ∀ s s', follows s [] s' ↔ s' = s
  follows_append : ∀ s u v s'', follows s (u ++ v) s'' ↔ ∃ s', follows s u s' ∧ follows s' v s''

variable {σ β ε α γ : Type} [Input σ β]

/-- `m` reads exactly the words `R` relates to its result. -/
def Accepts (m : StateT σ (Except ε) α) (R : α → List β → Prop) : Prop :=
  ∀ s a s', m s = .ok (a, s') ↔ ∃ w, R a w ∧ Input.follows s w s'

theorem Accepts.congr {m : StateT σ (Except ε) α} {R S : α → List β → Prop} (h : Accepts m R)
    (hRS : ∀ a w, R a w ↔ S a w) : Accepts m S := by
  intro s a s'
  rw [h s a s']
  exact exists_congr fun w => and_congr_left' (hRS a w)

theorem bind_ok_iff {m : StateT σ (Except ε) α} {k : α → StateT σ (Except ε) γ} {s s'' : σ}
    {c : γ} :
    (m >>= k) s = .ok (c, s'') ↔ ∃ a s', m s = .ok (a, s') ∧ k a s' = .ok (c, s'') := by
  show (m s >>= fun p => k p.1 p.2) = .ok (c, s'') ↔ _
  rcases m s with e | ⟨a, s'⟩
  · simp [bind, Except.bind]
  · simp [bind, Except.bind]

theorem accepts_pure (a : α) :
    Accepts (pure a : StateT σ (Except ε) α) (fun b w => b = a ∧ w = []) := by
  intro s b s'
  show Except.ok (a, s) = .ok (b, s') ↔ _
  simp only [Except.ok.injEq, Prod.mk.injEq]
  constructor
  · intro hand
    obtain ⟨rfl, rfl⟩ := hand
    exact ⟨[], ⟨rfl, rfl⟩, (Input.follows_nil _ _).mpr rfl⟩
  · intro hex
    obtain ⟨w, ⟨rfl, rfl⟩, h⟩ := hex
    exact ⟨rfl, ((Input.follows_nil _ _).mp h).symm⟩

theorem accepts_throw (e : ε) :
    Accepts (throw e : StateT σ (Except ε) α) (fun _ _ => False) := by
  intro s b s'
  show Except.error e = .ok (b, s') ↔ _
  simp

theorem Accepts.bind {m : StateT σ (Except ε) α} {k : α → StateT σ (Except ε) γ}
    {R : α → List β → Prop} {S : α → γ → List β → Prop} (hm : Accepts m R)
    (hk : ∀ a, Accepts (k a) (S a)) :
    Accepts (m >>= k) (fun c w => ∃ a u v, R a u ∧ S a c v ∧ w = u ++ v) := by
  intro s c s''
  rw [bind_ok_iff]
  constructor
  · intro h
    obtain ⟨a, s', ha, hc⟩ := h
    obtain ⟨u, hu, hsu⟩ := (hm s a s').mp ha
    obtain ⟨v, hv, hsv⟩ := (hk a s' c s'').mp hc
    exact ⟨u ++ v, ⟨a, u, v, hu, hv, rfl⟩, (Input.follows_append s u v s'').mpr ⟨s', hsu, hsv⟩⟩
  · intro h
    obtain ⟨w, ⟨a, u, v, hu, hv, rfl⟩, hw⟩ := h
    obtain ⟨s', hsu, hsv⟩ := (Input.follows_append s u v s'').mp hw
    exact ⟨a, s', (hm s a s').mpr ⟨u, hu, hsu⟩, (hk a s' c s'').mpr ⟨v, hv, hsv⟩⟩

/-- The only error `m` gives is `e`. -/
def FailsOnly (m : StateT σ (Except ε) α) (e : ε) : Prop := ∀ s e', m s = .error e' → e' = e

omit [Input σ β] in
theorem failsOnly_pure (a : α) (e : ε) : FailsOnly (pure a : StateT σ (Except ε) α) e := by
  intro s e' h
  cases h

omit [Input σ β] in
theorem failsOnly_throw (e : ε) : FailsOnly (throw e : StateT σ (Except ε) α) e := by
  intro s e' h
  cases h
  rfl

omit [Input σ β] in
theorem FailsOnly.bind {m : StateT σ (Except ε) α} {k : α → StateT σ (Except ε) γ} {e : ε}
    (hm : FailsOnly m e) (hk : ∀ a, FailsOnly (k a) e) : FailsOnly (m >>= k) e := by
  intro s e' h
  change (m s >>= fun p => k p.1 p.2) = .error e' at h
  rcases hs : m s with e'' | ⟨a, s'⟩
  · rw [hs] at h
    cases h
    exact hm s _ hs
  · rw [hs] at h
    exact hk a s' e' h

/-! ### Building a value from the parts read -/

variable {α₁ α₂ α₃ : Type} {m₁ : StateT σ (Except ε) α₁} {m₂ : StateT σ (Except ε) α₂}
  {m₃ : StateT σ (Except ε) α₃} {R₁ : α₁ → List β → Prop} {R₂ : α₂ → List β → Prop}
  {R₃ : α₃ → List β → Prop}

theorem accepts_map (f : α₁ → γ) (h₁ : Accepts m₁ R₁) :
    Accepts (do return f (← m₁)) (fun c w => ∃ a, R₁ a w ∧ c = f a) := by
  refine (h₁.bind fun a => accepts_pure (f a)).congr fun c w => ?_
  constructor
  · intro h
    obtain ⟨a, u, v, ha, ⟨hc, rfl⟩, rfl⟩ := h
    exact ⟨a, by rwa [List.append_nil], hc⟩
  · intro h
    obtain ⟨a, ha, hc⟩ := h
    exact ⟨a, w, [], ha, ⟨hc, rfl⟩, (List.append_nil w).symm⟩

theorem accepts_map₂ (f : α₁ → α₂ → γ) (h₁ : Accepts m₁ R₁) (h₂ : Accepts m₂ R₂) :
    Accepts (do return f (← m₁) (← m₂))
      (fun c w => ∃ a b u v, R₁ a u ∧ R₂ b v ∧ c = f a b ∧ w = u ++ v) := by
  refine (h₁.bind fun a => accepts_map (f a) h₂).congr fun c w => ?_
  constructor
  · intro h
    obtain ⟨a, u, v, ha, ⟨b, hb, hc⟩, hw⟩ := h
    exact ⟨a, b, u, v, ha, hb, hc, hw⟩
  · intro h
    obtain ⟨a, b, u, v, ha, hb, hc, hw⟩ := h
    exact ⟨a, u, v, ha, ⟨b, hb, hc⟩, hw⟩

theorem accepts_map₃ (f : α₁ → α₂ → α₃ → γ) (h₁ : Accepts m₁ R₁) (h₂ : Accepts m₂ R₂)
    (h₃ : Accepts m₃ R₃) :
    Accepts (do return f (← m₁) (← m₂) (← m₃))
      (fun c w => ∃ a b d u v x, R₁ a u ∧ R₂ b v ∧ R₃ d x ∧ c = f a b d ∧ w = u ++ (v ++ x)) := by
  refine (h₁.bind fun a => accepts_map₂ (f a) h₂ h₃).congr fun c w => ?_
  constructor
  · intro h
    obtain ⟨a, u, y, ha, ⟨b, d, v, x, hb, hd, hc, rfl⟩, hw⟩ := h
    exact ⟨a, b, d, u, v, x, ha, hb, hd, hc, hw⟩
  · intro h
    obtain ⟨a, b, d, u, v, x, ha, hb, hd, hc, hw⟩ := h
    exact ⟨a, u, v ++ x, ha, ⟨b, d, v, x, hb, hd, hc, rfl⟩, hw⟩

end Reading
end IndieWorker

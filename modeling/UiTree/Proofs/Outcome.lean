import UiTree.Error

/-!
# Operations in sequence

How a property of the parts of a sequence of operations becomes a property of the whole. An
operation may be known to succeed with a result that has a property, or two operations may be known
to go the same way with related results.
-/

namespace UiTree

variable {ε α β γ δ : Type}

theorem ok_bind {a : α} {f : α → Except ε β} : ((.ok a : Except ε α) >>= f) = f a := rfl

theorem bind_eq_ok {x : Except ε α} {f : α → Except ε β} {b : β} :
    (x >>= f) = .ok b ↔ ∃ a, x = .ok a ∧ f a = .ok b := by
  cases x <;> simp [bind, Except.bind]

theorem exists_eq_ok_of_isOk {x : Except ε α} (h : x.isOk = true) : ∃ a, x = .ok a := by
  cases x with
  | ok a => exact ⟨a, rfl⟩
  | error e => simp [Except.isOk, Except.toBool] at h

theorem exists_eq_ok_of_toOption_any {x : Except ε α} {p : α → Bool}
    (h : x.toOption.any p = true) : ∃ a, x = .ok a ∧ p a = true := by
  cases x with
  | ok a => exact ⟨a, rfl, h⟩
  | error e => cases h

/-- An operation succeeds, and its result has a property. -/
def Returns (x : Except ε α) (P : α → Prop) : Prop :=
  ∃ a, x = .ok a ∧ P a

namespace Returns

theorem ok {P : α → Prop} {a : α} (h : P a) : Returns (.ok a : Except ε α) P :=
  ⟨a, rfl, h⟩

theorem bind {x : Except ε α} {f : α → Except ε β} {P : α → Prop} {Q : β → Prop}
    (hx : Returns x P) (hf : ∀ a, P a → Returns (f a) Q) : Returns (x >>= f) Q := by
  obtain ⟨a, rfl, ha⟩ := hx
  exact hf a ha

theorem mono {x : Except ε α} {P Q : α → Prop} (hx : Returns x P) (h : ∀ a, P a → Q a) :
    Returns x Q := by
  obtain ⟨a, rfl, ha⟩ := hx
  exact ok (h a ha)

end Returns

/-- Two operations go the same way: both succeed with related results, or both fail alike. -/
inductive Related (S : α → β → Prop) : Except ε α → Except ε β → Prop where
  | ok {a : α} {b : β} (h : S a b) : Related S (.ok a) (.ok b)
  | error (e : ε) : Related S (.error e) (.error e)

theorem Related.bind {S : α → β → Prop} {T : γ → δ → Prop} {x : Except ε α} {y : Except ε β}
    {f : α → Except ε γ} {g : β → Except ε δ} (h : Related S x y)
    (hfg : ∀ a b, S a b → Related T (f a) (g b)) : Related T (x >>= f) (y >>= g) := by
  cases h with
  | ok h => exact hfg _ _ h
  | error e => exact .error e

theorem Related.eq {x y : Except ε α} (h : Related (· = ·) x y) : x = y := by
  cases h with
  | ok h => rw [h]
  | error => rfl

end UiTree

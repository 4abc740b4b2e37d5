import OdfCrypto.Lib.Prog

/-!
# Programs that refuse more

A program is *below* another one if the other does the same wherever the first
succeeds: all that the first does differently is to fail where the other need not.
It is so of two programs built the same way of parts that are.

* `Prog.Below.bind`, `Prog.Below.each`: sequences of programs below one another.
-/

namespace Prog

variable {σ ε ε' ε₁ ε₂ α β γ : Type}

/-- Wherever `x` succeeds, `y` does the same. -/
def Below (x : Prog σ ε α) (y : Prog σ ε' α) : Prop :=
  ∀ s a s', x s = (.ok a, s') → y s = (.ok a, s')

namespace Below

variable {x : Prog σ ε α} {y : Prog σ ε' α}

theorem refl (x : Prog σ ε α) : Below x x := fun _ _ _ h => h

theorem fail (e : ε) (y : Prog σ ε' α) : Below (Prog.fail e) y := by
  intro s a s' h
  cases h

theorem lift {u : Except ε α} {v : Except ε' α} (h : ∀ a, u = .ok a → v = .ok a) :
    Below (Prog.lift u : Prog σ ε α) (Prog.lift v) := by
  intro s a s' hs
  obtain ⟨hu, rfl⟩ := lift_eq_ok.1 hs
  rw [lift_apply, h a hu]

theorem lift_mapError (u : Except ε α) (f : ε → ε₁) (g : ε → ε₂) :
    Below (Prog.lift (u.mapError f) : Prog σ ε₁ α) (Prog.lift (u.mapError g)) :=
  lift fun _ h => Except.mapError_eq_ok.2 (Except.mapError_eq_ok.1 h)

theorem mapError (h : Below x y) (f : ε → ε₁) (g : ε' → ε₂) :
    Below (x.mapError f) (y.mapError g) := by
  intro s a s' hs
  exact (mapError_eq_ok g).2 (h s a s' ((mapError_eq_ok f).1 hs))

theorem bind {f : α → Prog σ ε β} {g : α → Prog σ ε' β} (h : Below x y)
    (hf : ∀ a, Below (f a) (g a)) : Below (x >>= f) (y >>= g) := by
  intro s b s' hs
  obtain ⟨a, s₁, hx, hs⟩ := bind_eq_ok.1 hs
  exact bind_eq_ok.2 ⟨a, s₁, h s a s₁ hx, hf a s₁ b s' hs⟩

/-- Parts for each element, wherever they begin. -/
theorem each {f : γ → α → Prog σ ε γ} {g : γ → α → Prog σ ε' γ} (h : ∀ c a, Below (f c a) (g c a))
    (init : γ) (l : List α) : Below (Prog.each f init l) (Prog.each g init l) := by
  induction l generalizing init with
  | nil =>
    intro s a s' hs
    cases hs
    rfl
  | cons a l ih => exact (h init a).bind ih

end Below

end Prog

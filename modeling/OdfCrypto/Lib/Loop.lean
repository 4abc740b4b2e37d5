import Mathlib.Algebra.Ring.Int.Defs
import Mathlib.Algebra.Ring.Nat
import Mathlib.Data.Nat.Basic
import Mathlib.Logic.Basic

/-!
# Ranked loops

A `loop` of a program is a body on the loop's state, either leaving the loop
with a result or going round again in a new state, with a *rank* that drops
every time round. The loop is run by recursion on the rank, so that it computes
on concrete states, and is reasoned about by its unfolding.

* `Loop.run_inl`, `Loop.run_inr`: a run is one pass of the body, then the rest of the run;
* `Loop.run_induct`: what every pass preserves holds of the result;
* `Loop.iterate`: a body run without a rank, as often as there is fuel, with
  `Loop.iterate_of_run` (it comes to what a loop comes to) and
  `Loop.iterate_none` (it comes to nothing).
-/

/-- A loop over the states `σ` with results in `β`. -/
structure Loop (σ β : Type*) where
  /-- One pass: leave with a result, or go round again in a new state. -/
  body : σ → β ⊕ σ
  /-- What every pass that goes round again makes smaller. -/
  rank : σ → ℕ
  rank_lt : ∀ {s s'}, body s = .inr s' → rank s' < rank s

namespace Loop

variable {σ σ' β β' : Type*}

/-- The loop run with `fuel`, which its rank stays under. -/
def runFuel (l : Loop σ β) : (fuel : ℕ) → (s : σ) → l.rank s < fuel → β
  | 0, _, h => absurd h (Nat.not_lt_zero _)
  | fuel + 1, s, h =>
    match hs : l.body s with
    | .inl b => b
    | .inr s' => l.runFuel fuel s' (Nat.lt_of_lt_of_le (l.rank_lt hs) (Nat.le_of_lt_succ h))

/-- The result of the loop started in `s`. -/
def run (l : Loop σ β) (s : σ) : β :=
  l.runFuel (l.rank s + 1) s (Nat.lt_succ_self _)

theorem runFuel_inl {l : Loop σ β} {fuel : ℕ} {s : σ} {b : β} (h : l.rank s < fuel)
    (hs : l.body s = .inl b) : l.runFuel fuel s h = b := by
  cases fuel with
  | zero => exact absurd h (Nat.not_lt_zero _)
  | succ fuel =>
    rw [runFuel]
    split <;> simp_all

theorem runFuel_inr {l : Loop σ β} {fuel : ℕ} {s s' : σ} (h : l.rank s < fuel + 1)
    (hs : l.body s = .inr s') :
    l.runFuel (fuel + 1) s h =
      l.runFuel fuel s' (Nat.lt_of_lt_of_le (l.rank_lt hs) (Nat.le_of_lt_succ h)) := by
  rw [runFuel]
  split
  · simp_all
  · next s₁ hs₁ =>
    obtain rfl : s₁ = s' := by simpa [hs] using hs₁.symm
    rfl

/-- How much fuel there is does not matter, as long as it covers the rank. -/
theorem runFuel_congr (l : Loop σ β) {m n : ℕ} {s : σ} (hm : l.rank s < m) (hn : l.rank s < n) :
    l.runFuel m s hm = l.runFuel n s hn := by
  induction m generalizing n s with
  | zero => exact absurd hm (Nat.not_lt_zero _)
  | succ m ih =>
    cases n with
    | zero => exact absurd hn (Nat.not_lt_zero _)
    | succ n =>
      cases hs : l.body s with
      | inl b => rw [runFuel_inl hm hs, runFuel_inl hn hs]
      | inr s' => rw [runFuel_inr hm hs, runFuel_inr hn hs, ih]

theorem run_inl {l : Loop σ β} {s : σ} {b : β} (hs : l.body s = .inl b) : l.run s = b :=
  runFuel_inl _ hs

theorem run_inr {l : Loop σ β} {s s' : σ} (hs : l.body s = .inr s') : l.run s = l.run s' := by
  rw [run, runFuel_inr _ hs, run]
  exact l.runFuel_congr _ _

/-- What holds at the start, is preserved by going round again and gives the
    result on leaving, holds of the result. -/
theorem run_induct {l : Loop σ β} (I : σ → Prop) {P : β → Prop} {s : σ} (h : I s)
    (inr : ∀ {s s'}, I s → l.body s = .inr s' → I s')
    (inl : ∀ {s b}, I s → l.body s = .inl b → P b) : P (l.run s) := by
  induction hn : l.rank s using Nat.strong_induction_on generalizing s with
  | _ n ih =>
    cases hs : l.body s with
    | inl b => rw [run_inl hs]; exact inl h hs
    | inr s' => rw [run_inr hs]; exact ih _ (hn ▸ l.rank_lt hs) (inr h hs) rfl

/-! ### Bodies without a rank -/

/-- A body run `fuel` times at most: its result, if it has left by then. -/
def iterate (body : σ → β ⊕ σ) : (fuel : ℕ) → σ → Option β
  | 0, _ => none
  | fuel + 1, s =>
    match body s with
    | .inl b => some b
    | .inr s' => iterate body fuel s'

variable {body : σ → β ⊕ σ} {s s' : σ} {b : β}

theorem iterate_inl (h : body s = .inl b) (fuel : ℕ) : iterate body (fuel + 1) s = some b := by
  rw [iterate, h]

theorem iterate_inr (h : body s = .inr s') (fuel : ℕ) :
    iterate body (fuel + 1) s = iterate body fuel s' := by
  rw [iterate, h]

/-- A body that does what the body of a loop does, in the states that it comes to,
    leaves with the result of the loop. -/
theorem iterate_of_run (l : Loop σ β) (I : σ → Prop) (h : I s)
    (eq : ∀ {s}, I s → body s = l.body s)
    (inr : ∀ {s s'}, I s → l.body s = .inr s' → I s') :
    ∃ fuel, iterate body fuel s = some (l.run s) := by
  induction hn : l.rank s using Nat.strong_induction_on generalizing s with
  | _ n ih =>
    have hb := eq h
    rcases hs : l.body s with b | s'
    · exact ⟨1, by rw [iterate_inl (hb.trans hs), run_inl hs]⟩
    · obtain ⟨fuel, hf⟩ := ih _ (hn ▸ l.rank_lt hs) (inr h hs) rfl
      exact ⟨fuel + 1, by rw [iterate_inr (hb.trans hs), hf, run_inr hs]⟩

/-- A body that goes round again in every state that it comes to never leaves. -/
theorem iterate_none (I : σ → Prop) (inr : ∀ {s}, I s → ∃ s', body s = .inr s' ∧ I s') (h : I s)
    (fuel : ℕ) : iterate body fuel s = none := by
  induction fuel generalizing s with
  | zero => rfl
  | succ fuel ih =>
    obtain ⟨s', hs, h'⟩ := inr h
    rw [iterate_inr hs, ih h']

end Loop

import Mathlib.Logic.Basic

/-!
# Runs of a step function

A step function takes a state to the next one by an action, where the action is
possible. A run takes the actions of a list, one after another.

* `Trace.run step s as`: the state after a run;
* `Trace.Along step C s as`: every action of a run is taken in a state in which
  `C` allows it;
* `Trace.induct`: what every allowed step keeps holds after an allowed run;
* `Trace.split`: a run is allowed and keeps an invariant, or it is not, and what
  the first step not allowed breaks stays broken.
-/

namespace Trace

variable {σ α : Type*}

/-- The state after the actions, where they are all possible. -/
def run (step : σ → α → Option σ) : σ → List α → Option σ
  | s, [] => some s
  | s, a :: as => (step s a).bind fun s' => run step s' as

/-- Every action is taken in a state in which `C` allows it. -/
def Along (step : σ → α → Option σ) (C : σ → α → Prop) : σ → List α → Prop
  | _, [] => True
  | s, a :: as => C s a ∧ ∀ s', step s a = some s' → Along step C s' as

variable {step : σ → α → Option σ} {C : σ → α → Prop} {s s' t : σ} {a : α} {as bs : List α}

@[simp] theorem run_nil : run step s [] = some s := rfl

/-- A run is its first step and the rest. -/
theorem run_cons : run step s (a :: as) = some t ↔ ∃ s', step s a = some s' ∧ run step s' as = some t :=
  Option.bind_eq_some_iff

@[simp] theorem along_nil : Along step C s [] := trivial

/-- After its first step, a run is allowed if the rest is. -/
theorem along_cons (h : step s a = some s') : Along step C s (a :: as) ↔ C s a ∧ Along step C s' as := by
  constructor
  · rintro ⟨hc, hs⟩
    exact ⟨hc, hs s' h⟩
  · rintro ⟨hc, hs⟩
    refine ⟨hc, fun s'' h' => ?_⟩
    rw [h] at h'
    exact Option.some.inj h' ▸ hs

/-- A run in two parts is allowed if both are. -/
theorem along_append (h : run step s as = some t) :
    Along step C s (as ++ bs) ↔ Along step C s as ∧ Along step C t bs := by
  induction as generalizing s with
  | nil =>
    obtain rfl := Option.some.inj h
    exact ⟨fun hb => ⟨trivial, hb⟩, fun hb => hb.2⟩
  | cons a as ih =>
    obtain ⟨s', hs', hr⟩ := run_cons.1 h
    rw [List.cons_append, along_cons hs', along_cons hs', ih hr, and_assoc]

instance decidableAlong [h : ∀ s a, Decidable (C s a)] : ∀ s as, Decidable (Along step C s as)
  | _, [] => isTrue trivial
  | s, a :: as =>
    match hs : step s a with
    | some s' =>
      have := decidableAlong s' as
      decidable_of_iff (C s a ∧ Along step C s' as) (along_cons hs).symm
    | none =>
      decidable_of_iff (C s a) ⟨fun hc => ⟨hc, fun _ h => by rw [hs] at h; cases h⟩, fun h => h.1⟩

/-- What every allowed step keeps holds after an allowed run. -/
theorem induct {I : σ → Prop}
    (hstep : ∀ {s a s'}, I s → C s a → step s a = some s' → I s') (hs : I s)
    (hc : Along step C s as) (hr : run step s as = some t) : I t := by
  induction as generalizing s with
  | nil => exact Option.some.inj hr ▸ hs
  | cons a as ih =>
    obtain ⟨s', hs', hr'⟩ := run_cons.1 hr
    obtain ⟨hca, hcs⟩ := (along_cons hs').1 hc
    exact ih (hstep hs hca hs') hcs hr'

/-- A run either takes allowed steps only, and keeps `I`, or has a first step
    that is not allowed, which leads to `B` for good. The steps all meet `D`. -/
theorem split {I B : σ → Prop} {D : σ → α → Prop}
    (keep : ∀ {s a s'}, I s → D s a → C s a → step s a = some s' → I s')
    (breaks : ∀ {s a s'}, I s → D s a → ¬ C s a → step s a = some s' → B s')
    (stays : ∀ {s a s'}, B s → D s a → step s a = some s' → B s')
    (hs : I s) (hd : Along step D s as) (hr : run step s as = some t) :
    Along step C s as ∧ I t ∨ ¬ Along step C s as ∧ B t := by
  induction as generalizing s with
  | nil => exact .inl ⟨along_nil, Option.some.inj hr ▸ hs⟩
  | cons a as ih =>
    obtain ⟨s', hs', hr'⟩ := run_cons.1 hr
    obtain ⟨hda, hds⟩ := (along_cons hs').1 hd
    rw [along_cons hs']
    by_cases hc : C s a
    · rcases ih (keep hs hda hc hs') hds hr' with h | h
      · exact .inl ⟨⟨hc, h.1⟩, h.2⟩
      · exact .inr ⟨fun h' => h.1 h'.2, h.2⟩
    · refine .inr ⟨fun h => hc h.1, ?_⟩
      -- From here on, only that `B` stays matters.
      exact induct (fun h hd' h' => stays h hd' h') (breaks hs hda hc hs') hds hr'

end Trace

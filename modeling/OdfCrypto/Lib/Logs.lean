import OdfCrypto.Lib.Prog

/-!
# Programs that keep a log

A program whose state has a log that it only adds to: `Prog.Logs log L x` says
that `x`, from every state, adds some events for which, with its result, `L`
holds. A program that adds none is `Prog.Silent`.

* `Logs.bind`: the log of a sequence;
* `Logs.each`: the log of a program for each element, by an invariant;
* `LogsOk`: a log of which it only matters whether the program succeeded.
-/

namespace Prog

variable {σ τ ε ε' α β : Type} {log : σ → List τ} {x : Prog σ ε α} {f : α → Prog σ ε β}

/-- The program adds some events to the log for which, with its result, `L` holds. -/
def Logs (log : σ → List τ) (L : Except ε α → List τ → Prop) (x : Prog σ ε α) : Prop :=
  ∀ s, ∃ events, log (x s).2 = log s ++ events ∧ L (x s).1 events

/-- The program adds nothing to the log. -/
def Silent (log : σ → List τ) (x : Prog σ ε α) : Prop :=
  ∀ s, log (x s).2 = log s

namespace Silent

/-- The log of a run that ended in some way. -/
theorem of_eq (h : Silent log x) {s s' : σ} {r : Except ε α} (hx : x s = (r, s')) :
    log s' = log s := by
  have hs := h s
  rwa [hx] at hs

theorem pure (a : α) : Silent log (Pure.pure a : Prog σ ε α) := fun _ => rfl

theorem fail (e : ε) : Silent log (Prog.fail e : Prog σ ε α) := fun _ => rfl

theorem lift (y : Except ε α) : Silent log (Prog.lift y : Prog σ ε α) := fun _ => rfl

theorem bind (hx : Silent log x) (hf : ∀ a, Silent log (f a)) : Silent log (x >>= f) := by
  intro s
  have h := hx s
  rw [bind_apply]
  rcases hxs : x s with ⟨_ | a, s₁⟩
  · rwa [hxs] at h
  · rw [hxs] at h
    exact (hf a s₁).trans h

theorem mapError (hx : Silent log x) (g : ε → ε') : Silent log (x.mapError g) := hx

theorem ite {c : Prop} [Decidable c] {y : Prog σ ε α} (hx : Silent log x) (hy : Silent log y) :
    Silent log (if c then x else y) := by
  split
  · exact hx
  · exact hy

theorem each {γ : Type} {g : γ → α → Prog σ ε γ} (h : ∀ c a, Silent log (g c a)) (init : γ)
    (l : List α) : Silent log (Prog.each g init l) := by
  induction l generalizing init with
  | nil => exact pure init
  | cons a l ih => exact bind (h init a) ih

end Silent

namespace Logs

variable {L L' : Except ε α → List τ → Prop} {N : Except ε β → List τ → Prop}

/-- The events of a run that ended in some way. -/
theorem of_eq (h : Logs log L x) {s s' : σ} {r : Except ε α} (hx : x s = (r, s')) :
    ∃ events, log s' = log s ++ events ∧ L r events := by
  have hs := h s
  rwa [hx] at hs

/-- A silent program, as one that adds no events. -/
theorem of_silent (hx : Silent log x) (h : ∀ r, L r []) : Logs log L x :=
  fun s => ⟨[], by rw [hx s, List.append_nil], h _⟩

theorem pure {a : α} (h : L (.ok a) []) : Logs log L (Pure.pure a) :=
  fun _ => ⟨[], (List.append_nil _).symm, h⟩

theorem fail {e : ε} (h : L (.error e) []) : Logs log L (Prog.fail e) :=
  fun _ => ⟨[], (List.append_nil _).symm, h⟩

theorem mono (hx : Logs log L x) (h : ∀ {r events}, L r events → L' r events) :
    Logs log L' x :=
  fun s => (hx s).imp fun _ he => ⟨he.1, h he.2⟩

/-- The events of a sequence are those of the first program, and then those of the
    second, if it comes to that. -/
theorem bind (hx : Logs log L x) (herror : ∀ {e events}, L (.error e) events → N (.error e) events)
    (hf : ∀ {a events}, L (.ok a) events →
      Logs log (fun r new => N r (events ++ new)) (f a)) : Logs log N (x >>= f) := by
  intro s
  obtain ⟨events, hlog, hl⟩ := hx s
  rw [bind_apply]
  rcases hxs : x s with ⟨e | a, s₁⟩
  · rw [hxs] at hlog hl
    exact ⟨events, hlog, herror hl⟩
  · rw [hxs] at hlog hl
    obtain ⟨new, hnew, hn⟩ := hf hl s₁
    exact ⟨events ++ new, by rw [hnew, hlog, List.append_assoc], hn⟩

/-- A silent program comes first. -/
theorem after_silent (hx : Silent log x) (herror : ∀ e, N (.error e) [])
    (hf : ∀ a, Logs log N (f a)) : Logs log N (x >>= f) :=
  (of_silent (L := fun _ events => events = []) hx fun _ => rfl).bind
    (by rintro e _ rfl; exact herror e) (by rintro a _ rfl; exact hf a)

/-- A result comes first. -/
theorem after_lift {y : Except ε α} (herror : ∀ e, y = .error e → N (.error e) [])
    (hf : ∀ a, y = .ok a → Logs log N (f a)) : Logs log N (Prog.lift y >>= f) := by
  cases y with
  | error e => exact fun s => ⟨[], (List.append_nil _).symm, herror e rfl⟩
  | ok a => exact hf a rfl

theorem mapError {g : ε → ε'} {L' : Except ε' α → List τ → Prop} (hx : Logs log L x)
    (h : ∀ {r events}, L r events → L' (r.mapError g) events) : Logs log L' (x.mapError g) :=
  fun s => (hx s).imp fun _ he => ⟨he.1, h he.2⟩

/-- A program whose errors are read otherwise comes first. -/
theorem bind_mapError {f : α → Prog σ ε' β} {N : Except ε' β → List τ → Prop} {g : ε → ε'}
    (hx : Logs log L x) (herror : ∀ {e events}, L (.error e) events → N (.error (g e)) events)
    (hf : ∀ {a events}, L (.ok a) events →
      Logs log (fun r new => N r (events ++ new)) (f a)) : Logs log N (x.mapError g >>= f) := by
  have hy : Logs log (fun r events => ∃ r', r = r'.mapError g ∧ L r' events) (x.mapError g) :=
    hx.mapError fun {r events} h => ⟨r, rfl, h⟩
  refine hy.bind ?_ ?_
  · rintro e events ⟨e' | a, h, hl⟩ <;> cases h
    exact herror hl
  · rintro a events ⟨e' | a, h, hl⟩ <;> cases h
    exact hf hl

theorem ite {c : Prop} [Decidable c] {y : Prog σ ε α} (hx : c → Logs log L x)
    (hy : ¬ c → Logs log L y) : Logs log L (if c then x else y) := by
  split
  · next h => exact hx h
  · next h => exact hy h

/-- The log of a program for each element: `I` speaks of the elements done so far
    and of all the events until then, `E` of the events of a run that failed. -/
theorem each {γ : Type} {g : γ → α → Prog σ ε γ} {init : γ} {l : List α}
    {I : List α → γ → List τ → Prop} {E : ε → List τ → Prop}
    (h0 : I [] init [])
    (step : ∀ {done a rest c events}, l = done ++ a :: rest → I done c events →
      Logs log (fun r new => (∀ c', r = .ok c' → I (done ++ [a]) c' (events ++ new)) ∧
        ∀ e, r = .error e → E e (events ++ new)) (g c a)) :
    Logs log (fun r events => (∀ c, r = .ok c → I l c events) ∧ ∀ e, r = .error e → E e events)
      (Prog.each g init l) := by
  -- Induction over what is left, with the invariant of what was done.
  suffices ∀ rest done c events, l = done ++ rest → I done c events →
      Logs log (fun r new => (∀ c, r = .ok c → I l c (events ++ new)) ∧
        ∀ e, r = .error e → E e (events ++ new)) (Prog.each g c rest) from
    this l [] init [] rfl h0
  intro rest
  induction rest with
  | nil =>
    intro done c events hl hI
    rw [List.append_nil] at hl
    refine pure ⟨?_, nofun⟩
    rintro _ ⟨⟩
    rwa [List.append_nil, hl]
  | cons a rest ih =>
    intro done c events hl hI
    rw [each_cons]
    refine (step hl hI).bind (fun h => ⟨nofun, ?_⟩) fun h => ?_
    · rintro _ ⟨⟩
      exact h.2 _ rfl
    · refine (ih (done ++ [a]) _ _ (by rw [hl, List.append_assoc]; rfl) (h.1 _ rfl)).mono ?_
      intro r new hr
      rwa [List.append_assoc] at hr

end Logs

/-! ### Whether the program succeeded -/

/-- The program adds some events for which, with whether it succeeded, `L` holds. -/
def LogsOk (log : σ → List τ) (L : Bool → List τ → Prop) (x : Prog σ ε α) : Prop :=
  Logs log (fun r events => L r.isOk events) x

/-- A log of a program that may as well have failed, at the start or after all it did. -/
structure Fallible (L : Bool → List τ → Prop) : Prop where
  nil : L false []
  fail : ∀ {events}, L true events → L false events

/-- Forget that the program succeeded. -/
theorem Fallible.forget {L : Bool → List τ → Prop} (hl : Fallible L) {ok : Bool} {events : List τ}
    (h : L ok events) : L false events := by
  cases ok with
  | true => exact hl.fail h
  | false => exact h

namespace LogsOk

variable {L : Bool → List τ → Prop}

/-- The events of a run that ended in some way. -/
theorem of_eq (h : LogsOk log L x) {s s' : σ} {r : Except ε α} (hx : x s = (r, s')) :
    ∃ events, log s' = log s ++ events ∧ L r.isOk events :=
  Logs.of_eq h hx

theorem fail (hl : Fallible L) (e : ε) : LogsOk log L (Prog.fail e : Prog σ ε α) :=
  Logs.fail hl.nil

theorem mapError (hx : LogsOk log L x) (g : ε → ε') : LogsOk log L (x.mapError g) := by
  refine Logs.mapError hx fun {r events} h => ?_
  cases r <;> exact h

/-- A silent program comes first. -/
theorem after_silent (hl : Fallible L) (hx : Silent log x) (hf : ∀ a, LogsOk log L (f a)) :
    LogsOk log L (x >>= f) :=
  Logs.after_silent hx (fun _ => hl.nil) hf

/-- A result comes first. -/
theorem after_lift (hl : Fallible L) {y : Except ε α}
    (hf : ∀ a, y = .ok a → LogsOk log L (f a)) : LogsOk log L (Prog.lift y >>= f) :=
  Logs.after_lift (fun _ _ => hl.nil) hf

/-- A silent program comes last. -/
theorem then_silent (hl : Fallible L) (hx : LogsOk log L x) (hf : ∀ a, Silent log (f a)) :
    LogsOk log L (x >>= f) := by
  refine Logs.bind hx id fun {a events} h => .of_silent (hf a) fun r => ?_
  rw [List.append_nil]
  cases r with
  | error e => exact hl.fail h
  | ok b => exact h

end LogsOk

end Prog

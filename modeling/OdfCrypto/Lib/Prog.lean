import Mathlib.Algebra.Ring.Int.Defs
import Mathlib.Algebra.Ring.Nat
import Mathlib.Data.List.Basic

/-!
# Programs

A program on states `σ` that ends with a result or with an error, in either case
in some state: what was done before a failure stays done.

* `Prog.bind_eq_ok`, `Prog.bind_eq_error`: how a sequence of programs ended;
* `Prog.Within R x`: `x` only moves along `R`, from every state, and
  `Prog.Keeps get x`: it leaves what `get` reads as it is;
* `Prog.each`: a program for each element of a list, in order, with its
  invariant rule `Prog.each_induct`.
-/

namespace Except

variable {ε ε' α β : Type*}

theorem map_eq_ok {x : Except ε α} {f : α → β} {b : β} :
    x.map f = .ok b ↔ ∃ a, x = .ok a ∧ f a = b := by
  cases x <;> simp [Except.map]

theorem mapError_eq_ok {x : Except ε α} {f : ε → ε'} {a : α} :
    x.mapError f = .ok a ↔ x = .ok a := by
  cases x <;> simp [Except.mapError]

@[simp] theorem isOk_map {x : Except ε α} {f : α → β} : (x.map f).isOk = x.isOk := by
  cases x <;> rfl

@[simp] theorem isOk_mapError {x : Except ε α} {f : ε → ε'} : (x.mapError f).isOk = x.isOk := by
  cases x <;> rfl

theorem toOption_eq_some {x : Except ε α} {a : α} : x.toOption = some a ↔ x = .ok a := by
  cases x <;> simp [Except.toOption]

/-- A run whose result is known, and its final state. -/
theorem eq_of_toOption {ε α σ : Type*} {x : Except ε α × σ} {a : α} (h : x.1.toOption = some a) :
    x = (.ok a, x.2) := by
  obtain ⟨result, s⟩ := x
  obtain rfl := toOption_eq_some.1 h
  rfl

/-- A sequence of results is there when both are. -/
theorem bind_eq_ok {ε α β : Type} {x : Except ε α} {f : α → Except ε β} {b : β} :
    (x >>= f) = .ok b ↔ ∃ a, x = .ok a ∧ f a = .ok b := by
  cases x <;> simp [bind, Except.bind]

end Except

/-- A program on states `σ` that fails with `ε` or results in `α`. -/
def Prog (σ ε α : Type) : Type := σ → Except ε α × σ

namespace Prog

variable {σ ε ε' α β : Type}

instance : Monad (Prog σ ε) where
  pure a := fun s => (.ok a, s)
  bind x f := fun s =>
    match x s with
    | (.ok a, s') => f a s'
    | (.error e, s') => (.error e, s')

/-- Fail, and leave the state as it is. -/
def fail (e : ε) : Prog σ ε α := fun s => (.error e, s)

/-- A result or an error that does not depend on the state. -/
def lift (x : Except ε α) : Prog σ ε α := fun s => (x, s)

/-- Change the state. -/
def modify (f : σ → σ) : Prog σ ε Unit := fun s => (.ok (), f s)

/-- The same program, with other errors. -/
def mapError (f : ε → ε') (x : Prog σ ε α) : Prog σ ε' α := fun s => ((x s).1.mapError f, (x s).2)

/-- A program for each element, in order. -/
def each {γ : Type} (f : γ → α → Prog σ ε γ) (init : γ) (l : List α) : Prog σ ε γ :=
  l.foldlM f init

variable {x : Prog σ ε α} {f : α → Prog σ ε β} {s s' : σ} {a : α} {b : β} {e : ε}

@[simp] theorem pure_apply : (pure a : Prog σ ε α) s = (.ok a, s) := rfl

@[simp] theorem fail_apply : (fail e : Prog σ ε α) s = (.error e, s) := rfl

@[simp] theorem lift_apply (y : Except ε α) : (lift y : Prog σ ε α) s = (y, s) := rfl

@[simp] theorem modify_apply (g : σ → σ) : (modify g : Prog σ ε Unit) s = (.ok (), g s) := rfl

theorem bind_apply : (x >>= f) s =
    match x s with
    | (.ok a, s') => f a s'
    | (.error e, s') => (.error e, s') := rfl

theorem bind_of_ok (h : x s = (.ok a, s')) : (x >>= f) s = f a s' := by rw [bind_apply, h]

theorem bind_of_error (h : x s = (.error e, s')) : (x >>= f) s = (.error e, s') := by
  rw [bind_apply, h]

/-- A sequence of programs succeeds when both do. -/
theorem bind_eq_ok : (x >>= f) s = (.ok b, s') ↔
    ∃ a s₁, x s = (.ok a, s₁) ∧ f a s₁ = (.ok b, s') := by
  rw [bind_apply]
  rcases x s with ⟨_ | a, s₁⟩ <;> simp [and_assoc]

/-- A sequence of programs fails when the first does, or the second after it. -/
theorem bind_eq_error : (x >>= f) s = (.error e, s') ↔
    x s = (.error e, s') ∨ ∃ a s₁, x s = (.ok a, s₁) ∧ f a s₁ = (.error e, s') := by
  rw [bind_apply]
  rcases x s with ⟨_ | a, s₁⟩ <;> simp [and_assoc]

theorem mapError_eq_ok (g : ε → ε') : x.mapError g s = (.ok a, s') ↔ x s = (.ok a, s') := by
  unfold mapError
  rcases x s with ⟨_ | a, s₁⟩ <;> simp [Except.mapError]

theorem lift_eq_ok {y : Except ε α} : lift y s = (.ok a, s') ↔ y = .ok a ∧ s' = s := by
  simp [lift, eq_comm]

/-- A result that is there first. -/
theorem lift_bind_eq_ok {y : Except ε α} : (lift y >>= f) s = (.ok b, s') ↔
    ∃ a, y = .ok a ∧ f a s = (.ok b, s') := by
  rw [bind_apply, lift_apply]
  rcases y with e | a <;> simp

theorem ite_eq_ok {c : Prop} [Decidable c] {y : Prog σ ε α} :
    (if c then x else y) s = (.ok a, s') ↔
      (c ∧ x s = (.ok a, s')) ∨ (¬ c ∧ y s = (.ok a, s')) := by
  split <;> simp_all

/-! ### What a program can do to the state -/

/-- The program only moves along `R`, from every state. -/
def Within (R : σ → σ → Prop) (x : Prog σ ε α) : Prop := ∀ s, R s (x s).2

namespace Within

variable {R : σ → σ → Prop}

theorem of_eq (h : Within R x) (hx : x s = (Except.ok a, s')) : R s s' := by
  have := h s
  rwa [hx] at this

theorem of_eq_error (h : Within R x) (hx : x s = (Except.error e, s')) : R s s' := by
  have := h s
  rwa [hx] at this

theorem pure (hr : ∀ s, R s s) (a : α) : Within R (Pure.pure a : Prog σ ε α) := hr

theorem fail (hr : ∀ s, R s s) (e : ε) : Within R (Prog.fail e : Prog σ ε α) := hr

theorem lift (hr : ∀ s, R s s) (y : Except ε α) : Within R (Prog.lift y : Prog σ ε α) := hr

theorem modify {g : σ → σ} (h : ∀ s, R s (g s)) : Within R (Prog.modify g : Prog σ ε Unit) := h

theorem bind (ht : ∀ {s s₁ s₂}, R s s₁ → R s₁ s₂ → R s s₂) (hx : Within R x)
    (hf : ∀ a, Within R (f a)) : Within R (x >>= f) := by
  intro s
  have h := hx s
  rw [bind_apply]
  rcases hxs : x s with ⟨_ | a, s₁⟩
  · rwa [hxs] at h
  · rw [hxs] at h
    exact ht h (hf a s₁)

theorem mapError (hx : Within R x) (g : ε → ε') : Within R (x.mapError g) := hx

theorem ite {c : Prop} [Decidable c] {y : Prog σ ε α} (hx : Within R x) (hy : Within R y) :
    Within R (if c then x else y) := by
  split
  · exact hx
  · exact hy

theorem each (hr : ∀ s, R s s) (ht : ∀ {s s₁ s₂}, R s s₁ → R s₁ s₂ → R s s₂) {γ : Type}
    {g : γ → α → Prog σ ε γ} (h : ∀ c a, Within R (g c a)) (init : γ) (l : List α) :
    Within R (Prog.each g init l) := by
  induction l generalizing init with
  | nil => exact pure hr init
  | cons a l ih => exact bind ht (h init a) ih

end Within

/-- The program leaves something of the state as it is. -/
def Keeps {κ : Type} (get : σ → κ) (x : Prog σ ε α) : Prop := Within (fun s s' => get s' = get s) x

namespace Keeps

variable {κ : Type} {get : σ → κ}

theorem of_ok (h : Keeps get x) (hx : x s = (.ok a, s')) : get s' = get s :=
  Within.of_eq (R := fun s s' => get s' = get s) h hx

theorem pure (a : α) : Keeps get (Pure.pure a : Prog σ ε α) := fun _ => rfl

theorem fail (e : ε) : Keeps get (Prog.fail e : Prog σ ε α) := fun _ => rfl

theorem lift (y : Except ε α) : Keeps get (Prog.lift y : Prog σ ε α) := fun _ => rfl

theorem bind (hx : Keeps get x) (hf : ∀ a, Keeps get (f a)) : Keeps get (x >>= f) :=
  Within.bind (R := fun s s' => get s' = get s) (fun h h' => h'.trans h) hx hf

theorem mapError (hx : Keeps get x) (g : ε → ε') : Keeps get (x.mapError g) := hx

theorem ite {c : Prop} [Decidable c] {y : Prog σ ε α} (hx : Keeps get x) (hy : Keeps get y) :
    Keeps get (if c then x else y) :=
  Within.ite hx hy

theorem each {γ : Type} {g : γ → α → Prog σ ε γ} (h : ∀ c a, Keeps get (g c a)) (init : γ)
    (l : List α) : Keeps get (Prog.each g init l) :=
  Within.each (R := fun s s' => get s' = get s) (fun _ => rfl) (fun h h' => h'.trans h) h init l

end Keeps

/-! ### A program for each element -/

section

variable {γ : Type} {g : γ → α → Prog σ ε γ} {init c : γ} {l : List α}

@[simp] theorem each_nil : each g init ([] : List α) = pure init := rfl

@[simp] theorem each_cons : each g init (a :: l) = g init a >>= fun c => each g c l := rfl

theorem each_append (l l' : List α) :
    each g init (l ++ l') = each g init l >>= fun c => each g c l' := by
  induction l generalizing init with
  | nil => rfl
  | cons a l ih =>
    funext s
    rw [List.cons_append, each_cons, each_cons, bind_apply, bind_apply, bind_apply]
    rcases g init a s with ⟨_ | c, s₁⟩
    · rfl
    · exact congrFun ih s₁

/-- What holds at the start and is kept by the program for each element holds at
    the end of a run that succeeds; `I` speaks of the elements done so far. -/
theorem each_induct (I : List α → γ → σ → Prop) (h0 : I [] init s)
    (step : ∀ {done a rest c c' s s'}, l = done ++ a :: rest → I done c s →
      g c a s = (.ok c', s') → I (done ++ [a]) c' s')
    (h : each g init l s = (.ok c, s')) : I l c s' := by
  suffices ∀ done rest, l = done ++ rest → ∀ init s, I done init s →
      each g init rest s = (.ok c, s') → I l c s' from this [] l rfl init s h0 h
  intro done rest
  induction rest generalizing done with
  | nil =>
    intro hl init s hI h
    rw [each_nil, pure_apply, Prod.mk.injEq, Except.ok.injEq] at h
    obtain ⟨rfl, rfl⟩ := h
    rwa [hl, List.append_nil]
  | cons a rest ih =>
    intro hl init s hI h
    obtain ⟨c₁, s₁, hg, h⟩ := bind_eq_ok.1 h
    exact ih (done ++ [a]) (by rw [hl, List.append_assoc, List.singleton_append]) c₁ s₁
      (step hl hI hg) h

end

end Prog

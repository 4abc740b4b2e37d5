import OdfCrypto.Lib.Write

/-!
# Reading to the end, piece by piece

`eachPiece` reads up to the end, a buffer at a time, and hands each piece on,
without trying again after an interrupted read.

* `eachPiece_ok`: when it succeeds, everything up to a read that handed over
  nothing was handed on, in order;
* `eachPiece_drawn`: however it ends, it has read, and read again after no error;
* `eachPiece_presents`, `eachPiece_presents_error`: what it does to a reader
  known by what it presents.
-/

namespace ByteStream

section

variable {ρ ε ε' γ : Type*} [IsError ε] [Read ρ ε]

/-- One pass of `eachPiece`. -/
def eachPieceStep (n : ℕ) (onRead : ε → ε') (f : γ → Bytes → Except ε' Unit × γ) :
    γ × ρ → (Except ε' Unit × γ × ρ) ⊕ (γ × ρ)
  | (c, r) =>
    match read r n with
    | (.ok [], r') => .inl (.ok (), c, r')
    | (.ok bs, r') =>
      match f c bs with
      | (.ok (), c') => .inr (c', r')
      | (.error e, c') => .inl (.error e, c', r')
    | (.error e, r') => .inl (.error (onRead e), c, r')

/-- The loop of `eachPiece`. -/
def eachPieceLoop (n : ℕ) (onRead : ε → ε') (f : γ → Bytes → Except ε' Unit × γ) :
    Loop (γ × ρ) (Except ε' Unit × γ × ρ) where
  body := eachPieceStep n onRead f
  rank s := left s.2
  rank_lt := by
    rintro ⟨c, r⟩ s' h
    simp only [eachPieceStep] at h
    split at h
    · cases h
    · next hne hr =>
      split at h
      · cases h; exact Read.left_lt hr fun h => hne (by simp [h])
      · cases h
    · cases h

/-- Read to the end, `n` bytes at a time, and hand each piece to `f`. -/
def eachPiece (n : ℕ) (onRead : ε → ε') (f : γ → Bytes → Except ε' Unit × γ) (c : γ) (r : ρ) :
    Except ε' Unit × γ × ρ :=
  (eachPieceLoop n onRead f).run (c, r)

/-- How reading to the end of what is presented ends. -/
def ended (onRead : ε → ε') : Option ε → Except ε' Unit
  | none => .ok ()
  | some e => .error (onRead e)

variable {n : ℕ} {onRead : ε → ε'} {f : γ → Bytes → Except ε' Unit × γ} {c c' : γ} {r r' : ρ}

/-- What `eachPiece` handed on when it succeeded: all up to a read of nothing. -/
theorem eachPiece_ok (R : γ → Bytes → γ → Prop) (refl : ∀ c, R c [] c)
    (step : ∀ {c c₁ c₂ bs piece}, R c bs c₁ → f c₁ piece = (.ok (), c₂) → R c (bs ++ piece) c₂)
    (h : eachPiece n onRead f c r = (.ok (), c', r')) :
    ∃ bs r₁, Reads r bs r₁ ∧ read r₁ n = (.ok [], r') ∧ R c bs c' := by
  -- The invariant: the pieces read so far went through `f`.
  refine Loop.run_induct (l := eachPieceLoop n onRead f) (s := (c, r))
    (fun s => ∃ bs, Reads r bs s.2 ∧ R c bs s.1)
    (P := fun b => ∀ c' r', b = (.ok (), c', r') →
      ∃ bs r₁, Reads r bs r₁ ∧ read r₁ n = (.ok [], r') ∧ R c bs c')
    ⟨[], .refl r, refl c⟩ ?_ ?_ c' r' h
  · rintro ⟨c₁, r₁⟩ s' ⟨bs, hr, hR⟩ hs
    simp only [eachPieceLoop, eachPieceStep] at hs
    split at hs
    · cases hs
    · next hread =>
      split at hs
      · next hf => cases hs; exact ⟨_, hr.trans (.single hread), step hR hf⟩
      · cases hs
    · cases hs
  · rintro ⟨c₁, r₁⟩ b ⟨bs, hr, hR⟩ hs
    simp only [eachPieceLoop, eachPieceStep] at hs
    split at hs
    · next hread => cases hs; rintro c' r' ⟨⟩; exact ⟨bs, r₁, hr, hread, hR⟩
    · split at hs
      · cases hs
      · cases hs; rintro c' r' ⟨⟩
    · cases hs; rintro c' r' ⟨⟩

/-- What `eachPiece` does to a reader. -/
theorem eachPiece_drawn {result : Except ε' Unit}
    (h : eachPiece n onRead f c r = (result, c', r')) : ∃ bs, Drawn r bs r' := by
  suffices ∃ bs, Drawn r bs (eachPiece n onRead f c r).2.2 by rwa [h] at this
  refine Loop.run_induct (l := eachPieceLoop n onRead f) (s := (c, r))
    (fun s => ∃ bs, Reads r bs s.2) (P := fun b => ∃ bs, Drawn r bs b.2.2) ⟨[], .refl r⟩ ?_ ?_
  · rintro ⟨c₁, r₁⟩ s' ⟨bs, hr⟩ hs
    simp only [eachPieceLoop, eachPieceStep] at hs
    split at hs
    · cases hs
    · next hread =>
      split at hs
      · cases hs; exact ⟨_, hr.trans (.single hread)⟩
      · cases hs
    · cases hs
  · rintro ⟨c₁, r₁⟩ b ⟨bs, hr⟩ hs
    simp only [eachPieceLoop, eachPieceStep] at hs
    split at hs
    · next hread => cases hs; exact ⟨_, (hr.trans (.single hread)).drawn⟩
    · next hread =>
      split at hs
      · cases hs
      · cases hs; exact ⟨_, (hr.trans (.single hread)).drawn⟩
    · next hread => cases hs; exact ⟨bs, r₁, hr, .inr ⟨_, _, hread⟩⟩

/-- A reader that presents its bytes is handed on in pieces that make them up, as
    long as each piece is taken; `I` says what has been made of the bytes so far. -/
theorem eachPiece_presents (I : Bytes → γ → Prop) {bs : Bytes} {e : Option ε} (hn : 0 < n)
    (hr : Presents r bs e)
    (step : ∀ {done piece rest c}, bs = done ++ piece ++ rest → piece ≠ [] → piece.length ≤ n →
      I done c → ∃ c', f c piece = (.ok (), c') ∧ I (done ++ piece) c')
    (h0 : I [] c) :
    ∃ c', I bs c' ∧ ∃ r', eachPiece n onRead f c r =
      (ended onRead e, c', r') ∧
        (e = none → Presents r' [] e) := by
  -- A piece is not empty: induction on a bound of what is left.
  suffices ∀ m done rest (c : γ) (r : ρ), rest.length ≤ m → bs = done ++ rest → I done c →
      Presents r rest e → ∃ c', I bs c' ∧ ∃ r', eachPiece n onRead f c r =
        (ended onRead e, c', r') ∧
          (e = none → Presents r' [] e) from
    this _ [] bs c r le_rfl rfl h0 hr
  intro m
  induction m with
  | zero =>
    intro done rest c r hm hbs hI hP
    obtain rfl := List.length_eq_zero_iff.1 (Nat.le_zero.1 hm)
    rw [List.append_nil] at hbs
    refine ⟨c, hbs ▸ hI, ?_⟩
    cases e with
    | none =>
      obtain ⟨r', hread, hP'⟩ := hP.read_nil hn
      exact ⟨r', Loop.run_inl (by simp only [eachPieceLoop, eachPieceStep, hread, ended]), fun _ => hP'⟩
    | some err =>
      obtain ⟨-, r', hread⟩ := hP.read_error hn
      exact ⟨r', Loop.run_inl (by simp only [eachPieceLoop, eachPieceStep, hread, ended]),
        fun h => by cases h⟩
  | succ m ih =>
    intro done rest c r hm hbs hI hP
    by_cases hrest : rest = []
    · exact ih done rest c r (by simp [hrest]) hbs hI hP
    obtain ⟨piece, rest', r₁, hread, hne, rfl, hP'⟩ := hP.read_cons hn hrest
    have hlen := List.length_pos_iff.2 hne
    obtain ⟨c₁, hf, hI'⟩ := step (hbs.trans (List.append_assoc _ _ _).symm) hne
      (Read.length_le hread) hI
    have hb : (eachPieceLoop n onRead f).body (c, r) = .inr (c₁, r₁) := by
      obtain ⟨b, piece, rfl⟩ := List.exists_cons_of_ne_nil hne
      simp only [eachPieceLoop, eachPieceStep, hread, hf]
    obtain ⟨c', hc', r', he, hP''⟩ := ih (done ++ piece) rest' c₁ r₁
      (by simp only [List.length_append] at hm; omega) (by rw [hbs, List.append_assoc]) hI' hP'
    exact ⟨c', hc', r', (Loop.run_inr hb).trans he, hP''⟩

end

/-! ### Discarding and writing -/

section

variable {ρ ε ε' ω : Type*} [IsError ε] [Read ρ ε]

/-- Read to the end and forget what was read. -/
def discard (n : ℕ) (onRead : ε → ε') (r : ρ) : Except ε' Unit × ρ :=
  let (result, _, r') := eachPiece n onRead (fun _ _ => (.ok (), ())) () r
  (result, r')

theorem discard_drawn {n : ℕ} {onRead : ε → ε'} {r r' : ρ} {result : Except ε' Unit}
    (h : discard n onRead r = (result, r')) : ∃ bs, Drawn r bs r' := by
  unfold discard at h
  rcases he : eachPiece n onRead (fun _ _ => (.ok (), ())) () r with ⟨res, u, r₂⟩
  rw [he] at h
  cases h
  exact eachPiece_drawn he

theorem discard_ok {n : ℕ} {onRead : ε → ε'} {r r' : ρ}
    (h : discard n onRead r = (.ok (), r')) :
    ∃ bs r₁, Reads r bs r₁ ∧ read r₁ n = (.ok [], r') := by
  unfold discard at h
  rcases he : eachPiece n onRead (fun _ _ => (.ok (), ())) () r with ⟨result, u, r₂⟩
  rw [he] at h
  cases h
  obtain ⟨bs, r₁, hr, hread, -⟩ := eachPiece_ok (fun _ _ _ => True) (fun _ => trivial)
    (fun _ _ => trivial) he
  exact ⟨bs, r₁, hr, hread⟩

theorem discard_presents {n : ℕ} {onRead : ε → ε'} {r : ρ} {bs : Bytes} {e : Option ε}
    (hn : 0 < n) (hr : Presents r bs e) :
    ∃ r', discard n onRead r =
      (ended onRead e, r') ∧
        (e = none → Presents r' [] e) := by
  obtain ⟨c', -, r', he, hP⟩ := @eachPiece_presents _ _ _ _ _ _ n onRead
    (fun _ _ => (.ok (), ())) () r (fun _ _ => True) bs e hn hr
    (fun _ _ _ _ => ⟨(), rfl, trivial⟩) trivial
  exact ⟨r', by simp only [discard, he], hP⟩

/-- Give a piece to a writer, all of it. -/
def writePiece {ε₁ : Type*} [IsError ε₁] [Write ω ε₁] (onWrite : ε₁ → ε') (w : ω) (bs : Bytes) :
    Except ε' Unit × ω :=
  ((writeAll w bs).1.mapError onWrite, (writeAll w bs).2)

theorem writePiece_eq_ok {ε₁ : Type*} [IsError ε₁] [Write ω ε₁] {onWrite : ε₁ → ε'} {w w' : ω}
    {bs : Bytes} : writePiece onWrite w bs = (.ok (), w') ↔ writeAll w bs = (.ok (), w') := by
  unfold writePiece
  rcases writeAll w bs with ⟨_ | _, w₁⟩ <;> simp [Except.mapError]

/-- What was copied to a writer was read, and taken. -/
theorem eachPiece_writePiece_ok {ε₁ : Type*} [IsError ε₁] [Write ω ε₁] {n : ℕ} {onRead : ε → ε'}
    {onWrite : ε₁ → ε'} {w w' : ω} {r r' : ρ}
    (h : eachPiece n onRead (writePiece onWrite) w r = (.ok (), w', r')) :
    ∃ bs r₁, Reads r bs r₁ ∧ read r₁ n = (.ok [], r') ∧ Writes w bs w' :=
  eachPiece_ok Writes .refl
    (fun hR hf => hR.trans (writeAll_writes (writePiece_eq_ok.1 hf))) h

end

end ByteStream

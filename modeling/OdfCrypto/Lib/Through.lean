import OdfCrypto.Lib.Copy
import OdfCrypto.Lib.Readers

/-!
# Readers through a view

A reader that does more than another one, or checks more, does what the other does
wherever it succeeds: it is seen *through* a view of its states as states of the
other. Whatever is read of it is then read of the other.

* `Through.reads`, `Through.readFull`, `Through.eachPiece`: reads through a view;
* `Through.metered`: a view of the reader under a `Metered`.
-/

namespace ByteStream

section

variable {ρ σ ε ε₁ ε₂ γ : Type*} [IsError ε] [Read ρ ε] [Read σ ε]

/-- Where a read succeeds, or is interrupted, so is the read of what the reader is
    viewed as. -/
structure Through (view : σ → ρ) : Prop where
  ok : ∀ {s s' n bs}, read s n = (.ok bs, s') → read (view s) n = (.ok bs, view s')
  retry : ∀ {s s' n e}, read s n = (.error e, s') → interrupted e →
    read (view s) n = (.error e, view s')

namespace Through

omit [Read σ ε] in
theorem refl : Through (fun r : ρ => r) := ⟨fun h => h, fun h _ => h⟩

variable {view : σ → ρ} (hv : Through view) {s s' : σ} {n : ℕ} {bs : Bytes}

include hv

/-- Reads are reads of the view. -/
theorem reads (h : Reads s bs s') : Reads (view s) bs (view s') := by
  induction h with
  | refl s => exact .refl _
  | ok h _ ih => exact .ok (hv.ok h) ih
  | retry h hi _ ih => exact .retry (hv.retry h hi) hi ih

theorem readFull (h : readFull s n = (.ok bs, s')) :
    ByteStream.readFull (view s) n = (.ok bs, view s') := by
  -- The invariant: the loop over the view goes on from the view of where this loop is.
  refine Loop.run_induct (l := readFullLoop n) (s := ([], s))
    (fun x => ByteStream.readFull (view s) n = (readFullLoop n).run (x.1, view x.2))
    (P := fun b => ∀ bs s', b = (.ok bs, s') →
      ByteStream.readFull (view s) n = (.ok bs, view s')) rfl ?_ ?_ bs s' h
  · rintro ⟨acc, s₁⟩ x hI hs
    rw [hI]
    simp only [readFullLoop, readFullStep] at hs
    refine Loop.run_inr ?_
    simp only [readFullLoop, readFullStep]
    split at hs
    · next hlt =>
      rw [if_pos hlt]
      split at hs
      · cases hs
      · next hne hr =>
        cases hs
        rw [hv.ok hr]
        obtain ⟨b, piece, rfl⟩ := List.exists_cons_of_ne_nil hne
        rfl
      · next hr =>
        split at hs
        · next hi =>
          cases hs
          rw [hv.retry hr hi]
          simp only [hi, if_true]
        · cases hs
    · cases hs
  · rintro ⟨acc, s₁⟩ b hI hs bs s' rfl
    rw [hI]
    simp only [readFullLoop, readFullStep] at hs
    refine Loop.run_inl ?_
    simp only [readFullLoop, readFullStep]
    split at hs
    · next hlt =>
      rw [if_pos hlt]
      split at hs
      · next hr =>
        cases hs
        rw [hv.ok hr]
      · cases hs
      · split at hs <;> cases hs
    · next hle =>
      cases hs
      rw [if_neg hle]

/-- What is handed on piece by piece is handed on of the view, however it is taken,
    as long as it is taken. -/
theorem eachPiece {onRead : ε → ε₁} {onRead' : ε → ε₂} {f : γ → Bytes → Except ε₁ Unit × γ}
    {g : γ → Bytes → Except ε₂ Unit × γ}
    (hf : ∀ {c piece c'}, f c piece = (.ok (), c') → g c piece = (.ok (), c')) {c c' : γ}
    (h : eachPiece n onRead f c s = (.ok (), c', s')) :
    ByteStream.eachPiece n onRead' g c (view s) = (.ok (), c', view s') := by
  -- The invariant: the loop over the view goes on from the view of where this loop is.
  refine Loop.run_induct (l := eachPieceLoop n onRead f) (s := (c, s))
    (fun x => ByteStream.eachPiece n onRead' g c (view s) =
      (eachPieceLoop n onRead' g).run (x.1, view x.2))
    (P := fun b => ∀ c' s', b = (.ok (), c', s') →
      ByteStream.eachPiece n onRead' g c (view s) = (.ok (), c', view s')) rfl ?_ ?_ c' s' h
  · rintro ⟨c₁, s₁⟩ x hI hs
    rw [hI]
    simp only [eachPieceLoop, eachPieceStep] at hs
    refine Loop.run_inr ?_
    simp only [eachPieceLoop, eachPieceStep]
    split at hs
    · cases hs
    · next hne hr =>
      split at hs
      · next htaken =>
        cases hs
        rw [hv.ok hr]
        obtain ⟨b, piece, rfl⟩ := List.exists_cons_of_ne_nil hne
        simp only [hf htaken]
      · cases hs
    · cases hs
  · rintro ⟨c₁, s₁⟩ b hI hs c' s' rfl
    rw [hI]
    simp only [eachPieceLoop, eachPieceStep] at hs
    refine Loop.run_inl ?_
    simp only [eachPieceLoop, eachPieceStep]
    split at hs
    · next hr =>
      cases hs
      rw [hv.ok hr]
    · split at hs <;> cases hs
    · cases hs

theorem discard {onRead : ε → ε₁} {onRead' : ε → ε₂} (h : discard n onRead s = (.ok (), s')) :
    ByteStream.discard n onRead' (view s) = (.ok (), view s') := by
  unfold ByteStream.discard at h ⊢
  rcases he : ByteStream.eachPiece n onRead (fun _ _ => (.ok (), ())) () s with ⟨result, u, s₁⟩
  rw [he] at h
  cases h
  have hseen : ByteStream.eachPiece n onRead' (fun _ _ => (.ok (), ())) () (view s) =
      (.ok (), (), view s') := hv.eachPiece (fun _ => rfl) he
  rw [hseen]

/-- What is read through a counter is read of the view through it. -/
theorem metered : Through fun m : Metered σ => (⟨view m.inner, m.given⟩ : Metered ρ) where
  ok h := by
    obtain ⟨hr, hg⟩ := Metered.next_ok h
    show Metered.next _ _ = _
    rw [Metered.next, hv.ok hr]
    dsimp only
    rw [hg]
  retry h hi := by
    obtain ⟨hr, hg⟩ := Metered.next_error h
    show Metered.next _ _ = _
    rw [Metered.next, hv.retry hr hi]
    dsimp only
    rw [hg]

end Through

end

end ByteStream

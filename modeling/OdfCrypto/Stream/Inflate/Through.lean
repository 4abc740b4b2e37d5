import OdfCrypto.Lib.Through
import OdfCrypto.Stream.Inflate

/-!
# Inflating through a view

What is inflated over a reader is inflated as well over what that reader is viewed as,
and under a higher limit: wherever it succeeds, the bytes and the tap are the same.

* `InflateReader.through`: reads through a view of the source and a limit raised.
-/

namespace OdfCrypto

open ByteStream Text Deflate

namespace InflateReader

variable {f : Inflater} {ρ σ τ : Type} (view : σ → ρ) (cap : ℕ)

/-- The reader over what its source is viewed as, its limit raised to `cap`. -/
def seen (r : InflateReader f σ τ) : InflateReader f ρ τ :=
  { r with src := view r.src, limit := max r.limit cap }

variable {view cap} {r r₁ r' : InflateReader f σ τ} {n : ℕ} {bs : Bytes}

/-- A reader whose own limit is no higher than `cap`, seen with the limit raised. -/
theorem seen_withTap {src : σ} {size limit : ℕ} {tap : τ} (h : limit ≤ cap) :
    (withTap f src size limit tap).seen view cap = withTap f (view src) size cap tap := by
  rw [seen, withTap, withTap, Nat.max_eq_right h]

/-- A check that is passed is passed under a higher limit. -/
theorem check_seen {status : InflateStatus} (h : r.check status = (.ok (), r')) :
    (r.seen view cap).check status = (.ok (), r'.seen view cap) := by
  obtain ⟨hlimit, hexpected, hpass⟩ := check_ok.1 h
  refine check_ok.2 ⟨hlimit.trans (Nat.le_max_left _ _), hexpected, ?_⟩
  rcases hpass with hp | - | hmore
  · exact .done hp
  · exact .hasMoreOutput
  · exact .needsMoreInput hmore

variable [Write τ IoError]

theorem call_seen (h : r.call = (.ok (), r')) : (r.seen view cap).call = (.ok (), r'.seen view cap) := by
  rcases hd : f.decompress r.dec r.input r.window r.outPos (!r.srcDone)
    with ⟨status, used, made, dec⟩
  have hd' : f.decompress (r.seen view cap).dec (r.seen view cap).input (r.seen view cap).window
      (r.seen view cap).outPos (!(r.seen view cap).srcDone) = (status, used, made, dec) := hd
  have htap : (r.seen view cap).tapUsed used = r.tapUsed used := rfl
  unfold call at h ⊢
  rw [hd] at h
  rw [hd']
  dsimp only at h ⊢
  rw [htap]
  rcases ht : r.tapUsed used with ⟨e | u, tap⟩ <;> rw [ht] at h
  · cases h
  · exact check_seen h

variable [Read σ IoError] [Read ρ IoError] (hv : Through view)

include hv

omit [Write τ IoError] in
theorem fill_seen (h : r.fill = (.ok (), r₁)) :
    (r.seen view cap).fill = (.ok (), r₁.seen view cap) := by
  obtain ⟨rfl, hstay⟩ | ⟨bs, src, hin, hd, hread, rfl⟩ := fill_ok h
  · have hnot : ¬ ((r₁.seen view cap).input.isEmpty ∧ (r₁.seen view cap).srcDone = false) := by
      rintro ⟨hin, hd⟩
      rcases hstay with hne | hdone
      · exact hne (List.isEmpty_iff.1 hin)
      · exact Bool.false_ne_true (hd.symm.trans hdone)
    rw [fill, if_neg hnot]
  · have hread' : readFull (r.seen view cap).src chunk = (.ok bs, view src) := hv.readFull hread
    exact fill_of_readFull hin hd hread'

theorem step_seen (h : r.step = (.ok (), r')) : (r.seen view cap).step = (.ok (), r'.seen view cap) := by
  obtain ⟨r₁, hf, hc⟩ := step_ok h
  rw [step, fill_seen hv hf]
  exact call_seen hc

/-- What is inflated is inflated through a view of the source, under a limit that is no
    lower. -/
theorem through : Through (seen view cap : InflateReader f σ τ → InflateReader f ρ τ) where
  ok {r r' n bs} h := by
    -- The invariant: reading the reader as seen is reading from where the loop is, as
    -- seen.
    refine Loop.run_induct (l := readLoop n) (s := r)
      (fun r₁ => (r.seen view cap).next n = (r₁.seen view cap).next n)
      (P := fun b => ∀ bs r', b = (.ok bs, r') →
        (r.seen view cap).next n = (.ok bs, r'.seen view cap)) rfl ?_ ?_ bs r' h
    · intro r₁ r₂ hI hs
      obtain ⟨hp, hd, hstep⟩ := readStep_inr hs
      rw [hI]
      refine Loop.run_inr ?_
      have hp' : (r₁.seen view cap).pendingLen = 0 := hp
      have hd' : ¬ (r₁.seen view cap).done = true := by
        rw [Bool.not_eq_true]
        exact hd
      show readStep n (r₁.seen view cap) = _
      rw [readStep, if_pos hp', if_neg hd', step_seen hv hstep]
    · rintro r₁ b hI hs bs r' rfl
      rw [hI]
      refine Loop.run_inl ?_
      show readStep n (r₁.seen view cap) = _
      rcases readStep_inl_ok hs with ⟨hp, hd, rfl, rfl⟩ | ⟨hp, rfl, rfl⟩
      · have hp' : (r'.seen view cap).pendingLen = 0 := hp
        have hd' : (r'.seen view cap).done = true := hd
        rw [readStep, if_pos hp', if_pos hd']
      · have hp' : ¬ (r₁.seen view cap).pendingLen = 0 := hp
        rw [readStep, if_neg hp']
        rfl
  retry h hi := by rw [next_error h] at hi; cases hi

end InflateReader

end OdfCrypto

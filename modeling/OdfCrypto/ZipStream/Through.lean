import OdfCrypto.Lib.Through
import OdfCrypto.ZipStream

/-!
# Sources of deflated data through a view

A source that does more than another one, or checks more, is seen through a view of
its states, as its readers are: what a sink writes of the source, it writes of the view.

* `SourceThrough`: such a view;
* `ObliviousSink`: a sink that cannot tell the two apart where the first succeeds, with
  an instance for either writer.
-/

namespace OdfCrypto

open ByteStream Text Crc32

section

variable {δ δ' : Type} [DeflatedSource δ] [DeflatedSource δ']

/-- Where the source succeeds, so does what it is viewed as, and what is opened of it is
    read through a view too. -/
structure SourceThrough (view : δ → δ') where
  inner : DeflatedSource.Inner δ → DeflatedSource.Inner δ'
  through : Through inner
  opened : ∀ {src src' i}, openInflated src = (.ok i, src') →
    openInflated (view src) = (.ok (inner i), view src')
  closed : ∀ i src, view (closeInflated i src) = closeInflated (inner i) (view src)
  copied : ∀ {ω : Type} [Write ω IoError] {src src' : δ} {w w' : ω} {a : UInt32 × ℕ},
    copyDeflated src w = (.ok a, src', w') → copyDeflated (view src) w = (.ok a, view src', w')

end

/-- A sink that writes of a source what it writes of a view of it. -/
class ObliviousSink (S : Type) [ZipSink S] : Prop where
  deflatedFrom : ∀ {δ δ' : Type} [DeflatedSource δ] [DeflatedSource δ'] {view : δ → δ'},
    SourceThrough view → ∀ {z z' : S} {name : Str} {sizeHint n : ℕ} {src src' : δ},
      ZipSink.deflatedFrom z name sizeHint src = (.ok n, z', src') →
        ZipSink.deflatedFrom z name sizeHint (view src) = (.ok n, z', view src')

section

variable {δ δ' : Type} [DeflatedSource δ] [DeflatedSource δ'] {view : δ → δ'} {name : Str}
  {sizeHint n : ℕ} {src src' : δ}

namespace ZipStreamWriter

variable {P : Prims} {ω : Type} [Write ω IoError] {z z' : ZipStreamWriter P ω}

theorem deflatedFrom_through (hv : SourceThrough view)
    (h : z.deflatedFrom name sizeHint src = (.ok n, z', src')) :
    z.deflatedFrom name sizeHint (view src) = (.ok n, z', view src') := by
  rw [deflatedFrom] at h ⊢
  dsimp only at h ⊢
  rcases hput : z.put (localHeader (utf8Encode name) methodDeflated
    (nameFlags (utf8Encode name) ||| flagDescriptor) 0 0 0 (announces64 sizeHint)) with ⟨e | u, zip⟩ <;>
    rw [hput] at h
  · cases h
  dsimp only at h ⊢
  rcases hc : copyDeflated src (Counting.mk zip.out 0) with ⟨e | ⟨crc, uncompressed⟩, src₁, sink⟩ <;>
    rw [hc] at h
  · cases h
  rw [hv.copied hc]
  -- From here on, nothing looks at the source.
  dsimp only at h ⊢
  split at h
  · cases h
  · next hle =>
    rw [if_neg hle]
    split at h
    · cases h
    · next hfit =>
      rw [if_neg hfit]
      split at h
      · cases h
      · cases h
        rfl

instance : ObliviousSink (ZipStreamWriter P ω) where
  deflatedFrom hv _ _ _ _ _ _ _ h := deflatedFrom_through hv h

end ZipStreamWriter

namespace SeekableZipSink

variable {ζ : Type} [CrateWriter ζ] {z z' : SeekableZipSink ζ}

omit [DeflatedSource δ] [DeflatedSource δ'] in
theorem deflated_through {ρ σ : Type} [Read ρ IoError] [Read σ IoError] {view : σ → ρ}
    (hv : Through view) {data data' : σ} (h : z.deflated name sizeHint data = (.ok n, z', data')) :
    z.deflated name sizeHint (view data) = (.ok n, z', view data') := by
  unfold deflated copy at h ⊢
  rcases hstart : startFile z.zip name .deflated false with ⟨e | u, zip⟩ <;> rw [hstart] at h
  · cases h
  dsimp only at h ⊢
  rcases he : eachPiece chunk ZipStreamError.read (copyPiece sizeHint) { zip } data
    with ⟨e | u, c, data₁⟩ <;> rw [he] at h
  · cases h
  rw [hv.eachPiece (fun hf => hf) he]
  cases h
  rfl

instance : ObliviousSink (SeekableZipSink ζ) where
  deflatedFrom {_ _ _ _ view} hv {z z' name sizeHint n src src'} h := by
    change z.deflatedFrom name sizeHint src = _ at h
    change z.deflatedFrom name sizeHint (view src) = _
    unfold deflatedFrom at h ⊢
    rcases ho : openInflated src with ⟨e | inner, src₁⟩ <;> rw [ho] at h
    · cases h
    rw [hv.opened ho]
    dsimp only at h ⊢
    rcases hd : z.deflated name sizeHint inner with ⟨result, z₁, inner'⟩
    rw [hd] at h
    cases h
    rw [deflated_through hv.through hd]
    dsimp only
    rw [hv.closed]

end SeekableZipSink

end

end OdfCrypto

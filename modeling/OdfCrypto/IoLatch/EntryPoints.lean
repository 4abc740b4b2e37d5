import OdfCrypto.EncryptStream.MediaType
import OdfCrypto.Reencrypt

/-!
# What the entry points report

Every entry point that takes a reader asks its latch when the rest is done, and a kept
error is the result, whatever the layers over the reader have made of it.

* `Source.LeftBy`: the source as some layers over a caller's reader leave it;
* `reader_error_reported`: the first error of the reader is the result of every entry
  point that takes a reader.
-/

namespace OdfCrypto

open ByteStream Text

/-! ### The entry points -/

section

variable {ρ ω δ κ α : Type} [ReadSeek κ]

/-- A source as some layers leave it that ran over a caller's reader: with the latch that
    wrapped the reader, as it is when they are done. -/
def Source.LeftBy (source : Source ρ) (layers : Layers α) (caller : κ) : Prop :=
  source.latch = (layers.run (.new caller)).2.latch

/-- What is taken from the latch is the first error of the reader. -/
theorem Source.LeftBy.latched {source : Source ρ} {layers : Layers α} {caller : κ}
    (h : source.LeftBy layers caller) :
    source.latch.take = (layers.errors (.new caller)).head? := by
  rw [show source.latch = _ from h, Latch.take, layers.run_kept]
  rfl

variable [Read ρ IoError] [Read δ IoError] (P : Prims)

/-- Whatever the layers over a caller's reader make of its failures, and even if they go
    on as if there were none: where the reader has returned an error, its first one is
    the result of the call. -/
theorem reader_error_reported (ζ : Type) [CrateOver ζ ω] [Flush ζ IoError] [Write ω IoError]
    [Flush ω IoError] (layers : Layers α) (caller : κ) (source : Document ρ δ) (writer : ω)
    (hsource : source.LeftBy layers caller) {e : IoError} {es : List IoError}
    (herrors : layers.errors (.new caller) = e :: es) :
    classifyReader P.xmlReader source.toSource = .error (.io e) ∧
      ∀ password ≠ [],
        (∀ limits, (decryptWithLimitsTo P source.toSource writer password limits).1 =
          .error (.io e)) ∧
        (∀ random params, (encryptWithParamsTo P ζ source writer random password params).1 =
          .error (.io e)) ∧
        ∀ new ≠ [], ∀ random limits params,
          (reencryptTo P ζ source.toSource writer random password new limits params).1 =
            .error (.io e) := by
  have hlatched : source.latch.take = some e := by rw [hsource.latched, herrors]; rfl
  refine ⟨?_, fun password hp => ⟨fun limits => ?_, fun random params => ?_,
    fun new hn random limits params => ?_⟩⟩
  · rw [classifyReader, hlatched]
  · rw [decryptWithLimitsTo, if_neg (by simpa using hp), hlatched]
  · rw [encryptWithParamsTo, if_neg (by simpa using hp), hlatched]
  · rw [reencryptTo, if_neg (by simpa using hp), if_neg (by simpa using hn), hlatched]

end

/-- A reader that is there until it is cancelled, which is at once. -/
inductive Cancelled
  | yet
  | already

/-- The error of a cancelled read. -/
def cancelError : IoError := .simple .other (ascii "cancelled")

instance : ReadSeek Cancelled where
  read
    | .yet, _ => (.error cancelError, .already)
    | .already, _ => (.error .unexpectedEof, .already)
  seek c _ := (.ok 0, c)

/-- Layers that look for the end of an archive, whatever they are told, and then say
    that there is none. -/
def lookForEnd : Layers ZipError :=
  .seek (.end_ (-22)) fun _ => .read 22 fun _ => .read 22 fun _ =>
    .done (.invalidArchive (ascii "Could not find EOCD"))

/-- The source that they leave, of which nothing can be read. -/
def cancelledSource : Document (Pieces IoError) (Pieces IoError) where
  openArchive _ := .error (.invalidArchive (ascii "Could not find EOCD"))
  latch := ⟨some cancelError⟩
  seek _ := .ok 0
  reader := { rest := [], cuts := fun _ => 0 }

/-- A cancelled call is reported as cancelled by each entry point, and not as a file that is
    not an archive. -/
theorem reader_error_reported_sample :
    classifyLatched knownPrims.xmlReader (cancelledSource.openArchive 0) = .error .notZip ∧
      classifyReader knownPrims.xmlReader cancelledSource.toSource = .error (.io cancelError) ∧
      (decryptWithLimitsTo knownPrims cancelledSource.toSource (⟨[]⟩ : MemberStore) (ascii "pw") {}).1 =
        .error (.io cancelError) ∧
      (encryptWithParamsTo knownPrims MemberStore cancelledSource (⟨[]⟩ : MemberStore) zeroRandom
        (ascii "pw") .libreofficeDefault).1 = .error (.io cancelError) ∧
      (reencryptTo knownPrims MemberStore cancelledSource.toSource (⟨[]⟩ : MemberStore) zeroRandom
        (ascii "pw") (ascii "new") {} .libreofficeDefault).1 = .error (.io cancelError) := by
  have hsource : cancelledSource.LeftBy lookForEnd Cancelled.yet :=
    rfl
  have herrors : lookForEnd.errors (.new Cancelled.yet) = [cancelError, .unexpectedEof] := rfl
  obtain ⟨hclassify, hrest⟩ := reader_error_reported knownPrims MemberStore lookForEnd Cancelled.yet
    cancelledSource (⟨[]⟩ : MemberStore) hsource herrors
  obtain ⟨hdecrypt, hencrypt, hreencrypt⟩ := hrest (ascii "pw") (by decide)
  exact ⟨rfl, hclassify, hdecrypt {}, hencrypt zeroRandom .libreofficeDefault,
    hreencrypt (ascii "new") (by decide) zeroRandom {} .libreofficeDefault⟩

end OdfCrypto

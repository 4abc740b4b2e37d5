import OdfCrypto.Encrypt.ReadBack
import OdfCrypto.EncryptStream
import OdfCrypto.Package
import OdfCrypto.Reencrypt
import OdfCrypto.ZipStream.Layout

/-!
# The two copies of the media type

A new package has its media type twice: as the `mimetype` member, and as an
attribute of the manifest. `resolve_mimetype` refuses a member that an attribute
cannot hold, but not a media type that the classifier found.

* `validateMediaType_ok_iff`: what the check accepts;
* `resolveMimetype_agrees_iff`: when the two copies agree;
* `accepted_mediaType_iff`: so they do for what `encrypt` and `reencrypt` accept.
-/

namespace OdfCrypto

open ByteStream Text Crc32

/-- A character that an attribute holds as it is: one of XML 1.0, and not a blank
    that normalization would turn into a space. -/
def isMediaTypeChar (c : Char) : Bool := isXmlChar c ∧ isAttrStable c

/-- The `mimetype` member has what is read of the attribute. -/
structure MediaTypeAgrees (s : Str) : Prop where
  chars : ∀ c ∈ s, isMediaTypeChar c
  readBack : utf8Encode (normalizeAttrValue (escape s)) = utf8Encode s

theorem mediaTypeAgrees_iff {s : Str} : MediaTypeAgrees s ↔ ∀ c ∈ s, isMediaTypeChar c := by
  constructor
  · exact MediaTypeAgrees.chars
  · intro h
    have hs : ∀ c ∈ s, isAttrStable c := fun c hc => (decide_eq_true_iff.1 (h c hc)).2
    exact ⟨h, by rw [normalizeAttrValue_escape hs]⟩

/-- The check accepts text of such characters. -/
theorem validateMediaType_ok_iff {raw : Bytes} {s : Str} :
    validateMediaType raw = .ok s ↔ utf8Decode raw = some s ∧ ∀ c ∈ s, isMediaTypeChar c := by
  unfold validateMediaType
  split
  · next hd => simp [hd]
  · next text hd =>
    simp only [hd, Option.some.injEq]
    -- The two checks of the source in their order: characters XML has, then those a
    -- parser normalises.
    split
    · next c hx =>
      have hc : isXmlChar c = false := by simpa using List.find?_some hx
      refine iff_of_false (fun h => by cases h) ?_
      rintro ⟨rfl, h⟩
      simpa [isMediaTypeChar, hc] using h c (List.mem_of_find?_eq_some hx)
    · next hx =>
      split
      · next c hb =>
        have hc : isAttrStable c = false := by
          simpa [isAttrStable, Classical.or_iff_not_imp_left] using List.find?_some hb
        refine iff_of_false (fun h => by cases h) ?_
        rintro ⟨rfl, h⟩
        simpa [isMediaTypeChar, hc] using h c (List.mem_of_find?_eq_some hb)
      · next hb =>
        simp only [Except.ok.injEq, iff_self_and]
        rintro rfl c hc
        have h₁ := List.find?_eq_none.1 hx c hc
        have h₂ := List.find?_eq_none.1 hb c hc
        simp_all [isMediaTypeChar, isAttrStable]

section

variable {ρ δ : Type} [Read ρ IoError] [Read δ IoError] {P : Prims}

/-- The two copies agree if there is a `mimetype` member to read, or what the
    classifier found has only characters that an attribute holds. -/
theorem resolveMimetype_agrees_iff {archive : Archive ρ} {k : ℕ} {mediaType mimetype : Option Str}
    (h : resolveMimetype archive k mediaType = .ok mimetype) :
    (∀ s ∈ mimetype, MediaTypeAgrees s) ↔
      (archive.byName k (ascii "mimetype")).isOk ∨ ∀ s ∈ mediaType, ∀ c ∈ s, isMediaTypeChar c := by
  simp only [mediaTypeAgrees_iff]
  obtain ⟨member, hmember, h⟩ := Except.bind_eq_ok.1 h
  unfold readInputMimetypeMember at hmember
  rcases hopen : archive.byName k (ascii "mimetype") with e | file
  · -- no member is read, and what the classifier found goes unchecked
    rw [hopen] at hmember
    cases hmember
    cases h
    simp [Except.isOk, Except.toBool]
  · refine iff_of_true ?_ (.inl rfl)
    rw [hopen] at hmember
    dsimp only at hmember
    split at hmember
    · cases hmember
    · split at hmember
      · cases hmember
      · cases hmember
        obtain ⟨text, htext, h⟩ := Except.bind_eq_ok.1 h
        cases h
        rintro s ⟨⟩
        exact (validateMediaType_ok_iff.1 htext).2

/-! ### What is accepted -/

/-- A document that a call of `encrypt` or of `reencrypt` accepts. -/
inductive AcceptedDocument (P : Prims) (src : Document ρ δ) : Prop
  | encryptTo {ζ ω : Type} [CrateOver ζ ω] {writer out : ω} {random : Random} {password : Str}
    {params : Argon2Params}
    (h : encryptWithParamsTo P ζ src writer random password params = (.ok (), out))
  | encrypt {ζ : Type} [CrateOver ζ (Buffer IoError)] {random : Random} {password : Str}
    {params : Argon2Params} {ceiling : ℕ} {out : Bytes}
    (h : encryptSlice P ζ src random password params ceiling = .ok out)
  | reencryptTo {ζ ω : Type} [CrateOver ζ ω] [Flush ζ IoError] {writer : ω} {random : Random}
    {old new : Str} {limits : DecryptLimits} {params : Argon2Params} {outcome : DecryptOutcome}
    {s : Run ω}
    (h : reencryptTo P ζ src.toSource writer random old new limits params = (.ok outcome, s))

/-- What a run makes of its document: the class, the archive, and the media type of
    the new package. -/
structure ResolvedFrom (P : Prims) (source : Source ρ) (cls : Classification) (archive : Archive ρ)
    (mimetype : Option Str) : Prop where
  classified : classifyLatched P.xmlReader (source.openArchive 0) = .ok cls
  opened : source.openArchive 1 = .ok archive
  mimetype : resolveMimetype archive 0 cls.mediaType = .ok mimetype

theorem encryptRun_resolved {ζ ω : Type} [CrateOver ζ ω] {src : Document ρ δ} {random : Random}
    {password : Str} {params : Argon2Params} {ceiling : Option ℕ} {out out' : ω}
    (h : encryptRun P ζ src random password params ceiling out = (.ok (), out')) :
    ∃ cls archive mimetype, ResolvedFrom P src.toSource cls archive mimetype := by
  obtain ⟨cls, archive, mimetype, -, -, -, -, hcls, -, hopen, hmime, -⟩ := encryptRun_ok h
  exact ⟨cls, archive, mimetype, hcls, hopen, hmime⟩

theorem reencryptTo_resolved {ζ ω : Type} [CrateOver ζ ω] [Flush ζ IoError] {source : Source ρ}
    {writer : ω} {random : Random} {old new : Str} {limits : DecryptLimits} {params : Argon2Params}
    {outcome : DecryptOutcome} {s : Run ω}
    (h : reencryptTo P ζ source writer random old new limits params = (.ok outcome, s)) :
    ∃ cls archive mimetype, ResolvedFrom P source cls archive mimetype := by
  obtain ⟨cls, archive, mimetype, hcls, -, -, hopen, hmime, -⟩ := reencryptRun_ok (reencryptTo_ok h)
  exact ⟨cls, archive, mimetype, hcls, hopen, hmime⟩

/-- For a document that is accepted the two copies agree if and only if there is a
    `mimetype` member to read, or the classifier's media type is fit for an attribute. -/
theorem accepted_mediaType_iff {src : Document ρ δ} (h : AcceptedDocument P src) :
    ∃ cls archive mimetype, ResolvedFrom P src.toSource cls archive mimetype ∧
      ((∀ s ∈ mimetype, MediaTypeAgrees s) ↔
        (archive.byName 0 (ascii "mimetype")).isOk ∨
          ∀ s ∈ cls.mediaType, ∀ c ∈ s, isMediaTypeChar c) := by
  obtain ⟨cls, archive, mimetype, hr⟩ :
      ∃ cls archive mimetype, ResolvedFrom P src.toSource cls archive mimetype := by
    rcases h with h | h | h
    · exact encryptRun_resolved (encryptWithParamsTo_ok h)
    · exact encryptRun_resolved (encryptSlice_ok h).choose_spec
    · exact reencryptTo_resolved h
  exact ⟨cls, archive, mimetype, hr, resolveMimetype_agrees_iff hr.mimetype⟩

end

/-! ### A media type that does not agree -/

/-- A zip writer that keeps its members apart, the last one first. -/
structure MemberStore where
  members : List (Str × Bytes) := []
  deriving DecidableEq

namespace MemberStore

/-- Add to the member under way. -/
def push (z : MemberStore) (bs : Bytes) : MemberStore :=
  match z.members with
  | [] => z
  | (name, done) :: members => ⟨(name, done ++ bs) :: members⟩

instance : Write MemberStore IoError where
  write z bs := (.ok bs.length, z.push bs)
  patience _ := 0
  le_length h := by cases h; exact le_rfl
  patience_le h := by cases h; exact le_rfl
  patience_lt h := by cases h

instance : CrateOver MemberStore MemberStore where
  startFile z name _ _ := (.ok (), ⟨(name, []) :: z.members⟩)
  finishArchive z := (.ok (), z)
  wrap z := z
  unwrap z := z

instance : Flush MemberStore IoError where
  flush z := (.ok (), z)

end MemberStore

/-- The manifest of a package whose media type, of a raw value, only the manifest has. -/
def onlyInManifest (value : Bytes) : List Token := [
  .start (tag Uris.elementManifest [attr (ascii "xmlns:manifest") Uris.manifestNsOasis]),
  .empty (tag Uris.elementFileEntry [
    attr Uris.attrFullPath (ascii "/"),
    some (utf8Encode Uris.attrMediaType, value)]),
  .close (utf8Encode Uris.elementManifest)]

/-- The package of that manifest alone. -/
def manifestOnly (value : Bytes) : List StoredMember :=
  let manifest := (onlyInManifest value).flatMap writeEvent
  [{ file := {
      nameRaw := utf8Encode manifestPath
      crc32 := (({} : Hasher).update manifest).finalize
      size := manifest.length
      compressedSize := manifest.length }
     content := manifest
     raw := manifest }]

/-- The document of that package: its bytes are those of the archive. -/
def documentOf (value : Bytes) : Document (Pieces IoError) (Pieces IoError) :=
  let manifest := (onlyInManifest value).flatMap writeEvent
  let bytes := archiveBytes [⟨⟨utf8Encode manifestPath, methodStored,
    nameFlags (utf8Encode manifestPath), (({} : Hasher).update manifest).finalize, manifest.length,
    manifest.length, 0, false⟩, manifest⟩]
  { openArchive := fun _ => .ok (memoryArchive (fun _ => chunk) (manifestOnly value))
    seek := fun n => .ok (if n = 1 then bytes.length else 0)
    reader := { rest := bytes, cuts := fun _ => chunk } }

/-- Salt and IV, of zeros. -/
def zeroRandom : Random where
  salt := .ok (List.replicate 16 0)
  iv := .ok (List.replicate 12 0)

/-- The document is encrypted. -/
def encrypted (value : Bytes) : Except EncryptError Unit × MemberStore :=
  encryptWithParamsTo (primsReading (onlyInManifest value)) MemberStore (documentOf value) {} zeroRandom
    (ascii "pw") .libreofficeDefault

theorem accepted_documentOf {value : Bytes} (h : (encrypted value).1.toOption = some ()) :
    AcceptedDocument (primsReading (onlyInManifest value)) (documentOf value) := by
  unfold encrypted at h
  exact .encryptTo (Except.eq_of_toOption h)

/-- The media type that is found is the one of the manifest. -/
theorem mediaType_documentOf {value : Bytes} {cls : Classification} {s : Str}
    (h : classifyLatched (primsReading (onlyInManifest value)).xmlReader
      ((documentOf value).openArchive 0) = .ok cls)
    (hs : ((classifyLatched (primsReading (onlyInManifest value)).xmlReader
      ((documentOf value).openArchive 0)).toOption.bind (·.mediaType)) = some s) :
    cls.mediaType = some s := by
  rwa [h] at hs

/-- A line end, written as a character reference. -/
def lineEndValue : Bytes := bytesOf "a&#10;b"

/-- A document with such a media type is encrypted: its new `mimetype` member has a
    line end, where the attribute is read with a space. -/
theorem not_mediaTypeAgrees :
    AcceptedDocument (primsReading (onlyInManifest lineEndValue)) (documentOf lineEndValue) ∧
      ∃ cls archive s, ResolvedFrom (primsReading (onlyInManifest lineEndValue))
        (documentOf lineEndValue).toSource cls archive (some s) ∧
        (encrypted lineEndValue).2.members.lookup (ascii "mimetype") = some (utf8Encode s) ∧
        normalizeAttrValue (escape s) = ascii "a b" ∧ ¬ MediaTypeAgrees s := by
  have hacc := @accepted_documentOf lineEndValue (by decide +kernel)
  refine ⟨hacc, ?_⟩
  obtain ⟨cls, archive, mimetype, hr⟩ :
      ∃ cls archive mimetype, ResolvedFrom (primsReading (onlyInManifest lineEndValue))
        (documentOf lineEndValue).toSource cls archive mimetype := by
    obtain ⟨cls, archive, mimetype, hr, -⟩ := accepted_mediaType_iff hacc
    exact ⟨cls, archive, mimetype, hr⟩
  have hmt : cls.mediaType = some (ascii "a\nb") :=
    mediaType_documentOf hr.classified (by decide +kernel)
  obtain rfl : memoryArchive (fun _ => chunk) (manifestOnly lineEndValue) = archive :=
    Except.ok.inj hr.opened
  have hresolved := hr.mimetype
  rw [hmt] at hresolved
  obtain rfl : some (ascii "a\nb") = mimetype := Except.ok.inj hresolved
  refine ⟨cls, _, _, hr, by decide +kernel, by decide, fun h => ?_⟩
  exact absurd (h.chars '\n' (by decide)) (by decide)

/-- A document with a media type of letters. -/
theorem accepted_mediaType_iff_sample :
    ∃ cls archive mimetype, ResolvedFrom (primsReading (onlyInManifest (bytesOf "a/b")))
        (documentOf (bytesOf "a/b")).toSource cls archive mimetype ∧
      ∀ s ∈ mimetype, MediaTypeAgrees s := by
  have hacc := @accepted_documentOf (bytesOf "a/b") (by decide +kernel)
  obtain ⟨cls, archive, mimetype, hr, hiff⟩ := accepted_mediaType_iff hacc
  refine ⟨cls, archive, mimetype, hr, hiff.2 (.inr ?_)⟩
  rw [mediaType_documentOf hr.classified (s := ascii "a/b") (by decide +kernel)]
  rintro s ⟨⟩
  exact List.all_eq_true.1 (by decide +kernel : (ascii "a/b").all isMediaTypeChar = true)

end OdfCrypto

import OdfCrypto.Classify
import OdfCrypto.Package

/-!
# Classification and short reads

What `classify_reader` makes of a package, over a reader that hands over its
bytes by reads of any length. Everything that is read in full does not depend on
the lengths (`readPackage_holds`); the `mimetype` member is read by a single
read, so that the text compared with the manifest may be a part of it.

* `classifyReader_eq_classify_iff`: when the reader is classified as the slice is;
* `not_classifyReader_eq_classify`: a reader of one byte at a time that is refused.
-/

namespace OdfCrypto

open ByteStream Text

variable {ρ : Type} [Read ρ IoError] {a a' : Archive ρ} {p : Package}

theorem zipError_bind_gives {α : Type} {x y : Except ZipError ρ} {c : Except ZipError Content}
    (hx : Gives x c) (hy : Gives y c) (k : Except DetectError α) :
    (zipError x >>= fun _ => k) = (zipError y >>= fun _ => k) := by
  cases c with
  | error e => rw [hx, hy]
  | ok c =>
    obtain ⟨f, rfl, -⟩ := hx
    obtain ⟨g, rfl, -⟩ := hy
    rfl

theorem collectMembers_holds (h : a.Holds p) (h' : a'.Holds p) :
    collectMembers a = collectMembers a' := by
  have hc : collectMember a = collectMember a' := by
    funext members ⟨file, index⟩
    exact zipError_bind_gives (h.content index index) (h'.content index index) _
  rw [collectMembers, collectMembers, hc, h.directory, h'.directory]

/-- A member that is read in full reads the same through every reader. -/
theorem readToEnd_take_presents {file file' : ρ} {bs : Bytes} {e : Option IoError} (n : ℕ)
    (h : Presents file bs e) (h' : Presents file' bs e) :
    (readToEnd readProbe (Take.mk file n)).1 = (readToEnd readProbe (Take.mk file' n)).1 := by
  have ht := h.take n
  have ht' := h'.take n
  cases hfin : (if n ≤ bs.length then none else e) with
  | none =>
    rw [hfin] at ht ht'
    obtain ⟨_, hr, -⟩ := ht.readToEnd_ok (show 0 < readProbe by decide)
    obtain ⟨_, hr', -⟩ := ht'.readToEnd_ok (show 0 < readProbe by decide)
    rw [hr, hr']
  | some err =>
    rw [hfin] at ht ht'
    rw [ht.readToEnd_error (by decide), ht'.readToEnd_error (by decide)]

theorem readNamedMember_holds (h : a.Holds p) (h' : a'.Holds p) (members : List ZipMember)
    (want : Str) : readNamedMember a members want = readNamedMember a' members want := by
  unfold readNamedMember
  split
  · rfl
  · next member hm =>
    have hg := h.content a.len member.index
    have hg' := h'.content a'.len member.index
    cases hc : p.content member.index with
    | error e =>
      rw [hc] at hg hg'
      rw [show a.byIndex a.len member.index = .error e from hg,
        show a'.byIndex a'.len member.index = .error e from hg']
    | ok c =>
      rw [hc] at hg hg'
      obtain ⟨f, hf, hP⟩ := hg
      obtain ⟨g, hg, hP'⟩ := hg'
      rw [hf, hg]
      simp only [zipError, Except.mapError, bind, Except.bind]
      rw [readToEnd_take_presents _ hP hP']

/-- What is read before the `mimetype` member does not depend on the reads. -/
theorem readPackage_holds (xmlReader : XmlReader) (h : a.Holds p) (h' : a'.Holds p) :
    readPackage xmlReader a = readPackage xmlReader a' := by
  unfold readPackage
  rw [collectMembers_holds h h']
  congr 1
  funext members
  congr 1
  funext tree
  rw [readNamedMember_holds h h']

/-- The single read of the `mimetype` member gives a text over both readers, or
    the same result. -/
theorem readMimetype_holds (h : a.Holds p) (h' : a'.Holds p) (members : List ZipMember)
    (tree : FolderTree) : readMimetype a members tree = readMimetype a' members tree ∨
      ∃ s t, readMimetype a members tree = .ok (some s) ∧
        readMimetype a' members tree = .ok (some t) := by
  unfold readMimetype
  split
  · exact .inl rfl
  split
  · exact .inl rfl
  split
  · exact .inl rfl
  next member hm =>
  -- Both archives hold the same content, but a single read may give different prefixes
  -- of it.
  have hg := h.content (a.len + 1) member.index
  have hg' := h'.content (a'.len + 1) member.index
  cases hc : p.content member.index with
  | error e =>
    rw [hc] at hg hg'
    rw [show a.byIndex (a.len + 1) member.index = .error e from hg,
      show a'.byIndex (a'.len + 1) member.index = .error e from hg']
    exact .inl rfl
  | ok c =>
    obtain ⟨bs, e⟩ := c
    rw [hc] at hg hg'
    obtain ⟨f, hf, hP⟩ := hg
    obtain ⟨g, hg, hP'⟩ := hg'
    rw [hf, hg]
    have hpos : 0 < mimetypeCeiling := by decide
    simp only [zipError, Except.mapError, bind, Except.bind]
    cases bs with
    | cons b bs =>
      obtain ⟨s, _, _, hr, -⟩ := hP.read_cons hpos (List.cons_ne_nil b bs)
      obtain ⟨t, _, _, hr', -⟩ := hP'.read_cons hpos (List.cons_ne_nil b bs)
      rw [hr, hr']
      exact .inr ⟨_, _, rfl, rfl⟩
    | nil =>
      cases e with
      | none =>
        obtain ⟨_, hr, -⟩ := hP.read_nil hpos
        obtain ⟨_, hr', -⟩ := hP'.read_nil hpos
        rw [hr, hr']
        exact .inl rfl
      | some err =>
        obtain ⟨-, _, hr⟩ := hP.read_error hpos
        obtain ⟨-, _, hr'⟩ := hP'.read_error hpos
        rw [hr, hr']
        exact .inl rfl

/-- The end of a classification, after the `mimetype` member is compared. -/
def StageB.finish (st : StageB) (zipHasEncryptedPackage : Bool) (members : List ZipMember) :
    Except DetectError Classification := do
  let cls := st.classification zipHasEncryptedPackage
  checkStoredDataDescriptors members cls.encryptedEntries
  return cls

/-- The end of a classification, once the rows are resolved. -/
def verdict (st : StageB) (zipHasEncryptedPackage : Bool) (members : List ZipMember)
    (mimetype : Option Str) : Except DetectError Classification :=
  st.withMimetype zipHasEncryptedPackage mimetype >>= (·.finish zipHasEncryptedPackage members)

/-- The texts `s` and `t` of the `mimetype` member come to the same, once the
    rows are resolved: they are equal; or the root has a media type, which
    neither is and which is reported to conflict with the same text; or it has
    none and neither is a vendor's type, or a stored member is refused anyway. -/
def SameVerdict (st : StageB) (zipHasEncryptedPackage : Bool) (members : List ZipMember)
    (s t : Str) : Prop :=
  s = t ∨
    if nonempty st.tree.info.mediaType then
      st.xmlMt zipHasEncryptedPackage ≠ s ∧ st.xmlMt zipHasEncryptedPackage ≠ t ∧ elide s = elide t
    else
      (¬ ascii "application/vnd." <+: s ∧ ¬ ascii "application/vnd." <+: t) ∨
        members.any (·.isBareDescriptor st.encryptedEntries)

section

variable {st : StageB} {z : Bool} {members : List ZipMember} {x s t mt : Str}

theorem mimetypeConflict_inj :
    StageB.mimetypeConflict x s = StageB.mimetypeConflict x t ↔ elide s = elide t := by
  simp only [StageB.mimetypeConflict, DetectError.inconsistent.injEq, List.append_assoc,
    List.append_cancel_left_eq]
  exact List.append_left_inj _

theorem StageB.finish_eq : st.finish z members =
    if members.any (·.isBareDescriptor st.encryptedEntries) then
      .error (.zip (ascii "entry STORED with data descriptor but not encrypted"))
    else .ok (st.classification z) := by
  have he : (st.classification z).encryptedEntries = st.encryptedEntries := rfl
  simp only [StageB.finish, checkStoredDataDescriptors, he]
  split_ifs <;> rfl

theorem StageB.finish_ne_conflict : st.finish z members ≠ .error (mimetypeConflict x mt) := by
  rw [finish_eq, mimetypeConflict]
  split_ifs <;> exact fun h => by cases h

/-- The verdict where the root has a media type. -/
theorem verdict_of_media (h : nonempty st.tree.info.mediaType) :
    verdict st z members (some mt) =
      if st.xmlMt z ≠ mt then .error (StageB.mimetypeConflict (st.xmlMt z) mt)
      else st.finish z members := by
  simp only [verdict, StageB.withMimetype, h, not_true_eq_false, if_false]
  split_ifs <;> rfl

/-- The verdict where the root has no media type, and the member is a vendor's. -/
theorem verdict_of_vendor (h : ¬ nonempty st.tree.info.mediaType)
    (hv : ascii "application/vnd." <+: mt) :
    ∃ version, verdict st z members (some mt) =
      ({ st with tree := st.tree.setFolderMeta (ascii "/") (some mt) version } : StageB).finish
        z members := by
  refine ⟨if ¬ nonempty st.tree.info.version then st.oFirstVersion else st.tree.info.version, ?_⟩
  simp only [verdict, StageB.withMimetype, h, hv, if_true]
  rfl

/-- The verdict where neither has a media type. -/
theorem verdict_of_not_vendor (h : ¬ nonempty st.tree.info.mediaType)
    (hv : ¬ ascii "application/vnd." <+: mt) :
    verdict st z members (some mt) = st.finish z members := by
  simp only [verdict, StageB.withMimetype, h, hv, if_false]
  rfl

/-- The text of the `mimetype` member shows in the media type. -/
theorem setFolderMeta_mediaType (version : Option Str) :
    (({ st with tree := st.tree.setFolderMeta (ascii "/") (some mt) version } :
      StageB).classification z).mediaType = some mt := by
  simp [StageB.classification, FolderTree.setFolderMeta]

/-- Finishing in two states with the same rows comes to the same just when a
    stored member is refused, or the classifications are the same. -/
theorem finish_eq_finish {st' : StageB}
    (h : st.encryptedEntries = st'.encryptedEntries) :
    st.finish z members = st'.finish z members ↔
      members.any (·.isBareDescriptor st.encryptedEntries) ∨
        st.classification z = st'.classification z := by
  rw [StageB.finish_eq, StageB.finish_eq, ← h]
  split_ifs with hb
  · simp [hb]
  · simp only [Except.ok.injEq, hb, Bool.false_eq_true, false_or]

theorem nonempty_of_vendor (hv : ascii "application/vnd." <+: mt) : nonempty (some mt) := by
  obtain ⟨s, rfl⟩ := hv
  rfl

theorem verdict_eq_iff_of_media (h : nonempty st.tree.info.mediaType) :
    verdict st z members (some s) = verdict st z members (some t) ↔
      s = t ∨ st.xmlMt z ≠ s ∧ st.xmlMt z ≠ t ∧ elide s = elide t := by
  rw [verdict_of_media h, verdict_of_media h]
  by_cases hs : st.xmlMt z = s <;> by_cases ht : st.xmlMt z = t
  · simp [← hs, ← ht]
  · rw [if_neg (not_not.2 hs), if_pos ht]
    refine iff_of_false StageB.finish_ne_conflict ?_
    rintro (rfl | ⟨hs', -⟩)
    exacts [ht hs, hs' hs]
  · rw [if_pos hs, if_neg (not_not.2 ht)]
    refine iff_of_false StageB.finish_ne_conflict.symm ?_
    rintro (rfl | ⟨-, ht', -⟩)
    exacts [hs ht, ht' ht]
  · rw [if_pos hs, if_pos ht, Except.error.injEq, mimetypeConflict_inj]
    refine ⟨fun he => .inr ⟨hs, ht, he⟩, ?_⟩
    rintro (rfl | ⟨-, -, he⟩)
    exacts [rfl, he]

/-- A vendor's type against a text that is none, where the root has no media
    type: only a refused stored member hides the difference. -/
theorem verdict_vendor_eq_iff (h : ¬ nonempty st.tree.info.mediaType)
    (hs : ascii "application/vnd." <+: s) (ht : ¬ ascii "application/vnd." <+: t) :
    verdict st z members (some s) = verdict st z members (some t) ↔
      members.any (·.isBareDescriptor st.encryptedEntries) := by
  obtain ⟨version, hv⟩ := @verdict_of_vendor st z members s h hs
  rw [hv, verdict_of_not_vendor h ht]
  refine Iff.trans (finish_eq_finish (by rfl)) (or_iff_left ?_)
  intro hc
  have hm := congrArg Classification.mediaType hc
  rw [setFolderMeta_mediaType] at hm
  exact h (show nonempty (st.classification z).mediaType from hm ▸ nonempty_of_vendor hs)

theorem verdict_eq_iff_of_no_media (h : ¬ nonempty st.tree.info.mediaType) :
    verdict st z members (some s) = verdict st z members (some t) ↔
      s = t ∨ (¬ ascii "application/vnd." <+: s ∧ ¬ ascii "application/vnd." <+: t) ∨
        members.any (·.isBareDescriptor st.encryptedEntries) := by
  -- Two vendor types are compared as they are, and anything else counts as no type.
  by_cases hs : ascii "application/vnd." <+: s <;> by_cases ht : ascii "application/vnd." <+: t
  · obtain ⟨v, hv⟩ := @verdict_of_vendor st z members s h hs
    obtain ⟨w, hw⟩ := @verdict_of_vendor st z members t h ht
    constructor
    · rw [hv, hw]
      refine fun he => ((finish_eq_finish (by rfl)).1 he).elim (fun hb => ?_) fun hc => ?_
      · exact .inr (.inr hb)
      · have hm := congrArg Classification.mediaType hc
        rw [setFolderMeta_mediaType, setFolderMeta_mediaType] at hm
        exact .inl (Option.some.inj hm)
    · rintro (rfl | ⟨hs', -⟩ | hb)
      · rfl
      · exact absurd hs hs'
      · rw [hv, hw]
        exact (finish_eq_finish (by rfl)).2 (.inl hb)
  · rw [verdict_vendor_eq_iff h hs ht]
    refine ⟨fun hb => .inr (.inr hb), ?_⟩
    rintro (rfl | ⟨hs', -⟩ | hb)
    exacts [absurd hs ht, absurd hs hs', hb]
  · rw [eq_comm, verdict_vendor_eq_iff h ht hs]
    refine ⟨fun hb => .inr (.inr hb), ?_⟩
    rintro (rfl | ⟨-, ht'⟩ | hb)
    exacts [absurd ht hs, absurd ht ht', hb]
  · rw [verdict_of_not_vendor h hs, verdict_of_not_vendor h ht]
    exact iff_of_true rfl (.inr (.inl ⟨hs, ht⟩))

/-- Two texts of the `mimetype` member have the same verdict just when they come
    to the same. -/
theorem verdict_eq_iff :
    verdict st z members (some s) = verdict st z members (some t) ↔
      SameVerdict st z members s t := by
  by_cases h : nonempty st.tree.info.mediaType
  · rw [verdict_eq_iff_of_media h, SameVerdict, if_pos h]
  · rw [verdict_eq_iff_of_no_media h, SameVerdict, if_neg h]

/-- A classification is the verdict on the rows, with the text that was read. -/
theorem stageB_bind_check (bags : List PropertyBag) (tree : FolderTree) (mimetype : Option Str) :
    (do let cls ← stageB bags tree z mimetype
        checkStoredDataDescriptors members cls.encryptedEntries
        return cls) =
      bags.foldlM StageB.row { tree } >>= (verdict · z members mimetype) := by
  simp only [stageB, bind_assoc, pure_bind]
  rfl

end

/-- The text that a single read gives of the `mimetype` member comes to the same
    in both archives, where it is read and the rows are resolved. -/
def SplitHarmless (xmlReader : XmlReader) (a a' : Archive ρ) : Prop :=
  ∀ members tree bags st s t,
    readPackage xmlReader a' = .ok (members, tree, bags) →
    bags.foldlM StageB.row { tree } = .ok st →
    readMimetype a members tree = .ok (some s) →
    readMimetype a' members tree = .ok (some t) →
    SameVerdict st (tree.rootHasEntry (ascii "encrypted-package")) members s t

theorem classifyArchive_eq_iff (xmlReader : XmlReader) (h : a.Holds p) (h' : a'.Holds p) :
    classifyArchive xmlReader a = classifyArchive xmlReader a' ↔ SplitHarmless xmlReader a a' := by
  simp only [classifyArchive, stageB_bind_check]
  -- Up to the read of the media type the two runs are the same; after it, only the
  -- verdict looks at it.
  rw [readPackage_holds xmlReader h h']
  cases hp : readPackage xmlReader a' with
  | error e =>
    refine iff_of_true rfl ?_
    intro members tree bags st s t hp'
    rw [hp] at hp'
    cases hp'
  | ok read =>
    obtain ⟨members, tree, bags⟩ := read
    simp only [bind, Except.bind]
    obtain heq | ⟨s, t, hs, ht⟩ := readMimetype_holds h h' members tree
    · rw [heq]
      refine iff_of_true rfl ?_
      intro members₁ tree₁ bags₁ st s t hp' _ hs ht
      rw [hp] at hp'
      cases hp'
      exact .inl (by simpa [heq, ht] using hs.symm)
    · rw [hs, ht]
      cases hst : bags.foldlM StageB.row { tree } with
      | error e =>
        refine iff_of_true rfl ?_
        intro members₁ tree₁ bags₁ st s t hp' hst'
        rw [hp] at hp'
        cases hp'
        rw [hst] at hst'
        cases hst'
      | ok st =>
        refine verdict_eq_iff.trans ⟨fun hv => ?_, fun hh => hh _ _ _ _ _ _ hp hst hs ht⟩
        intro members₁ tree₁ bags₁ st₁ s₁ t₁ hp' hst' hs' ht'
        rw [hp] at hp'
        cases hp'
        rw [hst] at hst'
        cases hst'
        rw [hs] at hs'
        rw [ht] at ht'
        cases hs'
        cases ht'
        exact hv

/-- Classify a slice. -/
def classify (xmlReader : XmlReader) (zip : Reader → Source ρ) (bytes : Bytes) :
    Except DetectError Classification :=
  classifyReader xmlReader (zip (.cursor bytes))

/-- A reader is classified as the slice of its bytes is, just when the text that
    a single read gives of the `mimetype` member comes to the same over both. -/
theorem classifyReader_eq_classify_iff (xmlReader : XmlReader) {zip : Reader → Source ρ}
    {stored : Bytes → Except ZipError Package} (hz : Faithful zip stored) (r : Reader) :
    classifyReader xmlReader (zip r) = classify xmlReader zip r.bytes ↔
      ∀ a a', (zip r).openArchive 0 = .ok a → (zip (.cursor r.bytes)).openArchive 0 = .ok a' →
        SplitHarmless xmlReader a a' := by
  have hr := hz.finds r 0
  have hc := hz.finds (.cursor r.bytes) 0
  rw [show (Reader.cursor r.bytes).bytes = r.bytes from rfl] at hc
  simp only [classify, classifyReader, hz.latched]
  cases hp : stored r.bytes with
  | error e =>
    rw [hp] at hr hc
    rw [show (zip r).openArchive 0 = .error e from hr,
      show (zip (.cursor r.bytes)).openArchive 0 = .error e from hc]
    exact iff_of_true rfl fun a a' h => by cases h
  | ok p =>
    rw [hp] at hr hc
    obtain ⟨a, ha, hh⟩ := hr
    obtain ⟨a', ha', hh'⟩ := hc
    rw [ha, ha']
    refine (classifyArchive_eq_iff xmlReader hh hh').trans ⟨fun h => ?_, fun h => h a a' rfl rfl⟩
    rintro _ _ ⟨⟩ ⟨⟩
    exact h

/-! ### A reader of one byte at a time -/

def sampleMimetype : Bytes := bytesOf "application/vnd.oasis.opendocument.text"

def sampleManifest : Bytes :=
  bytesOf "<manifest:manifest xmlns:manifest=\"urn:oasis:names:tc:opendocument:xmlns:manifest:1.0\">" ++
  bytesOf "<manifest:file-entry manifest:full-path=\"/\" " ++
  bytesOf "manifest:media-type=\"application/vnd.oasis.opendocument.text\"/>" ++
  bytesOf "</manifest:manifest>"

/-- A zip archive of two stored members, `mimetype` and the manifest. -/
def samplePackage : Bytes :=
  [80, 75, 3, 4, 10, 0, 0, 0, 0, 0, 0, 0, 33, 0, 94, 198, 50, 12, 39, 0, 0, 0, 39, 0, 0, 0, 8, 0,
    0, 0] ++ bytesOf "mimetype" ++ sampleMimetype ++
  [80, 75, 3, 4, 10, 0, 0, 0, 0, 0, 0, 0, 33, 0, 236, 46, 134, 73, 214, 0, 0, 0, 214, 0, 0, 0, 21,
    0, 0, 0] ++ bytesOf "META-INF/manifest.xml" ++ sampleManifest ++
  [80, 75, 1, 2, 10, 3, 10, 0, 0, 0, 0, 0, 0, 0, 33, 0, 94, 198, 50, 12, 39, 0, 0, 0, 39, 0, 0, 0,
    8, 0, 0, 0, 0, 0, 0, 0, 0, 0, 0, 0, 164, 129, 0, 0, 0, 0] ++ bytesOf "mimetype" ++
  [80, 75, 1, 2, 10, 3, 10, 0, 0, 0, 0, 0, 0, 0, 33, 0, 236, 46, 134, 73, 214, 0, 0, 0, 214, 0, 0,
    0, 21, 0, 0, 0, 0, 0, 0, 0, 0, 0, 0, 0, 164, 129, 77, 0, 0, 0] ++
  bytesOf "META-INF/manifest.xml" ++
  [80, 75, 5, 6, 0, 0, 0, 0, 2, 0, 2, 0, 121, 0, 0, 0, 86, 1, 0, 0, 0, 0]

/-- What the zip crate finds in `samplePackage`. -/
def sampleMembers (bytes : Bytes) : Except ZipError (List StoredMember) :=
  if bytes = samplePackage then
    .ok [
      { file := { nameRaw := bytesOf "mimetype", crc32 := 0x0C32C65E, size := 39,
                  compressedSize := 39, externalAttributes := 0o100644 * 2 ^ 16 }
        content := sampleMimetype, raw := sampleMimetype },
      { file := { nameRaw := bytesOf "META-INF/manifest.xml", crc32 := 0x49862EEC,
                  size := 214, compressedSize := 214, externalAttributes := 0o100644 * 2 ^ 16 }
        content := sampleManifest, raw := sampleManifest }]
  else .error (.invalidArchive (ascii "Could not find EOCD"))

/-- What the XML reader finds in `sampleManifest`. -/
def sampleXml (xml : Bytes) : List Token × Option Str :=
  if xml = sampleManifest then
    ([.start ⟨bytesOf "manifest:manifest",
        [some (bytesOf "xmlns:manifest", utf8Encode Uris.manifestNsOasis)]⟩,
      .empty ⟨bytesOf "manifest:file-entry",
        [some (bytesOf "manifest:full-path", bytesOf "/"),
          some (bytesOf "manifest:media-type", sampleMimetype)]⟩,
      .close (bytesOf "manifest:manifest")], none)
  else ([], some (ascii "unknown document"))

/-- A reader of one byte at a time is refused, for a `mimetype` that conflicts
    with the manifest, and the slice of its bytes is not. -/
theorem classifyReader_sample :
    classifyReader sampleXml (memoryZip sampleMembers ⟨samplePackage, fun _ => 0⟩) ≠
      classify sampleXml (memoryZip sampleMembers) samplePackage := by
  decide +kernel

/-- How a reader hands over its bytes shows in its classification. -/
theorem not_classifyReader_eq_classify :
    ¬ ∀ (xmlReader : XmlReader) (zip : Reader → Source (Pieces IoError))
      (stored : Bytes → Except ZipError Package), Faithful zip stored →
      ∀ r, classifyReader xmlReader (zip r) = classify xmlReader zip r.bytes :=
  fun h => classifyReader_sample (h sampleXml _ _ (memoryZip_faithful sampleMembers) ⟨_, _⟩)

/-- In the sample, it is the text that the single read gives. -/
theorem not_splitHarmless_sample :
    ¬ ∀ a a', (memoryZip sampleMembers ⟨samplePackage, fun _ => 0⟩).openArchive 0 = .ok a →
      (memoryZip sampleMembers (.cursor samplePackage)).openArchive 0 = .ok a' →
      SplitHarmless sampleXml a a' :=
  fun h => classifyReader_sample ((classifyReader_eq_classify_iff sampleXml
    (memoryZip_faithful sampleMembers) ⟨samplePackage, fun _ => 0⟩).2 h)

end OdfCrypto

import OdfCrypto.Classify.Lookup
import OdfCrypto.DecryptRun.Bound
import OdfCrypto.EncryptStream.RoundTrip

/-!
# A new package, read back

What the zip crate's writer is given of a new package, and what becomes of it where
its reader finds the members again (`Archive.HasMembers`): classification reports
the row that the package was written with, and decryption opens the member that was
sealed, whatever comes after the deflated stream in it.

* `Encrypting.members_given`: the members of a new package;
* `classifyArchive_written`: the class of a new package.
-/

namespace OdfCrypto

open ByteStream Text Deflate

/-! ### Attributes -/

/-- What is read of an attribute that was written with some value. -/
def attrRead (s : Str) : Str := normalizeAttrValue (escape s)

/-- What is written of a character starts with a line end only if it is one. -/
theorem escapeChar_head (c : Char) : ∃ d t, escapeChar c = d :: t ∧ (d = '\n' → c = '\n') := by
  have hamp : '&' = '\n' → c = '\n' := fun h => absurd h (by decide)
  unfold escapeChar
  split_ifs
  · exact ⟨'&', _, rfl, hamp⟩
  · exact ⟨'&', _, rfl, hamp⟩
  · exact ⟨'&', _, rfl, hamp⟩
  · exact ⟨'&', _, rfl, hamp⟩
  · exact ⟨'&', _, rfl, hamp⟩
  · exact ⟨c, [], rfl, id⟩

/-- A carriage return is read as a space, with the line end after it if there is one. -/
theorem normalizeFrom_return (s : Str) :
    ∃ t, t.length ≤ s.length ∧ normalizeFrom none ('\r' :: escape s) = ' ' :: attrRead t := by
  rcases s with - | ⟨c, s⟩
  · exact ⟨[], le_rfl, rfl⟩
  by_cases hc : c = '\n'
  · subst hc
    exact ⟨s, Nat.le_succ _, rfl⟩
  · refine ⟨c :: s, le_rfl, ?_⟩
    obtain ⟨d, t, hd, hn⟩ := escapeChar_head c
    have hcons : escape (c :: s) = d :: (t ++ escape s) := by
      rw [escape, List.flatMap_cons, hd]
      rfl
    rw [hcons, normalizeFrom]
    · rw [if_neg (by decide), if_pos (by decide), attrRead, hcons]
      rfl
    · intro u _ hu
      exact hc (hn (List.cons.inj hu).1)

/-- No tab and no line end is read of an attribute. -/
theorem isAttrStable_attrRead (s : Str) : ∀ c ∈ attrRead s, isAttrStable c := by
  induction hl : s.length using Nat.strong_induction_on generalizing s with
  | _ l ih =>
    have hcons : ∀ (d : Char) (t : Str), isAttrStable d → t.length < l →
        ∀ c ∈ d :: attrRead t, isAttrStable c := by
      intro d t hd ht c hc
      obtain rfl | hc := List.mem_cons.1 hc
      · exact hd
      · exact ih t.length ht t rfl c hc
    rcases s with - | ⟨c, s⟩
    · nofun
    rw [List.length_cons] at hl
    by_cases hc : isAttrStable c = true
    · rw [attrRead, normalizeAttrValue, escape, List.flatMap_cons, normalizeFrom_escapeChar hc]
      exact hcons c s hc (by omega)
    -- a blank becomes a space, and a line end of two characters one space
    have hblank : c = '\t' ∨ c = '\n' ∨ c = '\r' := by
      simpa [isAttrStable, Classical.or_iff_not_imp_left] using hc
    rcases hblank with rfl | rfl | rfl
    · exact hcons ' ' s rfl (by omega)
    · exact hcons ' ' s rfl (by omega)
    · obtain ⟨t, ht, hn⟩ := normalizeFrom_return s
      have hread : attrRead ('\r' :: s) = ' ' :: attrRead t := hn
      rw [hread]
      exact hcons ' ' t rfl (by omega)

/-- What is read of an attribute is read again as it is. -/
theorem attrRead_attrRead (s : Str) : attrRead (attrRead s) = attrRead s :=
  normalizeAttrValue_escape (isAttrStable_attrRead s)

/-- The manifest is imported as if its media type were the one that is read of it. -/
theorem foldlM_attrRead (size : ℤ) (iv salt : Bytes) (mediaType : Option Str) (params : Argon2Params)
    (im : Import) : (manifestEvents size iv salt mediaType params).foldlM importToken im =
      (manifestEvents size iv salt (mediaType.map attrRead) params).foldlM importToken im := by
  rcases mediaType with - | mt
  · rfl
  have htag : readAttrs (tag Uris.elementFileEntry
        ((fileEntryAttrs size (some mt)).map fun p => attr p.1 p.2)) =
      readAttrs (tag Uris.elementFileEntry
        ((fileEntryAttrs size (some (attrRead mt))).map fun p => attr p.1 p.2)) := by
    have hread : normalizeAttrValue (escape (attrRead mt)) = normalizeAttrValue (escape mt) :=
      attrRead_attrRead mt
    simp [readAttrs, tag, fileEntryAttrs, attr, hread]
  have htoken : ∀ im : Import,
      importToken im (.start (tag Uris.elementFileEntry
        ((fileEntryAttrs size (some mt)).map fun p => attr p.1 p.2))) =
      importToken im (.start (tag Uris.elementFileEntry
        ((fileEntryAttrs size (some (attrRead mt))).map fun p => attr p.1 p.2))) := by
    intro im
    rw [importToken, importToken, htag]
    rfl
  rw [manifestEvents_eq, manifestEvents_eq]
  simp only [List.foldlM_cons, Option.map_some, htoken]

/-- What the manifest says, whatever the media type. -/
theorem parseManifest_written {xmlReader : XmlReader} {n : ℕ} {iv salt : Bytes}
    {mediaType : Option Str} {params : Argon2Params} (hn : n < 2 ^ 63)
    (hxml : xmlReader (buildManifest n iv salt mediaType params) =
      (manifestEvents n iv salt mediaType params, none)) :
    parseManifest xmlReader (buildManifest n iv salt mediaType params) =
      [writtenBag n iv salt (mediaType.map attrRead) params] := by
  have hstable : ∀ mt ∈ mediaType.map attrRead, ∀ c ∈ mt, isAttrStable c := by
    intro mt hmt
    obtain ⟨s, -, rfl⟩ := Option.map_eq_some_iff.1 hmt
    exact isAttrStable_attrRead s
  have hsize : (n : ℤ) ≤ 2 ^ 63 - 1 := by omega
  have hfold : (manifestEvents n iv salt (mediaType.map attrRead) params).foldlM importToken {} = _ :=
    Import.foldlM_written (Int.natCast_nonneg n) hsize hstable
  rw [parseManifest, hxml]
  dsimp only
  rw [foldlM_attrRead, hfold]
  rfl

/-! ### What is written -/

/-- The members of a new package, as the crate's writer is given them. -/
def writtenMembers (mimetype : Option Str) (body manifest : Bytes) : List CrateMember := [
  ⟨utf8Encode (ascii "mimetype"), .stored, (mimetype.map utf8Encode).getD []⟩,
  ⟨utf8Encode (ascii "encrypted-package"), .stored, body⟩,
  ⟨utf8Encode manifestPath, .deflated, manifest⟩]

section

variable {δ ζ : Type} [Read δ IoError] [CrateWriter ζ] {P : Prims} {F : Format} {src : δ}
  {data key iv salt : Bytes} {size : ℕ} {mimetype : Option Str} {params : Argon2Params}
  {given : ζ → List CrateMember}

theorem Encrypting.startMember_ok {name : Str} {method : CompressionMethod} {large : Bool} {zip zip' : ζ}
    (h : Encrypting.startMember name method large zip = (.ok (), zip')) :
    startFile zip name method large = (.ok (), zip') := by
  unfold Encrypting.startMember at h
  rcases hs : startFile zip name method large with ⟨e | u, z⟩ <;> rw [hs] at h <;> cases h
  rfl

/-- What is written after a member has started is its data. -/
theorem CrateKeeps.member (hk : CrateKeeps given) {name : Str} {method : CompressionMethod}
    {large : Bool} {zip zip₁ zip₂ : ζ} {bs : Bytes}
    (hs : startFile zip name method large = (.ok (), zip₁)) (hw : Writes zip₁ bs zip₂) :
    given zip₂ = given zip ++ [⟨utf8Encode name, method, bs⟩] :=
  hk.writes hw (hk.started hs)

/-- A package that was written has been given to the crate's writer, member by member,
    and was then ended. -/
theorem Encrypting.members_given (hk : CrateKeeps given) (hC : P.compressor.Makes F)
    (hsrc : Presents src data none) {zip zip' : ζ}
    (h : members P src size mimetype key iv salt params zip = (.ok (), zip')) :
    size = data.length ∧ GcmLens key iv ∧ ∃ (code : Bytes) (zip₁ : ζ), F.Complete code data ∧
      given zip₁ = given zip ++ writtenMembers mimetype (sealedBody P key iv code)
        (buildManifest size iv salt mimetype params) ∧
      finishArchive zip₁ = (.ok (), zip') := by
  obtain ⟨_, z₀, hstart₀, h⟩ := Prog.bind_eq_ok.1 h
  obtain ⟨_, z₁, hwrite₀, h⟩ := Prog.bind_eq_ok.1 h
  obtain ⟨_, z₂, hstart₁, h⟩ := Prog.bind_eq_ok.1 h
  obtain ⟨_, z₃, hwrite₁, h⟩ := Prog.bind_eq_ok.1 h
  rcases hnew : GcmStream.new P key iv with - | gcm <;> rw [hnew] at h
  · cases h
  obtain ⟨hiv, hkey, rfl⟩ := GcmStream.new_eq_some.1 hnew
  obtain ⟨_, z₄, hpayload, h⟩ := Prog.bind_eq_ok.1 h
  obtain ⟨_, z₅, hstart₂, h⟩ := Prog.bind_eq_ok.1 h
  obtain ⟨_, z₆, hwrite₂, h⟩ := Prog.bind_eq_ok.1 h
  obtain ⟨hsize, code, hcode, hw⟩ := payload_ok hC hsrc hpayload
  -- The three members in the order they are written.
  have hgiven₀ := hk.member (startMember_ok hstart₀) (writeAll_writes (writePiece_eq_ok.1 hwrite₀))
  have hgiven₁ := hk.member (startMember_ok hstart₁)
    ((writeAll_writes (writePiece_eq_ok.1 hwrite₁)).trans hw)
  have hgiven₂ := hk.member (startMember_ok hstart₂) (writeAll_writes (writePiece_eq_ok.1 hwrite₂))
  refine ⟨hsize, ⟨hiv, hkey⟩, code, z₆, hcode, ?_, ?_⟩
  · rw [hgiven₂, hgiven₁, hgiven₀, List.append_assoc, List.append_assoc]
    rfl
  · unfold finish at h
    rcases hf : finishArchive z₆ with ⟨e | u, z⟩ <;> rw [hf] at h <;> cases h
    rfl

end

/-! ### What is found again -/

/-- An entry of a directory, as it is for a member that was given: no folder, and
    without a data descriptor, which only a writer that cannot seek needs. -/
structure EntryOf (file : FileData) (m : CrateMember) : Prop where
  name : file.nameRaw = m.name
  size : file.size = m.data.length
  notFolder : file.isDosFolder = false
  noDescriptor : file.usingDataDescriptor = false

section

variable {ρ ω : Type} [Read ρ IoError]

/-- An archive has the members that were given, in order, and presents their data. -/
structure Archive.HasMembers (archive : Archive ρ) (members : List CrateMember) : Prop where
  directory : List.Forall₂ EntryOf archive.directory members
  opens : ∀ {i m}, members[i]? = some m → ∀ k, ∃ file, archive.byIndex k i = .ok file ∧
    Presents file m.data none

/-- What is relied on of the zip crate: of an archive that its writer has ended, its
    reader finds the members that the writer was given. -/
structure CrateReadsBack {ζ : Type} [CrateOver ζ ω] (given : ζ → List CrateMember)
    (reads : ω → Source ρ) : Prop where
  latched : ∀ out, (reads out).latch.take = none
  opens : ∀ {z z' : ζ}, finishArchive z = (.ok (), z') → ∀ n, ∃ archive,
    (reads (CrateOver.unwrap z')).openArchive n = .ok archive ∧ archive.HasMembers (given z)

namespace Archive.HasMembers

variable {archive : Archive ρ} {members : List CrateMember} {i : ℕ} {m : CrateMember}

theorem entry (h : archive.HasMembers members) (hm : members[i]? = some m) :
    ∃ file, archive.directory[i]? = some file ∧ EntryOf file m := by
  obtain ⟨hlen, hall⟩ := List.forall₂_iff_get.1 h.directory
  obtain ⟨hi, rfl⟩ := List.getElem?_eq_some_iff.1 hm
  have hi' : i < archive.directory.length := hlen ▸ hi
  exact ⟨_, List.getElem?_eq_getElem hi', hall i hi' hi⟩

/-- A member that was given is a member of the archive. -/
theorem memberHolds (h : archive.HasMembers members) (hm : members[i]? = some m) :
    MemberHolds archive i m.data := by
  obtain ⟨file, hfile, hentry⟩ := h.entry hm
  refine ⟨?_, h.opens hm⟩
  rw [Archive.file, List.getD_eq_getElem?_getD, hfile]
  exact hentry.size

end Archive.HasMembers

end

/-! ### The class of a new package -/

section

variable {ρ : Type} {archive : Archive ρ} {members : List ZipMember} {entry : FileData × ℕ}

/-- An entry is collected under a valid name that no other has. -/
theorem collectMember_of {r : ρ} (ho : archive.byIndex entry.2 entry.2 = .ok r)
    (hd : entry.1.isDosFolder = false)
    (hv : isValidZipEntryFileName (zipEntryName entry.1.nameRaw) = true)
    (hn : toAsciiLowercase (zipEntryName entry.1.nameRaw) ∉
      members.map (toAsciiLowercase ∘ ZipMember.name)) :
    collectMember archive members entry = .ok (members ++ [.ofEntry entry]) := by
  have hexact : zipEntryName entry.1.nameRaw ∉ members.map ZipMember.name := by
    intro hm
    obtain ⟨m, hm, hname⟩ := List.mem_map.1 hm
    exact hn (List.mem_map.2 ⟨m, hm, congrArg toAsciiLowercase hname⟩)
  obtain ⟨file, index⟩ := entry
  dsimp only at ho hd hv hn hexact
  simp only [collectMember, ho, hd, hv, hn, hexact]
  rfl

variable [Read ρ IoError] {mimetype : Option Str} {body manifest : Bytes}

/-- The entries of a new package. -/
structure WrittenEntries (archive : Archive ρ) (f₀ f₁ f₂ : FileData) (mimetype : Option Str)
    (body manifest : Bytes) : Prop where
  directory : archive.directory = [f₀, f₁, f₂]
  mimetype : EntryOf f₀ ⟨utf8Encode (ascii "mimetype"), .stored, (mimetype.map utf8Encode).getD []⟩
  package : EntryOf f₁ ⟨utf8Encode (ascii "encrypted-package"), .stored, body⟩
  manifest : EntryOf f₂ ⟨utf8Encode manifestPath, .deflated, manifest⟩

theorem Archive.HasMembers.entries (h : archive.HasMembers (writtenMembers mimetype body manifest)) :
    ∃ f₀ f₁ f₂, WrittenEntries archive f₀ f₁ f₂ mimetype body manifest := by
  obtain ⟨f₀, l₀, h₀, hl₀, hdir⟩ := List.forall₂_cons_right_iff.1 h.directory
  obtain ⟨f₁, l₁, h₁, hl₁, rfl⟩ := List.forall₂_cons_right_iff.1 hl₀
  obtain ⟨f₂, l₂, h₂, hl₂, rfl⟩ := List.forall₂_cons_right_iff.1 hl₁
  obtain rfl := List.forall₂_nil_right_iff.1 hl₂
  exact ⟨f₀, f₁, f₂, hdir, h₀, h₁, h₂⟩

theorem EntryOf.zipEntryName {file : FileData} {name : Str} {method : CompressionMethod}
    {data : Bytes} (h : EntryOf file ⟨utf8Encode name, method, data⟩) :
    zipEntryName file.nameRaw = name := by
  rw [OdfCrypto.zipEntryName, h.name, utf8Lossy_encode]

variable {f₀ f₁ f₂ : FileData} (hm : archive.HasMembers (writtenMembers mimetype body manifest))
  (he : WrittenEntries archive f₀ f₁ f₂ mimetype body manifest)

include hm he

theorem collectMembers_written :
    collectMembers archive = .ok [.ofEntry (f₀, 0), .ofEntry (f₁, 1), .ofEntry (f₂, 2)] := by
  obtain ⟨r₀, ho₀, -⟩ := hm.opens (i := 0) rfl 0
  obtain ⟨r₁, ho₁, -⟩ := hm.opens (i := 1) rfl 1
  obtain ⟨r₂, ho₂, -⟩ := hm.opens (i := 2) rfl 2
  have h₀ : collectMember archive [] (f₀, 0) = .ok [.ofEntry (f₀, 0)] :=
    collectMember_of ho₀ he.mimetype.notFolder (by rw [he.mimetype.zipEntryName]; decide) (by nofun)
  have h₁ : collectMember archive [.ofEntry (f₀, 0)] (f₁, 1) =
      .ok [.ofEntry (f₀, 0), .ofEntry (f₁, 1)] := by
    refine collectMember_of ho₁ he.package.notFolder (by rw [he.package.zipEntryName]; decide) ?_
    rw [List.map_singleton, Function.comp_apply, ZipMember.ofEntry, he.package.zipEntryName,
      he.mimetype.zipEntryName]
    exact (by decide :
      toAsciiLowercase (ascii "encrypted-package") ∉ [toAsciiLowercase (ascii "mimetype")])
  have h₂ : collectMember archive [.ofEntry (f₀, 0), .ofEntry (f₁, 1)] (f₂, 2) =
      .ok [.ofEntry (f₀, 0), .ofEntry (f₁, 1), .ofEntry (f₂, 2)] := by
    refine collectMember_of ho₂ he.manifest.notFolder (by rw [he.manifest.zipEntryName]; decide) ?_
    rw [List.map_cons, List.map_singleton, Function.comp_apply, Function.comp_apply, ZipMember.ofEntry,
      ZipMember.ofEntry, he.package.zipEntryName, he.mimetype.zipEntryName, he.manifest.zipEntryName]
    exact (by decide : toAsciiLowercase manifestPath ∉
      [toAsciiLowercase (ascii "mimetype"), toAsciiLowercase (ascii "encrypted-package")])
  have hdir : archive.directory.zipIdx = [(f₀, 0), (f₁, 1), (f₂, 2)] := by
    rw [he.directory]
    rfl
  rw [collectMembers, hdir, List.foldlM_cons, h₀]
  refine (congrArg (· >>= fun ms => [(f₂, 2)].foldlM (collectMember archive) ms) h₁).trans ?_
  exact (congrArg (· >>= pure) h₂)

/-- The manifest is read in full, unless it is longer than classification reads. -/
theorem readNamedMember_written :
    readNamedMember archive [.ofEntry (f₀, 0), .ofEntry (f₁, 1), .ofEntry (f₂, 2)]
        (ascii "META-INF/manifest.xml") =
      if manifestReadCap < manifest.length then .error (.zip (ascii "zip entry too large"))
      else .ok (some manifest) := by
  obtain ⟨file, ho, hp⟩ := hm.opens (i := 2) rfl archive.len
  have hp : Presents file manifest none := hp
  -- One byte more than the cap is read, so that a member over it shows.
  have htake := hp.take (manifestReadCap + 1)
  rw [ite_self] at htake
  obtain ⟨_, hread, -⟩ := htake.readToEnd_ok (show 0 < readProbe by decide)
  have hfind : [ZipMember.ofEntry (f₀, 0), .ofEntry (f₁, 1), .ofEntry (f₂, 2)].find?
      (fun m => memberMatchesPath m.name (ascii "META-INF/manifest.xml")) = some (.ofEntry (f₂, 2)) := by
    have h₀ : memberMatchesPath (ascii "mimetype") (ascii "META-INF/manifest.xml") = false := by decide
    have h₁ : memberMatchesPath (ascii "encrypted-package") (ascii "META-INF/manifest.xml") = false := by
      decide
    have h₂ : memberMatchesPath manifestPath (ascii "META-INF/manifest.xml") = true := by decide
    rw [List.find?_cons_of_neg, List.find?_cons_of_neg, List.find?_cons_of_pos]
    · rw [ZipMember.ofEntry, he.manifest.zipEntryName]
      exact h₂
    · rw [ZipMember.ofEntry, he.package.zipEntryName, h₁]
      exact Bool.false_ne_true
    · rw [ZipMember.ofEntry, he.mimetype.zipEntryName, h₀]
      exact Bool.false_ne_true
  have hopen : archive.byIndex archive.len (ZipMember.ofEntry (f₂, 2)).index = .ok file := ho
  rw [readNamedMember, hfind]
  dsimp only
  rw [hopen]
  simp only [zipError, Except.mapError, bind, Except.bind]
  rw [hread]
  by_cases hlong : manifestReadCap < manifest.length
  · have hlen : (manifest.take (manifestReadCap + 1)).length > manifestReadCap := by
      rw [List.length_take]
      omega
    rw [if_pos hlong]
    dsimp only
    rw [if_pos hlen]
    rfl
  · rw [if_neg hlong, List.take_of_length_le (by omega)]
    dsimp only
    rw [if_neg hlong]
    rfl

/-- The `mimetype` member is read, as far as one read goes. -/
theorem readMimetype_written (tree : FolderTree) :
    ∃ mt, readMimetype archive [.ofEntry (f₀, 0), .ofEntry (f₁, 1), .ofEntry (f₂, 2)] tree = .ok mt := by
  have hfind : [ZipMember.ofEntry (f₀, 0), .ofEntry (f₁, 1), .ofEntry (f₂, 2)].find?
      (fun m => m.name = ascii "mimetype") = some (.ofEntry (f₀, 0)) := by
    rw [List.find?_cons_of_pos]
    rw [ZipMember.ofEntry, he.mimetype.zipEntryName]
    exact decide_eq_true rfl
  obtain ⟨file, ho, hp⟩ := hm.opens (i := 0) rfl (archive.len + 1)
  -- A single read may cut the media type short, but it does not fail.
  have hread : ∃ buf, (read file mimetypeCeiling).1 = .ok buf := by
    rcases hbs : (mimetype.map utf8Encode).getD [] with - | ⟨b, bs⟩
    · rw [hbs] at hp
      obtain ⟨r, hr, -⟩ := hp.read_nil (n := mimetypeCeiling) (by decide)
      exact ⟨_, congrArg Prod.fst hr⟩
    · rw [hbs] at hp
      obtain ⟨piece, rest, r, hr, -⟩ := hp.read_cons (n := mimetypeCeiling) (by decide)
        (List.cons_ne_nil b bs)
      exact ⟨_, congrArg Prod.fst hr⟩
  obtain ⟨buf, hread⟩ := hread
  have hopen : archive.byIndex (archive.len + 1) (ZipMember.ofEntry (f₀, 0)).index = .ok file := ho
  unfold readMimetype
  split
  · exact ⟨_, rfl⟩
  split
  · exact ⟨_, rfl⟩
  rw [hfind]
  dsimp only
  rw [hopen]
  simp only [zipError, Except.mapError, bind, Except.bind]
  rw [hread]
  exact ⟨_, rfl⟩

omit [Read ρ IoError] hm in
theorem fromZipNames_members :
    FolderTree.fromZipNames (([.ofEntry (f₀, 0), .ofEntry (f₁, 1), .ofEntry (f₂, 2)] :
      List ZipMember).map ZipMember.name) = .ok (writtenTree (.stream false none)) := by
  have hnames : ([.ofEntry (f₀, 0), .ofEntry (f₁, 1), .ofEntry (f₂, 2)] : List ZipMember).map
      ZipMember.name = writtenNames := by
    rw [List.map_cons, List.map_cons, List.map_singleton, ZipMember.ofEntry, ZipMember.ofEntry,
      ZipMember.ofEntry, he.mimetype.zipEntryName, he.package.zipEntryName, he.manifest.zipEntryName]
    rfl
  rw [hnames, fromZipNames_written]

omit [Read ρ IoError] hm in
theorem checkStoredDataDescriptors_written (entries : List EntryEncryption) :
    checkStoredDataDescriptors [.ofEntry (f₀, 0), .ofEntry (f₁, 1), .ofEntry (f₂, 2)] entries =
      .ok () := by
  have hbare : ∀ {file : FileData} {m : CrateMember} {i : ℕ}, EntryOf file m →
      (ZipMember.ofEntry (file, i)).isBareDescriptor entries = false := by
    intro file m i h
    have hd : (ZipMember.ofEntry (file, i)).dataDescriptor = false := h.noDescriptor
    simp [ZipMember.isBareDescriptor, hd]
  rw [checkStoredDataDescriptors, if_neg]
  simp [hbare he.mimetype, hbare he.package, hbare he.manifest]

/-- What is read of a new package before its `mimetype` member. -/
theorem readPackage_written (xmlReader : XmlReader) : readPackage xmlReader archive =
    if manifestReadCap < manifest.length then .error (.zip (ascii "zip entry too large"))
    else .ok ([.ofEntry (f₀, 0), .ofEntry (f₁, 1), .ofEntry (f₂, 2)], writtenTree (.stream false none),
      parseManifest xmlReader manifest) := by
  rw [readPackage, collectMembers_written hm he]
  simp only [bind, Except.bind]
  rw [fromZipNames_members he]
  simp only [Except.mapError]
  rw [readNamedMember_written hm he]
  by_cases hlong : manifestReadCap < manifest.length
  · rw [if_pos hlong, if_pos hlong]
  · rw [if_neg hlong, if_neg hlong]
    rfl

end

section

variable {ρ : Type} [Read ρ IoError] {archive : Archive ρ} {xmlReader : XmlReader}
  {mimetype : Option Str} {body iv salt : Bytes} {params : Argon2Params} {n : ℕ}

/-- A new package is wholesome, with the row that it was written with, as long as its
    manifest is not longer than classification reads. -/
theorem classifyArchive_written
    (hm : archive.HasMembers (writtenMembers mimetype body (buildManifest n iv salt mimetype params)))
    (hn : n < 2 ^ 63)
    (hxml : xmlReader (buildManifest n iv salt mimetype params) =
      (manifestEvents n iv salt mimetype params, none))
    (hcap : (buildManifest n iv salt mimetype params).length ≤ manifestReadCap) :
    ∃ cls, classifyArchive xmlReader archive = .ok cls ∧ cls.mode = .wholesome ∧
      cls.odf12Fatal = false ∧ cls.encryptedEntries = [writtenRow n iv salt params] := by
  obtain ⟨f₀, f₁, f₂, he⟩ := hm.entries
  obtain ⟨mt, hmt⟩ := readMimetype_written hm he (writtenTree (.stream false none))
  let st := writtenStage n iv salt (mimetype.map attrRead) params
  obtain ⟨info, hw⟩ := @withMimetype_of_noMedia st rfl true mt
  -- The media type of the archive changes only the information of the root.
  have hstage : stageB [writtenBag n iv salt (mimetype.map attrRead) params]
      (writtenTree (.stream false none))
      ((writtenTree (.stream false none)).rootHasEntry (ascii "encrypted-package")) mt =
        .ok (({ st with tree := { st.tree with info } } : StageB).classification true) := by
    rw [stageB, List.foldlM_cons, row_written]
    exact congrArg (· >>= fun st => Except.ok (st.classification true)) hw
  refine ⟨({ st with tree := { st.tree with info } } : StageB).classification true, ?_, rfl, rfl, rfl⟩
  rw [classifyArchive, readPackage_written hm he, if_neg (Nat.not_lt.2 hcap),
    parseManifest_written hn hxml]
  simp only [bind, Except.bind]
  rw [hmt]
  dsimp only
  rw [hstage]
  dsimp only
  rw [checkStoredDataDescriptors_written he]
  rfl

/-- A new package whose manifest is longer than that is refused. -/
theorem classifyArchive_longManifest {manifest : Bytes}
    (hm : archive.HasMembers (writtenMembers mimetype body manifest))
    (hlong : manifestReadCap < manifest.length) :
    classifyArchive xmlReader archive = .error (.zip (ascii "zip entry too large")) := by
  obtain ⟨f₀, f₁, f₂, he⟩ := hm.entries
  rw [classifyArchive, readPackage_written hm he, if_pos hlong]
  rfl

end

/-! ### The member of a new package -/

section

variable {ρ : Type} [Read ρ IoError] {archive : Archive ρ} {mimetype : Option Str}
  {body manifest : Bytes}

/-- The member of the written row is the second one. -/
theorem memberForArchive_written {ω : Type}
    (hm : archive.HasMembers (writtenMembers mimetype body manifest)) (missing : DecryptError)
    (s : Run ω) : ∃ name s',
      memberForArchive archive (ascii "encrypted-package") missing s = (.ok (1, name), s') := by
  obtain ⟨f₀, f₁, f₂, he⟩ := hm.entries
  obtain ⟨r₀, ho₀, -⟩ := hm.opens (i := 0) rfl s.opened
  obtain ⟨r₁, ho₁, -⟩ := hm.opens (i := 1) rfl (s.opened + 1)
  have hopen₀ : openMember archive 0 s = (.ok r₀, { s with opened := s.opened + 1 }) := by
    rw [openMember, ho₀]
    rfl
  have hopen₁ : openMember archive 1 { s with opened := s.opened + 1 } =
      (.ok r₁, { s with opened := s.opened + 1 + 1 }) := by
    rw [openMember, ho₁]
    rfl
  have hname₀ : memberMatchesPath (zipEntryName f₀.nameRaw) (ascii "encrypted-package") = false := by
    rw [he.mimetype.zipEntryName]
    decide
  have hname₁ : memberMatchesPath (zipEntryName f₁.nameRaw) (ascii "encrypted-package") = true := by
    rw [he.package.zipEntryName]
    decide
  have hdir : archive.directory.zipIdx = [(f₀, 0), (f₁, 1), (f₂, 2)] := by
    rw [he.directory]
    rfl
  refine ⟨zipEntryName f₁.nameRaw, { s with opened := s.opened + 1 + 1 }, ?_⟩
  rw [memberForArchive, hdir, firstMember, Prog.bind_of_ok hopen₀, hname₀, if_neg Bool.false_ne_true,
    firstMember, Prog.bind_of_ok hopen₁, hname₁, if_pos rfl]
  rfl

end

end OdfCrypto

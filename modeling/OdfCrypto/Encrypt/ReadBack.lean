import OdfCrypto.Encrypt

/-!
# Reading the manifest back

The elements that `manifestEvents` writes, fed through the import, make one
property bag, which has what they were made of; on the tree of the package that
`encrypt` writes, the second stage then reports a wholesome package with that one
row (`manifestEvents_readBack`).
-/

namespace OdfCrypto

open ByteStream Text

/-! ### Attributes -/

/-- The attributes of a written tag are read as they were, where normalization
    leaves their values as they are. -/
theorem readAttrs_tag (name : Str) {attrs : Attrs} (h : ∀ p ∈ attrs, ∀ c ∈ p.2, isAttrStable c) :
    readAttrs (tag name (attrs.map fun p => attr p.1 p.2)) = some attrs := by
  simp only [readAttrs, tag]
  induction attrs with
  | nil => rfl
  | cons p attrs ih =>
    have hp := normalizeAttrValue_escape (h p List.mem_cons_self)
    rw [List.map_cons, List.mapM_cons, ih fun q hq => h q (List.mem_cons_of_mem _ hq)]
    simp [attr, hp]

/-- The namespaces that the root of the manifest declares. -/
def manifestNamespaces : List (Str × Str) :=
  [(ascii "manifest", Uris.manifestNsOasis), (ascii "loext", Uris.manifestNsLoext)]

/-- The root of the manifest, and an element in it, once open. -/
def rootFrame : StackFrame := ⟨Uris.elementManifest, manifestNamespaces, true⟩

def frame (name : Str) : StackFrame := ⟨name, [], true⟩

/-- A name that declares no namespace, and that conversion leaves as it is. -/
def IsFixed (key : Str) : Prop :=
  declaredPrefix key = none ∧ (convertNameWithNs key manifestNamespaces).getD key = key

instance : DecidablePred IsFixed := fun _ => inferInstanceAs (Decidable (_ ∧ _))

/-- Attributes that are read as they are written: different fixed names. -/
def AreFixed (attrs : Attrs) : Prop :=
  (attrs.map Prod.fst).Nodup ∧ ∀ key ∈ attrs.map Prod.fst, IsFixed key

section

variable {name : Str} {names : List Str} {attrs : Attrs}

theorem convertName_frame (stack : List StackFrame) :
    convertName (names.map frame ++ stack) name = convertName stack name := by
  induction names with
  | nil => rfl
  | cons n names ih => exact ih

theorem convertName_fixed (h : IsFixed name) :
    convertName (names.map frame ++ [rootFrame]) name = name := by
  rw [convertName_frame, ← h.2]
  simp only [convertName, List.findSome?_cons, rootFrame, h.2]
  cases hc : convertNameWithNs name manifestNamespaces with
  | none => rfl
  | some s => simpa [hc] using h.2

theorem declaredNamespaces_fixed (h : ∀ key ∈ attrs.map Prod.fst, IsFixed key) :
    declaredNamespaces attrs = [] := by
  unfold declaredNamespaces
  induction attrs with
  | nil => rfl
  | cons p attrs ih =>
    have hp := (h p.1 List.mem_cons_self).1
    simp only [List.foldl_cons, hp]
    exact ih fun key hk => h key (List.mem_cons_of_mem _ hk)

theorem assign_of_notMem {k v : Str} (h : k ∉ attrs.map Prod.fst) :
    Assoc.assign k v attrs = attrs ++ [(k, v)] := by
  induction attrs with
  | nil => rfl
  | cons p attrs ih =>
    rw [List.map_cons, List.mem_cons, not_or] at h
    rw [Assoc.assign, if_neg h.1, ih h.2, List.cons_append]

theorem convertedAttrs_fixed (h : AreFixed attrs) :
    convertedAttrs (names.map frame ++ [rootFrame]) attrs = attrs := by
  have hf : attrs.filter (fun p => (declaredPrefix p.1).isNone) = attrs :=
    List.filter_eq_self.2 fun p hp => by simp [(h.2 p.1 (List.mem_map_of_mem hp)).1]
  suffices ∀ done, (done.map Prod.fst ++ attrs.map Prod.fst).Nodup →
      attrs.foldl (fun acc p => Assoc.assign (convertName (names.map frame ++ [rootFrame]) p.1)
        p.2 acc) done = done ++ attrs by
    unfold convertedAttrs
    rw [hf]
    exact this [] h.1
  have hc := h.2
  clear hf h
  induction attrs with
  | nil => simp
  | cons p attrs ih =>
    intro done hd
    have hn : p.1 ∉ done.map Prod.fst := fun hm =>
      (List.nodup_append.1 hd).2.2 p.1 hm p.1 (by simp) rfl
    rw [List.foldl_cons, convertName_fixed (hc p.1 (by simp)), assign_of_notMem hn,
      ih (fun key hk => hc key (List.mem_cons_of_mem _ hk)) _ (by simpa using hd)]
    simp

/-- An attribute is found under its name, if the names are different. -/
theorem lookup_of_mem {k v : Str} (h : (attrs.map Prod.fst).Nodup) (hm : (k, v) ∈ attrs) :
    attrs.lookup k = some v := by
  induction attrs with
  | nil => cases hm
  | cons p attrs ih =>
    rw [List.map_cons, List.nodup_cons] at h
    rw [Assoc.lookup_cons]
    obtain rfl | hm := List.mem_cons.1 hm
    · rw [if_pos rfl]
    · rw [if_neg, ih h.2 hm]
      rintro rfl
      exact h.1 (List.mem_map.2 ⟨_, hm, rfl⟩)

theorem lookup_of_notMem {k : Str} (h : k ∉ attrs.map Prod.fst) : attrs.lookup k = none := by
  induction attrs with
  | nil => rfl
  | cons p attrs ih =>
    rw [List.map_cons, List.mem_cons, not_or] at h
    rw [Assoc.lookup_cons, if_neg h.1, ih h.2]

end

/-! ### Elements -/

namespace Import

/-- The import with the elements `names` open in the root, innermost first. -/
def inside (names : List Str) (im : Import) : Import :=
  { im with stack := names.map frame ++ [rootFrame], beyondCap := 0 }

variable {name : Str} {names : List Str} {attrs : Attrs} {im im' : Import}

/-- Opening an element in the root enters it at its level. -/
theorem startElement_inside (hn : IsFixed name) (ha : AreFixed attrs) (hl : names.length < 15) :
    (im.inside names).startElement name attrs =
      (im.inside (name :: names)).enter name attrs (names.length + 2) := by
  have hd : ¬ ((im.inside names).beyondCap > 0 ∨ (im.inside names).stack.length ≥ maxDepth) := by
    simp [inside, maxDepth]; omega
  have hp : (im.inside names).pushNameAndNamespaces name attrs =
      ((name, attrs), im.inside (name :: names)) := by
    have hs : (⟨name, [], true⟩ :: (names.map frame ++ [rootFrame]) : List StackFrame) =
      (name :: names).map frame ++ [rootFrame] := rfl
    simp only [pushNameAndNamespaces, declaredNamespaces_fixed ha.2]
    rw [show convertNameWithNs name [] = none from rfl, Option.getD_none]
    simp only [inside]
    rw [convertName_fixed hn, hs, convertedAttrs_fixed ha]
  have hv : (im.inside (name :: names)).parentValid := by
    cases names <;> rfl
  have hs : (im.inside (name :: names)).stack.length = names.length + 2 := by simp [inside]
  rw [startElement, if_neg hd, hp]
  simp only [hs]
  rw [if_neg (by simp [hv])]

/-- The elements whose closing does something. -/
def closers : List Str :=
  [Uris.elementFileEntry, Uris.elementLoextEncryptedKey, Uris.elementManifestEncryptedKey,
    Uris.elementManifestCipherValue, Uris.elementLoextCipherValue, Uris.elementManifestPgpKeyId,
    Uris.elementLoextPgpKeyId, Uris.elementManifestPgpKeyPacket, Uris.elementLoextPgpKeyPacket]

/-- Closing an element that ends neither a row nor a key, and holds no characters. -/
theorem endElement_inside (hn : IsFixed name) (hx : name ∉ closers) :
    (im.inside (name :: names)).endElement name = im.inside names := by
  have hc : convertName (im.inside (name :: names)).stack name = name := convertName_fixed hn
  simp only [closers, List.mem_cons, List.not_mem_nil, or_false, not_or] at hx
  rw [endElement]
  simp [inside, frame] at hc ⊢
  simp [hc, hx, finishCharacters]

/-- The import of the start of a written element. -/
theorem importToken_start (hn : IsFixed name) (ha : AreFixed attrs)
    (hv : ∀ p ∈ attrs, ∀ c ∈ p.2, isAttrStable c) (hl : names.length < 15) :
    importToken (im.inside names) (.start (tag name (attrs.map fun p => attr p.1 p.2))) =
      some ((im.inside (name :: names)).enter name attrs (names.length + 2)) := by
  rw [importToken, readAttrs_tag name hv, Option.map_some]
  simp [tag, startElement_inside hn ha hl]

/-- The import of a written empty element. -/
theorem importToken_empty (hn : IsFixed name) (hx : name ∉ closers) (ha : AreFixed attrs)
    (hv : ∀ p ∈ attrs, ∀ c ∈ p.2, isAttrStable c) (hl : names.length < 15)
    (he : (im.inside (name :: names)).enter name attrs (names.length + 2) =
      im'.inside (name :: names)) :
    importToken (im.inside names) (.empty (tag name (attrs.map fun p => attr p.1 p.2))) =
      some (im'.inside names) := by
  rw [importToken, readAttrs_tag name hv, Option.map_some]
  simp only [tag, utf8Lossy_encode]
  rw [startElement_inside hn ha hl, he, endElement_inside hn hx]

/-- Closing the row: its bag is complete, the first one with the version of the root. -/
theorem endElement_fileEntry :
    (im.inside [Uris.elementFileEntry]).endElement Uris.elementFileEntry =
      (im.finishFileEntry).inside [] := by
  have hc : convertName (im.inside [Uris.elementFileEntry]).stack Uris.elementFileEntry =
    Uris.elementFileEntry := convertName_fixed (by decide)
  have hx : Uris.elementFileEntry ∉ [Uris.elementManifestCipherValue,
      Uris.elementLoextCipherValue, Uris.elementManifestPgpKeyId, Uris.elementLoextPgpKeyId,
      Uris.elementManifestPgpKeyPacket, Uris.elementLoextPgpKeyPacket] := by decide
  simp only [List.mem_cons, List.not_mem_nil, or_false, not_or] at hx
  rw [endElement]
  simp [inside, frame] at hc ⊢
  simp [hc, hx, finishCharacters, finishFileEntry]

end Import

/-! ### Values -/

section

theorem decimalInt_of_nonneg {n : ℤ} (h : 0 ≤ n) : decimalInt n = Nat.toDigits 10 n.toNat := by
  obtain ⟨n, rfl⟩ := Int.eq_ofNat_of_zero_le h
  rfl

/-- A number that fits is read back from its decimal digits. -/
theorem parseLoInt_decimalInt {n min max : ℤ} (h : 0 ≤ n) (hmax : n ≤ max) :
    parseLoInt (decimalInt n) min max = n := by
  rw [decimalInt_of_nonneg h, parseLoInt_toDigits (by rwa [Int.toNat_of_nonneg h]),
    Int.toNat_of_nonneg h]

theorem isAttrStable_of_isDigit {c : Char} (h : c.isDigit) : isAttrStable c := by
  have hc : c ≠ '\t' ∧ c ≠ '\n' ∧ c ≠ '\r' := by
    refine ⟨?_, ?_, ?_⟩ <;> rintro rfl <;> revert h <;> decide
  simpa [isAttrStable] using hc

theorem isAttrStable_decimalInt {n : ℤ} (h : 0 ≤ n) : ∀ c ∈ decimalInt n, isAttrStable c := by
  rw [decimalInt_of_nonneg h]
  exact fun c hc =>
    isAttrStable_of_isDigit (Nat.isDigit_of_mem_toDigits (by decide) (by decide) hc)

theorem isAttrStable_b64Char (n shift : ℕ) : isAttrStable (b64Char n shift) :=
  (by decide : ∀ i < 64, isAttrStable (b64Alphabet.getD i '=')) _
    (Nat.mod_lt _ (by decide))

theorem isAttrStable_encodeB64 (bytes : Bytes) : ∀ c ∈ encodeB64 bytes, isAttrStable c := by
  have hp : isAttrStable '=' := by decide
  fun_induction encodeB64 bytes <;> simp_all [isAttrStable_b64Char]

/-- A media type that passes has nothing that normalization would change. -/
theorem isAttrStable_of_validate {raw : Bytes} {s : Str} (h : validateMediaType raw = .ok s) :
    ∀ c ∈ s, isAttrStable c := by
  unfold validateMediaType at h
  split at h
  · cases h
  · split at h
    · cases h
    · split at h
      · cases h
      · next hs =>
        cases h
        simpa [isAttrStable, List.find?_eq_none, and_assoc] using hs

end

/-! ### The row -/

section

variable {size : ℤ} {iv salt : Bytes} {mediaType : Option Str} {params : Argon2Params}

def rootAttrs : Attrs := [
  (ascii "xmlns:manifest", Uris.manifestNsOasis),
  (ascii "xmlns:loext", Uris.manifestNsLoext),
  (Uris.attrVersion, wholesomeProfile.odfVersion)]

def fileEntryAttrs (size : ℤ) (mediaType : Option Str) : Attrs :=
  [(Uris.attrFullPath, ascii "encrypted-package"), (Uris.attrSize, decimalInt size)] ++
    (mediaType.map fun mt => (Uris.attrMediaType, mt)).toList

def algorithmAttrs (iv : Bytes) : Attrs :=
  [(Uris.attrAlgorithmName, Uris.aesgcm256Url), (Uris.attrIv, encodeB64 iv)]

def startKeyAttrs : Attrs :=
  [(Uris.attrStartKeyName, Uris.sha256Url), (Uris.attrKeySize, decimal 32)]

def keyDerivationAttrs (salt : Bytes) (params : Argon2Params) : Attrs := [
  (Uris.attrKeyDerivationName, Uris.argon2idUrlLo),
  (Uris.attrArgon2TLo, decimalInt params.t),
  (Uris.attrArgon2MLo, decimalInt params.mKib),
  (Uris.attrArgon2PLo, decimalInt params.p),
  (Uris.attrSalt, encodeB64 salt),
  (Uris.attrKeySize, decimal 32)]

/-- Attributes are fixed if their names, in a list at hand, are. -/
theorem AreFixed.of_keys {attrs : Attrs} (keys : List Str) (h : attrs.map Prod.fst = keys)
    (hk : keys.Nodup ∧ ∀ key ∈ keys, IsFixed key) : AreFixed attrs := by
  rwa [AreFixed, h]

theorem fileEntryAttrs_fixed : AreFixed (fileEntryAttrs size mediaType) := by
  cases mediaType with
  | none => exact .of_keys [Uris.attrFullPath, Uris.attrSize] rfl (by decide)
  | some mt =>
    exact .of_keys [Uris.attrFullPath, Uris.attrSize, Uris.attrMediaType] rfl (by decide)

theorem algorithmAttrs_fixed : AreFixed (algorithmAttrs iv) :=
  .of_keys [Uris.attrAlgorithmName, Uris.attrIv] rfl (by decide)

theorem startKeyAttrs_fixed : AreFixed startKeyAttrs :=
  .of_keys [Uris.attrStartKeyName, Uris.attrKeySize] rfl (by decide)

theorem keyDerivationAttrs_fixed : AreFixed (keyDerivationAttrs salt params) :=
  .of_keys [Uris.attrKeyDerivationName, Uris.attrArgon2TLo, Uris.attrArgon2MLo,
    Uris.attrArgon2PLo, Uris.attrSalt, Uris.attrKeySize] rfl (by decide)

/-- The elements of the written manifest, with their attributes. -/
theorem manifestEvents_eq : manifestEvents size iv salt mediaType params = [
    .other (bytesOf "<?xml version=\"1.0\" encoding=\"UTF-8\"?>"),
    .start (tag Uris.elementManifest (rootAttrs.map fun p => attr p.1 p.2)),
    .start (tag Uris.elementFileEntry
      ((fileEntryAttrs size mediaType).map fun p => attr p.1 p.2)),
    .start (tag Uris.elementEncryptionData (([] : Attrs).map fun p => attr p.1 p.2)),
    .empty (tag Uris.elementAlgorithm ((algorithmAttrs iv).map fun p => attr p.1 p.2)),
    .empty (tag Uris.elementStartKeyGeneration (startKeyAttrs.map fun p => attr p.1 p.2)),
    .empty (tag Uris.elementKeyDerivation
      ((keyDerivationAttrs salt params).map fun p => attr p.1 p.2)),
    .close (utf8Encode Uris.elementEncryptionData),
    .close (utf8Encode Uris.elementFileEntry),
    .close (utf8Encode Uris.elementManifest)] := by
  cases mediaType <;> rfl

/-- What the manifest says on the row that `encrypt` writes. -/
def writtenBag (size : ℤ) (iv salt : Bytes) (mediaType : Option Str) (params : Argon2Params) :
    PropertyBag where
  fullPath := ascii "encrypted-package"
  mediaType := some (mediaType.getD [])
  version := some wholesomeProfile.odfVersion
  size := some size
  salt := some salt
  iv := some iv
  derivedKeySize := some wholesomeProfile.derivedKeyLen
  encAlg := some .aesGcmW3c
  startKeyAlg := some .sha256
  kdf := some .argon2id
  argon2Args := some (params.t, params.mKib, params.p)

namespace Import

variable {im : Import}

set_option maxRecDepth 10000 in
/-- Opening the root: its namespaces hold inside, and its version is kept. -/
theorem importToken_root :
    importToken {} (.start (tag Uris.elementManifest (rootAttrs.map fun p => attr p.1 p.2))) =
      some (({ packageVersion := some wholesomeProfile.odfVersion } : Import).inside []) := by
  decide

/-- The row starts with its path, its size and its media type. -/
theorem doFileEntry_written (h0 : 0 ≤ size) (h : size ≤ 2 ^ 63 - 1) :
    im.doFileEntry (fileEntryAttrs size mediaType) = { im with bag := {
      fullPath := ascii "encrypted-package"
      mediaType := some (mediaType.getD [])
      size := some size } } := by
  have hk : ((fileEntryAttrs size mediaType).map Prod.fst).Nodup := fileEntryAttrs_fixed.1
  have hp : (fileEntryAttrs size mediaType).lookup Uris.attrFullPath =
    some (ascii "encrypted-package") := lookup_of_mem hk (.head _)
  have hs : (fileEntryAttrs size mediaType).lookup Uris.attrSize = some (decimalInt size) :=
    lookup_of_mem hk (.tail _ (.head _))
  -- The row has no version, and a media type only when there is one.
  have hv : (fileEntryAttrs size mediaType).lookup Uris.attrVersion = none := by
    apply lookup_of_notMem
    cases mediaType with
    | none =>
      exact (by decide : Uris.attrVersion ∉ [Uris.attrFullPath, Uris.attrSize])
    | some mt =>
      exact (by decide :
        Uris.attrVersion ∉ [Uris.attrFullPath, Uris.attrSize, Uris.attrMediaType])
  have hm : (fileEntryAttrs size mediaType).value Uris.attrMediaType = mediaType.getD [] := by
    cases mediaType with
    | none =>
      have hmt : Uris.attrMediaType ∉ (fileEntryAttrs size none).map Prod.fst :=
        (by decide : Uris.attrMediaType ∉ [Uris.attrFullPath, Uris.attrSize])
      exact congrArg (·.getD []) (lookup_of_notMem hmt)
    | some mt => exact congrArg (·.getD []) (lookup_of_mem hk (.tail _ (.tail _ (.head _))))
  have hn : ¬ decimalInt size = [] := by
    rw [decimalInt_of_nonneg h0]
    exact Nat.toDigits_ne_nil
  have hz : parseI64 (decimalInt size) = size := parseLoInt_decimalInt h0 h
  rw [doFileEntry, hm, Attrs.value, hp, hs, hv]
  simp [hn, hz]

/-- The encryption data: no checksum. -/
theorem doEncryptionData_written (h : im.ignoreEncryptData = false)
    (hd : im.bag.digestAlg = none) : im.doEncryptionData [] = { im with derivedKeySize := 0 } := by
  have hc : Uris.checksumAlgFromType (Attrs.value [] Uris.attrChecksumType) = none := by
    decide
  have hb : { im.bag with digestAlg := none } = im.bag := by rw [← hd]
  simp only [doEncryptionData, h, hc, Option.none_or, hd]
  exact congrArg (fun bag => { im with derivedKeySize := 0, ignoreEncryptData := false, bag }) hb

/-- The algorithm: AES-GCM, with the IV. -/
theorem doAlgorithm_written (h : im.ignoreEncryptData = false) :
    im.doAlgorithm (algorithmAttrs iv) = { im with
      derivedKeySize := 32
      bag := { im.bag with encAlg := some .aesGcmW3c, iv := some iv } } := by
  have hk : ((algorithmAttrs iv).map Prod.fst).Nodup := algorithmAttrs_fixed.1
  have hn : (algorithmAttrs iv).value Uris.attrAlgorithmName = Uris.aesgcm256Url :=
    congrArg (·.getD []) (lookup_of_mem hk (.head _))
  have hi : (algorithmAttrs iv).value Uris.attrIv = encodeB64 iv :=
    congrArg (·.getD []) (lookup_of_mem hk (.tail _ (.head _)))
  have hc : Uris.cipherFromAlgorithmName Uris.aesgcm256Url = some (.aesGcmW3c, some 32) := by
    decide
  rw [doAlgorithm, hn, hi, hc, decodeB64_encodeB64]
  simp [h]

theorem doStartKeyAlg_written :
    im.doStartKeyAlg startKeyAttrs = { im with
      bag := { im.bag with startKeyAlg := some .sha256 } } := by
  have hn : Uris.startKeyFromName (startKeyAttrs.value Uris.attrStartKeyName) =
    some .sha256 := by decide
  rw [doStartKeyAlg, hn]

/-- The parameters of Argon2, under their `loext` names. -/
theorem doKdfArgs_written :
    im.doKdfArgs (keyDerivationAttrs salt params) .argon2id = { im with
      bag := { im.bag with argon2Args := some (params.t, params.mKib, params.p) } } := by
  have hk : ((keyDerivationAttrs salt params).map Prod.fst).Nodup := keyDerivationAttrs_fixed.1
  have hm : ∀ k ∈ [Uris.attrArgon2T, Uris.attrArgon2M, Uris.attrArgon2P],
      (keyDerivationAttrs salt params).lookup k = none := fun k hk => lookup_of_notMem
    ((by decide : ∀ k ∈ [Uris.attrArgon2T, Uris.attrArgon2M, Uris.attrArgon2P],
      k ∉ [Uris.attrKeyDerivationName, Uris.attrArgon2TLo, Uris.attrArgon2MLo,
        Uris.attrArgon2PLo, Uris.attrSalt, Uris.attrKeySize]) k hk)
  have ht : argon2Attr (keyDerivationAttrs salt params) Uris.attrArgon2T Uris.attrArgon2TLo =
      decimalInt params.t := by
    rw [argon2Attr, hm _ (.head _), lookup_of_mem hk (.tail _ (.head _))]; rfl
  have hmk : argon2Attr (keyDerivationAttrs salt params) Uris.attrArgon2M Uris.attrArgon2MLo =
      decimalInt params.mKib := by
    rw [argon2Attr, hm _ (.tail _ (.head _)), lookup_of_mem hk (.tail _ (.tail _ (.head _)))]; rfl
  have hp : argon2Attr (keyDerivationAttrs salt params) Uris.attrArgon2P Uris.attrArgon2PLo =
      decimalInt params.p := by
    rw [argon2Attr, hm _ (.tail _ (.tail _ (.head _))),
      lookup_of_mem hk (.tail _ (.tail _ (.tail _ (.head _))))]; rfl
  have hr := And.intro params.t_range (And.intro params.m_range params.p_range)
  simp only [argon2MinTCost, argon2MaxTCostWrite, argon2MinMCostKib, argon2MaxMCostKibWrite,
    argon2MinPCost, argon2MaxPCost] at hr
  have hi : ∀ n : ℤ, 1 ≤ n → n ≤ 2 ^ 31 - 1 → parseI32 (decimalInt n) = n :=
    fun n h h' => parseLoInt_decimalInt (by omega) h'
  rw [doKdfArgs, if_pos rfl, ht, hmk, hp]
  simp only [hi _ (by omega : 1 ≤ params.t) (by omega),
    hi _ (by omega : 1 ≤ params.mKib) (by omega), hi _ (by omega : 1 ≤ params.p) (by omega)]
  rw [if_pos ⟨by omega, by omega, by omega⟩]

/-- The key derivation: Argon2id, with the salt. -/
theorem doKeyDerivation_written (h : im.ignoreEncryptData = false) :
    im.doKeyDerivation (keyDerivationAttrs salt params) = { im with
      derivedKeySize := 32
      bag := { im.bag with
        kdf := some .argon2id
        argon2Args := some (params.t, params.mKib, params.p)
        salt := some salt
        derivedKeySize := some 32 } } := by
  have hk : ((keyDerivationAttrs salt params).map Prod.fst).Nodup := keyDerivationAttrs_fixed.1
  have hn : (keyDerivationAttrs salt params).value Uris.attrKeyDerivationName =
    Uris.argon2idUrlLo := congrArg (·.getD []) (lookup_of_mem hk (.head _))
  have hs : (keyDerivationAttrs salt params).value Uris.attrSalt = encodeB64 salt :=
    congrArg (·.getD [])
      (lookup_of_mem hk (.tail _ (.tail _ (.tail _ (.tail _ (.head _))))))
  have hz : (keyDerivationAttrs salt params).lookup Uris.attrKeySize = some (decimal 32) :=
    lookup_of_mem hk (.tail _ (.tail _ (.tail _ (.tail _ (.tail _ (.head _))))))
  have hks : ∀ n, keySizeOf (keyDerivationAttrs salt params) n = 32 := by
    intro n
    rw [keySizeOf, hz, show (some (decimal 32)).filter (fun v => ¬ v.isEmpty) =
      some (decimal 32) by decide]
    exact (by decide : parseI32 (decimal 32) = 32)
  have hkdf : Uris.passwordKdfFromName Uris.argon2idUrlLo = some .argon2id := by decide
  rw [doKeyDerivation, hn]
  simp only [h, hkdf, hks, hs, decodeB64_encodeB64, doKdfArgs_written]
  rfl

/-! The elements that are written, each at its level. -/

theorem enter_fileEntry {a : Attrs} :
    im.enter Uris.elementFileEntry a 2 = im.doFileEntry a := by
  rw [enter, if_pos rfl]

theorem enter_encryptionData {a : Attrs} :
    im.enter Uris.elementEncryptionData a 3 = im.doEncryptionData a := by
  rw [enter, if_pos rfl]

theorem enter_algorithm {a : Attrs} :
    im.enter Uris.elementAlgorithm a 4 = im.doAlgorithm a := by
  rw [enter, if_pos rfl]

theorem enter_startKeyGeneration {a : Attrs} :
    im.enter Uris.elementStartKeyGeneration a 4 = im.doStartKeyAlg a := by
  rw [enter, if_neg (by decide), if_neg (by decide), if_pos rfl]

theorem enter_keyDerivation {a : Attrs} :
    im.enter Uris.elementKeyDerivation a 4 = im.doKeyDerivation a := by
  rw [enter, if_neg (by decide), if_pos rfl]

/-- The texts that are written whatever the values are normalized to themselves. -/
theorem isAttrStable_constants {s : Str} (h : s ∈ [ascii "encrypted-package", Uris.aesgcm256Url,
    Uris.sha256Url, Uris.argon2idUrlLo, decimal 32]) : ∀ c ∈ s, isAttrStable c := by
  have hall : [ascii "encrypted-package", Uris.aesgcm256Url, Uris.sha256Url,
    Uris.argon2idUrlLo, decimal 32].all (fun s => s.all isAttrStable) := rfl
  exact List.all_eq_true.1 (List.all_eq_true.1 hall s h)

theorem importToken_fileEntry (h0 : 0 ≤ size) (h : size ≤ 2 ^ 63 - 1)
    (hm : ∀ mt ∈ mediaType, ∀ c ∈ mt, isAttrStable c) :
    importToken (im.inside []) (.start (tag Uris.elementFileEntry
      ((fileEntryAttrs size mediaType).map fun p => attr p.1 p.2))) =
      some (({ im with bag := {
        fullPath := ascii "encrypted-package"
        mediaType := some (mediaType.getD [])
        size := some size } } : Import).inside [Uris.elementFileEntry]) := by
  refine (importToken_start (by decide) fileEntryAttrs_fixed ?_ (by decide)).trans
    (congrArg some (enter_fileEntry.trans (doFileEntry_written h0 h)))
  intro p hp
  have hc := @isAttrStable_constants (ascii "encrypted-package") (by simp)
  cases mediaType with
  | none =>
    obtain rfl | rfl : p = _ ∨ p = _ := by simpa [fileEntryAttrs] using hp
    exacts [hc, isAttrStable_decimalInt h0]
  | some mt =>
    obtain rfl | rfl | rfl : p = _ ∨ p = _ ∨ p = _ := by simpa [fileEntryAttrs] using hp
    exacts [hc, isAttrStable_decimalInt h0, hm mt rfl]

theorem importToken_encryptionData (h : im.ignoreEncryptData = false)
    (hd : im.bag.digestAlg = none) :
    importToken (im.inside [Uris.elementFileEntry]) (.start (tag Uris.elementEncryptionData
      (([] : Attrs).map fun p => attr p.1 p.2))) =
      some (({ im with derivedKeySize := 0 } : Import).inside
        [Uris.elementEncryptionData, Uris.elementFileEntry]) := by
  refine (importToken_start (by decide) (.of_keys [] rfl (by decide)) (by simp)
    (by decide)).trans (congrArg some (enter_encryptionData.trans
      (doEncryptionData_written h hd)))

theorem importToken_algorithm (h : im.ignoreEncryptData = false) :
    importToken (im.inside [Uris.elementEncryptionData, Uris.elementFileEntry])
      (.empty (tag Uris.elementAlgorithm ((algorithmAttrs iv).map fun p => attr p.1 p.2))) =
      some (({ im with
        derivedKeySize := 32
        bag := { im.bag with encAlg := some .aesGcmW3c, iv := some iv } } : Import).inside
          [Uris.elementEncryptionData, Uris.elementFileEntry]) := by
  refine importToken_empty (by decide) (by decide) algorithmAttrs_fixed ?_
    (by decide) (enter_algorithm.trans (doAlgorithm_written h))
  intro p hp
  obtain rfl | rfl : p = _ ∨ p = _ := by simpa [algorithmAttrs] using hp
  exacts [isAttrStable_constants (by simp), isAttrStable_encodeB64 iv]

theorem importToken_startKeyGeneration :
    importToken (im.inside [Uris.elementEncryptionData, Uris.elementFileEntry])
      (.empty (tag Uris.elementStartKeyGeneration (startKeyAttrs.map fun p => attr p.1 p.2))) =
      some (({ im with bag := { im.bag with startKeyAlg := some .sha256 } } : Import).inside
          [Uris.elementEncryptionData, Uris.elementFileEntry]) := by
  refine importToken_empty (by decide) (by decide) startKeyAttrs_fixed ?_
    (by decide) (enter_startKeyGeneration.trans doStartKeyAlg_written)
  intro p hp
  obtain rfl | rfl : p = _ ∨ p = _ := by simpa [startKeyAttrs] using hp
  exacts [isAttrStable_constants (by simp),
    isAttrStable_constants (by simp)]

theorem importToken_keyDerivation (h : im.ignoreEncryptData = false) :
    importToken (im.inside [Uris.elementEncryptionData, Uris.elementFileEntry])
      (.empty (tag Uris.elementKeyDerivation
        ((keyDerivationAttrs salt params).map fun p => attr p.1 p.2))) =
      some (({ im with
        derivedKeySize := 32
        bag := { im.bag with
          kdf := some .argon2id
          argon2Args := some (params.t, params.mKib, params.p)
          salt := some salt
          derivedKeySize := some 32 } } : Import).inside
          [Uris.elementEncryptionData, Uris.elementFileEntry]) := by
  refine importToken_empty (by decide) (by decide) keyDerivationAttrs_fixed ?_
    (by decide) (enter_keyDerivation.trans (doKeyDerivation_written h))
  have hr := And.intro params.t_range (And.intro params.m_range params.p_range)
  simp only [argon2MinTCost, argon2MinMCostKib, argon2MinPCost] at hr
  intro p hp
  obtain rfl | rfl | rfl | rfl | rfl | rfl :
      p = _ ∨ p = _ ∨ p = _ ∨ p = _ ∨ p = _ ∨ p = _ := by simpa [keyDerivationAttrs] using hp
  exacts [isAttrStable_constants (by simp), isAttrStable_decimalInt (by omega),
    isAttrStable_decimalInt (by omega), isAttrStable_decimalInt (by omega),
    isAttrStable_encodeB64 salt, isAttrStable_constants (by simp)]

/-- The import of the written manifest: one row, with everything it was made of. -/
theorem foldlM_written (h0 : 0 ≤ size) (h : size ≤ 2 ^ 63 - 1)
    (hm : ∀ mt ∈ mediaType, ∀ c ∈ mt, isAttrStable c) :
    (manifestEvents size iv salt mediaType params).foldlM importToken {} = some {
      derivedKeySize := 32
      packageVersion := some wholesomeProfile.odfVersion
      bags := [writtenBag size iv salt mediaType params] } := by
  have hclose : ∀ {im : Import}, importToken
      (im.inside [Uris.elementEncryptionData, Uris.elementFileEntry])
      (.close (utf8Encode Uris.elementEncryptionData)) =
        some (im.inside [Uris.elementFileEntry]) := by
    intro im
    rw [importToken, utf8Lossy_encode, endElement_inside (by decide) (by decide)]
  have hrow : ∀ {im : Import}, importToken (im.inside [Uris.elementFileEntry])
      (.close (utf8Encode Uris.elementFileEntry)) = some (im.finishFileEntry.inside []) := by
    intro im
    rw [importToken, utf8Lossy_encode, endElement_fileEntry]
  have hroot : ∀ {im : Import}, importToken (im.inside [])
      (.close (utf8Encode Uris.elementManifest)) =
        some { im with stack := [], beyondCap := 0 } := by
    intro im
    rw [importToken, utf8Lossy_encode]
    rfl
  -- The events are run one by one through the importer.
  rw [manifestEvents_eq]
  simp only [List.foldlM_cons, List.foldlM_nil, Option.bind_eq_bind]
  rw [show importToken {} (.other _) = some {} from rfl, Option.bind_some, importToken_root,
    Option.bind_some, importToken_fileEntry h0 h hm, Option.bind_some,
    importToken_encryptionData rfl rfl, Option.bind_some, importToken_algorithm rfl,
    Option.bind_some, importToken_startKeyGeneration, Option.bind_some,
    importToken_keyDerivation rfl, Option.bind_some, hclose, Option.bind_some, hrow,
    Option.bind_some, hroot, Option.bind_some]
  rfl

end Import

/-! ### The package -/

/-- The members of the package that `encrypt` writes. -/
def writtenNames : List Str :=
  [ascii "mimetype", ascii "encrypted-package", ascii "META-INF/manifest.xml"]

/-- The tree of these members, `package` being the one of the payload. -/
def writtenTree (package : TreeNode) : FolderTree where
  children := [
    (ascii "mimetype", .stream false none),
    (ascii "encrypted-package", package),
    (ascii "META-INF", .folder {} [(ascii "manifest.xml", .stream false none)])]
  recent := [(ascii "META-INF", [ascii "META-INF"])]

theorem fromZipNames_written :
    FolderTree.fromZipNames writtenNames = .ok (writtenTree (.stream false none)) := rfl

/-- The row that `encrypt` writes. -/
def writtenRow (size : ℤ) (iv salt : Bytes) (params : Argon2Params) : EntryEncryption where
  path := ascii "encrypted-package"
  cipher := .aesGcmW3c
  kdf := .argon2id params.t params.mKib params.p salt
  startKey := .sha256
  checksum := .none
  size := size
  iv := iv
  derivedKeyLen := wholesomeProfile.derivedKeyLen

/-- What the second stage makes of it. -/
def writtenStage (size : ℤ) (iv salt : Bytes) (mediaType : Option Str) (params : Argon2Params) :
    StageB where
  tree := writtenTree (.stream true (some (mediaType.getD [])))
  oFirstVersion := some wholesomeProfile.odfVersion
  packageEncrypted := true
  common := some (writtenRow size iv salt params)
  encryptedEntries := [writtenRow size iv salt params]
  encryptedPackageComplete := true

theorem row_written : StageB.row { tree := writtenTree (.stream false none) }
    (writtenBag size iv salt mediaType params) =
      .ok (writtenStage size iv salt mediaType params) := rfl

/-- The `mimetype` member, which no root row contradicts, changes nothing but
    what is known of the root. -/
theorem withMimetype_of_noMedia {st : StageB} (h : nonempty st.tree.info.mediaType = false)
    (z : Bool) (mimetype : Option Str) :
    ∃ info, st.withMimetype z mimetype = .ok { st with tree := { st.tree with info } } := by
  cases mimetype with
  | none => exact ⟨st.tree.info, rfl⟩
  | some mt =>
    simp only [StageB.withMimetype, h]
    by_cases hv : ascii "application/vnd." <+: mt
    · simp only [hv, if_true, FolderTree.setFolderMeta]
      exact ⟨_, rfl⟩
    · simp only [hv, if_false]
      exact ⟨st.tree.info, rfl⟩

/-- The manifest that `encrypt` writes is read back as one bag, which makes its
    package wholesome, with the one row that it was made of. -/
theorem manifestEvents_readBack (h0 : 0 ≤ size) (h : size ≤ 2 ^ 63 - 1)
    (hm : ∀ mt ∈ mediaType, ∃ raw, validateMediaType raw = .ok mt) :
    ∃ im bag tree,
      (manifestEvents size iv salt mediaType params).foldlM importToken {} = some im ∧
      im.stack = [] ∧ im.bags = [bag] ∧
      FolderTree.fromZipNames writtenNames = .ok tree ∧
      ∀ mimetype, ∃ cls,
        stageB im.bags tree (tree.rootHasEntry (ascii "encrypted-package")) mimetype = .ok cls ∧
        cls.mode = .wholesome ∧ cls.packageEncrypted ∧ ¬ cls.odf12Fatal ∧
        cls.encryptedEntries = [{
          path := ascii "encrypted-package"
          cipher := .aesGcmW3c
          kdf := .argon2id params.t params.mKib params.p salt
          startKey := .sha256
          checksum := .none
          size := size
          iv := iv
          derivedKeyLen := 32 }] := by
  have hs : ∀ mt ∈ mediaType, ∀ c ∈ mt, isAttrStable c := fun mt hmt =>
    (hm mt hmt).elim fun _ hv => isAttrStable_of_validate hv
  refine ⟨_, _, _, Import.foldlM_written h0 h hs, rfl, rfl, fromZipNames_written, ?_⟩
  intro mimetype
  -- The state after the one row; a media type read off the package changes only the
  -- information of the root.
  let st := writtenStage size iv salt mediaType params
  obtain ⟨info, hw⟩ := @withMimetype_of_noMedia st rfl true mimetype
  refine ⟨({ st with tree := { st.tree with info } } : StageB).classification true, ?_, rfl, rfl,
    Bool.false_ne_true, rfl⟩
  rw [stageB, List.foldlM_cons, row_written]
  exact congrArg (· >>= fun st => Except.ok (st.classification true)) hw

/-- The manifest of four KiB, with a media type whose markup is escaped. -/
theorem manifestEvents_readBack_sample :
    ∃ im bag tree,
      (manifestEvents 4096 (bytesOf "twelve bytes") (bytesOf "sixteen bytes of") (some (ascii "a&b"))
        .libreofficeDefault).foldlM importToken {} = some im ∧
      im.stack = [] ∧ im.bags = [bag] ∧
      FolderTree.fromZipNames writtenNames = .ok tree ∧
      ∀ mimetype, ∃ cls,
        stageB im.bags tree (tree.rootHasEntry (ascii "encrypted-package")) mimetype = .ok cls ∧
        cls.mode = .wholesome ∧ cls.packageEncrypted ∧ ¬ cls.odf12Fatal ∧
        cls.encryptedEntries = [{
          path := ascii "encrypted-package"
          cipher := .aesGcmW3c
          kdf := .argon2id 3 65536 4 (bytesOf "sixteen bytes of")
          startKey := .sha256
          checksum := .none
          size := 4096
          iv := bytesOf "twelve bytes"
          derivedKeyLen := 32 }] :=
  manifestEvents_readBack (by decide) (by decide) fun _ h =>
    ⟨bytesOf "a&b", by cases h; decide⟩

end

end OdfCrypto

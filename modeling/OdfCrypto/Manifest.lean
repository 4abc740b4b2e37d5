import OdfCrypto.Base64
import OdfCrypto.Limits
import OdfCrypto.Uris
import OdfCrypto.Lib.Assoc

/-!
# The manifest import

`ManifestImport` (`manifest.rs`): the elements of `META-INF/manifest.xml`, with
their attributes, become property bags, one for each `file-entry`. The state
`Import` carries what leaks from one element to later ones; `startElement` and
`endElement` are its transitions.
-/

namespace OdfCrypto

open ByteStream Text

/-- The attributes of an element, with their names converted. -/
abbrev Attrs := List (Str × Str)

/-- The value of an attribute, empty if it is not there. -/
def Attrs.value (attrs : Attrs) (name : Str) : Str := (attrs.lookup name).getD []

structure StackFrame where
  convertedName : Str
  namespaces : List (Str × Str)
  valid : Bool
  deriving DecidableEq

/-- Deeper than any manifest that is acted on. -/
def maxDepth : ℕ := 16

/-- The state of the import. -/
structure Import where
  /-- The open elements, innermost first. -/
  stack : List StackFrame := []
  /-- How many elements beyond `maxDepth` are open. -/
  beyondCap : ℕ := 0
  bags : List PropertyBag := []
  bag : PropertyBag := {}
  ignoreEncryptData : Bool := false
  pgpEncryption : Bool := false
  /-- The key size so far, `0` if there is none. -/
  derivedKeySize : ℤ := 0
  packageVersion : Option Str := none
  keys : List EncryptedKey := []
  currentKey : Option EncryptedKey := none
  currentCharacters : Str := []
  deriving DecidableEq

/-- The name in the manifest namespace that `name` stands for, if `namespaces`
    makes it one. -/
def convertNameWithNs (name : Str) (namespaces : List (Str × Str)) : Option Str :=
  let (alias_, local_) := match splitOnce ':' name with
    | some (alias_, local_) => (alias_, local_)
    | none => ([], name)
  ((namespaces.lookup alias_).filter Uris.isManifestNamespace).map
    fun _ => Uris.manifestPrefix ++ local_

/-- Convert a name by the namespaces of the open elements, innermost first. -/
def convertName (stack : List StackFrame) (name : Str) : Str :=
  (stack.findSome? fun frame => convertNameWithNs name frame.namespaces).getD name

/-- The prefix that an attribute declares a namespace for, if it declares one. -/
def declaredPrefix (key : Str) : Option Str :=
  if key = ascii "xmlns" then some [] else List.isPrefixOf? (ascii "xmlns:") key

/-- The namespaces that some attributes declare. -/
def declaredNamespaces (rawAttrs : Attrs) : List (Str × Str) :=
  rawAttrs.foldl (fun namespaces (key, value) =>
    match declaredPrefix key with
    | some alias_ => Assoc.assign alias_ value namespaces
    | none => namespaces) []

/-- The other attributes, with their names converted. -/
def convertedAttrs (stack : List StackFrame) (rawAttrs : Attrs) : Attrs :=
  (rawAttrs.filter fun (key, _) => (declaredPrefix key).isNone).foldl
    (fun attrs (key, value) => Assoc.assign (convertName stack key) value attrs) []

namespace Import

/-- Open an element: its converted name and attributes. -/
def pushNameAndNamespaces (im : Import) (rawName : Str) (rawAttrs : Attrs) :
    (Str × Attrs) × Import :=
  let namespaces := declaredNamespaces rawAttrs
  let converted := (convertNameWithNs rawName namespaces).getD (convertName im.stack rawName)
  let stack := ⟨converted, namespaces, true⟩ :: im.stack
  ((converted, convertedAttrs stack rawAttrs), { im with stack })

/-- Whether the parent of the innermost element is valid. -/
def parentValid (im : Import) : Bool := (im.stack[1]?.map StackFrame.valid).getD true

def invalidateCurrent (im : Import) : Import :=
  match im.stack with
  | frame :: stack => { im with stack := { frame with valid := false } :: stack }
  | [] => im

def doFileEntry (im : Import) (attrs : Attrs) : Import :=
  { im with
    bag := {
      fullPath := attrs.value Uris.attrFullPath
      mediaType := some (attrs.value Uris.attrMediaType)
      version := (attrs.lookup Uris.attrVersion).filter fun v => ¬ v.isEmpty
      size := ((attrs.lookup Uris.attrSize).filter fun v => ¬ v.isEmpty).map parseI64 } }

def doEncryptedKey (im : Import) : Import := { im with currentKey := some {} }

def doEncryptionMethod (im : Import) (attrs : Attrs) (algoAttr : Str) : Import :=
  if im.currentKey.isNone ∨ ¬ Uris.isPgpWrapUri (attrs.value algoAttr) then
    { im with ignoreEncryptData := true }
  else im

/-- Store the decoded characters in the key under way. The characters are
    cleared when a slot is started, not when it is read. -/
def storeInKey (im : Import) (store : EncryptedKey → Bytes → EncryptedKey) : Import :=
  match im.currentKey with
  | some key => { im with currentKey := some (store key (decodeB64 im.currentCharacters)) }
  | none => { im with ignoreEncryptData := true }

def doEncryptedCipherValue (im : Import) : Import :=
  im.storeInKey fun key value => { key with cipherValue := value }

def doEncryptedKeyId (im : Import) : Import :=
  im.storeInKey fun key value => { key with keyId := value }

def doEncryptedKeyPacket (im : Import) : Import :=
  im.storeInKey fun key value => { key with keyPacket := value }

def doEncryptionData (im : Import) (attrs : Attrs) : Import :=
  let im := { im with derivedKeySize := 0 }
  if im.ignoreEncryptData then im
  else
    let digestAlg := (Uris.checksumAlgFromType (attrs.value Uris.attrChecksumType)).or
      im.bag.digestAlg
    let digest :=
      if digestAlg.isSome then some (decodeB64 (attrs.value Uris.attrChecksum)) else im.bag.digest
    { im with bag := { im.bag with digestAlg, digest } }

def doAlgorithm (im : Import) (attrs : Attrs) : Import :=
  if im.ignoreEncryptData then im
  else
    match Uris.cipherFromAlgorithmName (attrs.value Uris.attrAlgorithmName) with
    | some (cipher, implied) =>
      { im with
        derivedKeySize := implied.getD im.derivedKeySize
        bag := { im.bag with
          encAlg := some cipher
          iv := some (decodeB64 (attrs.value Uris.attrIv)) } }
    | none => { im with ignoreEncryptData := true }

/-- The start key is read even where the encryption data is ignored. -/
def doStartKeyAlg (im : Import) (attrs : Attrs) : Import :=
  match Uris.startKeyFromName (attrs.value Uris.attrStartKeyName) with
  | some alg => { im with bag := { im.bag with startKeyAlg := some alg } }
  | none => { im with ignoreEncryptData := true }

/-- An Argon2 attribute, under its manifest name, else its `loext` one. -/
def argon2Attr (attrs : Attrs) (manifest loext : Str) : Str :=
  ((attrs.lookup manifest).or (attrs.lookup loext)).getD []

/-- The Argon2 parameters of a row, or its iteration count. -/
def doKdfArgs (im : Import) (attrs : Attrs) (kdf : KdfId) : Import :=
  if kdf = .argon2id then
    let t := parseI32 (argon2Attr attrs Uris.attrArgon2T Uris.attrArgon2TLo)
    let m := parseI32 (argon2Attr attrs Uris.attrArgon2M Uris.attrArgon2MLo)
    let p := parseI32 (argon2Attr attrs Uris.attrArgon2P Uris.attrArgon2PLo)
    if t > 0 ∧ m > 0 ∧ p > 0 then { im with bag := { im.bag with argon2Args := some (t, m, p) } }
    else { im with ignoreEncryptData := true }
  else
    { im with bag := { im.bag with
      iterationCount := some (parseI32 (attrs.value Uris.attrIterationCount)) } }

/-- The key size after a `key-derivation` element. -/
def keySizeOf (attrs : Attrs) (derivedKeySize : ℤ) : ℤ :=
  match (attrs.lookup Uris.attrKeySize).filter fun v => ¬ v.isEmpty with
  | some keySize => parseI32 keySize
  | none => if derivedKeySize = 0 then 16 else derivedKeySize

def doKeyDerivation (im : Import) (attrs : Attrs) : Import :=
  if im.ignoreEncryptData then im
  else
    let name := attrs.value Uris.attrKeyDerivationName
    match Uris.passwordKdfFromName name with
    | some kdf =>
      let im := { im with bag := { im.bag with kdf := some kdf } }.doKdfArgs attrs kdf
      let derivedKeySize := keySizeOf attrs im.derivedKeySize
      { im with
        derivedKeySize
        bag := { im.bag with
          salt := some (decodeB64 (attrs.value Uris.attrSalt))
          derivedKeySize := some derivedKeySize } }
    | none =>
      if im.pgpEncryption ∧ name = Uris.pgpName then
        { im with bag := { im.bag with kdf := some .pgpRsaOaepMgf1p } }
      else { im with ignoreEncryptData := true }

/-- What opening the element `converted` at some level does. -/
def enter (im : Import) (converted : Str) (attrs : Attrs) : (level : ℕ) → Import
  | 1 =>
    let im := match (attrs.lookup Uris.attrVersion).filter fun v => ¬ v.isEmpty with
      | some v => { im with packageVersion := some v }
      | none => im
    if converted ≠ Uris.elementManifest then im.invalidateCurrent else im
  | 2 =>
    if converted = Uris.elementFileEntry then im.doFileEntry attrs
    else if converted = Uris.elementManifestEncryptedKey then im.doEncryptedKey
    else if converted = Uris.elementLoextKeyinfo then im
    else im.invalidateCurrent
  | 3 =>
    if converted = Uris.elementEncryptionData then im.doEncryptionData attrs
    else if converted = Uris.elementLoextEncryptedKey then im.doEncryptedKey
    else if converted = Uris.elementManifestEncryptionMethod then
      im.doEncryptionMethod attrs Uris.attrPgpAlgorithm
    else if converted = Uris.elementManifestKeyinfo ∨
        converted = Uris.elementManifestCipherData then im
    else im.invalidateCurrent
  | 4 =>
    if converted = Uris.elementAlgorithm then im.doAlgorithm attrs
    else if converted = Uris.elementKeyDerivation then im.doKeyDerivation attrs
    else if converted = Uris.elementStartKeyGeneration then im.doStartKeyAlg attrs
    else if converted = Uris.elementLoextEncryptionMethod then
      im.doEncryptionMethod attrs Uris.attrPgpAlgorithmLo
    else if converted = Uris.elementLoextKeyinfoDsig ∨ converted = Uris.elementLoextCipherData ∨
        converted = Uris.elementManifestPgpData then im
    else if converted = Uris.elementManifestCipherValue then { im with currentCharacters := [] }
    else im.invalidateCurrent
  | 5 =>
    if converted = Uris.elementLoextPgpData then im
    else if converted = Uris.elementLoextCipherValue ∨ converted = Uris.elementManifestPgpKeyId ∨
        converted = Uris.elementManifestPgpKeyPacket then { im with currentCharacters := [] }
    else im.invalidateCurrent
  | 6 =>
    if converted = Uris.elementLoextPgpKeyId ∨ converted = Uris.elementLoextPgpKeyPacket then
      { im with currentCharacters := [] }
    else im.invalidateCurrent
  | _ => im.invalidateCurrent

/-- Open an element. The second level has no check of its parent. -/
def startElement (im : Import) (rawName : Str) (rawAttrs : Attrs) : Import :=
  if im.beyondCap > 0 ∨ im.stack.length ≥ maxDepth then
    { im with beyondCap := im.beyondCap + 1 }
  else
    let ((converted, attrs), im) := im.pushNameAndNamespaces rawName rawAttrs
    let level := im.stack.length
    if level ≥ 3 ∧ ¬ im.parentValid then im.invalidateCurrent
    else im.enter converted attrs level

/-- Close a valid `file-entry`: its bag is complete. -/
def finishFileEntry (im : Import) : Import :=
  let bag := im.bag
  let bag :=
    if im.bags.isEmpty ∧ im.packageVersion.isSome ∧ bag.version.isNone then
      { bag with version := im.packageVersion }
    else bag
  let bag :=
    if ¬ im.ignoreEncryptData ∧ ¬ im.keys.isEmpty ∧ im.bags.isEmpty then
      { bag with keyInfo := some ⟨im.keys⟩ }
    else bag
  { im with ignoreEncryptData := false, bags := im.bags ++ [bag], bag := {} }

/-- Close a valid `encrypted-key`. A nested one leaves the outer one empty. -/
def finishEncryptedKey (im : Import) : Import :=
  if im.ignoreEncryptData then { im with currentKey := none }
  else
    { im with
      keys := im.keys ++ [im.currentKey.getD {}]
      pgpEncryption := true
      currentKey := none }

/-- Close an element that holds characters. -/
def finishCharacters (im : Import) (converted : Str) (level : ℕ) : Import :=
  if converted = Uris.elementManifestCipherValue ∧ level = 4 ∨
      converted = Uris.elementLoextCipherValue ∧ level = 5 then im.doEncryptedCipherValue
  else if converted = Uris.elementManifestPgpKeyId ∧ level = 5 ∨
      converted = Uris.elementLoextPgpKeyId ∧ level = 6 then im.doEncryptedKeyId
  else if converted = Uris.elementManifestPgpKeyPacket ∧ level = 5 ∨
      converted = Uris.elementLoextPgpKeyPacket ∧ level = 6 then im.doEncryptedKeyPacket
  else im

/-- Close an element; a name that is not the innermost one's closes nothing. -/
def endElement (im : Import) (rawName : Str) : Import :=
  if im.beyondCap > 0 then { im with beyondCap := im.beyondCap - 1 }
  else
    match im.stack with
    | [] => im
    | frame :: stack =>
      let converted := convertName im.stack rawName
      if frame.convertedName ≠ converted then im
      else
        let level := im.stack.length
        let im :=
          if converted = Uris.elementFileEntry ∧ frame.valid then im.finishFileEntry
          else if (converted = Uris.elementLoextEncryptedKey ∨
              converted = Uris.elementManifestEncryptedKey) ∧ frame.valid then
            im.finishEncryptedKey
          else im
        { im.finishCharacters converted level with stack }

def characters (im : Import) (text : Str) : Import :=
  { im with currentCharacters := im.currentCharacters ++ text }

end Import

/-! ### The events of the XML reader -/

/-- A start tag: its name and its attributes, `none` for a malformed one. -/
structure Tag where
  name : Bytes
  attrs : List (Option (Bytes × Bytes))
  deriving DecidableEq

/-- An event of the XML reader, with its raw bytes. -/
inductive Token
  | start (tag : Tag)
  | empty (tag : Tag)
  | close (name : Bytes)
  | text (raw : Bytes)
  | cdata (raw : Bytes)
  | generalRef (raw : Bytes)
  | other (raw : Bytes)
  deriving DecidableEq

/-- What the XML reader makes of a document: its events, up to the end of the
    document or to an error with its text. -/
abbrev XmlReader := Bytes → List Token × Option Str

/-- The attributes of a tag, their values normalized. -/
def readAttrs (tag : Tag) : Option Attrs :=
  tag.attrs.mapM fun attr => do
    let (key, value) ← attr
    let raw ← utf8Decode value
    return (utf8Lossy key, normalizeAttrValue raw)

/-- The import of one event. An empty element opens and closes. -/
def importToken (im : Import) : Token → Option Import
  | .start tag => (readAttrs tag).map (im.startElement (utf8Lossy tag.name))
  | .empty tag => (readAttrs tag).map fun attrs =>
    (im.startElement (utf8Lossy tag.name) attrs).endElement (utf8Lossy tag.name)
  | .close name => some (im.endElement (utf8Lossy name))
  | .text raw => (utf8Decode raw).map im.characters
  | .cdata raw => (utf8Decode raw).map im.characters
  | .generalRef raw => (utf8Decode raw).map fun name => im.characters (expandRef name)
  | .other _ => some im

/-- The property bags of a manifest; none, if it is not well formed. -/
def parseManifest (xmlReader : XmlReader) (xml : Bytes) : List PropertyBag :=
  let (tokens, error) := xmlReader xml
  match tokens.foldlM importToken {} with
  | none => []
  | some im => if error.isSome ∨ ¬ im.stack.isEmpty then [] else im.bags

end OdfCrypto

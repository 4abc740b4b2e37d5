import OdfCrypto.Manifest

/-!
# The rows of a manifest

The import of a manifest that is made of `file-entry` elements, with their
encryption data: the bag of a row is what comes of this row alone, whatever was
in the rows before it.

* `Import.onRow`: a state of the import, with what the elements of a row change;
* `Import.fileEntry_onRow`: what one row does to the import;
* `ManifestTree.bags_run`: the bags, one for each row;
* `ManifestTree.row_independent`: two manifests with one row in common.
-/

namespace OdfCrypto

open Text

/-! ### Manifests as trees -/

/-- An element, without what is in it. -/
structure Element where
  name : Str
  attrs : Attrs

/-- An element with characters only. -/
structure Leaf extends Element where
  text : List Str := []

/-- An element with leaves, and characters between them. -/
structure EncryptionData extends Element where
  content : List (Str ⊕ Leaf)

structure FileEntry extends Element where
  content : List (Str ⊕ EncryptionData)

/-- The root of a manifest. -/
structure ManifestTree extends Element where
  content : List (Str ⊕ FileEntry)

/-- The elements, without the characters between them. -/
def elements {α : Type} (content : List (Str ⊕ α)) : List α := content.filterMap Sum.getRight?

namespace Import

/-- Import an element, with what is in it. -/
def within (im : Import) (e : Element) (inside : Import → Import) : Import :=
  (inside (im.startElement e.name e.attrs)).endElement e.name

/-- Import some elements, and the characters between them. -/
def each {α : Type} (f : Import → α → Import) (im : Import) (content : List (Str ⊕ α)) : Import :=
  content.foldl (fun im x => x.elim im.characters (f im)) im

def leaf (im : Import) (l : Leaf) : Import :=
  im.within l.toElement fun im => l.text.foldl characters im

def encryptionData (im : Import) (d : EncryptionData) : Import :=
  im.within d.toElement fun im => im.each leaf d.content

def fileEntry (im : Import) (e : FileEntry) : Import :=
  im.within e.toElement fun im => im.each encryptionData e.content

end Import

/-- Import a manifest. -/
def ManifestTree.run (m : ManifestTree) : Import :=
  ({} : Import).within m.toElement fun im => im.each Import.fileEntry m.content

/-! ### Names -/

namespace Element

variable (stack : List StackFrame) (e : Element)

/-- The frame of an element inside others. -/
def frame : StackFrame :=
  ⟨(convertNameWithNs e.name (declaredNamespaces e.attrs)).getD (convertName stack e.name),
    declaredNamespaces e.attrs, true⟩

/-- The open elements inside it. -/
def opened : List StackFrame := e.frame stack :: stack

/-- The attributes, with their names converted. -/
def converted : Attrs := convertedAttrs (e.opened stack) e.attrs

variable {stack e}

/-- The end tag has the name that the start tag had. -/
theorem convertName_opened : convertName (e.opened stack) e.name = (e.frame stack).convertedName := by
  rw [convertName, opened, List.findSome?_cons, frame]
  rcases convertNameWithNs e.name (declaredNamespaces e.attrs) with - | name <;> rfl

end Element

/-- A row, with its names converted. -/
structure Row where
  attrs : Attrs
  /-- Its encryption data: the attributes, and the name and the attributes of each leaf. -/
  data : List (Attrs × List (Str × Attrs))

/-- Encryption data of a row inside some open elements. -/
def EncryptionData.data (stack : List StackFrame) (d : EncryptionData) :
    Attrs × List (Str × Attrs) :=
  (d.converted stack, (elements d.content).map fun l =>
    ((l.frame (d.opened stack)).convertedName, l.converted (d.opened stack)))

/-- The row of a file entry inside some open elements. -/
def FileEntry.row (stack : List StackFrame) (e : FileEntry) : Row where
  attrs := e.converted stack
  data := (elements e.content).map (EncryptionData.data (e.opened stack))

/-- The names of the leaves of encryption data. -/
def leafNames : List Str :=
  [Uris.elementAlgorithm, Uris.elementStartKeyGeneration, Uris.elementKeyDerivation]

/-- A file entry that is made of encryption data, made of such leaves. -/
structure FileEntry.Built (stack : List StackFrame) (e : FileEntry) : Prop where
  name : (e.frame stack).convertedName = Uris.elementFileEntry
  data : ∀ d ∈ elements e.content,
    (d.frame (e.opened stack)).convertedName = Uris.elementEncryptionData ∧
      ∀ l ∈ elements d.content,
        (l.frame (d.opened (e.opened stack))).convertedName ∈ leafNames

/-! ### What the elements of a row change -/

namespace Import

/-- A state of the import, with what the elements of a row change as it is in
    another state. -/
def onRow (b t : Import) : Import :=
  { b with
    bag := t.bag
    ignoreEncryptData := t.ignoreEncryptData
    pgpEncryption := t.pgpEncryption
    derivedKeySize := t.derivedKeySize }

variable {b t im : Import} {attrs : Attrs} {stack : List StackFrame} {c : Str}

theorem onRow_doEncryptionData :
    (onRow b t).doEncryptionData attrs = onRow b (t.doEncryptionData attrs) := by
  rcases t with ⟨_, _, _, _, ignore, _, _, _, _, _, _⟩
  cases ignore <;> rfl

theorem onRow_doAlgorithm : (onRow b t).doAlgorithm attrs = onRow b (t.doAlgorithm attrs) := by
  rcases t with ⟨_, _, _, _, ignore, _, _, _, _, _, _⟩
  rcases ignore
  · rcases hc : Uris.cipherFromAlgorithmName (attrs.value Uris.attrAlgorithmName) with
      - | ⟨cipher, implied⟩ <;> simp only [doAlgorithm, onRow, hc] <;> rfl
  · rfl

theorem onRow_doStartKeyAlg :
    (onRow b t).doStartKeyAlg attrs = onRow b (t.doStartKeyAlg attrs) := by
  rcases hs : Uris.startKeyFromName (attrs.value Uris.attrStartKeyName) with - | alg <;>
    simp only [doStartKeyAlg, onRow, hs]

theorem onRow_doKdfArgs (kdf : KdfId) :
    (onRow b t).doKdfArgs attrs kdf = onRow b (t.doKdfArgs attrs kdf) := by
  unfold doKdfArgs
  split
  · simp only []
    split <;> rfl
  · rfl

def withKdf (im : Import) (kdf : KdfId) : Import :=
  { im with bag := { im.bag with kdf := some kdf } }

/-- The salt and the key size of a `key-derivation` element. -/
def doSalt (im : Import) (attrs : Attrs) : Import :=
  { im with
    derivedKeySize := keySizeOf attrs im.derivedKeySize
    bag := { im.bag with
      salt := some (decodeB64 (attrs.value Uris.attrSalt))
      derivedKeySize := some (keySizeOf attrs im.derivedKeySize) } }

theorem doKeyDerivation_some {kdf : KdfId} (hi : im.ignoreEncryptData = false)
    (hk : Uris.passwordKdfFromName (attrs.value Uris.attrKeyDerivationName) = some kdf) :
    im.doKeyDerivation attrs = ((im.withKdf kdf).doKdfArgs attrs kdf).doSalt attrs := by
  unfold doKeyDerivation
  rw [if_neg (by rw [hi]; exact Bool.false_ne_true)]
  simp only [hk]
  rfl

theorem doKeyDerivation_none (hi : im.ignoreEncryptData = false)
    (hk : Uris.passwordKdfFromName (attrs.value Uris.attrKeyDerivationName) = none) :
    im.doKeyDerivation attrs =
      if im.pgpEncryption ∧ attrs.value Uris.attrKeyDerivationName = Uris.pgpName then
        im.withKdf .pgpRsaOaepMgf1p
      else { im with ignoreEncryptData := true } := by
  unfold doKeyDerivation
  rw [if_neg (by rw [hi]; exact Bool.false_ne_true)]
  simp only [hk]
  rfl

theorem onRow_doKeyDerivation :
    (onRow b t).doKeyDerivation attrs = onRow b (t.doKeyDerivation attrs) := by
  rcases hi : t.ignoreEncryptData
  · have hi' : (onRow b t).ignoreEncryptData = false := hi
    rcases hk : Uris.passwordKdfFromName (attrs.value Uris.attrKeyDerivationName) with - | kdf
    · have hp : (onRow b t).pgpEncryption = t.pgpEncryption := rfl
      rw [doKeyDerivation_none hi hk, doKeyDerivation_none hi' hk, hp]
      split <;> rfl
    · have hkdf : (onRow b t).withKdf kdf = onRow b (t.withKdf kdf) := rfl
      rw [doKeyDerivation_some hi hk, doKeyDerivation_some hi' hk, hkdf, onRow_doKdfArgs]
      rfl
  · have hi' : (onRow b t).ignoreEncryptData = true := hi
    rw [doKeyDerivation, if_pos hi', doKeyDerivation, if_pos hi]

/-- A leaf of encryption data changes what belongs to the row, and by that alone. -/
theorem onRow_enter {name : Str} (h : name ∈ leafNames) :
    (onRow b t).enter name attrs 4 = onRow b (t.enter name attrs 4) := by
  rcases List.mem_cons.1 h with rfl | h
  · exact onRow_doAlgorithm
  rcases List.mem_cons.1 h with rfl | h
  · exact onRow_doStartKeyAlg
  rcases List.mem_singleton.1 h with rfl
  exact onRow_doKeyDerivation

/-! ### Opening and closing -/

theorem startElement_eq {e : Element} (h0 : im.beyondCap = 0) (hl : im.stack.length < maxDepth)
    (hv : im.stack.length < 2 ∨ im.stack.head?.map StackFrame.valid = some true) :
    im.startElement e.name e.attrs =
      { im with stack := e.opened im.stack }.enter (e.frame im.stack).convertedName
        (e.converted im.stack) (im.stack.length + 1) := by
  have hcap : ¬ (im.beyondCap > 0 ∨ im.stack.length ≥ maxDepth) := by omega
  have hparent : ¬ (im.stack.length + 1 ≥ 3 ∧
      ¬ ({ im with stack := e.opened im.stack } : Import).parentValid = true) := by
    rintro ⟨hlen, hp⟩
    rcases hv with hv | hv
    · omega
    · rw [parentValid, Element.opened, List.getElem?_cons_succ, ← List.head?_eq_getElem?, hv] at hp
      exact hp rfl
  unfold startElement
  rw [if_neg hcap]
  exact if_neg hparent

/-- The names of elements that are closed without anything else. -/
def plainNames : List Str := Uris.elementEncryptionData :: leafNames

/-- The names of the elements that are closed with something else. -/
def endNames : List Str :=
  [Uris.elementFileEntry, Uris.elementLoextEncryptedKey, Uris.elementManifestEncryptedKey,
    Uris.elementManifestCipherValue, Uris.elementLoextCipherValue, Uris.elementManifestPgpKeyId,
    Uris.elementLoextPgpKeyId, Uris.elementManifestPgpKeyPacket, Uris.elementLoextPgpKeyPacket]

theorem not_mem_endNames {name : Str} (h : name ∈ plainNames) : name ∉ endNames := by
  revert name
  decide

theorem finishCharacters_eq {name : Str} {level : ℕ} (h : name ∉ endNames.tail) :
    im.finishCharacters name level = im := by
  simp only [endNames, List.tail_cons, List.mem_cons, List.not_mem_nil, not_or] at h
  obtain ⟨-, -, h1, h2, h3, h4, h5, h6, -⟩ := h
  simp only [finishCharacters, h1, h2, h3, h4, h5, h6, false_and, or_false, if_false]

/-- What closing the innermost element does, under its converted name. -/
theorem endElement_opened {e : Element} (h0 : im.beyondCap = 0) (hs : im.stack = e.opened stack)
    (hn : (e.frame stack).convertedName ∉ endNames.tail) :
    im.endElement e.name =
      { if (e.frame stack).convertedName = Uris.elementFileEntry then im.finishFileEntry
        else im with stack } := by
  have hname : convertName im.stack e.name = (e.frame stack).convertedName := by
    rw [hs, Element.convertName_opened]
  have hkeys : ¬ (((e.frame stack).convertedName = Uris.elementLoextEncryptedKey ∨
      (e.frame stack).convertedName = Uris.elementManifestEncryptedKey) ∧
        (e.frame stack).valid = true) := by
    rintro ⟨h | h, -⟩
    · exact hn (by rw [h]; decide)
    · exact hn (by rw [h]; decide)
  unfold endElement
  rw [if_neg (by omega)]
  split
  · next h => cases h.symm.trans hs
  · next frame rest h =>
    obtain ⟨rfl, rfl⟩ := List.cons.inj (hs.symm.trans h)
    simp only [hname]
    rw [if_neg (not_not.2 rfl), finishCharacters_eq hn, if_neg hkeys]
    by_cases hf : (e.frame stack).convertedName = Uris.elementFileEntry
    · rw [if_pos ⟨hf, rfl⟩, if_pos hf]
    · rw [if_neg fun h => hf h.1, if_neg hf]

theorem endElement_eq {e : Element} (h0 : im.beyondCap = 0) (hs : im.stack = e.opened stack)
    (hn : (e.frame stack).convertedName ∈ plainNames) :
    im.endElement e.name = { im with stack } := by
  have hend := not_mem_endNames hn
  have hentry : (e.frame stack).convertedName ≠ Uris.elementFileEntry :=
    fun h => hend (h ▸ List.mem_cons_self)
  rw [endElement_opened h0 hs fun h => hend (List.mem_cons_of_mem _ h), if_neg hentry]

/-! ### Rows -/

theorem storeInKey_bags (store : EncryptedKey → ByteStream.Bytes → EncryptedKey) :
    (im.storeInKey store).bags = im.bags := by
  unfold storeInKey
  split <;> rfl

theorem finishCharacters_bags (name : Str) (level : ℕ) :
    (im.finishCharacters name level).bags = im.bags := by
  unfold finishCharacters
  split
  · exact storeInKey_bags _
  · split
    · exact storeInKey_bags _
    · split
      · exact storeInKey_bags _
      · rfl

/-- Closing an element adds no bag, unless it is a valid file entry. -/
theorem endElement_bags (name : Str)
    (h : ∀ frame ∈ im.stack.head?, frame.convertedName ≠ Uris.elementFileEntry ∨
      frame.valid = false) : (im.endElement name).bags = im.bags := by
  unfold endElement
  split
  · rfl
  · split
    · rfl
    · next frame stack hs =>
      simp only []
      split
      · rfl
      · next hname =>
        have hf : ¬ (convertName im.stack name = Uris.elementFileEntry ∧ frame.valid = true) := by
          rintro ⟨hn, hv⟩
          rcases h frame (by rw [hs]; rfl) with hne | hv'
          · exact hne ((not_not.1 hname).trans hn)
          · rw [hv] at hv'; cases hv'
        rw [if_neg hf, finishCharacters_bags]
        split
        · unfold finishEncryptedKey
          split <;> rfl
        · rfl

/-- A state of the import, but for the characters so far. -/
def withCharacters (im : Import) (c : Str) : Import := { im with currentCharacters := c }

/-- Elements that do what `g` does with what is made of them, in a state in which
    characters do not matter. -/
theorem each_onRow {α β : Type} {f : Import → α → Import} {g : Import → β → Import} {k : α → β}
    {content : List (Str ⊕ α)}
    (h : ∀ x ∈ elements content, ∀ t c, ∃ c',
      f (onRow (b.withCharacters c) t) x = onRow (b.withCharacters c') (g t (k x))) :
    ∀ t c, ∃ c', (onRow (b.withCharacters c) t).each f content =
      onRow (b.withCharacters c') (((elements content).map k).foldl g t) := by
  induction content with
  | nil => exact fun t c => ⟨c, rfl⟩
  | cons x content ih =>
    intro t c
    rcases x with text | x
    · exact ih h t (c ++ text)
    · obtain ⟨c', hx⟩ := h x List.mem_cons_self t c
      have hrest := ih (fun y hy => h y (List.mem_cons_of_mem _ hy)) (g t (k x)) c'
      rw [← hx] at hrest
      exact hrest

theorem foldl_characters (texts : List Str) (t : Import) (c : Str) :
    ∃ c', texts.foldl characters (onRow (b.withCharacters c) t) = onRow (b.withCharacters c') t := by
  induction texts generalizing c with
  | nil => exact ⟨c, rfl⟩
  | cons text texts ih => exact ih (c ++ text)

def withBags (im : Import) (bags : List PropertyBag) : Import := { im with bags }

/-- A state of the import inside an element. -/
def openedBy (b : Import) (e : Element) : Import := { b with stack := e.opened b.stack }

theorem startElement_onRow {e : Element} (h0 : b.beyondCap = 0) (hl : b.stack.length < maxDepth)
    (hv : b.stack.length < 2 ∨ b.stack.head?.map StackFrame.valid = some true) (t : Import)
    (c : Str) :
    (onRow (b.withCharacters c) t).startElement e.name e.attrs =
      (onRow ((b.openedBy e).withCharacters c) t).enter (e.frame b.stack).convertedName
        (e.converted b.stack) (b.stack.length + 1) :=
  startElement_eq h0 hl hv

theorem endElement_onRow {e : Element} (h0 : b.beyondCap = 0)
    (hn : (e.frame b.stack).convertedName ∈ plainNames) (t : Import) (c : Str) :
    (onRow ((b.openedBy e).withCharacters c) t).endElement e.name = onRow (b.withCharacters c) t :=
  endElement_eq h0 rfl hn

/-- A leaf of encryption data. -/
theorem leaf_onRow {l : Leaf} (h0 : b.beyondCap = 0) (hlen : b.stack.length = 3)
    (hv : b.stack.head?.map StackFrame.valid = some true)
    (hn : (l.frame b.stack).convertedName ∈ leafNames) (t : Import) (c : Str) :
    ∃ c', (onRow (b.withCharacters c) t).leaf l = onRow (b.withCharacters c')
      (t.enter (l.frame b.stack).convertedName (l.converted b.stack) 4) := by
  have hl : b.stack.length < maxDepth := by rw [hlen]; decide
  obtain ⟨c', hc⟩ := foldl_characters (b := b.openedBy l.toElement) l.text
    (t.enter (l.frame b.stack).convertedName (l.converted b.stack) 4) c
  refine ⟨c', ?_⟩
  rw [leaf, within, startElement_onRow h0 hl (.inr hv), hlen, onRow_enter hn, hc,
    endElement_onRow h0 (List.mem_cons_of_mem _ hn)]

/-- Read some encryption data of a row. -/
def readData (im : Import) (d : Attrs × List (Str × Attrs)) : Import :=
  d.2.foldl (fun im l => im.enter l.1 l.2 4) (im.doEncryptionData d.1)

/-- Read a row. -/
def readRow (im : Import) (row : Row) : Import := row.data.foldl readData (im.doFileEntry row.attrs)

theorem encryptionData_onRow {d : EncryptionData} (h0 : b.beyondCap = 0) (hlen : b.stack.length = 2)
    (hv : b.stack.head?.map StackFrame.valid = some true)
    (hn : (d.frame b.stack).convertedName = Uris.elementEncryptionData)
    (hl : ∀ l ∈ elements d.content, (l.frame (d.opened b.stack)).convertedName ∈ leafNames)
    (t : Import) (c : Str) :
    ∃ c', (onRow (b.withCharacters c) t).encryptionData d =
      onRow (b.withCharacters c') (t.readData (d.data b.stack)) := by
  have hstack : b.stack.length < maxDepth := by rw [hlen]; decide
  have hstart : (onRow ((b.openedBy d.toElement).withCharacters c) t).enter
      Uris.elementEncryptionData (d.converted b.stack) 3 =
        onRow ((b.openedBy d.toElement).withCharacters c) (t.doEncryptionData (d.converted b.stack)) :=
    onRow_doEncryptionData
  have hleaf : ∀ l ∈ elements d.content, ∀ t c, ∃ c',
      (onRow ((b.openedBy d.toElement).withCharacters c) t).leaf l =
        onRow ((b.openedBy d.toElement).withCharacters c')
          (t.enter (l.frame (d.opened b.stack)).convertedName (l.converted (d.opened b.stack)) 4) :=
    fun l hm => leaf_onRow h0 (congrArg Nat.succ hlen) rfl (hl l hm)
  obtain ⟨c', hc⟩ := each_onRow (g := fun im (l : Str × Attrs) => im.enter l.1 l.2 4)
    (k := fun l : Leaf =>
      ((l.frame (d.opened b.stack)).convertedName, l.converted (d.opened b.stack)))
    hleaf (t.doEncryptionData (d.converted b.stack)) c
  refine ⟨c', ?_⟩
  rw [encryptionData, within, startElement_onRow h0 hstack (.inr hv), hn, hlen, hstart, hc,
    endElement_onRow h0 (hn ▸ List.mem_cons_self)]
  rfl

/-! ### What a row does not see -/

theorem doKdfArgs_pgp (kdf : KdfId) : (t.doKdfArgs attrs kdf).pgpEncryption = t.pgpEncryption := by
  unfold doKdfArgs
  split
  · simp only []
    split <;> rfl
  · rfl

theorem enter_pgp {name : Str} (h : name ∈ leafNames) :
    (t.enter name attrs 4).pgpEncryption = t.pgpEncryption := by
  rcases List.mem_cons.1 h with rfl | h
  · show (t.doAlgorithm attrs).pgpEncryption = _
    unfold doAlgorithm
    split
    · rfl
    · split <;> rfl
  rcases List.mem_cons.1 h with rfl | h
  · show (t.doStartKeyAlg attrs).pgpEncryption = _
    unfold doStartKeyAlg
    split <;> rfl
  rcases List.mem_singleton.1 h with rfl
  show (t.doKeyDerivation attrs).pgpEncryption = _
  rcases hi : t.ignoreEncryptData
  · rcases hk : Uris.passwordKdfFromName (attrs.value Uris.attrKeyDerivationName) with - | kdf
    · rw [doKeyDerivation_none hi hk]
      split <;> rfl
    · rw [doKeyDerivation_some hi hk]
      exact doKdfArgs_pgp (t := t.withKdf kdf) kdf
  · rw [doKeyDerivation, if_pos hi]

/-- The leaves of some encryption data have the names of such leaves. -/
def DataBuilt (d : Attrs × List (Str × Attrs)) : Prop := ∀ l ∈ d.2, l.1 ∈ leafNames

theorem readData_pgp {d : Attrs × List (Str × Attrs)} (h : DataBuilt d) :
    (t.readData d).pgpEncryption = t.pgpEncryption := by
  have hleaves : ∀ (leaves : List (Str × Attrs)) (t : Import), (∀ l ∈ leaves, l.1 ∈ leafNames) →
      (leaves.foldl (fun im l => im.enter l.1 l.2 4) t).pgpEncryption = t.pgpEncryption := by
    intro leaves
    induction leaves with
    | nil => exact fun _ _ => rfl
    | cons l leaves ih =>
      intro t h
      exact (ih _ fun x hx => h x (List.mem_cons_of_mem _ hx)).trans
        (enter_pgp (h l List.mem_cons_self))
  refine (hleaves d.2 _ h).trans ?_
  unfold doEncryptionData
  simp only []
  split <;> rfl

/-- A row does not see the key size that the rows before it left behind. -/
theorem readRow_bag (row : Row) (h : ∀ d ∈ row.data, DataBuilt d) (d : ℤ) :
    (({ derivedKeySize := d } : Import).readRow row).bag = (({} : Import).readRow row).bag ∧
      (({ derivedKeySize := d } : Import).readRow row).pgpEncryption = false := by
  have hpgp : ∀ (data : List (Attrs × List (Str × Attrs))) (t : Import),
      (∀ d ∈ data, DataBuilt d) → (data.foldl readData t).pgpEncryption = t.pgpEncryption := by
    intro data
    induction data with
    | nil => exact fun _ _ => rfl
    | cons x data ih =>
      intro t h
      exact (ih _ fun y hy => h y (List.mem_cons_of_mem _ hy)).trans
        (readData_pgp (h x List.mem_cons_self))
  refine ⟨?_, hpgp row.data _ h⟩
  -- encryption data begins with the key size unset, whatever it was
  rcases row with ⟨attrs, - | ⟨x, data⟩⟩ <;> rfl

end Import

/-- What comes of a row alone, with the version of the package. -/
def Row.bag (version : Option Str) (row : Row) : PropertyBag :=
  let bag := (({} : Import).readRow row).bag
  { bag with version := bag.version.or version }

namespace Import

variable {b t im : Import} {attrs : Attrs} {stack : List StackFrame} {c : Str}

theorem finishFileEntry_eq (hk : im.keys = []) :
    im.finishFileEntry =
      { im with
        ignoreEncryptData := false
        bags := im.bags ++ [{ im.bag with
          version := im.bag.version.or (if im.bags = [] then im.packageVersion else none) }]
        bag := {} } := by
  rcases im with ⟨stack, beyond, bags, bag, ignore, pgp, size, version, keys, key, characters⟩
  obtain rfl : keys = [] := hk
  rcases bag with ⟨path, media, own, rest⟩
  rcases bags with - | ⟨first, bags⟩
  · rcases version with - | version <;> rcases own with - | own <;> rcases ignore <;> rfl
  · rcases own with - | own <;> rcases ignore <;> rfl

/-- The end of a row. -/
theorem endFileEntry_onRow {e : Element} (h0 : b.beyondCap = 0) (hk : b.keys = [])
    (hn : (e.frame b.stack).convertedName = Uris.elementFileEntry) (hp : t.pgpEncryption = false)
    (c : Str) :
    (onRow ((b.openedBy e).withCharacters c) t).endElement e.name =
      onRow ((b.withBags (b.bags ++ [{ t.bag with
        version := t.bag.version.or (if b.bags = [] then b.packageVersion else none) }])).withCharacters
          c) { derivedKeySize := t.derivedKeySize } := by
  have hend : (e.frame b.stack).convertedName ∉ endNames.tail := by rw [hn]; decide
  have hk' : (onRow ((b.openedBy e).withCharacters c) t).keys = [] := hk
  have h0' : (onRow ((b.openedBy e).withCharacters c) t).beyondCap = 0 := h0
  refine (endElement_opened h0' rfl hend).trans ?_
  rw [if_pos hn, finishFileEntry_eq hk']
  rcases t with ⟨_, _, _, bag, ignore, pgp, _, _, _, _, _⟩
  obtain rfl : pgp = false := hp
  rfl

/-- What a row does to the import: its bag is added, and that is what comes of the
    row alone. -/
theorem fileEntry_onRow {e : FileEntry} (h0 : b.beyondCap = 0) (hlen : b.stack.length = 1)
    (hk : b.keys = []) (h : e.Built b.stack) (size : ℤ) (c : Str) :
    ∃ size' c', (onRow (b.withCharacters c) { derivedKeySize := size }).fileEntry e =
      onRow ((b.withBags (b.bags ++ [(e.row b.stack).bag
        (if b.bags = [] then b.packageVersion else none)])).withCharacters c')
          { derivedKeySize := size' } := by
  have hstack : b.stack.length < maxDepth := by rw [hlen]; decide
  have hstart (t : Import) (attrs : Attrs) : (onRow ((b.openedBy e.toElement).withCharacters c) t).enter
      Uris.elementFileEntry attrs 2 =
        onRow ((b.openedBy e.toElement).withCharacters c) (t.doFileEntry attrs) := rfl
  -- Every element of the row reads its own data into the row and leaves the rest of
  -- the importer.
  have hdata : ∀ d ∈ elements e.content, ∀ t c, ∃ c',
      (onRow ((b.openedBy e.toElement).withCharacters c) t).encryptionData d =
        onRow ((b.openedBy e.toElement).withCharacters c')
          (t.readData (d.data (e.opened b.stack))) := fun d hm =>
    encryptionData_onRow h0 (congrArg Nat.succ hlen) rfl (h.data d hm).1 (h.data d hm).2
  obtain ⟨c', hc⟩ := each_onRow (g := readData) (k := EncryptionData.data (e.opened b.stack)) hdata
    (({ derivedKeySize := size } : Import).doFileEntry (e.converted b.stack)) c
  have hbuilt : ∀ d ∈ (e.row b.stack).data, DataBuilt d := by
    intro d hd l hl
    obtain ⟨d, hm, rfl⟩ := List.mem_map.1 hd
    obtain ⟨l, hml, rfl⟩ := List.mem_map.1 hl
    exact (h.data d hm).2 l hml
  obtain ⟨hbag, hpgp⟩ := readRow_bag (e.row b.stack) hbuilt size
  refine ⟨(({ derivedKeySize := size } : Import).readRow (e.row b.stack)).derivedKeySize, c', ?_⟩
  rw [fileEntry, within, startElement_onRow h0 hstack (.inl (by omega)), h.name, hlen, hstart, hc,
    Row.bag, ← hbag]
  exact endFileEntry_onRow h0 hk h.name hpgp c'

end Import

/-! ### Manifests -/

namespace ManifestTree

variable (m : ManifestTree)

/-- The import after the root was opened. -/
def root : Import := ({} : Import).startElement m.name m.attrs

/-- The version of the package. -/
def version : Option Str := m.root.packageVersion

/-- The rows of the manifest. -/
def rows : List Row := (elements m.content).map (FileEntry.row m.root.stack)

/-- A manifest that is made of file entries. -/
def Built : Prop := ∀ e ∈ elements m.content, e.Built m.root.stack

variable {m}

/-- Opening the root opens one element, which is valid only if it is a manifest, and
    sees the version; nothing else. -/
theorem root_eq : ∃ frame, m.root = { stack := [frame], packageVersion := m.version } ∧
    (frame.valid = true → frame.convertedName = Uris.elementManifest) := by
  have hroot : m.root = ({ stack := m.opened [] } : Import).enter (m.frame []).convertedName
      (m.converted []) 1 :=
    Import.startElement_eq rfl (show 0 < maxDepth by decide) (.inl (by decide))
  rw [version, hroot]
  simp only [Import.enter]
  by_cases hn : (m.frame []).convertedName = Uris.elementManifest
  · refine ⟨m.frame [], ?_, fun _ => hn⟩
    rw [if_neg (not_not.2 hn)]
    generalize Option.filter _ (List.lookup Uris.attrVersion _) = v
    rcases v with - | v <;> rfl
  · refine ⟨{ m.frame [] with valid := false }, ?_, fun h => absurd h Bool.false_ne_true⟩
    rw [if_pos hn]
    generalize Option.filter _ (List.lookup Uris.attrVersion _) = v
    rcases v with - | v <;> rfl

/-- The bags of some rows, after `n` others: the first one of all has the version. -/
def rowBags (version : Option Str) (n : ℕ) (rows : List Row) : List PropertyBag :=
  rows.mapIdx fun i row => row.bag (if n + i = 0 then version else none)

theorem rowBags_cons (version : Option Str) (n : ℕ) (row : Row) (rows : List Row) :
    rowBags version n (row :: rows) =
      row.bag (if n = 0 then version else none) :: rowBags version (n + 1) rows := by
  rw [rowBags, List.mapIdx_cons, rowBags]
  simp only [Nat.add_zero, Nat.add_assoc, Nat.add_comm 1]

/-- The rows of a manifest, one after the other. -/
theorem each_rows {b : Import} (h0 : b.beyondCap = 0) (hlen : b.stack.length = 1)
    (hk : b.keys = []) (content : List (Str ⊕ FileEntry))
    (h : ∀ e ∈ elements content, e.Built b.stack) (bags : List PropertyBag) (size : ℤ) (c : Str) :
    ∃ size' c',
      (Import.onRow ((b.withBags bags).withCharacters c) { derivedKeySize := size }).each
        Import.fileEntry content =
      Import.onRow ((b.withBags (bags ++ rowBags b.packageVersion bags.length
        ((elements content).map (FileEntry.row b.stack)))).withCharacters c')
          { derivedKeySize := size' } := by
  -- Text is added to the characters, and each row to the bags; only the first has the
  -- version.
  induction content generalizing bags size c with
  | nil => exact ⟨size, c, by rw [show rowBags _ _ _ = [] from rfl, List.append_nil]; rfl⟩
  | cons x content ih =>
    rcases x with text | e
    · exact ih h bags size (c ++ text)
    · obtain ⟨size₁, c₁, he⟩ := Import.fileEntry_onRow (b := b.withBags bags) h0 hlen hk
        (h e List.mem_cons_self) size c
      obtain ⟨size', c', hrest⟩ := ih (fun x hx => h x (List.mem_cons_of_mem _ hx))
        (bags ++ [(e.row b.stack).bag (if bags = [] then b.packageVersion else none)]) size₁ c₁
      refine ⟨size', c', ?_⟩
      have hfirst : bags.length = 0 ↔ bags = [] := List.length_eq_zero_iff
      rw [show elements (.inr e :: content) = e :: elements content from rfl, List.map_cons,
        rowBags_cons, List.append_cons]
      simp only [hfirst]
      rw [List.length_append] at hrest
      refine Eq.trans ?_ hrest
      exact congrArg (Import.each Import.fileEntry · content) he

/-- The bags of a manifest are what comes of its rows, each alone. -/
theorem bags_run (h : m.Built) : m.run.bags = rowBags m.version 0 m.rows := by
  obtain ⟨frame, hroot, hvalid⟩ := m.root_eq
  have hlen : m.root.stack.length = 1 := by rw [hroot]; rfl
  obtain ⟨size', c', heach⟩ := each_rows (b := m.root) (by rw [hroot]) hlen (by rw [hroot])
    m.content h [] 0 []
  have hstart : ({} : Import).startElement m.name m.attrs =
      Import.onRow ((m.root.withBags []).withCharacters []) { derivedKeySize := 0 } := by
    show m.root = _
    rw [hroot]
    rfl
  rw [run, Import.within, hstart, heach, Import.endElement_bags]
  · rfl
  · intro f hf
    have hf : f ∈ m.root.stack.head? := hf
    rw [hroot] at hf
    obtain rfl := Option.mem_some_iff.1 hf
    rcases hv : frame.valid
    · exact .inr rfl
    · exact .inl (by rw [hvalid hv]; decide)

end ManifestTree

/-- Two manifests that have the same row somewhere, and for the first row the same
    version, have the same bag there, whatever the other rows are. -/
theorem ManifestTree.row_independent {m m' : ManifestTree} (h : m.Built) (h' : m'.Built) (i : ℕ)
    (hrow : m.rows[i]? = m'.rows[i]?) (hversion : i = 0 → m.version = m'.version) :
    m.run.bags[i]? = m'.run.bags[i]? := by
  rw [bags_run h, bags_run h', rowBags, rowBags, List.getElem?_mapIdx, List.getElem?_mapIdx, hrow]
  rcases i with - | i
  · rw [hversion rfl]
  · rfl

/-- A manifest of two rows, the first one under some cipher. -/
def twoRows (cipher : Str) : ManifestTree where
  name := ascii "manifest:manifest"
  attrs := [(ascii "xmlns:manifest", ascii "urn:oasis:names:tc:opendocument:xmlns:manifest:1.0"),
    (ascii "manifest:version", ascii "1.2")]
  content := [
    .inr {
      name := ascii "manifest:file-entry"
      attrs := [(ascii "manifest:full-path", ascii "/")]
      content := [.inr {
        name := ascii "manifest:encryption-data"
        attrs := []
        content := [.inr {
          name := ascii "manifest:algorithm"
          attrs := [(ascii "manifest:algorithm-name", cipher)] }] }] },
    .inl (ascii " "),
    .inr {
      name := ascii "manifest:file-entry"
      attrs := [(ascii "manifest:full-path", ascii "content.xml")]
      content := [] }]

theorem twoRows_built (cipher : Str) : (twoRows cipher).Built := by
  intro e he
  rcases List.mem_cons.1 he with rfl | he
  · refine ⟨rfl, fun d hd => ?_⟩
    obtain rfl := List.mem_singleton.1 hd
    refine ⟨rfl, fun l hl => ?_⟩
    obtain rfl := List.mem_singleton.1 hl
    exact List.mem_cons_self
  · obtain rfl := List.mem_singleton.1 he
    exact ⟨rfl, fun d hd => absurd hd List.not_mem_nil⟩

/-- The cipher of the first row says nothing about the second. -/
theorem ManifestTree.row_independent_sample :
    (twoRows (ascii "Blowfish CFB")).run.bags[1]? = (twoRows (ascii "rot13")).run.bags[1]? :=
  ManifestTree.row_independent (twoRows_built _) (twoRows_built _) 1 rfl
    fun h => absurd h Nat.one_ne_zero

end OdfCrypto

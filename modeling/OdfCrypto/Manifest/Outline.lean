import OdfCrypto.Manifest.Rows

/-!
# The outline of an import

What the paths, the media types, the versions and the sizes of the rows of a
manifest come from: the open elements, the version of the package, and these four
fields of the bags.

* `Outline`: a machine of its own, that opens elements (`start`) and closes them
  (`close`);
* `outline_startElement`, `outline_endElement`: the import, seen through
  `Import.outline`, is that machine;
* `importToken_outline`: so for each event that can be decoded.
-/

namespace OdfCrypto

open ByteStream Text

/-- The fields of a bag that a row of a plain package has. -/
structure RowOutline where
  fullPath : Str := []
  mediaType : Option Str := none
  version : Option Str := none
  size : Option ℤ := none
  deriving DecidableEq

def PropertyBag.outline (b : PropertyBag) : RowOutline where
  fullPath := b.fullPath
  mediaType := b.mediaType
  version := b.version
  size := b.size

/-- What of an import its rows come from. -/
structure Outline where
  stack : List StackFrame := []
  beyondCap : ℕ := 0
  packageVersion : Option Str := none
  rows : List RowOutline := []
  row : RowOutline := {}
  deriving DecidableEq

def Import.outline (im : Import) : Outline where
  stack := im.stack
  beyondCap := im.beyondCap
  packageVersion := im.packageVersion
  rows := im.bags.map PropertyBag.outline
  row := im.bag.outline

/-- The names of the elements that a level can have. -/
def knownAt : (level : ℕ) → List Str
  | 1 => [Uris.elementManifest]
  | 2 => [Uris.elementFileEntry, Uris.elementManifestEncryptedKey, Uris.elementLoextKeyinfo]
  | 3 => [Uris.elementEncryptionData, Uris.elementLoextEncryptedKey,
      Uris.elementManifestEncryptionMethod, Uris.elementManifestKeyinfo,
      Uris.elementManifestCipherData]
  | 4 => [Uris.elementAlgorithm, Uris.elementKeyDerivation, Uris.elementStartKeyGeneration,
      Uris.elementLoextEncryptionMethod, Uris.elementLoextKeyinfoDsig, Uris.elementLoextCipherData,
      Uris.elementManifestPgpData, Uris.elementManifestCipherValue]
  | 5 => [Uris.elementLoextPgpData, Uris.elementLoextCipherValue, Uris.elementManifestPgpKeyId,
      Uris.elementManifestPgpKeyPacket]
  | 6 => [Uris.elementLoextPgpKeyId, Uris.elementLoextPgpKeyPacket]
  | _ => []

/-- The row that a `file-entry` with these attributes starts. -/
def Attrs.row (attrs : Attrs) : RowOutline where
  fullPath := attrs.value Uris.attrFullPath
  mediaType := some (attrs.value Uris.attrMediaType)
  version := (attrs.lookup Uris.attrVersion).filter fun v => ¬ v.isEmpty
  size := ((attrs.lookup Uris.attrSize).filter fun v => ¬ v.isEmpty).map parseI64

namespace Outline

/-- The outline with the version of the package, if there is one. -/
def withVersion (o : Outline) (version : Option Str) : Outline :=
  { o with packageVersion := version.or o.packageVersion }

/-- Whether the element of `frame`, inside others, is where it can be. -/
def valid (stack : List StackFrame) (frame : StackFrame) : Bool :=
  (stack.length < 2 || (stack.head?.map StackFrame.valid).getD true) &&
    frame.convertedName ∈ knownAt (stack.length + 1)

/-- Open an element. -/
def start (o : Outline) (e : Element) : Outline :=
  if o.beyondCap > 0 ∨ o.stack.length ≥ maxDepth then { o with beyondCap := o.beyondCap + 1 }
  else
    let frame := e.frame o.stack
    let attrs := e.converted o.stack
    let o' := { o with stack := { frame with valid := valid o.stack frame } :: o.stack }
    if o.stack.length = 0 then
      o'.withVersion ((attrs.lookup Uris.attrVersion).filter fun v => ¬ v.isEmpty)
    else if o.stack.length = 1 ∧ frame.convertedName = Uris.elementFileEntry then
      { o' with row := attrs.row }
    else o'

/-- Where there is room for it, an element is on the stack once it is opened. -/
theorem start_room {o : Outline} (e : Element)
    (h : ¬ (o.beyondCap > 0 ∨ o.stack.length ≥ maxDepth)) :
    (o.start e).stack = { e.frame o.stack with valid := valid o.stack (e.frame o.stack) } :: o.stack ∧
      (o.start e).beyondCap = o.beyondCap := by
  unfold start
  rw [if_neg h]
  dsimp only
  split_ifs <;> exact ⟨rfl, rfl⟩

/-- The row under way is complete. -/
def finishRow (o : Outline) : Outline :=
  { o with
    rows := o.rows ++
      [if o.rows.isEmpty ∧ o.packageVersion.isSome ∧ o.row.version.isNone then
        { o.row with version := o.packageVersion }
      else o.row]
    row := {} }

/-- Close an element. -/
def close (o : Outline) (rawName : Str) : Outline :=
  if o.beyondCap > 0 then { o with beyondCap := o.beyondCap - 1 }
  else
    match o.stack with
    | [] => o
    | frame :: stack =>
      if frame.convertedName ≠ convertName o.stack rawName then o
      else if frame.convertedName = Uris.elementFileEntry ∧ frame.valid then
        { o.finishRow with stack }
      else { o with stack }

/-- Closing the innermost element, under its name, takes it off the stack. -/
theorem close_match {o : Outline} {frame : StackFrame} {stack : List StackFrame} {rawName : Str}
    (h0 : o.beyondCap = 0) (hs : o.stack = frame :: stack)
    (hn : frame.convertedName = convertName o.stack rawName) :
    (o.close rawName).stack = stack ∧ (o.close rawName).beyondCap = 0 := by
  unfold close
  rw [if_neg (by omega), hs]
  dsimp only
  rw [← hs, if_neg (not_not.2 hn)]
  split_ifs <;> exact ⟨rfl, h0⟩

end Outline

namespace Import

variable {im : Import} {attrs : Attrs} {name : Str}

/-! ### What does not change the outline -/

theorem outline_storeInKey (store : EncryptedKey → Bytes → EncryptedKey) :
    (im.storeInKey store).outline = im.outline := by
  unfold storeInKey
  split <;> rfl

theorem outline_finishCharacters (level : ℕ) :
    (im.finishCharacters name level).outline = im.outline := by
  unfold finishCharacters
  repeat' split
  · exact outline_storeInKey _
  · exact outline_storeInKey _
  · exact outline_storeInKey _
  · rfl

theorem outline_finishEncryptedKey : im.finishEncryptedKey.outline = im.outline := by
  unfold finishEncryptedKey
  split <;> rfl

theorem outline_doEncryptionMethod (algoAttr : Str) :
    (im.doEncryptionMethod attrs algoAttr).outline = im.outline := by
  unfold doEncryptionMethod
  split <;> rfl

theorem outline_doEncryptionData : (im.doEncryptionData attrs).outline = im.outline := by
  unfold doEncryptionData
  simp only []
  split <;> rfl

theorem outline_doAlgorithm : (im.doAlgorithm attrs).outline = im.outline := by
  unfold doAlgorithm
  repeat' split
  all_goals rfl

theorem outline_doStartKeyAlg : (im.doStartKeyAlg attrs).outline = im.outline := by
  unfold doStartKeyAlg
  split <;> rfl

theorem outline_doKdfArgs (kdf : KdfId) : (im.doKdfArgs attrs kdf).outline = im.outline := by
  unfold doKdfArgs
  split
  · simp only []
    split <;> rfl
  · rfl

theorem outline_doKeyDerivation : (im.doKeyDerivation attrs).outline = im.outline := by
  rcases hi : im.ignoreEncryptData
  · rcases hk : Uris.passwordKdfFromName (attrs.value Uris.attrKeyDerivationName) with - | kdf
    · rw [doKeyDerivation_none hi hk]
      split <;> rfl
    · rw [doKeyDerivation_some hi hk]
      exact @outline_doKdfArgs (im.withKdf kdf) attrs kdf
  · rw [doKeyDerivation, if_pos hi]

theorem outline_doEncryptedKey : im.doEncryptedKey.outline = im.outline := rfl

theorem outline_clear : ({ im with currentCharacters := [] } : Import).outline = im.outline := rfl

theorem outline_characters (text : Str) : (im.characters text).outline = im.outline := rfl

/-! ### Opening and closing -/

/-- Below the rows, opening an element changes no more than whether it is valid. -/
theorem outline_enter_deep {level : ℕ} (hl : 3 ≤ level) :
    (im.enter name attrs level).outline =
      if name ∈ knownAt level then im.outline else im.invalidateCurrent.outline := by
  unfold enter
  split
  · omega
  · omega
  -- One case for each level: every name of it changes what the outline leaves out.
  all_goals simp only [knownAt, List.mem_cons, List.not_mem_nil, or_false, if_false]
  all_goals split_ifs <;> simp_all [outline_doEncryptionData, outline_doEncryptionMethod,
    outline_doEncryptedKey, outline_doAlgorithm, outline_doKeyDerivation, outline_doStartKeyAlg,
    outline_clear]

/-- Opening an element where there is room for it. -/
theorem startElement_room {e : Element} (h : ¬ (im.beyondCap > 0 ∨ im.stack.length ≥ maxDepth)) :
    im.startElement e.name e.attrs =
      if (im.openedBy e).stack.length ≥ 3 ∧ ¬ (im.openedBy e).parentValid then
        (im.openedBy e).invalidateCurrent
      else
        (im.openedBy e).enter (e.frame im.stack).convertedName (e.converted im.stack)
          (im.stack.length + 1) := by
  unfold startElement
  exact if_neg h

/-- What entering the root does. -/
theorem outline_enter_one : (im.enter name attrs 1).outline =
    (if name ∈ knownAt 1 then im else im.invalidateCurrent).outline.withVersion
      ((attrs.lookup Uris.attrVersion).filter fun v => ¬ v.isEmpty) := by
  unfold enter
  simp only [knownAt, List.mem_singleton, ne_eq, ite_not]
  generalize (attrs.lookup Uris.attrVersion).filter (fun v => ¬ v.isEmpty) = version
  rcases version with _ | v
  · split <;> rfl
  · simp only [invalidateCurrent]
    split
    · rfl
    · split <;> rfl

/-- What entering an element of the root does. -/
theorem outline_enter_two : (im.enter name attrs 2).outline =
    if name = Uris.elementFileEntry then { im.outline with row := attrs.row }
    else (if name ∈ knownAt 2 then im else im.invalidateCurrent).outline := by
  unfold enter
  simp only [knownAt, List.mem_cons, List.not_mem_nil, or_false]
  by_cases hf : name = Uris.elementFileEntry
  · rw [if_pos hf, if_pos hf]
    rfl
  rw [if_neg hf, if_neg hf]
  by_cases hk : name = Uris.elementManifestEncryptedKey
  · rw [if_pos hk, if_pos (.inr (.inl hk)), outline_doEncryptedKey]
  rw [if_neg hk]
  simp only [hf, hk, false_or]

/-- An element that was opened is valid if it is known. -/
theorem outline_openedBy {e : Element} {known : Prop} [Decidable known] :
    (if known then im.openedBy e else (im.openedBy e).invalidateCurrent).outline =
      { im.outline with stack := { e.frame im.stack with valid := known } :: im.stack } := by
  split_ifs with h
  · rw [decide_eq_true h]
    rfl
  · rw [decide_eq_false h]
    rfl

/-- Opening an element is opening it in the outline. -/
theorem outline_startElement (im : Import) (e : Element) :
    (im.startElement e.name e.attrs).outline = im.outline.start e := by
  unfold Outline.start
  by_cases hcap : im.beyondCap > 0 ∨ im.stack.length ≥ maxDepth
  · rw [if_pos (by exact hcap), startElement, if_pos hcap]
    rfl
  rw [if_neg (by exact hcap), startElement_room hcap]
  have ho : im.outline.stack = im.stack := rfl
  have hs : (im.openedBy e).stack = e.frame im.stack :: im.stack := rfl
  have hp : (im.openedBy e).parentValid = (im.stack.head?.map StackFrame.valid).getD true := by
    rw [parentValid, hs, List.getElem?_cons_succ, List.head?_eq_getElem?]
  dsimp only
  rw [ho]
  -- The version of the package is the root's, and rows start right below it.
  rcases Nat.lt_trichotomy im.stack.length 1 with hl | hl | hl
  · have hl0 : im.stack.length = 0 := by omega
    rw [if_neg (by rw [hs, List.length_cons]; omega), if_pos hl0, hl0, outline_enter_one,
      outline_openedBy]
    simp only [Outline.valid, hl0]
    rfl
  · have hv : Outline.valid im.stack (e.frame im.stack) =
        decide ((e.frame im.stack).convertedName ∈ knownAt 2) := by
      rw [Outline.valid, hl]
      rfl
    rw [if_neg (by rw [hs, List.length_cons]; omega), if_neg (by omega), hv, hl,
      outline_enter_two, outline_openedBy]
    by_cases hf : (e.frame im.stack).convertedName = Uris.elementFileEntry
    · rw [if_pos hf, if_pos ⟨rfl, hf⟩, decide_eq_true (by rw [hf]; exact List.mem_cons_self)]
      rfl
    · rw [if_neg hf, if_neg fun h => hf h.2]
  · have hlen : decide (im.stack.length < 2) = false := decide_eq_false (by omega)
    have hroot : ¬ im.stack.length = 0 := by omega
    have hrow : ¬ (im.stack.length = 1 ∧
        (e.frame im.stack).convertedName = Uris.elementFileEntry) := by omega
    rw [if_neg hroot, if_neg hrow]
    by_cases hv : (im.openedBy e).parentValid
    · rw [if_neg fun h => h.2 hv, outline_enter_deep (by omega), ← apply_ite Import.outline,
        outline_openedBy]
      rw [hp] at hv
      simp only [Outline.valid, hv, Bool.or_true, Bool.true_and]
    · rw [if_pos ⟨by rw [hs, List.length_cons]; omega, hv⟩]
      rw [hp, Bool.not_eq_true] at hv
      simp only [Outline.valid, hv, hlen, Bool.or_false, Bool.false_and]
      rfl

theorem outline_finishFileEntry : im.finishFileEntry.outline = im.outline.finishRow := by
  have hrows : (im.outline.rows ++ [(if im.bags.isEmpty ∧ im.packageVersion.isSome ∧
      im.bag.version.isNone then { im.bag with version := im.packageVersion } else im.bag).outline]) =
        im.outline.finishRow.rows := by
    have he : im.outline.rows.isEmpty = im.bags.isEmpty := List.isEmpty_map
    rw [Outline.finishRow, he, apply_ite PropertyBag.outline]
    rfl
  unfold finishFileEntry
  simp only [outline, Outline.finishRow, List.map_append, List.map_cons, List.map_nil] at hrows ⊢
  rw [← hrows]
  split_ifs <;> rfl

/-- Closing an element is closing it in the outline. -/
theorem outline_endElement (im : Import) (rawName : Str) :
    (im.endElement rawName).outline = im.outline.close rawName := by
  unfold endElement Outline.close
  -- The branches of the source: beyond the cap, an empty stack, another name, a row,
  -- and the rest.
  by_cases hcap : im.beyondCap > 0
  · rw [if_pos hcap, if_pos (by exact hcap)]
    rfl
  rw [if_neg hcap, if_neg (by exact hcap)]
  have ho : im.outline.stack = im.stack := rfl
  rw [ho]
  rcases hs : im.stack with _ | ⟨frame, stack⟩
  · rfl
  dsimp only
  by_cases hn : frame.convertedName ≠ convertName (frame :: stack) rawName
  · rw [if_pos hn, if_pos hn]
  rw [if_neg hn, if_neg hn]
  have hstack : ∀ im' : Import,
      ({ im' with stack } : Import).outline = { im'.outline with stack } := fun _ => rfl
  rw [hstack, outline_finishCharacters, ← not_not.1 hn]
  by_cases hf : frame.convertedName = Uris.elementFileEntry ∧ frame.valid
  · rw [if_pos hf, if_pos hf, outline_finishFileEntry]
  rw [if_neg hf, if_neg hf]
  split_ifs
  · rw [outline_finishEncryptedKey]
  · rfl

end Import

/-! ### Events -/

/-- The element of a tag. -/
def Tag.element (tag : Tag) : Element := ⟨utf8Lossy tag.name, (readAttrs tag).getD []⟩

/-- Whether an event can be decoded. -/
def Token.decodes : Token → Bool
  | .start tag => (readAttrs tag).isSome
  | .empty tag => (readAttrs tag).isSome
  | .close _ => true
  | .text raw => (utf8Decode raw).isSome
  | .cdata raw => (utf8Decode raw).isSome
  | .generalRef raw => (utf8Decode raw).isSome
  | .other _ => true

/-- Read one event. -/
def Outline.read (o : Outline) : Token → Outline
  | .start tag => o.start tag.element
  | .empty tag => (o.start tag.element).close tag.element.name
  | .close name => o.close (utf8Lossy name)
  | _ => o

/-- An event that can be decoded is read as the outline reads it. -/
theorem importToken_outline {token : Token} (h : token.decodes) (im : Import) :
    ∃ im', importToken im token = some im' ∧ im'.outline = im.outline.read token := by
  rcases token with tag | tag | name | raw | raw | raw | raw
  · obtain ⟨attrs, ha⟩ := Option.isSome_iff_exists.1 h
    refine ⟨im.startElement (utf8Lossy tag.name) attrs, by rw [importToken, ha]; rfl, ?_⟩
    rw [Outline.read, Tag.element, ha]
    exact Import.outline_startElement im ⟨utf8Lossy tag.name, attrs⟩
  · obtain ⟨attrs, ha⟩ := Option.isSome_iff_exists.1 h
    refine ⟨_, by rw [importToken, ha]; rfl, ?_⟩
    rw [Outline.read, Tag.element, ha, Import.outline_endElement]
    exact congrArg (Outline.close · _)
      (Import.outline_startElement im ⟨utf8Lossy tag.name, attrs⟩)
  · exact ⟨_, rfl, Import.outline_endElement im _⟩
  · obtain ⟨text, ht⟩ := Option.isSome_iff_exists.1 h
    exact ⟨im.characters text, by rw [importToken, ht]; rfl, rfl⟩
  · obtain ⟨text, ht⟩ := Option.isSome_iff_exists.1 h
    exact ⟨im.characters text, by rw [importToken, ht]; rfl, rfl⟩
  · obtain ⟨text, ht⟩ := Option.isSome_iff_exists.1 h
    exact ⟨im.characters (expandRef text), by rw [importToken, ht]; rfl, rfl⟩
  · exact ⟨im, rfl, rfl⟩

theorem importTokens_outline {tokens : List Token} (h : ∀ t ∈ tokens, t.decodes) (im : Import) :
    ∃ im', tokens.foldlM importToken im = some im' ∧
      im'.outline = tokens.foldl Outline.read im.outline := by
  induction tokens generalizing im with
  | nil => exact ⟨im, rfl, rfl⟩
  | cons token tokens ih =>
    obtain ⟨im₁, h₁, ho₁⟩ := importToken_outline (h token List.mem_cons_self) im
    obtain ⟨im₂, h₂, ho₂⟩ := ih (fun t ht => h t (List.mem_cons_of_mem _ ht)) im₁
    exact ⟨im₂, by rw [List.foldlM_cons, h₁]; exact h₂, by rw [ho₂, ho₁, List.foldl_cons]⟩

/-- The rows of a manifest whose events can be decoded and close all they open. -/
theorem parseManifest_outline {xmlReader : XmlReader} {xml : Bytes} {tokens : List Token}
    (hx : xmlReader xml = (tokens, none)) (h : ∀ t ∈ tokens, t.decodes)
    (hs : (tokens.foldl Outline.read {}).stack = []) :
    (parseManifest xmlReader xml).map PropertyBag.outline =
      (tokens.foldl Outline.read {}).rows := by
  obtain ⟨im, him, ho⟩ := importTokens_outline h {}
  have ho' : im.outline = tokens.foldl Outline.read {} := ho
  have hstack : im.stack = [] := (congrArg Outline.stack ho').trans hs
  unfold parseManifest
  rw [hx]
  simp only [him, hstack]
  exact congrArg Outline.rows ho'

end OdfCrypto

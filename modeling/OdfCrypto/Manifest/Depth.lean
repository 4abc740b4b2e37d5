import OdfCrypto.Manifest.Outline

/-!
# The depth cap of the import

An element beyond `maxDepth` is counted and not entered. Where elements are well
nested, that changes nothing: the import without the cap has the open elements beyond
it on its stack besides (`Import.Deeper`), all of them not valid, and is the same
otherwise.

* `WellNested`: start and end events that are paired by their names;
* `Import.Deeper.run`: such events keep the two imports together;
* `Import.run_wellNested`: so they end with nothing open, and the same bags.
-/

namespace OdfCrypto

open Text

/-- What the import is told of a document. -/
inductive ManifestEvent
  | start (rawName : Str) (rawAttrs : Attrs)
  | close (rawName : Str)
  | characters (text : Str)

/-- Events in which every element that is started is closed under its name. -/
inductive WellNested : List ManifestEvent → Prop
  | nil : WellNested []
  | characters (text : Str) {events : List ManifestEvent} (h : WellNested events) :
      WellNested (.characters text :: events)
  | element (rawName : Str) (rawAttrs : Attrs) {inside events : List ManifestEvent}
      (hin : WellNested inside) (h : WellNested events) :
      WellNested (.start rawName rawAttrs :: (inside ++ .close rawName :: events))

namespace Import

/-- One event. -/
def event (im : Import) : ManifestEvent → Import
  | .start rawName rawAttrs => im.startElement rawName rawAttrs
  | .close rawName => im.endElement rawName
  | .characters text => im.characters text

/-- Open an element, at any depth. -/
def startUncapped (im : Import) (rawName : Str) (rawAttrs : Attrs) : Import :=
  let ((converted, attrs), im) := im.pushNameAndNamespaces rawName rawAttrs
  let level := im.stack.length
  if level ≥ 3 ∧ ¬ im.parentValid then im.invalidateCurrent
  else im.enter converted attrs level

/-- Close an element, at any depth. -/
def endUncapped (im : Import) (rawName : Str) : Import :=
  match im.stack with
  | [] => im
  | frame :: stack =>
    let converted := convertName im.stack rawName
    if frame.convertedName ≠ converted then im
    else
      let level := im.stack.length
      let im :=
        if converted = Uris.elementFileEntry ∧ frame.valid then im.finishFileEntry
        else if (converted = Uris.elementLoextEncryptedKey ∨
            converted = Uris.elementManifestEncryptedKey) ∧ frame.valid then
          im.finishEncryptedKey
        else im
      { im.finishCharacters converted level with stack }

/-- One event of the import without the cap. -/
def eventUncapped (im : Import) : ManifestEvent → Import
  | .start rawName rawAttrs => im.startUncapped rawName rawAttrs
  | .close rawName => im.endUncapped rawName
  | .characters text => im.characters text

/-- The import without the cap: the same, but for elements beyond the cap. -/
structure Deeper (deep : List StackFrame) (im uncapped : Import) : Prop where
  same : uncapped = { im with stack := deep ++ im.stack, beyondCap := 0 }
  counted : im.beyondCap = deep.length
  full : deep ≠ [] → maxDepth ≤ im.stack.length
  invalid : ∀ frame ∈ deep, frame.valid = false

variable {im uncapped : Import} {deep : List StackFrame} {rawName : Str} {rawAttrs : Attrs}

/-! ### Elements within the cap -/

theorem startElement_within (h : ¬ (im.beyondCap > 0 ∨ im.stack.length ≥ maxDepth)) :
    im.startElement rawName rawAttrs = im.startUncapped rawName rawAttrs := by
  unfold startElement startUncapped
  rw [if_neg h]

theorem endElement_within (h : im.beyondCap = 0) :
    im.endElement rawName = im.endUncapped rawName := by
  unfold endElement endUncapped
  refine (if_neg (by omega)).trans ?_
  rcases im.stack with - | ⟨frame, stack⟩ <;> rfl

/-- An element within the cap is on the stack once it is opened. -/
theorem stack_startElement (e : Element) (h : ¬ (im.beyondCap > 0 ∨ im.stack.length ≥ maxDepth)) :
    (∃ valid, (im.startElement e.name e.attrs).stack =
      { e.frame im.stack with valid } :: im.stack) ∧
        (im.startElement e.name e.attrs).beyondCap = im.beyondCap := by
  have ho := outline_startElement im e
  have hstart := Outline.start_room e (show ¬ (im.outline.beyondCap > 0 ∨ _) from h)
  exact ⟨⟨_, (congrArg Outline.stack ho).trans hstart.1⟩,
    (congrArg Outline.beyondCap ho).trans hstart.2⟩

/-- An element has its name until it is closed. -/
theorem convertName_frame {stack : List StackFrame} (e : Element) (valid : Bool) :
    convertName ({ e.frame stack with valid } :: stack) e.name = (e.frame stack).convertedName :=
  e.convertName_opened

/-- Closing the element that was opened last leaves the stack that it was opened on. -/
theorem stack_endElement (e : Element) {stack : List StackFrame} {valid : Bool}
    (h0 : im.beyondCap = 0) (hs : im.stack = { e.frame stack with valid } :: stack) :
    (im.endElement e.name).stack = stack ∧ (im.endElement e.name).beyondCap = 0 := by
  have ho := outline_endElement im e.name
  have hname : (e.frame stack).convertedName = convertName im.outline.stack e.name := by
    rw [← convertName_frame e valid, ← hs]
    rfl
  have hclose := @Outline.close_match im.outline _ stack e.name h0 hs hname
  exact ⟨(congrArg Outline.stack ho).trans hclose.1, (congrArg Outline.beyondCap ho).trans hclose.2⟩

/-! ### Elements beyond the cap -/

/-- Without the cap, an element beyond it is not valid, and nothing comes of it. -/
theorem startUncapped_deep (e : Element) (h : maxDepth ≤ im.stack.length) :
    im.startUncapped e.name e.attrs =
      { im with stack := { e.frame im.stack with valid := false } :: im.stack } := by
  obtain ⟨k, hk⟩ := Nat.exists_eq_add_of_le h
  have hlevel : (im.openedBy e).stack.length = k + 10 + 7 := by
    rw [show (im.openedBy e).stack = e.frame im.stack :: im.stack from rfl, List.length_cons, hk,
      maxDepth]
    omega
  have henter : (im.openedBy e).enter (e.frame im.stack).convertedName (e.converted im.stack)
      (im.openedBy e).stack.length = (im.openedBy e).invalidateCurrent := by
    rw [hlevel]
    rfl
  have hstart : im.startUncapped e.name e.attrs = (im.openedBy e).invalidateCurrent := by
    unfold startUncapped
    refine (ite_eq_left_iff.2 fun _ => ?_)
    exact henter
  rw [hstart]
  rfl

/-- Characters are not kept for an element that deep. -/
theorem finishCharacters_deep {name : Str} {level : ℕ} (hl : level > 6) :
    im.finishCharacters name level = im := by
  unfold finishCharacters
  rw [if_neg (by omega), if_neg (by omega), if_neg (by omega)]

/-- Without the cap, closing such an element only takes it off the stack. -/
theorem endUncapped_deep (e : Element) {stack : List StackFrame}
    (hs : im.stack = { e.frame stack with valid := false } :: stack)
    (hl : maxDepth ≤ stack.length) : im.endUncapped e.name = { im with stack } := by
  have hname : convertName im.stack e.name = (e.frame stack).convertedName := by
    rw [hs, convertName_frame]
  have hlevel : im.stack.length > 6 := by
    rw [hs, List.length_cons]
    exact Nat.lt_succ_of_le (le_trans (by decide) hl)
  unfold endUncapped
  split
  · next h => exact absurd (hs.symm.trans h) (List.cons_ne_nil _ _)
  · next frame rest h =>
    obtain ⟨rfl, rfl⟩ := List.cons.inj (hs.symm.trans h)
    dsimp only
    rw [hname, if_neg (not_not.2 rfl), if_neg fun h => Bool.false_ne_true h.2,
      if_neg fun h => Bool.false_ne_true h.2, finishCharacters_deep hlevel]

/-! ### Runs -/

namespace Deeper

/-- Within the cap, the two imports are the same. -/
theorem eq_of_nil (h : Deeper [] im uncapped) : uncapped = im := by
  have hc : im.beyondCap = 0 := h.counted
  have hsame := h.same
  rw [List.nil_append, ← hc] at hsame
  exact hsame

theorem refl (h : im.beyondCap = 0) : Deeper [] im im where
  same := by
    rw [List.nil_append, ← h]
  counted := h
  full hne := absurd rfl hne
  invalid _ hf := absurd hf List.not_mem_nil

/-- What an element that is well nested does to both imports: they stay together, with the
    open elements that there were. -/
structure Kept (deep : List StackFrame) (im im' uncapped' : Import) : Prop extends
    Deeper deep im' uncapped' where
  stack : im'.stack = im.stack
  beyondCap : im'.beyondCap = im.beyondCap

/-- An element within the cap keeps the two imports together, if what is in it does. -/
theorem within (e : Element) {inside : List ManifestEvent}
    (hin : ∀ {deep im uncapped}, Deeper deep im uncapped →
      Kept deep im (inside.foldl event im) (inside.foldl eventUncapped uncapped))
    (h0 : im.beyondCap = 0) (hl : ¬ im.stack.length ≥ maxDepth) :
    Kept [] im ((inside.foldl event (im.startElement e.name e.attrs)).endElement e.name)
      ((inside.foldl eventUncapped (im.startUncapped e.name e.attrs)).endUncapped e.name) := by
  have hroom : ¬ (im.beyondCap > 0 ∨ im.stack.length ≥ maxDepth) := by omega
  obtain ⟨⟨valid, hstack⟩, hcap⟩ := stack_startElement e hroom
  rw [← startElement_within hroom]
  have hk := hin (refl (hcap.trans h0))
  have hcap' := hk.beyondCap.trans (hcap.trans h0)
  rw [hk.eq_of_nil, ← endElement_within hcap']
  obtain ⟨hs, hb⟩ := stack_endElement e hcap' (hk.stack.trans hstack)
  exact { toDeeper := refl hb, stack := hs, beyondCap := hb.trans h0.symm }

/-- So does an element beyond the cap. -/
theorem beyond (e : Element) {inside : List ManifestEvent}
    (hin : ∀ {deep im uncapped}, Deeper deep im uncapped →
      Kept deep im (inside.foldl event im) (inside.foldl eventUncapped uncapped))
    (h : Deeper deep im uncapped) (hl : maxDepth ≤ im.stack.length) :
    Kept deep im ((inside.foldl event (im.startElement e.name e.attrs)).endElement e.name)
      ((inside.foldl eventUncapped (uncapped.startUncapped e.name e.attrs)).endUncapped e.name) := by
  have hdeep : maxDepth ≤ uncapped.stack.length := by
    rw [h.same, List.length_append]
    omega
  have hstart : im.startElement e.name e.attrs = { im with beyondCap := im.beyondCap + 1 } := by
    unfold startElement
    rw [if_pos (.inr hl)]
  rw [hstart, startUncapped_deep e hdeep]
  -- The element is one more on the stack without the cap, and counted with it.
  have hopened : Deeper ({ e.frame uncapped.stack with valid := false } :: deep)
      { im with beyondCap := im.beyondCap + 1 }
      { uncapped with
        stack := { e.frame uncapped.stack with valid := false } :: uncapped.stack } :=
    { same := by rw [h.same]; rfl
      counted := congrArg Nat.succ h.counted
      full := fun _ => hl
      invalid := fun frame hf => (List.mem_cons.1 hf).elim (fun heq => heq ▸ rfl) (h.invalid frame) }
  have hk := hin hopened
  have hclose : (inside.foldl event { im with beyondCap := im.beyondCap + 1 }).endElement e.name =
      { inside.foldl event { im with beyondCap := im.beyondCap + 1 } with
        beyondCap := im.beyondCap } := by
    unfold endElement
    rw [hk.beyondCap, if_pos (Nat.succ_pos _)]
    rfl
  have hstack : (inside.foldl eventUncapped { uncapped with
      stack := { e.frame uncapped.stack with valid := false } :: uncapped.stack }).stack =
        { e.frame uncapped.stack with valid := false } :: uncapped.stack := by
    rw [hk.same]
    show _ :: deep ++ _ = _
    rw [hk.stack, h.same]
    rfl
  rw [hclose, endUncapped_deep e hstack hdeep, hk.same]
  exact {
    same := by
      show _ = _
      rw [hk.stack, h.same]
    counted := h.counted
    full := fun hne => le_of_le_of_eq (h.full hne) (congrArg List.length hk.stack).symm
    invalid := h.invalid
    stack := hk.stack
    beyondCap := rfl }

/-- Well nested events keep the two imports together. -/
theorem run {events : List ManifestEvent} (hn : WellNested events) (h : Deeper deep im uncapped) :
    Kept deep im (events.foldl event im) (events.foldl eventUncapped uncapped) := by
  induction hn generalizing deep im uncapped with
  | nil => exact { toDeeper := h, stack := rfl, beyondCap := rfl }
  | characters text hn ih =>
    have hchars : Deeper deep (im.characters text) (uncapped.characters text) := by
      rw [h.same]
      exact { same := rfl, counted := h.counted, full := h.full, invalid := h.invalid }
    have hk := ih hchars
    exact { toDeeper := hk.toDeeper, stack := hk.stack, beyondCap := hk.beyondCap }
  | @element rawName rawAttrs inside events hin hn ihin ih =>
    have helement : Kept deep im
        ((inside.foldl event (im.startElement rawName rawAttrs)).endElement rawName)
        ((inside.foldl eventUncapped (uncapped.startUncapped rawName rawAttrs)).endUncapped
          rawName) := by
      -- An element opened at the cap is counted but not imported, and its end takes the
      -- count back.
      by_cases hl : im.stack.length ≥ maxDepth
      · exact h.beyond ⟨rawName, rawAttrs⟩ ihin hl
      · rcases deep with - | ⟨frame, deep⟩
        · rw [h.eq_of_nil]
          exact within ⟨rawName, rawAttrs⟩ ihin h.counted hl
        · exact absurd (h.full (List.cons_ne_nil _ _)) hl
    have hk := ih helement.toDeeper
    rw [List.foldl_cons, List.foldl_append, List.foldl_cons, List.foldl_cons, List.foldl_append,
      List.foldl_cons]
    exact {
      toDeeper := hk.toDeeper
      stack := hk.stack.trans helement.stack
      beyondCap := hk.beyondCap.trans helement.beyondCap }

end Deeper

/-- Well nested events leave nothing open, and the bags that there are without the cap. -/
theorem run_wellNested {events : List ManifestEvent} (hn : WellNested events) :
    (events.foldl event {}).stack = [] ∧ (events.foldl event {}).beyondCap = 0 ∧
      (events.foldl event {}).bags = (events.foldl eventUncapped {}).bags := by
  have hk := Deeper.run hn (@Deeper.refl {} rfl)
  refine ⟨hk.stack, hk.beyondCap, ?_⟩
  rw [hk.same]

/-- So many elements, one in the other. -/
def nested : ℕ → List ManifestEvent
  | 0 => []
  | n + 1 => .start (ascii "a") [] :: (nested n ++ [.close (ascii "a")])

theorem wellNested_nested (n : ℕ) : WellNested (nested n) := by
  induction n with
  | zero => exact .nil
  | succ n ih => exact .element _ _ ih .nil

/-- Elements beyond the cap. -/
theorem run_wellNested_sample :
    ((nested 20).foldl event {}).stack = [] ∧ ((nested 20).foldl event {}).beyondCap = 0 ∧
      ((nested 20).foldl event {}).bags = ((nested 20).foldl eventUncapped {}).bags :=
  run_wellNested (wellNested_nested 20)

end Import

end OdfCrypto

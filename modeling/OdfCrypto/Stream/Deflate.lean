import OdfCrypto.Kdf
import OdfCrypto.Lib.Prog
import OdfCrypto.Lib.Write

/-!
# Deflating streams

`DeflateWriter` (`stream.rs`): a writer that compresses what it is given. An
adaptive one gathers its input in chunks, and stores those that compressing
would not make smaller, after a full flush of the compressor.

* `DeflateWriter.pump_ok`, `DeflateWriter.pump_willing`: what a run of the
  compressor writes, and that it fails only with the writer under it;
* `DeflateWriter.Written`: what every run of writes keeps;
* `DeflateWriter.finish_ok`: what was written is a complete stream of the input;
* `DeflateWriter.DeflatesTo`: what the writer makes of its input in memory, in whatever
  pieces it comes.
-/

namespace OdfCrypto

open ByteStream Text Deflate

/-- The most bytes one stored block can carry. -/
def storedBlockMax : ℕ := 0xFFFF

/-- The chunk an adaptive writer gathers. -/
structure Held where
  buf : Bytes := []
  /-- The compressor has taken input since its last full flush. -/
  compressing : Bool := false
  deriving DecidableEq

/-- A writer that compresses to `dst`, with a chunk held if it is adaptive. -/
structure DeflateWriter (P : Prims) (ω : Type) where
  dst : ω
  comp : P.compressor.State := P.compressor.init
  consumed : ℕ := 0
  held : Option Held := none

namespace DeflateWriter

variable {P : Prims} {ω : Type}

def new (P : Prims) (dst : ω) : DeflateWriter P ω := { dst }

def adaptive (P : Prims) (dst : ω) : DeflateWriter P ω := { dst, held := some {} }

variable [Write ω IoError]

/-! ### Pumping -/

/-- One call of the compressor. -/
def pumpStep (flush : Flush) : Bytes × DeflateWriter P ω →
    (Except IoError Unit × DeflateWriter P ω) ⊕ (Bytes × DeflateWriter P ω)
  | (input, w) =>
    let (status, used, made, comp) := P.compressor.compress w.comp input chunk flush
    let input := input.drop used
    match writeAll w.dst made with
    | (.error e, dst) => .inl (.error e, { w with dst, comp })
    | (.ok (), dst) =>
      let w := { w with dst, comp }
      match status with
      | .done => .inl (.ok (), w)
      | .okay =>
        if input.isEmpty ∧ made.length < chunk ∧ flush ≠ .finish then .inl (.ok (), w)
        else if used = 0 ∧ made.isEmpty ∧ flush ≠ .finish then
          .inl (.error (Fault.deflate (ascii "no progress")).intoIo, w)
        else .inr (input, w)
      | .failed name => .inl (.error (Fault.deflate name).intoIo, w)

/-- How a call of the compressor goes round again. -/
theorem pumpStep_inr {flush : Flush} {input : Bytes} {w : DeflateWriter P ω}
    {s : Bytes × DeflateWriter P ω} (h : pumpStep flush (input, w) = .inr s) :
    ∃ used made comp dst,
      P.compressor.compress w.comp input chunk flush = (.okay, used, made, comp) ∧
      writeAll w.dst made = (.ok (), dst) ∧
      (flush = .finish ∨ input.drop used ≠ [] ∨ chunk ≤ made.length) ∧
      (flush = .finish ∨ used ≠ 0 ∨ made ≠ []) ∧
      s = (input.drop used, { w with dst, comp }) := by
  unfold pumpStep at h
  rcases hc : P.compressor.compress w.comp input chunk flush with ⟨status, used, made, comp⟩
  simp only [hc] at h
  split at h
  · cases h
  · next dst hw =>
    cases status with
    | done => cases h
    | failed name => cases h
    | okay =>
      by_cases h1 : (input.drop used).isEmpty ∧ made.length < chunk ∧ flush ≠ .finish
      · simp only [if_pos h1] at h; cases h
      · by_cases h2 : used = 0 ∧ made.isEmpty ∧ flush ≠ .finish
        · simp only [if_neg h1, if_pos h2] at h; cases h
        · simp only [if_neg h1, if_neg h2] at h
          cases h
          refine ⟨used, made, comp, dst, rfl, hw, ?_, ?_, rfl⟩
          · by_contra hcon
            push Not at hcon
            exact h1 ⟨List.isEmpty_iff.2 hcon.2.1, hcon.2.2, hcon.1⟩
          · by_contra hcon
            push Not at hcon
            exact h2 ⟨hcon.2.1, List.isEmpty_iff.2 hcon.2.2, hcon.1⟩

/-- How a run of the compressor ends well. -/
theorem pumpStep_inl_ok {flush : Flush} {input : Bytes} {w w' : DeflateWriter P ω}
    (h : pumpStep flush (input, w) = .inl (.ok (), w')) :
    ∃ status used made comp dst,
      P.compressor.compress w.comp input chunk flush = (status, used, made, comp) ∧
      writeAll w.dst made = (.ok (), dst) ∧ w' = { w with dst, comp } ∧
      (status = .done ∨
        status = .okay ∧ input.drop used = [] ∧ made.length < chunk ∧ flush ≠ .finish) := by
  unfold pumpStep at h
  rcases hc : P.compressor.compress w.comp input chunk flush with ⟨status, used, made, comp⟩
  simp only [hc] at h
  split at h
  · cases h
  · next dst hw =>
    cases status with
    | done => cases h; exact ⟨_, _, _, _, _, rfl, hw, rfl, .inl rfl⟩
    | failed name => cases h
    | okay =>
      by_cases h1 : (input.drop used).isEmpty ∧ made.length < chunk ∧ flush ≠ .finish
      · simp only [if_pos h1] at h
        cases h
        exact ⟨_, _, _, _, _, rfl, hw, rfl, .inr ⟨rfl, List.isEmpty_iff.1 h1.1, h1.2⟩⟩
      · by_cases h2 : used = 0 ∧ made.isEmpty ∧ flush ≠ .finish
        · simp only [if_neg h1, if_pos h2] at h; cases h
        · simp only [if_neg h1, if_neg h2] at h; cases h

/-- The loop of `pump`. -/
def pumpLoop (flush : Flush) :
    Loop (Bytes × DeflateWriter P ω) (Except IoError Unit × DeflateWriter P ω) where
  body := pumpStep flush
  rank s := P.compressor.rank s.2.comp s.1
  rank_lt := by
    rintro ⟨input, w⟩ s h
    obtain ⟨used, made, comp, dst, hc, -, h1, h2, rfl⟩ := pumpStep_inr h
    exact P.compressor.rank_lt (by decide) hc h2 h1

/-- Give the compressor some input, and write what it makes. -/
def pump (w : DeflateWriter P ω) (input : Bytes) (flush : Flush) :
    Except IoError Unit × DeflateWriter P ω :=
  (pumpLoop flush).run (input, w)

variable {w w' : DeflateWriter P ω} {input : Bytes} {flush : Flush} {F : Format}

theorem pump_error {e : IoError} (h : w.pump input flush = (.error e, w')) :
    interrupted e = false := by
  refine Loop.run_induct (l := pumpLoop flush) (s := (input, w)) (fun _ => True)
    (P := fun b => ∀ e w', b = (.error e, w') → interrupted e = false) trivial
    (fun _ _ => trivial) ?_ e w' h
  rintro ⟨input, w⟩ b - hs e w' rfl
  simp only [pumpLoop, pumpStep] at hs
  split at hs
  · next hw => cases hs; exact writeAll_not_interrupted hw
  · split at hs
    · cases hs
    · split at hs
      · cases hs
      · split at hs
        · cases hs; rfl
        · cases hs
    · cases hs; rfl

/-- What the compressor was given and has made, when it was given nothing more but
    flushed: whole blocks, and it starts anew, or all there is. -/
def Pumped (F : Format) (comp : P.compressor.State) (x out : Bytes) : Flush → Prop
  | .none => P.compressor.Fed comp x out
  | .full => F.Segment out x ∧ P.compressor.Fed comp [] []
  | .finish => P.compressor.Finished x out

/-- What a run of the compressor without a flush has come to, if it ended well. -/
theorem pump_ok (hC : P.compressor.Makes F) {x out : Bytes} (hfed : P.compressor.Fed w.comp x out)
    (h : w.pump input .none = (.ok (), w')) :
    ∃ made, Writes w.dst made w'.dst ∧ w'.held = w.held ∧ w'.consumed = w.consumed ∧
      P.compressor.Fed w'.comp (x ++ input) (out ++ made) := by
  refine Loop.run_induct (l := pumpLoop .none) (s := (input, w))
    (fun s => ∃ done made, Writes w.dst made s.2.dst ∧ s.2.held = w.held ∧
      s.2.consumed = w.consumed ∧ input = done ++ s.1 ∧
      P.compressor.Fed s.2.comp (x ++ done) (out ++ made))
    (P := fun b => ∀ w', b = (.ok (), w') → ∃ made, Writes w.dst made w'.dst ∧ w'.held = w.held ∧
      w'.consumed = w.consumed ∧ P.compressor.Fed w'.comp (x ++ input) (out ++ made))
    ⟨[], [], .refl _, rfl, rfl, rfl, by rwa [List.append_nil, List.append_nil]⟩ ?_ ?_ w' h
  · rintro ⟨rest, w₁⟩ s ⟨done, made, hw, hh, hcons, rfl, hf⟩ hs
    obtain ⟨used, made', comp, dst, hc, hwr, -, -, rfl⟩ := pumpStep_inr hs
    refine ⟨done ++ rest.take used, made ++ made', hw.trans (writeAll_writes hwr), hh, hcons, ?_, ?_⟩
    · rw [List.append_assoc, List.take_append_drop]
    · rw [← List.append_assoc, ← List.append_assoc]
      exact .step hf hc
  · rintro ⟨rest, w₁⟩ b ⟨done, made, hw, hh, hcons, rfl, hf⟩ hs w' rfl
    obtain ⟨status, used, made', comp, dst, hc, hwr, rfl, hend⟩ := pumpStep_inl_ok hs
    simp only at hc hf
    -- without a flush the compressor is never done
    obtain rfl := hC.okay hf (by decide) hc
    obtain ⟨-, hrest, -⟩ := hend.resolve_left (by simp)
    refine ⟨made ++ made', hw.trans (writeAll_writes hwr), hh, hcons, ?_⟩
    have htake : rest.take used = rest := by
      rw [← List.append_nil (rest.take used), ← hrest, List.take_append_drop]
    have hstep := Compressor.Fed.step hf hc
    rw [htake, List.append_assoc, List.append_assoc] at hstep
    exact hstep

/-- What a flush of the compressor has come to, if it ended well. -/
theorem flush_ok (hC : P.compressor.Makes F) {x out : Bytes} (hfed : P.compressor.Fed w.comp x out)
    (hfl : flush ≠ .none) (h : w.pump [] flush = (.ok (), w')) :
    ∃ made, Writes w.dst made w'.dst ∧ w'.held = w.held ∧ w'.consumed = w.consumed ∧
      Pumped F w'.comp x (out ++ made) flush := by
  -- The invariant: the flush is under way, and what it made so far was written.
  refine Loop.run_induct (l := pumpLoop flush) (s := ([], w))
    (fun s => ∃ made, Writes w.dst made s.2.dst ∧ s.2.held = w.held ∧
      s.2.consumed = w.consumed ∧ s.1 = [] ∧ P.compressor.Flushing flush w.comp s.2.comp made)
    (P := fun b => ∀ w', b = (.ok (), w') → ∃ made, Writes w.dst made w'.dst ∧ w'.held = w.held ∧
      w'.consumed = w.consumed ∧ Pumped F w'.comp x (out ++ made) flush)
    ⟨[], .refl _, rfl, rfl, rfl, .start⟩ ?_ ?_ w' h
  · rintro ⟨rest, w₁⟩ s ⟨made, hw, hh, hcons, rfl, hf⟩ hs
    obtain ⟨used, made', comp, dst, hc, hwr, hroom, -, rfl⟩ := pumpStep_inr hs
    refine ⟨made ++ made', hw.trans (writeAll_writes hwr), hh, hcons, List.drop_nil, .step hf hc ?_⟩
    rintro rfl
    obtain h | h | h := hroom
    · cases h
    · exact absurd List.drop_nil h
    · exact h
  · rintro ⟨rest, w₁⟩ b ⟨made, hw, hh, hcons, rfl, hf⟩ hs w' rfl
    obtain ⟨status, used, made', comp, dst, hc, hwr, rfl, hend⟩ := pumpStep_inl_ok hs
    refine ⟨made ++ made', hw.trans (writeAll_writes hwr), hh, hcons, ?_⟩
    simp only at hc hf
    rw [← List.append_assoc]
    rcases flush with - | - | -
    · exact absurd rfl hfl
    · -- the compressor is done only when it is to finish
      obtain rfl | ⟨-, h⟩ := hC.okay_flush hfed hf (by decide) hc
      · obtain ⟨-, -, hroom, -⟩ := hend.resolve_left (by simp)
        exact ⟨hC.full hfed hf hc hroom, .reset hfed hf hc hroom⟩
      · cases h
    · obtain rfl | ⟨rfl, hrest, hroom, h⟩ := hend
      · exact ⟨_, _, _, _, _, _, _, _, hfed, hf, hc, rfl⟩
      · exact absurd rfl h

/-- A run of the compressor, with no input if it is a flush, over a writer that
    takes what it is given, ends well. -/
theorem pump_willing (hC : P.compressor.Makes F) {I : ω → Prop} (hI : Willing I) {x out : Bytes}
    (hfed : P.compressor.Fed w.comp x out) (hin : flush = .none ∨ input = []) (hw : I w.dst) :
    ∃ w', w.pump input flush = (.ok (), w') ∧ I w'.dst := by
  -- The invariant: the sink stays willing, and the compressor is either fed with no
  -- flush, or flushing with no input.
  refine Loop.run_induct (l := pumpLoop flush) (s := (input, w))
    (fun s => I s.2.dst ∧ ((flush = .none ∧ ∃ x out, P.compressor.Fed s.2.comp x out) ∨
      s.1 = [] ∧ ∃ made, P.compressor.Flushing flush w.comp s.2.comp made))
    (P := fun b => ∃ w', b = (.ok (), w') ∧ I w'.dst)
    ⟨hw, hin.imp (fun h => ⟨h, x, out, hfed⟩) fun h => ⟨h, [], .start⟩⟩ ?_ ?_
  · rintro ⟨rest, w₁⟩ s ⟨hw, hf⟩ hs
    obtain ⟨used, made, comp, dst, hc, hwr, hroom, -, rfl⟩ := pumpStep_inr hs
    obtain ⟨dst', hwr', hdst⟩ := hI.writeAll hw made
    rw [hwr] at hwr'
    cases hwr'
    refine ⟨hdst, ?_⟩
    obtain ⟨rfl, x, out, hf⟩ | ⟨rfl, made', hf⟩ := hf
    · exact .inl ⟨rfl, _, _, .step hf hc⟩
    · refine .inr ⟨List.drop_nil, _, .step hf hc ?_⟩
      rintro rfl
      exact (hroom.resolve_left (by simp)).resolve_left (by simp)
  · rintro ⟨rest, w₁⟩ b ⟨hw, hf⟩ hs
    simp only [pumpLoop, pumpStep] at hs
    rcases hc : P.compressor.compress w₁.comp rest chunk flush with ⟨status, used, made, comp⟩
    obtain ⟨dst, hwr, hdst⟩ := hI.writeAll hw made
    have hstatus : status = .okay ∨ status = .done ∧ flush = .finish := by
      obtain ⟨rfl, x, out, hf⟩ | ⟨rfl, made', hf⟩ := hf
      · exact .inl (hC.okay hf (by decide) hc)
      · exact hC.okay_flush hfed hf (by decide) hc
    simp only [hc, hwr] at hs
    obtain rfl | ⟨rfl, -⟩ := hstatus
    · simp only at hs
      split at hs
      · cases hs; exact ⟨_, rfl, hdst⟩
      · next h1 =>
        split at hs
        · -- it makes progress as long as there is input, or its room was filled
          next h2 =>
          exfalso
          obtain ⟨hu, hm, hfl⟩ := h2
          have hm : made = [] := List.isEmpty_iff.1 hm
          have hrest : rest ≠ [] := by
            rintro rfl
            exact h1 ⟨by simp, by simp [hm, chunk], hfl⟩
          obtain ⟨rfl, x, out, hf⟩ | ⟨hnil, -⟩ := hf
          · obtain h | h := hC.progress hf (by decide) hc hrest
            · exact h hu
            · exact h hm
          · exact hrest hnil
        · cases hs
    · cases hs
      exact ⟨_, rfl, hdst⟩

/-! ### Chunks -/

/-- Write some bytes as stored blocks. -/
def storeBlocks (bytes : Bytes) : Prog ω IoError Unit :=
  Prog.each (fun _ block => do
    fun dst => writeAll dst (0 :: (le16 block.length ++ le16 (2 ^ 16 - 1 - block.length)))
    fun dst => writeAll dst block) () (chunks storedBlockMax bytes)

/-- Decide the held chunk: into the compressor, or stored. -/
def release (w : DeflateWriter P ω) (held : Held) : Except IoError Unit × DeflateWriter P ω × Held :=
  if held.buf.isEmpty then (.ok (), w, held)
  else
    let bytes := held.buf
    let held := { held with buf := [] }
    if P.incompressible bytes = false then
      let (result, w) := w.pump bytes .none
      (result, w, { held with compressing := true })
    else
      -- stored blocks start on a byte, so the compressor is flushed before them
      match if held.compressing then w.pump [] .full else (.ok (), w) with
      | (.error e, w) => (.error e, w, held)
      | (.ok (), w) =>
        let (result, dst) := storeBlocks bytes w.dst
        (result, { w with dst }, { held with compressing := false })

/-- What a writer that has taken `data`, but for what it holds, has written: the
    blocks of `x`, up to the last full flush, then what the compressor has made of
    the `y` it was given since. -/
def Deflated (F : Format) (dst₀ dst : ω) (comp : P.compressor.State) (compressing : Bool)
    (data : Bytes) : Prop :=
  ∃ x y code out, Writes dst₀ (code ++ out) dst ∧ F.Segment code x ∧ P.compressor.Fed comp y out ∧
    data = x ++ y ∧ (compressing = false → y = [] ∧ out = [])

theorem storeBlocks_ok {bytes : Bytes} {dst dst' : ω}
    (h : storeBlocks bytes dst = (.ok (), dst')) (F : Format) :
    ∃ code, Writes dst code dst' ∧ F.Segment code bytes := by
  have := Prog.each_induct (I := fun done _ dst' => ∃ code, Writes dst code dst' ∧
      F.Segment code done.flatten) ⟨[], .refl dst, F.segment_nil⟩ ?_ h
  · rwa [flatten_chunks (by decide)] at this
  · rintro done block rest ⟨⟩ ⟨⟩ dst₁ dst₂ hl ⟨code, hw, hs⟩ hb
    obtain ⟨⟨⟩, dst₃, h1, h2⟩ := Prog.bind_eq_ok.1 hb
    have hlen : block.length < 2 ^ 16 :=
      Nat.lt_succ_of_le (length_le_of_mem_chunks (hl ▸ List.mem_append_right _ List.mem_cons_self))
    refine ⟨code ++ storedBlock block,
      hw.trans ((writeAll_writes h1).trans (writeAll_writes h2)), ?_⟩
    rw [List.flatten_append, List.flatten_singleton]
    exact F.segment_append hs (F.stored hlen)

theorem storeBlocks_error {bytes : Bytes} {dst dst' : ω} {e : IoError}
    (h : storeBlocks bytes dst = (.error e, dst')) : interrupted e = false := by
  unfold storeBlocks at h
  generalize chunks storedBlockMax bytes = l at h
  induction l generalizing dst with
  | nil => cases h
  | cons block l ih =>
    rw [Prog.each_cons] at h
    obtain h | ⟨⟨⟩, dst₁, -, h⟩ := Prog.bind_eq_error.1 h
    · obtain h | ⟨⟨⟩, dst₁, -, h⟩ := Prog.bind_eq_error.1 h
      · exact writeAll_not_interrupted h
      · exact writeAll_not_interrupted h
    · exact ih h

theorem storeBlocks_willing {I : ω → Prop} (hI : Willing I) {dst : ω} (h : I dst) (bytes : Bytes) :
    ∃ dst', storeBlocks bytes dst = (.ok (), dst') ∧ I dst' := by
  unfold storeBlocks
  generalize chunks storedBlockMax bytes = l
  induction l generalizing dst with
  | nil => exact ⟨dst, rfl, h⟩
  | cons block l ih =>
    obtain ⟨dst₁, h₁, hd₁⟩ :=
      hI.writeAll h (0 :: (le16 block.length ++ le16 (2 ^ 16 - 1 - block.length)))
    obtain ⟨dst₂, h₂, hd₂⟩ := hI.writeAll hd₁ block
    obtain ⟨dst₃, h₃, hd₃⟩ := ih hd₂
    exact ⟨dst₃, (Prog.bind_of_ok ((Prog.bind_of_ok h₁).trans h₂)).trans h₃, hd₃⟩

variable {held held' : Held} {data : Bytes} {dst₀ : ω}

/-- All that can happen to a held chunk: it is empty, it goes into the compressor, the flush
    before it fails, or it is stored. -/
theorem release_cases (w : DeflateWriter P ω) (held : Held) :
    (held.buf = [] ∧ w.release held = (.ok (), w, held)) ∨
      (∃ result w₁, w.pump held.buf .none = (result, w₁) ∧
        w.release held = (result, w₁, { buf := [], compressing := true })) ∨
      (∃ e w₁, held.compressing = true ∧ w.pump [] .full = (.error e, w₁) ∧
        w.release held = (.error e, w₁, { held with buf := [] })) ∨
      ∃ w₁ result dst, (held.compressing = true ∧ w.pump [] .full = (.ok (), w₁) ∨
          held.compressing = false ∧ w₁ = w) ∧
        storeBlocks held.buf w₁.dst = (result, dst) ∧
        w.release held = (result, { w₁ with dst }, { buf := [], compressing := false }) := by
  by_cases hb : held.buf.isEmpty
  · exact .inl ⟨List.isEmpty_iff.1 hb, if_pos hb⟩
  by_cases hi : P.incompressible held.buf = false
  · rcases hp : w.pump held.buf .none with ⟨result, w₁⟩
    refine .inr (.inl ⟨result, w₁, rfl, ?_⟩)
    show (if held.buf.isEmpty then _ else if P.incompressible held.buf = false then
      (match w.pump held.buf .none with
        | (result, w) => (result, w, ({ buf := [], compressing := true } : Held))) else _) = _
    rw [if_neg hb, if_pos hi, hp]
  -- With its result split, no `match` is left to run the loop that writes the blocks.
  have hsplit : (storeBlocks held.buf : Prog ω IoError Unit) = fun dst =>
      ((storeBlocks held.buf dst).1, (storeBlocks held.buf dst).2) := by
    funext dst
    exact (Prod.eta (storeBlocks held.buf dst)).symm
  have hrelease : w.release held =
      match if held.compressing then w.pump [] .full else (.ok (), w) with
      | (.error e, w) => (.error e, w, { held with buf := [] })
      | (.ok (), w) =>
        let (result, dst) := storeBlocks held.buf w.dst
        (result, { w with dst }, { buf := [], compressing := false }) := by
    show (if held.buf.isEmpty then _ else if P.incompressible held.buf = false then _ else _) = _
    rw [if_neg hb, if_neg hi]
  rw [hsplit] at hrelease
  rcases hp : (if held.compressing then w.pump [] .full else (.ok (), w)) with ⟨e | ⟨⟩, w₁⟩ <;>
    rw [hp] at hrelease
  · split at hp
    · next hc => exact .inr (.inr (.inl ⟨e, w₁, hc, hp, hrelease⟩))
    · cases hp
  · refine .inr (.inr (.inr ⟨w₁, _, _, ?_, (Prod.eta _).symm, hrelease⟩))
    split at hp
    · next hc => exact .inl ⟨hc, hp⟩
    · next hc =>
      cases hp
      exact .inr ⟨Bool.eq_false_iff.2 hc, rfl⟩

/-- The ways a chunk is released well. -/
theorem release_ok (h : w.release held = (.ok (), w', held')) :
    (held.buf = [] ∧ w' = w ∧ held' = held) ∨
      (w.pump held.buf .none = (.ok (), w') ∧ held' = { buf := [], compressing := true }) ∨
      ∃ w₁ dst, (held.compressing = true ∧ w.pump [] .full = (.ok (), w₁) ∨
          held.compressing = false ∧ w₁ = w) ∧
        storeBlocks held.buf w₁.dst = (.ok (), dst) ∧ w' = { w₁ with dst } ∧
        held' = { buf := [], compressing := false } := by
  obtain ⟨hb, hr⟩ | ⟨result, w₁, hp, hr⟩ | ⟨e, w₁, -, -, hr⟩ | ⟨w₁, result, dst, hw, hs, hr⟩ :=
    release_cases w held
  · cases hr.symm.trans h
    exact .inl ⟨hb, rfl, rfl⟩
  · cases hr.symm.trans h
    exact .inr (.inl ⟨hp, rfl⟩)
  · cases hr.symm.trans h
  · cases hr.symm.trans h
    exact .inr (.inr ⟨w₁, dst, hw, hs, rfl, rfl⟩)

theorem release_error {e : IoError} (h : w.release held = (.error e, w', held')) :
    interrupted e = false := by
  obtain ⟨-, hr⟩ | ⟨result, w₁, hp, hr⟩ | ⟨e, w₁, -, hp, hr⟩ | ⟨w₁, result, dst, -, hs, hr⟩ :=
    release_cases w held
  · cases hr.symm.trans h
  · cases hr.symm.trans h
    exact pump_error hp
  · cases hr.symm.trans h
    exact pump_error hp
  · cases hr.symm.trans h
    exact storeBlocks_error hs

/-- A released chunk is written, or in the compressor. -/
theorem Deflated.release (hC : P.compressor.Makes F)
    (hr : w.release held = (.ok (), w', held'))
    (h : Deflated F dst₀ w.dst w.comp held.compressing data) :
    Deflated F dst₀ w'.dst w'.comp held'.compressing (data ++ held.buf) ∧ held'.buf = [] ∧
      w'.held = w.held ∧ w'.consumed = w.consumed := by
  obtain ⟨x, y, code, out, hw, hseg, hfed, rfl, hc⟩ := h
  obtain ⟨hb, rfl, rfl⟩ | ⟨hp, rfl⟩ | ⟨w₁, dst, hfl, hs, rfl, rfl⟩ := release_ok hr
  · rw [hb, List.append_nil]
    exact ⟨⟨x, y, code, out, hw, hseg, hfed, rfl, hc⟩, rfl, rfl, rfl⟩
  · obtain ⟨made, hm, hh, hcons, hf⟩ := pump_ok hC hfed hp
    refine ⟨⟨x, y ++ held.buf, code, out ++ made, ?_, hseg, hf, ?_, nofun⟩, rfl, hh, hcons⟩
    · rw [← List.append_assoc]; exact hw.trans hm
    · rw [List.append_assoc]
  · -- after a full flush, or without one, all is in whole blocks
    have hflushed : ∃ code', Writes dst₀ code' w₁.dst ∧ F.Segment code' (x ++ y) ∧
        P.compressor.Fed w₁.comp [] [] ∧ w₁.held = w.held ∧ w₁.consumed = w.consumed := by
      obtain ⟨-, hp⟩ | ⟨hcomp, rfl⟩ := hfl
      · obtain ⟨made, hm, hh, hcons, hseg', hf⟩ := flush_ok hC hfed (by simp) hp
        refine ⟨code ++ (out ++ made), ?_, F.segment_append hseg hseg', hf, hh, hcons⟩
        rw [← List.append_assoc]; exact hw.trans hm
      · obtain ⟨rfl, rfl⟩ := hc hcomp
        rw [List.append_nil] at hw
        rw [List.append_nil]
        exact ⟨code, hw, hseg, hfed, rfl, rfl⟩
    obtain ⟨code', hw', hseg', hf, hh, hcons⟩ := hflushed
    obtain ⟨stored, hst, hsst⟩ := storeBlocks_ok hs F
    refine ⟨⟨x ++ y ++ held.buf, [], code' ++ stored, [], ?_, F.segment_append hseg' hsst, hf, ?_,
      fun _ => ⟨rfl, rfl⟩⟩, rfl, hh, hcons⟩
    · rw [List.append_nil]; exact hw'.trans hst
    · rw [List.append_nil]

theorem release_willing (hC : P.compressor.Makes F) {I : ω → Prop} (hI : Willing I)
    (hfed : ∃ x out, P.compressor.Fed w.comp x out) (hw : I w.dst) (held : Held) :
    ∃ w' held', w.release held = (.ok (), w', held') ∧ I w'.dst := by
  obtain ⟨x, out, hfed⟩ := hfed
  have hfull : ∃ w', w.pump [] .full = (.ok (), w') ∧ I w'.dst :=
    pump_willing hC hI hfed (.inr rfl) hw
  obtain ⟨-, hr⟩ | ⟨result, w₁, hp, hr⟩ | ⟨e, w₁, -, hp, hr⟩ | ⟨w₁, result, dst, hc, hs, hr⟩ :=
    release_cases w held
  · exact ⟨_, _, hr, hw⟩
  · obtain ⟨w', hp', hd⟩ : ∃ w', w.pump held.buf .none = (.ok (), w') ∧ I w'.dst :=
      pump_willing hC hI hfed (.inl rfl) hw
    cases hp.symm.trans hp'
    exact ⟨_, _, hr, hd⟩
  · obtain ⟨w', hp', -⟩ := hfull
    cases hp.symm.trans hp'
  · have hd : I w₁.dst := by
      obtain ⟨-, hp⟩ | ⟨-, rfl⟩ := hc
      · obtain ⟨w', hp', hd⟩ := hfull
        cases hp.symm.trans hp'
        exact hd
      · exact hw
    obtain ⟨dst', hs', hd'⟩ := storeBlocks_willing hI hd held.buf
    cases hs.symm.trans hs'
    exact ⟨_, _, hr, hd'⟩

/-! ### Writing -/

/-- One pass of an adaptive write: fill the chunk, and release it once it is full. -/
def gatherStep : Bytes × DeflateWriter P ω × Held →
    (Except IoError Unit × DeflateWriter P ω × Held) ⊕ (Bytes × DeflateWriter P ω × Held)
  | (rest, w, held) =>
    let take := min (chunk - held.buf.length) rest.length
    let held := { held with buf := held.buf ++ rest.take take }
    let rest := rest.drop take
    if held.buf.length < chunk then .inl (.ok (), w, held)
    else
      match w.release held with
      | (.ok (), w, held) => .inr (rest, w, held)
      | (.error e, w, held) => .inl (.error e, w, held)

theorem release_buf (h : w.release held = (.ok (), w', held')) : held'.buf = [] := by
  obtain ⟨hb, -, rfl⟩ | ⟨-, rfl⟩ | ⟨-, -, -, -, -, rfl⟩ := release_ok h
  · exact hb
  · rfl
  · rfl

/-- The loop of an adaptive write. -/
def gatherLoop : Loop (Bytes × DeflateWriter P ω × Held)
    (Except IoError Unit × DeflateWriter P ω × Held) where
  body := gatherStep
  rank s := s.1.length + s.2.2.buf.length
  rank_lt := by
    rintro ⟨rest, w, held⟩ s' h
    simp only [gatherStep] at h
    split at h
    · cases h
    · next hfull =>
      split at h
      · next hr =>
        cases h
        have hpos : 0 < chunk := by decide
        simp only [List.length_append, List.length_take, Nat.not_lt] at hfull
        simp only [release_buf hr, List.length_nil, List.length_drop]
        omega
      · cases h

def next (w : DeflateWriter P ω) (buf : Bytes) : Except IoError ℕ × DeflateWriter P ω :=
  let w := { w with consumed := w.consumed + buf.length }
  match w.held with
  | none =>
    match w.pump buf .none with
    | (.ok (), w) => (.ok buf.length, w)
    | (.error e, w) => (.error e, w)
  | some held =>
    match gatherLoop.run (buf, { w with held := none }, held) with
    | (.ok (), w, held) => (.ok buf.length, { w with held := some held })
    | (.error e, w, held) => (.error e, { w with held := some held })

/-- End the stream. -/
def finish (w : DeflateWriter P ω) : Except IoError Unit × ω :=
  match w.held with
  | none => let (result, w) := w.pump [] .finish; (result, w.dst)
  | some held =>
    match ({ w with held := none } : DeflateWriter P ω).release held with
    | (.ok (), w, _) => let (result, w) := w.pump [] .finish; (result, w.dst)
    | (.error e, w, _) => (.error e, w.dst)

variable {bs : Bytes} {n : ℕ}

theorem gather_error {rest : Bytes} {e : IoError}
    (h : gatherLoop.run (rest, w, held) = (.error e, w', held')) : interrupted e = false := by
  refine Loop.run_induct (l := gatherLoop) (s := (rest, w, held)) (fun _ => True)
    (P := fun b => ∀ e w' held', b = (.error e, w', held') → interrupted e = false) trivial
    (fun _ _ => trivial) ?_ e w' held' h
  rintro ⟨rest, w, held⟩ b - hs e w' held' rfl
  simp only [gatherLoop, gatherStep] at hs
  split at hs
  · cases hs
  · split at hs
    · cases hs
    · next hr => cases hs; exact release_error hr

theorem next_ok (h : w.next bs = (.ok n, w')) :
    n = bs.length ∧
      ((w.held = none ∧
          ({ w with consumed := w.consumed + bs.length } : DeflateWriter P ω).pump bs .none =
            (.ok (), w')) ∨
        ∃ held held' w₁, w.held = some held ∧
          gatherLoop.run (bs, { w with held := none, consumed := w.consumed + bs.length }, held) =
            (.ok (), w₁, held') ∧ w' = { w₁ with held := some held' }) := by
  unfold next at h
  simp only at h
  split at h
  · next hh =>
    split at h
    · next hp => cases h; exact ⟨rfl, .inl ⟨hh, hp⟩⟩
    · cases h
  · next held hh =>
    split at h
    · next w₁ held' hg => cases h; exact ⟨rfl, .inr ⟨held, held', w₁, hh, hg, rfl⟩⟩
    · cases h

theorem next_error {e : IoError} (h : w.next bs = (.error e, w')) : interrupted e = false := by
  unfold next at h
  simp only at h
  split at h
  · split at h
    · cases h
    · next hp => cases h; exact pump_error hp
  · split at h
    · cases h
    · next hg => cases h; exact gather_error hg

instance : Write (DeflateWriter P ω) IoError where
  write := next
  patience _ := 0
  le_length h := (next_ok h).1.le
  patience_le _ := le_rfl
  patience_lt h hi := by rw [next_error h] at hi; cases hi

/-- What a writer that has taken `data` has written. -/
def Written (F : Format) (dst₀ : ω) (w : DeflateWriter P ω) (data : Bytes) : Prop :=
  w.consumed = data.length ∧
    match w.held with
    | none => Deflated F dst₀ w.dst w.comp true data
    | some held => ∃ released, Deflated F dst₀ w.dst w.comp held.compressing released ∧
        data = released ++ held.buf

theorem deflated_init (F : Format) (dst : ω) (compressing : Bool) :
    Deflated (P := P) F dst dst P.compressor.init compressing [] :=
  ⟨[], [], [], [], .refl dst, F.segment_nil, .init, rfl, fun _ => ⟨rfl, rfl⟩⟩

theorem written_adaptive (F : Format) (dst : ω) : Written F dst (adaptive P dst) [] :=
  ⟨rfl, [], deflated_init F dst false, rfl⟩

theorem gather_ok (hC : P.compressor.Makes F) {rest released : Bytes}
    (h : gatherLoop.run (rest, w, held) = (.ok (), w', held'))
    (hd : Deflated F dst₀ w.dst w.comp held.compressing released) :
    ∃ released', Deflated F dst₀ w'.dst w'.comp held'.compressing released' ∧
      released ++ held.buf ++ rest = released' ++ held'.buf ∧ w'.consumed = w.consumed := by
  -- The invariant: what was released, what is held and what is left make up the input.
  refine Loop.run_induct (l := gatherLoop) (s := (rest, w, held))
    (fun s => ∃ released', Deflated F dst₀ s.2.1.dst s.2.1.comp s.2.2.compressing released' ∧
      released ++ held.buf ++ rest = released' ++ s.2.2.buf ++ s.1 ∧
        s.2.1.consumed = w.consumed)
    (P := fun b => ∀ w' held', b = (.ok (), w', held') →
      ∃ released', Deflated F dst₀ w'.dst w'.comp held'.compressing released' ∧
        released ++ held.buf ++ rest = released' ++ held'.buf ∧ w'.consumed = w.consumed)
    ⟨released, hd, rfl, rfl⟩ ?_ ?_ w' held' h
  · rintro ⟨rest, w₁, held₁⟩ s' ⟨released₁, hd, heq, hcons⟩ hs
    simp only [gatherLoop, gatherStep] at hs
    split at hs
    · cases hs
    · split at hs
      · next hr =>
        cases hs
        obtain ⟨hd', hb, -, hcons'⟩ := Deflated.release hC hr hd
        refine ⟨_, hd', ?_, hcons'.trans hcons⟩
        simp only at heq
        rw [hb, List.append_nil, heq]
        simp only [List.append_assoc, List.take_append_drop]
      · cases hs
  · rintro ⟨rest, w₁, held₁⟩ b ⟨released₁, hd, heq, hcons⟩ hs w' held' rfl
    simp only [gatherLoop, gatherStep] at hs
    split at hs
    · next hlt =>
      cases hs
      refine ⟨released₁, hd, ?_, hcons⟩
      simp only [List.length_append, List.length_take] at hlt
      simp only at heq
      rw [heq, List.append_assoc, List.take_of_length_le (by omega)]
    · split at hs
      · cases hs
      · cases hs

/-- Every write is taken whole, and keeps what has been written. -/
theorem Written.next (hC : P.compressor.Makes F) (h : Written F dst₀ w data)
    (hn : w.next bs = (.ok n, w')) : n = bs.length ∧ Written F dst₀ w' (data ++ bs) := by
  obtain ⟨hcons, hd⟩ := h
  obtain ⟨hlen, ⟨hh, hp⟩ | ⟨held, held', w₁, hh, hg, rfl⟩⟩ := next_ok hn
  · rw [hh] at hd
    obtain ⟨x, y, code, out, hw, hseg, hfed, rfl, -⟩ := hd
    obtain ⟨made, hm, hh', hcons', hf⟩ := pump_ok hC (by exact hfed) hp
    refine ⟨hlen, ?_, ?_⟩
    · rw [hcons', List.length_append, ← hcons]
    · rw [hh', show ({ w with consumed := w.consumed + bs.length } : DeflateWriter P ω).held = none
        from hh]
      refine ⟨x, y ++ bs, code, out ++ made, ?_, hseg, hf, List.append_assoc _ _ _, nofun⟩
      rw [← List.append_assoc]
      exact hw.trans hm
  · rw [hh] at hd
    obtain ⟨released, hd, rfl⟩ := hd
    obtain ⟨released', hd', heq, hcons'⟩ := gather_ok hC hg hd
    refine ⟨hlen, ?_, released', hd', heq⟩
    rw [List.length_append, ← hcons]
    exact hcons'

/-- However it is given its input, a writer has taken it. -/
theorem Written.writes (hC : P.compressor.Makes F) (h : Written F dst₀ w data)
    (hw : Writes w bs w') : Written F dst₀ w' (data ++ bs) := by
  induction hw generalizing data with
  | refl w => rwa [List.append_nil]
  | @ok w w₁ w₂ n bs cs hwr _ ih =>
    obtain ⟨rfl, h'⟩ := h.next hC hwr
    rw [List.take_length, ← List.append_assoc]
    exact ih h'
  | retry hwr hi => rw [next_error hwr] at hi; cases hi

/-- What a finished writer has written is a complete stream of its input. -/
theorem finish_ok (hC : P.compressor.Makes F) (h : Written F dst₀ w data) {dst : ω}
    (hf : w.finish = (.ok (), dst)) : ∃ code, Writes dst₀ code dst ∧ F.Complete code data := by
  have hpump : ∀ {w : DeflateWriter P ω} {compressing : Bool} {data : Bytes},
      Deflated F dst₀ w.dst w.comp compressing data →
      (w.pump [] .finish).1 = .ok () → (w.pump [] .finish).2.dst = dst →
        ∃ code, Writes dst₀ code dst ∧ F.Complete code data := by
    rintro w compressing _ ⟨x, y, code, out, hw, hseg, hfed, rfl, -⟩ hp hdst
    obtain ⟨made, hm, -, -, hc⟩ := flush_ok hC hfed (by simp) (Prod.ext hp rfl)
    refine ⟨code ++ (out ++ made), ?_, F.append_complete hseg (hC.finish hc)⟩
    rw [← List.append_assoc, ← hdst]
    exact hw.trans hm
  obtain ⟨-, hd⟩ := h
  unfold finish at hf
  split at hf
  · next hh =>
    rw [hh] at hd
    exact hpump hd (congrArg Prod.fst hf) (congrArg Prod.snd hf)
  · next held hh =>
    rw [hh] at hd
    obtain ⟨released, hd, rfl⟩ := hd
    split at hf
    · next hr =>
      obtain ⟨hd', -, -, -⟩ := Deflated.release hC hr hd
      exact hpump hd' (congrArg Prod.fst hf) (congrArg Prod.snd hf)
    · cases hf

/-! ### Over a writer that takes what it is given -/

section

variable {I : ω → Prop}

theorem Deflated.fed {dst : ω} {comp : P.compressor.State} {compressing : Bool}
    (h : Deflated F dst₀ dst comp compressing data) : ∃ x out, P.compressor.Fed comp x out := by
  obtain ⟨x, y, code, out, -, -, hfed, -⟩ := h
  exact ⟨y, out, hfed⟩

/-- A pass that releases a chunk goes round again, in the same state of things. -/
theorem gatherStep_willing (hC : P.compressor.Makes F) (hI : Willing I) {released : Bytes}
    (hd : Deflated F dst₀ w.dst w.comp held.compressing released) (hw : I w.dst) (rest : Bytes) :
    (∃ held', gatherStep (rest, w, held) = .inl (.ok (), w, held')) ∨
      ∃ rest' w' held' released', gatherStep (rest, w, held) = .inr (rest', w', held') ∧
        I w'.dst ∧ Deflated F dst₀ w'.dst w'.comp held'.compressing released' := by
  let full : Held :=
    { held with buf := held.buf ++ rest.take (min (chunk - held.buf.length) rest.length) }
  by_cases hlt : full.buf.length < chunk
  · exact .inl ⟨full, by simp only [gatherStep]; exact if_pos hlt⟩
  · obtain ⟨w', held', hr, hw'⟩ := release_willing hC hI hd.fed hw full
    refine .inr ⟨rest.drop (min (chunk - held.buf.length) rest.length), w', held', _, ?_, hw',
      (Deflated.release hC hr hd).1⟩
    simp only [gatherStep]
    refine (if_neg hlt).trans ?_
    simp only [full] at hr
    simp only [hr]

theorem gather_willing (hC : P.compressor.Makes F) (hI : Willing I) {rest released : Bytes}
    (hd : Deflated F dst₀ w.dst w.comp held.compressing released) (hw : I w.dst) :
    ∃ w' held', gatherLoop.run (rest, w, held) = (.ok (), w', held') ∧ I w'.dst := by
  refine Loop.run_induct (l := gatherLoop) (s := (rest, w, held))
    (fun s => I s.2.1.dst ∧ ∃ released,
      Deflated F dst₀ s.2.1.dst s.2.1.comp s.2.2.compressing released)
    (P := fun b => ∃ w' held', b = (.ok (), w', held') ∧ I w'.dst) ⟨hw, released, hd⟩ ?_ ?_
  · rintro ⟨rest, w₁, held₁⟩ s ⟨hw, released, hd⟩ hs
    obtain ⟨held', h⟩ | ⟨rest', w', held', released', h, hw', hd'⟩ :=
      gatherStep_willing hC hI hd hw rest
    · cases h.symm.trans hs
    · cases h.symm.trans hs
      exact ⟨hw', released', hd'⟩
  · rintro ⟨rest, w₁, held₁⟩ b ⟨hw, released, hd⟩ hs
    obtain ⟨held', h⟩ | ⟨rest', w', held', released', h, hw', hd'⟩ :=
      gatherStep_willing hC hI hd hw rest
    · cases h.symm.trans hs
      exact ⟨w₁, held', rfl, hw⟩
    · cases h.symm.trans hs

/-- Every write is taken. -/
theorem next_willing (hC : P.compressor.Makes F) (hI : Willing I) (h : Written F dst₀ w data)
    (hw : I w.dst) (bs : Bytes) : ∃ w', w.next bs = (.ok bs.length, w') ∧ I w'.dst := by
  obtain ⟨-, hd⟩ := h
  let w₁ : DeflateWriter P ω := { w with consumed := w.consumed + bs.length }
  split at hd
  · next hh =>
    obtain ⟨x, out, hfed⟩ := hd.fed
    have hp : ∃ w', w₁.pump bs .none = (.ok (), w') ∧ I w'.dst :=
      pump_willing hC hI hfed (.inl rfl) hw
    obtain ⟨w', hp, hw'⟩ := hp
    refine ⟨w', ?_, hw'⟩
    simp only [w₁, hh] at hp
    simp only [DeflateWriter.next, hh, hp]
  · next held hh =>
    obtain ⟨released, hd, -⟩ := hd
    have hg : ∃ w' held', gatherLoop.run (bs, { w₁ with held := none }, held) =
        (.ok (), w', held') ∧ I w'.dst := gather_willing hC hI hd hw
    obtain ⟨w', held', hg, hw'⟩ := hg
    refine ⟨{ w' with held := some held' }, ?_, hw'⟩
    simp only [w₁] at hg
    simp only [DeflateWriter.next, hh, hg]

theorem willing (hC : P.compressor.Makes F) (hI : Willing I) :
    Willing fun w : DeflateWriter P ω => I w.dst ∧ ∃ dst₀ data, Written F dst₀ w data := by
  rintro w bs ⟨hw, dst₀, data, h⟩
  obtain ⟨w', hn, hw'⟩ := next_willing hC hI h hw bs
  exact ⟨bs.length, w', hn, List.length_pos_iff.2, hw', dst₀, _, (h.next hC hn).2⟩

theorem finish_willing (hC : P.compressor.Makes F) (hI : Willing I) (h : Written F dst₀ w data)
    (hw : I w.dst) : ∃ dst, w.finish = (.ok (), dst) ∧ I dst := by
  have hpump : ∀ {w : DeflateWriter P ω} {compressing : Bool} {data : Bytes},
      Deflated F dst₀ w.dst w.comp compressing data → I w.dst →
        ∃ w', w.pump [] .finish = (.ok (), w') ∧ I w'.dst := by
    intro w compressing data hd hw
    obtain ⟨x, out, hfed⟩ := hd.fed
    exact pump_willing hC hI hfed (.inr rfl) hw
  obtain ⟨-, hd⟩ := h
  split at hd
  · next hh =>
    obtain ⟨w', hp, hw'⟩ := hpump hd hw
    refine ⟨w'.dst, ?_, hw'⟩
    simp only [finish, hh, hp]
  · next held hh =>
    obtain ⟨released, hd, -⟩ := hd
    have hr : ∃ w₁ held', ({ w with held := none } : DeflateWriter P ω).release held =
        (.ok (), w₁, held') ∧ I w₁.dst :=
      release_willing (w := { w with held := none }) hC hI hd.fed hw held
    obtain ⟨w₁, held', hr, hw₁⟩ := hr
    obtain ⟨w', hp, hw'⟩ := hpump (Deflated.release hC hr hd).1 hw₁
    refine ⟨w'.dst, ?_, hw'⟩
    simp only [finish, hh, hr, hp]

end

/-! ### Whatever the compressor does -/

/-- Some bytes came out, and no input was counted. -/
def Emits (w w' : DeflateWriter P ω) : Prop :=
  (∃ made, Writes w.dst made w'.dst) ∧ w'.consumed = w.consumed

section

variable {w w₁ w' : DeflateWriter P ω} {input bs : Bytes} {flush : Flush} {held held' : Held}

theorem Emits.refl (w : DeflateWriter P ω) : Emits w w := ⟨⟨[], .refl _⟩, rfl⟩

theorem Emits.trans (h : Emits w w₁) (h' : Emits w₁ w') : Emits w w' := by
  obtain ⟨⟨made, hw⟩, hc⟩ := h
  obtain ⟨⟨made', hw'⟩, hc'⟩ := h'
  exact ⟨⟨made ++ made', hw.trans hw'⟩, hc'.trans hc⟩

end

/-! ### In memory -/

section

variable {w w' : DeflateWriter P ω} {input bs code : Bytes} {flush : Flush}

/-- The writer as it is, over a buffer. -/
def inMemory (w : DeflateWriter P ω) (bytes : Bytes) : DeflateWriter P (Buffer IoError) :=
  ⟨⟨bytes⟩, w.comp, w.consumed, w.held⟩

/-- What a call of the compressor makes is the same over a buffer. -/
theorem pumpStep_inMemory {status : CompressStatus} {used : ℕ} {made : Bytes}
    {comp : P.compressor.State} {dst : ω}
    (hc : P.compressor.compress w.comp input chunk flush = (status, used, made, comp))
    (hw : writeAll w.dst made = (.ok (), dst)) (bytes : Bytes) :
    pumpStep flush (input, w.inMemory bytes) =
      (pumpStep flush (input, w)).map (fun b => (b.1, b.2.inMemory (bytes ++ made)))
        fun s => (s.1, s.2.inMemory (bytes ++ made)) := by
  simp only [pumpStep, inMemory, hc, hw, Buffer.writeAll_eq]
  cases status with
  | done => rfl
  | failed name => rfl
  | okay =>
    dsimp only
    split
    · rfl
    · split <;> rfl

/-- So is what a run of it makes. -/
theorem pump_inMemory (h : w.pump input flush = (.ok (), w')) (bytes : Bytes) :
    ∃ made, Writes w.dst made w'.dst ∧ w'.held = w.held ∧
      (w.inMemory bytes).pump input flush = (.ok (), w'.inMemory (bytes ++ made)) := by
  refine Loop.run_induct (l := pumpLoop flush) (s := (input, w))
    (fun s => ∃ made, Writes w.dst made s.2.dst ∧ s.2.held = w.held ∧
      (w.inMemory bytes).pump input flush = (s.2.inMemory (bytes ++ made)).pump s.1 flush)
    (P := fun b => ∀ w', b = (.ok (), w') → ∃ made, Writes w.dst made w'.dst ∧ w'.held = w.held ∧
      (w.inMemory bytes).pump input flush = (.ok (), w'.inMemory (bytes ++ made)))
    ⟨[], .refl _, rfl, by rw [List.append_nil]⟩ ?_ ?_ w' h
  · rintro ⟨rest, w₁⟩ s ⟨made, hw, hh, hrun⟩ hs
    obtain ⟨used, made', comp, dst, hc, hwr, -, -, rfl⟩ := pumpStep_inr hs
    have hs' := pumpStep_inMemory hc hwr (bytes ++ made)
    rw [show pumpStep flush (rest, w₁) = _ from hs] at hs'
    refine ⟨made ++ made', hw.trans (writeAll_writes hwr), hh, ?_⟩
    rw [hrun, ← List.append_assoc]
    exact Loop.run_inr (l := pumpLoop flush) hs'
  · rintro ⟨rest, w₁⟩ b ⟨made, hw, hh, hrun⟩ hs w' rfl
    obtain ⟨status, used, made', comp, dst, hc, hwr, rfl, -⟩ := pumpStep_inl_ok hs
    have hs' := pumpStep_inMemory hc hwr (bytes ++ made)
    rw [show pumpStep flush (rest, w₁) = _ from hs] at hs'
    refine ⟨made ++ made', hw.trans (writeAll_writes hwr), hh, ?_⟩
    rw [hrun, ← List.append_assoc]
    exact Loop.run_inl (l := pumpLoop flush) hs'

/-- A writer that holds nothing makes the same of its input over a buffer. -/
theorem writes_inMemory (hh : w.held = none) (h : Writes w bs w') (bytes : Bytes) :
    w'.held = none ∧ ∃ made, Writes w.dst made w'.dst ∧
      Writes (w.inMemory bytes) bs (w'.inMemory (bytes ++ made)) := by
  induction h generalizing bytes with
  | refl w => exact ⟨hh, [], .refl _, by rw [List.append_nil]; exact .refl _⟩
  | @ok w w₁ w₂ n bs cs h _ ih =>
    obtain ⟨rfl, ⟨-, hp⟩ | ⟨held, held', w₁, hheld, -⟩⟩ := next_ok h
    · obtain ⟨made, hw, hsame, hmem⟩ := pump_inMemory hp bytes
      obtain ⟨hnone, made', hw', hrest⟩ := ih (hsame.trans hh) (bytes ++ made)
      refine ⟨hnone, made ++ made', hw.trans hw', ?_⟩
      have hnext : (w.inMemory bytes).next bs = (.ok bs.length, w₁.inMemory (bytes ++ made)) := by
        simp only [inMemory, hh] at hmem
        simp only [DeflateWriter.next, inMemory, hh, hmem]
      rw [← List.append_assoc]
      exact .ok hnext hrest
    · cases hh.symm.trans hheld
  | retry h hi => rw [next_error h] at hi; cases hi

theorem finish_inMemory {dst : ω} (hh : w.held = none) (h : w.finish = (.ok (), dst)) (bytes : Bytes) :
    ∃ made, Writes w.dst made dst ∧ (w.inMemory bytes).finish = (.ok (), ⟨bytes ++ made⟩) := by
  rcases hp : w.pump [] .finish with ⟨result, w'⟩
  simp only [finish, hh, hp, Prod.mk.injEq] at h
  obtain ⟨rfl, rfl⟩ := h
  obtain ⟨made, hw, -, hmem⟩ := pump_inMemory hp bytes
  refine ⟨made, hw, ?_⟩
  simp only [inMemory, hh] at hmem
  simp only [finish, inMemory, hh, hmem]

/-- What a writer that holds nothing makes of some bytes, in whatever pieces they come. -/
def DeflatesTo (P : Prims) (bs code : Bytes) : Prop :=
  ∃ d : DeflateWriter P (Buffer IoError), Writes (.new P ⟨[]⟩) bs d ∧ d.finish = (.ok (), ⟨code⟩)

/-- What was written of some bytes, over any writer, is what they deflate to. -/
theorem deflatesTo_of_finish {dst dst' : ω} (h : Writes (.new P dst) bs w)
    (hf : w.finish = (.ok (), dst')) : ∃ code, DeflatesTo P bs code ∧ Writes dst code dst' := by
  obtain ⟨hh, made, hw, hmem⟩ := writes_inMemory rfl h []
  obtain ⟨made', hw', hmem'⟩ := finish_inMemory hh hf made
  exact ⟨made ++ made', ⟨_, hmem, hmem'⟩, hw.trans hw'⟩

/-- It is what the compressor has made when it was given these bytes, and finished. -/
theorem DeflatesTo.finished (hC : P.compressor.Makes F) (h : DeflatesTo P bs code) :
    P.compressor.Finished bs code := by
  obtain ⟨d, hw, hf⟩ := h
  have hfed : ∀ {d d' : DeflateWriter P (Buffer IoError)} {x bs : Bytes}, Writes d bs d' →
      d.held = none → P.compressor.Fed d.comp x d.dst.bytes →
        d'.held = none ∧ P.compressor.Fed d'.comp (x ++ bs) d'.dst.bytes := by
    intro d d' x bs hw
    induction hw generalizing x with
    | refl d => exact fun hh hf => ⟨hh, by rwa [List.append_nil]⟩
    | @ok d d₁ d₂ n bs cs h _ ih =>
      intro hh hf
      obtain ⟨rfl, ⟨-, hp⟩ | ⟨held, held', w₁, hheld, -⟩⟩ := next_ok h
      · obtain ⟨made, hm, hsame, -, hf⟩ := pump_ok hC (by exact hf) hp
        rw [← Buffer.writes hm] at hf
        rw [List.take_length, ← List.append_assoc]
        exact ih (hsame.trans hh) hf
      · cases hh.symm.trans hheld
    | retry h hi => rw [next_error h] at hi; cases hi
  obtain ⟨hh, hd⟩ := hfed hw rfl .init
  rcases hp : d.pump [] .finish with ⟨result, d'⟩
  simp only [finish, hh, hp, Prod.mk.injEq] at hf
  obtain ⟨rfl, hcode⟩ := hf
  obtain ⟨made, hm, -, -, hfinished⟩ := flush_ok hC hd (by simp) hp
  rwa [← Buffer.writes hm, hcode] at hfinished

end

end DeflateWriter

instance {P : Prims} {ω : Type} [ByteStream.Flush ω IoError] :
    ByteStream.Flush (DeflateWriter P ω) IoError where
  flush w := ((flush w.dst).1, { w with dst := (flush w.dst).2 })

end OdfCrypto

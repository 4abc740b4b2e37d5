import OdfCrypto.Stream.Deflate

/-!
# Adaptive streams, in parts

What an adaptive `DeflateWriter` makes of a sequence of writes, whatever it stores
and whatever it compresses.

* `DeflateWriter.written_writeEach`: what was accepted after some writes;
* `DeflateWriter.adaptive_roundTrip`: what was written at the end, part by part.
-/

namespace OdfCrypto

open ByteStream Deflate Deflate.Compressor

namespace DeflateWriter

variable {P : Prims} {ω : Type} [Write ω IoError] {F : Format} {w w' : DeflateWriter P ω}
  {dst₀ : ω} {data : Bytes} {I : ω → Prop}

/-- One write after another, and what became of them. -/
def writeEach (w : DeflateWriter P ω) : List Bytes → List (Except IoError ℕ) × DeflateWriter P ω
  | [] => ([], w)
  | bs :: pieces =>
    let (result, w) := write w bs
    let (results, w) := writeEach w pieces
    (result :: results, w)

/-- All of these writes were taken, whole. -/
def AllTaken (pieces : List Bytes) (results : List (Except IoError ℕ)) : Prop :=
  results = pieces.map fun bs => .ok bs.length

/-- A writer whose writes were all taken has taken them one after the other. -/
theorem written_writeEach (hC : P.compressor.Makes F) {pieces : List Bytes}
    (h : Written F dst₀ w data) (ht : AllTaken pieces (writeEach w pieces).1) :
    Written F dst₀ (writeEach w pieces).2 (data ++ pieces.flatten) := by
  induction pieces generalizing w data with
  | nil => rwa [List.flatten_nil, List.append_nil]
  | cons bs pieces ih =>
    obtain ⟨hw, ht⟩ := List.cons.inj ht
    rw [List.flatten_cons, ← List.append_assoc]
    exact ih (h.next hC (Prod.ext hw rfl)).2 ht

/-- Over a writer that takes what it is given, all writes are taken. -/
theorem writeEach_willing (hC : P.compressor.Makes F) (hI : Willing I) (pieces : List Bytes)
    (h : Written F dst₀ w data) (hw : I w.dst) :
    AllTaken pieces (writeEach w pieces).1 ∧ I (writeEach w pieces).2.dst := by
  induction pieces generalizing w data with
  | nil => exact ⟨rfl, hw⟩
  | cons bs pieces ih =>
    obtain ⟨w', hn, hw'⟩ := next_willing hC hI h hw bs
    have hn' : write w bs = (.ok bs.length, w') := hn
    obtain ⟨ht, hd⟩ := ih (h.next hC hn).2 hw'
    rw [writeEach, hn']
    exact ⟨congrArg₂ List.cons rfl ht, hd⟩

/-- After a sequence of writes that were all taken, an adaptive writer has accepted
    these bytes; once it is finished, what was written is a stream of them, made of
    stored blocks and of what the compressor made between them, each beginning where
    the one before it ends with a byte. And all writes are taken, and finishing
    succeeds, over a writer that takes what it is given. -/
theorem adaptive_roundTrip (hC : P.compressor.Makes F) (dst₀ : ω) (pieces : List Bytes) :
    (AllTaken pieces (writeEach (adaptive P dst₀) pieces).1 →
      (writeEach (adaptive P dst₀) pieces).2.consumed = pieces.flatten.length ∧
      ∀ dst, (writeEach (adaptive P dst₀) pieces).2.finish = (.ok (), dst) →
        ∃ (parts : List (Part P.compressor)) (rest last : Bytes),
          Writes dst₀ (parts.flatMap Part.code ++ last) dst ∧
          pieces.flatten = parts.flatMap Part.data ++ rest ∧
          P.compressor.Finished rest last ∧
          F.Complete (parts.flatMap Part.code ++ last) pieces.flatten ∧
          (∀ before, before <+: parts →
            F.Segment (before.flatMap Part.code) (before.flatMap Part.data)) ∧
          ∀ block h, .stored block h ∈ parts → block.length ≤ storedBlockMax) ∧
    ∀ I, Willing I → I dst₀ →
      AllTaken pieces (writeEach (adaptive P dst₀) pieces).1 ∧
        ∃ dst, (writeEach (adaptive P dst₀) pieces).2.finish = (.ok (), dst) := by
  refine ⟨fun ht => ?_, fun I hI h₀ => ?_⟩
  · have h := written_writeEach hC.parts (written_adaptive _ dst₀) ht
    rw [List.nil_append] at h
    refine ⟨h.1, fun dst hf => ?_⟩
    obtain ⟨_, hw, parts, rest, last, hlast, rfl, heq⟩ := finish_ok hC.parts h hf
    refine ⟨parts, rest, last, hw, heq, hlast, ?_, fun before _ => hC.segment_parts before,
      fun block h _ => Nat.le_of_lt_succ h⟩
    rw [heq]
    exact F.append_complete (hC.segment_parts parts) (hC.finish hlast)
  · obtain ⟨ht, hd⟩ := writeEach_willing hC hI pieces (written_adaptive F dst₀) h₀
    obtain ⟨dst, hf, -⟩ :=
      finish_willing hC hI (written_writeEach hC (written_adaptive F dst₀) ht) hd
    exact ⟨ht, dst, hf⟩

/-- Primitives under which everything is stored. -/
def storingPrims : Prims := { knownPrims with incompressible := fun _ => true }

theorem adaptive_roundTrip_sample :
    ∃ code, Stored.format.Complete code [1, 2, 3] ∧
      (writeEach (adaptive storingPrims (⟨[]⟩ : Buffer IoError)) [[1, 2], [3]]).2.finish =
        (.ok (), ⟨code⟩) := by
  obtain ⟨hok, hwilling⟩ := adaptive_roundTrip (P := storingPrims) Stored.makes
    (⟨[]⟩ : Buffer IoError) [[1, 2], [3]]
  obtain ⟨ht, dst, hf⟩ := hwilling _ Buffer.willing trivial
  obtain ⟨parts, rest, last, hw, -, -, hc, -⟩ := (hok ht).2 dst hf
  have hbytes := Buffer.writes hw
  rw [List.nil_append] at hbytes
  exact ⟨dst.bytes, hbytes ▸ hc, hf⟩

end DeflateWriter

end OdfCrypto

import Mathlib.Data.Nat.Find
import OdfCrypto.Lib.Readers
import OdfCrypto.Stream.Legacy

/-!
# What the checksum gate lets through

A `ChecksumGate` is verified and read, in any order. The first verification takes
the first window from the source; one that fails leaves the source after it, and
the next verification takes the window that follows.

* `ChecksumGate.calls_verified`: once the first window has the checksum, the
  calls hand out the source;
* `ChecksumGate.calls_refused`: as long as no window has it, nothing;
* `ChecksumGate.guarded_of`, `ChecksumGate.not_guarded_of`: so the first window
  alone decides, unless it fails and a later one does not.
-/

namespace OdfCrypto

open ByteStream

namespace ChecksumGate

variable {P : Prims} {ρ : Type} [Read ρ IoError]

/-- A call of a gate. -/
inductive Call
  | verify
  | read (n : ℕ)

/-- What a call returns, and leaves: a verification hands out nothing. -/
def call (g : ChecksumGate P ρ) : Call → Except IoError Bytes × ChecksumGate P ρ
  | .verify => (g.verify.1.map fun _ => [], g.verify.2)
  | .read n => read g n

/-- What some calls return, one after the other, and leave. -/
def calls (g : ChecksumGate P ρ) : List Call → List (Except IoError Bytes) × ChecksumGate P ρ
  | [] => ([], g)
  | c :: cs =>
    let (result, g) := g.call c
    let (results, g) := calls g cs
    (result :: results, g)

/-- All that was handed out. -/
def handedOut (results : List (Except IoError Bytes)) : Bytes :=
  results.flatMap fun
    | .ok bs => bs
    | .error _ => []

/-- The windows of a source: as many bytes at a time as the checksum is over. -/
def windowAt (bytes : Bytes) (k : ℕ) : Bytes := (bytes.drop (checksumWindow * k)).take checksumWindow

/-- A source that does not fail, whatever is asked of it. -/
def NeverFails (r : ρ) : Prop := ∀ p r' n, Reads r p r' → ∃ bs r'', read r' n = (.ok bs, r'')

/-- A gate releases nothing unverified. If its first window has the checksum, every
    call succeeds and what is handed out is the source, all of it once a read has
    come to its end; otherwise every call fails for a wrong password. -/
structure Guarded (g : ChecksumGate P ρ) (bytes : Bytes) : Prop where
  verified : matches_ P (windowAt bytes 0) g.checksum = true → ∀ cs,
    (∀ r ∈ (g.calls cs).1, ∃ bs, r = .ok bs) ∧ handedOut (g.calls cs).1 <+: bytes ∧
      ∀ n g', 0 < n → read (g.calls cs).2 n = (.ok [], g') → handedOut (g.calls cs).1 = bytes
  refused : matches_ P (windowAt bytes 0) g.checksum = false → ∀ cs,
    ∀ r ∈ (g.calls cs).1, r = .error Fault.wrongPassword.intoIo

/-! ### A first window with the checksum -/

/-- A gate that lets its source through: not verified yet, or with some of the
    window and of what comes after it still to be handed out. -/
inductive Open (g : ChecksumGate P ρ) (rest : Bytes) : Prop
  | fresh (hv : g.verified = false) (hpos : g.pos = 0)
      (hm : matches_ P (windowAt rest 0) g.checksum = true) (hs : Presents g.src rest none)
      (hn : NeverFails g.src)
  | verified {after : Bytes} (hv : g.verified = true) (hpos : g.pos ≤ g.window.length)
      (hs : Presents g.src after none) (hn : NeverFails g.src)
      (heq : rest = g.window.drop g.pos ++ after)

variable {g g' : ChecksumGate P ρ} {rest bytes : Bytes}

theorem NeverFails.reads {r r' : ρ} {p : Bytes} (h : NeverFails r) (hr : Reads r p r') :
    NeverFails r' := fun q r'' n hq => h (p ++ q) r'' n (hr.trans hq)

/-- Verifying such a gate succeeds, and hands out nothing. -/
theorem Open.verify (h : Open g rest) :
    ∃ g', g.verify = (.ok (), g') ∧ g'.verified = true ∧ Open g' rest := by
  obtain ⟨hv, hpos, hm, hs, hn⟩ | ⟨hv, hpos, hs, hn, heq⟩ := h
  · obtain ⟨src, hread, hs'⟩ := hs.readFull_take checksumWindow
    rw [windowAt, Nat.mul_zero, List.drop_zero] at hm
    refine ⟨{ g with src, window := rest.take checksumWindow, verified := true }, ?_, rfl, ?_⟩
    · simp only [ChecksumGate.verify, hv, hread, hm]
      rfl
    · refine .verified rfl (by simp [hpos]) hs' (hn.reads (readFull_reads hread).1) ?_
      simp only [hpos, List.drop_zero, List.take_append_drop]
  · exact ⟨g, by rw [ChecksumGate.verify, if_pos hv], hv, .verified hv hpos hs hn heq⟩

/-- Reading a verified gate hands out some of the rest, and nothing only at its end. -/
theorem Open.readOn (h : Open g rest) (hv : g.verified = true) (n : ℕ) :
    ∃ bs rest' g', g.readOn n = (.ok bs, g') ∧ rest = bs ++ rest' ∧ Open g' rest' ∧
      (0 < n → bs = [] → rest = []) := by
  obtain ⟨hv', -⟩ | @⟨after, -, hpos, hs, hn, rfl⟩ := h
  · rw [hv] at hv'
    cases hv'
  -- The window is handed out first, then the source is read past it.
  by_cases hlt : g.pos < g.window.length
  · refine ⟨_, (g.window.drop (g.pos + min (g.window.length - g.pos) n)) ++ after, _, if_pos hlt, ?_,
      .verified hv (by simp only; omega) hs hn rfl, fun hn0 h0 => ?_⟩
    · rw [← List.drop_drop, ← List.append_assoc, List.take_append_drop]
    · have := congrArg List.length h0
      simp only [List.length_take, List.length_drop, List.length_nil] at this
      omega
  · have hw : g.window.drop g.pos = [] := List.drop_eq_nil_of_le (by omega)
    rw [hw, List.nil_append]
    obtain ⟨bs, src, hread⟩ := hn [] g.src n (.refl _)
    obtain ⟨after', rfl, hs'⟩ := hs.reads (.single hread)
    refine ⟨bs, after', { g with src }, ?_, rfl,
      .verified hv hpos hs' (hn.reads (.single hread)) (by simp only [hw, List.nil_append]), ?_⟩
    · rw [ChecksumGate.readOn, if_neg hlt, hread]
    · rintro hn0 rfl
      rcases after' with - | ⟨b, after'⟩
      · rfl
      · obtain ⟨piece, r', hr, hne, -⟩ := hs.hands hn0
        rw [hread] at hr
        cases hr
        exact absurd rfl hne

/-- Every call of a gate that lets its source through succeeds. -/
theorem Open.call (h : Open g rest) (c : Call) :
    ∃ bs rest' g', g.call c = (.ok bs, g') ∧ rest = bs ++ rest' ∧ Open g' rest' ∧
      (∀ n, c = .read n → 0 < n → bs = [] → rest = []) := by
  obtain ⟨g₁, hver, hv, h₁⟩ := h.verify
  rcases c with - | n
  · exact ⟨[], rest, g₁, by rw [ChecksumGate.call, hver]; rfl, rfl, h₁, by simp⟩
  · obtain ⟨bs, rest', g', hread, heq, h', hend⟩ := h₁.readOn hv n
    refine ⟨bs, rest', g', ?_, heq, h', ?_⟩
    · show g.next n = _
      rw [next, hver]
      exact hread
    · rintro m ⟨⟩
      exact hend

/-- So do all calls, and they hand out the source. -/
theorem calls_verified (h : Open g rest) (cs : List Call) :
    (∀ r ∈ (g.calls cs).1, ∃ bs, r = .ok bs) ∧
      ∃ rest', rest = handedOut (g.calls cs).1 ++ rest' ∧ Open (g.calls cs).2 rest' := by
  induction cs generalizing g rest with
  | nil => exact ⟨fun r hr => absurd hr List.not_mem_nil, rest, rfl, h⟩
  | cons c cs ih =>
    obtain ⟨bs, rest₁, g₁, hc, rfl, h₁, -⟩ := h.call c
    obtain ⟨hok, rest', rfl, h'⟩ := ih h₁
    simp only [calls, hc]
    refine ⟨fun r hr => ?_, rest', (List.append_assoc _ _ _).symm, h'⟩
    obtain rfl | hr := List.mem_cons.1 hr
    · exact ⟨bs, rfl⟩
    · exact hok r hr

/-! ### A first window without it -/

/-- A verification takes the next window of the source, as long as none had the
    checksum. -/
theorem verify_next {k : ℕ} (hv : g.verified = false)
    (hs : Presents g.src (bytes.drop (checksumWindow * k)) none) :
    ∃ src, g.verify =
        (if matches_ P (windowAt bytes k) g.checksum then
          (.ok (), { g with src, window := windowAt bytes k, verified := true })
        else (.error Fault.wrongPassword.intoIo, { g with src, window := windowAt bytes k })) ∧
      Presents src (bytes.drop (checksumWindow * (k + 1))) none := by
  obtain ⟨src, hread, hs'⟩ := hs.readFull_take checksumWindow
  refine ⟨src, ?_, ?_⟩
  · simp only [verify, hv, hread]
    rfl
  · rwa [List.drop_drop, ← Nat.mul_succ] at hs'

/-- A gate that has seen `k` windows without the checksum. -/
def Refused (g : ChecksumGate P ρ) (bytes : Bytes) (k : ℕ) : Prop :=
  g.verified = false ∧ Presents g.src (bytes.drop (checksumWindow * k)) none

/-- A call of such a gate fails, if the next window does not have it either. -/
theorem Refused.call {k : ℕ} (h : Refused g bytes k)
    (hm : matches_ P (windowAt bytes k) g.checksum = false) (c : Call) :
    ∃ g', g.call c = (.error Fault.wrongPassword.intoIo, g') ∧ Refused g' bytes (k + 1) ∧
      g'.checksum = g.checksum := by
  obtain ⟨src, hver, hs'⟩ := verify_next h.1 h.2
  rw [hm, if_neg Bool.false_ne_true] at hver
  refine ⟨{ g with src, window := windowAt bytes k }, ?_, ⟨h.1, hs'⟩, rfl⟩
  rcases c with - | n
  · rw [ChecksumGate.call, hver]
    rfl
  · show g.next n = _
    rw [next, hver]

/-- As long as no window has it, so do all calls. -/
theorem calls_refused {k : ℕ} (cs : List Call) (h : Refused g bytes k)
    (hm : ∀ i, k ≤ i → i < k + cs.length → matches_ P (windowAt bytes i) g.checksum = false) :
    (∀ r ∈ (g.calls cs).1, r = .error Fault.wrongPassword.intoIo) ∧
      Refused (g.calls cs).2 bytes (k + cs.length) ∧ (g.calls cs).2.checksum = g.checksum := by
  induction cs generalizing g k with
  | nil => exact ⟨fun r hr => absurd hr List.not_mem_nil, h, rfl⟩
  | cons c cs ih =>
    rw [List.length_cons] at hm ⊢
    obtain ⟨g₁, hc, h₁, hsum⟩ := h.call (hm k le_rfl (by omega)) c
    obtain ⟨herr, h', hsum'⟩ := ih h₁ fun i hi hlt => by rw [hsum]; exact hm i (by omega) (by omega)
    simp only [calls, hc]
    refine ⟨fun r hr => ?_, by rwa [Nat.add_assoc, Nat.add_comm 1] at h', hsum'.trans hsum⟩
    obtain rfl | hr := List.mem_cons.1 hr
    · rfl
    · exact herr r hr

/-! ### Both -/

variable {src : ρ} {checksum : Checksum}

theorem guarded_of (hs : Presents src bytes none) (hn : NeverFails src)
    (h : matches_ P (windowAt bytes 0) checksum = true ∨
      ∀ k, 0 < k → matches_ P (windowAt bytes k) checksum = false) :
    Guarded (P := P) { src, checksum } bytes := by
  constructor
  · intro h0 cs
    have hfresh : Open ({ src, checksum } : ChecksumGate P ρ) bytes := .fresh rfl rfl h0 hs hn
    obtain ⟨hok, rest, heq, ho⟩ := calls_verified hfresh cs
    refine ⟨hok, ⟨rest, heq.symm⟩, fun n g' hn0 hread => ?_⟩
    obtain ⟨bs, rest', g₁, hc, rfl, -, hend⟩ := ho.call (.read n)
    have hbs : bs = [] := by
      have := hc.symm.trans hread
      cases this
      rfl
    rw [heq, hend n rfl hn0 hbs, List.append_nil]
  · intro h0 cs
    have hall : ∀ k, matches_ P (windowAt bytes k) checksum = false := by
      intro k
      rcases Nat.eq_zero_or_pos k with rfl | hk
      · exact h0
      · exact h.resolve_left (by rw [h0]; exact Bool.false_ne_true) k hk
    exact (calls_refused (k := 0) cs ⟨rfl, by simpa using hs⟩ fun i _ _ => hall i).1

/-- A later window with the checksum is let through. -/
theorem not_guarded_of (hs : Presents src bytes none)
    (h0 : matches_ P (windowAt bytes 0) checksum = false) {k : ℕ}
    (hm : matches_ P (windowAt bytes k) checksum = true) :
    ¬ Guarded (P := P) { src, checksum } bytes := by
  intro h
  -- verify up to the first such window
  have hex : ∃ k, matches_ P (windowAt bytes k) checksum = true := ⟨k, hm⟩
  let first := Nat.find hex
  have hfirst : matches_ P (windowAt bytes first) checksum = true := Nat.find_spec hex
  have hbefore : ∀ i < first, matches_ P (windowAt bytes i) checksum = false := fun i hi =>
    Bool.not_eq_true _ ▸ Nat.find_min hex hi
  let g : ChecksumGate P ρ := { src, checksum }
  obtain ⟨-, hr, hsum⟩ := @calls_refused P ρ _ g bytes 0 (List.replicate first .verify)
    ⟨rfl, by simpa using hs⟩ fun i _ hi => hbefore i (by simpa using hi)
  rw [List.length_replicate, Nat.zero_add] at hr
  obtain ⟨src', hver, -⟩ := verify_next hr.1 hr.2
  rw [hsum, if_pos hfirst] at hver
  have hcalls : ∀ (cs : List Call) (g : ChecksumGate P ρ) (c : Call),
      ((g.calls cs).2.call c).1 ∈ (g.calls (cs ++ [c])).1 := by
    intro cs
    induction cs with
    | nil => intro g c; exact List.mem_singleton.2 rfl
    | cons c' cs ih => intro g c; exact List.mem_cons_of_mem _ (ih _ c)
  have herr := h.refused h0 (List.replicate first .verify ++ [.verify]) _
    (hcalls (List.replicate first .verify) g .verify)
  rw [call, hver] at herr
  cases herr

/-- A gate releases nothing unverified if and only if the first window has the
    checksum, or none has it but maybe the first. -/
theorem guarded_iff (hs : Presents src bytes none) (hn : NeverFails src) :
    Guarded (P := P) { src, checksum } bytes ↔
      matches_ P (windowAt bytes 0) checksum = true ∨
        ∀ k, 0 < k → matches_ P (windowAt bytes k) checksum = false := by
  refine ⟨fun h => ?_, guarded_of hs hn⟩
  by_contra hcon
  push Not at hcon
  obtain ⟨h0, k, -, hm⟩ := hcon
  exact not_guarded_of hs (Bool.not_eq_true _ ▸ h0) (Bool.of_not_eq_false hm) h

/-! ### A window of zeros, then one that has the checksum -/

/-- 1024 zeros, then a `B`. -/
def zerosThenB : Bytes := List.replicate 1024 0 ++ [0x42]

def zerosThenBReader : Pieces IoError := ⟨zerosThenB, fun _ => 1023, none, 0⟩

theorem windowAt_zerosThenB : windowAt zerosThenB 0 = List.replicate 1024 0 ∧
    windowAt zerosThenB 1 = [0x42] := by
  have hl : (List.replicate 1024 (0 : UInt8)).length = checksumWindow := List.length_replicate
  unfold windowAt zerosThenB
  constructor
  · rw [Nat.mul_zero, List.drop_zero, List.take_left' hl]
  · rw [Nat.mul_one, List.drop_left' hl]
    rfl

theorem neverFails_pieces {p : Pieces IoError} (h : p.fails = none) : NeverFails p := by
  suffices ∀ {p : Pieces IoError} {q : Bytes} {p' : Pieces IoError}, Reads p q p' →
      p.fails = none → p'.fails = none by
    intro q p' n hr
    exact ⟨_, _, Pieces.next_of_fails (this hr h) n⟩
  intro p q p' hr hf
  induction hr with
  | refl => exact hf
  | ok hr _ ih => exact ih ((Pieces.next_ok hr).2.2.trans hf)
  | retry hr hi => rw [Pieces.next_error hr] at hi; cases hi

theorem matches_knownSha256 {window want : Bytes} :
    matches_ knownPrims window (.sha256_1K want) = true ↔ knownSha256 window = want := ctEq_iff

/-- The checksum of its first window opens the gate. -/
theorem guarded_iff_sample :
    Guarded (P := knownPrims)
      { src := zerosThenBReader, checksum := .sha256_1K (knownSha256 (List.replicate 1024 0)) }
      zerosThenB := by
  have hs : Presents zerosThenBReader zerosThenB none := Pieces.presents zerosThenBReader rfl
  refine (guarded_iff hs (neverFails_pieces rfl)).2 (.inl ?_)
  rw [windowAt_zerosThenB.1]
  exact matches_knownSha256.2 rfl

/-- With the checksum of the second one, what is not verified is handed out. -/
theorem not_guarded :
    ¬ ∀ (P : Prims) (src : Pieces IoError) (checksum : Checksum) (bytes : Bytes),
      Presents src bytes none → NeverFails src → Guarded (P := P) { src, checksum } bytes := by
  intro h
  have hs : Presents zerosThenBReader zerosThenB none := Pieces.presents zerosThenBReader rfl
  have hne : List.replicate 1024 (0 : UInt8) ≠ [0x42] := fun h => by
    have := congrArg List.length h
    rw [List.length_replicate] at this
    cases this
  refine not_guarded_of (k := 1) hs ?_ ?_
    (h knownPrims zerosThenBReader (.sha256_1K (knownSha256 [0x42])) zerosThenB hs
      (neverFails_pieces rfl))
  · rw [windowAt_zerosThenB.1, Bool.eq_false_iff]
    intro hc
    have heq := matches_knownSha256.1 hc
    unfold knownSha256 at heq
    rw [if_neg hne, if_pos rfl, if_pos rfl] at heq
    exact absurd heq (by decide)
  · rw [windowAt_zerosThenB.2]
    exact matches_knownSha256.2 rfl

end ChecksumGate

end OdfCrypto

import OdfCrypto.Kdf
import OdfCrypto.Lib.Copy

/-!
# Inflating streams

`InflateReader` (`stream.rs`): a reader of what its source inflates to, held to
the size that the manifest announces and to the output limit, with a tap that is
given the source's bytes as they are used.

* `InflateReader.step_ok`: all that one step can do;
* `InflateReader.Inflated`: what every run of reads keeps, whatever the source;
* `InflateReader.presents`: over a source that presents a complete stream, the
  data of the stream is presented, however either is read.
-/

namespace OdfCrypto

open ByteStream Text Deflate

/-- A reader of what `src` inflates to. -/
structure InflateReader (f : Inflater) (ρ τ : Type) where
  src : ρ
  tap : τ
  dec : f.State
  /-- What is left of the input buffer. -/
  input : Bytes := []
  srcDone : Bool := false
  window : Bytes := List.replicate inflateWindow 0
  /-- Where the next inflated byte goes in `window`. -/
  outPos : ℕ := 0
  /-- Where what is inflated and not yet handed out begins in `window`. -/
  pending : ℕ := 0
  pendingLen : ℕ := 0
  produced : ℕ := 0
  expected : ℕ
  limit : ℕ
  done : Bool := false
  /-- The window has its full length, or more. -/
  window_le : inflateWindow ≤ window.length
  outPos_lt : outPos < inflateWindow

namespace InflateReader

variable {f : Inflater} {ρ τ : Type}

def withTap (f : Inflater) (src : ρ) (expected limit : ℕ) (tap : τ) : InflateReader f ρ τ where
  src := src
  tap := tap
  dec := f.init
  window := List.replicate inflateWindow 0
  outPos := 0
  expected := expected
  limit := limit
  window_le := List.length_replicate.ge
  outPos_lt := by decide

def new (f : Inflater) (src : ρ) (expected limit : ℕ) : InflateReader f ρ (Sink IoError) :=
  withTap f src expected limit ⟨⟩

variable {r r₁ r' : InflateReader f ρ τ} {n : ℕ} {bs piece : Bytes} {e : IoError}

/-! ### One step -/

theorem window_le_overwrite (r : InflateReader f ρ τ) (made : Bytes) :
    inflateWindow ≤ (overwrite r.window r.outPos made).length :=
  r.window_le.trans (le_length_overwrite made (r.outPos_lt.le.trans r.window_le))

/-- The reader after a call of the inflater that used so much of the input. -/
def advance (r : InflateReader f ρ τ) (used : ℕ) (made : Bytes) (dec : f.State) (tap : τ) :
    InflateReader f ρ τ :=
  { r with
    tap, dec
    input := r.input.drop used
    window := overwrite r.window r.outPos made
    outPos := (r.outPos + made.length) % inflateWindow
    pending := r.outPos
    pendingLen := made.length
    produced := r.produced + made.length
    window_le := r.window_le_overwrite made
    outPos_lt := Nat.mod_lt _ (by decide) }

section

variable {used : ℕ} {made : Bytes} {dec : f.State} {tap : τ}

@[simp] theorem advance_window :
    (r.advance used made dec tap).window = overwrite r.window r.outPos made := rfl

@[simp] theorem advance_outPos :
    (r.advance used made dec tap).outPos = (r.outPos + made.length) % inflateWindow := rfl

@[simp] theorem advance_pending : (r.advance used made dec tap).pending = r.outPos := rfl

@[simp] theorem advance_pendingLen :
    (r.advance used made dec tap).pendingLen = made.length := rfl

end

/-- Check a call of the inflater against the limit, the announced size and the
    input. -/
def check (r : InflateReader f ρ τ) (status : InflateStatus) :
    Except IoError Unit × InflateReader f ρ τ :=
  let inflate := fun s => Except.error (Fault.inflate s).intoIo
  if r.limit < r.produced then (.error Fault.outputLimit.intoIo, r)
  else if r.expected < r.produced then
    (inflate (ascii "inflates past manifest:size " ++ decimal r.expected), r)
  else
    match status with
    | .done =>
      let r := { r with done := true }
      if r.produced ≠ r.expected then
        (inflate (ascii "inflated " ++ decimal r.produced ++ ascii " != manifest:size " ++
          decimal r.expected), r)
      else (.ok (), r)
    | .hasMoreOutput => (.ok (), r)
    | .needsMoreInput =>
      if r.srcDone ∧ r.input.isEmpty ∧ r.pendingLen = 0 then
        (inflate (ascii "truncated DEFLATE stream"), r)
      else (.ok (), r)
    | .failed name => (inflate name, r)

/-- How a call of the inflater passes its check. -/
inductive Passed (r : InflateReader f ρ τ) : InflateStatus → InflateReader f ρ τ → Prop
  | done (h : r.produced = r.expected) : Passed r .done { r with done := true }
  | hasMoreOutput : Passed r .hasMoreOutput r
  | needsMoreInput (h : r.srcDone = true → r.input = [] → r.pendingLen ≠ 0) :
      Passed r .needsMoreInput r

theorem check_ok {status : InflateStatus} :
    r.check status = (.ok (), r') ↔
      r.produced ≤ r.limit ∧ r.produced ≤ r.expected ∧ Passed r status r' := by
  unfold check
  -- The two limits come first, in this order, whatever the status.
  by_cases hl : r.limit < r.produced
  · rw [if_pos hl]
    refine iff_of_false (by simp) ?_
    omega
  rw [if_neg hl]
  by_cases he : r.expected < r.produced
  · rw [if_pos he]
    refine iff_of_false (by simp) ?_
    omega
  rw [if_neg he]
  have hl := Nat.le_of_not_lt hl
  have he := Nat.le_of_not_lt he
  cases status with
  | done =>
    by_cases hp : r.produced = r.expected
    · rw [if_neg (not_not.2 hp)]
      constructor
      · rintro ⟨⟩; exact ⟨hl, he, .done hp⟩
      · rintro ⟨-, -, ⟨⟩⟩; rfl
    · rw [if_pos hp]
      refine iff_of_false (by simp) ?_
      rintro ⟨-, -, ⟨⟩⟩
      contradiction
  | hasMoreOutput =>
    constructor
    · rintro ⟨⟩; exact ⟨hl, he, .hasMoreOutput⟩
    · rintro ⟨-, -, ⟨⟩⟩; rfl
  | needsMoreInput =>
    by_cases hc : r.srcDone ∧ r.input.isEmpty ∧ r.pendingLen = 0
    · simp only [if_pos hc]
      refine iff_of_false (by simp) ?_
      rintro ⟨-, -, ⟨⟩⟩
      next h => exact h hc.1 (List.isEmpty_iff.1 hc.2.1) hc.2.2
    · simp only [if_neg hc]
      constructor
      · rintro ⟨⟩
        exact ⟨hl, he, .needsMoreInput fun h₁ h₂ h₃ => hc ⟨h₁, by simp [h₂], h₃⟩⟩
      · rintro ⟨-, -, ⟨⟩⟩; rfl
  | failed name =>
    refine iff_of_false (by simp) ?_
    rintro ⟨-, -, ⟨⟩⟩

theorem check_error {status : InflateStatus} (h : r.check status = (.error e, r')) :
    interrupted e = false := by
  unfold check at h
  by_cases hl : r.limit < r.produced
  · rw [if_pos hl] at h; cases h; rfl
  rw [if_neg hl] at h
  by_cases he : r.expected < r.produced
  · rw [if_pos he] at h; cases h; rfl
  rw [if_neg he] at h
  cases status with
  | done => simp only at h; split at h <;> cases h; rfl
  | hasMoreOutput => cases h
  | needsMoreInput => simp only at h; split at h <;> cases h; rfl
  | failed name => cases h; rfl

/-- What is inflated and not yet handed out. -/
def pendingBytes (r : InflateReader f ρ τ) : Bytes := (r.window.drop r.pending).take r.pendingLen

/-- Hand out some of what is pending. -/
def handOut (r : InflateReader f ρ τ) (n : ℕ) : Bytes × InflateReader f ρ τ :=
  let k := min r.pendingLen n
  ((r.window.drop r.pending).take k,
    { r with pending := r.pending + k, pendingLen := r.pendingLen - k })

theorem pendingBytes_of_pendingLen (h : r.pendingLen = 0) : r.pendingBytes = [] := by
  rw [pendingBytes, h, List.take_zero]

/-- A hand-out is the beginning of what is pending. -/
theorem handOut_pendingBytes :
    r.pendingBytes = (r.handOut n).1 ++ (r.handOut n).2.pendingBytes := by
  have hle : min r.pendingLen n ≤ r.pendingLen := Nat.min_le_left _ _
  have h1 : (r.handOut n).1 = r.pendingBytes.take (min r.pendingLen n) := by
    rw [pendingBytes, List.take_take, Nat.min_eq_left hle]
    rfl
  have h2 : (r.handOut n).2.pendingBytes = r.pendingBytes.drop (min r.pendingLen n) := by
    rw [pendingBytes, pendingBytes, List.drop_take, List.drop_drop]
    rfl
  rw [h1, h2, List.take_append_drop]

section

variable [Read ρ IoError]

/-- Read more input, if there is none left and the source has not ended. -/
def fill (r : InflateReader f ρ τ) : Except IoError Unit × InflateReader f ρ τ :=
  if r.input.isEmpty ∧ r.srcDone = false then
    match readFull r.src chunk with
    | (.ok bs, src) => (.ok (), { r with src, input := bs, srcDone := bs.length < chunk })
    | (.error e, src) => (.error e, { r with src })
  else (.ok (), r)

theorem fill_ok (h : r.fill = (.ok (), r₁)) :
    (r₁ = r ∧ (r.input ≠ [] ∨ r.srcDone = true)) ∨
      ∃ bs src, r.input = [] ∧ r.srcDone = false ∧ readFull r.src chunk = (.ok bs, src) ∧
        r₁ = { r with src, input := bs, srcDone := bs.length < chunk } := by
  unfold fill at h
  split at h
  · next hc =>
    split at h
    · next bs src hr => cases h; exact .inr ⟨bs, src, List.isEmpty_iff.1 hc.1, hc.2, hr, rfl⟩
    · cases h
  · next hc =>
    cases h
    refine .inl ⟨rfl, ?_⟩
    rw [List.isEmpty_iff, not_and_or, Bool.not_eq_false] at hc
    exact hc

theorem fill_of_readFull {src : ρ} (hin : r.input = []) (hd : r.srcDone = false)
    (hr : readFull r.src chunk = (.ok bs, src)) :
    r.fill = (.ok (), { r with src, input := bs, srcDone := bs.length < chunk }) := by
  rw [fill, if_pos ⟨List.isEmpty_iff.2 hin, hd⟩, hr]

theorem fill_error (h : r.fill = (.error e, r₁)) : interrupted e = false := by
  unfold fill at h
  split at h
  · split at h
    · cases h
    · next hr => cases h; exact readFull_not_interrupted hr
  · cases h

end

section

variable [Write τ IoError]

/-- Give the tap what was used of the input. -/
def tapUsed (r : InflateReader f ρ τ) (used : ℕ) : Except IoError Unit × τ :=
  if 0 < used then writeAll r.tap (r.input.take used) else (.ok (), r.tap)

theorem tapUsed_ok {used : ℕ} {tap : τ} (h : r.tapUsed used = (.ok (), tap)) :
    Writes r.tap (r.input.take used) tap := by
  unfold tapUsed at h
  split at h
  · exact writeAll_writes h
  · next h0 =>
    cases h
    rw [Nat.eq_zero_of_not_pos h0, List.take_zero]
    exact .refl _

theorem tapUsed_error {used : ℕ} {tap : τ} (h : r.tapUsed used = (.error e, tap)) :
    interrupted e = false := by
  unfold tapUsed at h
  split at h
  · exact writeAll_not_interrupted h
  · cases h

/-- One call of the inflater. -/
def call (r : InflateReader f ρ τ) : Except IoError Unit × InflateReader f ρ τ :=
  let (status, used, made, dec) := f.decompress r.dec r.input r.window r.outPos (!r.srcDone)
  match r.tapUsed used with
  | (.error e, tap) => (.error e, { r with
      tap, dec
      window := overwrite r.window r.outPos made
      window_le := r.window_le_overwrite made })
  | (.ok (), tap) => (r.advance used made dec tap).check status

/-- All that a call that succeeds can do. -/
theorem call_ok (h : r.call = (.ok (), r')) :
    ∃ status used made dec tap,
      f.decompress r.dec r.input r.window r.outPos (!r.srcDone) = (status, used, made, dec) ∧
      Writes r.tap (r.input.take used) tap ∧
      r.produced + made.length ≤ r.limit ∧ r.produced + made.length ≤ r.expected ∧
      Passed (r.advance used made dec tap) status r' := by
  unfold call at h
  rcases hd : f.decompress r.dec r.input r.window r.outPos (!r.srcDone)
    with ⟨status, used, made, dec⟩
  rw [hd] at h
  simp only at h
  split at h
  · cases h
  · next tap ht =>
    obtain ⟨hl, he, hp⟩ := check_ok.1 h
    exact ⟨status, used, made, dec, tap, rfl, tapUsed_ok ht, hl, he, hp⟩

theorem call_error (h : r.call = (.error e, r')) : interrupted e = false := by
  unfold call at h
  simp only at h
  split at h
  · next ht => cases h; exact tapUsed_error ht
  · exact check_error h

end

variable [Read ρ IoError] [Write τ IoError]

def step (r : InflateReader f ρ τ) : Except IoError Unit × InflateReader f ρ τ :=
  match r.fill with
  | (.error e, r) => (.error e, r)
  | (.ok (), r) => r.call

theorem step_ok (h : r.step = (.ok (), r')) :
    ∃ r₁, r.fill = (.ok (), r₁) ∧ r₁.call = (.ok (), r') := by
  unfold step at h
  split at h
  · cases h
  · next r₁ hf => exact ⟨r₁, hf, h⟩

theorem step_error (h : r.step = (.error e, r')) : interrupted e = false := by
  unfold step at h
  split at h
  · next hf => cases h; exact fill_error hf
  · exact call_error h

/-! ### Reading -/

/-- One pass of a read: a step, as long as nothing is pending. -/
def readStep (n : ℕ) (r : InflateReader f ρ τ) :
    (Except IoError Bytes × InflateReader f ρ τ) ⊕ InflateReader f ρ τ :=
  if r.pendingLen = 0 then
    if r.done then .inl (.ok [], r)
    else
      match r.step with
      | (.ok (), r) => .inr r
      | (.error e, r) => .inl (.error e, r)
  else .inl (.ok (r.handOut n).1, (r.handOut n).2)

/-- A bound on the steps that make nothing. -/
def idle (r : InflateReader f ρ τ) : ℕ :=
  if r.pendingLen = 0 ∧ r.done = false then
    left r.src * (chunk + 1) + r.input.length + 1
  else 0

omit [Write τ IoError] in
theorem idle_eq_zero (h : r.pendingLen ≠ 0 ∨ r.done = true) : r.idle = 0 := by
  rw [idle, if_neg]
  rintro ⟨hp, hd⟩
  obtain h | h := h
  · exact h hp
  · rw [hd] at h; cases h

/-- A step that makes nothing uses some of its input. -/
theorem idle_lt (h : r.step = (.ok (), r')) (hp : r.pendingLen = 0) (hd : r.done = false) :
    r'.idle < r.idle := by
  obtain ⟨r₁, hf, hc⟩ := step_ok h
  obtain ⟨status, used, made, dec, tap, hdec, -, -, -, hpass⟩ := call_ok hc
  have hidle : r.idle = left r.src * (chunk + 1) + r.input.length + 1 := if_pos ⟨hp, hd⟩
  have hpos : 0 < r.idle := hidle ▸ Nat.succ_pos _
  by_cases hm : made ≠ []
  · have hpend : (r₁.advance used made dec tap).pendingLen ≠ 0 := by simpa [advance] using hm
    rcases hpass with - | - | -
    · rwa [idle_eq_zero (.inr rfl)]
    · rwa [idle_eq_zero (.inl hpend)]
    · rwa [idle_eq_zero (.inl hpend)]
  obtain rfl := not_not.1 hm
  have hsrc : (r₁.advance used [] dec tap).src = r₁.src := rfl
  have hle : (r₁.advance used [] dec tap).idle ≤
      left r₁.src * (chunk + 1) + (r₁.input.length - used) + 1 := by
    rw [idle, hsrc, show (r₁.advance used [] dec tap).input = r₁.input.drop used from rfl,
      List.length_drop]
    split
    · exact Nat.le_refl _
    · exact Nat.zero_le _
  -- with some input used, or none there was to use and more to come
  have hlt : used ≠ 0 ∨ r₁.input = [] ∧ r₁.srcDone = false →
      (r₁.advance used [] dec tap).idle < r.idle := by
    intro hcase
    have hconsumed := f.consumed_le hdec
    have hempty : r₁.input = [] → r₁.input.length = 0 := fun h => by rw [h]; rfl
    obtain ⟨rfl, hr⟩ | ⟨bs, src, hri, -, hread, rfl⟩ := fill_ok hf
    · obtain hu | ⟨hin, hs⟩ := hcase
      · omega
      · exact absurd hin (hr.resolve_right (by simp [hs]))
    · have hlen : bs.length ≤ chunk := (readFull_reads hread).2
      have hne : bs ≠ [] := by
        rintro rfl
        obtain hu | ⟨-, hs⟩ := hcase
        · exact hu (Nat.le_zero.1 hconsumed)
        · exact absurd hs (by simp [chunk])
      have hlt : left src < left r.src := (readFull_reads hread).1.left_lt hne
      have := Nat.mul_le_mul_right (chunk + 1) (Nat.succ_le_of_lt hlt)
      rw [Nat.succ_mul] at this
      simp only at hle
      rw [hidle, hri, List.length_nil]
      omega
  have hprog := f.progress (r₁.outPos_lt.trans_le r₁.window_le) hdec
  rcases hpass with - | - | hmore
  · rwa [idle_eq_zero (.inr rfl)]
  · exact hlt (.inl ((hprog (.inl rfl)).resolve_right (by simp)))
  · by_cases hin : r₁.input = []
    · refine hlt (.inr ⟨hin, ?_⟩)
      by_contra hs
      exact hmore (Bool.not_eq_false _ ▸ hs)
        (by show r₁.input.drop used = []; rw [hin, List.drop_nil]) rfl
    · exact hlt (.inl ((hprog (.inr ⟨rfl, hin⟩)).resolve_right (by simp)))

/-- The loop of a read. -/
def readLoop (n : ℕ) : Loop (InflateReader f ρ τ) (Except IoError Bytes × InflateReader f ρ τ) where
  body := readStep n
  rank := idle
  rank_lt := by
    intro r r' h
    unfold readStep at h
    by_cases hp : r.pendingLen = 0
    · rw [if_pos hp] at h
      by_cases hd : r.done = true
      · rw [if_pos hd] at h; cases h
      · rw [if_neg hd] at h
        split at h
        · next hs => cases h; exact idle_lt hs hp (Bool.not_eq_true _ ▸ hd)
        · cases h
    · rw [if_neg hp] at h; cases h

def next (r : InflateReader f ρ τ) (n : ℕ) : Except IoError Bytes × InflateReader f ρ τ :=
  (readLoop n).run r

/-- The passes of a read: it goes round again after a step, or hands out what is
    pending, nothing at the end, or an error. -/
theorem readStep_inr (h : readStep n r = .inr r') :
    r.pendingLen = 0 ∧ r.done = false ∧ r.step = (.ok (), r') := by
  unfold readStep at h
  by_cases hp : r.pendingLen = 0
  · rw [if_pos hp] at h
    by_cases hd : r.done = true
    · rw [if_pos hd] at h; cases h
    · rw [if_neg hd] at h
      split at h
      · next hs => cases h; exact ⟨hp, Bool.not_eq_true _ ▸ hd, hs⟩
      · cases h
  · rw [if_neg hp] at h; cases h

theorem readStep_inl_ok (h : readStep n r = .inl (.ok bs, r')) :
    (r.pendingLen = 0 ∧ r.done = true ∧ bs = [] ∧ r' = r) ∨
      (r.pendingLen ≠ 0 ∧ bs = (r.handOut n).1 ∧ r' = (r.handOut n).2) := by
  unfold readStep at h
  by_cases hp : r.pendingLen = 0
  · rw [if_pos hp] at h
    by_cases hd : r.done = true
    · rw [if_pos hd] at h; cases h; exact .inl ⟨hp, hd, rfl, rfl⟩
    · rw [if_neg hd] at h
      split at h <;> cases h
  · rw [if_neg hp] at h; cases h; exact .inr ⟨hp, rfl, rfl⟩

theorem readStep_inl_error (h : readStep n r = .inl (.error e, r')) : interrupted e = false := by
  unfold readStep at h
  by_cases hp : r.pendingLen = 0
  · rw [if_pos hp] at h
    by_cases hd : r.done = true
    · rw [if_pos hd] at h; cases h
    · rw [if_neg hd] at h
      split at h
      · cases h
      · next hs => cases h; exact step_error hs
  · rw [if_neg hp] at h; cases h

/-- A read is some steps, then a hand-out or the end. -/
theorem next_ok (I : InflateReader f ρ τ → Prop)
    (step : ∀ {r r' : InflateReader f ρ τ}, I r → r.pendingLen = 0 → r.done = false →
      r.step = (.ok (), r') → I r')
    (h : r.next n = (.ok bs, r')) (hI : I r) :
    ∃ r₁, I r₁ ∧ ((r₁.pendingLen = 0 ∧ r₁.done = true ∧ bs = [] ∧ r' = r₁) ∨
      (r₁.pendingLen ≠ 0 ∧ bs = (r₁.handOut n).1 ∧ r' = (r₁.handOut n).2)) := by
  refine Loop.run_induct (l := readLoop n) (s := r) I
    (P := fun b => ∀ bs r', b = (.ok bs, r') → ∃ r₁, I r₁ ∧
      ((r₁.pendingLen = 0 ∧ r₁.done = true ∧ bs = [] ∧ r' = r₁) ∨
        (r₁.pendingLen ≠ 0 ∧ bs = (r₁.handOut n).1 ∧ r' = (r₁.handOut n).2)))
    hI ?_ ?_ bs r' h
  · intro r₁ r₂ hI hs
    obtain ⟨hp, hd, hstep⟩ := readStep_inr hs
    exact step hI hp hd hstep
  · rintro r₁ b hI hs bs r' rfl
    exact ⟨r₁, hI, readStep_inl_ok hs⟩

theorem next_error (h : r.next n = (.error e, r')) : interrupted e = false := by
  refine Loop.run_induct (l := readLoop n) (s := r) (fun _ => True)
    (P := fun b => ∀ e r', b = (.error e, r') → interrupted e = false)
    trivial (fun _ _ => trivial) ?_ e r' h
  rintro r₁ b - hs e r' rfl
  exact readStep_inl_error hs

/-- A bound on how much more is handed out. -/
def leftOut (r : InflateReader f ρ τ) : ℕ := r.limit - r.produced + r.pendingLen

theorem step_leftOut (h : r.step = (.ok (), r')) (hp : r.pendingLen = 0) :
    r'.leftOut ≤ r.leftOut := by
  obtain ⟨r₁, hf, hc⟩ := step_ok h
  have hr₁ : r₁.limit = r.limit ∧ r₁.produced = r.produced := by
    obtain ⟨rfl, -⟩ | ⟨bs, src, -, -, -, rfl⟩ := fill_ok hf <;> exact ⟨rfl, rfl⟩
  obtain ⟨status, used, made, dec, tap, -, -, hl, -, hpass⟩ := call_ok hc
  have hr' : r'.leftOut = (r₁.advance used made dec tap).leftOut := by cases hpass <;> rfl
  rw [hr']
  simp only [leftOut, advance, hr₁, hp]
  rw [hr₁.1, hr₁.2] at hl
  omega

instance : Read (InflateReader f ρ τ) IoError where
  read := next
  left := leftOut
  length_le h := by
    obtain ⟨r₁, -, ⟨-, -, rfl, -⟩ | ⟨-, rfl, -⟩⟩ := next_ok (fun _ => True)
      (fun _ _ _ _ => trivial) h trivial
    · exact Nat.zero_le _
    · exact (List.length_take_le _ _).trans (Nat.min_le_right _ _)
  left_le {r n _ _} h := by
    obtain ⟨r₁, hle, ⟨-, -, rfl, rfl⟩ | ⟨-, rfl, rfl⟩⟩ := next_ok (fun r₁ => r₁.leftOut ≤ r.leftOut)
      (fun hI hp _ hs => (step_leftOut hs hp).trans hI) h le_rfl
    · exact hle
    · refine le_trans ?_ hle
      simp only [leftOut, handOut]
      omega
  left_lt {r n _ _} h hne := by
    obtain ⟨r₁, hle, ⟨-, -, rfl, rfl⟩ | ⟨-, rfl, rfl⟩⟩ := next_ok (fun r₁ => r₁.leftOut ≤ r.leftOut)
      (fun hI hp _ hs => (step_leftOut hs hp).trans hI) h le_rfl
    · exact absurd rfl hne
    · refine lt_of_lt_of_le ?_ hle
      have hk : 0 < min r₁.pendingLen n := Nat.pos_of_ne_zero fun h0 => hne (by simp [handOut, h0])
      simp only [leftOut, handOut]
      omega
  left_retry h hi := by rw [next_error h] at hi; cases hi

/-! ### Every run -/

/-- What a reader that has handed out `bs` has done to its source and its tap,
    and where it is in its window; once it is done, it has made as many bytes as
    were announced. -/
structure Inflated (src : ρ) (tap : τ) (size cap : ℕ) (r : InflateReader f ρ τ)
    (bs : Bytes) : Prop where
  reads : ∃ used, Reads src (used ++ r.input) r.src ∧ Writes tap used r.tap
  window : r.window.length = inflateWindow
  outPos : r.outPos < inflateWindow
  pending : r.pending + r.pendingLen ≤ inflateWindow
  produced : r.produced = bs.length + r.pendingLen
  limit : r.limit = cap
  expected : r.expected = size
  inLimit : r.produced ≤ cap
  inSize : r.produced ≤ size
  done : r.done = true → r.produced = size

variable {src : ρ} {tap : τ} {size cap : ℕ}

theorem Inflated.init : Inflated src tap size cap (withTap f src size cap tap) [] where
  reads := ⟨[], .refl src, .refl tap⟩
  window := List.length_replicate
  outPos := by show 0 < inflateWindow; decide
  pending := Nat.zero_le _
  produced := rfl
  limit := rfl
  expected := rfl
  inLimit := Nat.zero_le _
  inSize := Nat.zero_le _
  done := nofun

theorem Inflated.fill (h : Inflated src tap size cap r bs) (hf : r.fill = (.ok (), r₁)) :
    Inflated src tap size cap r₁ bs := by
  obtain ⟨rfl, -⟩ | ⟨cs, src', hin, -, hread, rfl⟩ := fill_ok hf
  · exact h
  · obtain ⟨used, hr, hw⟩ := h.reads
    rw [hin, List.append_nil] at hr
    exact { h with reads := ⟨used, hr.trans (readFull_reads hread).1, hw⟩ }

/-- A call of the inflater that passes its check keeps it, but for what being
    done means. -/
theorem Inflated.advance (h : Inflated src tap size cap r bs) (hp : r.pendingLen = 0)
    (hd : r.done = false) {status : InflateStatus} {n : ℕ} {made : Bytes} {dec : f.State} {tap' : τ}
    (hdec : f.decompress r.dec r.input r.window r.outPos (!r.srcDone) = (status, n, made, dec))
    (hw : Writes r.tap (r.input.take n) tap') (hl : r.produced + made.length ≤ r.limit)
    (he : r.produced + made.length ≤ r.expected) :
    Inflated src tap size cap (r.advance n made dec tap') bs := by
  have hmade : r.outPos + made.length ≤ r.window.length :=
    f.made_le (by rw [h.window]; exact h.outPos.le) hdec
  obtain ⟨used, hr, ht⟩ := h.reads
  exact {
    reads := by
      refine ⟨used ++ r.input.take n, ?_, ht.trans hw⟩
      rw [List.append_assoc, InflateReader.advance, List.take_append_drop]
      exact hr
    window := (length_overwrite hmade).trans h.window
    outPos := Nat.mod_lt _ (by decide)
    pending := h.window ▸ hmade
    produced := by simp only [InflateReader.advance, h.produced, hp, Nat.add_zero]
    limit := h.limit
    expected := h.expected
    inLimit := h.limit ▸ hl
    inSize := h.expected ▸ he
    done := fun hd' => by rw [InflateReader.advance, hd] at hd'; cases hd' }

theorem Inflated.step (h : Inflated src tap size cap r bs) (hp : r.pendingLen = 0)
    (hd : r.done = false) (hs : r.step = (.ok (), r')) : Inflated src tap size cap r' bs := by
  obtain ⟨r₁, hf, hc⟩ := step_ok hs
  have hr₁ : r₁.pendingLen = 0 ∧ r₁.done = false := by
    obtain ⟨rfl, -⟩ | ⟨cs, src', -, -, -, rfl⟩ := fill_ok hf <;> exact ⟨hp, hd⟩
  obtain ⟨status, n, made, dec, tap', hdec, hw, hl, he, hpass⟩ := call_ok hc
  have hadv := (h.fill hf).advance hr₁.1 hr₁.2 hdec hw hl he
  cases hpass with
  | done hsize => exact { hadv with done := fun _ => hsize.trans hadv.expected }
  | hasMoreOutput => exact hadv
  | needsMoreInput => exact hadv

theorem Inflated.handOut (h : Inflated src tap size cap r bs) :
    Inflated src tap size cap (r.handOut n).2 (bs ++ (r.handOut n).1) := by
  have hlen : (r.handOut n).1.length = min r.pendingLen n := by
    have := h.pending
    have := h.window
    simp only [InflateReader.handOut, List.length_take, List.length_drop]
    omega
  exact { h with
    pending := by
      have := h.pending
      simp only [InflateReader.handOut]
      omega
    produced := by
      have := h.produced
      rw [List.length_append, hlen]
      simp only [InflateReader.handOut]
      omega }

/-- Every read keeps it; one that hands out nothing says that it is done. -/
theorem Inflated.next (h : Inflated src tap size cap r bs) (hn : r.next n = (.ok piece, r')) :
    Inflated src tap size cap r' (bs ++ piece) ∧
      (piece = [] → n ≠ 0 → r'.done = true ∧ r'.pendingLen = 0) := by
  obtain ⟨r₁, hI, ⟨hp, hd, rfl, rfl⟩ | ⟨hp, rfl, rfl⟩⟩ :=
    next_ok (fun r => Inflated src tap size cap r bs) (fun hI hp hd hs => hI.step hp hd hs) hn h
  · rw [List.append_nil]
    exact ⟨hI, fun _ _ => ⟨hd, hp⟩⟩
  · refine ⟨hI.handOut, fun h0 hn0 => absurd h0 fun h0 => ?_⟩
    have hlen := (hI.handOut (n := n)).produced
    rw [List.length_append, h0, List.length_nil] at hlen
    have := hI.produced
    simp only [InflateReader.handOut] at hlen
    omega

theorem Inflated.reads_trans (h : Inflated src tap size cap r bs) (hr : Reads r piece r') :
    Inflated src tap size cap r' (bs ++ piece) := by
  induction hr generalizing bs with
  | refl r => rwa [List.append_nil]
  | ok hread _ ih => rw [← List.append_assoc]; exact ih (h.next hread).1
  | retry hread hi => rw [next_error hread] at hi; cases hi

/-- Reads of what the source inflates to are reads of the source. -/
theorem reads_src (hr : Reads (withTap f src size cap tap) bs r) :
    ∃ ct, Reads src ct r.src := by
  obtain ⟨used, h, -⟩ := (Inflated.init.reads_trans hr).reads
  exact ⟨_, h⟩

/-- What was read is within the limit, and no longer than was announced. -/
theorem reads_le (hr : Reads (withTap f src size cap tap) bs r) :
    bs.length ≤ cap ∧ bs.length ≤ size := by
  have h := Inflated.init.reads_trans hr
  have hlen := h.produced
  rw [List.nil_append] at hlen
  have hcap := h.inLimit
  have hsize := h.inSize
  omega

/-- What was read to its end is as long as was announced. -/
theorem reads_length (hr : Reads (withTap f src size cap tap) bs r)
    (hend : r.next n = (.ok [], r')) (hn : n ≠ 0) : bs.length = size := by
  obtain ⟨h, hd⟩ := (Inflated.init.reads_trans hr).next hend
  obtain ⟨hdone, hp⟩ := hd rfl hn
  have hlen := h.produced
  rw [h.done hdone, hp, List.append_nil, List.nil_append] at hlen
  exact hlen.symm

/-- What is pending, with a property of what else is to come that every step keeps,
    adding to what is pending, is presented. -/
structure Steady (A : InflateReader f ρ τ → (todo : Bytes) → Prop) : Prop where
  pend : ∀ {r todo}, A r todo → r.pending + r.pendingLen ≤ r.window.length
  done : ∀ {r todo}, A r todo → r.done = true → todo = []
  step : ∀ {r todo}, A r todo → r.pendingLen = 0 → r.done = false →
    ∃ r' todo', r.step = (.ok (), r') ∧ todo = r'.pendingBytes ++ todo' ∧ A r' todo'
  handOut : ∀ {r todo} (n : ℕ), A r todo → A (r.handOut n).2 todo

section

variable {A : InflateReader f ρ τ → Bytes → Prop} {todo : Bytes}

omit [Read ρ IoError] [Write τ IoError] in
theorem handOut_ne_nil (h : r.pending + r.pendingLen ≤ r.window.length) (hp : r.pendingLen ≠ 0)
    (hn : 0 < n) : (r.handOut n).1 ≠ [] := by
  rw [← List.length_pos_iff]
  simp only [handOut, List.length_take, List.length_drop]
  omega

/-- Every read succeeds, and hands out the beginning of what is to come. -/
theorem Steady.next (hA : Steady A) (h : A r todo) (n : ℕ) :
    ∃ piece r' todo', r.next n = (.ok piece, r') ∧ A r' todo' ∧
      r.pendingBytes ++ todo = piece ++ (r'.pendingBytes ++ todo') ∧
      (0 < n → r.pendingBytes ++ todo ≠ [] → piece ≠ []) := by
  induction hk : r.idle using Nat.strong_induction_on generalizing r todo with
  | _ k ih =>
    by_cases hp : r.pendingLen = 0
    · have hnil := pendingBytes_of_pendingLen hp
      by_cases hd : r.done = true
      · have hb : readStep n r = .inl (.ok [], r) := by rw [readStep, if_pos hp, if_pos hd]
        refine ⟨[], r, todo, Loop.run_inl hb, h, rfl, fun _ hne => absurd ?_ hne⟩
        rw [hnil, hA.done h hd]
        rfl
      · have hd : r.done = false := Bool.not_eq_true _ ▸ hd
        obtain ⟨r', todo', hs, rfl, h'⟩ := hA.step h hp hd
        have hb : readStep n r = .inr r' := by
          rw [readStep, if_pos hp, if_neg (by rw [hd]; exact Bool.false_ne_true), hs]
        obtain ⟨piece, r'', todo'', hn, h'', heq, hne⟩ := ih _ (hk ▸ idle_lt hs hp hd) h' rfl
        rw [hnil, List.nil_append]
        exact ⟨piece, r'', todo'', (Loop.run_inr hb).trans hn, h'', heq, hne⟩
    · have hb : readStep n r = .inl (.ok (r.handOut n).1, (r.handOut n).2) := by
        rw [readStep, if_neg hp]
      refine ⟨_, _, todo, Loop.run_inl hb, hA.handOut n h, ?_,
        fun hn _ => handOut_ne_nil (hA.pend h) hp hn⟩
      rw [← List.append_assoc, ← handOut_pendingBytes]

theorem Steady.presents (hA : Steady A) (h : A r todo) :
    Presents r (r.pendingBytes ++ todo) (none : Option IoError) := by
  refine Presents.of_invariant (fun r ahead => ∃ todo, ahead = r.pendingBytes ++ todo ∧ A r todo)
    ?_ ?_ ?_ ⟨todo, rfl, h⟩
  · rintro r ahead ⟨todo, rfl, h⟩ n hn
    obtain ⟨piece, r', todo', hread, -, heq, hne⟩ := hA.next h n
    have hne := hne hn
    rw [heq] at hne ⊢
    rcases piece with - | ⟨b, piece⟩
    · rw [List.nil_append] at hne ⊢
      rw [not_not.1 fun h => hne h rfl]
      exact ⟨r', hread⟩
    · exact ⟨b :: piece, r', hread, List.cons_ne_nil _ _, List.prefix_append _ _⟩
  · rintro r ahead n piece r' ⟨todo, rfl, h⟩ hread
    obtain ⟨piece', r'', todo', hread', h', heq, -⟩ := hA.next h n
    obtain ⟨⟨⟩, rfl⟩ := Prod.mk.inj (hread'.symm.trans hread)
    exact ⟨_, heq, todo', rfl, h'⟩
  · rintro r ahead n e r' ⟨todo, rfl, h⟩ hread
    obtain ⟨piece', r'', todo', hread', -⟩ := hA.next h n
    cases hread'.symm.trans hread

end

/-! ### Over a complete stream -/

section

variable {F : Format} {code data rest todo ahead : Bytes} {J : τ → Prop}

/-- The reader is in the middle of a complete stream: the source presents what is
    not yet read of it, and `todo` is what is not yet inflated. -/
def Underway (code data rest : Bytes) (r : InflateReader f ρ τ) (todo : Bytes) : Prop :=
  ∃ i o s, f.Ran inflateWindow r.dec i o ∧ InWindow r.window o ∧
    r.outPos = o.length % inflateWindow ∧ o ++ todo = data ∧ r.produced = o.length ∧
    Presents r.src s (none : Option IoError) ∧ (r.srcDone = true → s = []) ∧
    i ++ r.input ++ s = code ++ rest

omit [Write τ IoError] in
theorem Underway.init (hs : Presents src (code ++ rest) (none : Option IoError)) :
    Underway code data rest (withTap f src size cap tap) data :=
  ⟨[], [], code ++ rest, .init, .nil _, rfl, rfl, rfl, hs, nofun, rfl⟩

omit [Write τ IoError] in
theorem Underway.fill (h : Underway code data rest r todo) :
    ∃ r₁, r.fill = (.ok (), r₁) ∧ r₁.tap = r.tap ∧ Underway code data rest r₁ todo := by
  obtain ⟨i, o, s, hran, hw, ho, hdata, hprod, hs, hsd, hcode⟩ := h
  by_cases hc : r.input.isEmpty ∧ r.srcDone = false
  · have hin : r.input = [] := List.isEmpty_iff.1 hc.1
    rw [hin, List.append_nil] at hcode
    by_cases hl : chunk ≤ s.length
    · obtain ⟨src', hread, hs'⟩ := hs.readFull_le hl
      refine ⟨_, fill_of_readFull hin hc.2 hread, rfl, i, o, s.drop chunk, hran, hw, ho, hdata,
        hprod, hs', fun hlt => ?_, ?_⟩
      · rw [List.length_take, Nat.min_eq_left hl, decide_eq_true_iff] at hlt
        exact absurd hlt (Nat.lt_irrefl _)
      · rw [List.append_assoc, List.take_append_drop, hcode]
    · obtain ⟨src', hread, hs'⟩ := hs.readFull_gt (Nat.lt_of_not_le hl)
      refine ⟨_, fill_of_readFull hin hc.2 hread, rfl, i, o, [], hran, hw, ho, hdata, hprod, hs',
        fun _ => rfl, ?_⟩
      rw [List.append_nil, hcode]
  · exact ⟨r, by rw [InflateReader.fill, if_neg hc], rfl, i, o, s, hran, hw, ho, hdata, hprod,
      hs, hsd, hcode⟩

omit [Read ρ IoError] in
theorem tapUsed_of_willing (hJ : Willing J) (ht : J r.tap) (used : ℕ) :
    ∃ tap, r.tapUsed used = (.ok (), tap) ∧ J tap := by
  unfold tapUsed
  split
  · exact hJ.writeAll ht _
  · exact ⟨r.tap, rfl, ht⟩

/-- In the middle of a complete stream, a call of the inflater succeeds, and
    makes some more of the data. -/
theorem Underway.call (hF : f.Undoes F inflateWindow) (hcode : F.Complete code data)
    (hJ : Willing J) (h : Underway code data rest r todo) (hi : Inflated src tap data.length cap r bs)
    (hcap : data.length ≤ cap) (hd : r.done = false) (ht : J r.tap) :
    ∃ r' todo', r.call = (.ok (), r') ∧ J r'.tap ∧ todo = r'.pendingBytes ++ todo' ∧
      (r'.done = true ∧ todo' = [] ∨ r'.done = false ∧ Underway code data rest r' todo') := by
  obtain ⟨i, o, s, hran, hw, ho, hdata, hprod, hs, hsd, hin⟩ := h
  rcases hdec : f.decompress r.dec r.input r.window r.outPos (!r.srcDone)
    with ⟨status, n, made, dec⟩
  have hpre : i ++ r.input <+: code ++ rest := ⟨s, hin⟩
  have hmore : (!r.srcDone) = true ∨ code.length ≤ (i ++ r.input).length := by
    cases hsrc : r.srcDone with
    | false => exact .inl rfl
    | true =>
      rw [hsd hsrc, List.append_nil] at hin
      exact .inr (by rw [hin, List.length_append]; exact Nat.le_add_right _ _)
  have hle : r.outPos + made.length ≤ r.window.length :=
    f.made_le (by rw [hi.window]; exact hi.outPos.le) hdec
  have hpend : ((overwrite r.window r.outPos made).drop r.outPos).take made.length = made :=
    take_drop_overwrite hle
  rw [ho] at hdec
  obtain ⟨-, hmade, hstatus⟩ := hF hran hi.window hw hcode hpre hmore hdec
  rw [← ho] at hdec
  obtain ⟨tap', htap, ht'⟩ := tapUsed_of_willing hJ ht n
  have hcall : r.call = (r.advance n made dec tap').check status := by
    unfold InflateReader.call
    simp only [hdec, htap]
  obtain ⟨todo', htodo⟩ := hmade
  have htodo' : todo = made ++ todo' := by
    rw [← htodo, List.append_assoc] at hdata
    exact List.append_cancel_left hdata
  have hprod' : (r.advance n made dec tap').produced = (o ++ made).length := by
    rw [advance, hprod, List.length_append]
  have hlen : (o ++ made).length ≤ data.length := by
    rw [← htodo]
    exact (List.prefix_append (o ++ made) todo').length_le
  have hlimit : (r.advance n made dec tap').produced ≤ (r.advance n made dec tap').limit := by
    rw [hprod', show (r.advance n made dec tap').limit = cap from hi.limit]
    exact hlen.trans hcap
  have hexpected : (r.advance n made dec tap').expected = data.length := hi.expected
  -- the reader goes on in the middle of the stream, unless the inflater is done
  have hnext : status = .needsMoreInput ∨ status = .hasMoreOutput →
      Underway code data rest (r.advance n made dec tap') todo' := by
    intro hs'
    refine ⟨i ++ r.input.take n, o ++ made, s, ?_, ?_, ?_, htodo, hprod', hs, hsd, ?_⟩
    · exact .step hran hi.window hw (ho ▸ hdec) hs'
    · have hlen' : o.length % r.window.length + made.length ≤ r.window.length := by
        rw [hi.window, ← ho, ← hi.window]; exact hle
      have := hw.overwrite hlen'
      rwa [hi.window, ← ho] at this
    · rw [advance_outPos, ho, Nat.mod_add_mod, List.length_append]
    · rw [advance, ← hin, List.append_assoc i, List.take_append_drop]
  rw [hcall]
  obtain ⟨rfl, -, hall⟩ | rfl | ⟨rfl, hshort⟩ := hstatus
  · have hnil : todo' = [] := by
      rw [hall] at htodo
      simpa using htodo
    refine ⟨_, [], check_ok.2 ⟨hlimit, ?_, .done ?_⟩, ht', ?_, .inl ⟨rfl, rfl⟩⟩
    · rw [hprod', hexpected]; exact hlen
    · rw [hprod', hexpected, hall]
    · rw [htodo', hnil, List.append_nil, List.append_nil]; exact hpend.symm
  · refine ⟨_, todo', check_ok.2 ⟨hlimit, ?_, .hasMoreOutput⟩, ht', ?_, .inr ⟨hd, hnext (.inr rfl)⟩⟩
    · rw [hprod', hexpected]; exact hlen
    · rw [htodo']; exact congrArg (· ++ todo') hpend.symm
  · refine ⟨_, todo', check_ok.2 ⟨hlimit, ?_, .needsMoreInput fun hsrc => ?_⟩, ht', ?_,
      .inr ⟨hd, hnext (.inl rfl)⟩⟩
    · rw [hprod', hexpected]; exact hlen
    · -- a source that has ended has given all of the stream
      have := hmore.resolve_left (by rw [show r.srcDone = true from hsrc]; simp)
      omega
    · rw [htodo']; exact congrArg (· ++ todo') hpend.symm

/-- What is ahead of a reader: what is pending, then what is left to inflate. -/
structure Ahead (code data rest : Bytes) (cap : ℕ) (J : τ → Prop) (r : InflateReader f ρ τ)
    (ahead : Bytes) : Prop where
  inflated : ∃ (src : ρ) (tap : τ) (bs : Bytes), Inflated src tap data.length cap r bs
  tap : J r.tap
  eq : ∃ todo, ahead = r.pendingBytes ++ todo ∧
    (r.done = true ∧ todo = [] ∨ r.done = false ∧ Underway code data rest r todo)

theorem Ahead.step (hF : f.Undoes F inflateWindow) (hcode : F.Complete code data)
    (hJ : Willing J) (hcap : data.length ≤ cap) (h : Ahead code data rest cap J r ahead)
    (hp : r.pendingLen = 0) (hd : r.done = false) :
    ∃ r', r.step = (.ok (), r') ∧ Ahead code data rest cap J r' ahead := by
  obtain ⟨⟨src, tap, bs, hi⟩, ht, todo, rfl, ⟨hd', -⟩ | ⟨-, hu⟩⟩ := h
  · rw [hd] at hd'; cases hd'
  obtain ⟨r₁, hf, htap, hu₁⟩ := hu.fill
  have hr₁ : r₁.pendingLen = 0 ∧ r₁.done = false := by
    obtain ⟨rfl, -⟩ | ⟨cs, src', -, -, -, rfl⟩ := fill_ok hf <;> exact ⟨hp, hd⟩
  obtain ⟨r', todo', hc, ht', rfl, h'⟩ :=
    hu₁.call hF hcode hJ (hi.fill hf) hcap hr₁.2 (htap ▸ ht)
  have hs : r.step = (.ok (), r') := by
    unfold InflateReader.step
    simp only [hf, hc]
  refine ⟨r', hs, ⟨src, tap, bs, hi.step hp hd hs⟩, ht', todo', ?_, h'⟩
  rw [pendingBytes_of_pendingLen hp, List.nil_append]

/-- A reader in the middle of a complete stream goes on to its end. -/
theorem Ahead.steady (hF : f.Undoes F inflateWindow) (hcode : F.Complete code data)
    (hJ : Willing J) (hcap : data.length ≤ cap) :
    Steady fun (r : InflateReader f ρ τ) todo =>
      Ahead code data rest cap J r (r.pendingBytes ++ todo) where
  pend := by
    rintro r todo ⟨⟨src, tap, bs, hi⟩, -, -⟩
    rw [hi.window]
    exact hi.pending
  done := by
    rintro r todo ⟨-, -, todo', heq, ⟨-, rfl⟩ | ⟨hd', -⟩⟩ hd
    · exact List.append_cancel_left heq
    · rw [hd] at hd'; cases hd'
  step := by
    intro r todo h hp hd
    obtain ⟨r', hs, h'⟩ := h.step hF hcode hJ hcap hp hd
    rw [pendingBytes_of_pendingLen hp, List.nil_append] at h'
    obtain ⟨todo', heq, -⟩ := h'.eq
    exact ⟨r', todo', hs, heq, heq ▸ h'⟩
  handOut := by
    rintro r todo n ⟨⟨src, tap, bs, hi⟩, ht, todo', heq, htodo⟩
    obtain rfl := List.append_cancel_left heq
    exact ⟨⟨src, tap, _, hi.handOut⟩, ht, todo, rfl, htodo⟩

/-- Over a source that presents a complete stream, whatever comes after it, the
    data of the stream is presented, if it is as long as was announced and within
    the limit. -/
theorem presents (hF : f.Undoes F inflateWindow) (hcode : F.Complete code data)
    (hJ : Willing J) (hcap : data.length ≤ cap) (ht : J tap)
    (hs : Presents src (code ++ rest) (none : Option IoError)) :
    Presents (withTap f src data.length cap tap) data (none : Option IoError) := by
  let r : InflateReader f ρ τ := withTap f src data.length cap tap
  have h : Ahead code data rest cap J r (r.pendingBytes ++ data) :=
    ⟨⟨src, tap, [], .init⟩, ht, data, rfl, .inr ⟨rfl, .init hs⟩⟩
  have hp := (Ahead.steady hF hcode hJ hcap).presents h
  rwa [pendingBytes_of_pendingLen rfl, List.nil_append] at hp

end

end InflateReader

end OdfCrypto

import OdfCrypto.Lib.Readers
import OdfCrypto.Lib.Session
import OdfCrypto.Lib.StoredInflate
import OdfCrypto.Stream.Inflate

/-!
# What an inflating reader comes to

An `InflateReader`, over a source that presents some bytes, follows the inflater
on these bytes, a chunk at a time: it hands out what the inflater makes, and
ends well where the inflater does, having made what was announced.

* `InflateReader.Feed`: where the reader is in its source;
* `InflateReader.Following`: where it is in the run of the inflater;
* `InflateReader.contract`: whether it ends well, what it hands out, and what the
  tap is given.
-/

namespace OdfCrypto

open ByteStream Deflate

namespace InflateReader

variable {f : Inflater} {ρ τ : Type} [Read ρ IoError]

/-! ### The source -/

/-- The input is what is left of the chunk of byte `i`. -/
structure Fed (bytes : Bytes) (e : Option IoError) (r : InflateReader f ρ τ) (i : ℕ) : Prop where
  input : r.input = offered chunk bytes i
  srcDone : r.srcDone = !full chunk bytes i
  readable : e.isSome = true → full chunk bytes i = true
  src : Presents r.src (bytes.drop ((i / chunk + 1) * chunk)) e

/-- The reader has used `i` bytes of the source: there is something left of a chunk,
    or the next one is to be read. -/
def Feed (bytes : Bytes) (e : Option IoError) (r : InflateReader f ρ τ) (i : ℕ) : Prop :=
  Fed bytes e r i ∨
    r.input = [] ∧ r.srcDone = false ∧ chunk ∣ i ∧ Presents r.src (bytes.drop i) e

variable {bytes : Bytes} {e : Option IoError} {r r' : InflateReader f ρ τ} {i n : ℕ}

/-- Only the source and what was read of it matter. -/
theorem Feed.congr (h : Feed bytes e r i) (hin : r'.input = r.input)
    (hsd : r'.srcDone = r.srcDone) (hsrc : r'.src = r.src) : Feed bytes e r' i := by
  rcases h with ⟨h1, h2, h3, h4⟩ | ⟨h1, h2, h3, h4⟩
  · exact .inl ⟨hin.trans h1, hsd.trans h2, h3, hsrc ▸ h4⟩
  · exact .inr ⟨hin.trans h1, hsd.trans h2, h3, hsrc ▸ h4⟩

/-- A buffer that is used up, and not of the last chunk, is filled. -/
theorem Feed.fill (h : Feed bytes e r i) :
    (∃ src input srcDone, r.fill = (.ok (), { r with src, input, srcDone }) ∧
      Fed bytes e { r with src, input, srcDone } i) ∨
      (∃ err r₁, r.fill = (.error err, r₁)) ∧ e.isSome = true ∧ full chunk bytes i = false := by
  obtain ⟨hin, hsd, hr, hs⟩ | ⟨hin, hsd, hdvd, hs⟩ := h
  · -- Some input is left, or the source has ended: nothing is read.
    refine .inl ⟨r.src, r.input, r.srcDone, ?_, hin, hsd, hr, hs⟩
    have hc : ¬ (r.input.isEmpty ∧ r.srcDone = false) := by
      rintro ⟨hnil, hsd'⟩
      rw [hsd, full_of_offered_nil (by decide) (hin.symm.trans (List.isEmpty_iff.1 hnil))] at hsd'
      cases hsd'
    rw [InflateReader.fill, if_neg hc]
  · -- The window is used up: the next one is read whole, or short at the end, or the
    -- source fails in it.
    have hnext : bytes.drop ((i / chunk + 1) * chunk) = (bytes.drop i).drop chunk := by
      rw [List.drop_drop, Nat.succ_mul, Nat.div_mul_cancel hdvd]
    have hfull : full chunk bytes i = _ := full_of_dvd (by decide) hdvd
    have hoff : offered chunk bytes i = _ := offered_of_dvd hdvd
    by_cases hl : chunk ≤ (bytes.drop i).length
    · obtain ⟨src, hread, hs'⟩ := hs.readFull_le hl
      refine .inl ⟨src, _, _, fill_of_readFull hin hsd hread, hoff.symm, ?_, ?_, ?_⟩
      · show decide ((List.take chunk _).length < chunk) = _
        rw [hfull, decide_eq_true hl, List.length_take_of_le hl,
          decide_eq_false (Nat.lt_irrefl chunk)]
        rfl
      · exact fun _ => hfull.trans (decide_eq_true hl)
      · rw [hnext]
        exact hs'
    · have hshort := Nat.lt_of_not_le hl
      rcases e with - | err
      · obtain ⟨src, hread, hs'⟩ := hs.readFull_gt hshort
        refine .inl ⟨src, _, _, fill_of_readFull hin hsd hread, ?_, ?_, ?_, ?_⟩
        · rw [hoff, List.take_of_length_le hshort.le]
        · rw [hfull, decide_eq_false hl]
          exact decide_eq_true hshort
        · exact fun h => absurd h Bool.false_ne_true
        · rw [hnext, List.drop_eq_nil_of_le hshort.le]
          exact hs'
      · obtain ⟨src, hread⟩ := hs.readFull_error hshort
        refine .inr ⟨⟨err, { r with src }, ?_⟩, rfl, hfull.trans (decide_eq_false hl)⟩
        rw [InflateReader.fill, if_pos ⟨List.isEmpty_iff.2 hin, hsd⟩, hread]

/-- A call that has used some of the input. -/
theorem Fed.advance (h : Fed bytes e r i) (hn : n ≤ r.input.length)
    (hin : r'.input = r.input.drop n) (hsd : r'.srcDone = r.srcDone) (hsrc : r'.src = r.src) :
    Feed bytes e r' (i + n) := by
  rw [h.input] at hn hin
  by_cases hlt : i % chunk + n < chunk
  · refine .inl ⟨?_, ?_, ?_, ?_⟩
    · rw [hin, offered_add hlt]
    · rw [hsd, h.srcDone, full_add hlt]
    · rw [full_add hlt]
      exact h.readable
    · rw [hsrc, (div_add_of_lt hlt).1]
      exact h.src
  · obtain ⟨heq, hnil, hfull⟩ := add_eq_of_le (by decide) (Nat.le_of_not_lt hlt) hn
    refine .inr ⟨hin.trans hnil, ?_, ?_, ?_⟩
    · rw [hsd, h.srcDone, hfull]
      rfl
    · rw [heq]
      exact Nat.dvd_mul_left _ _
    · rw [hsrc, heq]
      exact h.src

/-! ### The run of the inflater -/

variable [Write τ IoError]

/-- The reader has handed out `p`, and its inflater has consumed `i` bytes of the
    source, which the tap was given, and made `o`, no more than it should. -/
structure Mirrors (bytes : Bytes) (tap : τ) (size cap : ℕ) (r : InflateReader f ρ τ) (p : Bytes)
    (i : ℕ) (o : Bytes) : Prop where
  window : r.window = ring inflateWindow o
  outPos : r.outPos = o.length % inflateWindow
  produced : r.produced = o.length
  pending : r.pending + r.pendingLen ≤ inflateWindow
  limit : r.limit = cap
  expected : r.expected = size
  inLimit : o.length ≤ cap
  inSize : o.length ≤ size
  handed : p ++ r.pendingBytes = o
  tapped : Writes tap (bytes.take i) r.tap

/-- And it goes on from there, or was done there, with what was announced. -/
structure Following (bytes : Bytes) (e : Option IoError) (tap : τ) (size cap : ℕ)
    (r : InflateReader f ρ τ) (p : Bytes) (i : ℕ) (o : Bytes) : Prop extends
    Mirrors bytes tap size cap r p i o where
  state : (r.done = false ∧ f.Reaches chunk inflateWindow bytes e.isSome r.dec i o ∧
      Feed bytes e r i) ∨
    (r.done = true ∧ f.EndsAt chunk inflateWindow bytes e.isSome i o ∧ o.length = size)

variable {src : ρ} {tap : τ} {size cap : ℕ} {p o : Bytes}

theorem Following.init (hs : Presents src bytes e) :
    Following bytes e tap size cap (withTap f src size cap tap) [] 0 [] where
  window := rfl
  outPos := rfl
  produced := rfl
  pending := Nat.zero_le _
  limit := rfl
  expected := rfl
  inLimit := Nat.zero_le _
  inSize := Nat.zero_le _
  handed := rfl
  tapped := .refl tap
  state := .inl ⟨rfl, .init, .inr ⟨rfl, rfl, Nat.dvd_zero _, hs⟩⟩

omit [Read ρ IoError] in
theorem Mirrors.handOut (h : Mirrors bytes tap size cap r p i o) (n : ℕ) :
    Mirrors bytes tap size cap (r.handOut n).2 (p ++ (r.handOut n).1) i o :=
  { h with
    pending := by
      have := h.pending
      simp only [InflateReader.handOut]
      omega
    handed := by rw [List.append_assoc, ← handOut_pendingBytes, h.handed] }

theorem Following.handOut (h : Following bytes e tap size cap r p i o) (n : ℕ) :
    Following bytes e tap size cap (r.handOut n).2 (p ++ (r.handOut n).1) i o :=
  { h.toMirrors.handOut n with
    state := h.state.imp_left fun ⟨hd, hr, hf⟩ => ⟨hd, hr, hf.congr rfl rfl rfl⟩ }

omit [Read ρ IoError] in
/-- A call that makes no more than it should. -/
theorem Mirrors.advance (h : Mirrors bytes tap size cap r p i o) (hp : r.pendingLen = 0)
    {made : Bytes} {dec : f.State} {tap' : τ}
    (hmade : o.length % inflateWindow + made.length ≤ inflateWindow)
    (hw : Writes r.tap ((bytes.drop i).take n) tap') (hl : (o ++ made).length ≤ cap)
    (he : (o ++ made).length ≤ size) :
    Mirrors bytes tap size cap (r.advance n made dec tap') p (i + n) (o ++ made) where
  window := by rw [advance_window, h.window, h.outPos, ring_append hmade]
  outPos := by rw [advance_outPos, h.outPos, Nat.mod_add_mod, List.length_append]
  produced := by rw [InflateReader.advance, h.produced, List.length_append]
  pending := by rw [advance_pending, h.outPos]; exact hmade
  limit := h.limit
  expected := h.expected
  inLimit := hl
  inSize := he
  handed := by
    have hle : o.length % inflateWindow + made.length ≤ (ring inflateWindow o).length := by
      rw [length_ring]
      exact hmade
    rw [pendingBytes, advance_window, advance_pending, advance_pendingLen, h.window, h.outPos]
    rw [take_drop_overwrite hle, ← h.handed, pendingBytes_of_pendingLen hp, List.append_nil]
  tapped := by
    rw [List.take_add]
    exact h.tapped.trans hw

omit [Write τ IoError] in
/-- The call that the reader makes. -/
theorem Fed.decompress (h : Fed bytes e r i) (hw : r.window = ring inflateWindow o)
    (ho : r.outPos = o.length % inflateWindow) :
    f.decompress r.dec r.input r.window r.outPos (!r.srcDone) =
      f.callAt chunk inflateWindow bytes r.dec i o := by
  rw [h.input, h.srcDone, hw, ho, Bool.not_not]
  rfl

/-- A step goes on as the inflater does, and is done where it is. -/
theorem Following.step (h : Following bytes e tap size cap r p i o) (hp : r.pendingLen = 0)
    (hd : r.done = false) (hs : r.step = (.ok (), r')) :
    ∃ i' o', Following bytes e tap size cap r' p i' o' ∧
      ∀ {iEnd oEnd}, f.Ends chunk inflateWindow bytes e.isSome iEnd oEnd r.dec i o →
        (r'.done = true ∧ o' = oEnd) ∨
          (r'.done = false ∧ f.Ends chunk inflateWindow bytes e.isSome iEnd oEnd r'.dec i' o') := by
  rcases h.state with ⟨-, hreach, hfeed⟩ | ⟨hd', -⟩
  swap
  · rw [hd] at hd'; cases hd'
  -- The step fills the input and calls the decoder; both are what the machine on the
  -- whole string does at `(i, o)`.
  obtain ⟨r₁, hfill, hcall⟩ := step_ok hs
  rcases hfeed.fill with ⟨src, input, srcDone, hfill', hfed⟩ | ⟨⟨err, r₂, hfill'⟩, -⟩
  swap
  · cases hfill'.symm.trans hfill
  obtain ⟨-, rfl⟩ := Prod.mk.inj (hfill'.symm.trans hfill)
  obtain ⟨status, n, made, dec, tap', hdec, hw, hl, he, hpass⟩ := call_ok hcall
  rw [hfed.decompress h.window h.outPos] at hdec
  have hn : n ≤ (offered chunk bytes i).length := f.consumed_le hdec
  have hmade : o.length % inflateWindow + made.length ≤ inflateWindow := by
    have := f.made_le (by rw [length_ring]; exact (Nat.mod_lt _ (by decide)).le) hdec
    rwa [length_ring] at this
  have hin : input = offered chunk bytes i := hfed.input
  have hw : Writes r.tap ((bytes.drop i).take n) tap' := by
    rw [← offered_take hn, ← hin]
    exact hw
  have hlen : (o ++ made).length = r.produced + made.length := by
    rw [List.length_append, h.produced]
  -- Whatever the status, the reader goes on mirroring the string after the call.
  have hadv : Mirrors bytes tap size cap
      (({ r with src, input, srcDone } : InflateReader f ρ τ).advance n made dec tap') p
      (i + n) (o ++ made) := by
    have hm : Mirrors bytes tap size cap { r with src, input, srcDone } p i o :=
      { h.toMirrors with }
    refine hm.advance hp hmade hw ?_ ?_
    · rw [hlen, ← h.limit]
      exact hl
    · rw [hlen, ← h.expected]
      exact he
  have hfeed' : Feed bytes e
      (({ r with src, input, srcDone } : InflateReader f ρ τ).advance n made dec tap') (i + n) :=
    hfed.advance (hin ▸ hn) rfl rfl rfl
  have hnext (hg : Inflater.GoesOn chunk bytes i n made status) : Following bytes e tap size cap
      (({ r with src, input, srcDone } : InflateReader f ρ τ).advance n made dec tap') p (i + n)
      (o ++ made) :=
    { hadv with state := .inl ⟨hd, .step hreach hfed.readable hdec hg, hfeed'⟩ }
  refine ⟨i + n, o ++ made, ?_⟩
  -- The status that passed the checks decides whether the stream has ended.
  rcases hpass with hsize | - | hmore
  · refine ⟨{ hadv with state := .inr ⟨rfl, ?_, ?_⟩ }, fun hE => .inl ⟨rfl, ?_⟩⟩
    · exact hreach.endsAt (.done hfed.readable hdec rfl rfl)
    · rw [hlen, ← h.expected]
      exact hsize
    · rcases (hE.next hdec).2 with ⟨-, -, ho⟩ | ⟨hg, -⟩
      · exact ho.symm
      · exact hg.elim
  · refine ⟨hnext trivial, fun hE => .inr ⟨hd, ?_⟩⟩
    rcases (hE.next hdec).2 with ⟨hs', -⟩ | ⟨-, hE'⟩
    · cases hs'
    · exact hE'
  · refine ⟨hnext fun hfull hused hmade => ?_, fun hE => .inr ⟨hd, ?_⟩⟩
    · refine hmore ?_ ?_ (congrArg List.length hmade)
      · exact hfed.srcDone.trans (by rw [hfull]; rfl)
      · show input.drop n = []
        rw [hin, hused, List.drop_length]
    · rcases (hE.next hdec).2 with ⟨hs', -⟩ | ⟨-, hE'⟩
      · cases hs'
      · exact hE'

/-- Every read goes on as the inflater does; one that hands out nothing says that it
    is done. -/
theorem Following.next {piece : Bytes} (h : Following bytes e tap size cap r p i o)
    (hn : r.next n = (.ok piece, r')) :
    (∃ i' o', Following bytes e tap size cap r' (p ++ piece) i' o') ∧
      (piece = [] → 0 < n → r'.done = true ∧ r'.pendingLen = 0) := by
  obtain ⟨r₁, ⟨i₁, o₁, h₁⟩, ⟨hp, hd, rfl, rfl⟩ | ⟨hp, rfl, rfl⟩⟩ :=
    next_ok (fun r => ∃ i o, Following bytes e tap size cap r p i o)
      (fun ⟨_, _, h⟩ hp hd hs => by
        obtain ⟨i', o', h', -⟩ := h.step hp hd hs
        exact ⟨i', o', h'⟩) hn ⟨i, o, h⟩
  · rw [List.append_nil]
    exact ⟨⟨i₁, o₁, h₁⟩, fun _ _ => ⟨hd, hp⟩⟩
  · refine ⟨⟨i₁, o₁, h₁.handOut n⟩, fun hnil hpos => absurd hnil (handOut_ne_nil ?_ hp hpos)⟩
    rw [h₁.window, length_ring]
    exact h₁.pending

theorem Following.reads {piece : Bytes} (hr : Reads r piece r')
    (h : Following bytes e tap size cap r p i o) :
    ∃ i' o', Following bytes e tap size cap r' (p ++ piece) i' o' := by
  induction hr generalizing p i o with
  | refl r => exact ⟨i, o, by rwa [List.append_nil]⟩
  | ok hread _ ih =>
    obtain ⟨⟨i', o', h'⟩, -⟩ := h.next hread
    rw [← List.append_assoc]
    exact ih h'
  | retry hread hi => rw [next_error hread] at hi; cases hi

/-- On the way to an end that is what was announced, and with a tap that takes what
    it is given, a step succeeds. -/
theorem Following.step_of_ends {J : τ → Prop} {iEnd : ℕ} {oEnd : Bytes} (hJ : Willing J)
    (ht : J r.tap) (h : Following bytes e tap size cap r p i o) (hd : r.done = false)
    (hE : f.Ends chunk inflateWindow bytes e.isSome iEnd oEnd r.dec i o)
    (hsize : oEnd.length = size) (hcap : size ≤ cap) :
    ∃ r', r.step = (.ok (), r') ∧ J r'.tap := by
  rcases h.state with ⟨-, -, hfeed⟩ | ⟨hd', -⟩
  swap
  · rw [hd] at hd'; cases hd'
  -- The machine on the whole string ends from here, so its next call is readable and
  -- either ends or goes on.
  rcases hcall : f.callAt chunk inflateWindow bytes r.dec i o with ⟨status, n, made, dec⟩
  obtain ⟨hreadable, hend⟩ := hE.next hcall
  rcases hfeed.fill with ⟨src, input, srcDone, hfill, hfed⟩ | ⟨-, he, hfull⟩
  swap
  · rw [hreadable he] at hfull; cases hfull
  have hdec := (hfed.decompress h.window h.outPos).trans hcall
  obtain ⟨tap', htap, ht'⟩ := tapUsed_of_willing (r := { r with src, input, srcDone }) hJ ht n
  have hstep : r.step = (({ r with src, input, srcDone } : InflateReader f ρ τ).advance
      n made dec tap').check status := by
    unfold InflateReader.step
    rw [hfill]
    simp only [InflateReader.call, hdec, htap]
  -- The output is still within the declared size, so neither limit is exceeded.
  have hle : (o ++ made).length ≤ size := by
    rw [← hsize]
    rcases hend with ⟨-, -, rfl⟩ | ⟨-, hE'⟩
    · exact le_rfl
    · exact hE'.isPrefix.length_le
  have hprod : r.produced + made.length = (o ++ made).length := by
    rw [List.length_append, h.produced]
  have hl : r.produced + made.length ≤ r.limit := by
    rw [hprod, h.limit]
    exact hle.trans hcap
  have he : r.produced + made.length ≤ r.expected := by rwa [hprod, h.expected]
  rw [hstep]
  rcases hend with ⟨rfl, -, rfl⟩ | ⟨hg, -⟩
  · refine ⟨_, check_ok.2 ⟨hl, he, .done ?_⟩, ht'⟩
    exact hprod.trans (hsize.trans h.expected.symm)
  · rcases status with - | - | - | name
    · exact hg.elim
    · refine ⟨_, check_ok.2 ⟨hl, he, .needsMoreInput fun hsd hnil hmade => ?_⟩, ht'⟩
      refine hg ?_ ?_ (List.length_eq_zero_iff.1 hmade)
      · have hsd' : (!full chunk bytes i) = true := hfed.srcDone.symm.trans hsd
        rwa [Bool.not_eq_true'] at hsd'
      · have hin : input = offered chunk bytes i := hfed.input
        have hnil : input.drop n = [] := hnil
        rw [hin] at hnil
        exact Nat.le_antisymm (f.consumed_le hcall) (List.drop_eq_nil_iff.1 hnil)
    · exact ⟨_, check_ok.2 ⟨hl, he, .hasMoreOutput⟩, ht'⟩
    · exact hg.elim

/-- Such a reader has the rest of what the inflater makes to hand out. -/
theorem steady (bytes : Bytes) (e : Option IoError) (tap : τ) (iEnd : ℕ) {oEnd : Bytes}
    {J : τ → Prop} (hJ : Willing J) (hsize : oEnd.length = size) (hcap : size ≤ cap) :
    Steady fun (r : InflateReader f ρ τ) todo =>
      ∃ p i o, Following bytes e tap size cap r p i o ∧ J r.tap ∧ o ++ todo = oEnd ∧
        (r.done = true ∧ todo = [] ∨ r.done = false ∧
          f.Ends chunk inflateWindow bytes e.isSome iEnd oEnd r.dec i o) where
  pend := by
    rintro r todo ⟨p, i, o, h, -⟩
    rw [h.window, length_ring]
    exact h.pending
  done := by
    rintro r todo ⟨p, i, o, -, -, -, ⟨-, rfl⟩ | ⟨hd', -⟩⟩ hd
    · rfl
    · rw [hd] at hd'; cases hd'
  step := by
    rintro r todo ⟨p, i, o, h, ht, heq, ⟨hd', -⟩ | ⟨-, hE⟩⟩ hp hd
    · rw [hd] at hd'; cases hd'
    obtain ⟨r', hs, ht'⟩ := h.step_of_ends hJ ht hd hE hsize hcap
    obtain ⟨i', o', h', hE'⟩ := h.step hp hd hs
    have ho := h.handed
    rw [pendingBytes_of_pendingLen hp, List.append_nil] at ho
    -- A step hands out a prefix of what is left of the whole output.
    have hpre : o' <+: oEnd := by
      rcases hE' hE with ⟨-, rfl⟩ | ⟨-, hE'⟩
      · exact List.prefix_rfl
      · exact hE'.isPrefix
    obtain ⟨todo', rfl⟩ := hpre
    refine ⟨r', todo', hs, ?_, p, i', o', h', ht', rfl, (hE' hE).imp_left fun ⟨hd', hnil⟩ => ?_⟩
    · rw [← h'.handed, List.append_assoc, ho] at heq
      exact List.append_cancel_left heq
    · exact ⟨hd', List.append_right_eq_self.1 hnil.symm⟩
  handOut := by
    rintro r todo n ⟨p, i, o, h, ht, heq, hE⟩
    exact ⟨_, i, o, h.handOut n, ht, heq, hE⟩

/-- Some reads, and one more that says that it is the end. -/
def ReadsToEnd (r : InflateReader f ρ τ) (p : Bytes) (r' : InflateReader f ρ τ) : Prop :=
  ∃ r₁ n, Reads r p r₁ ∧ 0 < n ∧ read r₁ n = (.ok [], r')

/-- A reader that presents something is read to its end. -/
theorem readsToEnd_of_presents (h : Presents r p (none : Option IoError)) :
    ∃ r', ReadsToEnd r p r' := by
  obtain ⟨r₁, hr, h₁⟩ := h.readToEnd_ok (show 0 < 1 by decide)
  obtain ⟨r', hend, -⟩ := h₁.read_nil (show 0 < 1 by decide)
  exact ⟨r', r₁, 1, readToEnd_reads hr, by decide, hend⟩

variable {J : τ → Prop}

/-- Where the inflater makes what was announced, this is what the reader presents. -/
theorem presents_of_endsAt (hs : Presents src bytes e) (hJ : Willing J) (ht : J tap)
    (hE : f.EndsAt chunk inflateWindow bytes e.isSome i o) (hsize : o.length = size)
    (hcap : size ≤ cap) : Presents (withTap f src size cap tap) o none := by
  have h := (steady bytes e tap i hJ hsize hcap).presents
    ⟨[], 0, [], .init hs, ht, rfl, .inr ⟨rfl, hE⟩⟩
  rwa [pendingBytes_of_pendingLen rfl, List.nil_append] at h

/-- What was read to the end is what the inflater makes, and what was announced; the
    tap was given what the inflater has consumed. -/
theorem ReadsToEnd.endsAt (hs : Presents src bytes e)
    (hr : ReadsToEnd (withTap f src size cap tap) p r) :
    p.length = size ∧ size ≤ cap ∧ ∃ i,
      f.EndsAt chunk inflateWindow bytes e.isSome i p ∧ Writes tap (bytes.take i) r.tap := by
  obtain ⟨r₁, n, hr, hn, hend⟩ := hr
  obtain ⟨i₁, o₁, h₁⟩ := (Following.init hs).reads hr
  obtain ⟨⟨i, o, h⟩, hdone⟩ := h₁.next hend
  obtain ⟨hd, hp⟩ := hdone rfl hn
  have hpo := h.handed
  rw [List.append_nil, pendingBytes_of_pendingLen hp, List.append_nil, List.nil_append] at hpo
  rcases h.state with ⟨hd', -⟩ | ⟨-, hE, hsize⟩
  · rw [hd] at hd'; cases hd'
  · rw [hpo]
    exact ⟨hsize, hsize ▸ h.inLimit, i, hE, h.tapped⟩

omit [Read ρ IoError] [Write τ IoError] in
/-- The inflater comes to the end of a complete stream, whatever comes after it. -/
theorem endsAt_of_complete {F : Format} {code data : Bytes} (hF : f.Undoes F inflateWindow)
    (hcode : F.Complete code data) (rest : Bytes) :
    ∃ i, f.EndsAt chunk inflateWindow (code ++ rest) false i data := by
  let src : Pieces IoError := { rest := code ++ rest, cuts := fun _ => 0 }
  have hs : Presents src (code ++ rest) (none : Option IoError) := Pieces.presents src rfl
  have hp : Presents (withTap f src data.length data.length (⟨⟩ : Sink IoError)) data none :=
    presents hF hcode Sink.willing le_rfl trivial hs
  obtain ⟨r, hr⟩ := readsToEnd_of_presents hp
  obtain ⟨-, -, i, he, -⟩ := hr.endsAt hs
  exact ⟨i, he⟩

/-- However it is read, and however its source hands over its bytes, a reader hands out
    what the inflater makes of them, no more than was announced and than the limit.
    When it is read to its end, the tap was given what the inflater has consumed. And
    with a tap that takes what it is given, it can be read to its end, and is whenever
    it is read on, if and only if the inflater comes to the end of the stream, having
    made as much as was announced, within the limit. -/
theorem contract (hs : Presents src bytes e) :
    (∀ p r, Reads (withTap f src size cap tap) p r → p.length ≤ min size cap ∧
      ∃ i o, p <+: o ∧ (f.EndsAt chunk inflateWindow bytes e.isSome i o ∨
        ∃ st, f.Reaches chunk inflateWindow bytes e.isSome st i o)) ∧
    (∀ p r, ReadsToEnd (withTap f src size cap tap) p r →
      ∃ i, f.EndsAt chunk inflateWindow bytes e.isSome i p ∧ p.length = size ∧ size ≤ cap ∧
        Writes tap (bytes.take i) r.tap) ∧
    ∀ J, Willing J → J tap →
      ((∃ p r, ReadsToEnd (withTap f src size cap tap) p r) ↔
        ∃ i o, f.EndsAt chunk inflateWindow bytes e.isSome i o ∧ o.length = size ∧ size ≤ cap) ∧
      ∀ i o, f.EndsAt chunk inflateWindow bytes e.isSome i o → o.length = size → size ≤ cap →
        Presents (withTap f src size cap tap) o none := by
  refine ⟨fun p r hr => ?_, fun p r hr => ?_, fun J hJ ht => ⟨⟨?_, ?_⟩, ?_⟩⟩
  · -- A reader that mirrors the string has handed out a prefix of what the decoder made
    -- so far.
    obtain ⟨i, o, h⟩ := (Following.init hs).reads hr
    have hpre : p <+: o := ⟨_, h.handed⟩
    refine ⟨hpre.length_le.trans (Nat.le_min.2 ⟨h.inSize, h.inLimit⟩), i, o, hpre, ?_⟩
    rcases h.state with ⟨-, hreach, -⟩ | ⟨-, hE, -⟩
    · exact .inr ⟨_, hreach⟩
    · exact .inl hE
  · obtain ⟨hsize, hcap, i, hE, hw⟩ := hr.endsAt hs
    exact ⟨i, hE, hsize, hcap, hw⟩
  · rintro ⟨p, r, hr⟩
    obtain ⟨hsize, hcap, i, hE, -⟩ := hr.endsAt hs
    exact ⟨i, p, hE, hsize, hcap⟩
  · rintro ⟨i, o, hE, hsize, hcap⟩
    obtain ⟨r, hr⟩ := readsToEnd_of_presents (presents_of_endsAt hs hJ ht hE hsize hcap)
    exact ⟨o, r, hr⟩
  · exact fun i o hE hsize hcap => presents_of_endsAt hs hJ ht hE hsize hcap

/-- A block of three bytes, the last block, and a byte after them, a byte at a time. -/
def threeBlock : Pieces IoError :=
  ⟨storedBlock [1, 2, 3] ++ Stored.lastBlock ++ [0xFF], fun _ => 1, none, 0⟩

/-- The three bytes are presented, and the tap is given the blocks, but not the byte after
    them. -/
theorem contract_sample :
    Presents (withTap Stored.blockInflater threeBlock 3 5 (⟨[]⟩ : Buffer IoError)) [1, 2, 3] none ∧
      ∃ r, ReadsToEnd (withTap Stored.blockInflater threeBlock 3 5 (⟨[]⟩ : Buffer IoError)) [1, 2, 3] r ∧
        r.tap.bytes = storedBlock [1, 2, 3] ++ Stored.lastBlock := by
  have hcall : Stored.blockInflater.callAt chunk inflateWindow threeBlock.rest Stored.Phase.header 0 [] =
      ((.done, 10, [1, 2, 3], Stored.Phase.done) :
        InflateStatus × ℕ × Bytes × Stored.blockInflater.State) := by decide +kernel
  have hE : Stored.blockInflater.EndsAt chunk inflateWindow threeBlock.rest false 10 [1, 2, 3] :=
    .done (fun h => absurd h Bool.false_ne_true) hcall rfl rfl
  obtain ⟨-, hend, hpresents⟩ := @contract Stored.blockInflater _ (Buffer IoError) _ _ _ _ threeBlock
    ⟨[]⟩ 3 5 (Pieces.presents threeBlock rfl)
  have hp := (hpresents _ Buffer.willing trivial).2 10 [1, 2, 3] hE rfl (by decide)
  obtain ⟨r, hr⟩ := readsToEnd_of_presents hp
  obtain ⟨i, hE', -, -, hw⟩ := hend _ r hr
  obtain ⟨rfl, -⟩ := hE'.unique hE
  have htap : r.tap.bytes = [] ++ threeBlock.rest.take 10 := Buffer.writes hw
  exact ⟨hp, r, hr, htap⟩

end InflateReader

end OdfCrypto

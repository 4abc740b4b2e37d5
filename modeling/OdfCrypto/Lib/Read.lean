import Mathlib.Data.List.Infix
import OdfCrypto.Lib.Loop

/-!
# Readers

A reader hands over, at each `read`, at most as many bytes as it is asked for,
in pieces of its own choosing; it reports its end by handing over nothing. As
every reader reads something finite, it has a bound `left` on how many more of
its reads can make progress.

* `readFull`, `readToEnd`: reading until so many bytes are there, or to the end,
  trying again after an interrupted read;
* `Reads r bs r'`: some reads take `r` to `r'` and hand over `bs`;
* `Presents r bs e`: however it is read, `r` hands over exactly `bs`, and then
  reports its end (or the error `e`). What is read from such a reader does not
  depend on how it is read (`readFull_presents`, `readToEnd_presents`).
-/

namespace ByteStream

/-- A string of bytes. -/
abbrev Bytes := List UInt8

/-- The errors of byte streams. -/
class IsError (ε : Type*) where
  /-- The operation was interrupted, and is to be tried again. -/
  interrupted : ε → Bool
  /-- A writer that takes nothing of what it is given. -/
  writeZero : ε
  writeZero_not_interrupted : interrupted writeZero = false

export IsError (interrupted writeZero)

/-- A reader: its state and its one operation. -/
class Read (ρ : Type*) (ε : outParam Type*) [IsError ε] where
  /-- Read at most so many bytes. -/
  read : ρ → ℕ → Except ε Bytes × ρ
  /-- A bound on how many more reads can make progress. -/
  left : ρ → ℕ
  length_le : ∀ {r n bs r'}, read r n = (.ok bs, r') → bs.length ≤ n
  left_le : ∀ {r n bs r'}, read r n = (.ok bs, r') → left r' ≤ left r
  left_lt : ∀ {r n bs r'}, read r n = (.ok bs, r') → bs ≠ [] → left r' < left r
  left_retry : ∀ {r n e r'}, read r n = (.error e, r') → interrupted e → left r' < left r

export Read (read left)

section

variable {ρ ε : Type*} [IsError ε] [Read ρ ε]

/-! ### Reading in pieces -/

/-- One pass of `readFull`: `n` bytes wanted in all, `acc` read so far. -/
def readFullStep (n : ℕ) : Bytes × ρ → (Except ε Bytes × ρ) ⊕ (Bytes × ρ)
  | (acc, r) =>
    if acc.length < n then
      match read r (n - acc.length) with
      | (.ok [], r') => .inl (.ok acc, r')
      | (.ok bs, r') => .inr (acc ++ bs, r')
      | (.error e, r') => if interrupted e then .inr (acc, r') else .inl (.error e, r')
    else .inl (.ok acc, r)

/-- The loop of `readFull`. -/
def readFullLoop (n : ℕ) : Loop (Bytes × ρ) (Except ε Bytes × ρ) where
  body := readFullStep n
  rank s := left s.2
  rank_lt := by
    rintro ⟨acc, r⟩ s' h
    simp only [readFullStep] at h
    split at h
    · split at h
      · cases h
      · next hne hr => cases h; exact Read.left_lt hr fun h => hne (by simp [h])
      · next hr =>
        split at h
        · next hi => cases h; exact Read.left_retry hr hi
        · cases h
    · cases h

/-- Read `n` bytes, or fewer if the reader ends before. -/
def readFull (r : ρ) (n : ℕ) : Except ε Bytes × ρ :=
  (readFullLoop n).run ([], r)

/-- One pass of `readToEnd`, asking for `probe` bytes. -/
def readToEndStep (probe : ℕ) : Bytes × ρ → (Except ε Bytes × ρ) ⊕ (Bytes × ρ)
  | (acc, r) =>
    match read r probe with
    | (.ok [], r') => .inl (.ok acc, r')
    | (.ok bs, r') => .inr (acc ++ bs, r')
    | (.error e, r') => if interrupted e then .inr (acc, r') else .inl (.error e, r')

/-- The loop of `readToEnd`. -/
def readToEndLoop (probe : ℕ) : Loop (Bytes × ρ) (Except ε Bytes × ρ) where
  body := readToEndStep probe
  rank s := left s.2
  rank_lt := by
    rintro ⟨acc, r⟩ s' h
    simp only [readToEndStep] at h
    split at h
    · cases h
    · next hne hr => cases h; exact Read.left_lt hr fun h => hne (by simp [h])
    · next hr =>
      split at h
      · next hi => cases h; exact Read.left_retry hr hi
      · cases h

/-- Read all there is, `probe` bytes at a time. -/
def readToEnd (probe : ℕ) (r : ρ) : Except ε Bytes × ρ :=
  (readToEndLoop probe).run ([], r)

/-- Some reads, the interrupted ones included, take a reader from one state to
    another and hand over so many bytes in all. -/
inductive Reads : ρ → Bytes → ρ → Prop
  | refl (r : ρ) : Reads r [] r
  | ok {r r₁ r₂ : ρ} {n : ℕ} {bs cs : Bytes} (h : read r n = (.ok bs, r₁)) (t : Reads r₁ cs r₂) :
      Reads r (bs ++ cs) r₂
  | retry {r r₁ r₂ : ρ} {n : ℕ} {e : ε} {cs : Bytes} (h : read r n = (.error e, r₁))
      (hi : interrupted e) (t : Reads r₁ cs r₂) : Reads r cs r₂

theorem Reads.single {r r' : ρ} {n : ℕ} {bs : Bytes} (h : read r n = (.ok bs, r')) :
    Reads r bs r' := by
  simpa using Reads.ok h (Reads.refl r')

theorem Reads.trans {r r₁ r₂ : ρ} {bs cs : Bytes} (h : Reads r bs r₁) (t : Reads r₁ cs r₂) :
    Reads r (bs ++ cs) r₂ := by
  induction h with
  | refl r => exact t
  | ok h _ ih => rw [List.append_assoc]; exact .ok h (ih t)
  | retry h hi _ ih => exact .retry h hi (ih t)

/-- Reads leave no more to read than there was. -/
theorem Reads.left_le {r r' : ρ} {bs : Bytes} (h : Reads r bs r') : left r' ≤ left r := by
  induction h with
  | refl r => exact le_rfl
  | ok h _ ih => exact ih.trans (Read.left_le h)
  | retry h hi _ ih => exact ih.trans (Read.left_retry h hi).le

/-- Some reads, and one more that failed at most, take a reader from one state to
    another and hand over so many bytes in all. -/
def Drawn (r : ρ) (bs : Bytes) (r' : ρ) : Prop :=
  ∃ r₁, Reads r bs r₁ ∧ (r' = r₁ ∨ ∃ n e, read r₁ n = (.error e, r'))

theorem Reads.drawn {r r' : ρ} {bs : Bytes} (h : Reads r bs r') : Drawn r bs r' := ⟨r', h, .inl rfl⟩

/-- Reads that hand over something leave less to read. -/
theorem Reads.left_lt {r r' : ρ} {bs : Bytes} (h : Reads r bs r') (hne : bs ≠ []) :
    left r' < left r := by
  induction h with
  | refl r => exact absurd rfl hne
  | @ok r r₁ r₂ n bs cs h t ih =>
    by_cases hbs : bs = []
    · exact (ih (by simpa [hbs] using hne)).trans_le (Read.left_le h)
    · exact t.left_le.trans_lt (Read.left_lt h hbs)
  | retry h hi _ ih => exact (ih hne).trans (Read.left_retry h hi)

/-- `readFull` does not end with an interruption. -/
theorem readFull_not_interrupted {r r' : ρ} {n : ℕ} {e : ε}
    (h : readFull r n = (.error e, r')) : interrupted e = false := by
  refine Loop.run_induct (l := readFullLoop n) (s := ([], r)) (fun _ => True)
    (P := fun b => ∀ e r', b = (.error e, r') → interrupted e = false) trivial
    (fun _ _ => trivial) ?_ e r' h
  rintro ⟨acc, r₁⟩ b - hs
  simp only [readFullLoop, readFullStep] at hs
  split at hs
  · split at hs
    · cases hs; rintro e r' ⟨⟩
    · cases hs
    · split at hs
      · cases hs
      · next hi => cases hs; rintro e r' ⟨⟩; simpa using hi
  · cases hs; rintro e r' ⟨⟩

/-- What `readFull` hands over was read: `n` bytes, or all up to a read that
    handed over nothing. -/
theorem readFull_reads {r r' : ρ} {n : ℕ} {bs : Bytes} (h : readFull r n = (.ok bs, r')) :
    Reads r bs r' ∧ bs.length ≤ n := by
  -- The invariant: what was read so far fits.
  refine Loop.run_induct (l := readFullLoop n) (s := ([], r))
    (fun s => Reads r s.1 s.2 ∧ s.1.length ≤ n)
    (P := fun b => ∀ bs r', b = (.ok bs, r') → Reads r bs r' ∧ bs.length ≤ n)
    ⟨.refl r, Nat.zero_le n⟩ ?_ ?_ bs r' h
  · rintro ⟨acc, r₁⟩ s' ⟨ha, hl⟩ hs
    simp only [readFullLoop, readFullStep] at hs
    split at hs
    · split at hs
      · cases hs
      · next hr =>
        cases hs
        refine ⟨ha.trans (.single hr), ?_⟩
        have := Read.length_le hr
        simp only [List.length_append]
        omega
      · next hr =>
        split at hs
        · next hi => cases hs; exact ⟨by simpa using ha.trans (.retry hr hi (.refl _)), hl⟩
        · cases hs
    · cases hs
  · rintro ⟨acc, r₁⟩ b ⟨ha, hl⟩ hs
    simp only [readFullLoop, readFullStep] at hs
    split at hs
    · split at hs
      · next hr => cases hs; rintro bs r' ⟨⟩; exact ⟨by simpa using ha.trans (.single hr), hl⟩
      · cases hs
      · split at hs
        · cases hs
        · cases hs; rintro bs r' ⟨⟩
    · cases hs; rintro bs r' ⟨⟩; exact ⟨ha, hl⟩

/-- What `readToEnd` hands over was read. -/
theorem readToEnd_reads {probe : ℕ} {r r' : ρ} {bs : Bytes}
    (h : readToEnd probe r = (.ok bs, r')) : Reads r bs r' := by
  refine Loop.run_induct (l := readToEndLoop probe) (s := ([], r)) (fun s => Reads r s.1 s.2)
    (P := fun b => ∀ bs r', b = (.ok bs, r') → Reads r bs r') (.refl r) ?_ ?_ bs r' h
  · rintro ⟨acc, r₁⟩ s' ha hs
    simp only [readToEndLoop, readToEndStep] at hs
    split at hs
    · cases hs
    · next hr => cases hs; exact ha.trans (.single hr)
    · next hr =>
      split at hs
      · next hi => cases hs; simpa using ha.trans (.retry hr hi (.refl _))
      · cases hs
  · rintro ⟨acc, r₁⟩ b ha hs
    simp only [readToEndLoop, readToEndStep] at hs
    split at hs
    · next hr => cases hs; rintro bs r' ⟨⟩; simpa using ha.trans (.single hr)
    · cases hs
    · split at hs
      · cases hs
      · cases hs; rintro bs r' ⟨⟩

/-! ### Readers known by what they present -/

/-- What the next read of `n` bytes does in a reader that has `bs` left to hand
    over, and then ends with `e`. -/
def Hands (r : ρ) (n : ℕ) (e : Option ε) : Bytes → Prop
  | [] =>
    match e with
    | none => ∃ r', read r n = (.ok [], r')
    | some err => interrupted err = false ∧ ∃ r', read r n = (.error err, r')
  | b :: bs => ∃ piece r', read r n = (.ok piece, r') ∧ piece ≠ [] ∧ piece <+: b :: bs

/-- However it is read, the reader hands over exactly `bs`, and then reports its
    end, or the error `e`. -/
def Presents (r : ρ) (bs : Bytes) (e : Option ε) : Prop :=
  ∀ p r', Reads r p r' → ∃ rest, bs = p ++ rest ∧ ∀ n, 0 < n → Hands r' n e rest

/-- A reader presents what an invariant, kept by all its reads, says is left. -/
theorem Presents.of_invariant {e : Option ε} (I : ρ → Bytes → Prop)
    (hands : ∀ {r bs}, I r bs → ∀ n, 0 < n → Hands r n e bs)
    (ok : ∀ {r bs n piece r'}, I r bs → read r n = (.ok piece, r') →
      ∃ rest, bs = piece ++ rest ∧ I r' rest)
    (retry : ∀ {r bs n err r'}, I r bs → read r n = (.error err, r') → interrupted err → I r' bs)
    {r : ρ} {bs : Bytes} (h : I r bs) : Presents r bs e := by
  intro p r' hr
  suffices ∃ rest, bs = p ++ rest ∧ I r' rest by
    obtain ⟨rest, rfl, hI⟩ := this
    exact ⟨rest, rfl, hands hI⟩
  induction hr generalizing bs with
  | refl r => exact ⟨bs, rfl, h⟩
  | ok hr _ ih =>
    obtain ⟨rest, rfl, hI⟩ := ok h hr
    obtain ⟨rest', rfl, hI'⟩ := ih hI
    exact ⟨rest', by rw [List.append_assoc], hI'⟩
  | retry hr hi _ ih => exact ih (retry h hr hi)

namespace Presents

variable {r r' : ρ} {bs p : Bytes} {e : Option ε} {n : ℕ}

theorem hands (h : Presents r bs e) (hn : 0 < n) : Hands r n e bs := by
  obtain ⟨rest, rfl, hr⟩ := h [] r (.refl r)
  exact hr n hn

/-- After some reads, a reader presents the rest. -/
theorem reads (h : Presents r bs e) (hr : Reads r p r') :
    ∃ rest, bs = p ++ rest ∧ Presents r' rest e := by
  obtain ⟨rest, rfl, -⟩ := h p r' hr
  refine ⟨rest, rfl, fun q r'' hq => ?_⟩
  obtain ⟨rest', he, hh⟩ := h (p ++ q) r'' (hr.trans hq)
  exact ⟨rest', by simpa [List.append_assoc] using he, hh⟩

/-- What is read up to the end is all that is presented. -/
theorem eq_of_end (h : Presents r bs none) (hr : Reads r p r') {r'' : ρ}
    (hend : read r' n = (.ok [], r'')) (hn : 0 < n) : bs = p := by
  obtain ⟨rest, rfl, hh⟩ := h p r' hr
  rcases rest with - | ⟨b, rest⟩
  · exact List.append_nil p
  · obtain ⟨piece, _, hread, hne, -⟩ := hh n hn
    cases hread.symm.trans hend
    exact absurd rfl hne

/-- A reader that comes to its end has handed over all that it presents, and no error
    comes after. -/
theorem all_of_end (h : Presents r bs e) (hr : Reads r p r') {r'' : ρ}
    (hend : read r' n = (.ok [], r'')) (hn : 0 < n) : bs = p ∧ e = none := by
  rcases e with - | err
  · exact ⟨h.eq_of_end hr hend hn, rfl⟩
  · obtain ⟨rest, rfl, hh⟩ := h p r' hr
    have hands := hh n hn
    rcases rest with - | ⟨b, rest⟩
    · obtain ⟨-, _, herr⟩ := hands
      cases herr.symm.trans hend
    · obtain ⟨piece, _, hread, hne, -⟩ := hands
      cases hread.symm.trans hend
      exact absurd rfl hne

/-- The reads of a reader with something left to present. -/
theorem read_cons (h : Presents r bs e) (hn : 0 < n) (hbs : bs ≠ []) :
    ∃ piece rest r', read r n = (.ok piece, r') ∧ piece ≠ [] ∧ bs = piece ++ rest ∧
      Presents r' rest e := by
  cases bs with
  | nil => exact absurd rfl hbs
  | cons b bs =>
    obtain ⟨piece, r', hr, hne, rest, hp⟩ := h.hands hn
    obtain ⟨rest', he, hP⟩ := h.reads (.single hr)
    obtain rfl : rest = rest' := List.append_cancel_left (hp.trans he)
    exact ⟨piece, rest, r', hr, hne, hp.symm, hP⟩

/-- The read of a reader that has presented everything. -/
theorem read_nil (h : Presents r [] (none : Option ε)) (hn : 0 < n) :
    ∃ r', read r n = (.ok [], r') ∧ Presents r' [] none := by
  obtain ⟨r', hr⟩ := h.hands hn
  obtain ⟨rest, he, hP⟩ := h.reads (.single hr)
  obtain rfl : rest = [] := by simpa using he
  exact ⟨r', hr, hP⟩

/-- The read of a reader that presents an error. -/
theorem read_error {err : ε} (h : Presents r [] (some err)) (hn : 0 < n) :
    interrupted err = false ∧ ∃ r', read r n = (.error err, r') := h.hands hn

/-- `readFull` on a reader that presents enough. -/
theorem readFull_le (h : Presents r bs e) (hn : n ≤ bs.length) :
    ∃ r', readFull r n = (.ok (bs.take n), r') ∧ Presents r' (bs.drop n) e := by
  suffices ∀ (acc : Bytes), acc.length ≤ n → n ≤ (acc ++ bs).length →
      ∃ r', (readFullLoop n).run (acc, r) = (.ok ((acc ++ bs).take n), r') ∧
        Presents r' ((acc ++ bs).drop n) e by
    simpa [readFull] using this [] (Nat.zero_le n) (by simpa using hn)
  clear hn
  induction hl : bs.length using Nat.strong_induction_on generalizing r bs with
  | _ l ih =>
    intro acc ha hn
    by_cases hacc : acc.length < n
    · obtain ⟨piece, rest, r', hr, hne, rfl, hP⟩ := h.read_cons (n := n - acc.length)
        (by omega) (by rintro rfl; simp at hn; omega)
      have hp := Read.length_le hr
      have hb : (readFullLoop n).body (acc, r) = .inr (acc ++ piece, r') := by
        simp only [readFullLoop, readFullStep, if_pos hacc, hr]
      have hpos : 0 < piece.length := List.length_pos_iff.2 hne
      rw [Loop.run_inr hb]
      obtain ⟨r'', he, hP'⟩ := ih rest.length (by simp at hl; omega) hP rfl (acc ++ piece)
        (by simp; omega) (by simpa using hn)
      exact ⟨r'', by simpa using he, by simpa using hP'⟩
    · obtain rfl : n = acc.length := by omega
      have hb : (readFullLoop acc.length).body (acc, r) = .inl (.ok acc, r) := by
        simp [readFullLoop, readFullStep]
      exact ⟨r, by rw [Loop.run_inl hb, List.take_left], by simpa using h⟩

/-- `readFull` on a reader that presents less than is wanted. -/
theorem readFull_gt (h : Presents r bs (none : Option ε)) (hn : bs.length < n) :
    ∃ r', readFull r n = (.ok bs, r') ∧ Presents r' [] none := by
  suffices ∀ (acc : Bytes), (acc ++ bs).length < n →
      ∃ r', (readFullLoop n).run (acc, r) = (.ok (acc ++ bs), r') ∧ Presents r' [] none from
    this [] (by simpa using hn)
  -- Each read takes a piece off what is left, so the induction is on its length.
  clear hn
  induction hl : bs.length using Nat.strong_induction_on generalizing r bs with
  | _ l ih =>
    intro acc hn
    have hacc : acc.length < n := by simp at hn; omega
    cases bs with
    | nil =>
      obtain ⟨r', hr, hP⟩ := h.read_nil (n := n - acc.length) (by omega)
      have hb : (readFullLoop n).body (acc, r) = .inl (.ok acc, r') := by
        simp only [readFullLoop, readFullStep, if_pos hacc, hr]
      exact ⟨r', by rw [Loop.run_inl hb, List.append_nil], hP⟩
    | cons b bs =>
      obtain ⟨piece, rest, r', hr, hne, he, hP⟩ := h.read_cons (n := n - acc.length)
        (by omega) (List.cons_ne_nil b bs)
      rw [he] at hl hn ⊢
      have hb : (readFullLoop n).body (acc, r) = .inr (acc ++ piece, r') := by
        simp only [readFullLoop, readFullStep, if_pos hacc, hr]
      have hpos : 0 < piece.length := List.length_pos_iff.2 hne
      rw [Loop.run_inr hb]
      obtain ⟨r'', he', hP'⟩ := ih rest.length (by simp at hl; omega) hP rfl (acc ++ piece)
        (by simpa using hn)
      exact ⟨r'', by simpa using he', hP'⟩

/-- `readFull` on a reader that presents less than is wanted, and then an error. -/
theorem readFull_error {err : ε} (h : Presents r bs (some err)) (hn : bs.length < n) :
    ∃ r', readFull r n = (.error err, r') := by
  suffices ∀ (acc : Bytes), (acc ++ bs).length < n →
      ∃ r', (readFullLoop n).run (acc, r) = (.error err, r') from this [] hn
  clear hn
  induction hl : bs.length using Nat.strong_induction_on generalizing r bs with
  | _ l ih =>
    intro acc hn
    have hacc : acc.length < n := by rw [List.length_append] at hn; omega
    rcases bs with - | ⟨b, bs⟩
    · obtain ⟨hi, r', hr⟩ := h.read_error (n := n - acc.length) (by omega)
      have hb : (readFullLoop n).body (acc, r) = .inl (.error err, r') := by
        simp only [readFullLoop, readFullStep, if_pos hacc, hr, hi]
        rfl
      exact ⟨r', Loop.run_inl hb⟩
    · obtain ⟨piece, rest, r', hr, hne, he, hP⟩ := h.read_cons (n := n - acc.length)
        (by omega) (List.cons_ne_nil b bs)
      rw [he] at hl hn
      have hb : (readFullLoop n).body (acc, r) = .inr (acc ++ piece, r') := by
        simp only [readFullLoop, readFullStep, if_pos hacc, hr]
      have hpos : 0 < piece.length := List.length_pos_iff.2 hne
      rw [Loop.run_inr hb]
      exact ih rest.length (by rw [List.length_append] at hl; omega) hP rfl (acc ++ piece)
        (by rwa [List.append_assoc])

/-- `readFull` on a reader that presents its bytes without an error. -/
theorem readFull_take (h : Presents r bs (none : Option ε)) (n : ℕ) :
    ∃ r', readFull r n = (.ok (bs.take n), r') ∧ Presents r' (bs.drop n) none := by
  by_cases hn : n ≤ bs.length
  · exact h.readFull_le hn
  · rw [List.take_of_length_le (by omega), List.drop_eq_nil_of_le (by omega)]
    exact h.readFull_gt (by omega)

/-- `readToEnd` on a reader that presents its bytes without an error. -/
theorem readToEnd_ok {probe : ℕ} (h : Presents r bs (none : Option ε)) (hp : 0 < probe) :
    ∃ r', readToEnd probe r = (.ok bs, r') ∧ Presents r' [] none := by
  suffices ∀ (acc : Bytes), ∃ r', (readToEndLoop probe).run (acc, r) = (.ok (acc ++ bs), r') ∧
      Presents r' [] none from this []
  induction hl : bs.length using Nat.strong_induction_on generalizing r bs with
  | _ l ih =>
    intro acc
    cases bs with
    | nil =>
      obtain ⟨r', hr, hP⟩ := h.read_nil hp
      have hb : (readToEndLoop probe).body (acc, r) = .inl (.ok acc, r') := by
        simp only [readToEndLoop, readToEndStep, hr]
      exact ⟨r', by rw [Loop.run_inl hb, List.append_nil], hP⟩
    | cons b bs =>
      obtain ⟨piece, rest, r', hr, hne, he, hP⟩ := h.read_cons hp (List.cons_ne_nil b bs)
      rw [he] at hl ⊢
      have hb : (readToEndLoop probe).body (acc, r) = .inr (acc ++ piece, r') := by
        simp only [readToEndLoop, readToEndStep, hr]
      have hpos : 0 < piece.length := List.length_pos_iff.2 hne
      rw [Loop.run_inr hb]
      obtain ⟨r'', he', hP'⟩ := ih rest.length (by simp at hl; omega) hP rfl (acc ++ piece)
      exact ⟨r'', by simpa using he', hP'⟩

/-- `readToEnd` on a reader that presents an error. -/
theorem readToEnd_error {probe : ℕ} {err : ε} (h : Presents r bs (some err)) (hp : 0 < probe) :
    (readToEnd probe r).1 = .error err := by
  suffices ∀ (acc : Bytes), ((readToEndLoop probe).run (acc, r)).1 = .error err from this []
  induction hl : bs.length using Nat.strong_induction_on generalizing r bs with
  | _ l ih =>
    intro acc
    cases bs with
    | nil =>
      obtain ⟨hi, r', hr⟩ := h.read_error hp
      have hb : (readToEndLoop probe).body (acc, r) = .inl (.error err, r') := by
        simp only [readToEndLoop, readToEndStep, hr, hi]
        rfl
      rw [Loop.run_inl hb]
    | cons b bs =>
      obtain ⟨piece, rest, r', hr, hne, he, hP⟩ := h.read_cons hp (List.cons_ne_nil b bs)
      rw [he] at hl
      have hb : (readToEndLoop probe).body (acc, r) = .inr (acc ++ piece, r') := by
        simp only [readToEndLoop, readToEndStep, hr]
      have hpos : 0 < piece.length := List.length_pos_iff.2 hne
      rw [Loop.run_inr hb]
      exact ih rest.length (by simp at hl; omega) hP rfl (acc ++ piece)

end Presents

end
end ByteStream

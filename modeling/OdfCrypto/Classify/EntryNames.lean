import OdfCrypto.Classify

/-!
# Valid names of members

The classifier refuses a member whose name leads out of the package. The check counts
the dots of each part of a name, in a number of 32 bits.

* `isValidFrom_iff`: what the check accepts from some position on;
* `isValidZipEntryFileName_accepts`: the same in 32 bits, for names of any length;
* `isValidZipEntryFileName32_checked`: no name of fewer than 2³¹ characters makes the
  counter overflow.
-/

namespace OdfCrypto

open Text

/-- A character that no name has. -/
def isForbidden (c : Char) : Bool :=
  c ∈ ['\\', '?', '<', '>', '"', '|', ':'] ∨ c.toNat < 32

/-- A part of a name that does not lead down. -/
def isDotPart (part : Str) : Bool := part = ['.'] ∨ part = ['.', '.']

/-- A name that leads down from the root of the package, part by part. -/
structure LeadsDown (name : Str) : Prop where
  unrooted : name.head? ≠ some '/'
  parts : ∀ part ∈ name.splitOn '/', ¬ isDotPart part
  chars : ∀ c ∈ name, ¬ isForbidden c

/-! ### The counter -/

/-- The counter tells the parts that do not lead down from all others, so far. -/
structure Counts (dots : ℤ) (part : Str) : Prop where
  zero : dots = 0 ↔ part = []
  one : dots = 1 ↔ part = ['.']
  two : dots = 2 ↔ part = ['.', '.']

theorem Counts.nil : Counts 0 [] := ⟨by simp, by simp, by simp⟩

theorem Counts.not_isDotPart {dots : ℤ} {part : Str} (h : Counts dots part) :
    ¬ isDotPart part ↔ dots ≠ 1 ∧ dots ≠ 2 := by
  rw [isDotPart, decide_eq_true_iff, not_or, ← h.one, ← h.two]

/-- One dot more. -/
theorem Counts.dot {dots : ℤ} {part : Str} (h : Counts dots part) :
    Counts (if dots ≠ -1 then dots + 1 else dots) (part ++ ['.']) := by
  have hone : (if dots ≠ -1 then dots + 1 else dots) = 1 ↔ dots = 0 := by split <;> omega
  have htwo : (if dots ≠ -1 then dots + 1 else dots) = 2 ↔ dots = 1 := by split <;> omega
  refine ⟨?_, ?_, ?_⟩
  · refine iff_of_false (fun h0 => ?_) (by simp)
    split at h0 <;> omega
  · rw [hone, h.zero]
    simp
  · rw [htwo, h.one]
    exact (List.append_left_inj ['.']).symm

/-- A part with another character in it. -/
theorem Counts.other {c : Char} (hc : c ≠ '.') (part : Str) : Counts (-1) (part ++ [c]) := by
  have hlast : ∀ dotted : Str, dotted.getLast? = some '.' → part ++ [c] ≠ dotted := by
    rintro dotted hd rfl
    rw [List.getLast?_concat] at hd
    exact hc (Option.some.inj hd)
  exact ⟨iff_of_false (by decide) (by simp), iff_of_false (by decide) (hlast _ rfl),
    iff_of_false (by decide) (hlast _ rfl)⟩

/-! ### What is accepted -/

/-- From some position on, after the start of a part. -/
theorem isValidFrom_iff {i : ℕ} {dots : ℤ} {part s : Str} (h : Counts dots part)
    (hpart : '/' ∉ part) :
    isValidFrom i dots s = true ↔ (i = 0 → s.head? ≠ some '/') ∧
      (∀ p ∈ (part ++ s).splitOn '/', ¬ isDotPart p) ∧ ∀ c ∈ s, ¬ isForbidden c := by
  induction s generalizing i dots part with
  | nil =>
    rw [isValidFrom, List.append_nil, List.splitOn_eq_singleton hpart, decide_eq_true_iff,
      ← h.not_isDotPart]
    simp
  | cons c s ih =>
    -- the character goes to the part under way, but for a slash
    have hcons : ∀ {dots'}, c ≠ '/' → isForbidden c = false → Counts dots' (part ++ [c]) →
        (isValidFrom (i + 1) dots' s = true ↔ (i = 0 → (c :: s).head? ≠ some '/') ∧
          (∀ p ∈ (part ++ c :: s).splitOn '/', ¬ isDotPart p) ∧ ∀ c' ∈ c :: s, ¬ isForbidden c') := by
      intro dots' hslash hforbidden hcounts
      have hnot : '/' ∉ part ++ [c] := by simp [hpart, Ne.symm hslash]
      rw [ih hcounts hnot, List.append_assoc, List.singleton_append, List.forall_mem_cons]
      simp [hslash, hforbidden]
    rw [isValidFrom]
    by_cases hdot : c = '.'
    · rw [if_pos hdot]
      subst hdot
      exact hcons (by decide) (by decide) h.dot
    rw [if_neg hdot]
    by_cases hmem : c ∈ ['\\', '?', '<', '>', '"', '|', ':']
    · rw [if_pos hmem]
      refine iff_of_false (by simp) fun hall => hall.2.2 c List.mem_cons_self ?_
      exact decide_eq_true (.inl hmem)
    rw [if_neg hmem]
    by_cases hslash : c = '/'
    · -- the part ends here
      rw [if_pos hslash]
      subst hslash
      rw [List.splitOn_append_cons_self_of_not_mem hpart, List.forall_mem_cons, h.not_isDotPart,
        List.forall_mem_cons]
      by_cases hrefused : dots = 1 ∨ dots = 2 ∨ i = 0
      · rw [if_pos hrefused]
        refine iff_of_false (by simp) ?_
        rintro ⟨h0, ⟨⟨h1, h2⟩, -⟩, -⟩
        rcases hrefused with hr | hr | hr
        · exact h1 hr
        · exact h2 hr
        · exact h0 hr rfl
      · rw [if_neg hrefused, ih .nil (by simp), List.nil_append]
        have hslash : isForbidden '/' = false := by decide
        simp_all
    rw [if_neg hslash]
    by_cases hlow : c.toNat < 32
    · rw [if_pos hlow]
      refine iff_of_false (by simp) fun hall => hall.2.2 c List.mem_cons_self ?_
      exact decide_eq_true (.inr hlow)
    rw [if_neg hlow]
    exact hcons hslash (decide_eq_false (not_or.2 ⟨hmem, hlow⟩)) (.other hdot part)

/-- A name is valid just when it leads down. -/
theorem isValid_iff_leadsDown (name : Str) :
    isValidZipEntryFileName name = true ↔ LeadsDown name := by
  rw [isValidZipEntryFileName, isValidFrom_iff .nil (by simp)]
  constructor
  · rintro ⟨hroot, hparts, hchars⟩
    exact ⟨hroot rfl, hparts, hchars⟩
  · rintro ⟨hroot, hparts, hchars⟩
    exact ⟨fun _ => hroot, hparts, hchars⟩

/-! ### In 32 bits -/

/-- What becomes of a sum that does not fit its type. -/
inductive Overflow
  | wraps
  | checked
  deriving DecidableEq

/-- One dot more at the start of a part, if the sum is a number. -/
def Overflow.count32 (o : Overflow) (dots : Int32) : Option Int32 :=
  if dots = -1 then some dots
  else if o = .checked ∧ dots = Int32.maxValue then none
  else some (dots + 1)

/-- `isValidFrom`, with the counter of the source. -/
def isValidFrom32 (o : Overflow) : (i : ℕ) → (dots : Int32) → Str → Option Bool
  | _, dots, [] => some (dots ≠ 1 ∧ dots ≠ 2)
  | i, dots, c :: s =>
    if c = '.' then (o.count32 dots).bind fun dots => isValidFrom32 o (i + 1) dots s
    else if c ∈ ['\\', '?', '<', '>', '"', '|', ':'] then some false
    else if c = '/' then
      if dots = 1 ∨ dots = 2 ∨ i = 0 then some false else isValidFrom32 o (i + 1) 0 s
    else if c.toNat < 32 then some false
    else isValidFrom32 o (i + 1) (-1) s

def isValidZipEntryFileName32 (o : Overflow) (name : Str) : Option Bool := isValidFrom32 o 0 0 name

/-- A counter of 32 bits is as good as one of any size. -/
structure Counter32 (dots : Int32) (count : ℤ) : Prop where
  le : -1 ≤ count
  zero : dots = 0 ↔ count = 0
  one : dots = 1 ↔ count = 1
  two : dots = 2 ↔ count = 2

theorem Counter32.start : Counter32 0 0 := ⟨by decide, by decide, by decide, by decide⟩

theorem Counter32.other : Counter32 (-1) (-1) := ⟨by decide, by decide, by decide, by decide⟩

/-- One dot more, where the sum is a number. -/
theorem Counter32.dot {o : Overflow} {dots dots' : Int32} {count : ℤ} (h : Counter32 dots count)
    (hnext : o.count32 dots = some dots') :
    Counter32 dots' (if count ≠ -1 then count + 1 else count) := by
  have hle := h.le
  unfold Overflow.count32 at hnext
  split at hnext
  · next heq =>
    cases hnext
    -- this counter stays where it is, and the other one is past two, or stays as well
    have hzero : count ≠ 0 := h.zero.not.1 (by rw [heq]; decide)
    have hone : count ≠ 1 := h.one.not.1 (by rw [heq]; decide)
    have htwo : count ≠ 2 := h.two.not.1 (by rw [heq]; decide)
    refine ⟨by split <;> omega, ?_, ?_, ?_⟩
    · exact iff_of_false (by rw [heq]; decide) (by split <;> omega)
    · exact iff_of_false (by rw [heq]; decide) (by split <;> omega)
    · exact iff_of_false (by rw [heq]; decide) (by split <;> omega)
  · next hne =>
    split at hnext
    · cases hnext
    · cases hnext
      have hzero : dots + 1 ≠ 0 := fun h0 => hne ((Int32.add_left_inj 1).1 h0)
      have hone : dots + 1 = 1 ↔ dots = 0 := Int32.add_left_inj (a := dots) (b := 0) 1
      have htwo : dots + 1 = 2 ↔ dots = 1 := Int32.add_left_inj (a := dots) (b := 1) 1
      refine ⟨by split <;> omega, ?_, ?_, ?_⟩
      · exact iff_of_false hzero (by split <;> omega)
      · rw [hone, h.zero]
        split <;> omega
      · rw [htwo, h.one]
        split <;> omega

/-- The answer is the same, where there is one. -/
theorem isValidFrom32_eq {o : Overflow} {i : ℕ} {dots : Int32} {count : ℤ} {s : Str} {b : Bool}
    (h : Counter32 dots count) (hb : isValidFrom32 o i dots s = some b) :
    b = isValidFrom i count s := by
  -- The two scans take the same branch at each character, as the counters agree on
  -- every comparison made.
  induction s generalizing i dots count with
  | nil =>
    cases hb
    exact decide_eq_decide.2 (and_congr h.one.not h.two.not)
  | cons c s ih =>
    rw [isValidFrom32] at hb
    rw [isValidFrom]
    split at hb
    · next hdot =>
      rw [if_pos hdot]
      obtain ⟨dots', hnext, hb⟩ := Option.bind_eq_some_iff.1 hb
      exact ih (h.dot hnext) hb
    · next hdot =>
      rw [if_neg hdot]
      split at hb
      · next hmem =>
        rw [if_pos hmem]
        exact (Option.some.inj hb).symm
      · next hmem =>
        rw [if_neg hmem]
        split at hb
        · next hslash =>
          rw [if_pos hslash]
          have hiff := or_congr h.one (or_congr_left (c := i = 0) h.two)
          split at hb
          · next hrefused =>
            rw [if_pos (hiff.1 hrefused)]
            exact (Option.some.inj hb).symm
          · next hrefused =>
            rw [if_neg (hiff.not.1 hrefused)]
            exact ih .start hb
        · next hslash =>
          rw [if_neg hslash]
          split at hb
          · next hlow =>
            rw [if_pos hlow]
            exact (Option.some.inj hb).symm
          · next hlow =>
            rw [if_neg hlow]
            exact ih .other hb

/-- How far the counter can be: no further than the position, if a sum must fit. -/
def Overflow.Bounded (o : Overflow) (dots : Int32) (i len : ℕ) : Prop :=
  o = .checked → dots.toInt ≤ i ∧ i + len < 2 ^ 31

/-- Then there is a number after one dot more. -/
theorem Overflow.count32_isSome {o : Overflow} {dots : Int32} {i len : ℕ}
    (h : o.Bounded dots i (len + 1)) :
    ∃ dots', o.count32 dots = some dots' ∧ o.Bounded dots' (i + 1) len := by
  unfold Overflow.count32
  split
  · exact ⟨dots, rfl, fun ho => by have := h ho; omega⟩
  · split
    · next hmax =>
      have hle := (h hmax.1).1
      have hlt := (h hmax.1).2
      rw [hmax.2, show Int32.maxValue.toInt = 2 ^ 31 - 1 by decide] at hle
      omega
    · refine ⟨dots + 1, rfl, fun ho => ?_⟩
      have hbound := h ho
      have hge := dots.le_toInt
      rw [Int32.toInt_add, show (1 : Int32).toInt = 1 by decide, Int.bmod_eq_of_le (by omega) (by omega)]
      omega

/-- There is an answer, if no sum needs to fit, or the name is short. -/
theorem isValidFrom32_isSome {o : Overflow} {i : ℕ} {dots : Int32} {s : Str}
    (h : o.Bounded dots i s.length) : ∃ b, isValidFrom32 o i dots s = some b := by
  induction s generalizing i dots with
  | nil => exact ⟨_, rfl⟩
  | cons c s ih =>
    have hreset : ∀ n : Int32, n.toInt ≤ 0 → o.Bounded n (i + 1) s.length := by
      intro n hn ho
      have hbound := (h ho).2
      rw [List.length_cons] at hbound
      omega
    rw [isValidFrom32]
    split
    · obtain ⟨dots', hnext, hbound⟩ := Overflow.count32_isSome h
      obtain ⟨b, hb⟩ := ih hbound
      exact ⟨b, Option.bind_eq_some_iff.2 ⟨dots', hnext, hb⟩⟩
    · split
      · exact ⟨false, rfl⟩
      · split
        · split
          · exact ⟨false, rfl⟩
          · exact ih (hreset 0 (by decide))
        · split
          · exact ⟨false, rfl⟩
          · exact ih (hreset (-1) (by decide))

/-- The check accepts the names that lead down, whatever their length: in 32 bits that
    wrap, and in 32 bits that must not overflow wherever they do not. -/
theorem isValidZipEntryFileName_accepts (name : Str) :
    isValidZipEntryFileName32 .wraps name = some (isValidZipEntryFileName name) ∧
      (∀ b ∈ isValidZipEntryFileName32 .checked name, b = isValidZipEntryFileName name) ∧
      (isValidZipEntryFileName name = true ↔ LeadsDown name) := by
  obtain ⟨b, hb⟩ : ∃ b, isValidZipEntryFileName32 .wraps name = some b :=
    isValidFrom32_isSome fun ho => by cases ho
  refine ⟨?_, fun b hb => isValidFrom32_eq .start hb, isValid_iff_leadsDown name⟩
  rw [hb, isValidFrom32_eq .start hb, isValidZipEntryFileName]

/-- No shorter name makes the counter overflow. -/
theorem isValidZipEntryFileName32_checked {name : Str} (h : name.length < 2 ^ 31) :
    isValidZipEntryFileName32 .checked name = some (isValidZipEntryFileName name) := by
  obtain ⟨b, hb⟩ : ∃ b, isValidZipEntryFileName32 .checked name = some b :=
    isValidFrom32_isSome fun _ => ⟨by decide, by omega⟩
  rw [hb, isValidFrom32_eq .start hb, isValidZipEntryFileName]

end OdfCrypto

import OdfCrypto.Lib.Read

/-!
# Writers

A writer takes, at each `write`, some of the bytes it is given, from the front,
and says how many. It has a bound on how many more times it can be interrupted,
so that writing everything comes to an end.

* `writeAll`: writing until everything is taken, trying again after an
  interrupted write;
* `Writes w bs w'`: some writes take `w` to `w'` and have it take `bs`;
* `Willing`: a writer that takes all it is given, in pieces of its own choosing;
* `Takes`: a writer that takes some bytes, in whatever pieces they come.
-/

namespace ByteStream

/-- A writer: its state and its one operation. -/
class Write (ω : Type*) (ε : outParam Type*) [IsError ε] where
  /-- Write some of the bytes, from the front: how many were taken. -/
  write : ω → Bytes → Except ε ℕ × ω
  /-- A bound on how many more writes can be interrupted. -/
  patience : ω → ℕ
  le_length : ∀ {w bs n w'}, write w bs = (.ok n, w') → n ≤ bs.length
  patience_le : ∀ {w bs n w'}, write w bs = (.ok n, w') → patience w' ≤ patience w
  patience_lt : ∀ {w bs e w'}, write w bs = (.error e, w') → interrupted e →
    patience w' < patience w

export Write (write patience)

/-- A writer that can be flushed. -/
class Flush (ω : Type*) (ε : outParam Type*) where
  flush : ω → Except ε Unit × ω

export Flush (flush)

section

variable {ω ε : Type*} [IsError ε] [Write ω ε]

/-- One pass of `writeAll`: what is left to write. -/
def writeAllStep : Bytes × ω → (Except ε Unit × ω) ⊕ (Bytes × ω)
  | (bs, w) =>
    if bs.isEmpty then .inl (.ok (), w)
    else
      match write w bs with
      | (.ok 0, w') => .inl (.error writeZero, w')
      | (.ok n, w') => .inr (bs.drop n, w')
      | (.error e, w') => if interrupted e then .inr (bs, w') else .inl (.error e, w')

/-- The loop of `writeAll`. -/
def writeAllLoop : Loop (Bytes × ω) (Except ε Unit × ω) where
  body := writeAllStep
  rank s := s.1.length + patience s.2
  rank_lt := by
    rintro ⟨bs, w⟩ s' h
    simp only [writeAllStep] at h
    split at h
    · cases h
    · split at h
      · cases h
      · next n w' hn hw =>
        cases h
        have hle := Write.le_length hw
        have hp := Write.patience_le hw
        have hpos : 0 < n := Nat.pos_of_ne_zero fun h0 => hn (by rw [h0])
        simp only [List.length_drop]
        omega
      · next hw =>
        split at h
        · next hi =>
          cases h
          exact Nat.add_lt_add_left (Write.patience_lt hw hi) _
        · cases h

/-- Write all of the bytes. -/
def writeAll (w : ω) (bs : Bytes) : Except ε Unit × ω := writeAllLoop.run (bs, w)

/-- Some writes, the interrupted ones included, take a writer from one state to
    another and have it take so many bytes in all. -/
inductive Writes : ω → Bytes → ω → Prop
  | refl (w : ω) : Writes w [] w
  | ok {w w₁ w₂ : ω} {n : ℕ} {bs cs : Bytes} (h : write w bs = (.ok n, w₁))
      (t : Writes w₁ cs w₂) : Writes w (bs.take n ++ cs) w₂
  | retry {w w₁ w₂ : ω} {e : ε} {bs cs : Bytes} (h : write w bs = (.error e, w₁))
      (hi : interrupted e) (t : Writes w₁ cs w₂) : Writes w cs w₂

theorem Writes.single {w w' : ω} {n : ℕ} {bs : Bytes} (h : write w bs = (.ok n, w')) :
    Writes w (bs.take n) w' := by
  simpa using Writes.ok h (Writes.refl w')

theorem Writes.trans {w w₁ w₂ : ω} {bs cs : Bytes} (h : Writes w bs w₁) (t : Writes w₁ cs w₂) :
    Writes w (bs ++ cs) w₂ := by
  induction h with
  | refl w => exact t
  | ok h _ ih => rw [List.append_assoc]; exact .ok h (ih t)
  | retry h hi _ ih => exact .retry h hi (ih t)

/-- What `writeAll` wrote was taken. -/
theorem writeAll_writes {w w' : ω} {bs : Bytes} (h : writeAll w bs = (.ok (), w')) :
    Writes w bs w' := by
  -- The invariant: what was written and what is left make up the bytes.
  refine Loop.run_induct (l := writeAllLoop) (s := (bs, w))
    (fun s => ∃ done, bs = done ++ s.1 ∧ Writes w done s.2)
    (P := fun b => ∀ w', b = (.ok (), w') → Writes w bs w') ⟨[], rfl, .refl w⟩ ?_ ?_ w' h
  · rintro ⟨rest, w₁⟩ s' ⟨done, rfl, hd⟩ hs
    simp only [writeAllLoop, writeAllStep] at hs
    split at hs
    · cases hs
    · split at hs
      · cases hs
      · next n w₂ _ hw =>
        cases hs
        exact ⟨done ++ rest.take n, by simp, hd.trans (.single hw)⟩
      · next hw =>
        split at hs
        · next hi =>
          cases hs
          exact ⟨done, rfl, by simpa using hd.trans (.retry hw hi (.refl _))⟩
        · cases hs
  · rintro ⟨rest, w₁⟩ b ⟨done, hbs, hd⟩ hs
    simp only [writeAllLoop, writeAllStep] at hs
    split at hs
    · next he =>
      cases hs
      rintro w' ⟨⟩
      rwa [hbs, List.isEmpty_iff.1 he, List.append_nil]
    · split at hs
      · cases hs; rintro w' ⟨⟩
      · cases hs
      · split at hs
        · cases hs
        · cases hs; rintro w' ⟨⟩

/-- `writeAll` does not end with an interruption. -/
theorem writeAll_not_interrupted {w w' : ω} {bs : Bytes} {e : ε}
    (h : writeAll w bs = (.error e, w')) : interrupted e = false := by
  refine Loop.run_induct (l := writeAllLoop) (s := (bs, w)) (fun _ => True)
    (P := fun b => ∀ e w', b = (.error e, w') → interrupted e = false) trivial
    (fun _ _ => trivial) ?_ e w' h
  rintro ⟨rest, w₁⟩ b - hs
  simp only [writeAllLoop, writeAllStep] at hs
  split at hs
  · cases hs; rintro e w' ⟨⟩
  · split at hs
    · cases hs; rintro e w' ⟨⟩; exact IsError.writeZero_not_interrupted
    · cases hs
    · split at hs
      · cases hs
      · next hi => cases hs; rintro e w' ⟨⟩; simpa using hi

/-- What some bytes do to the patience of a writer. -/
theorem Writes.patience_le {w w' : ω} {bs : Bytes} (h : Writes w bs w') :
    patience w' ≤ patience w := by
  induction h with
  | refl w => exact le_rfl
  | ok h _ ih => exact ih.trans (Write.patience_le h)
  | retry h hi _ ih => exact ih.trans (Write.patience_lt h hi).le

end

/-! ### Cutting into pieces -/

/-- The bytes in pieces of `n`, but for the last one. -/
def chunks (n : ℕ) (bs : Bytes) : List Bytes :=
  (List.range ((bs.length + n - 1) / n)).map fun i => (bs.drop (i * n)).take n

theorem length_le_of_mem_chunks {n : ℕ} {bs piece : Bytes} (h : piece ∈ chunks n bs) :
    piece.length ≤ n := by
  obtain ⟨i, -, rfl⟩ := List.mem_map.1 h
  exact List.length_take_le _ _

/-- The pieces of a text that is cut without a rest. -/
theorem length_of_mem_chunks {n : ℕ} {bs piece : Bytes} (hn : 0 < n) (hd : n ∣ bs.length)
    (h : piece ∈ chunks n bs) : piece.length = n := by
  obtain ⟨i, hi, rfl⟩ := List.mem_map.1 h
  obtain ⟨k, hk⟩ := hd
  have hcount : (bs.length + n - 1) / n = k := by
    rw [hk, show n * k + n - 1 = n - 1 + n * k by omega, Nat.add_mul_div_left _ _ hn,
      Nat.div_eq_of_lt (by omega), Nat.zero_add]
  have hi := List.mem_range.1 hi
  rw [hcount] at hi
  have hin : i * n + n ≤ n * k := by
    rw [← Nat.succ_mul, Nat.mul_comm n k]
    exact Nat.mul_le_mul_right n hi
  rw [List.length_take, List.length_drop]
  omega

theorem flatten_chunks {n : ℕ} (hn : 0 < n) (bs : Bytes) : (chunks n bs).flatten = bs := by
  have hk : ∀ k, ((List.range k).map fun i => (bs.drop (i * n)).take n).flatten =
      bs.take (k * n) := by
    intro k
    induction k with
    | zero => simp
    | succ k ih =>
      rw [List.range_succ, List.map_append, List.flatten_append, ih, List.map_singleton,
        List.flatten_singleton, Nat.succ_mul, List.take_add]
  rw [chunks, hk]
  apply List.take_of_length_le
  have := Nat.div_add_mod (bs.length + n - 1) n
  have := Nat.mod_lt (bs.length + n - 1) hn
  rw [Nat.mul_comm]
  omega

/-- The first piece, and the others. -/
theorem chunks_of_ne_nil {n : ℕ} (hn : 0 < n) {bs : Bytes} (h : bs ≠ []) :
    chunks n bs = bs.take n :: chunks n (bs.drop n) := by
  have hlen := List.length_pos_iff.2 h
  have hcount : (bs.length + n - 1) / n = ((bs.drop n).length + n - 1) / n + 1 := by
    rw [← Nat.add_div_right _ hn, List.length_drop]
    by_cases hle : n ≤ bs.length
    · congr 1
      omega
    · have h1 : (bs.length + n - 1) / n = 1 := Nat.div_eq_of_lt_le (by omega) (by omega)
      have h2 : (bs.length - n + n - 1 + n) / n = 1 := Nat.div_eq_of_lt_le (by omega) (by omega)
      rw [h1, h2]
  rw [chunks, hcount, List.range_succ_eq_map, List.map_cons, Nat.zero_mul, List.drop_zero,
    List.map_map, chunks]
  refine congrArg _ (List.map_congr_left fun i _ => ?_)
  rw [Function.comp_apply, List.drop_drop, Nat.succ_mul, Nat.add_comm n]

@[simp] theorem chunks_nil {n : ℕ} (hn : 0 < n) : chunks n [] = [] := by
  rw [chunks, List.length_nil, Nat.div_eq_of_lt (by omega)]
  rfl

/-- A text of one piece. -/
theorem chunks_of_length_eq {n : ℕ} (hn : 0 < n) {bs : Bytes} (h : bs.length = n) :
    chunks n bs = [bs] := by
  have hne : bs ≠ [] := fun h0 => by rw [h0] at h; exact absurd h hn.ne
  rw [chunks_of_ne_nil hn hne, List.take_of_length_le h.le, List.drop_eq_nil_of_le h.le,
    chunks_nil hn]

/-- A text that is cut between two pieces. -/
theorem chunks_append {n : ℕ} (hn : 0 < n) {a : Bytes} (ha : n ∣ a.length) (b : Bytes) :
    chunks n (a ++ b) = chunks n a ++ chunks n b := by
  obtain ⟨k, hk⟩ := ha
  -- The first string is whole chunks, so the chunks of the second are counted from
  -- there.
  have hcount : ∀ m, (n * k + m + n - 1) / n = k + (m + n - 1) / n := by
    intro m
    rw [show n * k + m + n - 1 = m + n - 1 + n * k by omega, Nat.add_mul_div_left _ _ hn,
      Nat.add_comm]
  have hwhole : (n * k + n - 1) / n = k := by
    have h : (n * k + n - 1) / n = k + (0 + n - 1) / n := hcount 0
    rw [h, Nat.div_eq_of_lt (show 0 + n - 1 < n by omega), Nat.add_zero]
  rw [chunks, chunks, chunks, List.length_append, hk, hcount, List.range_add, List.map_append,
    List.map_map, hwhole]
  congr 1
  · refine List.map_congr_left fun i hi => ?_
    have hi := List.mem_range.1 hi
    have hin : i * n + n ≤ n * k := by
      rw [← Nat.succ_mul, Nat.mul_comm n k]
      exact Nat.mul_le_mul_right n hi
    rw [List.drop_append_of_le_length (by omega), List.take_append_of_le_length]
    rw [List.length_drop]
    omega
  · refine List.map_congr_left fun i _ => ?_
    rw [Function.comp_apply, Nat.add_mul, List.drop_append, hk,
      List.drop_eq_nil_of_le (by rw [hk, Nat.mul_comm n k]; omega), List.nil_append]
    congr 2
    rw [Nat.mul_comm n k]
    omega

/-! ### Writers that never fail -/

section

variable {ω ε : Type*} [IsError ε] [Write ω ε]

/-- A property of a writer's states in which every write is taken, in part at
    least, and leads to such a state. -/
def Willing (I : ω → Prop) : Prop :=
  ∀ w bs, I w → ∃ n w', write w bs = (.ok n, w') ∧ (bs ≠ [] → 0 < n) ∧ I w'

/-- In such a state everything is written. -/
theorem Willing.writeAll {I : ω → Prop} (hI : Willing I) {w : ω} (hw : I w) (bs : Bytes) :
    ∃ w', ByteStream.writeAll w bs = (.ok (), w') ∧ I w' := by
  induction hl : bs.length using Nat.strong_induction_on generalizing w bs with
  | _ l ih =>
    by_cases hb : bs = []
    · subst hb
      exact ⟨w, Loop.run_inl rfl, hw⟩
    · obtain ⟨n, w', hwr, hn, hw'⟩ := hI w bs hw
      have hpos := hn hb
      have hle := Write.le_length hwr
      have hs : (writeAllLoop (ω := ω)).body (bs, w) = .inr (bs.drop n, w') := by
        obtain ⟨n, rfl⟩ : ∃ m, n = m + 1 := ⟨n - 1, by omega⟩
        simp only [writeAllLoop, writeAllStep, List.isEmpty_iff, if_neg hb, hwr]
      obtain ⟨w'', he, hw''⟩ := ih (bs.drop n).length (by rw [List.length_drop]; omega) hw'
        (bs.drop n) rfl
      exact ⟨w'', (Loop.run_inr hs).trans he, hw''⟩

/-- A write that takes all it is given. -/
theorem writeAll_of_write {w w' : ω} {bs : Bytes} (hne : bs ≠ [])
    (h : write w bs = (.ok bs.length, w')) : writeAll w bs = (.ok (), w') := by
  obtain ⟨n, hn⟩ : ∃ n, bs.length = n + 1 := Nat.exists_eq_add_one.2 (List.length_pos_iff.2 hne)
  have hs : (writeAllLoop (ω := ω)).body (bs, w) = .inr ([], w') := by
    simp only [writeAllLoop, writeAllStep, List.isEmpty_iff, if_neg hne, h, hn]
    rw [← hn, List.drop_length]
  exact (Loop.run_inr hs).trans (Loop.run_inl rfl)

/-- A writer that takes some bytes, in whatever pieces they come; `I` says what it has
    taken so far. -/
def Takes (bytes : Bytes) (I : Bytes → ω → Prop) : Prop :=
  ∀ {done piece rest : Bytes} {w : ω}, bytes = done ++ piece ++ rest → piece ≠ [] → I done w →
    ∃ w', writeAll w piece = (.ok (), w') ∧ I (done ++ piece) w'

theorem Willing.takes {I : ω → Prop} (hI : Willing I) (w₀ : ω) (bytes : Bytes) :
    Takes bytes fun done w => Writes w₀ done w ∧ I w := by
  rintro done piece rest w - - ⟨hw, hi⟩
  obtain ⟨w', hwrite, hi'⟩ := hI.writeAll hi piece
  exact ⟨w', hwrite, hw.trans (writeAll_writes hwrite), hi'⟩

end

/-- Bytes in memory, written at the end. -/
structure Buffer (ε : Type*) where
  bytes : Bytes
  deriving DecidableEq

instance {ε : Type*} [IsError ε] : Write (Buffer ε) ε where
  write w bs := (.ok bs.length, ⟨w.bytes ++ bs⟩)
  patience _ := 0
  le_length h := by cases h; exact le_rfl
  patience_le h := by cases h; exact le_rfl
  patience_lt h := by cases h

instance {ε : Type*} : Flush (Buffer ε) ε where
  flush w := (.ok (), w)

theorem Buffer.willing {ε : Type*} [IsError ε] : Willing fun _ : Buffer ε => True :=
  fun _ _ _ => ⟨_, _, rfl, List.length_pos_iff.2, trivial⟩

/-- What a buffer holds after some writes. -/
theorem Buffer.writes {ε : Type*} [IsError ε] {w w' : Buffer ε} {bs : Bytes}
    (h : Writes w bs w') : w'.bytes = w.bytes ++ bs := by
  induction h with
  | refl w => rw [List.append_nil]
  | ok h _ ih => cases h; rw [ih, List.append_assoc, List.take_length]
  | retry h => cases h

/-- A buffer takes what it is given. -/
theorem Buffer.writeAll_eq {ε : Type*} [IsError ε] (w : Buffer ε) (bs : Bytes) :
    writeAll w bs = (.ok (), ⟨w.bytes ++ bs⟩) := by
  obtain ⟨w', h, -⟩ := (Buffer.willing (ε := ε)).writeAll (w := w) trivial bs
  rw [h, ← Buffer.writes (writeAll_writes h)]

/-- A writer that forgets what it is given. -/
structure Sink (ε : Type*) where
  deriving DecidableEq

instance {ε : Type*} [IsError ε] : Write (Sink ε) ε where
  write w bs := (.ok bs.length, w)
  patience _ := 0
  le_length h := by cases h; exact le_rfl
  patience_le h := by cases h; exact le_rfl
  patience_lt h := by cases h

theorem Sink.willing {ε : Type*} [IsError ε] : Willing fun _ : Sink ε => True :=
  fun _ _ _ => ⟨_, _, rfl, List.length_pos_iff.2, trivial⟩

end ByteStream

import OdfCrypto.Lib.Read

/-!
# Readers over bytes and over readers

* `Pieces`: a reader over a string of bytes, which decides for itself how many
  of the bytes asked for it hands over at each read (but one at least);
* `Take`: a reader over at most so many bytes of another one;
* `Metered`: a reader that keeps how much each of its reads handed over.
-/

namespace ByteStream

variable {ρ ε : Type*} [IsError ε]

/-- A reader over `rest`, whose reads hand over the pieces that `cuts` allows,
    ending with `fails` if there is such an error. -/
structure Pieces (ε : Type*) where
  /-- What is left to read. -/
  rest : Bytes
  /-- The most the `k`-th read hands over, less one. -/
  cuts : ℕ → ℕ
  /-- The error after the last byte. -/
  fails : Option ε := none
  /-- The reads so far. -/
  reads : ℕ := 0

/-- One read of a `Pieces`. -/
def Pieces.next (p : Pieces ε) (n : ℕ) : Except ε Bytes × Pieces ε :=
  match p.rest, p.fails with
  | [], some e => if interrupted e then (.ok [], p) else (.error e, p)
  | _, _ =>
    let m := min n (p.cuts p.reads + 1)
    (.ok (p.rest.take m), { p with rest := p.rest.drop m, reads := p.reads + 1 })

theorem Pieces.next_ok {p p' : Pieces ε} {n : ℕ} {bs : Bytes} (h : p.next n = (.ok bs, p')) :
    bs.length ≤ n ∧ p.rest = bs ++ p'.rest ∧ p'.fails = p.fails := by
  unfold Pieces.next at h
  split at h
  · split at h <;> cases h
    simp
  · cases h
    exact ⟨(List.length_take_le _ _).trans (by omega), by simp, rfl⟩

theorem Pieces.next_error {p p' : Pieces ε} {n : ℕ} {e : ε} (h : p.next n = (.error e, p')) :
    interrupted e = false := by
  unfold Pieces.next at h
  split at h
  · split at h <;> cases h
    simp_all
  · cases h

theorem Pieces.next_of_fails {p : Pieces ε} (h : p.fails = none) (n : ℕ) :
    p.next n = (.ok (p.rest.take (min n (p.cuts p.reads + 1))),
      { p with rest := p.rest.drop (min n (p.cuts p.reads + 1)), reads := p.reads + 1 }) := by
  simp [Pieces.next, h]

instance : Read (Pieces ε) ε where
  read := Pieces.next
  left p := p.rest.length
  length_le h := (Pieces.next_ok h).1
  left_le h := by simp [(Pieces.next_ok h).2.1]
  left_lt h hne := by
    have := List.length_pos_iff.2 hne
    simp only [(Pieces.next_ok h).2.1, List.length_append]
    omega
  left_retry h hi := by simp [Pieces.next_error h] at hi

/-- However it cuts its bytes, a `Pieces` presents them. -/
theorem Pieces.presents (p : Pieces ε) (h : p.fails = none) : Presents p p.rest none := by
  refine Presents.of_invariant (fun p bs => p.fails = none ∧ bs = p.rest) ?_ ?_ ?_ ⟨h, rfl⟩
  · rintro p _ ⟨hf, rfl⟩ n hn
    have hr := Pieces.next_of_fails hf n
    cases hb : p.rest with
    | nil => exact ⟨_, hr.trans (by rw [hb, List.take_nil])⟩
    | cons b bs => exact ⟨_, _, hr, by simp [hb]; omega, hb ▸ List.take_prefix _ _⟩
  · rintro p _ n piece p' ⟨hf, rfl⟩ hr
    obtain ⟨-, he, hf'⟩ := Pieces.next_ok hr
    exact ⟨_, he, hf'.trans hf, rfl⟩
  · intro p _ n e p' _ hr hi
    simp [Pieces.next_error hr] at hi

/-- A reader over at most `limit` bytes of another one. -/
structure Take (ρ : Type*) where
  /-- The reader it reads from. -/
  inner : ρ
  /-- The most that is still read from it. -/
  limit : ℕ

variable [Read ρ ε]

/-- One read of a `Take`. -/
def Take.next (t : Take ρ) (n : ℕ) : Except ε Bytes × Take ρ :=
  if t.limit = 0 then (.ok [], t)
  else
    match read t.inner (min n t.limit) with
    | (.ok bs, r) => (.ok bs, ⟨r, t.limit - bs.length⟩)
    | (.error e, r) => (.error e, ⟨r, t.limit⟩)

theorem Take.next_ok {t t' : Take ρ} {n : ℕ} {bs : Bytes} (h : t.next n = (.ok bs, t')) :
    (t.limit = 0 ∧ bs = [] ∧ t' = t) ∨
      (read t.inner (min n t.limit) = (.ok bs, t'.inner) ∧ bs.length ≤ min n t.limit ∧
        t'.limit = t.limit - bs.length) := by
  unfold Take.next at h
  split at h
  · next h0 => cases h; exact .inl ⟨h0, rfl, rfl⟩
  · split at h
    · next hr => cases h; exact .inr ⟨hr, Read.length_le hr, rfl⟩
    · cases h

theorem Take.next_error {t t' : Take ρ} {n : ℕ} {e : ε} (h : t.next n = (.error e, t')) :
    read t.inner (min n t.limit) = (.error e, t'.inner) ∧ t'.limit = t.limit := by
  unfold Take.next at h
  split at h
  · cases h
  · split at h
    · cases h
    · next hr => cases h; exact ⟨hr, rfl⟩

instance : Read (Take ρ) ε where
  read := Take.next
  left t := left t.inner
  length_le h := by
    obtain ⟨-, rfl, -⟩ | ⟨-, hl, -⟩ := Take.next_ok h
    · exact Nat.zero_le _
    · omega
  left_le h := by
    obtain ⟨-, -, rfl⟩ | ⟨hr, -, -⟩ := Take.next_ok h
    · exact le_rfl
    · exact Read.left_le hr
  left_lt h hne := by
    obtain ⟨-, rfl, -⟩ | ⟨hr, -, -⟩ := Take.next_ok h
    · exact absurd rfl hne
    · exact Read.left_lt hr hne
  left_retry h hi := Read.left_retry (Take.next_error h).1 hi

/-- A `Take` presents what its reader presents, up to the limit; past the limit
    it does not come to an error. -/
theorem Presents.take {r : ρ} {bs : Bytes} {e : Option ε} (h : Presents r bs e) (k : ℕ) :
    Presents (Take.mk r k) (bs.take k) (if k ≤ bs.length then none else e) := by
  generalize hfin : (if k ≤ bs.length then none else e) = fin
  -- The invariant: the inner reader presents some `bs`, of which the limit is left to
  -- take.
  refine Presents.of_invariant (fun t rest => ∃ bs, Presents t.inner bs e ∧
    rest = bs.take t.limit ∧ (if t.limit ≤ bs.length then none else e) = fin) ?_ ?_ ?_
    ⟨bs, h, rfl, hfin⟩
  · rintro ⟨r, k⟩ rest ⟨bs, hP, rfl, hfin⟩ n hn
    dsimp only at hfin ⊢
    rcases Nat.eq_zero_or_pos k with rfl | hk
    · simp only [Nat.zero_le, if_true] at hfin
      subst hfin
      exact ⟨⟨r, 0⟩, by simp [read, Take.next]⟩
    · have hread : ∀ {x}, read r (min n k) = x → read (Take.mk r k) n = match x with
          | (.ok bs, r) => (.ok bs, ⟨r, k - bs.length⟩)
          | (.error e, r) => (.error e, ⟨r, k⟩) := by
        rintro x rfl
        simp [read, Take.next, Nat.ne_of_gt hk]
      cases bs with
      | nil =>
        rw [if_neg (by simp; omega)] at hfin
        subst hfin
        rw [List.take_nil]
        cases e with
        | none =>
          obtain ⟨r', hr, -⟩ := hP.read_nil (n := min n k) (by omega)
          exact ⟨_, hread hr⟩
        | some err =>
          obtain ⟨hi, r', hr⟩ := hP.read_error (n := min n k) (by omega)
          exact ⟨hi, _, hread hr⟩
      | cons b bs =>
        obtain ⟨piece, rest, r', hr, hne, he, -⟩ := hP.read_cons (n := min n k) (by omega)
          (List.cons_ne_nil b bs)
        have hl := Read.length_le hr
        obtain ⟨k, rfl⟩ : ∃ j, k = j + 1 := ⟨k - 1, by omega⟩
        rw [List.take_succ_cons]
        refine ⟨piece, _, hread hr, hne, ?_⟩
        rw [← List.take_succ_cons, he, List.take_append, List.take_of_length_le (by omega)]
        exact List.prefix_append _ _
  · rintro t rest n piece t' ⟨bs, hP, rfl, hfin⟩ hr
    obtain ⟨h0, rfl, rfl⟩ | ⟨hr, hl, ht⟩ := Take.next_ok hr
    · exact ⟨_, rfl, bs, hP, rfl, hfin⟩
    · obtain ⟨rest, rfl, hP'⟩ := hP.reads (.single hr)
      refine ⟨rest.take t'.limit, ?_, rest, hP', rfl, ?_⟩
      · rw [List.take_append, List.take_of_length_le (by omega), ht]
      · rw [← hfin, ht, List.length_append]
        congr 1
        simp only [eq_iff_iff]
        omega
  · rintro t rest n err t' ⟨bs, hP, rfl, hfin⟩ hr hi
    obtain ⟨hr, ht⟩ := Take.next_error hr
    obtain ⟨rest, he, hP'⟩ := hP.reads (.retry hr hi (.refl _))
    obtain rfl : bs = rest := by simpa using he
    exact ⟨bs, hP', by rw [ht], by rw [ht, hfin]⟩

/-- A reader that keeps how much each of its reads handed over. -/
structure Metered (ρ : Type*) where
  /-- The reader it reads from. -/
  inner : ρ
  /-- How much was handed over, read by read. -/
  given : List ℕ := []

/-- One read of a `Metered`. -/
def Metered.next (m : Metered ρ) (n : ℕ) : Except ε Bytes × Metered ρ :=
  match read m.inner n with
  | (.ok bs, r) => (.ok bs, ⟨r, m.given ++ [bs.length]⟩)
  | (.error e, r) => (.error e, ⟨r, m.given⟩)

theorem Metered.next_ok {m m' : Metered ρ} {n : ℕ} {bs : Bytes} (h : m.next n = (.ok bs, m')) :
    read m.inner n = (.ok bs, m'.inner) ∧ m'.given = m.given ++ [bs.length] := by
  unfold Metered.next at h
  split at h
  · next hr => cases h; exact ⟨hr, rfl⟩
  · cases h

theorem Metered.next_error {m m' : Metered ρ} {n : ℕ} {e : ε} (h : m.next n = (.error e, m')) :
    read m.inner n = (.error e, m'.inner) ∧ m'.given = m.given := by
  unfold Metered.next at h
  split at h
  · cases h
  · next hr => cases h; exact ⟨hr, rfl⟩

instance : Read (Metered ρ) ε where
  read := Metered.next
  left m := left m.inner
  length_le h := Read.length_le (Metered.next_ok h).1
  left_le h := Read.left_le (Metered.next_ok h).1
  left_lt h hne := Read.left_lt (Metered.next_ok h).1 hne
  left_retry h hi := Read.left_retry (Metered.next_error h).1 hi

/-- The reads of a `Metered` are reads of its reader, and are all in its list. -/
theorem Metered.reads {m m' : Metered ρ} {bs : Bytes} (h : Reads m bs m') :
    Reads m.inner bs m'.inner ∧ m'.given.sum = m.given.sum + bs.length := by
  induction h with
  | refl m => exact ⟨.refl _, rfl⟩
  | ok h _ ih =>
    obtain ⟨hr, hg⟩ := Metered.next_ok h
    refine ⟨.ok hr ih.1, ?_⟩
    rw [ih.2, hg, List.sum_append, List.sum_singleton, List.length_append, Nat.add_assoc]
  | retry h hi _ ih =>
    obtain ⟨hr, hg⟩ := Metered.next_error h
    exact ⟨.retry hr hi ih.1, by rw [ih.2, hg]⟩

/-- A read that fails adds nothing to the list. -/
theorem Metered.drawn {m m' : Metered ρ} {bs : Bytes} (h : Drawn m bs m') :
    (∃ r, Reads m.inner bs r) ∧ m'.given.sum = m.given.sum + bs.length := by
  obtain ⟨m₁, hr, rfl | ⟨n, e, he⟩⟩ := h
  · exact ⟨⟨_, (Metered.reads hr).1⟩, (Metered.reads hr).2⟩
  · exact ⟨⟨_, (Metered.reads hr).1⟩, by rw [(Metered.next_error he).2, (Metered.reads hr).2]⟩

/-- A `Metered` presents what its reader does. -/
theorem Metered.presents {m : Metered ρ} {bs : Bytes} {e : Option ε} (h : Presents m.inner bs e) :
    Presents m bs e := by
  intro p m' hr
  obtain ⟨rest, rfl, hh⟩ := h p m'.inner (Metered.reads hr).1
  refine ⟨rest, rfl, fun n hn => ?_⟩
  have hn := hh n hn
  rcases rest with - | ⟨b, rest⟩
  · rcases e with - | err
    · obtain ⟨r, hread⟩ := hn
      exact ⟨⟨r, m'.given ++ [0]⟩, by simp only [read, Metered.next, hread, List.length_nil]⟩
    · obtain ⟨hi, r, hread⟩ := hn
      exact ⟨hi, ⟨r, m'.given⟩, by simp only [read, Metered.next, hread]⟩
  · obtain ⟨piece, r, hread, hne, hp⟩ := hn
    exact ⟨piece, ⟨r, m'.given ++ [piece.length]⟩, by simp only [read, Metered.next, hread], hne, hp⟩

end ByteStream

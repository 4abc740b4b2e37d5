import OdfCrypto.Kdf
import OdfCrypto.Lib.Copy

/-!
# AES-GCM streams

`GcmStream` and what reads and writes through it (`stream.rs`): the verification
of a member in a first pass, and its decryption in a second one, which checks
the tag again once the ciphertext is through.

* `GhashStream.update_eq`, `GcmStream.absorb_eq`: however the ciphertext is cut,
  the tag is the one of the whole of it;
* `gcmVerify_ok`, `gcmVerify_presents`: what a verification read, and that it
  succeeds on what it should;
* `GcmDecryptReader.reads_ok`: a decryption that came to its end has read as
  much ciphertext as was announced, under its tag.
-/

namespace OdfCrypto

open ByteStream Text

/-- Compare in constant time. -/
def ctEq (got want : Bytes) : Bool :=
  if got.length ≠ want.length then false
  else (List.zipWith (· ^^^ ·) got want).foldl (· ||| ·) 0 = 0

/-- A GHASH over data given in pieces. -/
structure GhashStream where
  key : BitVec 128
  y : BitVec 128 := 0
  /-- The bytes of the block under way. -/
  partialBlock : Bytes := []
  ctLen : ℕ := 0
  deriving DecidableEq

namespace GhashStream

/-- Absorb whole blocks, and keep the rest. -/
def updateBlocks (g : GhashStream) (data : Bytes) : GhashStream :=
  let whole := data.length - data.length % 16
  { g with
    y := Gcm.padBlock g.key (Gcm.feedAll g.key (g.y, []) (data.take whole))
    partialBlock := data.drop whole }

/-- Complete the block under way, absorb whole blocks, and keep the rest. -/
def update (g : GhashStream) (data : Bytes) : GhashStream :=
  let g := { g with ctLen := g.ctLen + data.length }
  if 0 < g.partialBlock.length then
    let n := min (16 - g.partialBlock.length) data.length
    let block := g.partialBlock ++ data.take n
    let data := data.drop n
    if block.length < 16 then { g with partialBlock := block }
    else ({ g with y := Gcm.absorbBlock g.key g.y block, partialBlock := [] }).updateBlocks data
  else g.updateBlocks data

/-- The hash, of the data and its length. -/
def finalize (g : GhashStream) : Bytes :=
  let y := Gcm.padBlock g.key (g.y, g.partialBlock)
  Gcm.ofBits (Gcm.absorbBlock g.key y (Gcm.lengths g.ctLen))

/-- The stream that has absorbed some data. -/
def absorbed (key : BitVec 128) (data : Bytes) : GhashStream :=
  let s := Gcm.feedAll key (0, []) data
  { key, y := s.1, partialBlock := s.2, ctLen := data.length }

theorem updateBlocks_eq (g : GhashStream) (data : Bytes) :
    g.updateBlocks data = { g with
      y := (Gcm.feedAll g.key (g.y, []) data).1
      partialBlock := (Gcm.feedAll g.key (g.y, []) data).2 } := by
  let whole := data.length - data.length % 16
  have hw : 16 ∣ (data.take whole).length := by
    rw [List.length_take, Nat.min_eq_left (Nat.sub_le _ _)]
    exact Nat.dvd_sub_mod _
  have he := @Gcm.feedAll_whole g.key g.y _ hw
  obtain ⟨y, hy⟩ : ∃ y, Gcm.feedAll g.key (g.y, []) (data.take whole) = (y, []) :=
    ⟨_, Prod.ext rfl he⟩
  have hd : Gcm.feedAll g.key (g.y, []) data = (y, data.drop whole) := by
    rw [← List.take_append_drop whole data, Gcm.feedAll_append, hy, Gcm.feedAll_of_lt]
    · rw [List.nil_append, List.take_append_drop]
    · simp only [List.length_nil, List.length_drop, whole]
      omega
  rw [hd]
  exact congrArg (fun y => { g with y, partialBlock := data.drop whole })
    (congrArg (Gcm.padBlock g.key) hy)

/-- However it is cut, data is absorbed byte after byte. -/
theorem update_eq (key : BitVec 128) (a b : Bytes) :
    (absorbed key a).update b = absorbed key (a ++ b) := by
  have hl : (Gcm.feedAll key (0, []) a).2.length < 16 := Gcm.feedAll_length (by simp)
  simp only [absorbed, Gcm.feedAll_append, List.length_append]
  rcases hf : Gcm.feedAll key (0, []) a with ⟨y, acc⟩
  rw [hf] at hl
  simp only [update]
  split
  · next hpos =>
    by_cases hlt : acc.length + b.length < 16
    · -- the block under way is not completed
      have hn : min (16 - acc.length) b.length = b.length := by omega
      rw [hn, List.take_length, if_pos (by simpa using hlt), Gcm.feedAll_of_lt hlt]
    · have hn : min (16 - acc.length) b.length = 16 - acc.length := by simp at hl; omega
      have h16 : acc.length + (b.take (16 - acc.length)).length = 16 := by
        simp at hl ⊢; omega
      rw [hn, if_neg (by simp at hl ⊢; omega), updateBlocks_eq]
      conv_rhs => rw [← List.take_append_drop (16 - acc.length) b, Gcm.feedAll_append,
        Gcm.feedAll_of_eq h16 hl]
      simp
  · next hpos =>
    obtain rfl : acc = [] := List.length_eq_zero_iff.1 (by simpa using hpos)
    rw [updateBlocks_eq]

end GhashStream

/-- An AES-GCM stream under way: how far the keystream is, and the hash. -/
structure GcmStream where
  key : Bytes
  iv : Bytes
  pos : ℕ
  ghash : GhashStream
  tagMask : Bytes
  deriving DecidableEq

namespace GcmStream

variable (P : Prims)

/-- Start a stream, if the key and the IV have lengths of AES-GCM. -/
def new (key iv : Bytes) : Option GcmStream :=
  if iv.length ≠ aesGcmIvLen then none
  else if key.length ≠ 16 ∧ key.length ≠ 24 ∧ key.length ≠ 32 then none
  else some {
    key, iv
    pos := 16
    ghash := { key := Gcm.hashKey (P.aes key) }
    tagMask := Gcm.mask (P.aes key) iv }

/-- Take the keystream on over some data. -/
def applyCtr (g : GcmStream) (data : Bytes) : Bytes × GcmStream :=
  (Gcm.ctr (P.aes g.key) g.iv g.pos data, { g with pos := g.pos + data.length })

def absorb (g : GcmStream) (ct : Bytes) : GcmStream := { g with ghash := g.ghash.update ct }

def decrypt (g : GcmStream) (ct : Bytes) : Bytes × GcmStream := (g.absorb ct).applyCtr P ct

def encrypt (g : GcmStream) (data : Bytes) : Bytes × GcmStream :=
  let (ct, g) := g.applyCtr P data
  (ct, g.absorb ct)

def tag (g : GcmStream) : Bytes := List.zipWith (· ^^^ ·) g.ghash.finalize g.tagMask

/-- The stream that has absorbed some ciphertext, and taken the keystream over
    `n` bytes. -/
def absorbed (key iv ct : Bytes) (n : ℕ) : GcmStream where
  key := key
  iv := iv
  pos := 16 + n
  ghash := .absorbed (Gcm.hashKey (P.aes key)) ct
  tagMask := Gcm.mask (P.aes key) iv

variable {P} {key iv : Bytes} {g : GcmStream}

/-- The lengths under which a stream starts. -/
theorem new_eq_some : new P key iv = some g ↔
    iv.length = aesGcmIvLen ∧ (key.length = 16 ∨ key.length = 24 ∨ key.length = 32) ∧
      g = absorbed P key iv [] 0 := by
  unfold new
  split_ifs with h1 h2
  · simp [h1]
  · simp only [false_iff]
    rintro ⟨-, h, -⟩
    omega
  · simp only [Option.some.injEq]
    refine ⟨fun h => ⟨not_not.1 h1, by omega, h.symm⟩, fun h => h.2.2.symm⟩

theorem absorb_eq (ct data : Bytes) (n : ℕ) :
    (absorbed P key iv ct n).absorb data = absorbed P key iv (ct ++ data) n := by
  simp [absorb, absorbed, GhashStream.update_eq]

theorem decrypt_eq (ct data : Bytes) (n : ℕ) :
    (absorbed P key iv ct n).decrypt P data =
      (Gcm.ctr (P.aes key) iv (16 + n) data,
        absorbed P key iv (ct ++ data) (n + data.length)) := by
  rw [decrypt, absorb_eq]
  simp [applyCtr, absorbed, Nat.add_assoc]

theorem encrypt_eq (ct data : Bytes) (n : ℕ) :
    (absorbed P key iv ct n).encrypt P data =
      (Gcm.ctr (P.aes key) iv (16 + n) data,
        absorbed P key iv (ct ++ Gcm.ctr (P.aes key) iv (16 + n) data) (n + data.length)) := by
  simp [encrypt, applyCtr, absorb, absorbed, GhashStream.update_eq, Nat.add_assoc]

/-- The tag of a stream is the one of the ciphertext it has absorbed. -/
theorem tag_eq (ct : Bytes) (n : ℕ) :
    (absorbed P key iv ct n).tag = Gcm.tag (P.aes key) iv ct := rfl

end GcmStream

theorem ctEq_iff {got want : Bytes} : ctEq got want = true ↔ got = want := by
  have hz : ∀ (a b : Bytes) (d : UInt8), a.length = b.length →
      ((List.zipWith (· ^^^ ·) a b).foldl (· ||| ·) d = 0 ↔ d = 0 ∧ a = b) := by
    intro a
    induction a with
    | nil =>
      intro b d hl
      obtain rfl : b = [] := List.length_eq_zero_iff.1 hl.symm
      simp
    | cons x a ih =>
      intro b d hl
      cases b with
      | nil => simp at hl
      | cons y b =>
        have hor : d ||| x ^^^ y = 0 ↔ d = 0 ∧ x = y := by
          rw [UInt8.or_eq_zero_iff, UInt8.xor_eq_zero_iff]
        rw [List.zipWith_cons_cons, List.foldl_cons, ih b _ (by simpa using hl), hor,
          List.cons.injEq, and_assoc]
  unfold ctEq
  split_ifs with hl
  · refine iff_of_false (by simp) ?_
    rintro rfl
    exact hl rfl
  · simpa using hz got want 0 (not_not.1 hl)

/-! ### The first pass -/

section

variable {ρ : Type} [Read ρ IoError]

/-- One pass of the verification: `left` bytes of ciphertext to read, then the tag. -/
def gcmVerifyStep (bufLen : ℕ) : GcmStream × ℕ × ρ →
    (Except IoError Bool × ρ) ⊕ (GcmStream × ℕ × ρ)
  | (gcm, left, r) =>
    if 0 < left then
      let want := min left bufLen
      match readFull r want with
      | (.ok bs, r') =>
        if bs.length ≠ want then .inl (.error .unexpectedEof, r')
        else .inr (gcm.absorb bs, left - want, r')
      | (.error e, r') => .inl (.error e, r')
    else
      match readFull r aesGcmTagLen with
      | (.ok wantTag, r') =>
        if wantTag.length ≠ aesGcmTagLen then .inl (.error .unexpectedEof, r')
        else .inl (.ok (ctEq gcm.tag wantTag), r')
      | (.error e, r') => .inl (.error e, r')

/-- The buffer of the verification: no larger than the member needs. -/
def gcmVerifyBuffer (ctLen : ℕ) : ℕ := max (min chunk ctLen) aesGcmTagLen

/-- The loop of the verification. -/
def gcmVerifyLoop (ctLen : ℕ) : Loop (GcmStream × ℕ × ρ) (Except IoError Bool × ρ) where
  body := gcmVerifyStep (gcmVerifyBuffer ctLen)
  rank s := s.2.1
  rank_lt := by
    rintro ⟨gcm, left, r⟩ s' h
    simp only [gcmVerifyStep] at h
    split at h
    · next hpos =>
      split at h
      · split at h <;> cases h
        have : 0 < gcmVerifyBuffer ctLen := lt_of_lt_of_le (by decide) (le_max_right _ _)
        simp only
        omega
      · cases h
    · split at h
      · split at h <;> cases h
      · cases h

/-- Read the ciphertext and the tag, and check it, decrypting nothing. -/
def gcmVerify (P : Prims) (key iv : Bytes) (r : ρ) (ctLen : ℕ) : Except IoError Bool × ρ :=
  match GcmStream.new P key iv with
  | none => (.error (Fault.internal (ascii "an AES-GCM key length the screen passed")).intoIo, r)
  | some gcm => (gcmVerifyLoop ctLen).run (gcm, ctLen, r)

variable {P : Prims} {key iv : Bytes} {r r' : ρ} {ctLen : ℕ} {b : Bool}

/-- What a verification read: as much ciphertext as was announced and a tag; and
    it succeeded if this is its tag. -/
theorem gcmVerify_ok (h : gcmVerify P key iv r ctLen = (.ok b, r')) :
    ∃ ct tag, Reads r (ct ++ tag) r' ∧ ct.length = ctLen ∧ tag.length = aesGcmTagLen ∧
      (b = true ↔ Gcm.tag (P.aes key) iv ct = tag) := by
  unfold gcmVerify at h
  split at h
  · cases h
  · next gcm hg =>
    obtain ⟨-, -, rfl⟩ := GcmStream.new_eq_some.1 hg
    -- The invariant of the loop: what was read so far is absorbed, and with what is left
    -- it makes up the ciphertext.
    refine Loop.run_induct (l := gcmVerifyLoop ctLen) (s := (_, ctLen, r))
      (fun s => ∃ ct, Reads r ct s.2.2 ∧ ct.length + s.2.1 = ctLen ∧
        s.1 = GcmStream.absorbed P key iv ct 0)
      (P := fun b' => ∀ b r', b' = (.ok b, r') → ∃ ct tag, Reads r (ct ++ tag) r' ∧
        ct.length = ctLen ∧ tag.length = aesGcmTagLen ∧
        (b = true ↔ Gcm.tag (P.aes key) iv ct = tag))
      ⟨[], .refl r, by simp, rfl⟩ ?_ ?_ b r' h
    · rintro ⟨gcm, left, r₁⟩ s' ⟨ct, hr, hl, rfl⟩ hs
      simp only [gcmVerifyLoop, gcmVerifyStep] at hs
      split at hs
      · split at hs
        · next bs _ hread =>
          split at hs <;> cases hs
          next hbs =>
          refine ⟨ct ++ bs, hr.trans (readFull_reads hread).1, ?_, GcmStream.absorb_eq _ _ _⟩
          have := not_not.1 hbs
          simp only [List.length_append] at hl ⊢
          omega
        · cases hs
      · split at hs
        · split at hs <;> cases hs
        · cases hs
    · rintro ⟨gcm, left, r₁⟩ b' ⟨ct, hr, hl, rfl⟩ hs
      simp only [gcmVerifyLoop, gcmVerifyStep] at hs
      split at hs
      · split at hs
        · split at hs
          · cases hs; rintro b r' ⟨⟩
          · cases hs
        · cases hs; rintro b r' ⟨⟩
      · next hpos =>
        split at hs
        · next tag _ hread =>
          split at hs
          · cases hs; rintro b r' ⟨⟩
          · next htag =>
            cases hs
            rintro b r' ⟨⟩
            have h0 : left = 0 := Nat.eq_zero_of_not_pos hpos
            refine ⟨ct, tag, hr.trans (readFull_reads hread).1, by simpa [h0] using hl,
              not_not.1 htag, ?_⟩
            rw [ctEq_iff, GcmStream.tag_eq]
        · cases hs; rintro b r' ⟨⟩

/-- The lengths of an AES-GCM key and IV. -/
def GcmLens (key iv : Bytes) : Prop :=
  iv.length = aesGcmIvLen ∧ (key.length = 16 ∨ key.length = 24 ∨ key.length = 32)

/-- The verification of a reader that presents a ciphertext with some tag. -/
theorem gcmVerify_presents {ct tag rest : Bytes} {e : Option IoError} (hk : GcmLens key iv)
    (hr : Presents r (ct ++ tag ++ rest) e) (htag : tag.length = aesGcmTagLen) :
    ∃ r', gcmVerify P key iv r ct.length = (.ok (ctEq (Gcm.tag (P.aes key) iv ct) tag), r') ∧
      Presents r' rest e := by
  have hnew : GcmStream.new P key iv = some (GcmStream.absorbed P key iv [] 0) :=
    GcmStream.new_eq_some.2 ⟨hk.1, hk.2, rfl⟩
  simp only [gcmVerify, hnew]
  -- The loop reads at least one byte a turn: induction on a bound of what is left.
  suffices ∀ n done todo (r : ρ), todo.length ≤ n → ct = done ++ todo →
      Presents r (todo ++ tag ++ rest) e →
      ∃ r', (gcmVerifyLoop ct.length).run (GcmStream.absorbed P key iv done 0, todo.length, r) =
        (.ok (ctEq (Gcm.tag (P.aes key) iv ct) tag), r') ∧ Presents r' rest e from
    this _ [] ct r le_rfl rfl hr
  intro n
  induction n with
  | zero =>
    intro done todo r hn hct hP
    obtain rfl := List.length_eq_zero_iff.1 (Nat.le_zero.1 hn)
    rw [List.append_nil] at hct
    subst hct
    rw [List.nil_append] at hP
    obtain ⟨r', hread, hP'⟩ := hP.readFull_le (n := aesGcmTagLen) (by simp [htag])
    rw [← htag, List.take_left] at hread
    rw [← htag, List.drop_left] at hP'
    refine ⟨r', Loop.run_inl ?_, hP'⟩
    simp [gcmVerifyLoop, gcmVerifyStep, ← htag, hread, GcmStream.tag_eq]
  | succ n ih =>
    intro done todo r hn hct hP
    by_cases h0 : todo = []
    · exact ih done todo r (by simp [h0]) hct hP
    let want := min todo.length (gcmVerifyBuffer ct.length)
    have hbuf : 0 < gcmVerifyBuffer ct.length := lt_of_lt_of_le (by decide) (le_max_right _ _)
    have hpos : 0 < todo.length := List.length_pos_iff.2 h0
    have hle : want ≤ todo.length := Nat.min_le_left _ _
    obtain ⟨r', hread, hP'⟩ := hP.readFull_le (n := want) (by simp; omega)
    rw [List.append_assoc, List.take_append_of_le_length hle] at hread
    rw [List.append_assoc, List.drop_append_of_le_length hle, ← List.append_assoc] at hP'
    have hbody : (gcmVerifyLoop ct.length).body
        (GcmStream.absorbed P key iv done 0, todo.length, r) =
        .inr (GcmStream.absorbed P key iv (done ++ todo.take want) 0, todo.length - want, r') := by
      simp only [gcmVerifyLoop, gcmVerifyStep, if_pos hpos]
      rw [hread]
      simp only [List.length_take, ne_eq]
      rw [if_neg (by omega), GcmStream.absorb_eq]
    obtain ⟨r'', he, hP''⟩ := ih (done ++ todo.take want) (todo.drop want) r'
      (by simp only [List.length_drop, want]; omega)
      (by rw [hct, List.append_assoc, List.take_append_drop]) hP'
    rw [List.length_drop] at he
    exact ⟨r'', (Loop.run_inr hbody).trans he, hP''⟩

end

/-! ### The second pass -/

/-- A reader of the plaintext of a member: the source, the stream while the tag
    has not been read, and how much ciphertext is left. -/
structure GcmDecryptReader (P : Prims) (ρ : Type) where
  src : ρ
  gcm : Option GcmStream
  left : ℕ

namespace GcmDecryptReader

variable {P : Prims} {ρ : Type}

def new (P : Prims) (src : ρ) (gcm : GcmStream) (ctLen : ℕ) : GcmDecryptReader P ρ :=
  ⟨src, some gcm, ctLen⟩

variable [Read ρ IoError]

/-- Read the tag, once the ciphertext is through, and check it. -/
def checkTag (d : GcmDecryptReader P ρ) (gcm : GcmStream) :
    Except IoError Bytes × GcmDecryptReader P ρ :=
  match readFull d.src aesGcmTagLen with
  | (.error e, src) => (.error e, { d with src, gcm := none })
  | (.ok want, src) =>
    if want.length ≠ aesGcmTagLen then (.error .unexpectedEof, { d with src, gcm := none })
    else if ctEq gcm.tag want then (.ok [], { d with src, gcm := none })
    else (.error Fault.changed.intoIo, { d with src, gcm := none })

/-- Read some ciphertext, and decrypt it. -/
def readData (d : GcmDecryptReader P ρ) (gcm : GcmStream) (n : ℕ) :
    Except IoError Bytes × GcmDecryptReader P ρ :=
  match read d.src (min d.left n) with
  | (.ok [], src) => (.error .unexpectedEof, { d with src })
  | (.ok bs, src) =>
    let (plain, gcm) := gcm.decrypt P bs
    (.ok plain, { src, gcm := some gcm, left := d.left - bs.length })
  | (.error e, src) => (.error e, { d with src })

def next (d : GcmDecryptReader P ρ) (n : ℕ) : Except IoError Bytes × GcmDecryptReader P ρ :=
  if n = 0 then (.ok [], d)
  else
    match d.gcm with
    | none => (.ok [], d)
    | some gcm => if d.left = 0 then d.checkTag gcm else d.readData gcm n

variable {d d' : GcmDecryptReader P ρ} {gcm : GcmStream} {n : ℕ} {bs : Bytes} {e : IoError}

/-- A tag that was checked was read, and is the stream's. -/
theorem checkTag_ok (h : d.checkTag gcm = (.ok bs, d')) :
    bs = [] ∧ ∃ src, d' = { d with src, gcm := none } ∧ gcm.tag.length = aesGcmTagLen ∧
      Reads d.src gcm.tag src := by
  unfold checkTag at h
  split at h
  · cases h
  · next want src hr =>
    by_cases hl : want.length ≠ aesGcmTagLen
    · rw [if_pos hl] at h; cases h
    · rw [if_neg hl] at h
      by_cases ht : ctEq gcm.tag want = true
      · rw [if_pos ht] at h
        cases h
        obtain rfl := ctEq_iff.1 ht
        exact ⟨rfl, src, rfl, not_not.1 hl, (readFull_reads hr).1⟩
      · rw [if_neg ht] at h; cases h

theorem checkTag_error (h : d.checkTag gcm = (.error e, d')) : interrupted e = false := by
  unfold checkTag at h
  split at h
  · next hr => cases h; exact readFull_not_interrupted hr
  · split_ifs at h <;> cases h <;> rfl

theorem readData_ok (h : d.readData gcm n = (.ok bs, d')) :
    ∃ ct src, ct ≠ [] ∧ ct.length ≤ min d.left n ∧ read d.src (min d.left n) = (.ok ct, src) ∧
      bs = (gcm.decrypt P ct).1 ∧
      d' = { src, gcm := some (gcm.decrypt P ct).2, left := d.left - ct.length } := by
  unfold readData at h
  split at h
  · cases h
  · next ct src hne hr =>
    cases h
    exact ⟨ct, src, fun h => hne (by simp [h]), Read.length_le hr, hr, rfl, rfl⟩
  · cases h

theorem readData_error (h : d.readData gcm n = (.error e, d')) (hi : interrupted e) :
    ∃ src, read d.src (min d.left n) = (.error e, src) ∧ d' = { d with src } := by
  unfold readData at h
  split at h
  · cases h; cases hi
  · cases h
  · next hr => cases h; exact ⟨_, hr, rfl⟩

/-- The reads that hand over something, or nothing, and where they leave the reader. -/
theorem next_ok (h : d.next n = (.ok bs, d')) :
    (bs = [] ∧ d' = d ∧ (n = 0 ∨ d.gcm = none)) ∨
      (∃ gcm, d.gcm = some gcm ∧ d.left = 0 ∧ d.checkTag gcm = (.ok bs, d')) ∨
      ∃ gcm, d.gcm = some gcm ∧ d.left ≠ 0 ∧ d.readData gcm n = (.ok bs, d') := by
  unfold next at h
  by_cases hn : n = 0
  · rw [if_pos hn] at h
    cases h
    exact .inl ⟨rfl, rfl, .inl hn⟩
  · rw [if_neg hn] at h
    split at h
    · next hg => cases h; exact .inl ⟨rfl, rfl, .inr hg⟩
    · next gcm hg =>
      by_cases hl : d.left = 0
      · rw [if_pos hl] at h; exact .inr (.inl ⟨gcm, hg, hl, h⟩)
      · rw [if_neg hl] at h; exact .inr (.inr ⟨gcm, hg, hl, h⟩)

/-- An interrupted read was one of ciphertext. -/
theorem next_retry (h : d.next n = (.error e, d')) (hi : interrupted e) :
    ∃ gcm src, d.gcm = some gcm ∧ read d.src (min d.left n) = (.error e, src) ∧
      d' = { d with src } := by
  unfold next at h
  by_cases hn : n = 0
  · rw [if_pos hn] at h; cases h
  · rw [if_neg hn] at h
    split at h
    · cases h
    · next gcm hg =>
      by_cases hl : d.left = 0
      · rw [if_pos hl] at h; rw [checkTag_error h] at hi; cases hi
      · rw [if_neg hl] at h
        obtain ⟨src, hr, hd⟩ := readData_error h hi
        exact ⟨gcm, src, hg, hr, hd⟩

instance : Read (GcmDecryptReader P ρ) IoError where
  read := next
  left d := Read.left d.src
  length_le h := by
    obtain ⟨rfl, -⟩ | ⟨gcm, -, -, h⟩ | ⟨gcm, -, -, h⟩ := next_ok h
    · exact Nat.zero_le _
    · rw [(checkTag_ok h).1]; exact Nat.zero_le _
    · obtain ⟨ct, src, -, hl, -, rfl, -⟩ := readData_ok h
      simpa [GcmStream.decrypt, GcmStream.applyCtr] using hl.trans (Nat.min_le_right _ _)
  left_le h := by
    obtain ⟨-, rfl, -⟩ | ⟨gcm, -, -, h⟩ | ⟨gcm, -, -, h⟩ := next_ok h
    · exact le_rfl
    · obtain ⟨-, src, rfl, -, hr⟩ := checkTag_ok h
      exact hr.left_le
    · obtain ⟨ct, src, -, -, hr, -, rfl⟩ := readData_ok h
      exact Read.left_le hr
  left_lt h hne := by
    obtain ⟨rfl, -⟩ | ⟨gcm, -, -, h⟩ | ⟨gcm, -, -, h⟩ := next_ok h
    · exact absurd rfl hne
    · exact absurd (checkTag_ok h).1 hne
    · obtain ⟨ct, src, hct, -, hr, -, rfl⟩ := readData_ok h
      exact Read.left_lt hr hct
  left_retry h hi := by
    obtain ⟨gcm, src, -, hr, rfl⟩ := next_retry h hi
    exact Read.left_retry hr hi

section

variable {key iv : Bytes} {src src' : ρ} {ctLen : ℕ} {plain : Bytes}

/-- The plaintext of a ciphertext. -/
def plainOf (P : Prims) (key iv ct : Bytes) : Bytes := Gcm.ctr (P.aes key) iv 16 ct

/-- What a decryption of `ctLen` bytes from `src` has come to, once it has handed
    over `plain`: some ciphertext is through; if it is all of it, maybe the tag
    that was found to be its own. -/
inductive Reached (P : Prims) (key iv : Bytes) (src : ρ) (ctLen : ℕ) :
    GcmDecryptReader P ρ → Bytes → Prop
  | data {src' : ρ} {ct : Bytes} {left : ℕ} (hr : Reads src ct src') (hl : ct.length + left = ctLen) :
      Reached P key iv src ctLen ⟨src', some (.absorbed P key iv ct ct.length), left⟩
        (plainOf P key iv ct)
  | done {src' : ρ} {ct : Bytes} (hl : ct.length = ctLen)
      (hr : Reads src (ct ++ Gcm.tag (P.aes key) iv ct) src') :
      Reached P key iv src ctLen ⟨src', none, 0⟩ (plainOf P key iv ct)

/-- Every read takes the decryption on. -/
theorem Reached.next (h : Reached P key iv src ctLen d plain) (hn : d.next n = (.ok bs, d')) :
    Reached P key iv src ctLen d' (plain ++ bs) ∧ (bs = [] → n ≠ 0 → d'.gcm = none) := by
  -- A read hands out nothing, or checks the tag once the ciphertext is through, or
  -- decrypts a piece.
  obtain ⟨rfl, rfl, h0⟩ | ⟨gcm, hg, hl, hc⟩ | ⟨gcm, hg, hl, hd⟩ := next_ok hn
  · rw [List.append_nil]
    exact ⟨h, fun _ hn0 => h0.resolve_left hn0⟩
  · cases h with
    | done => cases hg
    | @data src' ct left hr hlen =>
      cases hg
      obtain ⟨rfl, src'', rfl, -, ht⟩ := checkTag_ok hc
      simp only at hl ht ⊢
      subst hl
      rw [List.append_nil]
      refine ⟨?_, fun _ _ => trivial⟩
      exact .done (by simpa using hlen) (hr.trans ht)
  · cases h with
    | done => cases hg
    | @data src' ct left hr hlen =>
      cases hg
      obtain ⟨cs, src'', hne, hle, hread, rfl, rfl⟩ := readData_ok hd
      simp only at hread hle
      simp only [GcmStream.decrypt_eq]
      refine ⟨?_, fun h0 => absurd h0 ?_⟩
      · have hp : plainOf P key iv ct ++ Gcm.ctr (P.aes key) iv (16 + ct.length) cs =
            plainOf P key iv (ct ++ cs) := by rw [plainOf, plainOf, Gcm.ctr_append]
        rw [hp, ← List.length_append]
        refine .data (hr.trans (.single hread)) ?_
        rw [List.length_append]
        omega
      · intro h0
        exact hne (List.length_eq_zero_iff.1 (by rw [← Gcm.length_ctr, h0]; rfl))

/-- So do all reads, the interrupted ones included. -/
theorem Reached.reads (h : Reached P key iv src ctLen d plain) (hr : Reads d bs d') :
    Reached P key iv src ctLen d' (plain ++ bs) := by
  induction hr generalizing plain with
  | refl d => rwa [List.append_nil]
  | ok hread _ ih => rw [← List.append_assoc]; exact ih (h.next hread).1
  | retry hread hi _ ih =>
    obtain ⟨gcm, src'', hg, hr, rfl⟩ := next_retry hread hi
    refine ih ?_
    cases h with
    | done => cases hg
    | data hr' hl => exact .data (by simpa using hr'.trans (.retry hr hi (.refl _))) hl

/-- A decryption that came to its end has read as much ciphertext as was
    announced, then its tag, and handed over its plaintext. -/
theorem reads_ok (hr : Reads (new P src (.absorbed P key iv [] 0) ctLen) bs d)
    (hend : read d n = (.ok [], d')) (hn : n ≠ 0) :
    ∃ ct, ct.length = ctLen ∧ Reads src (ct ++ Gcm.tag (P.aes key) iv ct) d'.src ∧
      bs = plainOf P key iv ct := by
  have h0 : Reached P key iv src ctLen (new P src (.absorbed P key iv [] 0) ctLen) [] :=
    .data (.refl src) (Nat.zero_add _)
  obtain ⟨h, hg⟩ := (h0.reads hr).next hend
  rw [List.append_nil, List.nil_append] at h
  cases h with
  | data => cases hg rfl hn
  | done hl hr' => exact ⟨_, hl, hr', rfl⟩

/-- Over a source that presents a ciphertext under its tag, a decryption presents
    the plaintext, and leaves what comes after the tag. -/
theorem presents {ct rest : Bytes} {e : Option IoError}
    (hs : Presents src (ct ++ Gcm.tag (P.aes key) iv ct ++ rest) e) :
    Presents (new P src (.absorbed P key iv [] 0) ct.length) (plainOf P key iv ct) none := by
  -- The invariant: the ciphertext splits into what was handed out and what is still to
  -- come, of which the source presents the rest with the tag; or the tag was checked,
  -- and nothing is left.
  let I : GcmDecryptReader P ρ → Bytes → Prop := fun d bs =>
    (∃ done todo, ct = done ++ todo ∧ bs = Gcm.ctr (P.aes key) iv (16 + done.length) todo ∧
      Presents d.src (todo ++ Gcm.tag (P.aes key) iv ct ++ rest) e ∧
      d.gcm = some (.absorbed P key iv done done.length) ∧ d.left = todo.length) ∨
    d.gcm = none ∧ bs = []
  refine Presents.of_invariant I ?_ ?_ ?_
    (.inl ⟨[], ct, rfl, rfl, hs, rfl, rfl⟩)
  · rintro d bs (⟨done, todo, hct, rfl, hP, hg, hl⟩ | ⟨hg, rfl⟩) n hn
    · have hnext : d.next n = if d.left = 0 then d.checkTag (.absorbed P key iv done done.length)
          else d.readData (.absorbed P key iv done done.length) n := by
        simp only [next, if_neg hn.ne', hg]
      cases todo with
      -- Nothing is left but the tag, which is the one of the whole ciphertext.
      | nil =>
        rw [List.append_nil] at hct
        subst hct
        rw [List.nil_append] at hP
        obtain ⟨src', hread, -⟩ := hP.readFull_le (n := aesGcmTagLen) (by simp [aesGcmTagLen])
        have htake : (Gcm.tag (P.aes key) iv ct ++ rest).take aesGcmTagLen =
            Gcm.tag (P.aes key) iv ct := List.take_left' (Gcm.length_tag _ _ _)
        rw [htake] at hread
        refine ⟨{ d with src := src', gcm := none }, ?_⟩
        have hc : ctEq (GcmStream.absorbed P key iv ct ct.length).tag (Gcm.tag (P.aes key) iv ct) =
            true := ctEq_iff.2 (GcmStream.tag_eq _ _)
        show d.next n = _
        rw [hnext, if_pos (by simpa using hl), checkTag, hread]
        simp only [Gcm.length_tag, hc]
        rfl
      -- A piece of the ciphertext: it is read within what is left, so the tag is not
      -- touched.
      | cons b todo =>
        have hmin : 0 < min d.left n := by rw [hl]; simp; omega
        obtain ⟨piece, rest', src', hread, hne, heq, -⟩ := hP.read_cons hmin (by simp)
        have hle : piece.length ≤ (b :: todo).length :=
          hl ▸ (Read.length_le hread).trans (Nat.min_le_left _ _)
        have hpre : piece <+: b :: todo :=
          List.prefix_of_prefix_length_le ⟨rest', heq.symm⟩
            (by rw [List.append_assoc]; exact List.prefix_append _ _) hle
        have hread' : d.next n = (.ok (Gcm.ctr (P.aes key) iv (16 + done.length) piece),
            ⟨src', some (.absorbed P key iv (done ++ piece) (done.length + piece.length)),
              d.left - piece.length⟩) := by
          rw [hnext, if_neg (by rw [hl]; simp), readData, hread]
          obtain ⟨x, piece, rfl⟩ := List.exists_cons_of_ne_nil hne
          simp only [GcmStream.decrypt_eq]
        refine ⟨_, _, hread', ?_, ?_⟩
        · intro h0
          exact hne (List.length_eq_zero_iff.1 (by rw [← Gcm.length_ctr, h0]; rfl))
        · obtain ⟨t, ht⟩ := hpre
          show _ <+: Gcm.ctr (P.aes key) iv (16 + done.length) (b :: todo)
          rw [← ht, Gcm.ctr_append]
          exact List.prefix_append _ _
    · exact ⟨d, by show d.next n = _; simp [next, hn.ne', hg]⟩
  · rintro d bs n piece d' hI hread
    obtain ⟨rfl, rfl, -⟩ | ⟨gcm, hg, hl, hc⟩ | ⟨gcm, hg, hl, hd⟩ := next_ok hread
    · exact ⟨bs, rfl, hI⟩
    · obtain ⟨rfl, src', rfl, -, -⟩ := checkTag_ok hc
      obtain ⟨done, todo, hct, rfl, hP, hg', hl'⟩ | ⟨hg', -⟩ := hI
      · obtain rfl : todo = [] := List.length_eq_zero_iff.1 (by omega)
        exact ⟨[], rfl, .inr ⟨rfl, rfl⟩⟩
      · rw [hg] at hg'; cases hg'
    · obtain ⟨done, todo, hct, rfl, hP, hg', hl'⟩ | ⟨hg', -⟩ := hI
      · obtain ⟨cs, src', hne, hle, hr, rfl, rfl⟩ := readData_ok hd
        obtain rfl := Option.some.inj (hg.symm.trans hg')
        obtain ⟨rest', heq, hP'⟩ := hP.reads (.single hr)
        have hle' : cs.length ≤ todo.length := by omega
        obtain ⟨todo', rfl⟩ : cs <+: todo := List.prefix_of_prefix_length_le
          ⟨rest', heq.symm⟩ (by rw [List.append_assoc]; exact List.prefix_append _ _) hle'
        rw [List.append_assoc, List.append_assoc, List.append_cancel_left_eq] at heq
        subst heq
        refine ⟨Gcm.ctr (P.aes key) iv (16 + (done ++ cs).length) todo', ?_, .inl ?_⟩
        · rw [GcmStream.decrypt_eq, Gcm.ctr_append, List.length_append, Nat.add_assoc]
        · refine ⟨done ++ cs, todo', by rw [hct, List.append_assoc], rfl, ?_, ?_, ?_⟩
          · rwa [List.append_assoc]
          · simp only [GcmStream.decrypt_eq, List.length_append]
          · simp only [hl', List.length_append]; omega
      · rw [hg] at hg'; cases hg'
  · rintro d bs n err d' hI hread hi
    obtain ⟨gcm, src', hg, hr, rfl⟩ := next_retry hread hi
    obtain ⟨done, todo, hct, rfl, hP, hg', hl'⟩ | ⟨hg', -⟩ := hI
    · refine .inl ⟨done, todo, hct, rfl, ?_, hg', hl'⟩
      obtain ⟨rest', heq, hP'⟩ := hP.reads (.retry hr hi (.refl _))
      rw [List.nil_append] at heq
      exact heq ▸ hP'
    · rw [hg] at hg'; cases hg'

end

end GcmDecryptReader

/-! ### Writing -/

/-- A writer of the ciphertext of what it is given. -/
structure GcmEncryptWriter (P : Prims) (ω : Type) where
  dst : ω
  gcm : GcmStream

namespace GcmEncryptWriter

variable {P : Prims} {ω : Type} [Write ω IoError]

def next (w : GcmEncryptWriter P ω) (data : Bytes) : Except IoError ℕ × GcmEncryptWriter P ω :=
  let n := min data.length chunk
  let (ct, gcm) := w.gcm.encrypt P (data.take n)
  match writeAll w.dst ct with
  | (.ok (), dst) => (.ok n, { dst, gcm })
  | (.error e, dst) => (.error e, { dst, gcm })

/-- Write the tag. -/
def finish (w : GcmEncryptWriter P ω) : Except IoError Unit × ω := writeAll w.dst w.gcm.tag

variable {w w' : GcmEncryptWriter P ω} {data : Bytes} {n : ℕ}

theorem next_ok (h : w.next data = (.ok n, w')) :
    n = min data.length chunk ∧ w'.gcm = (w.gcm.encrypt P (data.take n)).2 ∧
      writeAll w.dst (w.gcm.encrypt P (data.take n)).1 = (.ok (), w'.dst) := by
  unfold next at h
  rcases hw : writeAll w.dst (w.gcm.encrypt P (data.take (min data.length chunk))).1
    with ⟨_ | _, dst⟩
  · simp only [hw] at h
    cases h
  · simp only [hw] at h
    cases h
    exact ⟨rfl, rfl, hw⟩

theorem next_error {e : IoError} (h : w.next data = (.error e, w')) : interrupted e = false := by
  unfold next at h
  rcases hw : writeAll w.dst (w.gcm.encrypt P (data.take (min data.length chunk))).1
    with ⟨_ | _, dst⟩
  · simp only [hw] at h
    cases h
    exact writeAll_not_interrupted hw
  · simp only [hw] at h
    cases h

instance : Write (GcmEncryptWriter P ω) IoError where
  write := next
  patience _ := 0
  le_length h := (next_ok h).1 ▸ Nat.min_le_left _ _
  patience_le _ := le_rfl
  patience_lt h hi := by rw [next_error h] at hi; cases hi

/-- A writer whose inner one takes what it is given takes what it is given. -/
theorem willing {I : ω → Prop} (hI : Willing I) :
    Willing fun w : GcmEncryptWriter P ω => I w.dst := by
  intro w data hw
  obtain ⟨dst, hwr, hdst⟩ :=
    hI.writeAll hw (w.gcm.encrypt P (data.take (min data.length chunk))).1
  refine ⟨min data.length chunk,
    ⟨dst, (w.gcm.encrypt P (data.take (min data.length chunk))).2⟩, ?_, ?_, hdst⟩
  · show next w data = _
    rw [next]
    simp only [hwr]
  · intro hne
    exact Nat.lt_min.2 ⟨List.length_pos_iff.2 hne, by decide⟩

/-- However it is cut, what is written comes out encrypted, and is absorbed. -/
theorem writes {key iv ct : Bytes} (hw : w.gcm = .absorbed P key iv ct ct.length)
    (h : Writes w data w') :
    Writes w.dst (Gcm.ctr (P.aes key) iv (16 + ct.length) data) w'.dst ∧
      w'.gcm = .absorbed P key iv (ct ++ Gcm.ctr (P.aes key) iv (16 + ct.length) data)
        (ct ++ Gcm.ctr (P.aes key) iv (16 + ct.length) data).length := by
  induction h generalizing ct with
  | refl w => exact ⟨.refl _, by rw [Gcm.ctr, List.append_nil, hw]⟩
  | @ok w w₁ w₂ n bs cs hwr _ ih =>
    obtain ⟨-, hg, hdst⟩ := next_ok hwr
    rw [hw, GcmStream.encrypt_eq] at hg hdst
    have hlen : (ct ++ Gcm.ctr (P.aes key) iv (16 + ct.length) (bs.take n)).length =
        ct.length + (bs.take n).length := by rw [List.length_append, Gcm.length_ctr]
    obtain ⟨ih₁, ih₂⟩ := ih (by rw [hg, hlen])
    rw [hlen, ← Nat.add_assoc] at ih₁ ih₂
    rw [Gcm.ctr_append, ← List.append_assoc]
    exact ⟨(writeAll_writes hdst).trans ih₁, ih₂⟩
  | retry hwr hi =>
    rw [next_error hwr] at hi
    cases hi

instance {ω : Type} [Flush ω IoError] : Flush (GcmEncryptWriter P ω) IoError where
  flush w := ((flush w.dst).1, { w with dst := (flush w.dst).2 })

end GcmEncryptWriter

end OdfCrypto

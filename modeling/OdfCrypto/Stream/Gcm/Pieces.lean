import OdfCrypto.Stream.Gcm

/-!
# AES-GCM streams, in pieces

However a text is cut, a stream encrypts, decrypts or absorbs it to the same
bytes and the same tag, and these are the ones of SP 800-38D.

* `GcmStream.encryptAll_eq`, `GcmStream.decryptAll_eq`, `GcmStream.absorbAll_eq`:
  what comes of the pieces is a function of the whole text;
* `GcmStream.pieces_eq`: two cuts of a text, and the construction.
-/

namespace OdfCrypto

open ByteStream

namespace GcmStream

variable (P : Prims)

/-- Encrypt pieces, one after the other: the ciphertext, and the stream. -/
def encryptAll (g : GcmStream) : List Bytes → Bytes × GcmStream
  | [] => ([], g)
  | piece :: pieces =>
    let (ct, g) := g.encrypt P piece
    let (cts, g) := encryptAll g pieces
    (ct ++ cts, g)

/-- Decrypt pieces, one after the other: the plaintext, and the stream. -/
def decryptAll (g : GcmStream) : List Bytes → Bytes × GcmStream
  | [] => ([], g)
  | piece :: pieces =>
    let (plain, g) := g.decrypt P piece
    let (plains, g) := decryptAll g pieces
    (plain ++ plains, g)

/-- Absorb pieces, one after the other. -/
def absorbAll (g : GcmStream) (pieces : List Bytes) : GcmStream := pieces.foldl absorb g

variable {P} {key iv : Bytes} {g : GcmStream}

theorem encryptAll_eq (ct : Bytes) (n : ℕ) (pieces : List Bytes) :
    (absorbed P key iv ct n).encryptAll P pieces =
      (Gcm.ctr (P.aes key) iv (16 + n) pieces.flatten,
        absorbed P key iv (ct ++ Gcm.ctr (P.aes key) iv (16 + n) pieces.flatten)
          (n + pieces.flatten.length)) := by
  induction pieces generalizing ct n with
  | nil => simp [encryptAll, Gcm.ctr]
  | cons piece pieces ih =>
    simp only [encryptAll, encrypt_eq, ih, List.flatten_cons, Gcm.ctr_append, List.append_assoc,
      List.length_append, Nat.add_assoc]

theorem decryptAll_eq (ct : Bytes) (n : ℕ) (pieces : List Bytes) :
    (absorbed P key iv ct n).decryptAll P pieces =
      (Gcm.ctr (P.aes key) iv (16 + n) pieces.flatten,
        absorbed P key iv (ct ++ pieces.flatten) (n + pieces.flatten.length)) := by
  induction pieces generalizing ct n with
  | nil => simp [decryptAll, Gcm.ctr]
  | cons piece pieces ih =>
    simp only [decryptAll, decrypt_eq, ih, List.flatten_cons, Gcm.ctr_append, List.append_assoc,
      List.length_append, Nat.add_assoc]

theorem absorbAll_eq (ct : Bytes) (n : ℕ) (pieces : List Bytes) :
    (absorbed P key iv ct n).absorbAll pieces = absorbed P key iv (ct ++ pieces.flatten) n := by
  induction pieces generalizing ct with
  | nil => simp [absorbAll]
  | cons piece pieces ih =>
    rw [List.flatten_cons, ← List.append_assoc, ← ih, absorbAll, List.foldl_cons, absorb_eq,
      absorbAll]

variable {pieces pieces' : List Bytes}

/-- What an encryption comes to: the ciphertext of the construction, under its tag. -/
theorem encryptAll_eq_construction (hE : ∀ block, (P.aes key block).length = 16)
    (hg : new P key iv = some g) :
    (g.encryptAll P pieces).1 =
        Gcm.gctr (P.aes key) (Gcm.inc32 (Gcm.counter0 iv)) pieces.flatten ∧
      (g.encryptAll P pieces).2.tag = Gcm.authTag (P.aes key) iv (g.encryptAll P pieces).1 := by
  obtain ⟨hiv, -, rfl⟩ := new_eq_some.1 hg
  rw [encryptAll_eq, tag_eq]
  exact ⟨Gcm.ctr_eq_gctr hiv hE _, Gcm.tag_eq_authTag hE _⟩

/-- What a decryption comes to: the plaintext of the construction, and the tag of
    the ciphertext. -/
theorem decryptAll_eq_construction (hE : ∀ block, (P.aes key block).length = 16)
    (hg : new P key iv = some g) :
    (g.decryptAll P pieces).1 =
        Gcm.gctr (P.aes key) (Gcm.inc32 (Gcm.counter0 iv)) pieces.flatten ∧
      (g.decryptAll P pieces).2.tag = Gcm.authTag (P.aes key) iv pieces.flatten := by
  obtain ⟨hiv, -, rfl⟩ := new_eq_some.1 hg
  rw [decryptAll_eq, tag_eq]
  exact ⟨Gcm.ctr_eq_gctr hiv hE _, Gcm.tag_eq_authTag hE _⟩

/-- A verification comes to the tag of the ciphertext. -/
theorem absorbAll_eq_construction (hE : ∀ block, (P.aes key block).length = 16)
    (hg : new P key iv = some g) :
    (g.absorbAll pieces).tag = Gcm.authTag (P.aes key) iv pieces.flatten := by
  obtain ⟨-, -, rfl⟩ := new_eq_some.1 hg
  rw [absorbAll_eq, tag_eq]
  exact Gcm.tag_eq_authTag hE _

/-- However the ciphertext of an encryption is cut, its decryption is what was
    encrypted, under the same tag. -/
theorem decryptAll_encryptAll (hg : new P key iv = some g)
    (h : pieces'.flatten = (g.encryptAll P pieces).1) :
    (g.decryptAll P pieces').1 = pieces.flatten ∧
      (g.decryptAll P pieces').2.tag = (g.encryptAll P pieces).2.tag := by
  obtain ⟨-, -, rfl⟩ := new_eq_some.1 hg
  rw [encryptAll_eq] at h
  rw [decryptAll_eq, encryptAll_eq, h, tag_eq, tag_eq]
  exact ⟨Gcm.ctr_ctr _ _ _ _, rfl⟩

/-- Two ways of cutting a text come to the same bytes and the same tag, in each of
    the three directions: those of the construction on the whole text. What is
    absorbed and what is decrypted come to the same tag, and decrypting undoes
    encrypting. -/
theorem pieces_eq (hE : ∀ block, (P.aes key block).length = 16) (hg : new P key iv = some g)
    (h : pieces.flatten = pieces'.flatten) :
    let text := pieces.flatten
    let turned := Gcm.gctr (P.aes key) (Gcm.inc32 (Gcm.counter0 iv)) text
    ((g.encryptAll P pieces).1 = turned ∧ (g.encryptAll P pieces').1 = turned ∧
      (g.encryptAll P pieces).2.tag = Gcm.authTag (P.aes key) iv turned ∧
      (g.encryptAll P pieces').2.tag = Gcm.authTag (P.aes key) iv turned) ∧
    ((g.decryptAll P pieces).1 = turned ∧ (g.decryptAll P pieces').1 = turned ∧
      (g.decryptAll P pieces).2.tag = Gcm.authTag (P.aes key) iv text ∧
      (g.decryptAll P pieces').2.tag = Gcm.authTag (P.aes key) iv text) ∧
    ((g.absorbAll pieces).tag = Gcm.authTag (P.aes key) iv text ∧
      (g.absorbAll pieces').tag = (g.decryptAll P pieces).2.tag) ∧
    ∀ cut, cut.flatten = turned →
      (g.decryptAll P cut).1 = text ∧
        (g.decryptAll P cut).2.tag = (g.encryptAll P pieces).2.tag := by
  intro text turned
  obtain ⟨he, het⟩ := @encryptAll_eq_construction P key iv g pieces hE hg
  obtain ⟨he', het'⟩ := @encryptAll_eq_construction P key iv g pieces' hE hg
  obtain ⟨hd, hdt⟩ := @decryptAll_eq_construction P key iv g pieces hE hg
  obtain ⟨hd', hdt'⟩ := @decryptAll_eq_construction P key iv g pieces' hE hg
  have ha := @absorbAll_eq_construction P key iv g pieces hE hg
  have ha' := @absorbAll_eq_construction P key iv g pieces' hE hg
  rw [he] at het
  rw [he', ← h] at het'
  rw [← h] at he' hd' hdt' ha'
  refine ⟨⟨he, he', het, het'⟩, ⟨hd, hd', hdt, hdt'⟩, ⟨ha, ha'.trans hdt.symm⟩, fun cut hcut => ?_⟩
  exact decryptAll_encryptAll hg (hcut.trans he.symm)

/-- The second test vector of AES-GCM, whole and in three pieces. -/
theorem pieces_eq_sample :
    let g := absorbed knownPrims (List.replicate 16 0) (List.replicate 12 0) [] 0
    let pieces := [List.replicate 16 0]
    let pieces' := [List.replicate 5 0, [], List.replicate 11 0]
    (g.encryptAll knownPrims pieces).1 = (g.encryptAll knownPrims pieces').1 ∧
      (g.encryptAll knownPrims pieces).2.tag = (g.encryptAll knownPrims pieces').2.tag := by
  have hE : ∀ block, (knownPrims.aes (List.replicate 16 0) block).length = 16 := by
    intro block
    show (zeroKeyAes _ _).length = 16
    unfold zeroKeyAes
    split_ifs <;> rfl
  obtain ⟨⟨h₁, h₂, h₃, h₄⟩, -⟩ := @pieces_eq knownPrims (List.replicate 16 0)
    (List.replicate 12 0) _ [List.replicate 16 0] [List.replicate 5 0, [], List.replicate 11 0] hE
    (new_eq_some.2 ⟨rfl, .inl rfl, rfl⟩) rfl
  exact ⟨h₁.trans h₂.symm, h₃.trans h₄.symm⟩

end GcmStream

end OdfCrypto

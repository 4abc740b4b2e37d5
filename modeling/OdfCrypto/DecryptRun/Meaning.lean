import OdfCrypto.EncryptStream.RoundTrip
import OdfCrypto.Stream.Inflate.Contract

/-!
# What a wholesome package means

The decryption of a wholesome package opens its member again and again, for each key
that the password may stand for and once more, and reads it in pieces. Over a package
that reads the same every time, all this comes to one relation between the content
of the package and the plaintext (`Package.Opens`): the member that the row names is
what a stream was sealed to, under the first key that is good for it, and the stream
inflates to the plaintext, of the size that the row announces.

* `FirstKey`: the first of some candidates that is good, with those before it bad;
* `findKey_iff`: what is found on the ladder of keys, from any state of a run;
* `Package.opens_of_wholesome`, `Package.Opens.wholesome`: what was decrypted was what
  the package opens to, and what it opens to is decrypted.
-/

namespace OdfCrypto

open ByteStream Text Deflate

/-! ### The first key that is good -/

section

variable {α β : Type} {ε : Type}

/-- The key is made of the first candidate that makes a good one; those before it make
    bad ones. -/
inductive FirstKey (make : α → Except ε β) (good bad : β → Prop) (key : β) : List α → Prop
  | here {a : α} {as : List α} (hm : make a = .ok key) (hr : good key) :
      FirstKey make good bad key (a :: as)
  | later {a : α} {as : List α} {other : β} (hm : make a = .ok other) (hw : bad other)
      (h : FirstKey make good bad key as) : FirstKey make good bad key (a :: as)

variable {make : α → Except ε β} {good bad : β → Prop} {key key' : β} {l : List α}

theorem FirstKey.isGood (h : FirstKey make good bad key l) : good key := by
  induction h with
  | here _ hr => exact hr
  | later _ _ _ ih => exact ih

/-- There is one first key, as no key is both good and bad. -/
theorem FirstKey.unique (hne : ∀ key, good key → ¬ bad key)
    (h : FirstKey make good bad key l) (h' : FirstKey make good bad key' l) : key = key' := by
  induction h with
  | here hm hr =>
    rcases h' with ⟨hm', -⟩ | ⟨hm', hw', -⟩
    · exact Except.ok.inj (hm.symm.trans hm')
    · obtain rfl := Except.ok.inj (hm.symm.trans hm')
      exact absurd hw' (hne _ hr)
  | later hm hw _ ih =>
    rcases h' with ⟨hm', hr'⟩ | ⟨-, -, h'⟩
    · obtain rfl := Except.ok.inj (hm.symm.trans hm')
      exact absurd hw (hne _ hr')
    · exact ih h'

end

section

variable {ω : Type} {P : Prims} {row : EntryEncryption} {limits : DecryptLimits} {sk key : Bytes}

/-- The key that a start key makes for a row. -/
def rowKey (P : Prims) (row : EntryEncryption) (limits : DecryptLimits) (sk : Bytes) :
    Except DecryptError Bytes :=
  (deriveKey P row sk limits ({ out := () } : Run Unit)).1

/-- A key is derived the same in every state of every run. -/
theorem deriveKey_result (s : Run ω) :
    (deriveKey P row sk limits s).1 = rowKey P row limits sk := by
  unfold rowKey deriveKey
  split
  · rfl
  · rcases row.kdf with ⟨iterations, salt⟩ | ⟨t, m, p, salt⟩ | -
    · rcases hi : screenIterations iterations limits with e | iters
      · simp only [Prog.bind_apply, Prog.lift_apply, hi]
      · simp only [Prog.bind_apply, Prog.lift_apply, hi, record, Prog.modify_apply, Prog.pure_apply]
    · rcases hs : (screenArgon2 t m p salt limits).mapError kdfError with e | u
      · simp only [Prog.bind_apply, Prog.lift_apply, hs]
      · simp only [Prog.bind_apply, Prog.lift_apply, hs, record, Prog.modify_apply]
    · rfl

theorem deriveKey_of_rowKey (h : rowKey P row limits sk = .ok key) (s : Run ω) :
    ∃ s', deriveKey P row sk limits s = (.ok key, s') := by
  refine ⟨(deriveKey P row sk limits s).2, Prod.ext ?_ rfl⟩
  exact (deriveKey_result s).trans h

theorem rowKey_of_deriveKey {s s' : Run ω} (h : deriveKey P row sk limits s = (.ok key, s')) :
    rowKey P row limits sk = .ok key := by
  rw [← deriveKey_result s, h]

/-- A test of keys that tells good from bad, in every state of a run. -/
structure Tells (accepts : Bytes → Decrypt ω Bool) (good bad : Bytes → Prop) : Prop where
  accepted : ∀ {key s s'}, accepts key s = (.ok true, s') → good key
  refused : ∀ {key s s'}, accepts key s = (.ok false, s') → bad key
  of_good : ∀ {key}, good key → ∀ s, ∃ s', accepts key s = (.ok true, s')
  of_bad : ∀ {key}, bad key → ∀ s, ∃ s', accepts key s = (.ok false, s')

/-- What is found on the ladder of keys is the first key that is good. -/
theorem findKey_iff {accepts : Bytes → Decrypt ω Bool} {good bad : Bytes → Prop}
    (ht : Tells accepts good bad) {password : Str} (s : Run ω) :
    (∃ s', findKey P row password limits accepts s = (.ok key, s')) ↔
      FirstKey (rowKey P row limits) good bad key (startKeys P row password) := by
  unfold findKey
  -- Induction over the start keys: the first one whose key is accepted ends the
  -- search.
  induction startKeys P row password generalizing s with
  | nil => exact ⟨fun ⟨_, h⟩ => (nomatch h), fun h => (nomatch h)⟩
  | cons sk sks ih =>
    constructor
    · rintro ⟨s', h⟩
      obtain ⟨found, s₁, ha, h⟩ := Prog.bind_eq_ok.1 h
      obtain ⟨other, s₂, hd, ha⟩ := Prog.bind_eq_ok.1 ha
      obtain ⟨ok, s₃, hacc, ha⟩ := Prog.bind_eq_ok.1 ha
      have hmake := rowKey_of_deriveKey hd
      cases ha
      cases ok with
      | true =>
        cases h
        exact .here hmake (ht.accepted hacc)
      | false => exact .later hmake (ht.refused hacc) ((ih s₁).1 ⟨s', h⟩)
    · intro h
      have hattempt {other : Bytes} {b : Bool} (hm : rowKey P row limits sk = .ok other)
          (hacc : ∀ s, ∃ s', accepts other s = (.ok b, s')) : ∃ s₁,
          attempt P row limits accepts sk s = (.ok (if b then some other else none), s₁) := by
        obtain ⟨s₁, hd⟩ := deriveKey_of_rowKey hm s
        obtain ⟨s₂, ha⟩ := hacc s₁
        refine ⟨s₂, ?_⟩
        rw [attempt, Prog.bind_of_ok hd, Prog.bind_of_ok ha]
        rfl
      rcases h with ⟨hm, hr⟩ | ⟨hm, hw, h⟩
      · obtain ⟨s₁, ha⟩ := hattempt hm (ht.of_good hr)
        exact ⟨s₁, Prog.bind_of_ok ha⟩
      · obtain ⟨s₁, ha⟩ := hattempt hm (ht.of_bad hw)
        obtain ⟨s', hrest⟩ := (ih s₁).2 h
        exact ⟨s', (Prog.bind_of_ok ha).trans hrest⟩

end

/-! ### Sealed bodies -/

section

variable {P : Prims} {key iv body ct tag : Bytes}

/-- The body is what some stream was sealed to under the key. -/
def Authentic (P : Prims) (iv body key : Bytes) : Prop :=
  GcmLens key iv ∧ ∃ stream, body = sealedBody P key iv stream

/-- The body is not what any stream is sealed to under the key. -/
def Forged (P : Prims) (iv body key : Bytes) : Prop :=
  GcmLens key iv ∧ ∀ stream, body ≠ sealedBody P key iv stream

/-- A stream is sealed to one body, and a body to one stream. -/
theorem sealedBody_inj {stream stream' : Bytes}
    (h : sealedBody P key iv stream = sealedBody P key iv stream') : stream = stream' := by
  rw [sealedBody, sealedBody, List.append_cancel_left_eq, sealedCode, sealedCode] at h
  have hct := (List.append_inj' h (by rw [Gcm.length_tag, Gcm.length_tag])).1
  have hback := congrArg (Gcm.ctr (P.aes key) iv 16) hct
  rwa [Gcm.ctr_ctr, Gcm.ctr_ctr] at hback

/-- A body is sealed under a key just when its tag is that of its ciphertext. -/
theorem sealed_iff (htag : tag.length = aesGcmTagLen) :
    (∃ stream, iv ++ (ct ++ tag) = sealedBody P key iv stream) ↔
      Gcm.tag (P.aes key) iv ct = tag := by
  constructor
  · rintro ⟨stream, h⟩
    rw [sealedBody, List.append_cancel_left_eq, sealedCode] at h
    obtain ⟨rfl, rfl⟩ := List.append_inj' h (by rw [Gcm.length_tag, htag]; rfl)
    rfl
  · rintro rfl
    exact ⟨Gcm.ctr (P.aes key) iv 16 ct, by rw [sealedBody, sealedCode, Gcm.ctr_ctr]⟩

variable {ρ ω : Type} [Read ρ IoError] {archive : Archive ρ} {index len : ℕ}
  {row : EntryEncryption} {b : Bool} {s s' : Run ω}

/-- The verification of a member came to an answer. -/
theorem gcmAccepts_inv (h : gcmAccepts P archive index row len key s = (.ok b, s')) :
    ∃ r r₁ r', PastIv archive index s.opened r ∧
      gcmVerify P key row.iv r (ctLen len) = (.ok b, r₁) ∧ readFull r₁ 1 = (.ok [], r') := by
  obtain ⟨r, s₁, ho, h⟩ := Prog.bind_eq_ok.1 h
  obtain ⟨hr, rfl⟩ := openAfterIv_eq_ok ho
  obtain ⟨⟨ok, r₁⟩, hv, h⟩ := Prog.lift_bind_eq_ok.1 h
  obtain ⟨_, s₂, he, h⟩ := Prog.bind_eq_ok.1 h
  obtain rfl : ok = b := by cases h; rfl
  rcases hg : gcmVerify P key row.iv r (ctLen len) with ⟨e | b, r₂⟩ <;> rw [hg] at hv <;> cases hv
  obtain ⟨⟨one, r'⟩, s₃, hone, he⟩ := Prog.bind_eq_ok.1 he
  obtain ⟨hread, rfl⟩ := readSome_eq_ok hone
  obtain ⟨hnil, -⟩ | ⟨-, he⟩ := Prog.ite_eq_ok.1 he
  · obtain rfl : one = [] := hnil
    exact ⟨r, _, r', hr, hg, hread⟩
  · cases he

theorem gcmAccepts_lens (h : gcmAccepts P archive index row len key s = (.ok b, s')) :
    GcmLens key row.iv := by
  obtain ⟨r, r₁, -, -, hv, -⟩ := gcmAccepts_inv h
  unfold gcmVerify at hv
  rcases hg : GcmStream.new P key row.iv with - | gcm <;> rw [hg] at hv
  · cases hv
  obtain ⟨hiv, hkey, -⟩ := GcmStream.new_eq_some.1 hg
  exact ⟨hiv, hkey⟩

/-- The verification of a member whose every opening presents the same. -/
theorem gcmAccepts_holds (hbody : MemberHolds archive index (row.iv ++ (ct ++ tag)))
    (htag : tag.length = aesGcmTagLen) (hlens : GcmLens key row.iv) (s : Run ω) :
    gcmAccepts P archive index row (row.iv ++ (ct ++ tag)).length key s =
      (.ok (ctEq (Gcm.tag (P.aes key) row.iv ct) tag), { s with opened := s.opened + 1 }) := by
  have hle : aesGcmIvLen ≤ (row.iv ++ (ct ++ tag)).length := by
    rw [List.length_append, hlens.1]
    omega
  have hct : ctLen (row.iv ++ (ct ++ tag)).length = ct.length := by
    rw [ctLen, List.length_append, List.length_append, hlens.1, htag]
    omega
  obtain ⟨r, hp, ho⟩ := openAfterIv_holds hbody hle s
  rw [← hlens.1, List.drop_left, ← List.append_nil (ct ++ tag)] at hp
  obtain ⟨r', hv, hp'⟩ := gcmVerify_presents hlens hp htag
  rw [gcmAccepts, Prog.bind_of_ok ho, hct, hv]
  exact Prog.bind_of_ok (ensureEnd_presents hp' _)

/-- The verification tells the keys that the member is sealed under from the others. -/
theorem tells_holds (hbody : MemberHolds archive index body) {ct tag : Bytes}
    (heq : body = row.iv ++ (ct ++ tag)) (htag : tag.length = aesGcmTagLen) :
    Tells (gcmAccepts P archive index row body.length : Bytes → Decrypt ω Bool)
      (Authentic P row.iv body) (Forged P row.iv body) := by
  subst heq
  -- The answer is whether the tag over the ciphertext is the one in the member.
  have hanswer {key : Bytes} {b : Bool} {s s' : Run ω} (h : gcmAccepts P archive index row
      (row.iv ++ (ct ++ tag)).length key s = (.ok b, s')) :
      GcmLens key row.iv ∧ (b = true ↔ Gcm.tag (P.aes key) row.iv ct = tag) := by
    have hlens := gcmAccepts_lens h
    rw [gcmAccepts_holds hbody htag hlens s] at h
    obtain rfl := Except.ok.inj (Prod.mk.inj h).1
    exact ⟨hlens, ctEq_iff⟩
  constructor
  · intro key s s' h
    obtain ⟨hlens, hb⟩ := hanswer h
    exact ⟨hlens, (sealed_iff htag).2 (hb.1 rfl)⟩
  · intro key s s' h
    obtain ⟨hlens, hb⟩ := hanswer h
    refine ⟨hlens, fun stream heq => Bool.false_ne_true (hb.2 ?_)⟩
    exact (sealed_iff htag).1 ⟨stream, heq⟩
  · rintro key ⟨hlens, hsealed⟩ s
    refine ⟨{ s with opened := s.opened + 1 }, ?_⟩
    rw [gcmAccepts_holds hbody htag hlens s, ctEq_iff.2 ((sealed_iff htag).1 hsealed)]
  · rintro key ⟨hlens, hforged⟩ s
    have hne : ctEq (Gcm.tag (P.aes key) row.iv ct) tag = false := by
      rw [← Bool.not_eq_true, ctEq_iff]
      intro h
      obtain ⟨stream, heq⟩ := (sealed_iff htag).2 h
      exact hforged stream heq
    refine ⟨{ s with opened := s.opened + 1 }, ?_⟩
    rw [gcmAccepts_holds hbody htag hlens s, hne]

end

/-! ### Packages -/

/-- What the directory says of an entry. -/
def Package.file (p : Package) (index : ℕ) : FileData := p.directory.getD index { nameRaw := [] }

/-- The entry at an index is the first whose name matches a path, and every entry up to
    it opens. -/
def Package.LeadsTo (p : Package) (path : Str) (index : ℕ) : Prop :=
  ∃ before file after, p.directory.zipIdx = before ++ (file, index) :: after ∧
    (∀ entry ∈ before, memberMatchesPath (zipEntryName entry.1.nameRaw) path = false) ∧
    memberMatchesPath (zipEntryName file.nameRaw) path = true ∧
    ∀ entry ∈ before ++ [(file, index)], ∃ content, p.content entry.2 = .ok content

/-- The member of a row is what a stream was sealed to, under the first key that is good
    for it. -/
structure Package.SealedBy (P : Prims) (p : Package) (row : EntryEncryption) (password : Str)
    (limits : DecryptLimits) (index : ℕ) (key stream : Bytes) : Prop where
  member : p.LeadsTo row.path index
  content : p.content index = .ok (sealedBody P key row.iv stream, none)
  size : (p.file index).size = (sealedBody P key row.iv stream).length
  cipher : row.cipher = .aesGcmW3c
  keyLen : cipherAcceptsKeyLen row.cipher row.derivedKeyLen = true
  key : FirstKey (rowKey P row limits) (Authentic P row.iv (sealedBody P key row.iv stream))
    (Forged P row.iv (sealedBody P key row.iv stream)) key (startKeys P row password)

/-- A wholesome package opens to the plaintext: the member of its row is what a stream
    was sealed to, and the stream inflates to it. -/
structure Package.OpensBy (P : Prims) (p : Package) (row : EntryEncryption) (password : Str)
    (limits : DecryptLimits) (sizes : Sizes) (data : Bytes) (index : ℕ) (key stream : Bytes) :
    Prop extends p.SealedBy P row password limits index key stream where
  inflates : ∃ used, P.inflater.EndsAt chunk inflateWindow stream false used data
  declared : sizes.declared row.size = .ok data.length
  inLimit : data.length ≤ limits.maxOutputBytes

def Package.Opens (P : Prims) (p : Package) (row : EntryEncryption) (password : Str)
    (limits : DecryptLimits) (sizes : Sizes) (data : Bytes) : Prop :=
  ∃ index key stream, p.OpensBy P row password limits sizes data index key stream

section

variable {P : Prims} {p : Package} {row : EntryEncryption} {password : Str} {limits : DecryptLimits}
  {sizes : Sizes} {data data' : Bytes} {path : Str} {index index' : ℕ}

theorem Package.LeadsTo.find? (h : p.LeadsTo path index) : ∃ file,
    (p.directory.zipIdx.find? fun entry => memberMatchesPath (zipEntryName entry.1.nameRaw) path) =
      some (file, index) := by
  obtain ⟨before, file, after, hdir, hbefore, hm, -⟩ := h
  refine ⟨file, ?_⟩
  have hnone : (before.find? fun entry =>
      memberMatchesPath (zipEntryName entry.1.nameRaw) path) = none := by
    rw [List.find?_eq_none]
    intro entry hmem
    rw [hbefore entry hmem]
    exact Bool.false_ne_true
  rw [hdir, List.find?_append, hnone, Option.none_or, List.find?_cons_of_pos]
  exact hm

theorem Package.LeadsTo.unique (h : p.LeadsTo path index) (h' : p.LeadsTo path index') :
    index = index' := by
  obtain ⟨file, hf⟩ := h.find?
  obtain ⟨file', hf'⟩ := h'.find?
  exact (Prod.mk.inj (Option.some.inj (hf.symm.trans hf'))).2

/-- One stream was sealed to a member. -/
theorem Package.SealedBy.unique {key key' stream stream' : Bytes}
    (h : p.SealedBy P row password limits index key stream)
    (h' : p.SealedBy P row password limits index' key' stream') : stream = stream' := by
  obtain rfl := h.member.unique h'.member
  have hbody := (Prod.mk.inj (Except.ok.inj (h.content.symm.trans h'.content))).1
  have hkey' := h'.key
  rw [← hbody] at hkey'
  obtain rfl : key = key' := by
    refine h.key.unique ?_ hkey'
    rintro other ⟨-, stream, hs⟩ ⟨-, hf⟩
    exact hf stream hs
  exact sealedBody_inj hbody

/-- A package opens to one plaintext. -/
theorem Package.Opens.unique (h : p.Opens P row password limits sizes data)
    (h' : p.Opens P row password limits sizes data') : data = data' := by
  obtain ⟨index, key, stream, h⟩ := h
  obtain ⟨index', key', stream', h'⟩ := h'
  obtain rfl := h.toSealedBy.unique h'.toSealedBy
  obtain ⟨used, he⟩ := h.inflates
  obtain ⟨used', he'⟩ := h'.inflates
  exact (he.unique he').2

variable {ρ ω : Type} [Read ρ IoError] {archive : Archive ρ}

theorem Archive.Holds.file (h : archive.Holds p) (index : ℕ) : archive.file index = p.file index := by
  rw [Archive.file, Package.file, h.directory]

/-- A member that opens presents what the package has for it. -/
theorem Archive.Holds.opened (h : archive.Holds p) {k : ℕ} {file : ρ}
    (ho : archive.byIndex k index = .ok file) :
    ∃ bs e, p.content index = .ok (bs, e) ∧ Presents file bs e := by
  have hgives := h.content k index
  rcases hc : p.content index with err | ⟨bs, e⟩ <;> rw [hc] at hgives
  · cases ho.symm.trans (show archive.byIndex k index = .error err from hgives)
  · obtain ⟨file', ho', hp⟩ := hgives
    obtain rfl := Except.ok.inj (ho.symm.trans ho')
    exact ⟨bs, e, rfl, hp⟩

theorem Archive.Holds.memberHolds (h : archive.Holds p) {body : Bytes}
    (hc : p.content index = .ok (body, none)) (hsize : (p.file index).size = body.length) :
    MemberHolds archive index body where
  size := by rw [h.file, hsize]
  opens k := by
    have hgives := h.content k index
    rw [hc] at hgives
    exact hgives

/-- A lookup comes to an entry just when the package leads to it. -/
theorem memberForArchive_iff (h : archive.Holds p) (missing : DecryptError) (s : Run ω) :
    (∃ name s', memberForArchive archive path missing s = (.ok (index, name), s')) ↔
      p.LeadsTo path index := by
  unfold memberForArchive Package.LeadsTo
  rw [h.directory]
  -- The lookup opens each entry on its way to the first match, so every one before it
  -- must open.
  induction p.directory.zipIdx generalizing s with
  | nil =>
    constructor
    · rintro ⟨name, s', h⟩
      cases h
    · rintro ⟨before, file, after, hdir, -⟩
      cases before <;> cases hdir
  | cons entry entries ih =>
    obtain ⟨file, i⟩ := entry
    constructor
    · rintro ⟨name, s', hfirst⟩
      rw [firstMember] at hfirst
      obtain ⟨r, s₁, ho, hfirst⟩ := Prog.bind_eq_ok.1 hfirst
      obtain ⟨bs, e, hcontent, -⟩ := h.opened (openMember_eq_ok ho).1
      obtain ⟨hm, hdone⟩ | ⟨hm, hrest⟩ := Prog.ite_eq_ok.1 hfirst
      · cases hdone
        refine ⟨[], file, entries, rfl, fun _ hmem => absurd hmem List.not_mem_nil, hm, ?_⟩
        intro entry hmem
        obtain rfl := List.mem_singleton.1 hmem
        exact ⟨_, hcontent⟩
      · obtain ⟨before, file', after, rfl, hbefore, hm', hopen⟩ := (ih s₁).1 ⟨name, s', hrest⟩
        refine ⟨(file, i) :: before, file', after, rfl, ?_, hm', ?_⟩
        · rw [List.forall_mem_cons]
          exact ⟨Bool.eq_false_iff.2 hm, hbefore⟩
        · rw [List.cons_append, List.forall_mem_cons]
          exact ⟨⟨_, hcontent⟩, hopen⟩
    · rintro ⟨before, file', after, hdir, hbefore, hm, hopen⟩
      have hstep {i : ℕ} {content : Content} (hc : p.content i = .ok content) (s : Run ω) :
          ∃ r, openMember archive i s = (.ok r, { s with opened := s.opened + 1 }) := by
        have hgives := h.content s.opened i
        rw [hc] at hgives
        obtain ⟨r, ho, -⟩ := hgives
        exact ⟨r, by rw [openMember, ho]; rfl⟩
      rcases before with - | ⟨entry, before⟩
      · obtain ⟨hentry, rfl⟩ := List.cons.inj hdir
        obtain ⟨rfl, rfl⟩ := Prod.mk.inj hentry
        obtain ⟨content, hc⟩ := hopen _ (List.mem_append_right _ List.mem_cons_self)
        obtain ⟨r, ho⟩ := hstep hc s
        refine ⟨zipEntryName file.nameRaw, { s with opened := s.opened + 1 }, ?_⟩
        rw [firstMember, Prog.bind_of_ok ho, if_pos hm]
        rfl
      · obtain ⟨rfl, hrest⟩ := List.cons.inj hdir
        rw [List.forall_mem_cons] at hbefore
        rw [List.cons_append, List.forall_mem_cons] at hopen
        obtain ⟨content, hc⟩ := hopen.1
        obtain ⟨r, ho⟩ := hstep hc s
        obtain ⟨name, s', hfirst⟩ := (ih { s with opened := s.opened + 1 }).2
          ⟨before, file', after, hrest, hbefore.2, hm, hopen.2⟩
        refine ⟨name, s', ?_⟩
        rw [firstMember, Prog.bind_of_ok ho, hbefore.1, if_neg Bool.false_ne_true]
        exact hfirst

end

/-! ### A wholesome package -/

section

variable {ρ ω : Type} [Read ρ IoError] {P : Prims} {archive : Archive ρ} {p : Package} {index len : ℕ}
  {row : EntryEncryption} {password : Str} {limits : DecryptLimits} {sizes : Sizes}
  {key head data body : Bytes}

/-- The checks of an AES-GCM row and its member that need no key. -/
theorem screenShape_gcm_iff (hcipher : row.cipher = .aesGcmW3c) :
    screenShape row len head = .ok () ↔ cipherAcceptsKeyLen row.cipher row.derivedKeyLen = true ∧
      row.iv.length = aesGcmIvLen ∧ aesGcmIvLen + aesGcmTagLen ≤ len ∧ aesGcmIvLen ≤ head.length ∧
        head.take aesGcmIvLen = row.iv := by
  unfold screenShape
  rcases hkey : cipherAcceptsKeyLen row.cipher row.derivedKeyLen with - | -
  · simp
  by_cases hiv : row.iv.length = aesGcmIvLen
  · simp only [hcipher, screenIvLen, hiv]
    simp only [bind, Except.bind]
    split_ifs with h1 h2 <;> simp_all
    omega
  · simp only [hcipher, screenIvLen, if_neg hiv]
    simp [hiv, bind, Except.bind]

/-- A member on which a key could be tested is whole: it presents as many bytes as a
    member of its length has, and no error after them. -/
theorem gcmAccepts_content (h : archive.Holds p) {b : Bool} {s s' : Run ω}
    (ha : gcmAccepts P archive index row len key s = (.ok b, s')) :
    ∃ body, p.content index = .ok (body, none) ∧
      body.length = aesGcmIvLen + (ctLen len + aesGcmTagLen) := by
  obtain ⟨r, r₁, r', ⟨file, head, ho, hhead, hlen⟩, hv, hend⟩ := gcmAccepts_inv ha
  obtain ⟨body, e, hc, hp⟩ := h.opened ho
  obtain ⟨rest, rfl, hp₁⟩ := hp.reads (readFull_reads hhead).1
  obtain ⟨ct, tag, hreads, hct, htag, -⟩ := gcmVerify_ok hv
  obtain ⟨left, rfl, hp₂⟩ := hp₁.reads hreads
  -- what is left is nothing, as nothing was read of it
  have hleft : left = [] := by
    by_contra hne
    obtain ⟨r₂, hread, -⟩ := hp₂.readFull_le (List.length_pos_iff.2 hne)
    rw [hread] at hend
    have hnil := congrArg List.length (Except.ok.inj (Prod.mk.inj hend).1)
    rw [List.length_take_of_le (List.length_pos_iff.2 hne)] at hnil
    cases hnil
  subst hleft
  have he : e = none := by
    rcases e with - | err
    · rfl
    · obtain ⟨r₂, hread⟩ := hp₂.readFull_error (n := 1) Nat.one_pos
      cases hread.symm.trans hend
  subst he
  refine ⟨_, hc, ?_⟩
  rw [List.append_nil, List.length_append, List.length_append, hlen, hct, htag]

/-- The first bytes of a member that is whole. -/
theorem memberShape_head (h : archive.Holds p) {s s' : Run ω}
    (hs : memberShape archive index s = (.ok (len, head), s'))
    (hc : p.content index = .ok (body, none)) : head = body.take aesGcmIvLen := by
  obtain ⟨file, s₁, ho, hs⟩ := Prog.bind_eq_ok.1 hs
  obtain ⟨⟨head', r⟩, s₂, hr, hs⟩ := Prog.bind_eq_ok.1 hs
  cases hs
  obtain ⟨body', e, hc', hp⟩ := h.opened (openMember_eq_ok ho).1
  obtain ⟨rfl, rfl⟩ := Prod.mk.inj (Except.ok.inj (hc.symm.trans hc'))
  obtain ⟨r', hread, -⟩ := hp.readFull_take aesGcmIvLen
  exact Except.ok.inj (Prod.mk.inj ((readSome_eq_ok hr).1.symm.trans hread)).1

/-- A member that was found and screened, and a key of which was found, is what a stream
    was sealed to under that key. -/
theorem gcmKey_sealed (h : archive.Holds p) {missing : DecryptError} {name : Str}
    {s s₁ s₂ s₃ s₄ s₅ : Run ω}
    (hfound : memberForArchive archive row.path missing s = (.ok (index, name), s₁))
    (hshape : memberShape archive index s₂ = (.ok (len, head), s₃))
    (hscreen : screenShape row len head = .ok ())
    (hkey : gcmKey P archive index row len password limits s₄ = (.ok key, s₅)) :
    ∃ stream, p.SealedBy P row password limits index key stream ∧
      len = (sealedBody P key row.iv stream).length := by
  have hlen := memberShape_eq_ok hshape
  have hcipher : row.cipher = .aesGcmW3c := by
    obtain ⟨k, hfirst, -, -⟩ := gcmKey_eq_ok hkey
    exact screenShape_cipher hscreen hfirst.iv_length
  obtain ⟨hkeyLen, -, hle, -, htake⟩ := (screenShape_gcm_iff hcipher).1 hscreen
  obtain ⟨found, s₆, hfind, hlog⟩ := Prog.bind_eq_ok.1 hkey
  cases hlog
  -- a key was accepted, so the member is whole
  obtain ⟨sk, -, s₀, s₇, -, -, -, haccepts⟩ :=
    tryKeys_eq_ok P (Untouched.gcmAccepts archive index P row _) hfind
  obtain ⟨body, hcontent, hbodyLen⟩ := gcmAccepts_content h haccepts
  obtain rfl : len = body.length := by
    rw [hbodyLen, ctLen]
    omega
  have hbody : MemberHolds archive index body := h.memberHolds hcontent (h.file index ▸ hlen.symm)
  have hhead : body.take aesGcmIvLen = row.iv := by
    rw [← htake, memberShape_head h hshape hcontent, List.take_take, Nat.min_self]
  -- and it is what a stream was sealed to under the first key that is good
  have heq : body = row.iv ++ ((body.drop aesGcmIvLen).take (ctLen body.length) ++
      (body.drop aesGcmIvLen).drop (ctLen body.length)) := by
    rw [List.take_append_drop, ← hhead, List.take_append_drop]
  have htag : ((body.drop aesGcmIvLen).drop (ctLen body.length)).length = aesGcmTagLen := by
    rw [List.length_drop, List.length_drop, ctLen]
    omega
  have hfirst := (findKey_iff (tells_holds hbody heq htag) s₄).1 ⟨_, hfind⟩
  obtain ⟨-, stream, hsealed⟩ := hfirst.isGood
  rw [hsealed] at hcontent hfirst hlen ⊢
  exact ⟨stream, {
    member := (memberForArchive_iff h missing s).1 ⟨name, s₁, hfound⟩
    content := hcontent
    size := (h.file index).symm ▸ hlen.symm
    cipher := hcipher
    keyLen := hkeyLen
    key := hfirst }, rfl⟩

namespace Package.SealedBy

variable {stream : Bytes} (h : p.SealedBy P row password limits index key stream)
  (hholds : archive.Holds p)

include h hholds

theorem memberHolds : MemberHolds archive index (sealedBody P key row.iv stream) :=
  hholds.memberHolds h.content h.size

/-- What is decrypted of an opening of the member is the stream. -/
theorem plain {r : ρ} {s s' : Run ω} (ho : openAfterIv archive index s = (.ok r, s')) :
    Presents (GcmDecryptReader.new P r (.absorbed P key row.iv [] 0)
      (ctLen (sealedBody P key row.iv stream).length)) stream none := by
  obtain ⟨hlens, -⟩ := h.key.isGood
  have hle : aesGcmIvLen ≤ (sealedBody P key row.iv stream).length := by
    rw [length_sealedBody, hlens.1]
    omega
  obtain ⟨r', hp, ho'⟩ := openAfterIv_holds (h.memberHolds hholds) hle s
  obtain rfl := Except.ok.inj (Prod.mk.inj (ho.symm.trans ho')).1
  rw [drop_sealedBody hlens.1, sealedCode] at hp
  have hplain := GcmDecryptReader.presents (P := P) (by rw [List.append_nil]; exact hp)
  rwa [GcmDecryptReader.plainOf, Gcm.ctr_ctr, ← ctLen_sealedBody hlens.1] at hplain

end Package.SealedBy

variable {σ : Type} [Read σ IoError] [Write ω IoError]

/-- What was released of a stream is what the stream inflates to. -/
theorem releaseOut_inflated {stream : Bytes} {plain plain' : σ} {expected : ℕ} {s s' : Run ω}
    (hp : Presents plain stream (none : Option IoError))
    (h : releaseOut P row index expected limits plain s = (.ok plain', s')) :
    ∃ data used, P.inflater.EndsAt chunk inflateWindow stream false used data ∧
      data.length = expected ∧ expected ≤ limits.maxOutputBytes ∧ Writes s.out data s'.out := by
  unfold releaseOut at h
  rcases hc : copyOut P plain s.out expected limits with ⟨e | u, out, inflate⟩ <;>
    rw [hc] at h <;> cases h
  obtain ⟨data, inflate₁, hr, hend, hw⟩ := eachPiece_writePiece_ok hc
  have hends : InflateReader.ReadsToEnd
      (InflateReader.new P.inflater plain expected limits.maxOutputBytes) data inflate.inner :=
    ⟨inflate₁.inner, chunk, (Metered.reads hr).1, by decide, (Metered.next_ok hend).1⟩
  obtain ⟨hsize, hcap, used, he, -⟩ := hends.endsAt hp
  exact ⟨data, used, he, hsize, hcap, hw⟩

/-- A package that was decrypted opens to what was written. -/
theorem Package.opens_of_wholesome (h : archive.Holds p) {rowIndex : ℕ} {s s' : Run ω}
    (hw : wholesome P archive rowIndex row password limits sizes s = (.ok (), s')) :
    ∃ data, p.Opens P row password limits sizes data ∧ Writes s.out data s'.out := by
  obtain ⟨expected, hexpected, hw⟩ := Prog.lift_bind_eq_ok.1 hw
  obtain ⟨⟨index, name⟩, s₁, hfound, hw⟩ := Prog.bind_eq_ok.1 hw
  obtain ⟨⟨len, head⟩, s₂, hshape, hw⟩ := Prog.bind_eq_ok.1 hw
  obtain ⟨_, hscreen, hw⟩ := Prog.lift_bind_eq_ok.1 hw
  obtain ⟨_, s₃, hrec, hw⟩ := Prog.bind_eq_ok.1 hw
  obtain ⟨_, s₄, hrec', hw⟩ := Prog.bind_eq_ok.1 hw
  obtain ⟨key, s₅, hkey, hw⟩ := Prog.bind_eq_ok.1 hw
  obtain ⟨stream, hsealed, rfl⟩ := gcmKey_sealed h hfound hshape hscreen hkey
  obtain ⟨hlens, -⟩ := hsealed.key.isGood
  obtain ⟨r, s₆, ho, hw⟩ := Prog.bind_eq_ok.1 hw
  rw [GcmStream.new_eq_some.2 ⟨hlens.1, hlens.2, rfl⟩] at hw
  obtain ⟨plain', s₇, hrelease, hw⟩ := Prog.bind_eq_ok.1 hw
  obtain ⟨plain₂, s₈, hdrain, hend⟩ := Prog.bind_eq_ok.1 hw
  obtain ⟨data, used, hends, rfl, hcap, hwrites⟩ :=
    releaseOut_inflated (hsealed.plain h ho) hrelease
  refine ⟨data, ⟨index, key, stream, { hsealed with
    inflates := ⟨used, hends⟩
    declared := hexpected
    inLimit := hcap }⟩, ?_⟩
  rw [(ensureEnd_keeps Run.out _).of_ok hend, (drain_keeps Run.out _).of_ok hdrain]
  -- Nothing was written before the release.
  have hout : s₆.out = s.out := by
    rw [(openAfterIv_keeps Run.out_reopened archive index).of_ok ho,
      (gcmKey_keeps P archive index row _ password limits).of_ok hkey,
      (record_keeps Run.out_logged _).of_ok hrec', (record_keeps Run.out_logged _).of_ok hrec,
      (memberShape_keeps Run.out_reopened archive index).of_ok hshape,
      (memberForArchive_keeps Run.out_reopened archive _ _).of_ok hfound]
  rwa [← hout]

/-- A sealed member whose key is found, and whose stream inflates to what the row
    announces, is decrypted to a writer that takes the plaintext. -/
theorem wholesome_found {stream : Bytes} {used rowIndex : ℕ} (hlens : GcmLens key row.iv)
    (hbody : MemberHolds archive index (sealedBody P key row.iv stream))
    (hcipher : row.cipher = .aesGcmW3c)
    (hkeyLen : cipherAcceptsKeyLen row.cipher row.derivedKeyLen = true)
    (hfound : ∀ s : Run ω, ∃ name s',
      memberForArchive archive row.path (noMember rowIndex) s = (.ok (index, name), s'))
    (hfind : ∀ s : Run ω, ∃ s', findKey P row password limits
      (gcmAccepts P archive index row (sealedBody P key row.iv stream).length) s = (.ok key, s'))
    (hends : P.inflater.EndsAt chunk inflateWindow stream false used data)
    (hdeclared : sizes.declared row.size = .ok data.length)
    (hlimit : data.length ≤ limits.maxOutputBytes) {J : Bytes → ω → Prop} (hJ : Takes data J)
    {s : Run ω} (hs : J [] s.out) :
    ∃ s', wholesome P archive rowIndex row password limits sizes s = (.ok (), s') ∧
      J data s'.out := by
  have hle : aesGcmIvLen + aesGcmTagLen ≤ (sealedBody P key row.iv stream).length := by
    rw [length_sealedBody, hlens.1]
    omega
  have hiv : aesGcmIvLen ≤ (sealedBody P key row.iv stream).length := by omega
  have htake : (sealedBody P key row.iv stream).take aesGcmIvLen = row.iv := by
    rw [← hlens.1, sealedBody, List.take_left]
  -- The shape of the member passes the screen: its first bytes are the IV of the row.
  have hscreen : screenShape row (sealedBody P key row.iv stream).length
      ((sealedBody P key row.iv stream).take aesGcmIvLen) = .ok () := by
    rw [screenShape_gcm_iff hcipher, htake]
    exact ⟨hkeyLen, hlens.1, hle, hlens.1.ge, List.take_of_length_le hlens.1.le⟩
  obtain ⟨name, s₁, hmember⟩ := hfound s
  have hout₁ : s₁.out = s.out := (memberForArchive_keeps Run.out_reopened archive _ _).of_ok hmember
  -- The state in which the key is looked for: the member was opened, and both events
  -- are logged.
  let s₂ : Run ω := { s₁ with
    opened := s₁.opened + 1
    log := s₁.log ++ [.screened row index (sealedBody P key row.iv stream).length
      ((sealedBody P key row.iv stream).take aesGcmIvLen)] ++ [.decrypting row index] }
  have hs₂ : J [] s₂.out := hout₁ ▸ hs
  obtain ⟨s', hrun, hw⟩ := gcmMember_found (R := fun _ out => J data out) hbody hlens hfind
    (fun hplain s hs => releaseOut_inflates
      (InflateReader.presents_of_endsAt (J := fun _ => True) hplain Sink.willing trivial hends rfl
        hlimit) hJ hs) hs₂
  refine ⟨s', ?_, hw⟩
  unfold wholesome
  rw [hdeclared, Prog.bind_of_ok (Prog.lift_apply _), Prog.bind_of_ok hmember]
  dsimp only
  rw [Prog.bind_of_ok (memberShape_holds hbody hiv s₁)]
  dsimp only
  rw [hscreen, Prog.bind_of_ok (Prog.lift_apply _)]
  exact hrun

/-- A package that opens is decrypted to a writer that takes the plaintext. -/
theorem Package.Opens.wholesome (ho : p.Opens P row password limits sizes data) (h : archive.Holds p)
    {J : Bytes → ω → Prop} (hJ : Takes data J) (rowIndex : ℕ) {s : Run ω} (hs : J [] s.out) :
    ∃ s', wholesome P archive rowIndex row password limits sizes s = (.ok (), s') ∧
      J data s'.out := by
  obtain ⟨index, key, stream, ho⟩ := ho
  obtain ⟨hlens, -⟩ := ho.key.isGood
  obtain ⟨used, hends⟩ := ho.inflates
  have hbody := ho.memberHolds h
  exact wholesome_found hlens hbody ho.cipher ho.keyLen
    (fun s => (memberForArchive_iff h (noMember rowIndex) s).2 ho.member)
    (fun s => (findKey_iff (tells_holds hbody rfl (Gcm.length_tag ..)) s).2 ho.key)
    hends ho.declared ho.inLimit hJ hs

end

end OdfCrypto

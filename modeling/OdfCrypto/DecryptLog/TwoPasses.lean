import OdfCrypto.DecryptLog.Runs

/-!
# Verified before it is released

An AES-GCM member is opened once to check its tag and once more to be decrypted, and
nothing says that the two openings hand over the same bytes. Nothing is assumed of them:

* `gcmMember_twoPasses`: the output is as it was unless the first pass accepted a key;
  and if all succeeds, what the second pass read verifies under the same key, all of it,
  however little of it the inflater wanted;
* `wholesome_twoPasses`, `decryptMember_twoPasses`: so it is where the output is a writer
  and where it is a sink;
* `release_verified`: so it is of every member decrypted in a whole run, and a run says
  `verified` only if it has decrypted nothing but AES-GCM members.
-/

namespace OdfCrypto

open ByteStream Text

/-! ### Openings -/

section

variable {ρ σ ω : Type} [Read ρ IoError] [Read σ IoError] {archive : Archive ρ} {index : ℕ}

theorem readSome_eq_ok {r r' : σ} {n : ℕ} {bs : Bytes} {s s' : Run ω}
    (h : readSome r n s = (.ok (bs, r'), s')) : readFull r n = (.ok bs, r') ∧ s' = s := by
  obtain ⟨hres, rfl⟩ := Prog.lift_eq_ok.1 h
  rcases hr : readFull r n with ⟨e | bs, r₁⟩ <;> rw [hr] at hres <;> cases hres
  exact ⟨rfl, rfl⟩

omit [Read ρ IoError] in
theorem openMember_eq_ok {file : ρ} {s s' : Run ω}
    (h : openMember archive index s = (.ok file, s')) :
    archive.byIndex s.opened index = .ok file ∧ s' = { s with opened := s.opened + 1 } := by
  obtain ⟨hfile, rfl⟩ := Prod.mk.inj h
  exact ⟨Except.mapError_eq_ok.1 hfile, rfl⟩

/-- The reader of an opening of a member, past its IV. -/
def PastIv (archive : Archive ρ) (index k : ℕ) (r : ρ) : Prop :=
  ∃ file head, archive.byIndex k index = .ok file ∧
    readFull file aesGcmIvLen = (.ok head, r) ∧ head.length = aesGcmIvLen

theorem openAfterIv_eq_ok {r : ρ} {s s' : Run ω}
    (h : openAfterIv archive index s = (.ok r, s')) :
    PastIv archive index s.opened r ∧ s' = { s with opened := s.opened + 1 } := by
  obtain ⟨file, s₁, ho, h⟩ := Prog.bind_eq_ok.1 h
  obtain ⟨hfile, rfl⟩ := openMember_eq_ok ho
  obtain ⟨⟨head, r'⟩, s₂, hr, h⟩ := Prog.bind_eq_ok.1 h
  obtain ⟨hread, rfl⟩ := readSome_eq_ok hr
  rcases Prog.ite_eq_ok.1 h with ⟨-, h⟩ | ⟨hlen, h⟩
  · cases h
  · cases h
    exact ⟨⟨file, head, hfile, hread, not_not.1 hlen⟩, rfl⟩

theorem memberShape_eq_ok {len : ℕ} {head : Bytes} {s s' : Run ω}
    (h : memberShape archive index s = (.ok (len, head), s')) : len = (archive.file index).size := by
  obtain ⟨file, s₁, -, h⟩ := Prog.bind_eq_ok.1 h
  obtain ⟨⟨head', r⟩, s₂, -, h⟩ := Prog.bind_eq_ok.1 h
  cases h
  rfl

theorem drain_eq_ok {r r' : σ} {s s' : Run ω} (h : drain r s = (.ok r', s')) :
    (∃ bs r₁, Reads r bs r₁ ∧ read r₁ chunk = (.ok [], r')) ∧ s' = s := by
  obtain ⟨hres, rfl⟩ := Prog.lift_eq_ok.1 h
  rcases hd : discard chunk readError r with ⟨e | u, r₁⟩ <;> rw [hd] at hres <;> cases hres
  exact ⟨discard_ok hd, rfl⟩

end

/-- Members may have been opened, but the output is as it was. -/
structure Untouched {ω : Type} (s s' : Run ω) : Prop where
  opened : s.opened ≤ s'.opened
  out : s'.out = s.out

namespace Untouched

theorem refl {ω : Type} (s : Run ω) : Untouched s s := ⟨le_rfl, rfl⟩

theorem trans {ω : Type} {s s₁ s₂ : Run ω} (h : Untouched s s₁) (h' : Untouched s₁ s₂) :
    Untouched s s₂ := ⟨h.opened.trans h'.opened, h'.out.trans h.out⟩

variable {ρ ω : Type} (archive : Archive ρ) (index : ℕ)

theorem openMember : Prog.Within Untouched (openMember archive index : Decrypt ω ρ) :=
  fun _ => ⟨Nat.le_succ _, rfl⟩

theorem memberForArchive (path : Str) (missing : DecryptError) :
    Prog.Within Untouched (memberForArchive archive path missing : Decrypt ω (ℕ × Str)) := by
  unfold OdfCrypto.memberForArchive
  induction archive.directory.zipIdx with
  | nil => exact .fail refl _
  | cons entry entries ih =>
    exact .bind trans (openMember archive entry.2) fun _ => .ite (.pure refl _) ih

variable [Read ρ IoError]

theorem memberShape : Prog.Within Untouched (memberShape archive index : Decrypt ω (ℕ × Bytes)) :=
  .bind trans (openMember archive index) fun _ => .bind trans (.lift refl _) fun _ => .pure refl _

theorem openAfterIv : Prog.Within Untouched (openAfterIv archive index : Decrypt ω ρ) :=
  .bind trans (openMember archive index) fun _ => .bind trans (.lift refl _) fun _ =>
    .ite (.fail refl _) (.pure refl _)

theorem gcmAccepts (P : Prims) (row : EntryEncryption) (len : ℕ) (key : Bytes) :
    Prog.Within Untouched (gcmAccepts P archive index row len key : Decrypt ω Bool) :=
  .bind trans (openAfterIv archive index) fun _ => .bind trans (.lift refl _) fun _ =>
    .bind trans (.bind trans (.lift refl _) fun _ => .ite (.pure refl _) (.fail refl _)) fun _ =>
      .pure refl _

theorem record {ε : Type} (event : Event) :
    Prog.Within Untouched (record event : Prog (Run ω) ε Unit) :=
  fun _ => ⟨le_rfl, rfl⟩

end Untouched

/-! ### The first pass -/

section

variable {ρ ω : Type} [Read ρ IoError] (P : Prims) (archive : Archive ρ) (index : ℕ)
  (row : EntryEncryption) (len : ℕ)

/-- An opening of a member on which its tag accepts a key. -/
def FirstPass (key : Bytes) (k : ℕ) : Prop :=
  ∃ r r', PastIv archive index k r ∧ gcmVerify P key row.iv r (ctLen len) = (.ok true, r')

variable {P archive index row len}

theorem gcmAccepts_eq_ok {key : Bytes} {s s' : Run ω}
    (h : gcmAccepts P archive index row len key s = (.ok true, s')) :
    FirstPass P archive index row len key s.opened ∧ s.opened < s'.opened := by
  obtain ⟨r, s₁, ho, h⟩ := Prog.bind_eq_ok.1 h
  obtain ⟨hr, rfl⟩ := openAfterIv_eq_ok ho
  obtain ⟨⟨ok, r'⟩, hv, h⟩ := Prog.lift_bind_eq_ok.1 h
  obtain ⟨_, s₂, he, h⟩ := Prog.bind_eq_ok.1 h
  obtain ⟨rfl, rfl⟩ : ok = true ∧ s₂ = s' := by cases h; exact ⟨rfl, rfl⟩
  rw [(ensureEnd_keeps Run.opened _).of_ok he]
  rcases hg : gcmVerify P key row.iv r (ctLen len) with ⟨e | b, r₁⟩ <;> rw [hg] at hv <;> cases hv
  exact ⟨⟨r, _, hr, hg⟩, Nat.lt_succ_self _⟩

variable (P)

/-- The key that is found was derived from one of the start keys, and then accepted. -/
theorem tryKeys_eq_ok {accepts : Bytes → Decrypt ω Bool}
    (haccepts : ∀ key, Prog.Within Untouched (accepts key))
    {limits : DecryptLimits} {sks : List Bytes} {key : Bytes} {s s' : Run ω}
    (h : tryKeys P row limits accepts sks s = (.ok key, s')) :
    ∃ sk ∈ sks, ∃ s₀ s₁, s.opened ≤ s₀.opened ∧ deriveKey P row sk limits s₀ = (.ok key, s₁) ∧
      s₁.opened = s₀.opened ∧ accepts key s₁ = (.ok true, s') := by
  induction sks generalizing s with
  | nil => cases h
  | cons sk sks ih =>
    obtain ⟨found, s₁, ha, h⟩ := Prog.bind_eq_ok.1 h
    obtain ⟨key', s₂, hd, ha⟩ := Prog.bind_eq_ok.1 ha
    obtain ⟨ok, s₃, hacc, ha⟩ := Prog.bind_eq_ok.1 ha
    have hsame : s₂.opened = s.opened :=
      (deriveKey_keeps (fun _ _ => rfl) P row sk limits).of_ok hd
    cases ha
    cases ok with
    | true =>
      cases h
      exact ⟨sk, List.mem_cons_self, s, s₂, le_rfl, hd, hsame, hacc⟩
    | false =>
      obtain ⟨sk', hsk, s₀, s₄, hle, hrest⟩ := ih h
      have hstep : s.opened ≤ s₁.opened := hsame ▸ ((haccepts key').of_eq hacc).opened
      exact ⟨sk', List.mem_cons_of_mem _ hsk, s₀, s₄, hstep.trans hle, hrest⟩

variable {P}

theorem gcmKey_eq_ok {password : Str} {limits : DecryptLimits} {key : Bytes} {s s' : Run ω}
    (h : gcmKey P archive index row len password limits s = (.ok key, s')) :
    ∃ k, FirstPass P archive index row len key k ∧ s.opened ≤ k ∧ k < s'.opened := by
  obtain ⟨found, s₁, hf, h⟩ := Prog.bind_eq_ok.1 h
  cases h
  obtain ⟨sk, -, s₀, s₂, hle, -, hsame, ha⟩ :=
    tryKeys_eq_ok P (Untouched.gcmAccepts archive index P row len) hf
  obtain ⟨hfirst, hlt⟩ := gcmAccepts_eq_ok ha
  exact ⟨s₂.opened, hfirst, hsame ▸ hle, hlt⟩

end

/-! ### The second pass -/

section

variable {ρ ω : Type} [Read ρ IoError] (P : Prims) (archive : Archive ρ) (index : ℕ)
  (row : EntryEncryption) (len : ℕ)

/-- An opening of a member that was decrypted under a key: all the ciphertext that
    its length makes room for, and after it the tag of that ciphertext. -/
def SecondPass (key : Bytes) (k : ℕ) : Prop :=
  ∃ r ct, ∃ plain : GcmDecryptReader P ρ, PastIv archive index k r ∧ ct.length = ctLen len ∧
    Reads r (ct ++ Gcm.tag (P.aes key) row.iv ct) plain.src ∧
    Reads (GcmDecryptReader.new P r (.absorbed P key row.iv [] 0) (ctLen len))
      (GcmDecryptReader.plainOf P key row.iv ct) plain

/-- How the decryption of an AES-GCM member may end, from some state: without a first
    pass that accepts a key, only with the output as it was. The passes are over openings
    between the state and the one that it ends in. -/
inductive TwoPasses (s : Run ω) : Except DecryptError Unit × Run ω → Prop
  | locked {e : DecryptError} {s' : Run ω} (out : s'.out = s.out) :
      TwoPasses s (.error e, s')
  | failed {key : Bytes} {k : ℕ} {e : DecryptError} {s' : Run ω} (from_ : s.opened ≤ k)
      (first : FirstPass P archive index row len key k) (until_ : k < s'.opened) :
      TwoPasses s (.error e, s')
  | done {key : Bytes} {k k' : ℕ} {s' : Run ω} (from_ : s.opened ≤ k)
      (first : FirstPass P archive index row len key k) (later : k < k')
      (second : SecondPass P archive index row len key k') (until_ : k' < s'.opened) :
      TwoPasses s (.ok (), s')

variable {P archive index row len}

theorem FirstPass.iv_length {key : Bytes} {k : ℕ}
    (h : FirstPass P archive index row len key k) : row.iv.length = aesGcmIvLen := by
  obtain ⟨r, r', -, hv⟩ := h
  unfold gcmVerify at hv
  split at hv
  · cases hv
  · next gcm hg => exact (GcmStream.new_eq_some.1 hg).1

/-- What ends so from a later state ends so from an earlier one with the same output. -/
theorem TwoPasses.from_ {s s₁ : Run ω} {x : Except DecryptError Unit × Run ω}
    (h : TwoPasses P archive index row len s₁ x) (hs : Untouched s s₁) :
    TwoPasses P archive index row len s x := by
  rcases h with hlock | ⟨hk, hfirst, huntil⟩ | ⟨hk, hfirst, hlt, hsecond, huntil⟩
  · exact .locked (hlock.trans hs.out)
  · exact .failed (hs.opened.trans hk) hfirst huntil
  · exact .done (hs.opened.trans hk) hfirst hlt hsecond huntil

/-- A release reads some of the plaintext, hands back its reader, and opens no member. -/
structure OnlyReads {σ : Type} [Read σ IoError] (release : σ → Decrypt ω σ) : Prop where
  reads : ∀ {plain plain' : σ} {s s' : Run ω}, release plain s = (.ok plain', s') →
    ∃ bs, Reads plain bs plain'
  opened : ∀ plain, Prog.Keeps Run.opened (release plain)

/-- What is read of the plaintext, and then drained, is all of it, and its tag. -/
theorem secondPass_of_reads {r : ρ} {key bs cs : Bytes} {k n : ℕ}
    {plain plain₁ plain' : GcmDecryptReader P ρ} (hiv : PastIv archive index k r)
    (hr : Reads (GcmDecryptReader.new P r (.absorbed P key row.iv [] 0) (ctLen len)) bs plain)
    (hd : Reads plain cs plain₁) (hend : read plain₁ n = (.ok [], plain')) (hn : n ≠ 0) :
    SecondPass P archive index row len key k := by
  obtain ⟨ct, hlen, hsrc, hplain⟩ := GcmDecryptReader.reads_ok (hr.trans hd) hend hn
  refine ⟨r, ct, plain', hiv, hlen, hsrc, hplain ▸ ?_⟩
  have hall := (hr.trans hd).trans (.single hend)
  rwa [List.append_nil] at hall

theorem gcmMember_twoPasses {password : Str} {limits : DecryptLimits}
    {release : GcmDecryptReader P ρ → Decrypt ω (GcmDecryptReader P ρ)} (hrel : OnlyReads release)
    (s : Run ω) : TwoPasses P archive index row len s
      (gcmMember P archive index row len password limits release s) := by
  rcases hkey : gcmKey P archive index row len password limits s with ⟨e | key, s₁⟩
  · rw [gcmMember, Prog.bind_of_error hkey]
    refine .locked ?_
    exact Prog.Within.of_eq_error (R := fun s s' : Run ω => s'.out = s.out)
      (gcmKey_keeps P archive index row len password limits) hkey
  obtain ⟨k, hfirst, hle, hlt⟩ := gcmKey_eq_ok hkey
  rw [gcmMember, Prog.bind_of_ok hkey]
  rcases ho : (openAfterIv archive index : Decrypt ω ρ) s₁ with ⟨e | r, s₂⟩
  · rw [Prog.bind_of_error ho]
    exact .failed hle hfirst
      (lt_of_lt_of_le hlt ((Untouched.openAfterIv archive index).of_eq_error ho).opened)
  rw [Prog.bind_of_ok ho]
  obtain ⟨hiv, rfl⟩ := openAfterIv_eq_ok ho
  rcases hg : GcmStream.new P key row.iv with - | gcm
  · exact .failed hle hfirst (Nat.lt_succ_of_lt hlt)
  obtain ⟨-, -, rfl⟩ := GcmStream.new_eq_some.1 hg
  -- the rest opens nothing
  let rest : Decrypt ω Unit := do
    let plain ← release (.new P r (.absorbed P key row.iv [] 0) (ctLen len))
    let plain ← drain plain
    ensureEnd plain.src
  have hrest : Prog.Keeps Run.opened rest := (hrel.opened _).bind fun plain =>
    (drain_keeps Run.opened plain).bind fun plain => ensureEnd_keeps Run.opened plain.src
  have hopened : (rest { s₁ with opened := s₁.opened + 1 }).2.opened = s₁.opened + 1 := hrest _
  show TwoPasses P archive index row len s (rest _)
  rcases hrun : rest { s₁ with opened := s₁.opened + 1 } with ⟨e | u, s'⟩
  · rw [hrun] at hopened
    exact .failed hle hfirst (lt_of_lt_of_eq (Nat.lt_succ_of_lt hlt) hopened.symm)
  · rw [hrun] at hopened
    obtain ⟨plain, s₃, hp, hrun⟩ := Prog.bind_eq_ok.1 hrun
    obtain ⟨plain', s₄, hd, -⟩ := Prog.bind_eq_ok.1 hrun
    obtain ⟨bs, hreads⟩ := hrel.reads hp
    obtain ⟨⟨cs, plain₁, hall, hend⟩, -⟩ := drain_eq_ok hd
    exact .done hle hfirst hlt (secondPass_of_reads hiv hreads hall hend (by decide))
      (lt_of_lt_of_eq (Nat.lt_succ_self _) hopened.symm)

end

/-! ### What is released -/

section

variable {ρ σ τ ω S : Type} [Read σ IoError] [Write τ IoError] {P : Prims}
  {row : EntryEncryption} {index expected : ℕ} {limits : DecryptLimits}

/-- What is inflated was read of the deflated data. -/
theorem reads_deflated {src : σ} {tap : τ} {size cap n : ℕ} {bs : Bytes}
    {inflate inflate' : Inflating P σ τ}
    (h : Reads (⟨.withTap P.inflater src size cap tap, []⟩ : Inflating P σ τ) bs inflate)
    (hend : read inflate n = (.ok [], inflate')) : ∃ ct, Reads src ct inflate'.inner.src :=
  InflateReader.reads_src (Metered.reads (h.trans (.single hend))).1

theorem releaseOut_onlyReads [Write ω IoError] :
    OnlyReads (releaseOut P row index expected limits : σ → Decrypt ω σ) := by
  refine ⟨fun {plain plain' s s'} h => ?_, fun _ _ => rfl⟩
  unfold releaseOut at h
  rcases hc : copyOut P plain s.out expected limits with ⟨e | u, out, inflate⟩ <;>
    rw [hc] at h <;> cases h
  obtain ⟨bs, inflate₁, hr, hend, -⟩ := eachPiece_writePiece_ok hc
  exact reads_deflated hr hend

/-- A source of deflated data that was used up was read. -/
theorem EncryptedDeflated.usedUp_reads {src src' : EncryptedDeflated P σ} (h : UsedUp src src') :
    ∃ ct, Reads src.deflated ct src'.deflated := by
  rcases h with ⟨ho, hr, hend⟩ | hc
  · cases ho
    exact reads_deflated hr hend
  · obtain ⟨inflate, inflate', bs, hr, hend, rfl⟩ := copy_ok hc
    exact reads_deflated hr hend

theorem writeInflated_onlyReads [ZipSink S] [LawfulSink S] {name : Str} :
    OnlyReads (writeInflated P name row index expected limits : σ → Decrypt S σ) := by
  refine ⟨fun {plain plain' s s'} h => ?_, fun _ => .bind (fun _ => rfl) fun _ => .pure _⟩
  obtain ⟨⟨n, src⟩, s₁, hs, h⟩ := Prog.bind_eq_ok.1 h
  cases h
  have hd : ZipSink.deflatedFrom s.out name expected
      (⟨plain, expected, limits.maxOutputBytes, []⟩ : EncryptedDeflated P σ) =
        (.ok n, s'.out, src) := useSink_ok hs
  exact EncryptedDeflated.usedUp_reads (LawfulSink.usedUp hd)

end

/-! ### Members -/

section

variable {ρ ω S : Type} [Read ρ IoError] (P : Prims) (archive : Archive ρ)

/-- How the decryption of a wholesome package may end: with the output as it was, or as
    that of the member that its row names. -/
inductive WholesomePasses (row : EntryEncryption) (s : Run ω) :
    Except DecryptError Unit × Run ω → Prop
  | refused {e : DecryptError} {s' : Run ω} (out : s'.out = s.out) :
      WholesomePasses row s (.error e, s')
  | member {index : ℕ} {name : Str} {head : Bytes} {x : Except DecryptError Unit × Run ω}
      (found : Found archive row.path index name)
      (shape : screenShape row (archive.file index).size head = .ok ())
      (passes : TwoPasses P archive index row (archive.file index).size s x) :
      WholesomePasses row s x

variable {P archive} {limits : DecryptLimits} {password : Str}

theorem WholesomePasses.from_ {row : EntryEncryption} {s s₁ : Run ω}
    {x : Except DecryptError Unit × Run ω} (h : WholesomePasses P archive row s₁ x)
    (hs : Untouched s s₁) : WholesomePasses P archive row s x := by
  rcases h with hout | ⟨hfound, hshape, hpasses⟩
  · exact .refused (hout.trans hs.out)
  · exact .member hfound hshape (hpasses.from_ hs)

/-- What leaves the output as it is may come first. -/
theorem WholesomePasses.bind {α : Type} {row : EntryEncryption} {x : Decrypt ω α}
    {f : α → Decrypt ω Unit} {s : Run ω} (hx : Prog.Within Untouched x)
    (hf : ∀ {a s₁}, x s = (.ok a, s₁) → WholesomePasses P archive row s₁ (f a s₁)) :
    WholesomePasses P archive row s ((x >>= f) s) := by
  rcases hrun : x s with ⟨e | a, s₁⟩
  · rw [Prog.bind_of_error hrun]
    exact .refused (hx.of_eq_error hrun).out
  · rw [Prog.bind_of_ok hrun]
    exact (hf hrun).from_ (hx.of_eq hrun)

/-- Whatever comes before the member is decrypted leaves the output as it is. -/
theorem wholesome_twoPasses [Write ω IoError] {rowIndex : ℕ} {row : EntryEncryption}
    {sizes : Sizes} (s : Run ω) : WholesomePasses P archive row s
      (wholesome P archive rowIndex row password limits sizes s) := by
  refine .bind (.lift Untouched.refl _) fun {expected s₁} _ => ?_
  refine .bind (Untouched.memberForArchive archive row.path _) fun {found s₂} hfound => ?_
  obtain ⟨index, name⟩ := found
  refine .bind (Untouched.memberShape archive index) fun {shape s₃} hlen => ?_
  obtain ⟨len, head⟩ := shape
  obtain rfl := memberShape_eq_ok hlen
  refine .bind (.lift Untouched.refl _) fun {_ s₄} hshape => ?_
  refine .bind (Untouched.record _) fun _ => .bind (Untouched.record _) fun _ => ?_
  exact .member (firstMember_eq_ok hfound) (Prog.lift_eq_ok.1 hshape).1
    (gcmMember_twoPasses releaseOut_onlyReads _)

theorem decryptMember_twoPasses [ZipSink S] [LawfulSink S] {index : ℕ} {name : Str} {plan : Plan}
    (hgcm : plan.row.cipher = .aesGcmW3c) (s : Run S) :
    TwoPasses P archive index plan.row plan.len s
      (decryptMember P archive index name plan password limits s) := by
  unfold decryptMember
  rw [Prog.bind_of_ok (show record _ s = (.ok (), _) from rfl), if_pos hgcm]
  exact (gcmMember_twoPasses writeInflated_onlyReads _).from_
    ((Untouched.record (ε := DecryptError) _).of_eq rfl)

end

/-! ### What a run has decrypted -/

section

variable {ρ ω S α : Type} [Read ρ IoError] (P : Prims) (archive : Archive ρ)

/-- A member was verified under some key, and in a later opening decrypted under it; its
    length is what the directory says of the member that the row names. -/
def VerifiedTwice (row : EntryEncryption) (index : ℕ) : Prop :=
  ∃ member name key k k', Found archive row.path member name ∧
    FirstPass P archive index row (archive.file member).size key k ∧ k < k' ∧
    SecondPass P archive index row (archive.file member).size key k'

variable {P archive} in
theorem TwoPasses.verifiedTwice {row : EntryEncryption} {index member : ℕ} {name : Str}
    {s s' : Run ω}
    (h : TwoPasses P archive index row (archive.file member).size s (.ok (), s'))
    (hfound : Found archive row.path member name) : VerifiedTwice P archive row index := by
  obtain - | - | ⟨-, hfirst, hlt, hsecond, -⟩ := h
  exact ⟨member, name, _, _, _, hfound, hfirst, hlt, hsecond⟩

/-- What a run with some outcome has decrypted: every AES-GCM member was verified twice,
    and there was no other if the outcome says so. -/
structure Vouched (integrity : IntegrityOutcome) (log : List Event) : Prop where
  twice : ∀ {row index}, .decrypting row index ∈ log → row.cipher = .aesGcmW3c →
    VerifiedTwice P archive row index
  outcome : integrity = .verified → ∀ {row index}, .decrypting row index ∈ log →
    row.cipher = .aesGcmW3c

/-- Events that are of no decryption. -/
def NoDecrypting (events : List Event) : Prop :=
  ∀ row index, .decrypting row index ∉ events

variable {P archive} {integrity : IntegrityOutcome} {log events : List Event}

theorem Vouched.nil : Vouched P archive integrity [] where
  twice h := absurd h List.not_mem_nil
  outcome _ _ _ h := absurd h List.not_mem_nil

theorem Vouched.append (h : Vouched P archive integrity log) (hn : NoDecrypting events) :
    Vouched P archive integrity (log ++ events) where
  twice hm := h.twice ((List.mem_append.1 hm).resolve_right (hn _ _))
  outcome hi _ _ hm := h.outcome hi ((List.mem_append.1 hm).resolve_right (hn _ _))

theorem cipher_of_integrity {row : EntryEncryption} (h : integrityOf row ≠ .passwordCheckOnly) :
    row.cipher = .aesGcmW3c := by
  unfold integrityOf at h
  split at h
  · assumption
  · exact absurd rfl h
  · exact absurd rfl h

/-- A member decrypted, and the weakest check after it. -/
theorem Vouched.decrypt {done : Rebuilt} {plan : Plan} {index : ℕ}
    (h : Vouched P archive done.weakest log) (hn : NoDecrypting events)
    (htwice : plan.row.cipher = .aesGcmW3c → VerifiedTwice P archive plan.row index) :
    Vouched P archive (done.add plan).weakest (log ++ .decrypting plan.row index :: events) where
  twice {row i} hm hgcm := by
    rcases List.mem_append.1 hm with hm | hm
    · exact h.twice hm hgcm
    · rcases List.mem_cons.1 hm with heq | hm
      · cases heq
        exact htwice hgcm
      · exact absurd hm (hn _ _)
  outcome hi {row i} hm := by
    rw [Rebuilt.add] at hi
    split at hi
    · cases hi
    next hrow =>
    rcases List.mem_append.1 hm with hm | hm
    · exact h.outcome hi hm
    · rcases List.mem_cons.1 hm with heq | hm
      · cases heq
        exact cipher_of_integrity hrow
      · exact absurd hm (hn _ _)

theorem NoDecrypting.nil : NoDecrypting [] := fun _ _ h => absurd h List.not_mem_nil

theorem NoDecrypting.append {more : List Event} (h : NoDecrypting events) (hm : NoDecrypting more) :
    NoDecrypting (events ++ more) :=
  fun row index hmem => (List.mem_append.1 hmem).elim (h row index) (hm row index)

omit [Read ρ IoError] in
theorem noDecrypting_screened {sizes : Sizes} {rows : List EntryEncryption}
    (h : List.Forall₂ (Screened archive sizes) rows events) : NoDecrypting events := by
  induction h with
  | nil => exact .nil
  | cons hs _ ih =>
    obtain ⟨i, len, head, rfl, -⟩ := hs
    intro row index hm
    exact ih row index ((List.mem_cons.1 hm).resolve_left nofun)

theorem KeyLog.noDecrypting {row : EntryEncryption} {index : ℕ} {limits : DecryptLimits} {ok : Bool}
    (h : KeyLog row index limits ok events) : NoDecrypting events := by
  obtain ⟨k, -, key, -, -, rfl⟩ := h
  intro row' index' hm
  rcases List.mem_append.1 hm with hm | hm
  · cases List.eq_of_mem_replicate hm
  · obtain ⟨_, -, heq⟩ := List.mem_map.1 hm
    cases heq

theorem MemberLog.noDecrypting {row : EntryEncryption} {index expected : ℕ} {limits : DecryptLimits}
    {ok : Bool} (h : MemberLog index row limits expected ok events) : NoDecrypting events := by
  obtain ⟨k, key, given, hk, hw, -, rfl, -⟩ := h
  have hkeys : KeyLog row index limits _ _ := ⟨k, hk, key, hw, rfl, rfl⟩
  refine hkeys.noDecrypting.append ?_
  intro row' index' hm
  obtain ⟨_, -, heq⟩ := List.mem_map.1 hm
  cases heq

end

/-! ### The members of a package -/

section

variable {ρ S : Type} [Read ρ IoError] [ZipSink S] [LawfulSink S] {P : Prims} {archive : Archive ρ}
  {limits : DecryptLimits} {password : Str}

omit [ZipSink S] [LawfulSink S] in
theorem keys_vouched {superseded : List (ℕ × Plan)} {integrity : IntegrityOutcome} {s s' : Run S}
    (h : Prog.each (fun () (index, plan) => keyFor P archive index plan password limits) ()
      superseded s = (.ok (), s')) (hs : Vouched P archive integrity s.log) :
    Vouched P archive integrity s'.log := by
  refine Prog.each_induct (fun _ _ s' => Vouched P archive integrity s'.log) hs ?_ h
  rintro _ ⟨index, plan⟩ _ _ _ s₁ s₂ - hI hk
  obtain ⟨events, he, hlog⟩ := Prog.LogsOk.of_eq (keyFor_logs P archive index limits plan password) hk
  rw [he]
  exact hI.append (KeyLog.noDecrypting hlog)

omit [Read ρ IoError] [ZipSink S] [LawfulSink S] in
theorem lookup_of_treatment {plans : List (Str × Plan)} {name : Str} {plan : Plan}
    (h : treatment plans name = .decrypt plan) : plans.lookup name = some plan := by
  unfold treatment at h
  split at h
  · cases h
  · split at h <;> cases h
    assumption

/-- What becomes of one member keeps to it. -/
theorem rebuildMember_vouched {sizes : Sizes} {plans : List (Str × Plan)} {stripped : Bytes}
    {done done' : Rebuilt} {entry : FileData × ℕ} {s s' : Run S}
    (hplans : ∀ {name plan}, plans.lookup name = some plan → PlanOf archive sizes name plan)
    (h : rebuildMember P archive plans stripped password limits done entry s = (.ok done', s'))
    (hs : Vouched P archive done.weakest s.log) : Vouched P archive done'.weakest s'.log := by
  obtain ⟨_, s₁, ho, h⟩ := Prog.bind_eq_ok.1 h
  rw [← (openMember_keeps Run.log_reopened archive entry.2).of_ok ho] at hs
  dsimp only at h
  rcases ht : treatment plans (zipEntryName entry.1.nameRaw) with - | plan | - <;> rw [ht] at h
  · obtain ⟨a, s₂, hsink, h⟩ := Prog.bind_eq_ok.1 h
    cases h
    have hlog : s'.log = s₁.log := Prog.Silent.of_eq (fun s => List.append_nil (Run.log s)) hsink
    rwa [hlog]
  · obtain ⟨_, s₂, hd, h⟩ := Prog.bind_eq_ok.1 h
    cases h
    rw [Prog.mapError_eq_ok] at hd
    obtain ⟨_, he, new, rfl, hnew⟩ := Prog.LogsOk.of_eq
      (decryptMember_logs P archive entry.2 _ (zipEntryName entry.1.nameRaw) plan password) hd
    rw [he]
    -- What was vouched for stays so; a GCM member adds its two passes.
    refine hs.decrypt (MemberLog.noDecrypting hnew) fun hgcm => ?_
    obtain ⟨member, hfound, hlen⟩ := (hplans (lookup_of_treatment ht)).member
    have hpasses : TwoPasses P archive entry.2 plan.row plan.len s₁ (.ok (), _) :=
      hd ▸ decryptMember_twoPasses hgcm s₁
    exact (hlen ▸ hpasses).verifiedTwice hfound
  · obtain ⟨_, s₂, hc, h⟩ := Prog.bind_eq_ok.1 h
    cases h
    rwa [(copyMember_silent archive entry.2 _ entry.1 limits).of_eq hc]

/-- A package that is rebuilt from an empty log, or one of runs like it. -/
theorem perEntry_vouched {cls : Classification} {sizes : Sizes} {integrity : IntegrityOutcome}
    {s s' : Run S} (h : perEntry P archive cls password limits sizes s = (.ok integrity, s'))
    (hs : Vouched P archive .verified s.log) : Vouched P archive integrity s'.log := by
  obtain ⟨⟨plans, superseded⟩, s₁, hp, h⟩ := Prog.bind_eq_ok.1 h
  obtain ⟨_, s₂, hk, h⟩ := Prog.bind_eq_ok.1 h
  obtain ⟨manifest, s₃, hm, h⟩ := Prog.bind_eq_ok.1 h
  obtain ⟨stripped, -, h⟩ := Prog.lift_bind_eq_ok.1 h
  obtain ⟨done, s₄, he, h⟩ := Prog.bind_eq_ok.1 h
  cases h
  have hplans := planRows_eq_ok hp
  obtain ⟨screens, hlog, hok, -⟩ := (planRows_logs cls).of_eq hp
  have h₁ : Vouched P archive .verified s₁.log :=
    hlog ▸ hs.append (noDecrypting_screened (hok _ rfl).1)
  have h₃ : Vouched P archive .verified s₃.log := by
    rw [(readManifest_keeps Run.log_reopened archive).of_ok hm]
    exact keys_vouched hk h₁
  exact Prog.each_induct (fun _ done s => Vouched P archive done.weakest s.log) h₃
    (fun _ hI hstep => rebuildMember_vouched (fun hl => (hplans.planned hl).2) hstep hI) he

end

/-! ### A wholesome package -/

section

variable {ρ ω : Type} [Read ρ IoError] {P : Prims} {archive : Archive ρ}
  {limits : DecryptLimits} {password : Str}

/-- The events of a run that decrypts at most the member that a row names. -/
def DecryptsOnly (archive : Archive ρ) (row : EntryEncryption) (events : List Event) : Prop :=
  ∀ row' index, .decrypting row' index ∈ events → row' = row ∧ ∃ name, Found archive row.path index name

omit [Read ρ IoError] in
theorem NoDecrypting.only {row : EntryEncryption} {events : List Event} (h : NoDecrypting events) :
    DecryptsOnly archive row events :=
  fun row' index hm => absurd hm (h row' index)

omit [Read ρ IoError] in
/-- A row that passes, and the attempt to decrypt its member. -/
theorem MemberLog.only {row : EntryEncryption} {index len expected : ℕ} {head : Bytes} {name : Str}
    {ok : Bool} {events : List Event} (h : MemberLog index row limits expected ok events)
    (hfound : Found archive row.path index name) :
    DecryptsOnly archive row
      ([.screened row index len head] ++ ([.decrypting row index] ++ events)) := by
  intro row' index' hm
  rw [List.singleton_append, List.singleton_append] at hm
  rcases List.mem_cons.1 hm with heq | hm
  · cases heq
  rcases List.mem_cons.1 hm with heq | hm
  · cases heq
    exact ⟨rfl, name, hfound⟩
  · exact absurd hm (h.noDecrypting _ _)

theorem wholesome_only [Write ω IoError] (rowIndex : ℕ) (row : EntryEncryption) (sizes : Sizes) :
    Prog.Logs Run.log (fun _ events => DecryptsOnly archive row events)
      (wholesome P archive rowIndex row password limits sizes : Decrypt ω Unit) := by
  have hnil : DecryptsOnly archive row [] := NoDecrypting.nil.only
  refine .after_lift (fun _ _ => hnil) fun expected _ => ?_
  refine (memberForArchive_logs row.path (noMember rowIndex)).bind (fun h => h.1 ▸ hnil) ?_
  rintro ⟨index, name⟩ _ ⟨rfl, hfound⟩
  refine (memberShape_logs index).bind (fun h => by rw [h.1]; exact hnil) ?_
  rintro ⟨len, head⟩ _ ⟨rfl, -⟩
  refine .after_lift (fun _ _ => hnil) fun _ _ => ?_
  refine (record_logs _).bind (fun h => nomatch h.1) ?_
  rintro _ _ ⟨-, rfl⟩
  refine (record_logs _).bind (fun h => nomatch h.1) ?_
  rintro _ _ ⟨-, rfl⟩
  exact Prog.Logs.mono (gcmMember_logs P archive index row limits len password fun plain =>
    releaseOut_logs P limits row index expected plain) fun h => h.only (hfound index name rfl)

/-- A row whose member passed its screen, with an IV of the length of AES-GCM, is of AES-GCM. -/
theorem screenShape_cipher {row : EntryEncryption} {len : ℕ} {head : Bytes}
    (h : screenShape row len head = .ok ()) (hiv : row.iv.length = aesGcmIvLen) :
    row.cipher = .aesGcmW3c := by
  have hlen {by_ : Primitive} {want : ℕ} (h : screenIvLen row by_ want = .ok ()) :
      row.iv.length = want := by
    unfold screenIvLen at h
    split at h
    · assumption
    · cases h
  unfold screenShape at h
  dsimp only at h
  split at h
  · cases h
  rcases hc : row.cipher with - | - | - <;> simp only [hc] at h
  · exact absurd (hiv.symm.trans (hlen h)) (by decide)
  · obtain ⟨_, h, -⟩ := Except.bind_eq_ok.1 h
    exact absurd (hiv.symm.trans (hlen h)) (by decide)
  · rfl

/-- Some member that a row names was verified twice, and nothing else decrypted. -/
theorem Vouched.only {row : EntryEncryption} {index : ℕ} {name : Str} {head : Bytes}
    {log events : List Event} {s s' : Run ω} (h : Vouched P archive .verified log)
    (honly : DecryptsOnly archive row events) (hfound : Found archive row.path index name)
    (hshape : screenShape row (archive.file index).size head = .ok ())
    (hpasses : TwoPasses P archive index row (archive.file index).size s (.ok (), s')) :
    Vouched P archive .verified (log ++ events) := by
  have hgcm : row.cipher = .aesGcmW3c := by
    obtain - | - | ⟨-, hfirst, -, -, -⟩ := hpasses
    exact screenShape_cipher hshape hfirst.iv_length
  constructor
  · intro row' index' hm hc
    rcases List.mem_append.1 hm with hm | hm
    · exact h.twice hm hc
    · obtain ⟨rfl, name', hf⟩ := honly row' index' hm
      obtain ⟨rfl, -⟩ := hfound.unique hf
      exact hpasses.verifiedTwice hfound
  · intro _ row' index' hm
    rcases List.mem_append.1 hm with hm | hm
    · exact h.outcome rfl hm
    · obtain ⟨rfl, -⟩ := honly row' index' hm
      exact hgcm

theorem wholesome_vouched [Write ω IoError] {rowIndex : ℕ} {row : EntryEncryption} {sizes : Sizes}
    {s s' : Run ω}
    (h : wholesome P archive rowIndex row password limits sizes s = (.ok (), s'))
    (hs : Vouched P archive .verified s.log) : Vouched P archive .verified s'.log := by
  obtain ⟨events, hlog, honly⟩ := (wholesome_only (P := P) rowIndex row sizes).of_eq h
  obtain - | ⟨hfound, hshape, hpasses⟩ : WholesomePasses P archive row s (.ok (), s') :=
    h ▸ wholesome_twoPasses s
  rw [hlog]
  exact hs.only honly hfound hshape hpasses

end

/-! ### Outputs within outputs -/

section

variable {ω ζ τ α : Type} {P : Prims} {limits : DecryptLimits} {s s' : Run ω} {a : α}

theorem intoZip_eq_ok [Write ω IoError] [Flush ω IoError] {x : Decrypt (ZipStreamWriter P ω) α}
    (h : intoZip P limits x s = (.ok a, s')) :
    ∃ s₁, x (s.withOut (.new P s.out)) = (.ok a, s₁) ∧ s'.log = s₁.log := by
  unfold intoZip at h
  rcases hx : x (s.withOut (.new P s.out)) with ⟨e | b, s₁⟩ <;> rw [hx] at h
  · cases h
  · obtain ⟨hres, rfl⟩ := Prod.mk.inj h
    rw [Except.mapError_eq_ok, Except.map_eq_ok] at hres
    obtain ⟨_, -, rfl⟩ := hres
    exact ⟨s₁, rfl, rfl⟩

theorem intoCrate_eq_ok [CrateOver ζ ω] {x : Decrypt (SeekableZipSink ζ) α}
    (h : intoCrate ζ limits x s = (.ok a, s')) :
    ∃ s₁, x (s.withOut ⟨CrateOver.wrap s.out⟩) = (.ok a, s₁) ∧ s'.log = s₁.log := by
  obtain ⟨s₁, hin, rfl⟩ := inOutput_eq_ok h
  obtain ⟨b, s₂, hx, hin⟩ := Prog.bind_eq_ok.1 hin
  obtain ⟨_, s₃, hfin, hin⟩ := Prog.bind_eq_ok.1 hin
  cases hin
  exact ⟨s₂, hx, (onOutput_silent _).of_eq hfin⟩

theorem onOutput_untouched {ε : Type} {f : ω → Except ε α × ω}
    (h : onOutput f s = (.ok a, s')) : s'.opened = s.opened ∧ s'.log = s.log := by
  obtain ⟨-, rfl⟩ := Prod.mk.inj h
  exact ⟨rfl, rfl⟩

theorem sealed_eq_ok [CrateOver ζ τ] {gcm : GcmStream} {payload : Reencrypt (GcmEncryptWriter P ζ) α}
    {s s' : Run ζ} (h : sealed P gcm payload s = (.ok a, s')) :
    ∃ s₁, payload (s.withOut ⟨s.out, gcm⟩) = (.ok a, s₁) ∧ s'.log = s₁.log := by
  unfold sealed at h
  rcases hx : payload (s.withOut ⟨s.out, gcm⟩) with ⟨e | b, s₁⟩ <;> rw [hx] at h
  · cases h
  · obtain ⟨hres, rfl⟩ := Prod.mk.inj h
    rw [Except.mapError_eq_ok, Except.map_eq_ok] at hres
    obtain ⟨_, -, rfl⟩ := hres
    exact ⟨s₁, rfl, rfl⟩

/-- A wholesome package that was written has its payload run, in a state that has opened
    and logged what there was. -/
theorem writePackage_eq_ok [CrateOver ζ ω] {random : Random} {new : Str} {params : Argon2Params}
    {mimetype : Option Str} {couldReach : ℕ}
    {payload : Reencrypt (GcmEncryptWriter P ζ) (ℕ × DecryptOutcome)} {outcome : DecryptOutcome}
    (h : writePackage P ζ random new params mimetype couldReach payload s = (.ok outcome, s')) :
    ∃ s₁ s₂ size, s₁.opened = s.opened ∧ s₁.log = s.log ∧
      payload s₁ = (.ok (size, outcome), s₂) ∧ s'.log = s₂.log := by
  obtain ⟨salt, -, h⟩ := Prog.lift_bind_eq_ok.1 h
  obtain ⟨iv, -, h⟩ := Prog.lift_bind_eq_ok.1 h
  obtain ⟨key, -, h⟩ := Prog.lift_bind_eq_ok.1 h
  obtain ⟨s₀, hin, rfl⟩ := inOutput_eq_ok h
  obtain ⟨_, s₁, h₁, hin⟩ := Prog.bind_eq_ok.1 hin
  obtain ⟨_, s₂, h₂, hin⟩ := Prog.bind_eq_ok.1 hin
  obtain ⟨_, s₃, h₃, hin⟩ := Prog.bind_eq_ok.1 hin
  obtain ⟨_, s₄, h₄, hin⟩ := Prog.bind_eq_ok.1 hin
  -- Starting and writing members leaves the openings and the log as they were.
  have hopened : s₄.opened = s.opened ∧ s₄.log = s.log := by
    have e₁ := onOutput_untouched h₁
    have e₂ := onOutput_untouched h₂
    have e₃ := onOutput_untouched h₃
    have e₄ := onOutput_untouched h₄
    exact ⟨e₄.1.trans (e₃.1.trans (e₂.1.trans e₁.1)), e₄.2.trans (e₃.2.trans (e₂.2.trans e₁.2))⟩
  rcases hg : GcmStream.new P key iv with - | gcm <;> rw [hg] at hin
  · cases hin
  obtain ⟨⟨size, outcome'⟩, s₅, hseal, hin⟩ := Prog.bind_eq_ok.1 hin
  obtain ⟨s₆, hp, hlog⟩ := sealed_eq_ok hseal
  rcases Prog.ite_eq_ok.1 hin with ⟨-, hin⟩ | ⟨-, hin⟩
  · cases hin
  obtain ⟨_, s₇, h₇, hin⟩ := Prog.bind_eq_ok.1 hin
  obtain ⟨_, s₈, h₈, hin⟩ := Prog.bind_eq_ok.1 hin
  obtain ⟨_, s₉, h₉, hin⟩ := Prog.bind_eq_ok.1 hin
  cases hin
  refine ⟨_, s₆, size, hopened.1, hopened.2, hp, ?_⟩
  exact (onOutput_untouched h₉).2.trans ((onOutput_untouched h₈).2.trans
    ((onOutput_untouched h₇).2.trans hlog))

end

/-! ### Changing the password -/

section

variable {ρ ω τ ζ : Type} [Read ρ IoError] {P : Prims} {archive : Archive ρ}
  {limits : DecryptLimits} {cls : Classification}

/-- What is copied of a plaintext that goes through is all of it, up to a read of nothing. -/
theorem teeOut_eq_ok [Write τ IoError] {row : EntryEncryption} {index expected : ℕ}
    {plain : GcmDecryptReader P ρ} {result : ℕ × DecryptOutcome} {s s' : Run τ}
    (h : teeOut P row index expected limits plain s = (.ok result, s')) :
    result.2 = ⟨.verified⟩ ∧ ∃ bs cs plain₁ plain₂ plain', Reads plain bs plain₁ ∧
      Reads plain₁ cs plain₂ ∧ read plain₂ chunk = (.ok [], plain') := by
  obtain ⟨rfl, check, tee, hc, ht, -⟩ := teeOut_ok P h
  obtain ⟨bs, check₁, hr, hend⟩ := discard_ok hc
  obtain ⟨ct, htee⟩ := reads_deflated hr hend
  obtain ⟨cs, tee₁, hrest, hend'⟩ := discard_ok ht
  exact ⟨rfl, ct, cs, _, _, _, (Tee.reads htee).1, (Tee.reads hrest).1, (Tee.next_ok hend').1⟩

theorem rewholesome_only (ζ : Type) [CrateOver ζ ω] {rowIndex : ℕ} {row : EntryEncryption}
    (hrow : wholesomeRow cls = .ok (rowIndex, row)) (random : Random) (old new : Str)
    (params : Argon2Params) (mimetype : Option Str) :
    Prog.Logs Run.log (fun _ events => DecryptsOnly archive row events)
      (rewholesome P archive cls ζ random old new limits params mimetype :
        Reencrypt ω DecryptOutcome) := by
  have hnil : DecryptsOnly archive row [] := NoDecrypting.nil.only
  refine .after_lift (fun _ _ => hnil) fun found hfirst => ?_
  obtain rfl : found = (rowIndex, row) := by
    rw [Except.mapError_eq_ok, hrow] at hfirst
    exact (Except.ok.inj hfirst).symm
  refine .after_lift (fun _ _ => hnil) fun expected _ => ?_
  refine (memberForArchive_logs row.path (noMember rowIndex)).bind_mapError (fun h => h.1 ▸ hnil) ?_
  rintro ⟨index, name⟩ _ ⟨rfl, hfound⟩
  refine (memberShape_logs index).bind_mapError (fun h => by rw [h.1]; exact hnil) ?_
  rintro ⟨len, head⟩ _ ⟨rfl, -⟩
  refine .after_lift (fun _ _ => hnil) fun _ _ => ?_
  refine (record_logs _).bind (fun h => nomatch h.1) ?_
  rintro _ _ ⟨-, rfl⟩
  refine (record_logs _).bind (fun h => nomatch h.1) ?_
  rintro _ _ ⟨-, rfl⟩
  suffices hmember : Prog.LogsOk Run.log (MemberLog index row limits expected) _ from
    Prog.Logs.mono hmember fun h => h.only (hfound index name rfl)
  refine KeyLog.then_release ((gcmKey_logs P archive index row limits len old).mapError _)
    fun oldKey => ?_
  refine writePackage_logs P ReleaseLog.fallible ζ random new params mimetype len ?_
  refine .after_silent ReleaseLog.fallible
    (.mapError (openAfterIv_keeps Run.log_reopened archive index) _)
    fun file => ?_
  split
  · exact .fail ReleaseLog.fallible _
  · exact teeOut_logs P limits row index expected _

/-- A wholesome package whose password was changed had its member verified twice. -/
theorem rewholesome_vouched [CrateOver ζ ω] {random : Random} {old new : Str}
    {params : Argon2Params} {mimetype : Option Str} {outcome : DecryptOutcome} {s s' : Run ω}
    (h : rewholesome P archive cls ζ random old new limits params mimetype s = (.ok outcome, s'))
    (hs : Vouched P archive .verified s.log) : Vouched P archive outcome.integrity s'.log := by
  have hrun := h
  obtain ⟨⟨rowIndex, row⟩, hrow, h⟩ := Prog.lift_bind_eq_ok.1 h
  rw [Except.mapError_eq_ok] at hrow
  obtain ⟨expected, -, h⟩ := Prog.lift_bind_eq_ok.1 h
  obtain ⟨⟨index, name⟩, s₁, hfound, h⟩ := Prog.bind_eq_ok.1 h
  obtain ⟨⟨len, head⟩, s₂, hlen, h⟩ := Prog.bind_eq_ok.1 h
  rw [ofDecrypt, Prog.mapError_eq_ok] at hfound hlen
  obtain rfl := memberShape_eq_ok hlen
  obtain ⟨_, hshape, h⟩ := Prog.lift_bind_eq_ok.1 h
  rw [Except.mapError_eq_ok] at hshape
  obtain ⟨_, s₃, -, h⟩ := Prog.bind_eq_ok.1 h
  obtain ⟨_, s₄, -, h⟩ := Prog.bind_eq_ok.1 h
  obtain ⟨key, s₅, hkey, h⟩ := Prog.bind_eq_ok.1 h
  rw [ofDecrypt, Prog.mapError_eq_ok] at hkey
  -- The first pass: the key was accepted over a whole reading of the member.
  obtain ⟨k, hfirst, hle, hlt⟩ := gcmKey_eq_ok hkey
  obtain ⟨s₆, s₇, size, hopened, -, hpay, -⟩ := writePackage_eq_ok h
  obtain ⟨r, s₈, ho, hpay⟩ := Prog.bind_eq_ok.1 hpay
  rw [ofDecrypt, Prog.mapError_eq_ok] at ho
  obtain ⟨hiv, rfl⟩ := openAfterIv_eq_ok ho
  rcases hg : GcmStream.new P key row.iv with - | gcm <;> rw [hg] at hpay
  · cases hpay
  obtain ⟨-, -, rfl⟩ := GcmStream.new_eq_some.1 hg
  obtain ⟨hout, bs, cs, plain₁, plain₂, plain', hr, hd, hend⟩ := teeOut_eq_ok hpay
  -- The second: what was copied was read to its end from a later opening.
  have hsecond := secondPass_of_reads hiv hr hd hend (by decide)
  have hpasses : TwoPasses P archive index row (archive.file index).size s₄
      (.ok (), { s₄ with opened := s₆.opened + 1 }) :=
    .done hle hfirst (hopened ▸ hlt) hsecond (Nat.lt_succ_self _)
  obtain ⟨events, hlog, honly⟩ := (rewholesome_only ζ hrow random old new params mimetype).of_eq hrun
  obtain rfl : outcome = ⟨.verified⟩ := hout
  rw [hlog]
  exact hs.only honly (firstMember_eq_ok hfound) hshape hpasses

/-- A package with encrypted members whose password was changed was rebuilt. -/
theorem rePerEntry_vouched [CrateOver ζ ω] [Flush ζ IoError] {random : Random} {old new : Str}
    {params : Argon2Params} {mimetype : Option Str} {outcome : DecryptOutcome} {s s' : Run ω}
    (h : rePerEntry P archive cls ζ random old new limits params mimetype s = (.ok outcome, s'))
    (hs : Vouched P archive .verified s.log) : Vouched P archive outcome.integrity s'.log := by
  obtain ⟨reach, s₁, hreach, h⟩ := Prog.bind_eq_ok.1 h
  rw [ofDecrypt, Prog.mapError_eq_ok] at hreach
  obtain ⟨couldReach, -, h⟩ := Prog.lift_bind_eq_ok.1 h
  obtain ⟨s₂, s₃, size, -, hlog₂, hpay, hlog₃⟩ := writePackage_eq_ok h
  have hlog₁ : s₁.log = s.log := (Prog.Silent.each (fun _ _ => (openMemberRaw_silent archive _).bind
    fun _ => .pure _) _ _).of_eq hreach
  unfold deflateRebuilt at hpay
  dsimp only at hpay
  rcases hr : (ofDecrypt (intoZip P limits (perEntry P archive cls old limits .streamed)) :
    Reencrypt (DeflateWriter P (GcmEncryptWriter P ζ)) IntegrityOutcome)
      (s₂.withOut (.adaptive P s₂.out)) with ⟨e | a, s₄⟩ <;> rw [hr] at hpay
  · cases hpay
  obtain ⟨hres, rfl⟩ := Prod.mk.inj hpay
  rw [Except.mapError_eq_ok, Except.map_eq_ok] at hres
  obtain ⟨_, -, hres⟩ := hres
  cases hres
  rw [ofDecrypt, Prog.mapError_eq_ok] at hr
  obtain ⟨s₅, hentry, hlog₄⟩ := intoZip_eq_ok hr
  have hv := perEntry_vouched hentry (by rw [Run.withOut_log, Run.withOut_log, hlog₂, hlog₁]; exact hs)
  rw [hlog₃, Run.withOut_log, hlog₄]
  exact hv

end

/-! ### The entry points -/

section

variable {ρ ω ζ ξ : Type} [Read ρ IoError] (P : Prims) (source : Source ρ)

/-- What a call that succeeded has decrypted, of the archive that its source opened. -/
def CallVouched (integrity : IntegrityOutcome) (log : List Event) : Prop :=
  ∃ archive, source.openArchive 1 = .ok archive ∧ Vouched P archive integrity log

variable {P source} {limits : DecryptLimits} {password : Str}

theorem decryptRun_vouched [Write ω IoError] [Flush ω IoError] {writer : ω}
    {outcome : DecryptOutcome} {s' : Run ω}
    (h : decryptRun P source password limits { out := writer } = (.ok outcome, s')) :
    CallVouched P source outcome.integrity s'.log := by
  obtain ⟨⟨cls, archive⟩, s₁, hb, h⟩ := Prog.bind_eq_ok.1 h
  have hs : Vouched P archive .verified s₁.log := by
    rw [(begin_silent P source limits).of_eq hb]
    exact .nil
  refine ⟨archive, (begin_eq_ok P source limits hb).2.2, ?_⟩
  have hrest (h : (do
      let integrity ← intoZip P limits (perEntry P archive cls password limits .streamed)
      return (⟨integrity⟩ : DecryptOutcome)) s₁ = (.ok outcome, s')) :
      Vouched P archive outcome.integrity s'.log := by
    obtain ⟨integrity, s₂, hz, h⟩ := Prog.bind_eq_ok.1 h
    cases h
    obtain ⟨s₃, hentry, hlog⟩ := intoZip_eq_ok hz
    rw [hlog]
    exact perEntry_vouched hentry hs
  dsimp only at h
  rcases hmode : cls.mode with - | - | - <;> rw [hmode] at h
  · exact hrest h
  · exact hrest h
  · obtain ⟨⟨rowIndex, row⟩, -, h⟩ := Prog.lift_bind_eq_ok.1 h
    obtain ⟨_, s₂, hw, h⟩ := Prog.bind_eq_ok.1 h
    cases h
    exact wholesome_vouched hw hs

theorem decryptSliceRun_vouched [CrateOver ξ SliceWriter] {archive : Archive ρ}
    {cls : Classification} {s s' : Run SliceWriter}
    (h : decryptSliceRun P ξ archive cls password limits s = (.ok (), s'))
    (hs : Vouched P archive .verified s.log) :
    ∃ integrity, Vouched P archive integrity s'.log := by
  -- The two per-entry modes run the same program.
  have hrest (h : (do
      let bound ← rebuildBound archive cls
      onOutput fun _ => (.ok (), SliceWriter.zeroed bound)
      (intoCrate ξ limits
        do let _ ← perEntry P archive cls password limits .wholeBuffer).mapError ours) s =
          (.ok (), s')) : ∃ integrity, Vouched P archive integrity s'.log := by
    obtain ⟨bound, s₁, hbound, h⟩ := Prog.bind_eq_ok.1 h
    obtain ⟨_, s₂, ho, h⟩ := Prog.bind_eq_ok.1 h
    rw [Prog.mapError_eq_ok] at h
    obtain ⟨s₃, hx, hlog⟩ := intoCrate_eq_ok h
    obtain ⟨integrity, s₄, hentry, hx⟩ := Prog.bind_eq_ok.1 hx
    cases hx
    have hlog₁ : s₁.log = s.log := Prog.Silent.of_eq (Prog.Silent.bind (.each
      (fun _ _ => (openMemberRaw_silent archive _).bind fun _ => .pure _) _ _) fun _ => .pure _) hbound
    refine ⟨integrity, ?_⟩
    have hlog₂ : s₂.log = s₁.log := (onOutput_untouched ho).2
    rw [hlog]
    exact perEntry_vouched hentry (by rw [Run.withOut_log, hlog₂, hlog₁]; exact hs)
  unfold decryptSliceRun at h
  rcases hmode : cls.mode with - | - | - <;> rw [hmode] at h
  · exact hrest h
  · exact hrest h
  · obtain ⟨⟨rowIndex, row⟩, -, h⟩ := Prog.lift_bind_eq_ok.1 h
    obtain ⟨n, -, h⟩ := Prog.lift_bind_eq_ok.1 h
    obtain ⟨_, s₁, ho, h⟩ := Prog.bind_eq_ok.1 h
    rw [Prog.mapError_eq_ok] at h
    exact ⟨_, wholesome_vouched h (by rw [(onOutput_untouched ho).2]; exact hs)⟩

theorem reencryptRun_vouched [CrateOver ζ ω] [Flush ζ IoError] {random : Random} {old new : Str}
    {params : Argon2Params} {writer : ω} {outcome : DecryptOutcome} {s' : Run ω}
    (h : reencryptRun P ζ source random old new limits params { out := writer } =
      (.ok outcome, s')) : CallVouched P source outcome.integrity s'.log := by
  obtain ⟨cls, archive, mimetype, -, -, -, hopen, -, ⟨-, hw⟩ | ⟨-, hp⟩⟩ := reencryptRun_ok h
  · exact ⟨archive, hopen, rewholesome_vouched hw .nil⟩
  · exact ⟨archive, hopen, rePerEntry_vouched hp .nil⟩

/-- An AES-GCM member is verified before anything of it is released, and again as it is:
    where it is decrypted to a writer or to either sink, from every state of a run; and in
    every call, whose outcome is `verified` only if it has decrypted nothing else. -/
theorem release_verified [Write ω IoError] [Flush ω IoError] [CrateOver ζ ω] [Flush ζ IoError]
    [CrateOver ξ SliceWriter] (P : Prims) :
    (∀ (archive : Archive ρ) (rowIndex : ℕ) (row : EntryEncryption) (password : Str)
      (limits : DecryptLimits) (sizes : Sizes) (s : Run ω),
      WholesomePasses P archive row s
        (wholesome P archive rowIndex row password limits sizes s)) ∧
    (∀ (archive : Archive ρ) (index : ℕ) (name : Str) (plan : Plan) (password : Str)
      (limits : DecryptLimits) (s : Run (ZipStreamWriter P ω)), plan.row.cipher = .aesGcmW3c →
      TwoPasses P archive index plan.row plan.len s
        (decryptMember P archive index name plan password limits s)) ∧
    (∀ (archive : Archive ρ) (index : ℕ) (name : Str) (plan : Plan) (password : Str)
      (limits : DecryptLimits) (s : Run (SeekableZipSink ζ)), plan.row.cipher = .aesGcmW3c →
      TwoPasses P archive index plan.row plan.len s
        (decryptMember P archive index name plan password limits s)) ∧
    (∀ (source : Source ρ) (writer : ω) (password : Str) (limits : DecryptLimits)
      (outcome : DecryptOutcome) (s' : Run ω),
      decryptWithLimitsTo P source writer password limits = (.ok outcome, s') →
      CallVouched P source outcome.integrity s'.log) ∧
    (∀ (source : Source ρ) (password : Str) (limits : DecryptLimits) (bytes : Bytes)
      (s' : Run SliceWriter), decryptSlice P ξ source password limits = (.ok bytes, s') →
      ∃ integrity, CallVouched P source integrity s'.log) ∧
    ∀ (source : Source ρ) (writer : ω) (random : Random) (old new : Str) (limits : DecryptLimits)
      (params : Argon2Params) (outcome : DecryptOutcome) (s' : Run ω),
      reencryptTo P ζ source writer random old new limits params = (.ok outcome, s') →
      CallVouched P source outcome.integrity s'.log := by
  refine ⟨fun _ _ _ _ _ _ s => wholesome_twoPasses s,
    fun _ _ _ _ _ _ s hgcm => decryptMember_twoPasses hgcm s,
    fun _ _ _ _ _ _ s hgcm => decryptMember_twoPasses hgcm s, ?_, ?_,
    fun _ _ _ _ _ _ _ _ _ h => reencryptRun_vouched (reencryptTo_ok h)⟩
  · intro source writer password limits outcome s' h
    unfold decryptWithLimitsTo at h
    split at h
    · cases h
    rcases hr : decryptRun P source password limits { out := writer } with ⟨result, s₁⟩
    rw [hr] at h
    dsimp only at h
    split at h
    · cases h
    · cases h
      exact decryptRun_vouched hr
  · intro source password limits bytes s' h
    unfold decryptSlice at h
    split at h
    · cases h
    obtain ⟨hres, rfl⟩ := Prod.mk.inj h
    obtain ⟨u, hres, -⟩ := Except.map_eq_ok.1 hres
    obtain ⟨⟨cls, archive⟩, s₁, hb, hrun⟩ := Prog.bind_eq_ok.1 (Prod.ext hres rfl : _ = (_, _))
    obtain ⟨integrity, hv⟩ := decryptSliceRun_vouched hrun
      (by rw [(begin_silent P source limits).of_eq hb]; exact .nil)
    exact ⟨integrity, archive, (begin_eq_ok P source limits hb).2.2, hv⟩

end

/-- The sealed document, decrypted into a new zip. -/
def sealedMemberRun : Except DecryptError Unit × Run (ZipStreamWriter sealedPrims MemberStore) :=
  decryptMember sealedPrims (packageWith (folderNamed [0x41])) 0 (ascii "content.xml") ⟨sealedRow, 3, 38⟩
    (ascii "pw") {} { out := .new sealedPrims ⟨[]⟩ }

/-- Its first opening is verified, and its second decrypted under the same key; and what the
    calls that decrypt it have logged is vouched for. -/
theorem release_verified_sample :
    (∃ key, FirstPass sealedPrims (packageWith (folderNamed [0x41])) 0 sealedRow 38 key 0 ∧
      SecondPass sealedPrims (packageWith (folderNamed [0x41])) 0 sealedRow 38 key 1) ∧
    (∃ bytes s' integrity, decryptSlice sealedPrims SliceCrate sealedSource (ascii "pw") {} =
      (.ok bytes, s') ∧ s'.log = sealedLog ∧ CallVouched sealedPrims sealedSource integrity s'.log) ∧
    (∃ s', decryptWithLimitsTo sealedPrims sealedSource (⟨[]⟩ : MemberStore) (ascii "pw") {} =
      (.ok ⟨.verified⟩, s') ∧ s'.log = sealedLog ∧
        CallVouched sealedPrims sealedSource .verified s'.log) ∧
    ∃ s', reencryptTo sealedPrims MemberStore sealedSource (⟨[]⟩ : MemberStore) zeroRandom (ascii "pw")
        (ascii "new") {} .libreofficeDefault = (.ok ⟨.verified⟩, s') ∧
      s'.log = sealedLog ∧ CallVouched sealedPrims sealedSource .verified s'.log := by
  obtain ⟨-, hmember, -, hdecrypts, hslices, hreencrypts⟩ := release_verified (ρ := Pieces IoError)
    (ω := MemberStore) (ζ := MemberStore) (ξ := SliceCrate) sealedPrims
  refine ⟨?_, ?_, ?_, ?_⟩
  · have hok : sealedMemberRun.1.toOption = some () ∧ sealedMemberRun.2.opened = 2 := by decide +kernel
    have hpasses := hmember (packageWith (folderNamed [0x41])) 0 (ascii "content.xml")
      ⟨sealedRow, 3, 38⟩ (ascii "pw") {} { out := .new sealedPrims ⟨[]⟩ } rfl
    rw [← sealedMemberRun] at hpasses
    rcases hrun : sealedMemberRun with ⟨result, s'⟩
    rw [hrun] at hok hpasses
    obtain rfl := Except.toOption_eq_some.1 hok.1
    cases hpasses with
    | @done key k k' _ _ hfirst hlt hsecond huntil =>
      -- of two openings, these are the first one and the second one
      rw [hok.2] at huntil
      obtain ⟨rfl, rfl⟩ : k = 0 ∧ k' = 1 := by omega
      exact ⟨key, hfirst, hsecond⟩
  · obtain ⟨bytes, s', h, hlog⟩ := decryptSlice_sealed
    obtain ⟨integrity, hvouched⟩ := hslices _ _ _ _ _ h
    exact ⟨bytes, s', integrity, h, hlog, hvouched⟩
  · obtain ⟨s', h, hlog⟩ := decryptWithLimitsTo_sealed
    exact ⟨s', h, hlog, hdecrypts _ _ _ _ _ _ h⟩
  · obtain ⟨s', h, hlog⟩ := reencryptTo_sealed
    exact ⟨s', h, hlog, hreencrypts _ _ _ _ _ _ _ _ _ h⟩

end OdfCrypto

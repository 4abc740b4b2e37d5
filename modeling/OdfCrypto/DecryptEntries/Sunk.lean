import Mathlib.Tactic.NthRewrite
import OdfCrypto.DecryptEntries

/-!
# How members reach the sink

What a rebuild asks of its sink, whichever of the two it is: one call for each member
of the archive, in the order of the directory (`perEntry_sunk`). All else in a rebuild
opens members, derives keys and logs, and leaves the sink as it is.
-/

namespace OdfCrypto

open ByteStream Text

/-! ### What only opens members -/

section

variable {ρ σ ω κ : Type} [Read ρ IoError] [Read σ IoError] {get : Run ω → κ}
  (hget : ∀ s k, get { s with opened := k } = get s) (P : Prims) (archive : Archive ρ) (index : ℕ)

include hget

omit [Read ρ IoError] in
theorem openMember_keeps : Prog.Keeps get (openMember archive index : Decrypt ω ρ) :=
  fun s => hget s (s.opened + 1)

omit [Read ρ IoError] in
theorem memberForArchive_keeps (path : Str) (missing : DecryptError) :
    Prog.Keeps get (memberForArchive archive path missing : Decrypt ω (ℕ × Str)) := by
  unfold memberForArchive
  induction archive.directory.zipIdx with
  | nil => exact .fail _
  | cons entry entries ih =>
    exact (openMember_keeps hget archive entry.2).bind fun _ => .ite (.pure _) ih

theorem memberShape_keeps :
    Prog.Keeps get (memberShape archive index : Decrypt ω (ℕ × Bytes)) :=
  (openMember_keeps hget archive index).bind fun _ => .bind (.lift _) fun _ => .pure _

theorem openAfterIv_keeps : Prog.Keeps get (openAfterIv archive index : Decrypt ω ρ) :=
  (openMember_keeps hget archive index).bind fun _ => .bind (.lift _) fun _ =>
    .ite (.fail _) (.pure _)

theorem gcmAccepts_keeps (row : EntryEncryption) (len : ℕ) (key : Bytes) :
    Prog.Keeps get (gcmAccepts P archive index row len key : Decrypt ω Bool) :=
  (openAfterIv_keeps hget archive index).bind fun _ => .bind (.lift _) fun _ =>
    .bind (.bind (.lift _) fun _ => .ite (.pure _) (.fail _)) fun _ => .pure _

theorem checksumAccepts_keeps (row : EntryEncryption) (limits : DecryptLimits) (key : Bytes) :
    Prog.Keeps get (checksumAccepts P archive index row limits key : Decrypt ω Bool) := by
  refine (openMember_keeps hget archive index).bind fun _ => .bind (.lift _) fun gate => ?_
  split
  · exact .pure _
  · split
    · exact .pure _
    · exact .fail _
    · exact .fail _

theorem readManifest_keeps : Prog.Keeps get (readManifest archive : Decrypt ω Bytes) :=
  (memberForArchive_keeps hget archive _ _).bind fun _ =>
    (openMember_keeps hget archive _).bind fun _ =>
      .bind (.lift _) fun _ => .ite (.fail _) (.pure _)

end

theorem ensureEnd_keeps {σ ω κ : Type} [Read σ IoError] (get : Run ω → κ) (r : σ) :
    Prog.Keeps get (ensureEnd r : Decrypt ω Unit) :=
  .bind (.lift _) fun _ => .ite (.pure _) (.fail _)

theorem drain_keeps {σ ω κ : Type} [Read σ IoError] (get : Run ω → κ) (r : σ) :
    Prog.Keeps get (drain r : Decrypt ω σ) :=
  .lift _

/-! ### What leaves the sink as it is -/

theorem Run.out_reopened {ω : Type} (s : Run ω) (k : ℕ) : Run.out { s with opened := k } = s.out :=
  rfl

theorem Run.out_logged {ω : Type} (s : Run ω) (log : List Event) : Run.out { s with log } = s.out :=
  rfl

section

variable {ω κ : Type} {get : Run ω → κ} (hget : ∀ s log, get { s with log } = get s)

include hget

theorem record_keeps {ε : Type} (event : Event) :
    Prog.Keeps get (record event : Prog (Run ω) ε Unit) :=
  fun s => hget s _

theorem deriveKey_keeps (P : Prims) (row : EntryEncryption) (sk : Bytes) (limits : DecryptLimits) :
    Prog.Keeps get (deriveKey P row sk limits : Decrypt ω Bytes) := by
  refine .ite (.fail _) ?_
  rcases row.kdf with ⟨iterations, salt⟩ | ⟨t, m, p, salt⟩ | -
  · exact .bind (.lift _) fun _ => (record_keeps hget _).bind fun _ => .pure _
  · exact .bind (.lift _) fun _ => (record_keeps hget _).bind fun _ => .lift _
  · exact .fail _

end

section

variable {ρ ω : Type} [Read ρ IoError] (P : Prims) (archive : Archive ρ) (index : ℕ)

theorem findKey_keeps {accepts : Bytes → Decrypt ω Bool}
    (h : ∀ key, Prog.Keeps Run.out (accepts key)) (row : EntryEncryption) (password : Str)
    (limits : DecryptLimits) : Prog.Keeps Run.out (findKey P row password limits accepts) := by
  unfold findKey
  induction startKeys P row password with
  | nil => exact .fail _
  | cons sk sks ih =>
    refine .bind ((deriveKey_keeps Run.out_logged P row sk limits).bind fun _ =>
      (h _).bind fun _ => .pure _) ?_
    rintro (_ | key)
    · exact ih
    · exact .pure _

theorem gcmKey_keeps (row : EntryEncryption) (len : ℕ) (password : Str) (limits : DecryptLimits) :
    Prog.Keeps Run.out (gcmKey P archive index row len password limits : Decrypt ω Bytes) :=
  (findKey_keeps P (gcmAccepts_keeps Run.out_reopened P archive index row len) row password
    limits).bind fun _ => (record_keeps Run.out_logged _).bind fun _ => .pure _

theorem checksumKey_keeps (row : EntryEncryption) (password : Str) (limits : DecryptLimits) :
    Prog.Keeps Run.out (checksumKey P archive index row password limits : Decrypt ω Bytes) :=
  (findKey_keeps P (checksumAccepts_keeps Run.out_reopened P archive index row limits) row password
    limits).bind fun _ => (record_keeps Run.out_logged _).bind fun _ => .pure _

theorem keyFor_keeps (plan : Plan) (password : Str) (limits : DecryptLimits) :
    Prog.Keeps Run.out (keyFor P archive index plan password limits : Decrypt ω Unit) := by
  unfold keyFor
  split
  · exact (gcmKey_keeps P archive index plan.row plan.len password limits).bind fun _ => .pure _
  · exact (checksumKey_keeps P archive index plan.row password limits).bind fun _ => .pure _

theorem planRows_keeps (cls : Classification) (sizes : Sizes) :
    Prog.Keeps Run.out (planRows archive cls sizes : Decrypt ω _) :=
  .each (fun _ _ => .bind (.lift _) fun _ =>
    (memberForArchive_keeps Run.out_reopened archive _ _).bind fun _ =>
      (memberShape_keeps Run.out_reopened archive _).bind fun _ => .bind (.lift _) fun _ =>
        (record_keeps Run.out_logged _).bind fun _ => .pure _) _ _

end

/-! ### What the sink is asked -/

section

variable {ρ S : Type} [Read ρ IoError] [ZipSink S] {P : Prims} {archive : Archive ρ}
  {limits : DecryptLimits} {s s' : Run S} {name : Str}

/-- The stripped manifest, to be read at once. -/
def wholeManifest (stripped : Bytes) : Pieces IoError :=
  { rest := stripped, cuts := fun _ => stripped.length }

/-- The sink takes what becomes of a member of the archive, under the name it is given:
    the stripped manifest, or what a member of a row decrypts to, or the member itself,
    stored or deflated as it is. -/
inductive Sunk (P : Prims) (archive : Archive ρ) (stripped : Bytes) (entry : FileData × ℕ)
    (name : Str) : Treatment → S → S → Prop
  | manifest {z z' : S} {n : ℕ} {data : Pieces IoError}
      (h : ZipSink.deflated z name stripped.length (wholeManifest stripped) = (.ok n, z', data)) :
      Sunk P archive stripped entry name .manifest z z'
  | decrypt {σ : Type} [Read σ IoError] {z z' : S} {n : ℕ} {plan : Plan}
      {src src' : EncryptedDeflated P σ} (hgiven : src.given = [])
      (hexpected : src.expected = plan.expected)
      (h : ZipSink.deflatedFrom z name plan.expected src = (.ok n, z', src')) :
      Sunk P archive stripped entry name (.decrypt plan) z z'
  | stored {z z' : S} {data data' : ρ} (hm : entry.1.compression = .stored)
      (h : ZipSink.stored z name entry.1.crc32 entry.1.size data = (.ok (), z', data')) :
      Sunk P archive stripped entry name .copy z z'
  | deflated {z z' : S} {n opened : ℕ} {src : PlainDeflated ρ}
      (hm : entry.1.compression = .deflated)
      (h : ZipSink.deflatedFrom z name entry.1.size (PlainDeflated.mk archive opened entry.2) =
        (.ok n, z', src)) :
      Sunk P archive stripped entry name .copy z z'

omit [ZipSink S] in
theorem useSink_ok {ω α β : Type} {f : ω → Except ZipStreamError α × ω × β}
    {events : β → List Event} {r r' : Run ω} {a : α × β}
    (h : useSink limits f events r = (.ok a, r')) : f r.out = (.ok a.1, r'.out, a.2) := by
  unfold useSink at h
  rcases hf : f r.out with ⟨result, out, b⟩
  simp only [hf, Prod.mk.injEq, Except.mapError_eq_ok, Except.map_eq_ok] at h
  obtain ⟨⟨a, rfl, rfl⟩, rfl⟩ := h
  rfl

theorem writeInflated_sunk {σ : Type} [Read σ IoError] {stripped : Bytes} {entry : FileData × ℕ}
    {plan : Plan} {row : EntryEncryption} {index : ℕ} {deflated deflated' : σ}
    (h : writeInflated P name row index plan.expected limits deflated s = (.ok deflated', s')) :
    Sunk P archive stripped entry name (.decrypt plan) s.out s'.out := by
  obtain ⟨a, s₁, hs, h⟩ := Prog.bind_eq_ok.1 h
  cases h
  have hd : ZipSink.deflatedFrom s.out name plan.expected
      (⟨deflated, plan.expected, limits.maxOutputBytes, []⟩ : EncryptedDeflated P σ) =
        (.ok a.1, s'.out, a.2) := useSink_ok hs
  exact .decrypt rfl rfl hd

theorem decryptMember_sunk {stripped : Bytes} {entry : FileData × ℕ} {plan : Plan} {index : ℕ}
    {password : Str}
    (h : decryptMember P archive index name plan password limits s = (.ok (), s')) :
    Sunk P archive stripped entry name (.decrypt plan) s.out s'.out := by
  obtain ⟨_, s₁, hrec, h⟩ := Prog.bind_eq_ok.1 h
  rw [← (record_keeps (ε := DecryptError) Run.out_logged _).of_ok hrec]
  -- GCM or a checksum gate: either way the key search and the drain after it write
  -- nothing.
  rcases Prog.ite_eq_ok.1 h with ⟨-, h⟩ | ⟨-, h⟩
  · obtain ⟨key, s₂, hk, h⟩ := Prog.bind_eq_ok.1 h
    obtain ⟨file, s₃, ho, h⟩ := Prog.bind_eq_ok.1 h
    rw [← (gcmKey_keeps P archive index _ _ _ _).of_ok hk,
      ← (openAfterIv_keeps Run.out_reopened archive index).of_ok ho]
    generalize GcmStream.new P key plan.row.iv = gcm at h
    rcases gcm with - | gcm
    · cases h
    · obtain ⟨plain, s₄, hw, h⟩ := Prog.bind_eq_ok.1 h
      obtain ⟨plain', s₅, hd, h⟩ := Prog.bind_eq_ok.1 h
      rw [(ensureEnd_keeps Run.out _).of_ok h, (drain_keeps Run.out _).of_ok hd]
      exact writeInflated_sunk hw
  · obtain ⟨key, s₂, hk, h⟩ := Prog.bind_eq_ok.1 h
    obtain ⟨file, s₃, ho, h⟩ := Prog.bind_eq_ok.1 h
    obtain ⟨gate, -, h⟩ := Prog.lift_bind_eq_ok.1 h
    obtain ⟨plain, s₄, hw, h⟩ := Prog.bind_eq_ok.1 h
    obtain ⟨plain', s₅, hd, h⟩ := Prog.bind_eq_ok.1 h
    cases h
    rw [← (checksumKey_keeps P archive index _ _ _).of_ok hk,
      ← (openMember_keeps Run.out_reopened archive index).of_ok ho, (drain_keeps Run.out _).of_ok hd]
    exact writeInflated_sunk hw

theorem copyMember_sunk {stripped : Bytes} {entry : FileData × ℕ}
    (h : copyMember archive name entry.1 entry.2 limits s = (.ok (), s')) :
    Sunk P archive stripped entry name .copy s.out s'.out := by
  revert h
  unfold copyMember
  rcases hm : entry.1.compression with - | - | id
  · intro h
    obtain ⟨data, s₁, ho, h⟩ := Prog.bind_eq_ok.1 h
    obtain ⟨a, s₂, hs, h⟩ := Prog.bind_eq_ok.1 h
    cases h
    rw [← (openMember_keeps Run.out_reopened archive entry.2).of_ok ho]
    exact .stored hm (useSink_ok hs)
  · intro h
    rcases hd : ZipSink.deflatedFrom s.out name entry.1.size
      (PlainDeflated.mk archive s.opened entry.2) with ⟨result, out, src⟩
    simp only [hd, Prod.mk.injEq, Except.mapError_eq_ok, Except.map_eq_ok] at h
    obtain ⟨⟨n, rfl, -⟩, rfl⟩ := h
    exact .deflated hm hd
  · intro h
    cases h

theorem rebuildMember_sunk {plans : List (Str × Plan)} {stripped : Bytes} {password : Str}
    {done done' : Rebuilt} {entry : FileData × ℕ}
    (h : rebuildMember P archive plans stripped password limits done entry s = (.ok done', s')) :
    Sunk P archive stripped entry (zipEntryName entry.1.nameRaw)
      (treatment plans (zipEntryName entry.1.nameRaw)) s.out s'.out := by
  obtain ⟨_, s₁, ho, h⟩ := Prog.bind_eq_ok.1 h
  rw [← (openMember_keeps Run.out_reopened archive entry.2).of_ok ho]
  dsimp only at h
  generalize treatment plans (zipEntryName entry.1.nameRaw) = t at h ⊢
  rcases t with - | plan | -
  · obtain ⟨a, s₂, hs, h⟩ := Prog.bind_eq_ok.1 h
    cases h
    exact .manifest (useSink_ok hs)
  · obtain ⟨_, s₂, hd, h⟩ := Prog.bind_eq_ok.1 h
    cases h
    exact decryptMember_sunk ((Prog.mapError_eq_ok _).1 hd)
  · obtain ⟨_, s₂, hc, h⟩ := Prog.bind_eq_ok.1 h
    cases h
    exact copyMember_sunk hc

/-! ### The whole package -/

/-- What becomes of entries that are counted, but for their numbers. -/
theorem map_zipIdx_fst {α β : Type} (f : α → β) (l : List α) :
    (l.zipIdx.map fun entry => f entry.1) = l.map f := by
  nth_rewrite 2 [← List.zipIdx_map_fst 0 l]
  rw [List.map_map]
  rfl

/-- The sink takes what becomes of some members, one after the other. -/
inductive SunkAll (P : Prims) (archive : Archive ρ) (plans : List (Str × Plan)) (stripped : Bytes)
    (z : S) : List (FileData × ℕ) → S → Prop
  | nil : SunkAll P archive plans stripped z [] z
  | snoc {entries : List (FileData × ℕ)} {entry : FileData × ℕ} {z₁ z₂ : S}
      (h : SunkAll P archive plans stripped z entries z₁)
      (hm : Sunk P archive stripped entry (zipEntryName entry.1.nameRaw)
        (treatment plans (zipEntryName entry.1.nameRaw)) z₁ z₂) :
      SunkAll P archive plans stripped z (entries ++ [entry]) z₂

/-- What a rebuild has before it opens the first member to rebuild: the plans of the rows,
    and the stripped manifest. -/
structure Prepared (P : Prims) (archive : Archive ρ) (cls : Classification) (sizes : Sizes) (S : Type)
    (plans : List (Str × Plan)) (stripped : Bytes) : Prop where
  planned : ∃ superseded, ∃ s s' : Run S, planRows archive cls sizes s = (.ok (plans, superseded), s')
  manifest : ∃ manifest, (∃ s s' : Run S, readManifest archive s = (.ok manifest, s')) ∧
    stripManifest P.xmlReader manifest = .ok stripped

/-- A rebuild that succeeds has its sink take every member of the archive. -/
theorem perEntry_sunk {cls : Classification} {password : Str} {sizes : Sizes} {a : IntegrityOutcome}
    (h : perEntry P archive cls password limits sizes s = (.ok a, s')) :
    ∃ plans stripped, Prepared P archive cls sizes S plans stripped ∧
      SunkAll P archive plans stripped s.out archive.directory.zipIdx s'.out := by
  obtain ⟨⟨plans, superseded⟩, s₁, hp, h⟩ := Prog.bind_eq_ok.1 h
  obtain ⟨_, s₂, hk, h⟩ := Prog.bind_eq_ok.1 h
  obtain ⟨manifest, s₃, hm, h⟩ := Prog.bind_eq_ok.1 h
  obtain ⟨stripped, hstripped, h⟩ := Prog.lift_bind_eq_ok.1 h
  obtain ⟨done, s₄, he, h⟩ := Prog.bind_eq_ok.1 h
  cases h
  have hout : s₃.out = s.out := by
    rw [(readManifest_keeps Run.out_reopened archive).of_ok hm,
      (Prog.Keeps.each (fun _ _ => keyFor_keeps P archive _ _ password limits) _ _).of_ok hk,
      (planRows_keeps archive cls sizes).of_ok hp]
  exact ⟨plans, stripped, ⟨⟨superseded, s, s₁, hp⟩, manifest, ⟨s₂, s₃, hm⟩, hstripped⟩,
    Prog.each_induct
      (fun entries _ (s' : Run S) => SunkAll P archive plans stripped s.out entries s'.out)
      (hout ▸ .nil) (fun _ hI hstep => hI.snoc (rebuildMember_sunk hstep)) he⟩

end

end OdfCrypto

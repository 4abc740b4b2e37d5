import OdfCrypto.Classify.Lookup
import OdfCrypto.DecryptLog.TwoPasses

/-!
# Which rows a password is checked against

A decryption that succeeds has found a key for the row of a wholesome package, for each row
that a later one took the place of, and for each member that it decrypted. The rebuild
takes the manifest for what it is before it looks for a plan, so that the last row to name
it is planned, and never checked.

* `Accounted`: each row has a plan, or a later row on its member;
* `perEntry_tests`: which members a rebuild has tested, and no others;
* `passwordChecked_iff`: when a call that succeeds has checked the password against every
  row.
-/

namespace OdfCrypto

open ByteStream Text

/-! ### A password and a member -/

section

variable {ρ ω : Type} [Read ρ IoError] (P : Prims) (archive : Archive ρ) (password : Str)
  (row : EntryEncryption) (index : ℕ)

/-- An opening of a member on which its checksum accepts a key. -/
def DigestPass (key : Bytes) (k : ℕ) : Prop :=
  ∃ file gate, archive.byIndex k index = .ok file ∧ gated P file row key = .ok gate ∧
    gate.verify.1 = .ok ()

/-- A key that a password stands for, and that a member accepts, by its tag or by its
    checksum. -/
structure Genuine (key : Bytes) : Prop where
  derived : ∃ sk ∈ startKeys P row password, ∃ (limits : DecryptLimits) (ω : Type) (s s' : Run ω),
    deriveKey P row sk limits s = (.ok key, s')
  accepted : (∃ len k, FirstPass P archive index row len key k) ∨
    ∃ k, DigestPass P archive row index key k

/-- A key of the password was accepted on a member, in a run with some log. -/
def Tested (log : List Event) : Prop :=
  ∃ key, .accepted row index key ∈ log ∧ Genuine P archive password row index key

variable {P archive password row index} {limits : DecryptLimits}

theorem Tested.mono {log log' : List Event} (h : Tested P archive password row index log)
    (hlog : ∃ events, log' = log ++ events) : Tested P archive password row index log' := by
  obtain ⟨key, hm, hkey⟩ := h
  obtain ⟨events, rfl⟩ := hlog
  exact ⟨key, List.mem_append_left _ hm, hkey⟩

theorem Untouched.checksumAccepts (key : Bytes) :
    Prog.Within Untouched (checksumAccepts P archive index row limits key : Decrypt ω Bool) := by
  refine .bind trans (openMember archive index) fun file => .bind trans (.lift refl _) fun gate => ?_
  rcases gate.verify.1 with e | u
  · dsimp only
    rcases Fault.take e with e | fault
    · exact .fail refl _
    · cases fault <;> first | exact .fail refl _ | exact .pure refl _
  · exact .pure refl _

theorem checksumAccepts_eq_ok {key : Bytes} {s s' : Run ω}
    (h : checksumAccepts P archive index row limits key s = (.ok true, s')) :
    DigestPass P archive row index key s.opened := by
  obtain ⟨file, s₁, ho, h⟩ := Prog.bind_eq_ok.1 h
  obtain ⟨hfile, rfl⟩ := openMember_eq_ok ho
  obtain ⟨gate, hgate, h⟩ := Prog.lift_bind_eq_ok.1 h
  rw [Except.mapError_eq_ok] at hgate
  refine ⟨file, gate, hfile, hgate, ?_⟩
  rcases hv : gate.verify.1 with e | u
  · rw [hv] at h
    dsimp only at h
    rcases ht : Fault.take e with e | fault <;> rw [ht] at h
    · cases h
    · cases fault <;> cases h
  · rfl

/-- A key that is found is logged, and stands for the password. -/
theorem findKey_tested {accepts : Bytes → Decrypt ω Bool}
    (haccepts : ∀ key, Prog.Within Untouched (accepts key))
    (hpass : ∀ {key : Bytes} {s s' : Run ω}, accepts key s = (.ok true, s') →
      (∃ len k, FirstPass P archive index row len key k) ∨ ∃ k, DigestPass P archive row index key k)
    {key : Bytes} {s s' : Run ω}
    (h : (do
      let key ← findKey P row password limits accepts
      record (.accepted row index key)
      return key : Decrypt ω Bytes) s = (.ok key, s')) :
    Tested P archive password row index s'.log := by
  obtain ⟨found, s₁, hf, h⟩ := Prog.bind_eq_ok.1 h
  cases h
  obtain ⟨sk, hsk, s₀, s₂, -, hd, -, ha⟩ := tryKeys_eq_ok P haccepts hf
  exact ⟨key, List.mem_append_right _ List.mem_cons_self, ⟨sk, hsk, limits, ω, s₀, s₂, hd⟩, hpass ha⟩

theorem gcmKey_tested {len : ℕ} {key : Bytes} {s s' : Run ω}
    (h : gcmKey P archive index row len password limits s = (.ok key, s')) :
    Tested P archive password row index s'.log :=
  findKey_tested (Untouched.gcmAccepts archive index P row len)
    (fun ha => .inl ⟨len, _, (gcmAccepts_eq_ok ha).1⟩) h

theorem checksumKey_tested {key : Bytes} {s s' : Run ω}
    (h : checksumKey P archive index row password limits s = (.ok key, s')) :
    Tested P archive password row index s'.log :=
  findKey_tested Untouched.checksumAccepts (fun ha => .inr ⟨_, checksumAccepts_eq_ok ha⟩) h

theorem keyFor_tested {plan : Plan} {s s' : Run ω}
    (h : keyFor P archive index plan password limits s = (.ok (), s')) :
    Tested P archive password plan.row index s'.log := by
  unfold keyFor at h
  rcases hc : plan.row.cipher with - | - | - <;> rw [hc] at h <;>
    obtain ⟨key, s₁, hk, h⟩ := Prog.bind_eq_ok.1 h <;> cases h
  · exact checksumKey_tested hk
  · exact checksumKey_tested hk
  · exact gcmKey_tested hk

/-- A member that is decrypted to its end was tested before. -/
theorem gcmMember_tested {len : ℕ}
    {release : GcmDecryptReader P ρ → Decrypt ω (GcmDecryptReader P ρ)}
    (hrel : ∀ plain, Prog.Logs Run.log (fun _ _ => True) (release plain)) {s s' : Run ω}
    (h : gcmMember P archive index row len password limits release s = (.ok (), s')) :
    Tested P archive password row index s'.log := by
  obtain ⟨key, s₁, hkey, h⟩ := Prog.bind_eq_ok.1 h
  refine (gcmKey_tested hkey).mono ?_
  obtain ⟨file, s₂, ho, h⟩ := Prog.bind_eq_ok.1 h
  rcases hg : GcmStream.new P key row.iv with - | gcm <;> rw [hg] at h
  · cases h
  obtain ⟨plain, s₃, hp, h⟩ := Prog.bind_eq_ok.1 h
  obtain ⟨plain', s₄, hd, he⟩ := Prog.bind_eq_ok.1 h
  obtain ⟨events, hlog, -⟩ := (hrel _).of_eq hp
  refine ⟨events, ?_⟩
  rw [(ensureEnd_keeps Run.log _).of_ok he, (drain_keeps Run.log _).of_ok hd, hlog,
    (openAfterIv_keeps Run.log_reopened archive index).of_ok ho]

theorem decryptMember_tested {S : Type} [ZipSink S] [LawfulSink S] {name : Str} {plan : Plan}
    {s s' : Run S}
    (h : decryptMember P archive index name plan password limits s = (.ok (), s')) :
    Tested P archive password plan.row index s'.log := by
  have hwrite {σ : Type} [Read σ IoError] (deflated : σ) : Prog.Logs Run.log (fun _ _ => True)
      (writeInflated P name plan.row index plan.expected limits deflated : Decrypt S σ) :=
    Prog.Logs.mono (writeInflated_logs P index plan.row limits name deflated)
      fun _ => trivial
  obtain ⟨_, s₁, -, h⟩ := Prog.bind_eq_ok.1 h
  rcases Prog.ite_eq_ok.1 h with ⟨-, h⟩ | ⟨-, h⟩
  · exact gcmMember_tested hwrite h
  obtain ⟨key, s₂, hkey, h⟩ := Prog.bind_eq_ok.1 h
  refine (checksumKey_tested hkey).mono ?_
  obtain ⟨file, s₃, ho, h⟩ := Prog.bind_eq_ok.1 h
  obtain ⟨gate, -, h⟩ := Prog.lift_bind_eq_ok.1 h
  obtain ⟨plain, s₄, hp, h⟩ := Prog.bind_eq_ok.1 h
  obtain ⟨plain', s₅, hd, h⟩ := Prog.bind_eq_ok.1 h
  cases h
  obtain ⟨events, hlog, -⟩ := (hwrite _).of_eq hp
  exact ⟨events, by rw [(drain_keeps Run.log _).of_ok hd, hlog,
    (openMember_keeps Run.log_reopened archive index).of_ok ho]⟩

end

/-! ### What becomes of the rows -/

section

variable {ρ ω : Type} (archive : Archive ρ)

/-- Lookups that come to one name come to one entry. -/
theorem Found.index_eq {path path' name : Str} {index index' : ℕ} {archive : Archive ρ}
    (h : Found archive path index name) (h' : Found archive path' index' name) : index = index' := by
  obtain ⟨hn, hm, hfirst⟩ := found_iff.1 h
  obtain ⟨hn', hm', hfirst'⟩ := found_iff.1 h'
  rcases Nat.lt_trichotomy index index' with hlt | heq | hlt
  · exact absurd ⟨name, hn, hm'⟩ (hfirst' index hlt)
  · exact heq
  · exact absurd ⟨name, hn', hm⟩ (hfirst index' hlt)

/-- Each row has a plan, or one that a later row on its member took the place of. -/
structure Accounted (rows : List EntryEncryption) (plans : List (Str × Plan) × List (ℕ × Plan)) :
    Prop where
  planned : ∀ {name plan}, plans.1.lookup name = some plan →
    plan.row ∈ rows ∧ ∃ index, Found archive plan.row.path index name
  kept : ∀ row ∈ rows, ∃ index name, Found archive row.path index name ∧
    ((∃ plan, plans.1.lookup name = some plan ∧ plan.row = row) ∨
      ∃ plan, (index, plan) ∈ plans.2 ∧ plan.row = row)
  followed : ∀ {row row' index name}, [row, row'].Sublist rows →
    Found archive row.path index name → Found archive row'.path index name →
    ∃ plan, (index, plan) ∈ plans.2 ∧ plan.row = row
  superseded : ∀ p ∈ plans.2, ∃ row' name, [p.2.row, row'].Sublist rows ∧
    Found archive p.2.row.path p.1 name ∧ Found archive row'.path p.1 name

variable {archive}

theorem Accounted.nil : Accounted archive [] ([], []) where
  planned hl := by cases hl
  kept _ hr := by cases hr
  followed hs := by cases hs
  superseded _ hp := by cases hp

theorem sublist_concat_pair {α : Type} {a b c : α} {l : List α} (h : [a, b].Sublist (l ++ [c])) :
    [a, b].Sublist l ∨ a ∈ l ∧ b = c := by
  obtain ⟨l₁, l₂, heq, h₁, h₂⟩ := List.sublist_append_iff.1 h
  rcases List.sublist_singleton.1 h₂ with rfl | rfl
  · rw [List.append_nil] at heq
    exact .inl (heq ▸ h₁)
  · have hsplit : [a] ++ [b] = l₁ ++ [c] := heq
    obtain ⟨rfl, hb⟩ := List.append_inj' hsplit rfl
    exact .inr ⟨List.singleton_sublist.1 h₁, (List.cons.inj hb).1⟩

/-- One plan more, which may take the place of another. -/
theorem Accounted.assign {rows : List EntryEncryption}
    {plans plans' : List (Str × Plan) × List (ℕ × Plan)} {name : Str} {plan : Plan} {index : ℕ}
    (h : Accounted archive rows plans) (hfound : Found archive plan.row.path index name)
    (h1 : plans'.1 = Assoc.assign name plan plans.1)
    (h2 : plans'.2 = match plans.1.lookup name with
      | some earlier => plans.2 ++ [(index, earlier)]
      | none => plans.2) : Accounted archive (rows ++ [plan.row]) plans' := by
  have hold : ∀ p ∈ plans.2, p ∈ plans'.2 := by
    intro p hp
    rw [h2]
    split
    · exact List.mem_append_left _ hp
    · exact hp
  have hearlier {earlier : Plan} (hl : plans.1.lookup name = some earlier) :
      (index, earlier) ∈ plans'.2 := by
    rw [h2, hl]
    exact List.mem_append_right _ List.mem_cons_self
  -- what became of an earlier row, where the new plan has its name
  have hrow {row : EntryEncryption} (hr : row ∈ rows) (hf : Found archive row.path index name) :
      ∃ plan, (index, plan) ∈ plans'.2 ∧ plan.row = row := by
    obtain ⟨i, n, hf', hkept⟩ := h.kept row hr
    obtain ⟨rfl, rfl⟩ := hf.unique hf'
    rcases hkept with ⟨p, hl, hp⟩ | ⟨p, hp, hr⟩
    · exact ⟨p, hearlier hl, hp⟩
    · exact ⟨p, hold _ hp, hr⟩
  constructor
  · intro n p hl
    rw [h1, Assoc.lookup_assign] at hl
    split at hl
    · next hn =>
      cases hl
      exact ⟨List.mem_append_right _ List.mem_cons_self, index, hn ▸ hfound⟩
    · obtain ⟨hr, hf⟩ := h.planned hl
      exact ⟨List.mem_append_left _ hr, hf⟩
  · intro row hr
    rw [h1]
    rcases List.mem_append.1 hr with hr | hr
    · obtain ⟨i, n, hf, hkept⟩ := h.kept row hr
      by_cases hn : n = name
      · obtain rfl := hn
        obtain rfl := hf.index_eq hfound
        exact ⟨i, n, hf, .inr (hrow hr hf)⟩
      · refine ⟨i, n, hf, hkept.imp (fun ⟨p, hl, hp⟩ => ⟨p, ?_, hp⟩)
          fun ⟨p, hm, hp⟩ => ⟨p, hold _ hm, hp⟩⟩
        rwa [Assoc.lookup_assign, if_neg hn]
    · obtain rfl := List.mem_singleton.1 hr
      exact ⟨index, name, hfound, .inl ⟨plan, by rw [Assoc.lookup_assign, if_pos rfl], rfl⟩⟩
  · intro row row' i n hs hf hf'
    rcases sublist_concat_pair hs with hs | ⟨hr, rfl⟩
    · exact (h.followed hs hf hf').imp fun p hp => ⟨hold _ hp.1, hp.2⟩
    · obtain ⟨rfl, rfl⟩ := hfound.unique hf'
      exact hrow hr hf
  · intro p hp
    have hbefore (hp : p ∈ plans.2) : ∃ row' name, [p.2.row, row'].Sublist (rows ++ [plan.row]) ∧
        Found archive p.2.row.path p.1 name ∧ Found archive row'.path p.1 name :=
      (h.superseded p hp).imp fun _ h => h.imp fun _ h =>
        ⟨h.1.trans (List.sublist_append_left _ _), h.2⟩
    rw [h2] at hp
    split at hp
    · next earlier hl =>
      rcases List.mem_append.1 hp with hp | hp
      · exact hbefore hp
      · obtain rfl := List.mem_singleton.1 hp
        obtain ⟨hr, i, hf⟩ := h.planned hl
        obtain rfl := hf.index_eq hfound
        exact ⟨plan.row, name, (List.singleton_sublist.2 hr).append (List.Sublist.refl _), hf, hfound⟩
    · exact hbefore hp

theorem planRows_accounted [Read ρ IoError] {cls : Classification} {sizes : Sizes}
    {plans : List (Str × Plan) × List (ℕ × Plan)} {s s' : Run ω}
    (h : planRows archive cls sizes s = (.ok plans, s')) :
    Accounted archive cls.encryptedEntries plans := by
  have hall := Prog.each_induct (fun done plans _ => Accounted archive (done.map Prod.fst) plans)
    .nil ?_ h
  · rwa [List.zipIdx_map_fst] at hall
  rintro done row _ before after s₁ s₂ - hI hrow
  obtain ⟨_, -, hok, -⟩ := (planRow_logs before row).of_eq hrow
  obtain ⟨index, name, plan, -, -, -, -, hplan, hfound, h1, h2⟩ := hok _ rfl
  rw [List.map_append, List.map_singleton, ← hplan]
  exact hI.assign (hplan ▸ hfound) h1 h2

end

/-! ### What a rebuild tests -/

/-- Events that accept keys only where it is allowed. -/
def AcceptsOnly (allowed : EntryEncryption → ℕ → Prop) (events : List Event) : Prop :=
  ∀ row index key, .accepted row index key ∈ events → allowed row index

section

variable {ρ : Type} {archive : Archive ρ} {allowed : EntryEncryption → ℕ → Prop}
  {row : EntryEncryption} {index : ℕ} {limits : DecryptLimits} {ok : Bool} {events : List Event}

theorem AcceptsOnly.append {more : List Event} (h : AcceptsOnly allowed events)
    (hmore : AcceptsOnly allowed more) : AcceptsOnly allowed (events ++ more) :=
  fun row index key hm => (List.mem_append.1 hm).elim (h row index key) (hmore row index key)

theorem KeyLog.acceptsOnly (h : KeyLog row index limits ok events) (hallowed : allowed row index) :
    AcceptsOnly allowed events := by
  obtain ⟨k, -, key, -, -, rfl⟩ := h
  intro row' index' key' hm
  rcases List.mem_append.1 hm with hm | hm
  · cases List.eq_of_mem_replicate hm
  · obtain ⟨_, -, heq⟩ := List.mem_map.1 hm
    cases heq
    exact hallowed

theorem MemberLog.acceptsOnly {expected : ℕ} (h : MemberLog index row limits expected ok events)
    (hallowed : allowed row index) : AcceptsOnly allowed events := by
  obtain ⟨k, key, given, hk, hw, -, rfl, -⟩ := h
  have hkeys : KeyLog row index limits _ _ := ⟨k, hk, key, hw, rfl, rfl⟩
  refine (hkeys.acceptsOnly hallowed).append ?_
  intro row' index' key' hm
  obtain ⟨_, -, heq⟩ := List.mem_map.1 hm
  cases heq

theorem acceptsOnly_screened {sizes : Sizes} {rows : List EntryEncryption}
    (h : List.Forall₂ (Screened archive sizes) rows events) : AcceptsOnly allowed events := by
  induction h with
  | nil => exact fun _ _ _ hm => absurd hm List.not_mem_nil
  | cons hs _ ih =>
    obtain ⟨i, len, head, rfl, -⟩ := hs
    intro row index key hm
    rcases List.mem_cons.1 hm with heq | hm
    · cases heq
    · exact ih row index key hm

end

section

variable {ρ S : Type} [Read ρ IoError] (P : Prims) (archive : Archive ρ) (password : Str)

/-- What a rebuild may test: the rows that others took the place of, and those whose
    members it decrypts. -/
def MayTest (plans : List (Str × Plan) × List (ℕ × Plan)) (row : EntryEncryption) (index : ℕ) :
    Prop :=
  (∃ plan, (index, plan) ∈ plans.2 ∧ plan.row = row) ∨
    ∃ name plan, treatment plans.1 name = .decrypt plan ∧ plan.row = row

/-- What a rebuild that succeeds has tested, and that it has tested nothing else. -/
structure RebuildTests (plans : List (Str × Plan) × List (ℕ × Plan)) (log : List Event) : Prop where
  only : AcceptsOnly (MayTest plans) log
  superseded : ∀ p ∈ plans.2, Tested P archive password p.2.row p.1 log
  decrypted : ∀ {index name plan}, nameAt archive.directory index = some name →
    treatment plans.1 name = .decrypt plan → Tested P archive password plan.row index log

variable {P archive password} {limits : DecryptLimits}
  {plans : List (Str × Plan) × List (ℕ × Plan)}

theorem keys_tested {s s' : Run S}
    (h : Prog.each (fun () (index, plan) => keyFor P archive index plan password limits) ()
      plans.2 s = (.ok (), s')) (hs : AcceptsOnly (MayTest plans) s.log) :
    AcceptsOnly (MayTest plans) s'.log ∧
      ∀ p ∈ plans.2, Tested P archive password p.2.row p.1 s'.log := by
  refine Prog.each_induct (fun done _ s => AcceptsOnly (MayTest plans) s.log ∧
    ∀ p ∈ done, Tested P archive password p.2.row p.1 s.log)
    ⟨hs, fun _ hp => absurd hp List.not_mem_nil⟩ ?_ h
  rintro done ⟨index, plan⟩ rest _ _ s₁ s₂ hl ⟨hI, htested⟩ hk
  obtain ⟨events, hlog, hkey⟩ :=
    Prog.LogsOk.of_eq (keyFor_logs P archive index limits plan password) hk
  have hmem : (index, plan) ∈ plans.2 := hl ▸ List.mem_append_right _ List.mem_cons_self
  refine ⟨hlog ▸ hI.append (hkey.acceptsOnly (.inl ⟨plan, hmem, rfl⟩)), fun p hp => ?_⟩
  rcases List.mem_append.1 hp with hp | hp
  · exact (htested p hp).mono ⟨events, hlog⟩
  · obtain rfl := List.mem_singleton.1 hp
    exact keyFor_tested hk

variable [ZipSink S] [LawfulSink S]

theorem rebuildMember_tested {stripped : Bytes} {done done' : Rebuilt} {entry : FileData × ℕ}
    {s s' : Run S}
    (h : rebuildMember P archive plans.1 stripped password limits done entry s = (.ok done', s')) :
    ∃ events, s'.log = s.log ++ events ∧ AcceptsOnly (MayTest plans) events ∧
      ∀ {plan}, treatment plans.1 (zipEntryName entry.1.nameRaw) = .decrypt plan →
        Tested P archive password plan.row entry.2 s'.log := by
  obtain ⟨_, s₁, ho, h⟩ := Prog.bind_eq_ok.1 h
  rw [← (openMember_keeps Run.log_reopened archive entry.2).of_ok ho]
  have hnil : AcceptsOnly (MayTest plans) [] := fun _ _ _ hm => absurd hm List.not_mem_nil
  dsimp only at h
  -- Only a decrypted member tests a key; the manifest and a copied member log nothing.
  rcases ht : treatment plans.1 (zipEntryName entry.1.nameRaw) with - | plan | - <;> rw [ht] at h
  · obtain ⟨a, s₂, hsink, h⟩ := Prog.bind_eq_ok.1 h
    cases h
    have hlog : s'.log = s₁.log := Prog.Silent.of_eq (fun s => List.append_nil (Run.log s)) hsink
    exact ⟨[], by rw [hlog, List.append_nil], hnil, nofun⟩
  · obtain ⟨_, s₂, hd, h⟩ := Prog.bind_eq_ok.1 h
    cases h
    rw [Prog.mapError_eq_ok] at hd
    obtain ⟨events, hlog, new, rfl, hnew⟩ := Prog.LogsOk.of_eq
      (decryptMember_logs P archive entry.2 _ (zipEntryName entry.1.nameRaw) plan password) hd
    refine ⟨_, hlog, ?_, ?_⟩
    · intro row index key hm
      rcases List.mem_cons.1 hm with heq | hm
      · cases heq
      · exact hnew.acceptsOnly (.inr ⟨_, plan, ht, rfl⟩) row index key hm
    · rintro _ ⟨⟩
      exact decryptMember_tested hd
  · obtain ⟨_, s₂, hc, h⟩ := Prog.bind_eq_ok.1 h
    cases h
    have hlog := (copyMember_silent archive entry.2 _ entry.1 limits).of_eq hc
    exact ⟨[], by rw [hlog, List.append_nil], hnil, nofun⟩

/-- A rebuild that succeeds has tested the members that it decrypted, after those of the
    rows that others took the place of. -/
theorem perEntry_tests {cls : Classification} {sizes : Sizes} {integrity : IntegrityOutcome}
    {s s' : Run S} (h : perEntry P archive cls password limits sizes s = (.ok integrity, s'))
    (hs : s.log = []) : ∃ plans, Accounted archive cls.encryptedEntries plans ∧
      RebuildTests P archive password plans s'.log := by
  obtain ⟨plans, s₁, hp, h⟩ := Prog.bind_eq_ok.1 h
  obtain ⟨_, s₂, hk, h⟩ := Prog.bind_eq_ok.1 h
  obtain ⟨manifest, s₃, hm, h⟩ := Prog.bind_eq_ok.1 h
  obtain ⟨stripped, -, h⟩ := Prog.lift_bind_eq_ok.1 h
  obtain ⟨done, s₄, he, h⟩ := Prog.bind_eq_ok.1 h
  cases h
  obtain ⟨screens, hlog, hok, -⟩ := (planRows_logs cls).of_eq hp
  rw [hs, List.nil_append] at hlog
  obtain ⟨honly, hsuperseded⟩ := keys_tested hk (hlog ▸ acceptsOnly_screened (hok _ rfl).1)
  rw [← (readManifest_keeps Run.log_reopened archive).of_ok hm] at honly hsuperseded
  -- The invariant over the members: no event outside what may be tested, and every
  -- member done was tested.
  obtain ⟨honly', hsuperseded', hdecrypted⟩ := Prog.each_induct
    (fun done _ s => AcceptsOnly (MayTest plans) s.log ∧
      (∀ p ∈ plans.2, Tested P archive password p.2.row p.1 s.log) ∧
      ∀ entry ∈ done, ∀ plan, treatment plans.1 (zipEntryName entry.1.nameRaw) = .decrypt plan →
        Tested P archive password plan.row entry.2 s.log)
    ⟨honly, hsuperseded, fun _ hmem => absurd hmem List.not_mem_nil⟩
    (by
      rintro before entry rest c c' s₅ s₆ - ⟨hI, hsup, hdec⟩ hstep
      obtain ⟨events, hlog, hnew, htested⟩ := rebuildMember_tested hstep
      refine ⟨hlog ▸ hI.append hnew, fun p hp => (hsup p hp).mono ⟨events, hlog⟩, ?_⟩
      intro entry' hmem plan ht
      rcases List.mem_append.1 hmem with hmem | hmem
      · exact (hdec entry' hmem plan ht).mono ⟨events, hlog⟩
      · obtain rfl := List.mem_singleton.1 hmem
        exact htested ht) he
  refine ⟨plans, planRows_accounted hp, honly', hsuperseded', ?_⟩
  intro index name plan hname ht
  obtain ⟨file, hget, rfl⟩ := nameAt_eq_some.1 hname
  exact hdecrypted (file, index) (List.mk_mem_zipIdx_iff_getElem?.2 hget) plan ht

end

/-! ### When every row is checked -/

section

variable {ρ : Type} [Read ρ IoError] (P : Prims) (archive : Archive ρ) (password : Str)

/-- The password was checked against a row: a key of it was accepted on the member that
    the row names. -/
def Checked (log : List Event) (row : EntryEncryption) : Prop :=
  ∃ index name, Found archive row.path index name ∧ Tested P archive password row index log

omit [Read ρ IoError] in
/-- A row that names the manifest comes before another row on that member. -/
def ManifestFollowed (rows : List EntryEncryption) : Prop :=
  ∀ row ∈ rows, ∀ index name, Found archive row.path index name →
    memberMatchesPath name manifestPath = true →
    ∃ row', [row, row'].Sublist rows ∧ Found archive row'.path index name

variable {P archive password} {plans : List (Str × Plan) × List (ℕ × Plan)}
  {rows : List EntryEncryption} {log : List Event}

theorem RebuildTests.checked_iff (h : RebuildTests P archive password plans log)
    (ha : Accounted archive rows plans) :
    (∀ row ∈ rows, Checked P archive password log row) ↔ ManifestFollowed archive rows := by
  constructor
  · intro hall row hr index name hf hmanifest
    obtain ⟨index', name', hf', key, hm, -⟩ := hall row hr
    obtain ⟨rfl, rfl⟩ := hf.unique hf'
    rcases h.only row _ key hm with ⟨plan, hmem, rfl⟩ | ⟨n, plan, ht, rfl⟩
    · obtain ⟨row', n, hs, hfn, hfn'⟩ := ha.superseded _ hmem
      obtain ⟨-, rfl⟩ := hf.unique hfn
      exact ⟨row', hs, hfn'⟩
    · -- the manifest is never decrypted
      obtain ⟨-, i, hfn⟩ := ha.planned (lookup_of_treatment ht)
      obtain ⟨-, rfl⟩ := hf.unique hfn
      rw [treatment, if_pos hmanifest] at ht
      cases ht
  · intro hfollowed row hr
    obtain ⟨index, name, hf, ⟨plan, hl, rfl⟩ | ⟨plan, hm, rfl⟩⟩ := ha.kept row hr
    · refine ⟨index, name, hf, ?_⟩
      by_cases hmanifest : memberMatchesPath name manifestPath = true
      · obtain ⟨row', hs, hf'⟩ := hfollowed _ hr index name hf hmanifest
        obtain ⟨p, hm, hp⟩ := ha.followed hs hf hf'
        exact hp ▸ h.superseded _ hm
      · exact h.decrypted (found_iff.1 hf).1 (by rw [treatment, if_neg hmanifest, hl])
    · exact ⟨index, name, hf, h.superseded _ hm⟩

end

/-! ### The entry points -/

section

variable {ρ ω : Type} [Read ρ IoError] (P : Prims) (source : Source ρ) (password : Str)
  (limits : DecryptLimits)

/-- A call of `decrypt_to` or of `decrypt` that succeeds, with its log. -/
inductive Decrypted : List Event → Prop
  | toWriter {ω : Type} [Write ω IoError] [Flush ω IoError] {writer : ω} {outcome : DecryptOutcome}
    {s : Run ω} (call : decryptWithLimitsTo P source writer password limits = (.ok outcome, s)) :
    Decrypted s.log
  | slice {ζ : Type} [CrateOver ζ SliceWriter] {bytes : Bytes} {s : Run SliceWriter}
    (call : decryptSlice P ζ source password limits = (.ok bytes, s)) : Decrypted s.log

/-- The rows that a run is responsible for. -/
def rowsInCharge (cls : Classification) : List EntryEncryption :=
  match cls.mode with
  | .wholesome => cls.wholesomeRow.toList
  | _ => cls.encryptedEntries

/-- When a run that succeeds has checked every row. -/
def ChecksAll (cls : Classification) (archive : Archive ρ) (log : List Event) : Prop :=
  (∀ row ∈ rowsInCharge cls, Checked P archive password log row) ↔
    (cls.mode = .wholesome ∨ ManifestFollowed archive cls.encryptedEntries)

variable {P source password limits} {cls : Classification} {archive : Archive ρ}

theorem wholesomeRow_eq_ok {rowIndex : ℕ} {row : EntryEncryption}
    (h : wholesomeRow cls = .ok (rowIndex, row)) (hmode : cls.mode = .wholesome) :
    cls.wholesomeRow = some row := by
  unfold wholesomeRow at h
  split at h
  · next row' index hf =>
    cases h
    rw [Classification.wholesomeRow, if_neg (not_not.2 hmode)]
    have hmap := congrArg (Option.map Prod.fst) hf
    simp only [hmode, true_and] at hmap
    have hfind : (cls.encryptedEntries.zipIdx.map Prod.fst).find?
        (fun e => e.path = ascii "encrypted-package") = some row := by
      rw [List.find?_map]
      exact hmap
    rwa [List.zipIdx_map_fst] at hfind
  · cases h

/-- The row of a wholesome package is checked. -/
theorem wholesome_checksAll [Write ω IoError] {rowIndex : ℕ} {row : EntryEncryption} {sizes : Sizes}
    {s s' : Run ω} (hmode : cls.mode = .wholesome) (hrow : wholesomeRow cls = .ok (rowIndex, row))
    (h : wholesome P archive rowIndex row password limits sizes s = (.ok (), s')) :
    ChecksAll P password cls archive s'.log := by
  refine iff_of_true ?_ (.inl hmode)
  rw [rowsInCharge, hmode]
  intro row' hr
  rw [wholesomeRow_eq_ok hrow hmode, Option.toList_some] at hr
  obtain rfl := List.mem_singleton.1 hr
  obtain ⟨expected, -, h⟩ := Prog.lift_bind_eq_ok.1 h
  obtain ⟨⟨index, name⟩, s₁, hfound, h⟩ := Prog.bind_eq_ok.1 h
  obtain ⟨⟨len, head⟩, s₂, -, h⟩ := Prog.bind_eq_ok.1 h
  obtain ⟨_, -, h⟩ := Prog.lift_bind_eq_ok.1 h
  obtain ⟨_, s₃, -, h⟩ := Prog.bind_eq_ok.1 h
  obtain ⟨_, s₄, -, h⟩ := Prog.bind_eq_ok.1 h
  refine ⟨index, name, firstMember_eq_ok hfound, gcmMember_tested (fun plain => ?_) h⟩
  exact Prog.Logs.mono (releaseOut_logs P limits row' index expected plain) fun _ => trivial

theorem perEntry_checksAll {S : Type} [ZipSink S] [LawfulSink S] {sizes : Sizes}
    {integrity : IntegrityOutcome} {s s' : Run S} (hmode : cls.mode ≠ .wholesome)
    (h : perEntry P archive cls password limits sizes s = (.ok integrity, s')) (hs : s.log = []) :
    ChecksAll P password cls archive s'.log := by
  obtain ⟨plans, ha, htests⟩ := perEntry_tests h hs
  have hrows : rowsInCharge cls = cls.encryptedEntries := by
    unfold rowsInCharge
    split
    · next h => exact absurd h hmode
    · rfl
  rw [ChecksAll, hrows, or_iff_right hmode]
  exact htests.checked_iff ha

theorem decryptRun_checksAll [Write ω IoError] [Flush ω IoError] {writer : ω}
    {outcome : DecryptOutcome} {s' : Run ω}
    (h : decryptRun P source password limits { out := writer } = (.ok outcome, s')) :
    ∃ cls archive, classifyLatched P.xmlReader (source.openArchive 0) = .ok cls ∧
      source.openArchive 1 = .ok archive ∧ ChecksAll P password cls archive s'.log := by
  obtain ⟨⟨cls, archive⟩, s₁, hb, h⟩ := Prog.bind_eq_ok.1 h
  have hs : s₁.log = [] := (begin_silent P source limits).of_eq hb
  obtain ⟨hcls, -, hopen⟩ := begin_eq_ok P source limits hb
  refine ⟨cls, archive, hcls, hopen, ?_⟩
  have hrest (hmode : cls.mode ≠ .wholesome) (h : (do
      let integrity ← intoZip P limits (perEntry P archive cls password limits .streamed)
      return (⟨integrity⟩ : DecryptOutcome)) s₁ = (.ok outcome, s')) :
      ChecksAll P password cls archive s'.log := by
    obtain ⟨integrity, s₂, hz, h⟩ := Prog.bind_eq_ok.1 h
    cases h
    obtain ⟨s₃, hentry, hlog⟩ := intoZip_eq_ok hz
    rw [hlog]
    exact perEntry_checksAll hmode hentry hs
  dsimp only at h
  rcases hmode : cls.mode with - | - | - <;> rw [hmode] at h
  · exact hrest (by rw [hmode]; decide) h
  · exact hrest (by rw [hmode]; decide) h
  · obtain ⟨⟨rowIndex, row⟩, hrow, h⟩ := Prog.lift_bind_eq_ok.1 h
    obtain ⟨_, s₂, hw, h⟩ := Prog.bind_eq_ok.1 h
    cases h
    exact wholesome_checksAll hmode hrow hw

theorem decryptSliceRun_checksAll {ζ : Type} [CrateOver ζ SliceWriter] {s s' : Run SliceWriter}
    (h : decryptSliceRun P ζ archive cls password limits s = (.ok (), s')) (hs : s.log = []) :
    ChecksAll P password cls archive s'.log := by
  have hrest (hmode : cls.mode ≠ .wholesome) (h : (do
      let bound ← rebuildBound archive cls
      onOutput fun _ => (.ok (), SliceWriter.zeroed bound)
      (intoCrate ζ limits
        do let _ ← perEntry P archive cls password limits .wholeBuffer).mapError ours) s =
          (.ok (), s')) : ChecksAll P password cls archive s'.log := by
    obtain ⟨bound, s₁, hbound, h⟩ := Prog.bind_eq_ok.1 h
    obtain ⟨_, s₂, ho, h⟩ := Prog.bind_eq_ok.1 h
    rw [Prog.mapError_eq_ok] at h
    obtain ⟨s₃, hx, hlog⟩ := intoCrate_eq_ok h
    obtain ⟨integrity, s₄, hentry, hx⟩ := Prog.bind_eq_ok.1 hx
    cases hx
    have hlog₁ : s₁.log = s.log := Prog.Silent.of_eq (Prog.Silent.bind (.each
      (fun _ _ => (openMemberRaw_silent archive _).bind fun _ => .pure _) _ _) fun _ => .pure _) hbound
    have hlog₂ : s₂.log = s₁.log := (onOutput_untouched ho).2
    rw [hlog]
    exact perEntry_checksAll hmode hentry (by rw [Run.withOut_log, hlog₂, hlog₁]; exact hs)
  unfold decryptSliceRun at h
  rcases hmode : cls.mode with - | - | - <;> rw [hmode] at h
  · exact hrest (by rw [hmode]; decide) h
  · exact hrest (by rw [hmode]; decide) h
  · obtain ⟨⟨rowIndex, row⟩, hrow, h⟩ := Prog.lift_bind_eq_ok.1 h
    obtain ⟨n, -, h⟩ := Prog.lift_bind_eq_ok.1 h
    obtain ⟨_, s₁, ho, h⟩ := Prog.bind_eq_ok.1 h
    rw [Prog.mapError_eq_ok] at h
    exact wholesome_checksAll hmode hrow h

/-- A call that succeeds has checked the password against every row if and only if no row
    names the manifest, but for those with a later row on the same member. -/
theorem passwordChecked_iff {log : List Event} (h : Decrypted P source password limits log) :
    ∃ cls archive, classifyLatched P.xmlReader (source.openArchive 0) = .ok cls ∧
      source.openArchive 1 = .ok archive ∧ ChecksAll P password cls archive log := by
  rcases h with @⟨_, _, _, writer, outcome, _, h⟩ | h
  · unfold decryptWithLimitsTo at h
    split at h
    · cases h
    rcases hr : decryptRun P source password limits { out := writer } with ⟨result, s₁⟩
    rw [hr] at h
    dsimp only at h
    split at h
    · cases h
    · cases h
      exact decryptRun_checksAll hr
  · unfold decryptSlice at h
    split at h
    · cases h
    obtain ⟨hres, rfl⟩ := Prod.mk.inj h
    obtain ⟨u, hres, -⟩ := Except.map_eq_ok.1 hres
    obtain ⟨⟨cls, archive⟩, s₁, hb, hrun⟩ := Prog.bind_eq_ok.1 (Prod.ext hres rfl : _ = (_, _))
    obtain ⟨hcls, -, hopen⟩ := begin_eq_ok P source limits hb
    exact ⟨cls, archive, hcls, hopen,
      decryptSliceRun_checksAll hrun ((begin_silent P source limits).of_eq hb)⟩

end

/-! ### A row that names the manifest -/

/-- A manifest with one encrypted row, which names the manifest; its IV is how the manifest
    begins. -/
def ownRowTokens : List Token :=
  [ .start (tag Uris.elementManifest [attr (ascii "xmlns:manifest") Uris.manifestNsOasis]),
    .start (tag Uris.elementFileEntry [
      attr Uris.attrFullPath manifestPath,
      attr Uris.attrSize (ascii "2")]),
    .start (tag Uris.elementEncryptionData []),
    .empty (tag Uris.elementAlgorithm [
      attr Uris.attrAlgorithmName Uris.aesgcm256Url,
      attr Uris.attrIv (ascii "PG1hbmlmZXN0Om1h")]),
    .empty (tag Uris.elementStartKeyGeneration [attr Uris.attrStartKeyName Uris.sha256Url]),
    .empty (tag Uris.elementKeyDerivation [
      attr Uris.attrKeyDerivationName Uris.pbkdf2Name,
      attr Uris.attrIterationCount (ascii "100000"),
      attr Uris.attrSalt (ascii "AAAAAAAAAAA="),
      attr Uris.attrKeySize (ascii "32")]),
    .close (utf8Encode Uris.elementEncryptionData),
    .close (utf8Encode Uris.elementFileEntry),
    .close (utf8Encode Uris.elementManifest)]

/-- The package of that manifest alone. -/
def ownRowSource : Source (Pieces IoError) where
  openArchive _ := .ok (memoryArchive (fun _ => 1024)
    [storedMember manifestPath (ownRowTokens.flatMap writeEvent)])

/-- It is decrypted, with some password. -/
def ownRowDecrypted : Except DecryptError DecryptOutcome × Run (Buffer IoError) :=
  decryptWithLimitsTo (primsReading ownRowTokens) ownRowSource ⟨[]⟩ (ascii "pw") {}

theorem decrypted_ownRow : Decrypted (primsReading ownRowTokens) ownRowSource (ascii "pw") {}
    ownRowDecrypted.2.log := by
  have hok : ownRowDecrypted.1.toOption = some ⟨.verified⟩ := by decide +kernel
  exact .toWriter (Except.eq_of_toOption hok)

/-- Whether a member accepted a key. -/
def Event.isAccepted : Event → Bool
  | .accepted .. => true
  | _ => false

/-- No key is accepted in that run. -/
theorem accepted_ownRow {row : EntryEncryption} {index : ℕ} {key : Bytes} :
    .accepted row index key ∉ ownRowDecrypted.2.log := by
  have hnone : ownRowDecrypted.2.log.any Event.isAccepted = false := by decide +kernel
  exact fun hm => List.any_eq_false.1 hnone _ hm rfl

/-- The row. -/
def ownRow : EntryEncryption where
  path := manifestPath
  cipher := .aesGcmW3c
  kdf := .pbkdf2 100000 (List.replicate 8 0)
  startKey := .sha256
  checksum := .none
  size := 2
  iv := bytesOf "<manifest:ma"
  derivedKeyLen := 32

theorem classified_ownRow : ∃ cls, classifyLatched (primsReading ownRowTokens).xmlReader
    (ownRowSource.openArchive 0) = .ok cls ∧ rowsInCharge cls = [ownRow] ∧ cls.mode = .perEntry := by
  have hrows : ((classifyLatched (primsReading ownRowTokens).xmlReader
      (ownRowSource.openArchive 0)).toOption.map fun cls => (rowsInCharge cls, cls.mode)) =
        some ([ownRow], .perEntry) := by decide +kernel
  obtain ⟨cls, hcls, h⟩ := Option.map_eq_some_iff.1 hrows
  exact ⟨cls, Except.toOption_eq_some.1 hcls, (Prod.mk.inj h).1, (Prod.mk.inj h).2⟩

theorem not_checked_ownRow (archive : Archive (Pieces IoError)) :
    ¬ Checked (primsReading ownRowTokens) archive (ascii "pw") ownRowDecrypted.2.log ownRow := by
  rintro ⟨index, name, -, key, hm, -⟩
  exact accepted_ownRow hm

/-- A package is decrypted whose only row names the manifest, and no password is checked. -/
theorem not_passwordChecked :
    ∃ log, Decrypted (primsReading ownRowTokens) ownRowSource (ascii "pw") {} log ∧
      ∃ cls, classifyLatched (primsReading ownRowTokens).xmlReader (ownRowSource.openArchive 0) =
          .ok cls ∧ cls.mode = .perEntry ∧
        ∃ row ∈ rowsInCharge cls, ∀ archive : Archive (Pieces IoError),
          ¬ Checked (primsReading ownRowTokens) archive (ascii "pw") log row := by
  obtain ⟨cls, hcls, hrows, hmode⟩ := classified_ownRow
  exact ⟨_, decrypted_ownRow, cls, hcls, hmode, ownRow, hrows ▸ List.mem_cons_self,
    not_checked_ownRow⟩

/-- No later row takes the place of that row. -/
theorem passwordChecked_iff_ownRow :
    ∃ cls archive, classifyLatched (primsReading ownRowTokens).xmlReader
        (ownRowSource.openArchive 0) = .ok cls ∧ ownRowSource.openArchive 1 = .ok archive ∧
      ¬ ManifestFollowed archive cls.encryptedEntries := by
  obtain ⟨cls, hcls, hrows, -⟩ := classified_ownRow
  obtain ⟨cls', archive, hcls', hopen, hiff⟩ := passwordChecked_iff decrypted_ownRow
  obtain rfl := Except.ok.inj (hcls.symm.trans hcls')
  refine ⟨cls, archive, hcls, hopen, fun h => ?_⟩
  exact not_checked_ownRow archive (hiff.2 (.inr h) ownRow (hrows ▸ List.mem_cons_self))

end OdfCrypto

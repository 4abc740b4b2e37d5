import Mathlib.Data.List.Forall2
import OdfCrypto.DecryptEntries.Sunk
import OdfCrypto.DecryptRun
import OdfCrypto.Lib.Logs
import OdfCrypto.Reencrypt

/-!
# What a run logs

The log of a run of `decrypt`, `decrypt_to` or `reencrypt_to` is that of the rows
it uses, each screened, and then of its attempts: for each, some derivations of a
key from the start keys of a row, until one is accepted, and then what is handed
out of the member (`Attempt.events`). A run goes on after an attempt only if its
key was found.
-/

namespace OdfCrypto

open ByteStream Text

/-- How many start keys a row is tried with. -/
def tries (row : EntryEncryption) : ℕ := if row.startKey = .sha1 then 4 else 1

/-- The parameters of a key derivation are within the limits. -/
def Kdf.Within (limits : DecryptLimits) : Kdf → Prop
  | .pbkdf2 iterations _ => pbkdf2MinIter ≤ iterations ∧ iterations ≤ limits.pbkdf2MaxIter
  | .argon2id t m p _ =>
    (argon2MinTCost ≤ t ∧ t ≤ limits.argon2MaxT) ∧
      (argon2MinMCostKib ≤ m ∧ m ≤ limits.argon2MaxMKib) ∧
      (argon2MinPCost ≤ p ∧ p ≤ limits.argon2MaxP)
  | .pgpRsaOaepMgf1p => False

/-- One search for the key of a row on a member, and what followed of it. -/
structure Attempt where
  row : EntryEncryption
  index : ℕ
  /-- Whether the member is decrypted, or the password only checked. -/
  decrypting : Bool
  derivations : ℕ
  key : Option Bytes
  given : List ℕ

namespace Attempt

def events (a : Attempt) : List Event :=
  (if a.decrypting then [.decrypting a.row a.index] else []) ++
    List.replicate a.derivations (.derived a.row) ++
    a.key.toList.map (.accepted a.row a.index) ++ releases a.row a.index a.given

/-- What every attempt is: no more derivations than start keys, each within the
    limits, and nothing handed out without a key, nor where the password is only
    checked, nor beyond the size of the row. -/
structure Fair (limits : DecryptLimits) (a : Attempt) : Prop where
  derivations : a.derivations ≤ tries a.row
  within : a.derivations ≠ 0 → a.row.kdf.Within limits
  locked : a.key = none → a.given = []
  checked : a.decrypting = false → a.given = []
  size : a.given.sum ≤ a.row.size.toNat

/-- The key was found, and a member that is decrypted was handed out whole. -/
structure Done (a : Attempt) : Prop where
  found : a.key.isSome = true
  whole : a.decrypting = true → a.given.sum = a.row.size.toNat

end Attempt

/-- Some attempts, of which only the last one may not be done, and none if the run
    succeeded. -/
def Ended (ok : Bool) (attempts : List Attempt) : Prop :=
  ∃ done rest, attempts = done ++ rest ∧ (∀ a ∈ done, a.Done) ∧ rest.length ≤ 1 ∧
    (ok = true → rest = [])

theorem Ended.of_done {ok : Bool} {attempts : List Attempt} (h : ∀ a ∈ attempts, a.Done) :
    Ended ok attempts :=
  ⟨attempts, [], (List.append_nil _).symm, h, Nat.zero_le _, fun _ => rfl⟩

theorem Ended.append {ok : Bool} {attempts more : List Attempt} (h : ∀ a ∈ attempts, a.Done)
    (hm : Ended ok more) : Ended ok (attempts ++ more) := by
  obtain ⟨done, rest, rfl, hd, hl, hr⟩ := hm
  refine ⟨attempts ++ done, rest, (List.append_assoc _ _ _).symm, fun a ha => ?_, hl, hr⟩
  exact (List.mem_append.1 ha).elim (h a) (hd a)

/-! ### Finding a key -/

section

variable {ω : Type} (P : Prims)

theorem length_startKeys (row : EntryEncryption) (password : Str) :
    (startKeys P row password).length = tries row := by
  unfold startKeys tries
  split <;> rfl

theorem record_logs {ε : Type} (event : Event) :
    Prog.Logs Run.log (fun r events => r = .ok () ∧ events = [event])
      (record event : Prog (Run ω) ε Unit) :=
  fun _ => ⟨[event], rfl, rfl, rfl⟩

theorem screenIterations_within {iterations : ℤ} {limits : DecryptLimits} {n : ℕ} {salt : Bytes}
    (h : screenIterations iterations limits = .ok n) :
    (Kdf.pbkdf2 iterations salt).Within limits := by
  unfold screenIterations at h
  split at h
  · next hc => exact ⟨hc.1, hc.2.1⟩
  · cases h

theorem screenArgon2_within {t m p : ℤ} {salt : Bytes} {limits : DecryptLimits}
    (h : screenArgon2 t m p salt limits = .ok ()) : (Kdf.argon2id t m p salt).Within limits := by
  unfold screenArgon2 at h
  dsimp only at h
  split at h
  · cases h
  split at h
  · cases h
  split at h
  · cases h
  split at h
  · cases h
  next ht =>
  split at h
  · cases h
  next hm =>
  split at h
  · split at h <;> cases h
  next hp =>
  rw [not_or, Int.not_lt, Int.not_lt] at ht hm hp
  have hmin := Nat.min_le_left limits.argon2MaxP argon2MaxPCost
  exact ⟨ht, hm, hp.1, Int.le_trans hp.2 (Int.ofNat_le.2 hmin)⟩

/-- The derivations of some attempts with one row. -/
def Derivations (row : EntryEncryption) (limits : DecryptLimits) (most : ℕ) (events : List Event) :
    Prop :=
  ∃ k ≤ most, events = List.replicate k (.derived row) ∧ (k ≠ 0 → row.kdf.Within limits)

theorem Derivations.nil (row : EntryEncryption) (limits : DecryptLimits) (most : ℕ) :
    Derivations row limits most [] := ⟨0, Nat.zero_le _, rfl, fun h => absurd rfl h⟩

theorem deriveKey_logs (row : EntryEncryption) (sk : Bytes) (limits : DecryptLimits) :
    Prog.Logs Run.log (fun _ events => Derivations row limits 1 events)
      (deriveKey P row sk limits : Decrypt ω Bytes) := by
  have hone : row.kdf.Within limits → Derivations row limits 1 [Event.derived row] :=
    fun h => ⟨1, le_rfl, rfl, fun _ => h⟩
  unfold deriveKey
  split
  · exact .fail (.nil _ _ _)
  · cases hk : row.kdf with
    | pbkdf2 iterations salt =>
      refine .after_lift (fun _ _ => .nil _ _ _) fun n hn => ?_
      refine (record_logs _).bind (fun h => nomatch h.1) ?_
      rintro _ _ ⟨-, rfl⟩
      exact .pure (hone (hk ▸ screenIterations_within hn))
    | argon2id t m p salt =>
      refine .after_lift (fun _ _ => .nil _ _ _) fun _ hn => ?_
      refine (record_logs _).bind (fun h => nomatch h.1) ?_
      rintro _ _ ⟨-, rfl⟩
      exact .of_silent (.lift _) fun _ =>
        hone (hk ▸ screenArgon2_within (Except.mapError_eq_ok.1 hn))
    | pgpRsaOaepMgf1p => exact .fail (.nil _ _ _)

variable {accepts : Bytes → Decrypt ω Bool}

theorem attempt_logs (ha : ∀ key, Prog.Silent Run.log (accepts key)) (row : EntryEncryption)
    (limits : DecryptLimits) (sk : Bytes) :
    Prog.Logs Run.log (fun _ events => Derivations row limits 1 events)
      (attempt P row limits accepts sk) :=
  (deriveKey_logs P row sk limits).bind id fun {key events} h =>
    .of_silent ((ha key).bind fun _ => .pure _) fun _ => by rwa [List.append_nil]

/-- Start keys are tried until one is accepted. -/
theorem tryKeys_logs (ha : ∀ key, Prog.Silent Run.log (accepts key)) (row : EntryEncryption)
    (limits : DecryptLimits) (sks : List Bytes) :
    Prog.Logs Run.log (fun _ events => Derivations row limits sks.length events)
      (tryKeys P row limits accepts sks) := by
  induction sks with
  | nil => exact .fail (.nil _ _ _)
  | cons sk sks ih =>
    refine (attempt_logs P ha row limits sk).bind ?_ ?_
    · rintro e events ⟨k, hk, h⟩
      exact ⟨k, hk.trans (by simp), h⟩
    · rintro found events ⟨k, hk, rfl, hw⟩
      cases found with
      | some key =>
        refine .pure ⟨k, hk.trans (by simp), List.append_nil _, hw⟩
      | none =>
        refine ih.mono ?_
        rintro r _ ⟨k', hk', rfl, hw'⟩
        refine ⟨k + k', ?_, by rw [List.replicate_append_replicate], fun hne => ?_⟩
        · rw [List.length_cons]
          omega
        · by_cases h0 : k = 0
          · exact hw' fun h => hne (by rw [h0, h])
          · exact hw h0

/-- What finding the key of a row on a member logs. -/
def KeyLog (row : EntryEncryption) (index : ℕ) (limits : DecryptLimits) (ok : Bool)
    (events : List Event) : Prop :=
  ∃ k ≤ tries row, ∃ key : Option Bytes, (k ≠ 0 → row.kdf.Within limits) ∧ key.isSome = ok ∧
    events = List.replicate k (.derived row) ++ key.toList.map (.accepted row index)

theorem findKey_logs (ha : ∀ key, Prog.Silent Run.log (accepts key)) (row : EntryEncryption)
    (index : ℕ) (password : Str) (limits : DecryptLimits) :
    Prog.LogsOk Run.log (KeyLog row index limits) (do
      let key ← findKey P row password limits accepts
      record (.accepted row index key)
      return key) := by
  refine (tryKeys_logs P ha row limits (startKeys P row password)).bind ?_ ?_
  · rintro e events ⟨k, hk, h, hw⟩
    exact ⟨k, length_startKeys P row password ▸ hk, none, hw, rfl, h.trans (List.append_nil _).symm⟩
  · rintro key events ⟨k, hk, rfl, hw⟩
    refine (record_logs _).bind (fun h => nomatch h.1) ?_
    rintro _ _ ⟨-, rfl⟩
    exact .pure ⟨k, length_startKeys P row password ▸ hk, some key, hw, rfl,
      by rw [List.append_nil]; rfl⟩

end

/-! ### What is not logged -/

section

variable {ρ σ ω : Type} [Read ρ IoError] [Read σ IoError] (P : Prims) (archive : Archive ρ)
  (index : ℕ)

theorem Run.log_reopened (s : Run ω) (k : ℕ) : Run.log { s with opened := k } = s.log := rfl

omit [Read ρ IoError] in
theorem openMemberRaw_silent : Prog.Silent Run.log (openMemberRaw archive index : Decrypt ω ρ) :=
  fun _ => rfl

theorem copyMember_silent [ZipSink ω] (name : Str) (file : FileData) (limits : DecryptLimits) :
    Prog.Silent Run.log (copyMember archive name file index limits : Decrypt ω Unit) := by
  unfold copyMember
  cases file.compression with
  | stored =>
    exact (openMember_keeps Run.log_reopened archive index).bind fun data =>
      .bind (fun s => List.append_nil s.log) fun _ => .pure _
  | deflated => exact fun _ => rfl
  | other id => exact .fail _

end

/-! ### Decrypting a member -/

section

variable {ρ σ ω : Type} [Read ρ IoError] (P : Prims) (archive : Archive ρ) (index : ℕ)
  (row : EntryEncryption) (limits : DecryptLimits)

theorem gcmKey_logs (len : ℕ) (password : Str) :
    Prog.LogsOk Run.log (KeyLog row index limits)
      (gcmKey P archive index row len password limits : Decrypt ω Bytes) :=
  findKey_logs P (gcmAccepts_keeps Run.log_reopened P archive index row len) row index password limits

theorem checksumKey_logs (password : Str) :
    Prog.LogsOk Run.log (KeyLog row index limits)
      (checksumKey P archive index row password limits : Decrypt ω Bytes) :=
  findKey_logs P (checksumAccepts_keeps Run.log_reopened P archive index row limits) row index password
    limits

/-- What handing out a member logs: no more than the limit, and than was announced;
    all of it, if it succeeds. -/
def ReleaseLog (expected : ℕ) (ok : Bool) (events : List Event) : Prop :=
  ∃ given, events = releases row index given ∧ given.sum ≤ limits.maxOutputBytes ∧
    given.sum ≤ expected ∧ (ok = true → given.sum = expected)

/-- What an attempt to decrypt a member logs. -/
def MemberLog (expected : ℕ) (ok : Bool) (events : List Event) : Prop :=
  ∃ k key given, k ≤ tries row ∧ (k ≠ 0 → row.kdf.Within limits) ∧ (key = none → given = []) ∧
    events = List.replicate k (.derived row) ++ (key.toList.map (.accepted row index)) ++
      releases row index given ∧
    given.sum ≤ limits.maxOutputBytes ∧ given.sum ≤ expected ∧
    (ok = true → key.isSome = true ∧ given.sum = expected)

variable {index row limits} {expected : ℕ} {ok : Bool} {events events' : List Event}

theorem ReleaseLog.fallible : Prog.Fallible (ReleaseLog index row limits expected) where
  nil := ⟨[], rfl, Nat.zero_le _, Nat.zero_le _, nofun⟩
  fail h := h.imp fun _ h => ⟨h.1, h.2.1, h.2.2.1, nofun⟩

/-- A key that was not found is an attempt. -/
theorem KeyLog.member_of_error (h : KeyLog row index limits false events) :
    MemberLog index row limits expected false events := by
  obtain ⟨k, hk, key, hw, hkey, rfl⟩ := h
  obtain rfl : key = none := Option.not_isSome_iff_eq_none.1 (by rw [hkey]; nofun)
  exact ⟨k, none, [], hk, hw, fun _ => rfl, by simp [releases], Nat.zero_le _, Nat.zero_le _, nofun⟩

/-- A key that was found, and then what was handed out. -/
theorem KeyLog.member_of_ok (h : KeyLog row index limits true events)
    (hr : ReleaseLog index row limits expected ok events') :
    MemberLog index row limits expected ok (events ++ events') := by
  obtain ⟨k, hk, key, hw, hkey, rfl⟩ := h
  obtain ⟨given, rfl, hl, he, hok⟩ := hr
  refine ⟨k, key, given, hk, hw, ?_, by simp, hl, he, fun h => ⟨hkey, hok h⟩⟩
  rintro rfl
  cases hkey

/-- What is handed out once the key is found. -/
theorem KeyLog.then_release {ω' α β ε : Type} {x : Prog (Run ω') ε α} {f : α → Prog (Run ω') ε β}
    (hx : Prog.LogsOk Run.log (KeyLog row index limits) x)
    (hf : ∀ a, Prog.LogsOk Run.log (ReleaseLog index row limits expected) (f a)) :
    Prog.LogsOk Run.log (MemberLog index row limits expected) (x >>= f) :=
  Prog.Logs.bind hx KeyLog.member_of_error fun {a _} hkey =>
    Prog.Logs.mono (hf a) fun h => KeyLog.member_of_ok hkey h

variable (index row limits)

/-- An AES-GCM member: its key, and then what `release` hands out. -/
theorem gcmMember_logs (len : ℕ) (password : Str)
    {release : GcmDecryptReader P ρ → Decrypt ω (GcmDecryptReader P ρ)}
    (hrel : ∀ plain, Prog.LogsOk Run.log (ReleaseLog index row limits expected) (release plain)) :
    Prog.LogsOk Run.log (MemberLog index row limits expected)
      (gcmMember P archive index row len password limits release) := by
  refine KeyLog.then_release (gcmKey_logs P archive index row limits len password) fun key => ?_
  refine .after_silent ReleaseLog.fallible (openAfterIv_keeps Run.log_reopened archive index)
    fun file => ?_
  split
  · exact .fail ReleaseLog.fallible _
  · exact .then_silent ReleaseLog.fallible (hrel _) fun plain =>
      (drain_keeps Run.log plain).bind fun _ => ensureEnd_keeps Run.log _

section

variable {S : Type} [ZipSink S] [LawfulSink S] [Read σ IoError]

/-- What is inflated of a member into a sink. -/
theorem writeInflated_logs (name : Str) (deflated : σ) :
    Prog.LogsOk Run.log (ReleaseLog index row limits expected)
      (writeInflated P name row index expected limits deflated : Decrypt S σ) := by
  refine .then_silent ReleaseLog.fallible (fun s => ?_) fun _ => .pure _
  rcases hd : ZipSink.deflatedFrom s.out name expected
    ({ deflated, expected, limit := limits.maxOutputBytes } : EncryptedDeflated P σ)
    with ⟨result, out, src⟩
  have hle := EncryptedDeflated.given_le (LawfulSink.used hd)
  simp only [List.sum_nil, Nat.zero_add] at hle
  unfold useSink
  dsimp only
  rw [hd]
  refine ⟨_, rfl, src.given, rfl, hle.1, hle.2, fun hok => ?_⟩
  cases result with
  | error e => cases hok
  | ok n =>
    rw [EncryptedDeflated.given_eq (LawfulSink.usedUp hd)]
    exact Nat.zero_add _

/-- What decrypting a member logs. -/
theorem decryptMember_logs (name : Str) (plan : Plan) (password : Str) :
    Prog.LogsOk Run.log
      (fun ok events => ∃ new, events = .decrypting plan.row index :: new ∧
        MemberLog index plan.row limits plan.expected ok new)
      (decryptMember P archive index name plan password limits : Decrypt S Unit) := by
  refine (record_logs _).bind (fun h => nomatch h.1) ?_
  rintro _ _ ⟨-, rfl⟩
  suffices Prog.LogsOk Run.log (MemberLog index plan.row limits plan.expected) _ from
    Prog.Logs.mono this fun {r events} h => ⟨events, rfl, h⟩
  refine Prog.Logs.ite (fun _ => ?_) fun _ => ?_
  · exact gcmMember_logs P archive index plan.row limits plan.len password fun plain =>
      writeInflated_logs P index plan.row limits name plain
  · refine KeyLog.then_release (checksumKey_logs P archive index plan.row limits password)
      fun key => ?_
    refine .after_silent ReleaseLog.fallible (openMember_keeps Run.log_reopened archive index)
      fun file => ?_
    refine .after_lift ReleaseLog.fallible fun gate _ => ?_
    exact .then_silent ReleaseLog.fallible (writeInflated_logs P index plan.row limits name gate)
      fun plain => (drain_keeps Run.log plain).bind fun _ => .pure _

end

/-- What checking the password against a member logs. -/
theorem keyFor_logs (plan : Plan) (password : Str) :
    Prog.LogsOk Run.log (KeyLog plan.row index limits)
      (keyFor P archive index plan password limits : Decrypt ω Unit) := by
  have hok : ∀ {x : Decrypt ω Bytes}, Prog.LogsOk Run.log (KeyLog plan.row index limits) x →
      Prog.LogsOk Run.log (KeyLog plan.row index limits) (do let _ ← x) := by
    intro x hx
    refine Prog.Logs.bind hx id fun {key events} h => .pure ?_
    rwa [List.append_nil]
  unfold keyFor
  split
  · exact hok (gcmKey_logs P archive index plan.row limits plan.len password)
  · exact hok (checksumKey_logs P archive index plan.row limits password)

end

/-! ### Screening the rows -/

section

variable {ρ ω : Type} [Read ρ IoError] (archive : Archive ρ) (sizes : Sizes)

/-- The first entry whose name matches a path. -/
def Found (path : Str) (index : ℕ) (name : Str) : Prop :=
  ∃ file, (archive.directory.zipIdx.find? fun entry =>
      memberMatchesPath (zipEntryName entry.1.nameRaw) path) = some (file, index) ∧
    name = zipEntryName file.nameRaw

omit [Read ρ IoError] in
/-- A lookup of a path comes to one entry. -/
theorem Found.unique {archive : Archive ρ} {path : Str} {index index' : ℕ} {name name' : Str}
    (h : Found archive path index name) (h' : Found archive path index' name') :
    index' = index ∧ name' = name := by
  obtain ⟨file, hf, rfl⟩ := h
  obtain ⟨file', hf', rfl⟩ := h'
  obtain ⟨rfl, rfl⟩ := Prod.mk.inj (Option.some.inj (hf.symm.trans hf'))
  exact ⟨rfl, rfl⟩

/-- A row passes every check that needs no key, on the entry at some index. -/
structure Passes (row : EntryEncryption) (index len : ℕ) (head : Bytes) : Prop where
  size : ∃ n, sizes.declared row.size = .ok n
  member : ∃ name, Found archive row.path index name
  length : len = (archive.file index).size
  shape : screenShape row len head = .ok ()

/-- The event of a row that passes. -/
def Screened (row : EntryEncryption) (event : Event) : Prop :=
  ∃ index len head, event = .screened row index len head ∧ Passes archive sizes row index len head

/-- What a plan under a name was made of. -/
structure PlanOf (name : Str) (plan : Plan) : Prop where
  size : sizes.declared plan.row.size = .ok plan.expected
  member : ∃ index, Found archive plan.row.path index name ∧
    plan.len = (archive.file index).size
  shape : ∃ head, screenShape plan.row plan.len head = .ok ()

theorem declared_toNat {sizes : Sizes} {size : ℤ} {n : ℕ} (h : sizes.declared size = .ok n) :
    n = size.toNat := by
  cases sizes <;> simp only [Sizes.declared, declaredSize, inflatedLen] at h <;> split at h <;>
    cases h <;> rfl

variable {archive sizes}

omit [Read ρ IoError] in
theorem firstMember_eq_ok {path : Str} {missing : DecryptError} {entries : List (FileData × ℕ)}
    {index : ℕ} {name : Str} {s s' : Run ω}
    (h : firstMember archive path missing entries s = (.ok (index, name), s')) :
    ∃ file, (entries.find? fun entry =>
        memberMatchesPath (zipEntryName entry.1.nameRaw) path) = some (file, index) ∧
      name = zipEntryName file.nameRaw := by
  induction entries generalizing s with
  | nil => cases h
  | cons entry entries ih =>
    obtain ⟨file, i⟩ := entry
    rw [firstMember] at h
    obtain ⟨_, s₁, -, h⟩ := Prog.bind_eq_ok.1 h
    split at h
    · next hm =>
      cases h
      exact ⟨file, by rw [List.find?_cons_of_pos]; exact hm, rfl⟩
    · next hm =>
      obtain ⟨file', hf, rfl⟩ := ih h
      exact ⟨file', by rw [List.find?_cons_of_neg]; exacts [hf, hm], rfl⟩

omit [Read ρ IoError] in
theorem memberForArchive_logs (path : Str) (missing : DecryptError) :
    Prog.Logs Run.log (fun r events => events = [] ∧
        ∀ index name, r = .ok (index, name) → Found archive path index name)
      (memberForArchive archive path missing : Decrypt ω (ℕ × Str)) := by
  intro s
  refine ⟨[], ?_, rfl, fun index name h => ?_⟩
  · rw [List.append_nil]
    exact memberForArchive_keeps Run.log_reopened archive path missing s
  · exact firstMember_eq_ok (Prod.ext h rfl)

theorem memberShape_logs (index : ℕ) :
    Prog.Logs Run.log (fun r events => events = [] ∧
        ∀ len head, r = .ok (len, head) → len = (archive.file index).size)
      (memberShape archive index : Decrypt ω (ℕ × Bytes)) := by
  intro s
  refine ⟨[], ?_, rfl, fun len head h => ?_⟩
  · rw [List.append_nil]
    exact memberShape_keeps Run.log_reopened archive index s
  · obtain ⟨file, s₁, -, h⟩ := Prog.bind_eq_ok.1 (Prod.ext h rfl : _ = (_, _))
    obtain ⟨⟨head', r⟩, s₂, -, h⟩ := Prog.bind_eq_ok.1 h
    cases h
    rfl

/-- Screening one row logs it, and keeps what plans are. -/
theorem planRow_logs (plans : List (Str × Plan) × List (ℕ × Plan)) (row : EntryEncryption × ℕ) :
    Prog.Logs Run.log (fun r events =>
        (∀ plans', r = .ok plans' → ∃ index name plan event, events = [event] ∧
          Screened archive sizes row.1 event ∧ PlanOf archive sizes name plan ∧ plan.row = row.1 ∧
          Found archive row.1.path index name ∧
          plans'.1 = Assoc.assign name plan plans.1 ∧
          plans'.2 = match plans.1.lookup name with
            | some earlier => plans.2 ++ [(index, earlier)]
            | none => plans.2) ∧
        ∀ e, r = .error e → events = [])
      (planRow archive sizes plans row : Decrypt ω _) := by
  obtain ⟨row, rowIndex⟩ := row
  refine .after_lift (fun _ _ => ⟨nofun, fun _ _ => rfl⟩) fun expected hsize => ?_
  refine (memberForArchive_logs row.path (noMember rowIndex)).bind (fun h => ⟨nofun, fun _ _ => h.1⟩) ?_
  rintro ⟨index, name⟩ _ ⟨rfl, hfound⟩
  refine (memberShape_logs index).bind (fun h => ⟨nofun, fun _ _ => by rw [h.1]; rfl⟩) ?_
  rintro ⟨len, head⟩ _ ⟨rfl, hlen⟩
  refine .after_lift (fun _ _ => ⟨nofun, fun _ _ => rfl⟩) fun _ hshape => ?_
  refine (record_logs _).bind (fun h => nomatch h.1) ?_
  rintro _ _ ⟨-, rfl⟩
  refine .pure ⟨?_, nofun⟩
  rintro _ ⟨⟩
  have hf := hfound index name rfl
  have hl := hlen len head rfl
  exact ⟨index, name, ⟨row, expected, len⟩, _, rfl,
    ⟨index, len, head, rfl, ⟨expected, hsize⟩, ⟨name, hf⟩, hl, hshape⟩,
    ⟨hsize, ⟨index, hf, hl⟩, ⟨head, hshape⟩⟩, rfl, hf, rfl, rfl⟩

variable (archive sizes)

/-- What plans are: each was made of a row, and each row made one, on a member
    under its name. -/
structure Planned (rows : List EntryEncryption) (plans : List (Str × Plan) × List (ℕ × Plan)) :
    Prop where
  planned : ∀ {name plan}, plans.1.lookup name = some plan →
    plan.row ∈ rows ∧ PlanOf archive sizes name plan
  superseded : ∀ p ∈ plans.2, p.2.row ∈ rows ∧ ∃ name, PlanOf archive sizes name p.2 ∧
    ∃ row ∈ rows, Found archive row.path p.1 name
  every : ∀ row ∈ rows, ∃ index name, Found archive row.path index name ∧
    (plans.1.lookup name).isSome = true

variable {archive sizes}

omit [Read ρ IoError] in
theorem Planned.nil : Planned archive sizes [] ([], []) where
  planned hl := by cases hl
  superseded _ hp := by cases hp
  every _ hr := by cases hr

omit [Read ρ IoError] in
/-- One plan more, which may take the place of another. -/
theorem Planned.assign {rows : List EntryEncryption} {plans plans' : List (Str × Plan) × List (ℕ × Plan)}
    {name : Str} {plan : Plan} {index : ℕ} (h : Planned archive sizes rows plans)
    (hplan : PlanOf archive sizes name plan) (hfound : Found archive plan.row.path index name)
    (h1 : plans'.1 = Assoc.assign name plan plans.1)
    (h2 : plans'.2 = match plans.1.lookup name with
      | some earlier => plans.2 ++ [(index, earlier)]
      | none => plans.2) : Planned archive sizes (rows ++ [plan.row]) plans' where
  planned {n q} hl := by
    rw [h1, Assoc.lookup_assign] at hl
    split at hl
    · next hn => cases hl; exact ⟨by simp, hn ▸ hplan⟩
    · exact ⟨List.mem_append_left _ (h.planned hl).1, (h.planned hl).2⟩
  superseded p hp := by
    have hold : ∀ p ∈ plans.2, p.2.row ∈ rows ++ [plan.row] ∧ ∃ name,
        PlanOf archive sizes name p.2 ∧ ∃ row ∈ rows ++ [plan.row], Found archive row.path p.1 name :=
      fun p hp => by
        obtain ⟨hr, name, hplan, row, hrow, hf⟩ := h.superseded p hp
        exact ⟨List.mem_append_left _ hr, name, hplan, row, List.mem_append_left _ hrow, hf⟩
    rw [h2] at hp
    split at hp
    · -- A plan that is replaced was planned under the same name.
      next earlier he =>
      obtain hp | hp := List.mem_append.1 hp
      · exact hold p hp
      · obtain rfl := List.mem_singleton.1 hp
        exact ⟨List.mem_append_left _ (h.planned he).1, name, (h.planned he).2, plan.row, by simp,
          hfound⟩
    · exact hold p hp
  every row hr := by
    simp only [h1, Assoc.lookup_assign]
    obtain hr | hr := List.mem_append.1 hr
    · obtain ⟨index', name', hf, hl⟩ := h.every row hr
      refine ⟨index', name', hf, ?_⟩
      split
      · rfl
      · exact hl
    · obtain rfl := List.mem_singleton.1 hr
      exact ⟨index, name, hfound, by rw [if_pos rfl]; rfl⟩

/-- Screening the rows logs each of them, in order. -/
theorem planRows_logs (cls : Classification) :
    Prog.Logs Run.log (fun r events =>
        (∀ plans, r = .ok plans →
          List.Forall₂ (Screened archive sizes) cls.encryptedEntries events ∧
            Planned archive sizes cls.encryptedEntries plans) ∧
        ∀ e, r = .error e → ∃ rows, rows <+: cls.encryptedEntries ∧
          List.Forall₂ (Screened archive sizes) rows events)
      (planRows archive cls sizes : Decrypt ω _) := by
  have hfst : cls.encryptedEntries.zipIdx.map Prod.fst = cls.encryptedEntries :=
    List.zipIdx_map_fst 0 _
  -- The invariant over the rows: each one done was screened, and the plans are those
  -- of the rows done.
  refine (Prog.Logs.each (I := fun done plans events =>
      List.Forall₂ (Screened archive sizes) (done.map Prod.fst) events ∧
        Planned archive sizes (done.map Prod.fst) plans)
    (E := fun _ events => ∃ rows, rows <+: cls.encryptedEntries ∧
      List.Forall₂ (Screened archive sizes) rows events) ⟨.nil, .nil⟩ ?_).mono ?_
  · intro done row rest plans events hl hI
    refine (planRow_logs plans row).mono ?_
    rintro r new ⟨hok, herror⟩
    refine ⟨fun plans' h => ?_, fun e h => ?_⟩
    · obtain ⟨index, name, plan, event, rfl, hs, hplan, hrow, hf, h1, h2⟩ := hok plans' h
      rw [List.map_append]
      refine ⟨List.rel_append hI.1 (.cons hs .nil), ?_⟩
      rw [List.map_singleton, ← hrow]
      exact hI.2.assign hplan (hrow ▸ hf) h1 h2
    · rw [herror e h, List.append_nil]
      refine ⟨done.map Prod.fst, ?_, hI.1⟩
      rw [← hfst, hl, List.map_append]
      exact List.prefix_append _ _
  · rintro r events ⟨hok, herror⟩
    refine ⟨fun plans h => ?_, herror⟩
    have h := hok plans h
    rwa [hfst] at h

/-- The plans of rows that all pass. -/
theorem planRows_eq_ok {cls : Classification} {plans : List (Str × Plan) × List (ℕ × Plan)}
    {s s' : Run ω} (h : planRows archive cls sizes s = (.ok plans, s')) :
    Planned archive sizes cls.encryptedEntries plans := by
  have hlogs : Prog.Logs Run.log _ (planRows archive cls sizes : Decrypt ω _) := planRows_logs cls
  obtain ⟨events, -, hok, -⟩ := hlogs s
  rw [h] at hok
  exact (hok _ rfl).2

end

end OdfCrypto

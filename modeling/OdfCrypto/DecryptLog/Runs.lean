import OdfCrypto.DecryptLog
import OdfCrypto.DecryptRun.Bound
import OdfCrypto.EncryptStream.MediaType

/-!
# What a whole run logs

The log of a run that gets past opening its source (`RunLog`): the rows it uses
pass, or a first part of them; and if all of them do, attempts follow, which
decrypt no member twice and hand out no more than the limit.

* `perEntry_logs`, `wholesome_logs`: the two ways to decrypt;
* `decryptWithLimitsTo_log`, `decryptSlice_log`, `reencryptTo_log`: the log of
  each entry point (`EntryLog`).
-/

namespace OdfCrypto

open ByteStream Text

namespace Attempt

/-- How much was handed out. -/
def total (a : Attempt) : ℕ := a.given.sum

/-- The member that was decrypted. -/
def member (a : Attempt) : Option ℕ := if a.decrypting then some a.index else none

end Attempt

/-- The attempts of a run: on those members, for those rows, within the limits. -/
structure Attempts (rows : List EntryEncryption) (limits : DecryptLimits) (members : List ℕ)
    (ok : Bool) (attempts : List Attempt) : Prop where
  fair : ∀ a ∈ attempts, a.Fair limits
  rows : ∀ a ∈ attempts, a.row ∈ rows
  once : (attempts.filterMap Attempt.member).Sublist members
  total : (attempts.map Attempt.total).sum ≤ limits.maxOutputBytes
  ended : Ended ok attempts

/-- The log of a run over some rows: a part of them passes, or all do, and then
    come attempts. -/
inductive RunLog {ρ : Type} (archive : Archive ρ) (sizes : Sizes) (rows : List EntryEncryption)
    (limits : DecryptLimits) : (ok : Bool) → List Event → Prop
  | screening {passed : List EntryEncryption} {screens : List Event} (part : passed <+: rows)
      (screened : List.Forall₂ (Screened archive sizes) passed screens) :
      RunLog archive sizes rows limits false screens
  | attempting {ok : Bool} {screens : List Event} {attempts : List Attempt}
      (screened : List.Forall₂ (Screened archive sizes) rows screens)
      (tried : Attempts rows limits (List.range archive.directory.length) ok attempts) :
      RunLog archive sizes rows limits ok (screens ++ attempts.flatMap Attempt.events)

theorem Ended.fail {attempts : List Attempt} (h : Ended true attempts) : Ended false attempts :=
  h.imp fun _ h => h.imp fun _ h => ⟨h.1, h.2.1, h.2.2.1, nofun⟩

theorem RunLog.fail {ρ : Type} {archive : Archive ρ} {sizes : Sizes} {rows : List EntryEncryption}
    {limits : DecryptLimits} {events : List Event}
    (h : RunLog archive sizes rows limits true events) :
    RunLog archive sizes rows limits false events := by
  cases h with
  | attempting screened tried =>
    exact .attempting screened { tried with ended := tried.ended.fail }

theorem RunLog.nil {ρ : Type} {archive : Archive ρ} {sizes : Sizes} {rows : List EntryEncryption}
    {limits : DecryptLimits} : RunLog archive sizes rows limits false [] :=
  .screening (List.nil_prefix) .nil

theorem RunLog.fallible {ρ : Type} {archive : Archive ρ} {sizes : Sizes}
    {rows : List EntryEncryption} {limits : DecryptLimits} :
    Prog.Fallible (RunLog archive sizes rows limits) := ⟨.nil, .fail⟩

theorem Attempt.Fair.mono {limits limits' : DecryptLimits} {a : Attempt} (h : a.Fair limits)
    (hl : limits' = { limits with maxOutputBytes := limits'.maxOutputBytes }) : a.Fair limits' where
  derivations := h.derivations
  within hd := by
    have hw := h.within hd
    rw [hl]
    cases hk : a.row.kdf <;> rw [hk] at hw <;> exact hw
  locked := h.locked
  checked := h.checked
  size := h.size

/-! ### One attempt -/

section

variable {row : EntryEncryption} {index : ℕ} {limits : DecryptLimits} {ok : Bool}
  {events : List Event}

/-- To check the password against a member is an attempt. -/
theorem KeyLog.attempt (h : KeyLog row index limits ok events) :
    ∃ a : Attempt, a.events = events ∧ a.row = row ∧ a.decrypting = false ∧ a.given = [] ∧
      a.Fair limits ∧ (ok = true → a.Done) := by
  obtain ⟨k, hk, key, hw, rfl, rfl⟩ := h
  refine ⟨{ row, index, decrypting := false, derivations := k, key, given := [] }, ?_, rfl, rfl,
    rfl, ⟨hk, hw, fun _ => rfl, fun _ => rfl, Nat.zero_le _⟩, fun hkey => ⟨hkey, nofun⟩⟩
  simp [Attempt.events, releases]

/-- To decrypt a member is an attempt. -/
theorem MemberLog.attempt {expected : ℕ} (h : MemberLog index row limits expected ok events)
    (he : expected = row.size.toNat) :
    ∃ a : Attempt, a.events = .decrypting row index :: events ∧ a.row = row ∧
      a.member = some index ∧ a.total ≤ limits.maxOutputBytes ∧ a.Fair limits ∧
      (ok = true → a.Done ∧ a.total = expected) := by
  obtain ⟨k, key, given, hk, hw, hlock, rfl, hmax, hsize, hok⟩ := h
  refine ⟨{ row, index, decrypting := true, derivations := k, key, given }, ?_, rfl, rfl, hmax,
    ⟨hk, hw, hlock, nofun, he ▸ hsize⟩, fun h => ⟨⟨(hok h).1, fun _ => he ▸ (hok h).2⟩, (hok h).2⟩⟩
  simp [Attempt.events]

end

/-! ### The attempts of a per-entry package -/

section

variable {ρ S : Type} [Read ρ IoError] (P : Prims) {archive : Archive ρ}
  {sizes : Sizes} {rows : List EntryEncryption} {limits : DecryptLimits}

theorem Attempts.nil {members : List ℕ} {ok : Bool} : Attempts rows limits members ok [] where
  fair := by simp
  rows := by simp
  once := List.nil_sublist _
  total := Nat.zero_le _
  ended := .of_done (by simp)

/-- One attempt more, after some that are done. -/
theorem Attempts.concat {members more : List ℕ} {ok : Bool} {attempts : List Attempt} {a : Attempt}
    (h : Attempts rows limits members true attempts) (fair : a.Fair limits) (hr : a.row ∈ rows)
    (member : a.member.toList.Sublist more)
    (total : (attempts.map Attempt.total).sum + a.total ≤ limits.maxOutputBytes)
    (hok : ok = true → a.Done) :
    Attempts rows limits (members ++ more) ok (attempts ++ [a]) where
  fair b hb := (List.mem_append.1 hb).elim (h.fair b) fun hb => List.mem_singleton.1 hb ▸ fair
  rows b hb := (List.mem_append.1 hb).elim (h.rows b) fun hb => List.mem_singleton.1 hb ▸ hr
  once := by
    rw [List.filterMap_append]
    refine h.once.append ?_
    cases hm : a.member with
    | none => simp [hm]
    | some index => simpa [hm] using member
  total := by simp [total]
  ended := by
    obtain ⟨done, rest, rfl, hd, -, hrest⟩ := h.ended
    obtain rfl := hrest rfl
    rw [List.append_nil]
    refine .append hd ?_
    cases ok with
    | true => exact .of_done fun b hb => List.mem_singleton.1 hb ▸ hok rfl
    | false => exact ⟨[], [a], rfl, fun _ hb => absurd hb List.not_mem_nil, le_rfl, nofun⟩

/-- Attempts that are all done, as those of a run however it ended, on more
    members. -/
theorem Attempts.mono {members members' : List ℕ} {ok : Bool} {attempts : List Attempt}
    (h : Attempts rows limits members true attempts) (hm : members.Sublist members') :
    Attempts rows limits members' ok attempts where
  fair := h.fair
  rows := h.rows
  once := h.once.trans hm
  total := h.total
  ended := by cases ok with
    | true => exact h.ended
    | false => exact h.ended.fail

/-- Attempts that hand out nothing, and more after them. -/
theorem Attempts.append {members : List ℕ} {ok : Bool} {before attempts : List Attempt}
    (hb : Attempts rows limits [] true before) (h0 : (before.map Attempt.total).sum = 0)
    (h : Attempts rows limits members ok attempts) :
    Attempts rows limits members ok (before ++ attempts) where
  fair a ha := (List.mem_append.1 ha).elim (hb.fair a) (h.fair a)
  rows a ha := (List.mem_append.1 ha).elim (hb.rows a) (h.rows a)
  once := by
    rw [List.filterMap_append]
    exact hb.once.append h.once
  total := by
    rw [List.map_append, List.sum_append, h0, Nat.zero_add]
    exact h.total
  ended := by
    obtain ⟨done, rest, rfl, hd, -, hrest⟩ := hb.ended
    obtain rfl := hrest rfl
    rw [List.append_nil]
    exact .append hd h.ended

variable (rows limits) in
/-- The events of attempts on some members. -/
def AttemptLog (members : List ℕ) (ok : Bool) (total : ℕ) (events : List Event) : Prop :=
  ∃ attempts, events = attempts.flatMap Attempt.events ∧
    Attempts rows limits members ok attempts ∧ (attempts.map Attempt.total).sum = total

theorem AttemptLog.nil {members : List ℕ} {ok : Bool} :
    AttemptLog rows limits members ok 0 [] := ⟨[], rfl, .nil, rfl⟩

/-- Checking the password against the rows that others took the place of. -/
theorem keys_logs (password : Str) {superseded : List (ℕ × Plan)}
    (hrows : ∀ p ∈ superseded, p.2.row ∈ rows) :
    Prog.LogsOk Run.log (fun ok events => AttemptLog rows limits [] ok 0 events)
      (Prog.each (fun () (index, plan) => keyFor P archive index plan password limits) ()
        superseded : Decrypt S Unit) := by
  refine (Prog.Logs.each (I := fun _ _ events => AttemptLog rows limits [] true 0 events)
    (E := fun _ events => AttemptLog rows limits [] false 0 events) .nil ?_).mono ?_
  · rintro done ⟨index, plan⟩ rest ⟨⟩ _ hl ⟨attempts, rfl, ha, h0⟩
    refine Prog.Logs.mono (keyFor_logs P archive index limits plan password) fun {r new} h => ?_
    obtain ⟨a, rfl, hrow, hdec, hgiven, hfair, hok⟩ := h.attempt
    have htotal : a.total = 0 := by simp [Attempt.total, hgiven]
    have hconcat (ok : Bool) (hdone : ok = true → a.Done) :
        AttemptLog rows limits [] ok 0 (attempts.flatMap Attempt.events ++ a.events) := by
      refine ⟨attempts ++ [a], by simp, ha.concat hfair ?_ ?_ ?_ hdone, ?_⟩
      · rw [hrow]
        exact hrows (index, plan) (by simp [hl])
      · simp [Attempt.member, hdec]
      · simp [h0, htotal]
      · simp [h0, htotal]
    refine ⟨fun _ hr => hconcat true fun _ => hok (by rw [hr]; rfl), fun _ _ => hconcat false nofun⟩
  · rintro r events ⟨hok, herror⟩
    cases r with
    | ok a => exact hok a rfl
    | error e => exact herror e rfl

variable [ZipSink S] [LawfulSink S]

/-- Rebuilding one member logs nothing, or an attempt to decrypt it. -/
theorem rebuildMember_logs {plans : List (Str × Plan)}
    (hplans : ∀ {name plan}, plans.lookup name = some plan →
      plan.row ∈ rows ∧ plan.expected = plan.row.size.toNat)
    (stripped : Bytes) (password : Str) (done : Rebuilt) (entry : FileData × ℕ) :
    Prog.Logs Run.log (fun r new =>
        (new = [] ∧ ∀ c, r = .ok c → c.produced = done.produced) ∨
        ∃ a : Attempt, new = a.events ∧ a.row ∈ rows ∧ a.member = some entry.2 ∧
          a.total ≤ limits.maxOutputBytes - done.produced ∧ a.Fair limits ∧
          ∀ c, r = .ok c → a.Done ∧ c.produced = done.produced + a.total)
      (rebuildMember P archive plans stripped password limits done entry : Decrypt S Rebuilt) := by
  obtain ⟨file, index⟩ := entry
  refine .after_silent (openMember_keeps Run.log_reopened archive index) (fun _ => .inl ⟨rfl, nofun⟩)
    fun _ => ?_
  dsimp only
  -- Only a decrypted member has an attempt; the manifest and a copied member log
  -- nothing.
  cases ht : treatment plans (zipEntryName file.nameRaw) with
  | manifest =>
    refine .after_silent (fun s => List.append_nil s.log) (fun _ => .inl ⟨rfl, nofun⟩) fun _ => ?_
    exact .pure (.inl ⟨rfl, fun c hc => by cases hc; rfl⟩)
  | copy =>
    refine .after_silent (copyMember_silent archive index _ file limits)
      (fun _ => .inl ⟨rfl, nofun⟩) fun _ => ?_
    exact .pure (.inl ⟨rfl, fun c hc => by cases hc; rfl⟩)
  | decrypt plan =>
    obtain ⟨hrow, hexpected⟩ : plan.row ∈ rows ∧ plan.expected = plan.row.size.toNat := by
      unfold treatment at ht
      split at ht
      · cases ht
      · split at ht
        · next h => cases ht; exact hplans h
        · cases ht
    have hlog := decryptMember_logs (S := S) P archive index
      { limits with maxOutputBytes := limits.maxOutputBytes - done.produced }
      (zipEntryName file.nameRaw) plan password
    refine Prog.Logs.bind (hlog.mapError (withTotalLimit limits)) ?_ ?_
    · rintro e _ ⟨new, rfl, hm⟩
      obtain ⟨a, ha, hr, hmem, htotal, hfair, -⟩ := hm.attempt hexpected
      exact .inr ⟨a, ha.symm, hr ▸ hrow, hmem, htotal, hfair.mono rfl, nofun⟩
    · rintro ⟨⟩ _ ⟨new, rfl, hm⟩
      obtain ⟨a, ha, hr, hmem, htotal, hfair, hok⟩ := hm.attempt hexpected
      refine .pure (.inr ⟨a, ?_, hr ▸ hrow, hmem, htotal, hfair.mono rfl, fun c hc => ?_⟩)
      · rw [List.append_nil, ha]
      · cases hc
        exact ⟨(hok rfl).1, by rw [Rebuilt.add, (hok rfl).2]⟩

/-- Rebuilding all members. -/
theorem rebuild_logs {plans : List (Str × Plan)}
    (hplans : ∀ {name plan}, plans.lookup name = some plan →
      plan.row ∈ rows ∧ plan.expected = plan.row.size.toNat)
    (stripped : Bytes) (password : Str) (entries : List (FileData × ℕ)) :
    Prog.Logs Run.log (fun r events =>
        ∃ total, AttemptLog rows limits (entries.map Prod.snd) r.isOk total events)
      (Prog.each (rebuildMember P archive plans stripped password limits) {} entries :
        Decrypt S Rebuilt) := by
  -- Induction over the members: the attempts so far keep within what is left of the
  -- limit.
  refine (Prog.Logs.each
    (I := fun before done events =>
      AttemptLog rows limits (before.map Prod.snd) true done.produced events)
    (E := fun _ events => ∃ total, AttemptLog rows limits (entries.map Prod.snd) false total events)
    .nil ?_).mono ?_
  · rintro before entry rest done _ hl ⟨attempts, rfl, ha, htotal⟩
    refine (rebuildMember_logs P hplans stripped password done entry).mono fun {r new} h => ?_
    have hpart : ((before ++ [entry]).map Prod.snd).Sublist (entries.map Prod.snd) := by
      rw [hl]
      exact .map _ (by simp)
    have hle := ha.total
    rcases h with ⟨rfl, hc⟩ | ⟨a, rfl, hrow, hm, hmax, hfair, hok⟩
    · rw [List.append_nil]
      refine ⟨fun c hr => ⟨attempts, rfl, ha.mono ?_, htotal.trans (hc c hr).symm⟩,
        fun _ _ => ⟨_, attempts, rfl, ha.mono ?_, htotal⟩⟩
      · rw [List.map_append]
        exact List.sublist_append_left _ _
      · rw [hl, List.map_append]
        exact List.sublist_append_left _ _
    · -- What is left of the limit bounds the member.
      have hsum : (attempts.map Attempt.total).sum + a.total ≤ limits.maxOutputBytes := by omega
      have hconcat (ok : Bool) (hdone : ok = true → a.Done) :
          Attempts rows limits (before.map Prod.snd ++ [entry.2]) ok (attempts ++ [a]) :=
        ha.concat hfair hrow (by simp [hm]) hsum hdone
      refine ⟨fun c hr => ⟨attempts ++ [a], by simp, ?_, ?_⟩,
        fun _ _ => ⟨_, attempts ++ [a], by simp, ?_, rfl⟩⟩
      · simpa using hconcat true fun _ => (hok c hr).1
      · rw [(hok c hr).2]
        simp [htotal]
      · have h := hconcat false nofun
        exact { h with once := h.once.trans (by simpa using hpart) }
  · rintro r events ⟨hok, herror⟩
    cases r with
    | ok a => exact ⟨_, hok a rfl⟩
    | error e => exact herror e rfl

omit [Read ρ IoError] in
theorem zipIdx_snd (archive : Archive ρ) :
    archive.directory.zipIdx.map Prod.snd = List.range archive.directory.length := by
  rw [List.zipIdx_map_snd, List.range_eq_range']

/-- The log of a per-entry package. -/
theorem perEntry_logs (cls : Classification) (password : Str) :
    Prog.LogsOk Run.log (RunLog archive sizes cls.encryptedEntries limits)
      (perEntry P archive cls password limits sizes : Decrypt S IntegrityOutcome) := by
  refine (planRows_logs cls).bind ?_ ?_
  · rintro e events ⟨-, h⟩
    obtain ⟨passed, hp, hs⟩ := h e rfl
    exact .screening hp hs
  rintro ⟨plans, superseded⟩ screens ⟨h, -⟩
  obtain ⟨hs, hplanned⟩ := h _ rfl
  refine (keys_logs P password
    fun p hp => (hplanned.superseded p hp).1).bind ?_ ?_
  · rintro e events ⟨attempts, rfl, ha, h0⟩
    exact .attempting hs { ha with once := ha.once.trans (List.nil_sublist _) }
  rintro ⟨⟩ _ ⟨before, rfl, hb, h0⟩
  -- The superseded plans are tested before any member is rebuilt.
  have hkeys : RunLog archive sizes cls.encryptedEntries limits false
      (screens ++ (before.flatMap Attempt.events ++ [])) := by
    rw [List.append_nil]
    exact .attempting hs (hb.mono (List.nil_sublist _))
  have hplans {name : Str} {plan : Plan} (hl : plans.lookup name = some plan) :
      plan.row ∈ cls.encryptedEntries ∧ plan.expected = plan.row.size.toNat :=
    (hplanned.planned hl).imp_right fun h => declared_toNat h.size
  refine .after_silent (readManifest_keeps Run.log_reopened archive) (fun _ => hkeys) fun manifest => ?_
  refine .after_silent (.lift _) (fun _ => hkeys) fun stripped => ?_
  refine (rebuild_logs P hplans stripped password archive.directory.zipIdx).bind ?_ ?_
  · rintro e _ ⟨total, attempts, rfl, ha, -⟩
    rw [zipIdx_snd] at ha
    rw [← List.flatMap_append]
    exact .attempting hs (hb.append h0 ha)
  · rintro done _ ⟨total, attempts, rfl, ha, -⟩
    rw [zipIdx_snd] at ha
    refine .pure ?_
    rw [List.append_nil, ← List.flatMap_append]
    exact .attempting hs (hb.append h0 ha)

end

/-! ### A wholesome package -/

section

variable {ρ σ ω : Type} [Read ρ IoError] [Read σ IoError] [Write ω IoError] (P : Prims)
  {archive : Archive ρ} (limits : DecryptLimits)

/-- What is inflated of a member to a writer. -/
theorem releaseOut_logs (row : EntryEncryption) (index expected : ℕ) (plain : σ) :
    Prog.LogsOk Run.log (ReleaseLog index row limits expected)
      (releaseOut P row index expected limits plain : Decrypt ω σ) := by
  intro s
  unfold releaseOut
  rcases hc : copyOut P plain s.out expected limits with ⟨result, out, inflate⟩
  dsimp only
  obtain ⟨bs, hd⟩ := eachPiece_drawn hc
  obtain ⟨hmax, hsize⟩ := drawn_given hd
  refine ⟨_, rfl, inflate.given, rfl, hmax, hsize, fun hok => ?_⟩
  cases result with
  | error e => cases hok
  | ok u =>
    obtain ⟨bs, r₁, hr, hend, -⟩ := eachPiece_writePiece_ok hc
    exact reads_given hr hend (by decide)

variable {limits}

omit [Read ρ IoError] in
/-- A row that passes, and the attempt to decrypt its member. -/
theorem MemberLog.runLog {sizes : Sizes} {row : EntryEncryption} {index expected : ℕ}
    {event : Event} {ok : Bool} {events : List Event}
    (h : MemberLog index row limits expected ok events) (hs : Screened archive sizes row event)
    (hsize : sizes.declared row.size = .ok expected) (hindex : index < archive.directory.length) :
    RunLog archive sizes [row] limits ok ([event] ++ (.decrypting row index :: events)) := by
  obtain ⟨a, ha, hrow, hm, hmax, hfair, hok⟩ := h.attempt (declared_toNat hsize)
  have hnone : Attempts [row] limits [] true [] := .nil
  have hone : Attempts [row] limits (List.range archive.directory.length) ok [a] :=
    hnone.concat hfair (by simp [hrow])
      (by rw [hm]; exact List.singleton_sublist.2 (List.mem_range.2 hindex))
      (by simpa using hmax)
      fun h => (hok h).1
  rw [← ha, ← List.flatMap_singleton Attempt.events a]
  exact .attempting (.cons hs .nil) hone

omit [Read ρ IoError] in
theorem Found.index_lt {path : Str} {index : ℕ} {name : Str} (h : Found archive path index name) :
    index < archive.directory.length := by
  obtain ⟨file, hf, -⟩ := h
  have hmem := List.mem_of_find?_eq_some hf
  exact (List.mem_zipIdx' hmem).1

/-- The log of the row and the member of a wholesome package. -/
theorem wholesome_logs (rowIndex : ℕ) (row : EntryEncryption) (password : Str) (sizes : Sizes) :
    Prog.LogsOk Run.log (RunLog archive sizes [row] limits)
      (wholesome P archive rowIndex row password limits sizes : Decrypt ω Unit) := by
  refine .after_lift RunLog.fallible fun expected hsize => ?_
  refine (memberForArchive_logs row.path (noMember rowIndex)).bind (fun h => by rw [h.1]; exact .nil) ?_
  rintro ⟨index, name⟩ _ ⟨rfl, hfound⟩
  refine (memberShape_logs index).bind (fun h => by rw [h.1]; exact .nil) ?_
  rintro ⟨len, head⟩ _ ⟨rfl, hlen⟩
  refine .after_lift (fun _ _ => .nil) fun _ hshape => ?_
  refine (record_logs _).bind (fun h => nomatch h.1) ?_
  rintro _ _ ⟨-, rfl⟩
  refine (record_logs _).bind (fun h => nomatch h.1) ?_
  rintro _ _ ⟨-, rfl⟩
  have hf := hfound index name rfl
  refine Prog.Logs.mono (gcmMember_logs P archive index row limits len password fun plain =>
    releaseOut_logs P limits row index expected plain) fun {r events} h => ?_
  exact h.runLog ⟨index, len, head, rfl, ⟨expected, hsize⟩, ⟨name, hf⟩, hlen len head rfl, hshape⟩
    hsize hf.index_lt

end

/-! ### Outputs within outputs -/

section

variable {ω ω' ε α : Type} {L : Bool → List Event → Prop}

theorem onOutput_silent (f : ω → Except ε α × ω) :
    Prog.Silent Run.log (onOutput f : Prog (Run ω) ε α) := fun _ => rfl

theorem inOutput_logs {x : Prog (Run ω') ε α} (hx : Prog.LogsOk Run.log L x) (wrap : ω → ω')
    (unwrap : ω' → ω) : Prog.LogsOk Run.log L (inOutput wrap unwrap x) :=
  fun s => hx (s.withOut (wrap s.out))

variable (P : Prims) (hl : Prog.Fallible L)

include hl in
/-- Writing a zip archive to the output. -/
theorem intoZip_logs [Write ω IoError] [Flush ω IoError] (limits : DecryptLimits)
    {x : Decrypt (ZipStreamWriter P ω) α} (hx : Prog.LogsOk Run.log L x) :
    Prog.LogsOk Run.log L (intoZip P limits x) := by
  intro s
  obtain ⟨events, hlog, h⟩ := hx (s.withOut (.new P s.out))
  unfold intoZip
  rcases hxs : x (s.withOut (.new P s.out)) with ⟨e | a, s'⟩
  · rw [hxs] at hlog h
    exact ⟨events, hlog, h⟩
  · rw [hxs] at hlog h
    refine ⟨events, hlog, ?_⟩
    dsimp only
    cases s'.out.finish.1 with
    | error e => exact hl.fail h
    | ok u => exact h

include hl in
/-- Writing a zip archive to the output, with the zip crate's writer. -/
theorem intoCrate_logs (ζ : Type) [CrateOver ζ ω] (limits : DecryptLimits)
    {x : Decrypt (SeekableZipSink ζ) α} (hx : Prog.LogsOk Run.log L x) :
    Prog.LogsOk Run.log L (intoCrate ζ limits x) :=
  inOutput_logs (.then_silent hl hx fun _ => (onOutput_silent _).bind fun _ => .pure _) _ _

end

/-! ### The entry points -/

/-- The rows that a run uses. -/
def usedRows (cls : Classification) : List EntryEncryption :=
  match cls.mode with
  | .wholesome => (wholesomeRow cls).toOption.toList.map Prod.snd
  | _ => cls.encryptedEntries

section

variable {ρ : Type} [Read ρ IoError] (P : Prims) (source : Source ρ) (limits : DecryptLimits)

/-- The log of an entry point: nothing before its source is classified, screened
    and opened again, and then that of a run over the rows it uses. -/
inductive EntryLog (sizes : Sizes) : (ok : Bool) → List Event → Prop
  | refused : EntryLog sizes false []
  | opened {cls : Classification} {archive : Archive ρ} {ok : Bool} {events : List Event}
      (classified : classifyLatched P.xmlReader (source.openArchive 0) = .ok cls)
      (screened : screenClass cls limits = .ok ())
      (again : source.openArchive 1 = .ok archive)
      (run : RunLog archive sizes (usedRows cls) limits ok events) : EntryLog sizes ok events

theorem EntryLog.fallible {sizes : Sizes} : Prog.Fallible (EntryLog P source limits sizes) where
  nil := .refused
  fail h := by cases h with
    | opened classified screened again run => exact .opened classified screened again run.fail

variable {ω : Type}

/-- What every run begins with logs nothing. -/
theorem begin_silent : Prog.Silent Run.log (begin_ P source limits : Decrypt ω _) :=
  .bind (.lift _) fun _ => .bind (.lift _) fun _ => .bind (.lift _) fun _ => .pure _

theorem begin_eq_ok {s s' : Run ω} {cls : Classification} {archive : Archive ρ}
    (h : begin_ P source limits s = (.ok (cls, archive), s')) :
    classifyLatched P.xmlReader (source.openArchive 0) = .ok cls ∧ screenClass cls limits = .ok () ∧
      source.openArchive 1 = .ok archive := by
  obtain ⟨cls, s₁, hc, h⟩ := Prog.bind_eq_ok.1 h
  obtain ⟨_, s₂, hs, h⟩ := Prog.bind_eq_ok.1 h
  obtain ⟨archive, s₃, ha, h⟩ := Prog.bind_eq_ok.1 h
  rw [Prog.lift_eq_ok] at hc hs ha
  rw [Except.mapError_eq_ok] at hc ha
  cases h
  exact ⟨hc.1, hs.1, ha.1⟩

/-- A run, from where its source is open. -/
theorem begin_logs {α : Type} {sizes : Sizes} {f : Classification × Archive ρ → Decrypt ω α}
    (hf : ∀ {cls archive}, Prog.LogsOk Run.log (RunLog archive sizes (usedRows cls) limits)
      (f (cls, archive))) :
    Prog.LogsOk Run.log (EntryLog P source limits sizes) (begin_ P source limits >>= f) := by
  intro s
  have hlog := begin_silent P source limits s
  rw [Prog.bind_apply]
  rcases hs : begin_ P source limits s with ⟨e | ⟨cls, archive⟩, s₁⟩
  · rw [hs] at hlog
    exact ⟨[], hlog.trans (List.append_nil _).symm, .refused⟩
  · rw [hs] at hlog
    obtain ⟨hc, hscreen, ha⟩ := begin_eq_ok P source limits hs
    obtain ⟨events, he, h⟩ := @hf cls archive s₁
    exact ⟨events, he.trans (by rw [← hlog]), .opened hc hscreen ha h⟩

/-- The rows of a package that is not wholesome. -/
theorem usedRows_of_ne {cls : Classification} (h : cls.mode ≠ .wholesome) :
    usedRows cls = cls.encryptedEntries := by
  unfold usedRows
  split
  · next hm => exact absurd hm h
  · rfl

/-- The row of a wholesome package. -/
theorem usedRows_wholesome {cls : Classification} (hm : cls.mode = .wholesome) {rowIndex : ℕ}
    {row : EntryEncryption} (h : wholesomeRow cls = .ok (rowIndex, row)) : usedRows cls = [row] := by
  simp [usedRows, hm, h, Except.toOption]

/-- The run of `decrypt_with_limits_to`. -/
theorem decryptRun_logs [Write ω IoError] [Flush ω IoError] (password : Str) :
    Prog.LogsOk Run.log (EntryLog P source limits .streamed)
      (decryptRun P source password limits : Decrypt ω DecryptOutcome) := by
  refine begin_logs P source limits fun {cls archive} => ?_
  dsimp only
  split
  · next hm =>
    refine .after_lift RunLog.fallible fun found hrow => ?_
    obtain ⟨rowIndex, row⟩ := found
    rw [usedRows_wholesome hm hrow]
    exact .then_silent RunLog.fallible (wholesome_logs P rowIndex row password .streamed)
      fun _ => .pure _
  · next hm =>
    rw [usedRows_of_ne hm]
    exact .then_silent RunLog.fallible
      (intoZip_logs P RunLog.fallible limits (perEntry_logs P cls password)) fun _ => .pure _

/-- The log of `decrypt_with_limits_to`. -/
theorem decryptWithLimitsTo_log [Write ω IoError] [Flush ω IoError] (writer : ω) (password : Str) :
    EntryLog P source limits .streamed
      (decryptWithLimitsTo P source writer password limits).1.isOk
      (decryptWithLimitsTo P source writer password limits).2.log := by
  unfold decryptWithLimitsTo
  split
  · exact .refused
  obtain ⟨events, hlog, h⟩ := decryptRun_logs P source limits password { out := writer }
  rcases hr : decryptRun P source password limits { out := writer } with ⟨result, s⟩
  rw [hr] at hlog h
  obtain rfl : s.log = events := hlog
  dsimp only
  split
  · exact (EntryLog.fallible P source limits).forget h
  · exact h

/-- The log of `decrypt`. -/
theorem decryptSlice_log (ζ : Type) [CrateOver ζ SliceWriter] (password : Str) :
    EntryLog P source limits .wholeBuffer
      (decryptSlice P ζ source password limits).1.isOk
      (decryptSlice P ζ source password limits).2.log := by
  unfold decryptSlice
  split
  · exact .refused
  have hrun : Prog.LogsOk Run.log (EntryLog P source limits .wholeBuffer)
      (begin_ P source limits >>= fun p => decryptSliceRun P ζ p.2 p.1 password limits) := by
    refine begin_logs P source limits fun {cls archive} => ?_
    unfold decryptSliceRun
    split
    · next hm =>
      refine .after_lift RunLog.fallible fun found hrow => ?_
      obtain ⟨rowIndex, row⟩ := found
      rw [usedRows_wholesome hm hrow]
      refine .after_lift RunLog.fallible fun n _ => ?_
      refine .after_silent RunLog.fallible (onOutput_silent _) fun _ => ?_
      exact (wholesome_logs P rowIndex row password .wholeBuffer).mapError ours
    · next hm =>
      rw [usedRows_of_ne hm]
      -- Sizing the buffer opens members, but logs nothing.
      refine .after_silent RunLog.fallible ?_ fun bound => ?_
      · exact .bind (.each (fun _ _ => .bind (openMemberRaw_silent archive _) fun _ => .pure _) _ _)
          fun _ => .pure _
      refine .after_silent RunLog.fallible (onOutput_silent _) fun _ => ?_
      exact (intoCrate_logs RunLog.fallible ζ limits (.then_silent RunLog.fallible
        (perEntry_logs P cls password) fun _ => .pure _)).mapError ours
  obtain ⟨events, hlog, h⟩ := hrun { out := .zeroed 0 }
  obtain rfl := hlog
  rw [Except.isOk_map]
  exact h

end

/-! ### Changing the password -/

section

variable {ρ ζ ω α : Type} [Read ρ IoError] (P : Prims) {L : Bool → List Event → Prop}
  (hl : Prog.Fallible L)

include hl in
/-- Sealing a payload. -/
theorem sealed_logs [CrateOver ζ ω] (gcm : GcmStream)
    {payload : Reencrypt (GcmEncryptWriter P ζ) α} (hp : Prog.LogsOk Run.log L payload) :
    Prog.LogsOk Run.log L (sealed P gcm payload) := by
  intro s
  obtain ⟨events, hlog, h⟩ := hp (s.withOut ⟨s.out, gcm⟩)
  unfold sealed
  rcases hr : payload (s.withOut ⟨s.out, gcm⟩) with ⟨e | a, s'⟩
  · rw [hr] at hlog h
    exact ⟨events, hlog, h⟩
  · rw [hr] at hlog h
    refine ⟨events, hlog, ?_⟩
    dsimp only
    cases s'.out.finish.1 with
    | error e => exact hl.fail h
    | ok u => exact h

include hl in
/-- Writing a wholesome package logs what its payload logs. -/
theorem writePackage_logs (ζ : Type) [CrateOver ζ ω] (random : Random) (new : Str)
    (params : Argon2Params) (mimetype : Option Str) (couldReach : ℕ)
    {payload : Reencrypt (GcmEncryptWriter P ζ) (ℕ × DecryptOutcome)}
    (hp : Prog.LogsOk Run.log L payload) :
    Prog.LogsOk Run.log L (writePackage P ζ random new params mimetype couldReach payload :
      Reencrypt ω DecryptOutcome) := by
  unfold writePackage
  refine .after_lift hl fun salt _ => .after_lift hl fun iv _ => .after_lift hl fun key _ => ?_
  refine inOutput_logs ?_ _ _
  refine .after_silent hl (onOutput_silent _) fun _ => ?_
  refine .after_silent hl (onOutput_silent _) fun _ => ?_
  refine .after_silent hl (onOutput_silent _) fun _ => ?_
  refine .after_silent hl (onOutput_silent _) fun _ => ?_
  split
  · exact .fail hl _
  · refine .then_silent hl (sealed_logs P hl _ hp) fun _ => .ite (.fail _) ?_
    refine (onOutput_silent _).bind fun _ => (onOutput_silent _).bind fun _ => ?_
    exact (onOutput_silent _).bind fun _ => .pure _

end

section

variable {ρ ω τ : Type} [Read ρ IoError] [Write τ IoError] (P : Prims) {archive : Archive ρ}
  (limits : DecryptLimits)

/-- What is inflated of a member besides its being copied. -/
theorem teeOut_logs (row : EntryEncryption) (index expected : ℕ) (plain : GcmDecryptReader P ρ) :
    Prog.LogsOk Run.log (ReleaseLog index row limits expected)
      (teeOut P row index expected limits plain : Reencrypt τ (ℕ × DecryptOutcome)) := by
  intro s
  unfold teeOut
  dsimp only
  rcases hc : drainTo limits
    (⟨.new P.inflater ⟨plain, s.out⟩ expected limits.maxOutputBytes, []⟩ : Checking P ρ τ)
    with ⟨result, check⟩
  obtain ⟨bs, hd⟩ := discard_drawn hc
  obtain ⟨hmax, hsize⟩ := drawn_given hd
  cases result with
  | error e => exact ⟨_, rfl, check.given, rfl, hmax, hsize, nofun⟩
  | ok u =>
    refine ⟨_, rfl, check.given, rfl, hmax, hsize, fun _ => ?_⟩
    obtain ⟨bs, r₁, hr, hend⟩ := discard_ok hc
    exact reads_given hr hend (by decide)

variable {limits}

/-- The log of changing the password of a wholesome package. -/
theorem rewholesome_logs (cls : Classification) (ζ : Type) [CrateOver ζ ω] (random : Random)
    (old new : Str) (params : Argon2Params) (mimetype : Option Str)
    (hm : cls.mode = .wholesome) :
    Prog.LogsOk Run.log (RunLog archive .streamed (usedRows cls) limits)
      (rewholesome P archive cls ζ random old new limits params mimetype :
        Reencrypt ω DecryptOutcome) := by
  have hl : Prog.Fallible (RunLog archive .streamed (usedRows cls) limits) := RunLog.fallible
  refine .after_lift hl fun found hrow => ?_
  obtain ⟨rowIndex, row⟩ := found
  rw [Except.mapError_eq_ok] at hrow
  rw [usedRows_wholesome hm hrow] at hl ⊢
  refine .after_lift hl fun expected hsize => ?_
  rw [Except.mapError_eq_ok] at hsize
  refine (memberForArchive_logs row.path (noMember rowIndex)).bind_mapError
    (fun h => by rw [h.1]; exact .nil) ?_
  rintro ⟨index, name⟩ _ ⟨rfl, hfound⟩
  refine (memberShape_logs index).bind_mapError (fun h => by rw [h.1]; exact .nil) ?_
  rintro ⟨len, head⟩ _ ⟨rfl, hlen⟩
  refine .after_lift (fun _ _ => .nil) fun _ hshape => ?_
  rw [Except.mapError_eq_ok] at hshape
  refine (record_logs _).bind (fun h => nomatch h.1) ?_
  rintro _ _ ⟨-, rfl⟩
  refine (record_logs _).bind (fun h => nomatch h.1) ?_
  rintro _ _ ⟨-, rfl⟩
  have hf := hfound index name rfl
  -- The screening and the attempt are the first two events; what is left to show is
  -- the log of the member.
  suffices hmember : Prog.LogsOk Run.log (MemberLog index row limits expected) _ from
    Prog.Logs.mono hmember fun {r events} h =>
      h.runLog ⟨index, len, head, rfl, ⟨expected, hsize⟩, ⟨name, hf⟩, hlen len head rfl, hshape⟩
        hsize hf.index_lt
  refine KeyLog.then_release ((gcmKey_logs P archive index row limits len old).mapError _)
    fun oldKey => ?_
  refine writePackage_logs P ReleaseLog.fallible ζ random new params mimetype len ?_
  refine .after_silent ReleaseLog.fallible
    (.mapError (openAfterIv_keeps Run.log_reopened archive index) _)
    fun file => ?_
  split
  · exact .fail ReleaseLog.fallible _
  · exact teeOut_logs P limits row index expected _

/-- The log of a rebuild that is deflated. -/
theorem deflateRebuilt_logs [Flush τ IoError] (cls : Classification) (old : Str) :
    Prog.LogsOk Run.log (RunLog archive .streamed cls.encryptedEntries limits)
      (deflateRebuilt P archive cls old limits : Reencrypt τ (ℕ × DecryptOutcome)) := by
  intro s
  have hx : Prog.LogsOk Run.log (RunLog archive .streamed cls.encryptedEntries limits)
      (ofDecrypt (intoZip P limits (perEntry P archive cls old limits .streamed)) :
        Reencrypt (DeflateWriter P τ) IntegrityOutcome) :=
    (intoZip_logs P RunLog.fallible limits (perEntry_logs P cls old)).mapError _
  obtain ⟨events, hlog, h⟩ := hx (s.withOut (.adaptive P s.out))
  unfold deflateRebuilt
  dsimp only
  rcases hr : (ofDecrypt (intoZip P limits (perEntry P archive cls old limits .streamed)) :
    Reencrypt (DeflateWriter P τ) IntegrityOutcome) (s.withOut (.adaptive P s.out)) with ⟨e | a, s'⟩
  · rw [hr] at hlog h
    exact ⟨events, hlog, h⟩
  · rw [hr] at hlog h
    refine ⟨events, hlog, ?_⟩
    dsimp only
    cases s'.out.finish.1 with
    | error e => exact RunLog.fail h
    | ok u => exact h

/-- The log of changing the password of a package with encrypted members. -/
theorem rePerEntry_logs (cls : Classification) (ζ : Type) [CrateOver ζ ω] [Flush ζ IoError]
    (random : Random) (old new : Str) (params : Argon2Params) (mimetype : Option Str) :
    Prog.LogsOk Run.log (RunLog archive .streamed cls.encryptedEntries limits)
      (rePerEntry P archive cls ζ random old new limits params mimetype :
        Reencrypt ω DecryptOutcome) := by
  refine .after_silent RunLog.fallible ?_ fun reach => ?_
  · exact .mapError (.each (fun _ _ => .bind (openMemberRaw_silent archive _) fun _ => .pure _) _ _) _
  refine .after_lift RunLog.fallible fun couldReach _ => ?_
  exact writePackage_logs P RunLog.fallible ζ random new params mimetype _
    (deflateRebuilt_logs P cls old)

end

section

variable {ρ ω : Type} [Read ρ IoError] (P : Prims) (source : Source ρ) (limits : DecryptLimits)

/-- The run of `reencrypt_to`. -/
theorem reencryptRun_logs (ζ : Type) [CrateOver ζ ω] [Flush ζ IoError]
    (random : Random) (old new : Str) (params : Argon2Params) :
    Prog.LogsOk Run.log (EntryLog P source limits .streamed)
      (reencryptRun P ζ source random old new limits params : Reencrypt ω DecryptOutcome) := by
  have hl : Prog.Fallible (EntryLog P source limits .streamed) := EntryLog.fallible ..
  refine .after_lift hl fun cls hc => .after_lift hl fun _ hs => ?_
  rw [Except.mapError_eq_ok] at hc hs
  rw [Except.mapError_eq_ok] at hc
  have hrest : Prog.LogsOk Run.log (EntryLog P source limits .streamed) (do
      let archive ← liftDecrypt ((source.openArchive 1).mapError fun e => .zip e.message)
      let mimetype ← fun s => liftEncrypt (resolveMimetype archive s.opened cls.mediaType)
        { s with opened := s.opened + 1 }
      match cls.mode with
      | .wholesome => rewholesome P archive cls ζ random old new limits params mimetype
      | _ => rePerEntry P archive cls ζ random old new limits params mimetype :
        Reencrypt ω DecryptOutcome) := by
    refine .after_lift hl fun archive ha => ?_
    rw [Except.mapError_eq_ok, Except.mapError_eq_ok] at ha
    suffices Prog.LogsOk Run.log (RunLog archive .streamed (usedRows cls) limits) _ from
      Prog.Logs.mono this fun h => .opened hc hs ha h
    refine .after_silent RunLog.fallible (fun _ => rfl) fun mimetype => ?_
    split
    · next hm => exact rewholesome_logs P cls ζ random old new params mimetype hm
    · next hm =>
      rw [usedRows_of_ne hm]
      exact rePerEntry_logs P cls ζ random old new params mimetype
  exact Prog.Logs.ite (fun _ => Prog.LogsOk.after_lift hl fun _ _ => hrest) fun _ => hrest

/-- The log of `reencrypt_to`. -/
theorem reencryptTo_log (ζ : Type) [CrateOver ζ ω] [Flush ζ IoError] (writer : ω)
    (random : Random) (old new : Str) (params : Argon2Params) :
    EntryLog P source limits .streamed
      (reencryptTo P ζ source writer random old new limits params).1.isOk
      (reencryptTo P ζ source writer random old new limits params).2.log := by
  unfold reencryptTo
  split
  · exact .refused
  split
  · exact .refused
  obtain ⟨events, hlog, h⟩ := reencryptRun_logs P source limits ζ random old new params
    { out := writer }
  obtain rfl := hlog
  cases source.latch.take with
  | none => exact h
  | some e => exact (EntryLog.fallible P source limits).forget h

end

/-! ### The log of one package -/

/-- A source of the sealed document, with a folder after it. -/
def sealedSource : Source (Pieces IoError) where
  openArchive _ := .ok (packageWith (folderNamed [0x41]))

/-- What every entry point logs of it: the row passes, the first key is the right one, and
    three bytes are handed out. -/
def sealedLog : List Event := [
  .screened sealedRow 0 38 (List.replicate 12 0),
  .decrypting sealedRow 0,
  .derived sealedRow,
  .accepted sealedRow 0 (List.replicate 16 0),
  .released sealedRow 0 3,
  .released sealedRow 0 0]

theorem decryptSlice_sealed : ∃ bytes s',
    decryptSlice sealedPrims SliceCrate sealedSource (ascii "pw") {} = (.ok bytes, s') ∧
      s'.log = sealedLog := by
  have hrun : (decryptSlice sealedPrims SliceCrate sealedSource (ascii "pw") {}).1.isOk = true ∧
      (decryptSlice sealedPrims SliceCrate sealedSource (ascii "pw") {}).2.log = sealedLog := by
    decide +kernel
  rcases h : decryptSlice sealedPrims SliceCrate sealedSource (ascii "pw") {} with ⟨e | bytes, s'⟩
  · rw [h] at hrun
    exact absurd hrun.1 Bool.false_ne_true
  · rw [h] at hrun
    exact ⟨bytes, s', rfl, hrun.2⟩

theorem decryptWithLimitsTo_sealed : ∃ s',
    decryptWithLimitsTo sealedPrims sealedSource (⟨[]⟩ : MemberStore) (ascii "pw") {} =
        (.ok ⟨.verified⟩, s') ∧ s'.log = sealedLog := by
  have hrun : (decryptWithLimitsTo sealedPrims sealedSource (⟨[]⟩ : MemberStore) (ascii "pw")
      {}).1.toOption = some ⟨.verified⟩ ∧
      (decryptWithLimitsTo sealedPrims sealedSource (⟨[]⟩ : MemberStore) (ascii "pw") {}).2.log =
        sealedLog := by decide +kernel
  exact ⟨_, Except.eq_of_toOption hrun.1, hrun.2⟩

theorem reencryptTo_sealed : ∃ s',
    reencryptTo sealedPrims MemberStore sealedSource (⟨[]⟩ : MemberStore) zeroRandom (ascii "pw")
        (ascii "new") {} .libreofficeDefault = (.ok ⟨.verified⟩, s') ∧ s'.log = sealedLog := by
  have hrun : (reencryptTo sealedPrims MemberStore sealedSource (⟨[]⟩ : MemberStore) zeroRandom
      (ascii "pw") (ascii "new") {} .libreofficeDefault).1.toOption = some ⟨.verified⟩ ∧
      (reencryptTo sealedPrims MemberStore sealedSource (⟨[]⟩ : MemberStore) zeroRandom
        (ascii "pw") (ascii "new") {} .libreofficeDefault).2.log = sealedLog := by decide +kernel
  exact ⟨_, Except.eq_of_toOption hrun.1, hrun.2⟩

end OdfCrypto

import Mathlib.Data.List.Nodup
import OdfCrypto.DecryptLog.Runs

/-!
# What a run costs, and what it hands out

Two properties of the log of a run, of whichever entry point.

* `Cheap`: no key is derived before every row the run uses has passed the checks
  that need no key; parameters are within the limits; and a run in which no key
  is accepted derives at most one, or four if the row is a SHA-1 one;
* `Bounded`: at every point what was handed out is within the limit, and of a
  member no more than its row announces; all of that, if the run succeeded.
-/

namespace OdfCrypto

open ByteStream Text

namespace Event

/-- The row of which a key was derived. -/
def derivedRow : Event → Option EntryEncryption
  | .derived row => some row
  | _ => none

/-- How much was handed out. -/
def amount : Event → ℕ
  | .released _ _ n => n
  | _ => 0

/-- Whether something was handed out of a member. -/
def isReleaseOf (index : ℕ) : Event → Bool
  | .released _ i _ => i = index
  | _ => false

end Event

/-- The rows of which keys were derived, in order. -/
def derivedRows (log : List Event) : List EntryEncryption := log.filterMap Event.derivedRow

/-- How much was handed out. -/
def released (log : List Event) : ℕ := (log.map Event.amount).sum

/-- How much was handed out of a member. -/
def releasedOf (index : ℕ) (log : List Event) : ℕ := released (log.filter (Event.isReleaseOf index))

@[simp] theorem derivedRows_append (l l' : List Event) :
    derivedRows (l ++ l') = derivedRows l ++ derivedRows l' := List.filterMap_append

@[simp] theorem released_append (l l' : List Event) :
    released (l ++ l') = released l + released l' := by simp [released]

@[simp] theorem releasedOf_append (index : ℕ) (l l' : List Event) :
    releasedOf index (l ++ l') = releasedOf index l + releasedOf index l' := by simp [releasedOf]

@[simp] theorem released_nil : released [] = 0 := rfl

@[simp] theorem released_cons (e : Event) (l : List Event) :
    released (e :: l) = e.amount + released l := rfl

/-- A part of a log hands out no more. -/
theorem released_le {l l' : List Event} (h : l.Sublist l') : released l ≤ released l' := by
  induction h with
  | slnil => exact le_rfl
  | cons e _ ih => exact ih.trans (Nat.le_add_left _ _)
  | cons_cons e _ ih => exact Nat.add_le_add_left ih _

theorem releasedOf_le {index : ℕ} {l l' : List Event} (h : l.Sublist l') :
    releasedOf index l ≤ releasedOf index l' := released_le (h.filter _)

/-! ### The events of an attempt -/

theorem derivedRows_eq_nil {l : List Event} (h : ∀ e ∈ l, e.derivedRow = none) :
    derivedRows l = [] := List.filterMap_eq_nil_iff.2 h

theorem released_eq_zero {l : List Event} (h : ∀ e ∈ l, e.amount = 0) : released l = 0 :=
  List.sum_eq_zero_iff_forall_eq_nat.2 (by simpa using h)

theorem released_releases (row : EntryEncryption) (index : ℕ) (given : List ℕ) :
    released (releases row index given) = given.sum := by
  simp [released, releases, Event.amount, Function.comp_def]

namespace Attempt

variable (a : Attempt)

/-- The events of an attempt before anything is handed out. -/
def finding : List Event :=
  (if a.decrypting then [.decrypting a.row a.index] else []) ++
    List.replicate a.derivations (.derived a.row) ++ a.key.toList.map (.accepted a.row a.index)

theorem events_eq : a.events = a.finding ++ releases a.row a.index a.given := rfl

theorem mem_finding {e : Event} (h : e ∈ a.finding) :
    e = .decrypting a.row a.index ∨ e = .derived a.row ∨ ∃ key, e = .accepted a.row a.index key := by
  simp only [finding, List.mem_append, List.mem_replicate, List.mem_map] at h
  rcases h with (h | ⟨-, rfl⟩) | ⟨key, -, rfl⟩
  · split at h
    · exact .inl (List.mem_singleton.1 h)
    · cases h
  · exact .inr (.inl rfl)
  · exact .inr (.inr ⟨key, rfl⟩)

theorem amount_finding {e : Event} (h : e ∈ a.finding) : e.amount = 0 := by
  obtain rfl | rfl | ⟨key, rfl⟩ := a.mem_finding h <;> rfl

theorem derivedRows_events : derivedRows a.events = List.replicate a.derivations a.row := by
  have hstart : derivedRows (if a.decrypting then [.decrypting a.row a.index] else []) = [] := by
    split <;> rfl
  have hkey : derivedRows (a.key.toList.map (.accepted a.row a.index)) = [] :=
    derivedRows_eq_nil (by simp [Event.derivedRow])
  have hgiven : derivedRows (releases a.row a.index a.given) = [] :=
    derivedRows_eq_nil (by simp [releases, Event.derivedRow])
  rw [events, derivedRows_append, derivedRows_append, derivedRows_append, hstart, hkey, hgiven,
    List.nil_append, List.append_nil, List.append_nil]
  exact List.filterMap_replicate_of_some rfl

theorem released_events : released a.events = a.total := by
  rw [events_eq, released_append, released_eq_zero fun _ => a.amount_finding, Nat.zero_add,
    released_releases]
  rfl

theorem releasedOf_events (index : ℕ) :
    releasedOf index a.events = if a.index = index then a.total else 0 := by
  have hfinding : releasedOf index a.finding = 0 :=
    released_eq_zero fun e he => a.amount_finding (List.mem_filter.1 he).1
  rw [events_eq, releasedOf_append, hfinding, Nat.zero_add, releasedOf]
  split
  · next h =>
    rw [List.filter_eq_self.2 (by simp [releases, Event.isReleaseOf, h]), released_releases]
    rfl
  · next h => rw [List.filter_eq_nil_iff.2 (by simp [releases, Event.isReleaseOf, h]), released_nil]

theorem accepted_mem_events (h : a.key.isSome = true) :
    ∃ key, .accepted a.row a.index key ∈ a.events := by
  obtain ⟨key, hk⟩ := Option.isSome_iff_exists.1 h
  exact ⟨key, by simp [events, hk]⟩

end Attempt

/-! ### The cost of a run -/

theorem mem_derivedRows {row : EntryEncryption} {log : List Event} :
    row ∈ derivedRows log ↔ .derived row ∈ log := by
  rw [derivedRows, List.mem_filterMap]
  refine ⟨?_, fun h => ⟨_, h, rfl⟩⟩
  rintro ⟨e, he, h⟩
  cases e <;> cases h
  exact he

/-- What is not in the first part of a list comes after it. -/
theorem prefix_of_not_mem {α : Type} {x : α} {l r before after : List α}
    (h : before ++ x :: after = l ++ r) (hx : x ∉ l) : l <+: before := by
  rcases List.append_eq_append_iff.1 h with ⟨c, rfl, hc⟩ | ⟨c, rfl, -⟩
  · cases c with
    | nil => simp
    | cons y c =>
      obtain ⟨rfl, -⟩ := List.cons.inj hc
      exact absurd (by simp) hx
  · exact List.prefix_append _ _

/-- What a run does about keys, with its source and limits: every row that it uses
    passes first, parameters are within the limits, and without a key that is
    accepted it stops at the first row. -/
structure Cheap {ρ : Type} [Read ρ IoError] (P : Prims) (source : Source ρ) (limits : DecryptLimits)
    (sizes : Sizes) (log : List Event) : Prop where
  screened : ∀ {before row after}, log = before ++ .derived row :: after →
    ∃ cls archive, classifyLatched P.xmlReader (source.openArchive 0) = .ok cls ∧
      screenClass cls limits = .ok () ∧ source.openArchive 1 = .ok archive ∧
      row ∈ usedRows cls ∧ ∀ row' ∈ usedRows cls, ∃ event ∈ before, Screened archive sizes row' event
  within : ∀ {row}, .derived row ∈ log → row.kdf.Within limits
  few : (∀ row index key, .accepted row index key ∉ log) →
    ∀ {row}, (derivedRows log).head? = some row →
      (derivedRows log).length ≤ if row.startKey = .sha1 then 4 else 1

section

variable {ρ : Type} {archive : Archive ρ} {sizes : Sizes} {rows : List EntryEncryption}
  {limits : DecryptLimits} {ok : Bool} {log screens : List Event}

/-- A row that passes derives no key, and hands out nothing. -/
theorem Screened.idle {row : EntryEncryption} {event : Event} (h : Screened archive sizes row event) :
    event.derivedRow = none ∧ event.amount = 0 := by
  obtain ⟨index, len, head, rfl, -⟩ := h
  exact ⟨rfl, rfl⟩

theorem mem_screens (h : List.Forall₂ (Screened archive sizes) rows screens) {event : Event}
    (he : event ∈ screens) : ∃ row ∈ rows, Screened archive sizes row event := by
  induction h with
  | nil => cases he
  | @cons row _ _ _ hs _ ih =>
    rcases List.mem_cons.1 he with rfl | he
    · exact ⟨row, List.mem_cons_self, hs⟩
    · obtain ⟨row', hr, h⟩ := ih he
      exact ⟨row', List.mem_cons_of_mem _ hr, h⟩

theorem screened_of_mem (h : List.Forall₂ (Screened archive sizes) rows screens)
    {row : EntryEncryption} (hr : row ∈ rows) : ∃ event ∈ screens, Screened archive sizes row event := by
  induction h with
  | nil => cases hr
  | @cons _ event _ _ hs _ ih =>
    rcases List.mem_cons.1 hr with rfl | hr
    · exact ⟨event, List.mem_cons_self, hs⟩
    · obtain ⟨event, he, h⟩ := ih hr
      exact ⟨event, List.mem_cons_of_mem _ he, h⟩

theorem derivedRows_screens (h : List.Forall₂ (Screened archive sizes) rows screens) :
    derivedRows screens = [] := by
  refine derivedRows_eq_nil fun e he => ?_
  obtain ⟨row, -, hs⟩ := mem_screens h he
  exact hs.idle.1

theorem released_screens (h : List.Forall₂ (Screened archive sizes) rows screens) :
    released screens = 0 := by
  refine released_eq_zero fun e he => ?_
  obtain ⟨row, -, hs⟩ := mem_screens h he
  exact hs.idle.2

theorem derivedRows_flatMap (attempts : List Attempt) :
    derivedRows (attempts.flatMap Attempt.events) =
      attempts.flatMap fun a => List.replicate a.derivations a.row := by
  induction attempts with
  | nil => rfl
  | cons a attempts ih =>
    rw [List.flatMap_cons, derivedRows_append, a.derivedRows_events, ih, List.flatMap_cons]

theorem derivedRows_attempting (h : List.Forall₂ (Screened archive sizes) rows screens)
    (attempts : List Attempt) :
    derivedRows (screens ++ attempts.flatMap Attempt.events) =
      attempts.flatMap fun a => List.replicate a.derivations a.row := by
  rw [derivedRows_append, derivedRows_screens h, List.nil_append, derivedRows_flatMap]

/-- Without a key that is accepted, there is one attempt at most. -/
theorem Ended.unique {attempts : List Attempt} (h : Ended ok attempts)
    (hno : ∀ row index key, .accepted row index key ∉ attempts.flatMap Attempt.events) :
    attempts.length ≤ 1 := by
  obtain ⟨done, rest, rfl, hd, hrest, -⟩ := h
  cases done with
  | nil => exact hrest
  | cons a done =>
    obtain ⟨key, hkey⟩ := a.accepted_mem_events (hd a List.mem_cons_self).found
    exact absurd (List.mem_flatMap.2 ⟨a, by simp, hkey⟩) (hno _ _ _)

theorem derived_not_mem (h : List.Forall₂ (Screened archive sizes) rows screens)
    {row : EntryEncryption} : .derived row ∉ screens := by
  rw [← mem_derivedRows, derivedRows_screens h]
  exact List.not_mem_nil

/-- A key is derived of a row that the run uses, in an attempt. -/
theorem RunLog.derived (h : RunLog archive sizes rows limits ok log) {row : EntryEncryption}
    (hd : .derived row ∈ log) : row ∈ rows ∧ row.kdf.Within limits := by
  cases h with
  | screening _ hs => exact absurd hd (derived_not_mem hs)
  | attempting hs ha =>
    rw [← mem_derivedRows, derivedRows_attempting hs, List.mem_flatMap] at hd
    obtain ⟨a, hmem, hrow⟩ := hd
    obtain ⟨hne, rfl⟩ := List.mem_replicate.1 hrow
    exact ⟨ha.rows a hmem, (ha.fair a hmem).within hne⟩

/-- Before a key is derived, every row has passed. -/
theorem RunLog.passed_before (h : RunLog archive sizes rows limits ok log)
    {before after : List Event} {row : EntryEncryption}
    (hlog : log = before ++ .derived row :: after) {row' : EntryEncryption} (hr : row' ∈ rows) :
    ∃ event ∈ before, Screened archive sizes row' event := by
  cases h with
  | screening _ hs =>
    have hd : .derived row ∈ log := hlog ▸ by simp
    exact absurd hd (derived_not_mem hs)
  | attempting hs ha =>
    have hpre := prefix_of_not_mem hlog.symm (derived_not_mem hs)
    obtain ⟨event, he, hscreened⟩ := screened_of_mem hs hr
    exact ⟨event, hpre.subset he, hscreened⟩

/-- Without a key that is accepted, only those of one row are derived. -/
theorem RunLog.few (h : RunLog archive sizes rows limits ok log)
    (hno : ∀ row index key, .accepted row index key ∉ log) {row : EntryEncryption}
    (hfirst : (derivedRows log).head? = some row) : (derivedRows log).length ≤ tries row := by
  cases h with
  | screening _ hs =>
    rw [derivedRows_screens hs]
    exact Nat.zero_le _
  | @attempting _ screens attempts hs ha =>
    have hone := ha.ended.unique fun row index key hmem =>
      hno row index key (List.mem_append_right _ hmem)
    rw [derivedRows_attempting hs] at hfirst ⊢
    cases attempts with
    | nil => exact Nat.zero_le _
    | cons a rest =>
      obtain rfl := List.length_eq_zero_iff.1 (Nat.le_zero.1 (Nat.succ_le_succ_iff.1 hone))
      rw [List.flatMap_singleton, List.length_replicate]
      rw [List.flatMap_singleton] at hfirst
      obtain ⟨-, rfl⟩ := List.mem_replicate.1 (List.mem_of_mem_head? hfirst)
      exact (ha.fair a List.mem_cons_self).derivations

end

theorem EntryLog.cheap {ρ : Type} [Read ρ IoError] {P : Prims} {source : Source ρ}
    {limits : DecryptLimits} {sizes : Sizes} {ok : Bool} {log : List Event}
    (h : EntryLog P source limits sizes ok log) : Cheap P source limits sizes log := by
  cases h with
  | refused =>
    exact {
      screened := fun h => by simp at h
      within := fun h => by cases h
      few := fun _ _ h => by cases h }
  | @opened cls archive _ _ hc hs ha hrun =>
    refine ⟨fun hlog => ?_, fun hd => (hrun.derived hd).2, fun hno _ hfirst => hrun.few hno hfirst⟩
    refine ⟨cls, archive, hc, hs, ha, (hrun.derived (hlog ▸ by simp)).1, fun row' hr => ?_⟩
    exact hrun.passed_before hlog hr

/-- What an attempt costs, in `decrypt`, `decrypt_to` and `reencrypt_to`. -/
theorem attempt_cost {ρ ω ζ ξ : Type} [Read ρ IoError] [Write ω IoError] [Flush ω IoError]
    [CrateOver ζ ω] [Flush ζ IoError] [CrateOver ξ SliceWriter] (P : Prims) (source : Source ρ)
    (writer : ω) (random : Random) (password new : Str) (limits : DecryptLimits)
    (params : Argon2Params) :
    Cheap P source limits .wholeBuffer (decryptSlice P ξ source password limits).2.log ∧
      Cheap P source limits .streamed
        (decryptWithLimitsTo P source writer password limits).2.log ∧
      Cheap P source limits .streamed
        (reencryptTo P ζ source writer random password new limits params).2.log :=
  ⟨(decryptSlice_log P source limits ξ password).cheap,
    (decryptWithLimitsTo_log P source limits writer password).cheap,
    (reencryptTo_log P source limits ζ writer random password new params).cheap⟩

/-- Every entry point derives one key for the sealed document, once its row has passed. -/
theorem attempt_cost_sample :
    (∃ bytes s', decryptSlice sealedPrims SliceCrate sealedSource (ascii "pw") {} = (.ok bytes, s') ∧
      s'.log = sealedLog ∧ Cheap sealedPrims sealedSource {} .wholeBuffer s'.log) ∧
    (∃ s', decryptWithLimitsTo sealedPrims sealedSource (⟨[]⟩ : MemberStore) (ascii "pw") {} =
        (.ok ⟨.verified⟩, s') ∧
      s'.log = sealedLog ∧ Cheap sealedPrims sealedSource {} .streamed s'.log) ∧
    (∃ s', reencryptTo sealedPrims MemberStore sealedSource (⟨[]⟩ : MemberStore) zeroRandom
        (ascii "pw") (ascii "new") {} .libreofficeDefault = (.ok ⟨.verified⟩, s') ∧
      s'.log = sealedLog ∧ Cheap sealedPrims sealedSource {} .streamed s'.log) ∧
    derivedRows sealedLog = [sealedRow] := by
  obtain ⟨bytes, s₁, hslice, hlog₁⟩ := decryptSlice_sealed
  obtain ⟨s₂, hdecrypt, hlog₂⟩ := decryptWithLimitsTo_sealed
  obtain ⟨s₃, hreencrypt, hlog₃⟩ := reencryptTo_sealed
  obtain ⟨h₁, h₂, h₃⟩ := attempt_cost (ξ := SliceCrate) (ζ := MemberStore) sealedPrims sealedSource
    (⟨[]⟩ : MemberStore) zeroRandom (ascii "pw") (ascii "new") {} .libreofficeDefault
  rw [hslice] at h₁
  rw [hdecrypt] at h₂
  rw [hreencrypt] at h₃
  exact ⟨⟨bytes, s₁, hslice, hlog₁, h₁⟩, ⟨s₂, hdecrypt, hlog₂, h₂⟩, ⟨s₃, hreencrypt, hlog₃, h₃⟩, rfl⟩

/-! ### What is handed out -/

/-- What a run hands out: at every point no more than the limit, and of a member no
    more than its row announces; all of it, if the run succeeded. -/
structure Bounded (limits : DecryptLimits) (ok : Bool) (log : List Event) : Prop where
  total : ∀ {sofar}, sofar <+: log → released sofar ≤ limits.maxOutputBytes
  begun : ∀ {row index n}, .released row index n ∈ log → .decrypting row index ∈ log
  member : ∀ {row index sofar}, .decrypting row index ∈ log → sofar <+: log →
    (releasedOf index sofar : ℤ) ≤ row.size
  whole : ok = true → ∀ {row index}, .decrypting row index ∈ log →
    (releasedOf index log : ℤ) = row.size

section

variable {ρ : Type} {archive : Archive ρ} {sizes : Sizes} {rows : List EntryEncryption}
  {limits : DecryptLimits} {members : List ℕ} {ok : Bool} {log screens : List Event}
  {attempts : List Attempt}

theorem released_flatMap (attempts : List Attempt) :
    released (attempts.flatMap Attempt.events) = (attempts.map Attempt.total).sum := by
  induction attempts with
  | nil => rfl
  | cons a attempts ih =>
    rw [List.flatMap_cons, released_append, a.released_events, ih, List.map_cons, List.sum_cons]

/-- Attempts on other members hand out nothing of a member. -/
theorem releasedOf_eq_zero {index : ℕ} (hfair : ∀ a ∈ attempts, a.Fair limits)
    (hnot : index ∉ attempts.filterMap Attempt.member) :
    releasedOf index (attempts.flatMap Attempt.events) = 0 := by
  induction attempts with
  | nil => rfl
  | cons a attempts ih =>
    rw [List.filterMap_cons] at hnot
    rw [List.flatMap_cons, releasedOf_append, a.releasedOf_events]
    cases hdec : a.decrypting with
    | false =>
      have htotal : a.total = 0 := by
        rw [Attempt.total, (hfair a List.mem_cons_self).checked hdec, List.sum_nil]
      rw [Attempt.member, if_neg (by simp [hdec])] at hnot
      rw [htotal, ite_self, ih (fun b hb => hfair b (List.mem_cons_of_mem _ hb)) hnot]
    | true =>
      rw [Attempt.member, if_pos hdec] at hnot
      obtain ⟨hne, hnot⟩ := not_or.1 (mt List.mem_cons.2 hnot)
      rw [if_neg (Ne.symm hne), ih (fun b hb => hfair b (List.mem_cons_of_mem _ hb)) hnot]

/-- No other attempt hands out anything of the member of an attempt. -/
theorem Attempts.releasedOf_eq (h : Attempts rows limits members ok attempts)
    (hm : members.Nodup) {a : Attempt} (ha : a ∈ attempts) (hdec : a.decrypting = true) :
    releasedOf a.index (attempts.flatMap Attempt.events) = a.total := by
  obtain ⟨before, after, rfl⟩ := List.append_of_mem ha
  have hnodup := h.once.nodup hm
  have hmember : a.member = some a.index := if_pos hdec
  rw [List.filterMap_append, List.filterMap_cons_some hmember, List.nodup_middle,
    List.nodup_cons, List.mem_append, not_or] at hnodup
  obtain ⟨⟨hbefore, hafter⟩, -⟩ := hnodup
  rw [List.flatMap_append, List.flatMap_cons, releasedOf_append, releasedOf_append,
    a.releasedOf_events, if_pos rfl,
    releasedOf_eq_zero (fun b hb => h.fair b (List.mem_append_left _ hb)) hbefore,
    releasedOf_eq_zero (fun b hb => h.fair b (List.mem_append_right _ (List.mem_cons_of_mem _ hb)))
      hafter, Nat.zero_add, Nat.add_zero]

theorem Attempt.decrypting_mem_events {a : Attempt} {row : EntryEncryption} {index : ℕ} :
    .decrypting row index ∈ a.events ↔ a.decrypting = true ∧ row = a.row ∧ index = a.index := by
  cases h : a.decrypting <;> simp [Attempt.events, h, releases]

theorem Attempt.released_mem_events {a : Attempt} {row : EntryEncryption} {index n : ℕ}
    (h : .released row index n ∈ a.events) : a.given ≠ [] ∧ row = a.row ∧ index = a.index := by
  rw [events_eq, List.mem_append] at h
  rcases h with h | h
  · obtain h | h | ⟨key, h⟩ := a.mem_finding h <;> cases h
  · obtain ⟨n', hn, h⟩ := List.mem_map.1 h
    cases h
    exact ⟨List.ne_nil_of_mem hn, rfl, rfl⟩

/-- What is logged of a member is logged by an attempt. -/
theorem mem_attempting (hs : List.Forall₂ (Screened archive sizes) rows screens) {event : Event}
    (he : event ∈ screens ++ attempts.flatMap Attempt.events)
    (hnot : ∀ row index len head, event ≠ .screened row index len head) :
    ∃ a ∈ attempts, event ∈ a.events := by
  rcases List.mem_append.1 he with he | he
  · obtain ⟨row, -, index, len, head, rfl, -⟩ := mem_screens hs he
    exact absurd rfl (hnot row index len head)
  · exact List.mem_flatMap.1 he

theorem releasedOf_attempting (hs : List.Forall₂ (Screened archive sizes) rows screens)
    (index : ℕ) : releasedOf index (screens ++ attempts.flatMap Attempt.events) =
      releasedOf index (attempts.flatMap Attempt.events) := by
  have hle := released_le (List.filter_sublist (p := Event.isReleaseOf index) (l := screens))
  rw [releasedOf_append, Nat.add_eq_right]
  exact Nat.le_zero.1 (hle.trans_eq (released_screens hs))

theorem declared_nonneg {size : ℤ} {n : ℕ} (h : sizes.declared size = .ok n) : 0 ≤ size := by
  cases sizes <;> simp only [Sizes.declared, declaredSize, inflatedLen] at h <;> split at h
  · cases h
  · next hn => exact Int.not_lt.1 hn
  · cases h
  · next hn => exact Int.not_lt.1 (not_or.1 hn).1

/-- Where a member is decrypted, its row passed, and all that is handed out of it
    is handed out by one attempt. -/
theorem RunLog.decrypted (h : RunLog archive sizes rows limits ok log) {row : EntryEncryption}
    {index : ℕ} (hd : .decrypting row index ∈ log) :
    0 ≤ row.size ∧ ∃ a : Attempt, a.row = row ∧ a.Fair limits ∧ releasedOf index log = a.total ∧
      (ok = true → a.total = row.size.toNat) := by
  cases h with
  | screening _ hs =>
    obtain ⟨_, -, _, _, _, h, -⟩ := mem_screens hs hd
    cases h
  | @attempting _ screens attempts hs ha =>
    obtain ⟨a, hmem, hd⟩ := mem_attempting hs hd fun _ _ _ _ h => by cases h
    obtain ⟨hdec, rfl, rfl⟩ := Attempt.decrypting_mem_events.1 hd
    obtain ⟨_, -, _, _, _, -, hpass⟩ := screened_of_mem hs (ha.rows a hmem)
    obtain ⟨n, hn⟩ := hpass.size
    refine ⟨declared_nonneg hn, a, rfl, ha.fair a hmem, ?_, fun hok => ?_⟩
    · rw [releasedOf_attempting hs, ha.releasedOf_eq List.nodup_range hmem hdec]
    · obtain ⟨done, rest, rfl, hdone, -, hrest⟩ := ha.ended
      rw [hrest hok, List.append_nil] at hmem
      exact (hdone a hmem).whole hdec

theorem RunLog.bounded (h : RunLog archive sizes rows limits ok log) : Bounded limits ok log where
  total {sofar} hp := by
    refine (released_le hp.sublist).trans ?_
    cases h with
    | screening _ hs => exact (released_screens hs).trans_le (Nat.zero_le _)
    | attempting hs ha =>
      rw [released_append, released_screens hs, Nat.zero_add, released_flatMap]
      exact ha.total
  begun {row index n} hr := by
    cases h with
    | screening _ hs =>
      obtain ⟨_, -, _, _, _, h, -⟩ := mem_screens hs hr
      cases h
    | attempting hs ha =>
      obtain ⟨a, hmem, hr⟩ := mem_attempting hs hr fun _ _ _ _ h => by cases h
      obtain ⟨hne, rfl, rfl⟩ := Attempt.released_mem_events hr
      have hdec : a.decrypting = true := by
        by_contra hdec
        exact hne ((ha.fair a hmem).checked (Bool.eq_false_iff.2 hdec))
      exact List.mem_append_right _ (List.mem_flatMap.2
        ⟨a, hmem, Attempt.decrypting_mem_events.2 ⟨hdec, rfl, rfl⟩⟩)
  member {row index sofar} hd hp := by
    obtain ⟨hsize, a, rfl, hfair, htotal, -⟩ := h.decrypted hd
    have hpart : releasedOf index sofar ≤ releasedOf index log := releasedOf_le hp.sublist
    have hle := hpart.trans (htotal.trans_le hfair.size)
    exact Int.ofNat_le.2 hle |>.trans_eq (Int.toNat_of_nonneg hsize)
  whole hok row index hd := by
    obtain ⟨hsize, a, -, -, htotal, hwhole⟩ := h.decrypted hd
    rw [htotal, hwhole hok, Int.toNat_of_nonneg hsize]

end

theorem EntryLog.bounded {ρ : Type} [Read ρ IoError] {P : Prims} {source : Source ρ}
    {limits : DecryptLimits} {sizes : Sizes} {ok : Bool} {log : List Event}
    (h : EntryLog P source limits sizes ok log) : Bounded limits ok log := by
  cases h with
  | refused =>
    exact {
      total := fun hp => (released_le hp.sublist).trans (Nat.zero_le _)
      begun := fun h => by cases h
      member := fun h => by cases h
      whole := fun h => by cases h }
  | opened _ _ _ run => exact run.bounded

/-- What is handed out in `decrypt`, `decrypt_to` and `reencrypt_to`. -/
theorem release_bound {ρ ω ζ ξ : Type} [Read ρ IoError] [Write ω IoError] [Flush ω IoError]
    [CrateOver ζ ω] [Flush ζ IoError] [CrateOver ξ SliceWriter] (P : Prims) (source : Source ρ)
    (writer : ω) (random : Random) (password new : Str) (limits : DecryptLimits)
    (params : Argon2Params) :
    Bounded limits (decryptSlice P ξ source password limits).1.isOk
        (decryptSlice P ξ source password limits).2.log ∧
      Bounded limits (decryptWithLimitsTo P source writer password limits).1.isOk
        (decryptWithLimitsTo P source writer password limits).2.log ∧
      Bounded limits (reencryptTo P ζ source writer random password new limits params).1.isOk
        (reencryptTo P ζ source writer random password new limits params).2.log :=
  ⟨(decryptSlice_log P source limits ξ password).bounded,
    (decryptWithLimitsTo_log P source limits writer password).bounded,
    (reencryptTo_log P source limits ζ writer random password new params).bounded⟩

/-- Every entry point hands out the three bytes of the sealed document, and no more. -/
theorem release_bound_sample :
    (∃ bytes s', decryptSlice sealedPrims SliceCrate sealedSource (ascii "pw") {} = (.ok bytes, s') ∧
      s'.log = sealedLog ∧ Bounded {} true s'.log) ∧
    (∃ s', decryptWithLimitsTo sealedPrims sealedSource (⟨[]⟩ : MemberStore) (ascii "pw") {} =
        (.ok ⟨.verified⟩, s') ∧
      s'.log = sealedLog ∧ Bounded {} true s'.log) ∧
    (∃ s', reencryptTo sealedPrims MemberStore sealedSource (⟨[]⟩ : MemberStore) zeroRandom
        (ascii "pw") (ascii "new") {} .libreofficeDefault = (.ok ⟨.verified⟩, s') ∧
      s'.log = sealedLog ∧ Bounded {} true s'.log) ∧
    released sealedLog = 3 := by
  obtain ⟨bytes, s₁, hslice, hlog₁⟩ := decryptSlice_sealed
  obtain ⟨s₂, hdecrypt, hlog₂⟩ := decryptWithLimitsTo_sealed
  obtain ⟨s₃, hreencrypt, hlog₃⟩ := reencryptTo_sealed
  obtain ⟨h₁, h₂, h₃⟩ := release_bound (ξ := SliceCrate) (ζ := MemberStore) sealedPrims sealedSource
    (⟨[]⟩ : MemberStore) zeroRandom (ascii "pw") (ascii "new") {} .libreofficeDefault
  rw [hslice] at h₁
  rw [hdecrypt] at h₂
  rw [hreencrypt] at h₃
  exact ⟨⟨bytes, s₁, hslice, hlog₁, h₁⟩, ⟨s₂, hdecrypt, hlog₂, h₂⟩, ⟨s₃, hreencrypt, hlog₃, h₃⟩, rfl⟩

end OdfCrypto

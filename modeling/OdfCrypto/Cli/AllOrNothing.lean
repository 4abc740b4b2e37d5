import OdfCrypto.Cli.Steps

/-!
# One run of the command line

The README has it that the output is renamed over the target only once the run
succeeds, and that on any failure, and after Ctrl-C, the temporary file is
deleted: `AllOrNothing`. A run with one Ctrl-C is so if and only if all of its
steps are `Timely` (`allOrNothing_iff`): the flag is not set where the finished
file is renamed, and Ctrl-C does not come after that, before `finish`. A run that
is not timely in this replaces its target and ends with the code of a cancelled
run (`lateCtrlC`).
-/

namespace OdfCrypto

open ByteStream

/-- The target leads to another file, which is a complete output. -/
def Replaced (c : Command) (d₀ d : Disk Name) : Prop :=
  ∃ i, d.names .target = some i ∧ d₀.names .target ≠ some i ∧ c.Completes (d.bytes i)

/-- How a run from the disk `d₀`, which opened a temporary file or not, is to leave
    the disk `d` where it ends with an exit code, or was killed by the signal. -/
structure AllOrNothing (c : Command) (d₀ d : Disk Name) (temp : Option ℕ) (code : Option ℕ) :
    Prop where
  /-- The temporary file is gone, if the run made one. -/
  gone : temp.isSome → d.names .temp = none
  untouched : temp = none → d = d₀
  /-- The exit code is 0 exactly when the target was replaced. -/
  zero_iff : code = some exOk ↔ Replaced c d₀ d
  kept : code ≠ some exOk → Before d₀ d

/-- The process has renamed its file, and has not yet called `finish`. -/
def Pc.renamed : Pc → Bool
  | .forgetting | .finishing (.ok _) => true
  | _ => false

def Pc.isRemoving : Pc → Bool
  | .removing _ => true
  | _ => false

/-- A step that does not come too late: neither is the finished file renamed when
    Ctrl-C was pressed, nor is Ctrl-C pressed between that and `finish`. And
    deleting the temporary file, where no failure is reported, does not fail. -/
def Timely (s : Proc × Disk Name) : Act → Prop
  | .ctrlC => s.1.pc.renamed = false
  | .step (.ok _) _ => s.1.pc.isReplacing → s.1.cancelled = false
  | .step (.error _) _ => s.1.pc.isRemoving = false

instance (s : Proc × Disk Name) : ∀ a, Decidable (Timely s a)
  | .ctrlC => inferInstanceAs (Decidable (_ = _))
  | .step (.ok _) _ => inferInstanceAs (Decidable (_ → _))
  | .step (.error _) _ => inferInstanceAs (Decidable (_ = _))

/-- The process of a command. -/
def Command.start (c : Command) : Proc := { command := c }

def Act.isCtrlC : Act → Bool
  | .ctrlC => true
  | .step .. => false

/-- At most one Ctrl-C. -/
def Single (acts : List Act) : Prop := (acts.filter Act.isCtrlC).length ≤ 1

/-- The action is not a second Ctrl-C. -/
def Once (s : Proc × Disk Name) (a : Act) : Prop := a = .ctrlC → s.1.cancelled = false

variable {c : Command} {p p' : Proc} {d₀ d d' : Disk Name} {r : Except IoError Unit}
  {taken i : ℕ} {code : Option ℕ} {a : Act} {acts : List Act}

/-- A target that is what it was is not replaced. -/
theorem Before.not_replaced (h : Before d₀ d) : ¬ Replaced c d₀ d := by
  rintro ⟨i, hi, hne, -⟩
  exact hne (h.names ▸ hi)

/-! ### A run so far -/

/-- The run opened the temporary file `temp` and has it under its name, and the
    target is what it was. -/
structure Holding (d₀ d : Disk Name) (temp : Option ℕ) (i : ℕ) : Prop where
  before : Before d₀ d
  temp : temp = some i
  named : d.names .temp = some i

/-- The run has deleted its temporary file, and the target is what it was. -/
structure Closed (d₀ d : Disk Name) (temp : Option ℕ) : Prop where
  before : Before d₀ d
  temp : temp.isSome
  gone : d.names .temp = none

/-- The run has renamed its temporary file over the target. -/
structure Committed (c : Command) (d₀ d : Disk Name) (temp : Option ℕ) : Prop where
  replaced : Replaced c d₀ d
  temp : temp.isSome
  gone : d.names .temp = none

/-- Where a run from the disk `d₀` is at each of its points. -/
def Proc.Place (c : Command) (d₀ : Disk Name) (p : Proc) (d : Disk Name) : Prop :=
  match p.pc with
  | .preparing | .checking _ | .installing _ => p.handling = false ∧ p.temp = none ∧ d = d₀
  | .opening _ => p.handling ∧ p.temp = none ∧ d = d₀
  | .registering _ i | .inspecting _ i | .permitting _ _ i | .working _ i _ | .flushing _ i _
  | .unwinding _ _ i _ | .syncing i | .replacing i => p.handling ∧ Holding d₀ d p.temp i
  | .deciding _ | .removing _ => p.handling ∧ ∃ i, Holding d₀ d p.temp i
  | .clearing _ | .finishing (.error _) => p.handling ∧ Closed d₀ d p.temp
  | .forgetting | .finishing (.ok _) =>
    p.handling ∧ p.cancelled = false ∧ Committed c d₀ d p.temp
  | .ended code => AllOrNothing c d₀ d p.temp code

/-- What holds as long as every step is timely. -/
structure OnTime (c : Command) (d₀ : Disk Name) (s : Proc × Disk Name) : Prop where
  command : s.1.command = c
  ready : s.1.Ready s.2.bytes
  place : s.1.Place c d₀ s.2

variable {temp : Option ℕ}

/-- A run that made no file, and did not succeed. -/
theorem AllOrNothing.of_untouched (ht : temp = none) (hc : code ≠ some exOk) :
    AllOrNothing c d d temp code where
  gone h := by simp [ht] at h
  untouched _ := rfl
  zero_iff := iff_of_false hc (Before.refl d).not_replaced
  kept _ := .refl d

/-- A run that deleted its file, and did not succeed. -/
theorem Closed.allOrNothing (h : Closed d₀ d temp) (hc : code ≠ some exOk) :
    AllOrNothing c d₀ d temp code where
  gone _ := h.gone
  untouched ht := by simpa [ht] using h.temp
  zero_iff := iff_of_false hc h.before.not_replaced
  kept _ := h.before

/-- A run that renamed its file, and succeeded. -/
theorem Committed.allOrNothing (h : Committed c d₀ d temp) :
    AllOrNothing c d₀ d temp (some exOk) where
  gone _ := h.gone
  untouched ht := by simpa [ht] using h.temp
  zero_iff := iff_of_true rfl h.replaced
  kept hc := absurd rfl hc

/-- Writing to the temporary file, and setting its permissions, leaves the run
    with its file. -/
theorem Holding.modify {f : File → File} (h : Holding d₀ d temp i) :
    Holding d₀ (d.modify i f) temp i where
  before := h.before.trans (before_modify h.named)
  temp := h.temp
  named := h.named

theorem Holding.write {bs : Bytes} (h : Holding d₀ d temp i) (pos : ℕ) :
    Holding d₀ (d.write i pos bs) temp i :=
  h.modify

theorem Holding.chmod {mode : ℕ} (h : Holding d₀ d temp i) (hd : d.chmod .temp mode = some d') :
    Holding d₀ d' temp i := by
  obtain ⟨j, hj, rfl⟩ := Disk.chmod_eq_some hd
  obtain rfl := Option.some.inj (hj.symm.trans h.named)
  exact h.modify

/-- Deleting the file. -/
theorem Holding.remove (h : Holding d₀ d temp i) : Closed d₀ (d.remove .temp) temp where
  before := h.before.trans before_remove
  temp := by rw [h.temp]; rfl
  gone := Disk.names_remove_self

/-- Renaming it, complete, over the target. -/
theorem Holding.rename (h : Holding d₀ d temp i) (hc : c.Completes (d.bytes i))
    (hd : d.rename .temp .target = some d') : Committed c d₀ d' temp := by
  obtain ⟨j, hj, htarget, hgone, -, hfiles, -⟩ := Disk.rename_eq_some hd
  obtain rfl := Option.some.inj (hj.symm.trans h.named)
  refine ⟨⟨j, htarget, fun h' => ?_, ?_⟩, ?_, hgone (by decide)⟩
  · -- The target led elsewhere: no two names lead to one file.
    exact absurd (d.names_inj _ _ _ (h.before.names.trans h') hj) (by decide)
  · rwa [Disk.bytes, hfiles]
  · rw [h.temp]; rfl

/-- A step of the library leaves the run with its file. -/
theorem Holding.work {pos : ℕ} {job : Job} (h : Holding d₀ d p.temp i) (hh : p.handling) :
    (p.work d r taken i pos job).1.Place c d₀ (p.work d r taken i pos job).2 := by
  rcases job with k | ⟨bs, k⟩ | ⟨pos', k⟩ | ⟨_ | _, rest⟩
  case write => rcases r with _ | _ <;> exact ⟨hh, h.write pos⟩
  case seek => rcases r with _ | _ <;> exact ⟨hh, h⟩
  all_goals exact ⟨hh, h⟩

/-- A refused command has not the exit code of a success. -/
theorem some_ne {code code' : ℕ} (h : code ≠ code') : some code ≠ some code' := fun h' =>
  h (Option.some.inj h')

/-- A timely step of the process takes it to its next place. -/
theorem place_advance (hr : p.Ready d.bytes) (h : p.Place p.command d₀ d)
    (ht : Timely (p, d) (.step r taken)) (hs : p.advance d r taken = some (p', d')) :
    p'.Place p.command d₀ d' := by
  unfold Proc.advance at hs
  unfold Proc.Place at h
  unfold Proc.Ready at hr
  -- One case for each place in the program; only opening, permitting, writing,
  -- renaming and removing touch the disk.
  cases hpc : p.pc <;> simp only [hpc, reduceCtorEq] at hs h hr
  case preparing =>
    obtain ⟨hh, hn, rfl⟩ := h
    split at hs <;> cases hs
    · exact ⟨hh, hn, rfl⟩
    · exact .of_untouched hn (some_ne (Refusal.exit_ne _))
  case checking =>
    obtain ⟨hh, hn, rfl⟩ := h
    split at hs <;> cases hs
    · exact .of_untouched hn (some_ne (Nat.succ_ne_zero _))
    · exact ⟨hh, hn, rfl⟩
  case installing => cases hs; exact ⟨rfl, h.2⟩
  case opening =>
    obtain ⟨hh, hn, rfl⟩ := h
    split at hs <;> cases hs
    · exact ⟨hh, before_create, rfl, (d.creates_create .temp).named⟩
    · exact .of_untouched hn (some_ne (Nat.succ_ne_zero _))
  case registering => cases hs; exact h
  case inspecting => split at hs <;> cases hs <;> exact h
  case permitting mode job i =>
    split at hs <;> cases hs
    · next hd => exact ⟨h.1, h.2.chmod hd⟩
    · exact ⟨h.1, i, h.2⟩
  case working job i pos =>
    obtain ⟨rfl, rfl⟩ := Prod.mk.inj (Option.some.inj hs)
    exact h.2.work h.1
  case flushing rest i pos => split at hs <;> cases hs <;> exact ⟨h.1, h.2.write pos⟩
  case unwinding rest code i pos => split at hs <;> cases hs <;> exact ⟨h.1, i, h.2.write pos⟩
  case deciding => cases hs; exact h
  case syncing i =>
    split at hs <;> cases hs
    · exact h
    · exact ⟨h.1, i, h.2⟩
  case replacing i =>
    split at hs <;> cases hs
    · next hd => exact ⟨h.1, ht (by simp [hpc, Pc.isReplacing]), h.2.rename hr hd⟩
    · exact ⟨h.1, i, h.2⟩
  case forgetting => cases hs; exact h
  case removing next =>
    split at hs <;> cases hs
    · exact ⟨h.1, h.2.choose_spec.remove⟩
    · simp [Timely, hpc, Pc.isRemoving] at ht
  case clearing next =>
    rcases next with code | code <;> cases hs
    · exact h.2.allOrNothing (some_ne hr)
    · exact h
  case finishing r' =>
    cases hs
    rcases r' with code | _
    · exact h.2.allOrNothing (some_ne (Proc.finish_error_ne hr))
    · have hf : p.finish (.ok ()) = exOk := if_neg (by simp [h.2.1])
      exact hf ▸ h.2.2.allOrNothing

/-- So does a Ctrl-C in time that is not the second. -/
theorem place_interrupt {c : Command} (h : p.Place c d₀ d) (ht : Timely (p, d) .ctrlC)
    (ho : p.cancelled = false) (hs : p.interrupt d = some (p', d')) : p'.Place c d₀ d' := by
  obtain ⟨hend, ⟨hh, rfl, rfl⟩ | ⟨-, -, rfl, rfl⟩ | ⟨hc, -⟩⟩ := Proc.interrupt_cases hs
  · -- There is no handler yet, so nothing was done.
    unfold Proc.Place at h
    split at h
    case h_1 | h_2 | h_3 =>
      obtain ⟨-, hn, rfl⟩ := h
      exact .of_untouched hn (by simp)
    case h_19 => exact absurd ‹_› (hend _)
    all_goals exact absurd h.1 (by simp [hh])
  · -- Only past the rename does the flag matter.
    unfold Proc.Place at h ⊢
    cases hpc : p.pc <;> simp only [hpc] at h ⊢
    case forgetting => simp [Timely, hpc, Pc.renamed] at ht
    case finishing r' =>
      rcases r' with _ | _
      · exact h
      · simp [Timely, hpc, Pc.renamed] at ht
    all_goals exact h
  · simp [ho] at hc

theorem onTime_act {s s' : Proc × Disk Name} (h : OnTime c d₀ s) (ho : Once s a)
    (ht : Timely s a) (hs : Proc.act s a = some s') : OnTime c d₀ s' := by
  obtain ⟨p, d⟩ := s
  obtain ⟨p', d'⟩ := s'
  obtain ⟨rfl, hr, hp⟩ := h
  have hc := Proc.command_act hs
  refine ⟨hc, Proc.ready_act hr hs, ?_⟩
  rcases a with ⟨r, taken⟩ | _
  · exact place_advance hr hp ht hs
  · exact place_interrupt hp ht (ho rfl) hs

/-! ### A run that was not in time -/

/-- The process has failed to delete its temporary file, and goes on to its end. -/
def Pc.leaves : Pc → Bool
  | .clearing _ | .finishing (.error _) | .ended _ => true
  | _ => false

/-- What a step too late leads to: a temporary file that stays, or a target that
    is replaced by a run that ends as a cancelled one. -/
inductive Late (c : Command) (d₀ : Disk Name) (s : Proc × Disk Name) : Prop
  | stays (temp : s.1.temp.isSome) (named : (s.2.names .temp).isSome) (pc : s.1.pc.leaves)
  | replaced (h : Replaced c d₀ s.2) (cancelled : s.1.cancelled)
      (pc : s.1.pc = .forgetting ∨ s.1.pc = .finishing (.ok ()) ∨
        s.1.pc = .ended (some exCancelled))

/-- The deletion fails. -/
theorem late_removing {e : IoError} {next : After} (hpc : p.pc = .removing next)
    (h : p.Place c d₀ d) (hs : p.advance d (.error e) taken = some (p', d')) :
    Late c d₀ (p', d') := by
  simp only [Proc.Place, hpc] at h
  simp only [Proc.advance, hpc] at hs
  obtain ⟨-, i, hi⟩ := h
  cases hs
  exact .stays (by simp [Proc.goto, hi.temp]) (by simp [hi.named]) rfl

/-- The file is renamed though the flag is set. -/
theorem late_replacing (hpc : p.pc = .replacing i) (hc : p.cancelled)
    (hr : p.Ready d.bytes) (h : p.Place p.command d₀ d)
    (hs : p.advance d (.ok ()) taken = some (p', d')) : Late p.command d₀ (p', d') := by
  simp only [Proc.Place, hpc] at h
  simp only [Proc.Ready, hpc] at hr
  simp only [Proc.advance, hpc] at hs
  split at hs <;> cases hs
  · next hd => exact .replaced (h.2.rename hr hd).replaced hc (.inl rfl)
  · next h' =>
    -- The file is there to be renamed.
    obtain ⟨d', hd⟩ := Option.isSome_iff_exists.1
      (Disk.rename_isSome.trans (congrArg Option.isSome h.2.named))
    exact absurd hd (h' _ _ rfl)

/-- Ctrl-C comes after the rename. -/
theorem late_interrupt (hpc : p.pc = .forgetting ∨ p.pc = .finishing (.ok ()))
    (h : p.Place c d₀ d) (hs : p.interrupt d = some (p', d')) : Late c d₀ (p', d') := by
  have hp : p.handling ∧ p.cancelled = false ∧ Committed c d₀ d p.temp := by
    rcases hpc with hpc | hpc <;> simpa only [Proc.Place, hpc] using h
  obtain ⟨-, ⟨hh, -⟩ | ⟨-, -, rfl, rfl⟩ | ⟨hc, -⟩⟩ := Proc.interrupt_cases hs
  · simp [hp.1] at hh
  · refine .replaced hp.2.2.replaced rfl ?_
    rcases hpc with hpc | hpc
    · exact .inl hpc
    · exact .inr (.inl hpc)
  · simp [hp.2.1] at hc

/-- A step too late. -/
theorem late_act {s s' : Proc × Disk Name} (h : OnTime c d₀ s) (_ : Once s a)
    (ht : ¬ Timely s a) (hs : Proc.act s a = some s') : Late c d₀ s' := by
  obtain ⟨p, d⟩ := s
  obtain ⟨p', d'⟩ := s'
  obtain ⟨rfl, hr, hp⟩ := h
  rcases a with ⟨_ | _, taken⟩ | _
  · have hpc : p.pc.isRemoving := by simpa [Timely] using ht
    unfold Pc.isRemoving at hpc
    split at hpc
    · exact late_removing ‹_› hp hs
    · cases hpc
  · obtain ⟨hpc, hc⟩ : p.pc.isReplacing ∧ p.cancelled := by simpa [Timely] using ht
    unfold Pc.isReplacing at hpc
    split at hpc
    · exact late_replacing ‹_› hc hr hp hs
    · cases hpc
  · have hpc : p.pc.renamed := by simpa [Timely] using ht
    unfold Pc.renamed at hpc
    split at hpc
    · exact late_interrupt (.inl ‹_›) hp hs
    · exact late_interrupt (.inr ‹_›) hp hs
    · cases hpc

/-- A process that goes on to its end leaves the disk and the file it opened. -/
theorem leaves_advance (hpc : p.pc.leaves) (hs : p.advance d r taken = some (p', d')) :
    d' = d ∧ p'.temp = p.temp ∧ p'.pc.leaves := by
  unfold Proc.advance at hs
  unfold Pc.leaves at hpc
  split at hpc
  · next next h =>
    rcases next with _ | _ <;> simp only [h] at hs <;> cases hs <;> exact ⟨rfl, rfl, rfl⟩
  · next h => simp only [h] at hs; cases hs; exact ⟨rfl, rfl, rfl⟩
  · next h => simp [h] at hs
  · cases hpc

/-- What is late stays so. -/
theorem late_stays {s s' : Proc × Disk Name} (h : Late c d₀ s) (ho : Once s a)
    (hs : Proc.act s a = some s') : Late c d₀ s' := by
  obtain ⟨p, d⟩ := s
  obtain ⟨p', d'⟩ := s'
  rcases a with ⟨r, taken⟩ | _
  · rcases h with ⟨ht, hn, hpc⟩ | ⟨hr, hc, hpc⟩
    · obtain ⟨rfl, htemp, hpc'⟩ := leaves_advance hpc hs
      exact .stays (htemp ▸ ht) hn hpc'
    · dsimp only at hpc
      rcases hpc with hpc | hpc | hpc <;> simp only [Proc.act, Proc.advance, hpc] at hs <;> cases hs
      · exact .replaced hr hc (.inr (.inl rfl))
      · have hf : p.finish (.ok ()) = exCancelled := if_pos hc
        exact .replaced hr hc (.inr (.inr (congrArg (Pc.ended <| some ·) hf)))
  · have hc : p.cancelled = false := ho rfl
    rcases h with ⟨ht, hn, hpc⟩ | ⟨-, hc', -⟩
    · obtain ⟨hend, ⟨-, rfl, rfl⟩ | ⟨-, -, rfl, rfl⟩ | ⟨hc', -⟩⟩ := Proc.interrupt_cases hs
      · exact .stays ht hn rfl
      · exact .stays ht hn hpc
      · simp [hc] at hc'
    · simp [hc] at hc'

/-- A run that was late does not leave all or nothing. -/
theorem Late.not_allOrNothing (h : Late c d₀ (p, d)) (hc : p.pc = .ended code) :
    ¬ AllOrNothing c d₀ d p.temp code := by
  intro ha
  rcases h with ⟨ht, hn, -⟩ | ⟨hr, -, hpc⟩
  · have hg := ha.gone ht
    simp [hg] at hn
  · rw [hc] at hpc
    obtain rfl : code = some exCancelled := by simpa using hpc
    exact absurd (ha.zero_iff.2 hr) (by simp [exOk, exCancelled])

/-! ### A whole run -/

/-- With one Ctrl-C, there is no second one. -/
theorem along_once {s : Proc × Disk Name}
    (h : (acts.filter Act.isCtrlC).length + s.1.cancelled.toNat ≤ 1) :
    Trace.Along Proc.act Once s acts := by
  induction acts generalizing s with
  | nil => trivial
  | cons a acts ih =>
    obtain ⟨p, d⟩ := s
    rcases a with ⟨r, taken⟩ | _
    · refine ⟨fun h' => Act.noConfusion h', fun s' hs => ih ?_⟩
      rw [(Proc.advance_keeps hs).2]
      exact h
    · have hl : (acts.filter Act.isCtrlC).length + 1 + p.cancelled.toNat ≤ 1 := h
      have hc : p.cancelled = false := by
        cases hp : p.cancelled
        · rfl
        · simp [hp] at hl
      refine ⟨fun _ => hc, fun s' hs => ih ?_⟩
      have hb := Bool.toNat_le s'.1.cancelled
      omega

theorem onTime_start (c : Command) (d : Disk Name) : OnTime c d (c.start, d) :=
  ⟨rfl, trivial, rfl, rfl, rfl⟩

/-- A run with at most one Ctrl-C leaves all or nothing if and only if all its
    steps are timely. -/
theorem allOrNothing_iff (hsingle : Single acts)
    (hrun : Trace.run Proc.act (c.start, d₀) acts = some (p, d)) (hend : p.pc = .ended code) :
    AllOrNothing c d₀ d p.temp code ↔ Trace.Along Proc.act Timely (c.start, d₀) acts := by
  rcases Trace.split onTime_act late_act late_stays (onTime_start c d₀) (along_once hsingle) hrun
    with ⟨ht, h⟩ | ⟨ht, h⟩
  · have hp := h.place
    unfold Proc.Place at hp
    simp only [hend] at hp
    exact iff_of_true hp ht
  · exact iff_of_false (h.not_allOrNothing hend) ht

/-! ### A run that is not in time -/

/-- A command that is to overwrite its target. -/
def overwriting : Command where
  force := true
  prepare := .ok (handOn [1, 2])

/-- Ctrl-C before the file is synchronized. -/
def lateActs : List Act := List.replicate 10 fine ++ .ctrlC :: List.replicate 4 fine

/-- After it, the target is replaced, but the exit code is the one of a cancelled run. -/
theorem lateCtrlC : Single lateActs ∧ ∃ p d,
    Trace.run Proc.act (overwriting.start, oneTarget) lateActs = some (p, d) ∧
    p.pc = .ended (some exCancelled) ∧ (d.file .target).map File.bytes = some [1, 2] ∧
    ¬ AllOrNothing overwriting oneTarget d p.temp (some exCancelled) := by
  refine ⟨le_refl 1, _, _, rfl, rfl, rfl, fun h => ?_⟩
  have hn := (h.kept (by decide)).names
  exact absurd (Option.some.inj hn) (by decide)

/-- Ctrl-C before the library reads. -/
def earlyCtrlC : List Act := List.replicate 7 fine ++ .ctrlC :: List.replicate 6 fine

/-- After it, the temporary file is gone, and the target is as it was. -/
theorem allOrNothing_sample : ∃ p d,
    Trace.run Proc.act (overwriting.start, oneTarget) earlyCtrlC = some (p, d) ∧
    p.pc = .ended (some exCancelled) ∧
    AllOrNothing overwriting oneTarget d p.temp (some exCancelled) := by
  have hsingle : Single earlyCtrlC := le_refl 1
  exact ⟨_, _, rfl, rfl, (allOrNothing_iff hsingle rfl rfl).2 (by decide)⟩

end OdfCrypto

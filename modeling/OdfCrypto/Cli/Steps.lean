import OdfCrypto.Cli

/-!
# What a step of the command line does

* `Proc.Ready p d`: what a process knows about its own temporary file and its own
  exit code, kept by its steps (`ready_advance`, `ready_interrupt`) and by every
  change of the disk elsewhere (`Ready.congr`);
* `Proc.Effect p d p' d'`: what a step can do to the disk, and how it moves the
  process (`effect_advance`, `effect_interrupt`).
-/

namespace OdfCrypto

open ByteStream

/-- The bytes are a complete output of the command. -/
def Command.Completes (c : Command) (bytes : Bytes) : Prop :=
  ∃ job, c.prepare = .ok job ∧ job.Makes [] 0 bytes

/-! ### The target -/

/-- The target is what it was. -/
structure Before (d₀ d : Disk Name) : Prop where
  names : d.names .target = d₀.names .target
  files : ∀ i, d₀.names .target = some i → d.files i = d₀.files i

section

variable {d₀ d d₁ : Disk Name} {i : ℕ}

theorem Before.refl (d : Disk Name) : Before d d := ⟨rfl, fun _ _ => rfl⟩

theorem Before.trans (h : Before d₀ d₁) (h' : Before d₁ d) : Before d₀ d where
  names := h'.names.trans h.names
  files i hi := (h'.files i (h.names.trans hi)).trans (h.files i hi)

/-- Changing the file that the other name leads to. -/
theorem before_modify {f : File → File} (h : d.names .temp = some i) : Before d (d.modify i f) where
  names := rfl
  files j hj := by
    refine Disk.files_modify_of_ne f ?_
    rintro rfl
    exact absurd (d.names_inj _ _ _ hj h) (by decide)

theorem before_remove : Before d (d.remove .temp) where
  names := Disk.names_remove_of_ne (by decide)
  files _ _ := rfl

theorem before_create : Before d (d.create .temp).2 where
  names := (d.creates_create .temp).names_of_ne _ (by decide)
  files i hi := by
    have hc := d.creates_create .temp
    refine hc.files_of_ne i (d.lt_next _ i hi) ?_
    rintro rfl
    rcases hc.fresh with h | h
    · exact absurd (d.names_inj _ _ _ hi h) (by decide)
    · exact absurd (d.lt_next _ _ hi) (by omega)

end

/-! ### The points of a process -/

namespace Pc

/-- The temporary file that a process is to write to or to rename. -/
def busy : Pc → Option ℕ
  | .registering _ i | .inspecting _ i | .permitting _ _ i | .working _ i _ => some i
  | .flushing _ i _ | .unwinding _ _ i _ | .syncing i | .replacing i => some i
  | _ => none

def isOpening : Pc → Bool
  | .opening _ => true
  | _ => false

def isReplacing : Pc → Bool
  | .replacing _ => true
  | _ => false

/-- The process found its target as it wants it, and may still rename over it. -/
def pending : Pc → Bool
  | .installing _ | .opening _ | .registering .. | .inspecting .. | .permitting .. => true
  | .working .. | .flushing .. | .syncing _ | .replacing _ => true
  | _ => false

/-- The process has renamed its temporary file, and is not to fail. -/
def placed : Pc → Bool
  | .forgetting | .finishing (.ok _) => true
  | .ended (some code) => code == exOk
  | _ => false

end Pc

/-- The process steps on, and the system answers that all is well. -/
def Act.isOk : Act → Bool
  | .step (.ok _) _ => true
  | _ => false

/-! ### What a process knows -/

namespace Proc

/-- What a process knows, of the bytes that files hold: its file holds what the
    library wrote so far, and no error of its own has the exit code of a success. -/
def Ready (p : Proc) (bytes : ℕ → Bytes) : Prop :=
  match p.pc with
  | .checking job | .installing job | .opening job => p.command.prepare = .ok job
  | .registering job i | .inspecting job i | .permitting _ job i =>
    p.command.prepare = .ok job ∧ bytes i = []
  | .working job i pos => ∀ out, job.Makes (bytes i) pos out → p.command.Completes out
  | .flushing rest i pos => p.command.Completes (Disk.overwrite (bytes i) pos rest)
  | .syncing i | .replacing i => p.command.Completes (bytes i)
  | .unwinding _ code _ _ | .deciding code | .finishing (.error code) => code ≠ exOk
  | .removing next | .clearing next => next.code ≠ exOk
  | _ => True

variable {p p' : Proc} {d d' : Disk Name} {r : Except IoError Unit} {taken i pos : ℕ}
  {bytes bytes' : ℕ → Bytes}

/-- What a process knows is about the file it is at work on. -/
theorem Ready.congr (h : p.Ready bytes) (hb : ∀ i, p.pc.busy = some i → bytes' i = bytes i) :
    p.Ready bytes' := by
  unfold Ready at h ⊢
  split at h <;> rename_i hpc <;> simp only [hpc] at hb ⊢
  case h_4 | h_5 | h_6 | h_7 | h_8 | h_9 | h_10 => rwa [hb _ rfl]
  all_goals exact h

/-- The exit code of an error is not the one of a success. -/
theorem finish_error_ne {code : ℕ} (h : code ≠ exOk) : p.finish (.error code) ≠ exOk := by
  unfold finish
  split
  · exact Nat.succ_ne_zero _
  · exact h

/-- A step of the library leaves what the process knows right. -/
theorem ready_work {job : Job} (h : ∀ out, job.Makes (d.bytes i) pos out → p.command.Completes out) :
    (p.work d r taken i pos job).1.Ready (p.work d r taken i pos job).2.bytes := by
  rcases job with k | ⟨bs, k⟩ | ⟨pos', k⟩ | ⟨_ | _, rest⟩
  case read => exact fun out hout => h out (.read _ hout)
  case write =>
    rcases r with e | _ <;> intro out hout <;> dsimp only [work] at hout <;>
      rw [Disk.bytes_write_self] at hout
    · exact h out (.writeFailed e taken hout)
    · exact h out (.write hout)
  case seek =>
    rcases r with e | _
    · exact fun out hout => h out (.seekFailed e hout)
    · exact fun out hout => h out (.seek hout)
  · exact CryptError.exit_ne _
  · exact h _ .done

/-- So does every step of the process. -/
theorem ready_advance (h : p.Ready d.bytes) (hs : p.advance d r taken = some (p', d')) :
    p'.Ready d'.bytes := by
  unfold advance at hs
  unfold Ready at h
  -- One case for each place in the program: a failing branch leaves an exit code other
  -- than success, a passing one what the next place needs.
  cases hpc : p.pc <;> simp only [hpc, reduceCtorEq] at hs h
  case preparing =>
    split at hs <;> cases hs
    · assumption
    · trivial
  case checking =>
    split at hs <;> cases hs
    · trivial
    · exact h
  case installing => cases hs; exact h
  case opening =>
    split at hs <;> cases hs
    · exact ⟨h, (Disk.creates_create d .temp).empty⟩
    · trivial
  case registering => cases hs; exact h
  case inspecting job i =>
    split at hs <;> cases hs
    · exact h
    · exact fun out hout => ⟨job, h.1, by rwa [← h.2]⟩
  case permitting mode job i =>
    split at hs <;> cases hs
    · next hd => exact fun out hout => ⟨job, h.1, by rwa [← h.2, ← Disk.bytes_chmod hd]⟩
    · exact Nat.succ_ne_zero _
  case working job i pos =>
    obtain ⟨rfl, rfl⟩ := Prod.mk.inj (Option.some.inj hs)
    exact ready_work h
  case flushing rest i pos =>
    split at hs <;> cases hs
    · show p.command.Completes _
      rwa [Disk.bytes_write_self]
    · exact Nat.succ_ne_zero _
  case unwinding => split at hs <;> cases hs <;> exact h
  case deciding => cases hs; exact finish_error_ne h
  case syncing =>
    split at hs <;> cases hs
    · exact h
    · exact Nat.succ_ne_zero _
  case replacing =>
    split at hs <;> cases hs
    · trivial
    · exact Nat.succ_ne_zero _
  case forgetting => cases hs; trivial
  case removing => split at hs <;> cases hs <;> exact h
  case clearing next => rcases next with code | code <;> cases hs <;> trivial
  case finishing => cases hs; trivial

/-- What Ctrl-C does to a process that has not ended: it kills it, sets its flag,
    or has it delete its temporary file and end. -/
theorem interrupt_cases (hs : p.interrupt d = some (p', d')) : (∀ code, p.pc ≠ .ended code) ∧
    (p.handling = false ∧ p' = p.goto (.ended none) ∧ d' = d ∨
      p.handling ∧ p.cancelled = false ∧ p' = { p with cancelled := true } ∧ d' = d ∨
      p.cancelled ∧ p' = p.goto (.ended (some exCancelled)) ∧
        (d' = d ∨ d' = d.remove .temp)) := by
  unfold interrupt at hs
  split at hs
  · cases hs
  rename_i hend
  refine ⟨hend, ?_⟩
  split at hs
  · next hh => cases hs; exact .inl ⟨by simpa using hh, rfl, rfl⟩
  · next hh =>
    split at hs
    · next hc => cases hs; exact .inr (.inl ⟨by simpa using hh, by simpa using hc, rfl, rfl⟩)
    · next hc =>
      cases hs
      refine .inr (.inr ⟨by simpa using hc, rfl, ?_⟩)
      split
      · exact .inr rfl
      · exact .inl rfl

/-- Ctrl-C leaves it right as well. -/
theorem ready_interrupt (h : p.Ready d.bytes) (hs : p.interrupt d = some (p', d')) :
    p'.Ready d'.bytes := by
  obtain ⟨-, ⟨-, rfl, rfl⟩ | ⟨-, -, rfl, rfl⟩ | ⟨-, rfl, -⟩⟩ := interrupt_cases hs
  · trivial
  · exact h
  · trivial

/-- And so does whatever happens. -/
theorem ready_act {a : Act} (h : p.Ready d.bytes) (hs : act (p, d) a = some (p', d')) :
    p'.Ready d'.bytes := by
  rcases a with ⟨r, taken⟩ | _
  · exact ready_advance h hs
  · exact ready_interrupt h hs

/-- A step of the library leaves everything but the point the process is at. -/
theorem work_fst (p : Proc) (d : Disk Name) (r : Except IoError Unit) (taken i pos : ℕ)
    (job : Job) :
    ∃ pc, (p.work d r taken i pos job).1 = p.goto pc := by
  rcases job with k | ⟨bs, k⟩ | ⟨pos', k⟩ | ⟨_ | _, rest⟩
  case write | seek => rcases r with _ | _ <;> exact ⟨_, rfl⟩
  all_goals exact ⟨_, rfl⟩

/-- No step changes the command, or takes the flag back or sets it. -/
theorem advance_keeps (hs : p.advance d r taken = some (p', d')) :
    p'.command = p.command ∧ p'.cancelled = p.cancelled := by
  unfold advance at hs
  cases hpc : p.pc <;> simp only [hpc, reduceCtorEq] at hs
  case working job i pos =>
    have hp' : (p.work d r taken i pos job).1 = p' := congrArg Prod.fst (Option.some.inj hs)
    obtain ⟨pc, h⟩ := work_fst p d r taken i pos job
    rw [← hp', h]
    exact ⟨rfl, rfl⟩
  case clearing next => rcases next with _ | _ <;> cases hs <;> exact ⟨rfl, rfl⟩
  all_goals (try split at hs) <;> cases hs <;> exact ⟨rfl, rfl⟩

/-- A process keeps its command. -/
theorem command_act {a : Act} (hs : act (p, d) a = some (p', d')) : p'.command = p.command := by
  rcases a with ⟨r, taken⟩ | _
  · exact (advance_keeps hs).1
  · obtain ⟨-, ⟨-, rfl, -⟩ | ⟨-, -, rfl, -⟩ | ⟨-, rfl, -⟩⟩ := interrupt_cases hs <;> rfl

/-! ### The disk -/

/-- What a step can do to the disk, with how it moves the process. -/
inductive Effect (p : Proc) (d : Disk Name) (a : Act) (p' : Proc) : Disk Name → Prop
  /-- The disk stays as it is. -/
  | quiet (temp : p'.temp = p.temp) (busy : p'.pc.busy = p.pc.busy ∨ p'.pc.busy = none)
      (placed : p'.pc.placed → p.pc.placed) : Effect p d a p' d
  | opened (ok : a.isOk) (pc : p.pc.isOpening) (temp : p'.temp = some (d.create .temp).1)
      (busy : p'.pc.busy = some (d.create .temp).1) (placed : p'.pc.placed = false) :
      Effect p d a p' (d.create .temp).2
  /-- The process writes to its own file. -/
  | wrote {i pos : ℕ} {bs : Bytes} (busy : p.pc.busy = some i) (temp : p'.temp = p.temp)
      (busy' : p'.pc.busy = some i ∨ p'.pc.busy = none) (placed : p'.pc.placed = false) :
      Effect p d a p' (d.write i pos bs)
  /-- The process sets permissions by name. -/
  | permitted {mode : ℕ} {d' : Disk Name} (hd : d.chmod .temp mode = some d')
      (busy : p.pc.busy.isSome) (temp : p'.temp = p.temp) (busy' : p'.pc.busy = p.pc.busy)
      (placed : p'.pc.placed = false) : Effect p d a p' d'
  | renamed {i : ℕ} {d' : Disk Name} (ok : a.isOk) (pc : p.pc = .replacing i)
      (hd : d.rename .temp .target = some d') (temp : p'.temp = p.temp)
      (pc' : p'.pc = .forgetting) : Effect p d a p' d'
  | removed (temp : p'.temp = p.temp) (busy : p'.pc.busy = none) (placed : p'.pc.placed = false) :
      Effect p d a p' (d.remove .temp)

/-- What a step of the library does. -/
theorem effect_work (a : Act) (hpc : p.pc.busy = some i) (job : Job) :
    p.Effect d a (p.work d r taken i pos job).1 (p.work d r taken i pos job).2 := by
  rcases job with k | ⟨bs, k⟩ | ⟨pos', k⟩ | ⟨_ | _, rest⟩
  case write => rcases r with _ | _ <;> exact .wrote hpc rfl (.inl rfl) rfl
  case seek => rcases r with _ | _ <;> exact .quiet rfl (.inl hpc.symm) (fun h => by cases h)
  all_goals exact .quiet rfl (.inl hpc.symm) (fun h => by cases h)

/-- What a step of the process does. -/
theorem effect_advance (h : p.Ready d.bytes) (hs : p.advance d r taken = some (p', d')) :
    p.Effect d (.step r taken) p' d' := by
  unfold advance at hs
  unfold Ready at h
  -- One case for each place in the program, as in `ready_advance`; what it does to the
  -- disk is one of the effects.
  cases hpc : p.pc <;> simp only [hpc, reduceCtorEq] at hs h
  case preparing =>
    split at hs <;> cases hs
    · exact .quiet rfl (.inr rfl) (fun h => by cases h)
    · exact .quiet rfl (.inr rfl) fun h' => absurd (eq_of_beq h') (Refusal.exit_ne _)
  case checking => split at hs <;> cases hs <;> exact .quiet rfl (.inr rfl) (fun h => by cases h)
  case installing | deciding => cases hs; exact .quiet rfl (.inr rfl) (fun h => by cases h)
  case opening =>
    split at hs <;> cases hs
    · exact .opened rfl (by simp [hpc, Pc.isOpening]) rfl rfl rfl
    · exact .quiet rfl (.inr rfl) (fun h => by cases h)
  case registering => cases hs; exact .quiet rfl (.inl (by rw [hpc]; rfl)) (fun h => by cases h)
  case inspecting =>
    split at hs <;> cases hs <;>
      exact .quiet rfl (.inl (by rw [hpc]; rfl)) (fun h => by cases h)
  case permitting =>
    split at hs <;> cases hs
    · exact .permitted ‹_› (by rw [hpc]; rfl) rfl (by rw [hpc]; rfl) rfl
    · exact .quiet rfl (.inr rfl) (fun h => by cases h)
  case working job i pos =>
    obtain ⟨rfl, rfl⟩ := Prod.mk.inj (Option.some.inj hs)
    exact effect_work _ (by rw [hpc]; rfl) job
  case flushing =>
    split at hs <;> cases hs <;> exact .wrote (by rw [hpc]; rfl) rfl (.inl rfl) rfl
  case unwinding =>
    split at hs <;> cases hs <;> exact .wrote (by rw [hpc]; rfl) rfl (.inr rfl) rfl
  case syncing =>
    split at hs <;> cases hs
    · exact .quiet rfl (.inl (by rw [hpc]; rfl)) (fun h => by cases h)
    · exact .quiet rfl (.inr rfl) (fun h => by cases h)
  case replacing =>
    split at hs <;> cases hs
    · exact .renamed rfl hpc ‹_› rfl rfl
    · exact .quiet rfl (.inr rfl) (fun h => by cases h)
  case forgetting => cases hs; exact .quiet rfl (.inr rfl) fun _ => by rw [hpc]; rfl
  case removing =>
    split at hs <;> cases hs
    · exact .removed rfl rfl rfl
    · exact .quiet rfl (.inr rfl) (fun h => by cases h)
  case clearing next =>
    rcases next with code | code <;> cases hs
    · exact .quiet rfl (.inr rfl) fun h' => absurd (eq_of_beq h') h
    · exact .quiet rfl (.inr rfl) (fun h => by cases h)
  case finishing r' =>
    cases hs
    refine .quiet rfl (.inr rfl) fun h' => ?_
    rw [hpc]
    rcases r' with code | _
    · exact absurd (eq_of_beq h') (finish_error_ne h)
    · rfl

/-- What happens next does one of these. -/
theorem effect_act {a : Act} (h : p.Ready d.bytes) (hs : act (p, d) a = some (p', d')) :
    p.Effect d a p' d' := by
  rcases a with ⟨r, taken⟩ | _
  · exact effect_advance h hs
  · obtain ⟨-, ⟨-, rfl, rfl⟩ | ⟨-, -, rfl, rfl⟩ | ⟨-, rfl, rfl | rfl⟩⟩ := interrupt_cases hs
    · exact .quiet rfl (.inr rfl) (fun h => by cases h)
    · exact .quiet rfl (.inl rfl) id
    · exact .quiet rfl (.inr rfl) (fun h => by cases h)
    · exact .removed rfl rfl rfl

/-- A process that comes to hold that it may rename found no target, unless it
    has `--force`. -/
theorem pending_act {a : Act} (hs : act (p, d) a = some (p', d')) (hf : p.command.force = false)
    (hp : p'.pc.pending) : p.pc.pending ∨ d.names .target = none := by
  rcases a with ⟨r, taken⟩ | _
  · simp only [act, advance] at hs
    cases hpc : p.pc <;> simp only [hpc, reduceCtorEq] at hs
    case checking =>
      split at hs <;> cases hs
      · cases hp
      · next h => exact .inr (by simpa [hf] using h)
    case preparing | opening | inspecting | permitting | flushing | unwinding | syncing | replacing |
        removing =>
      all_goals split at hs <;> cases hs <;> first | exact .inl rfl | cases hp
    case clearing next => rcases next with _ | _ <;> cases hs <;> cases hp
    case working => exact .inl rfl
    all_goals cases hs; first | exact .inl rfl | cases hp
  · obtain ⟨-, ⟨-, rfl, -⟩ | ⟨-, -, rfl, -⟩ | ⟨-, rfl, -⟩⟩ := interrupt_cases hs
    · cases hp
    · exact .inl hp
    · cases hp

section

variable {a : Act}

/-- A file that a process is not at work on, and that the temporary name does not
    lead to, stays as it is. -/
theorem Effect.files_eq (h : p.Effect d a p' d') (hb : p.pc.busy ≠ some i)
    (ht : d.names .temp ≠ some i) (hi : i < d.next) : d'.files i = d.files i := by
  rcases h with _ | _ | hb' | hd | ⟨-, -, hd⟩ | _
  · rfl
  · have hc := d.creates_create .temp
    refine hc.files_of_ne i hi ?_
    rintro rfl
    rcases hc.fresh with h | h
    · exact ht h
    · exact absurd hi (by omega)
  · refine Disk.files_modify_of_ne _ ?_
    rintro rfl
    exact hb hb'
  · obtain ⟨j, hj, rfl⟩ := Disk.chmod_eq_some hd
    refine Disk.files_modify_of_ne _ ?_
    rintro rfl
    exact ht hj
  · obtain ⟨-, -, -, -, -, hf, -⟩ := Disk.rename_eq_some hd
    rw [hf]
  · rfl

/-- A process that is at work on no file, and does not open one, changes none. -/
theorem Effect.files_eq_of_idle (h : p.Effect d a p' d') (hb : p.pc.busy = none)
    (ho : ¬ (a.isOk ∧ p.pc.isOpening)) : d'.files = d.files := by
  rcases h with _ | ⟨hok, hpc⟩ | hb' | ⟨-, hb'⟩ | ⟨-, -, hd⟩ | _
  · rfl
  · exact absurd ⟨hok, hpc⟩ ho
  · simp [hb] at hb'
  · simp [hb] at hb'
  · obtain ⟨-, -, -, -, -, hf, -⟩ := Disk.rename_eq_some hd
    exact hf
  · rfl

/-- No step but the rename gives the target another file. -/
theorem Effect.names_target (h : p.Effect d a p' d') : d'.names .target = d.names .target ∨
    ∃ i, a.isOk ∧ p.pc = .replacing i ∧ p'.pc = .forgetting ∧ p'.temp = p.temp ∧
      d.rename .temp .target = some d' := by
  rcases h with _ | _ | _ | hd | ⟨hok, hpc, hd, htemp, hpc'⟩ | _
  · exact .inl rfl
  · exact .inl ((d.creates_create .temp).names_of_ne _ (by decide))
  · exact .inl rfl
  · obtain ⟨j, -, rfl⟩ := Disk.chmod_eq_some hd
    exact .inl rfl
  · exact .inr ⟨_, hok, hpc, hpc', htemp, hd⟩
  · exact .inl (Disk.names_remove_of_ne (by decide))

/-- The temporary name leads to the file it led to, to nothing, or to the file that
    the process opened. -/
theorem Effect.names_temp (h : p.Effect d a p' d') :
    d'.names .temp = d.names .temp ∨ d'.names .temp = none ∨ a.isOk ∧ p.pc.isOpening := by
  rcases h with _ | ⟨hok, hpc⟩ | _ | hd | ⟨-, -, hd⟩ | _
  · exact .inl rfl
  · exact .inr (.inr ⟨hok, hpc⟩)
  · exact .inl rfl
  · obtain ⟨j, -, rfl⟩ := Disk.chmod_eq_some hd
    exact .inl rfl
  · obtain ⟨-, -, -, hn, -⟩ := Disk.rename_eq_some hd
    exact .inr (.inl (hn (by decide)))
  · exact .inr (.inl Disk.names_remove_self)

/-- A process is at work on no file, on the one it was at work on, or on the one
    that it opened. -/
theorem Effect.busy_cases (h : p.Effect d a p' d') :
    p'.pc.busy = none ∨ p'.pc.busy = p.pc.busy ∧ p'.temp = p.temp ∨
      a.isOk ∧ p.pc.isOpening ∧ p'.pc.busy = p'.temp ∧ d'.names .temp = p'.temp := by
  rcases h with ⟨ht, hb | hb, -⟩ | ⟨hok, hpc, ht, hb, -⟩ | ⟨hb, ht, hb' | hb', -⟩ | ⟨-, -, ht, hb, -⟩ |
    ⟨-, -, -, -, hpc⟩ | ⟨-, hb, -⟩
  · exact .inr (.inl ⟨hb, ht⟩)
  · exact .inl hb
  · exact .inr (.inr ⟨hok, hpc, hb.trans ht.symm, (d.creates_create .temp).named.trans ht.symm⟩)
  · exact .inr (.inl ⟨hb'.trans hb.symm, ht⟩)
  · exact .inl hb'
  · exact .inr (.inl ⟨hb, ht⟩)
  · exact .inl (by rw [hpc]; rfl)
  · exact .inl hb

/-- The file of a process is the one it had, or one that the temporary name leads to. -/
theorem Effect.temp_cases (h : p.Effect d a p' d') :
    p'.temp = p.temp ∨ d'.names .temp = p'.temp := by
  rcases h with ht | ⟨-, -, ht⟩ | ⟨-, ht⟩ | ⟨-, -, ht⟩ | ⟨-, -, -, ht⟩ | ht
  · exact .inl ht
  · exact .inr ((d.creates_create .temp).named.trans ht.symm)
  all_goals exact .inl ht

/-- A file out of the reach of a process stays so. -/
theorem Effect.out_of_reach (h : p.Effect d a p' d') (hb : p.pc.busy ≠ some i)
    (ht : d.names .temp ≠ some i) (hi : i < d.next) :
    p'.pc.busy ≠ some i ∧ d'.names .temp ≠ some i := by
  rcases h with ⟨-, hb', -⟩ | ⟨-, -, -, hb', -⟩ | ⟨hb'', -, hb', -⟩ | ⟨hd, -, -, hb', -⟩ |
    ⟨-, -, hd, -, hpc⟩ | ⟨-, hb', -⟩
  · exact ⟨by rcases hb' with hb' | hb' <;> simp [hb', hb], ht⟩
  · -- The file opened is new, or the one the name led to.
    have hc := d.creates_create .temp
    have hne : (d.create .temp).1 ≠ i := by
      rintro rfl
      rcases hc.fresh with h | h
      · exact ht h
      · exact absurd hi (by omega)
    exact ⟨by simpa [hb'] using hne, by simpa [hc.named] using hne⟩
  · exact ⟨by rcases hb' with hb' | hb' <;> simp [hb', ← hb'', hb], ht⟩
  · obtain ⟨j, -, rfl⟩ := Disk.chmod_eq_some hd
    exact ⟨by rwa [hb'], ht⟩
  · obtain ⟨-, -, -, hn, -⟩ := Disk.rename_eq_some hd
    exact ⟨by simp [hpc, Pc.busy], by simp [hn (by decide)]⟩
  · exact ⟨by simp [hb'], by simp⟩

/-- What a process has renamed, it has renamed now or before. -/
theorem Effect.placed_cases (h : p.Effect d a p' d') (hp : p'.pc.placed) :
    p.pc.placed ∧ p'.temp = p.temp ∨
      ∃ i, p.pc = .replacing i ∧ p'.pc = .forgetting ∧ p'.temp = p.temp ∧
        d.rename .temp .target = some d' := by
  rcases h with ⟨ht, -, hpl⟩ | ⟨-, -, -, -, hpl⟩ | ⟨-, -, -, hpl⟩ | ⟨-, -, -, -, hpl⟩ |
    ⟨-, hpc, hd, ht, hpc'⟩ | ⟨-, -, hpl⟩
  · exact .inl ⟨hpl hp, ht⟩
  case renamed => exact .inr ⟨_, hpc, hpc', ht, hd⟩
  all_goals simp [hpl] at hp

/-- The numbers of files only grow. -/
theorem Effect.next_le (h : p.Effect d a p' d') : d.next ≤ d'.next := by
  rcases h with _ | _ | _ | hd | ⟨-, -, hd⟩ | _
  · exact le_refl _
  · exact (d.creates_create .temp).next_le
  · exact le_refl _
  · obtain ⟨j, -, rfl⟩ := Disk.chmod_eq_some hd
    exact le_refl _
  · obtain ⟨-, -, -, -, -, -, hn⟩ := Disk.rename_eq_some hd
    exact hn.ge
  · exact le_refl _

end

end Proc

/-! ### A run by hand -/

/-- A library that hands on what it reads, all of it still in the buffer. -/
def handOn (bs : Bytes) : Job :=
  .read fun
    | .ok _ => .done (.ok ()) bs
    | .error e => .done (.error (.decrypt (.io e))) []

/-- It makes nothing else. -/
theorem handOn_makes {bs out : Bytes} (h : (handOn bs).Makes [] 0 out) : out = bs := by
  obtain ⟨_ | _, h⟩ := h
  · cases h
  · cases h
    rcases bs with _ | ⟨b, bs⟩
    · rfl
    · simp [Disk.overwrite]

/-- A disk with a target of one byte. -/
def oneTarget : Disk Name where
  names n := if n = .target then some 0 else none
  files _ := { bytes := [79], mode := 384 }
  next := 1
  newMode := 420
  lt_next n i h := by cases n <;> simp_all
  names_inj m n i hm hn := by cases m <;> cases n <;> simp_all

/-- A step for which the system answers that all is well. -/
def fine : Act := .step (.ok ()) 0

end OdfCrypto

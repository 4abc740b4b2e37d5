import Mathlib.Data.Bool.Basic
import OdfCrypto.Cli.Steps

/-!
# Two runs with one target

Two processes on one disk, with one target and so with one temporary name, which
both open without asking whether it is there. Their steps come in any order.

* `World.Safe`: the target holds what it held or a complete output, the output of
  a run that succeeded is not altered, and a run without `--force` overwrites
  nothing;
* `World.Apart`: neither process opens the temporary file while the other is at
  work on it, and none renames its file while the other, without `--force`, has
  found no target and not yet renamed;
* `twoRuns_safe`: runs whose steps are all apart are safe in every state;
* `twoRuns_unsafe`: runs that are not.
-/

namespace OdfCrypto

open ByteStream

/-- Two processes and their disk. -/
structure World where
  disk : Disk Name
  procs : Bool → Proc

namespace World

/-- Two processes that have just started. -/
def start (c : Bool → Command) (d : Disk Name) : World where
  disk := d
  procs q := { command := c q }

/-- Something happens to the process `x.1`. -/
def act (w : World) (x : Bool × Act) : Option World :=
  (Proc.act (w.procs x.1, w.disk) x.2).map fun s =>
    { disk := s.2, procs := Function.update w.procs x.1 s.1 }

/-- The target holds what it held, or a complete output of one of the runs. -/
def Held (c : Bool → Command) (d₀ d : Disk Name) : Prop :=
  d.file .target = d₀.file .target ∨
    ∃ q f, d.file .target = some f ∧ (c q).Completes f.bytes

/-- What two runs from the disk `d₀` are to keep, in a state `w₁` and in a later
    state `w₂`. -/
structure Safe (c : Bool → Command) (d₀ : Disk Name) (w₁ w₂ : World) : Prop where
  held : Held c d₀ w₂.disk
  /-- The output of a run that succeeded is complete, and stays what it is. -/
  kept : ∀ q i, (w₁.procs q).pc = .ended (some exOk) → (w₁.procs q).temp = some i →
    (c q).Completes (w₁.disk.bytes i) ∧ w₂.disk.files i = w₁.disk.files i
  /-- Where a run without `--force` is to rename its file, there is no target. -/
  absent : ∀ q i, (c q).force = false → (w₂.procs q).pc = .replacing i →
    w₂.disk.names .target = none

/-- A step that keeps the runs apart. -/
def Apart (w : World) (x : Bool × Act) : Prop :=
  x.2.isOk →
    ((w.procs x.1).pc.isOpening → (w.procs !x.1).pc.busy = none) ∧
      ((w.procs x.1).pc.isReplacing →
        (w.procs !x.1).command.force ∨ (w.procs !x.1).pc.pending = false)

instance (w : World) (x : Bool × Act) : Decidable (Apart w x) :=
  inferInstanceAs (Decidable (_ → (_ → _) ∧ (_ → _ ∨ _)))

/-! ### What holds of runs that are apart -/

/-- The invariant of two runs that are apart. -/
structure Inv (c : Bool → Command) (d₀ : Disk Name) (w : World) : Prop where
  command : ∀ q, (w.procs q).command = c q
  ready : ∀ q, (w.procs q).Ready w.disk.bytes
  lt : ∀ q i, (w.procs q).temp = some i → i < w.disk.next
  busy : ∀ q i, (w.procs q).pc.busy = some i → (w.procs q).temp = some i
  /-- One process at most is at work on a temporary file. -/
  one : ∀ q, (w.procs q).pc.busy = none ∨ (w.procs !q).pc.busy = none
  /-- The file it is at work on is not the target, and no other file has its name. -/
  named : ∀ q i, (w.procs q).pc.busy = some i → w.disk.names .target ≠ some i ∧
    ∀ j, w.disk.names .temp = some j → j = i
  held : Before d₀ w.disk ∨ ∃ q i, w.disk.names .target = some i ∧ (c q).Completes (w.disk.bytes i)
  /-- What a process has renamed is complete, and out of reach. -/
  placed : ∀ q i, (w.procs q).pc.placed → (w.procs q).temp = some i →
    (c q).Completes (w.disk.bytes i) ∧ w.disk.names .temp ≠ some i ∧
      ∀ r, (w.procs r).pc.busy ≠ some i
  absent : ∀ q, (c q).force = false → (w.procs q).pc.pending → w.disk.names .target = none

variable {c : Bool → Command} {d₀ : Disk Name} {w w' : World} {q : Bool} {a : Act}
  {p' : Proc} {d' : Disk Name}

/-- What happens to a process leaves the other one as it is. -/
theorem act_cases (h : w.act (q, a) = some w') :
    Proc.act (w.procs q, w.disk) a = some (w'.procs q, w'.disk) ∧
      w'.procs (!q) = w.procs (!q) := by
  obtain ⟨s, hs, rfl⟩ := Option.map_eq_some_iff.1 h
  refine ⟨?_, Function.update_of_ne (by simp) ..⟩
  rw [hs]
  simp

/-- The file of the target is out of the reach of both processes. -/
theorem Inv.target_free (h : Inv c d₀ w) {i : ℕ} (hi : w.disk.names .target = some i) :
    (w.procs q).pc.busy ≠ some i ∧ w.disk.names .temp ≠ some i ∧ i < w.disk.next := by
  refine ⟨fun hb => (h.named q i hb).1 hi, fun ht => ?_, w.disk.lt_next _ i hi⟩
  exact absurd (w.disk.names_inj _ _ _ ht hi) (by decide)

/-- A rename that goes through is the one of the process's own file. -/
theorem Inv.own_file (h : Inv c d₀ w) {i : ℕ} (hpc : (w.procs q).pc = .replacing i)
    (hd : w.disk.rename .temp .target = some w'.disk) :
    w'.disk.names .target = some i ∧ w'.disk.names .temp = none ∧
      (c q).Completes (w'.disk.bytes i) ∧ (w.procs q).temp = some i := by
  obtain ⟨j, hj, htarget, hgone, -, hfiles, -⟩ := Disk.rename_eq_some hd
  have hb : (w.procs q).pc.busy = some i := by rw [hpc]; rfl
  obtain rfl := (h.named q i hb).2 j hj
  have hr := h.ready q
  simp only [Proc.Ready, hpc, h.command] at hr
  refine ⟨htarget, hgone (by decide), ?_, h.busy q j hb⟩
  rwa [Disk.bytes, hfiles]

section

variable (h : Inv c d₀ w) (ha : Apart w (q, a)) (hs : w.act (q, a) = some w')
  (he : (w.procs q).Effect w.disk a (w'.procs q) w'.disk)

include h ha he in
/-- What the other process is at work on stays as it is. -/
theorem Inv.other_files {i : ℕ} (hb : (w.procs !q).pc.busy = some i) :
    w'.disk.files = w.disk.files := by
  refine he.files_eq_of_idle ?_ fun ho => ?_
  · rcases h.one q with h₁ | h₁
    · exact h₁
    · simp [hb] at h₁
  · have hn := (ha ho.1).1 ho.2
    simp [hb] at hn

include h ha hs he in
theorem Inv.one_act (r : Bool) : (w'.procs r).pc.busy = none ∨ (w'.procs !r).pc.busy = none := by
  suffices hq : (w'.procs q).pc.busy = none ∨ (w'.procs !q).pc.busy = none by
    rcases Bool.eq_or_eq_not r q with rfl | rfl
    · exact hq
    · rw [Bool.not_not]
      exact hq.symm
  rw [(act_cases hs).2]
  rcases he.busy_cases with hb | ⟨hb, -⟩ | ⟨hok, hpc, -⟩
  · exact .inl hb
  · rw [hb]
    exact h.one q
  · exact .inr ((ha hok).1 hpc)

include h ha hs he in
theorem Inv.named_act (r : Bool) (i : ℕ) (hb : (w'.procs r).pc.busy = some i) :
    w'.disk.names .target ≠ some i ∧ ∀ j, w'.disk.names .temp = some j → j = i := by
  rcases Bool.eq_or_eq_not r q with rfl | rfl
  · -- The process itself: it does not rename, as it would not be at work then.
    have htarget : w'.disk.names .target = w.disk.names .target := by
      rcases he.names_target with ht | ⟨_, -, -, hpc, -⟩
      · exact ht
      · simp [hpc, Pc.busy] at hb
    rcases he.busy_cases with hb' | ⟨hb', -⟩ | ⟨-, -, hb', hn⟩
    · simp [hb] at hb'
    · have hn := h.named _ i (hb' ▸ hb)
      refine ⟨htarget ▸ hn.1, fun j hj => ?_⟩
      rcases he.names_temp with ht | ht | ⟨hok, hpc⟩
      · exact hn.2 j (ht ▸ hj)
      · simp [ht] at hj
      · rw [hb] at hb'
        unfold Pc.isOpening at hpc
        split at hpc
        · next hpc' => simp [hpc', Pc.busy] at hb'
        · cases hpc
    · have hi : w'.disk.names .temp = some i := hn.trans (hb'.symm.trans hb)
      refine ⟨fun ht => absurd (w'.disk.names_inj _ _ _ ht hi) (by decide), fun j hj => ?_⟩
      exact Option.some.inj (hj.symm.trans hi)
  · -- The other one: this one is idle, and opens nothing.
    rw [(act_cases hs).2] at hb
    have hn := h.named _ i hb
    have hidle : (w.procs q).pc.busy = none := by
      rcases h.one q with h₁ | h₁
      · exact h₁
      · simp [hb] at h₁
    constructor
    · rcases he.names_target with ht | ⟨_, -, hpc, -⟩
      · rw [ht]
        exact hn.1
      · simp [hpc, Pc.busy] at hidle
    · intro j hj
      rcases he.names_temp with ht | ht | ⟨hok, hpc⟩
      · exact hn.2 j (ht ▸ hj)
      · simp [ht] at hj
      · have := (ha hok).1 hpc
        simp [hb] at this

include h he in
theorem Inv.held_act : Before d₀ w'.disk ∨
    ∃ r i, w'.disk.names .target = some i ∧ (c r).Completes (w'.disk.bytes i) := by
  rcases he.names_target with ht | ⟨i, -, hpc, -, -, hd⟩
  · -- The target is not renamed over, and its file is out of reach.
    have hfile : ∀ i, w.disk.names .target = some i → w'.disk.files i = w.disk.files i :=
      fun i hi =>
        have hfree := h.target_free hi
        he.files_eq hfree.1 hfree.2.1 hfree.2.2
    rcases h.held with hb | ⟨r, i, hi, hc⟩
    · exact .inl (hb.trans ⟨ht, hfile⟩)
    · refine .inr ⟨r, i, ht.trans hi, ?_⟩
      rwa [Disk.bytes, hfile i hi]
  · obtain ⟨htarget, -, hc, -⟩ := h.own_file hpc hd
    exact .inr ⟨q, i, htarget, hc⟩

include h hs he in
theorem Inv.placed_act (r : Bool) (i : ℕ) (hp : (w'.procs r).pc.placed)
    (ht : (w'.procs r).temp = some i) :
    (c r).Completes (w'.disk.bytes i) ∧ w'.disk.names .temp ≠ some i ∧
      ∀ r, (w'.procs r).pc.busy ≠ some i := by
  obtain ⟨-, hother⟩ := act_cases hs
  -- A file out of the reach of both processes stays so, as the other one does nothing.
  have hfree {i : ℕ} (hi : i < w.disk.next) (hn : w.disk.names .temp ≠ some i)
      (hb : ∀ r, (w.procs r).pc.busy ≠ some i) : w'.disk.files i = w.disk.files i ∧
      w'.disk.names .temp ≠ some i ∧ ∀ r, (w'.procs r).pc.busy ≠ some i := by
    obtain ⟨hb', hn'⟩ := he.out_of_reach (hb q) hn hi
    refine ⟨he.files_eq (hb q) hn hi, hn', fun r => ?_⟩
    rcases Bool.eq_or_eq_not r q with rfl | rfl
    · exact hb'
    · rw [hother]
      exact hb _
  have hold (hp : (w.procs r).pc.placed) (ht : (w.procs r).temp = some i) :
      (c r).Completes (w'.disk.bytes i) ∧ w'.disk.names .temp ≠ some i ∧
        ∀ r, (w'.procs r).pc.busy ≠ some i := by
    obtain ⟨hc, hn, hb⟩ := h.placed r i hp ht
    obtain ⟨hf, hn', hb'⟩ := hfree (h.lt r i ht) hn hb
    refine ⟨?_, hn', hb'⟩
    rwa [Disk.bytes, hf]
  rcases Bool.eq_or_eq_not r q with rfl | rfl
  · rcases he.placed_cases hp with ⟨hp', htemp⟩ | ⟨j, hpc, hpc', htemp, hd⟩
    · exact hold hp' (htemp ▸ ht)
    · -- The process has just renamed its file, and the other one is at work on none.
      obtain ⟨-, hgone, hc, hj⟩ := h.own_file hpc hd
      obtain rfl : j = i := Option.some.inj (hj.symm.trans (htemp ▸ ht))
      refine ⟨hc, by simp [hgone], fun r' => ?_⟩
      rcases Bool.eq_or_eq_not r' r with rfl | rfl
      · simp [hpc', Pc.busy]
      · rw [hother]
        rcases h.one r with h₁ | h₁
        · simp [hpc, Pc.busy] at h₁
        · simp [h₁]
  · rw [hother] at hp ht
    exact hold hp ht

include h hs he in
theorem Inv.absent_act (ha : Apart w (q, a)) (r : Bool) (hf : (c r).force = false)
    (hp : (w'.procs r).pc.pending) : w'.disk.names .target = none := by
  obtain ⟨hact, hother⟩ := act_cases hs
  rcases Bool.eq_or_eq_not r q with rfl | rfl
  · have hn : w.disk.names .target = none := by
      rcases Proc.pending_act hact (by rwa [h.command]) hp with hp' | hn
      · exact h.absent r hf hp'
      · exact hn
    rcases he.names_target with ht | ⟨_, -, -, hpc, -⟩
    · exact ht.trans hn
    · simp [hpc, Pc.pending] at hp
  · rw [hother] at hp
    rcases he.names_target with ht | ⟨i, hok, hpc, -⟩
    · exact ht.trans (h.absent _ hf hp)
    · -- A rename is not apart from a process that found no target.
      rcases (ha hok).2 (by simp [hpc, Pc.isReplacing]) with hf' | hp'
      · rw [h.command, hf] at hf'
        cases hf'
      · simp [hp] at hp'

include h ha hs in
/-- What happens where the runs are apart keeps the invariant. -/
theorem Inv.step : Inv c d₀ w' := by
  obtain ⟨hact, hother⟩ := act_cases hs
  have he := Proc.effect_act (h.ready q) hact
  refine {
    command := fun r => ?_
    ready := fun r => ?_
    lt := fun r i ht => ?_
    busy := fun r i hb => ?_
    one := h.one_act ha hs he
    named := h.named_act ha hs he
    held := h.held_act he
    placed := h.placed_act hs he
    absent := h.absent_act hs he ha }
  -- For what is said of each process: the one that acted, and the other, which is as
  -- it was.
  all_goals rcases Bool.eq_or_eq_not r q with rfl | rfl
  · exact (Proc.command_act hact).trans (h.command _)
  · rw [hother]
    exact h.command _
  · exact Proc.ready_act (h.ready _) hact
  · rw [hother]
    refine (h.ready _).congr fun i hb => ?_
    rw [Disk.bytes, h.other_files ha he hb, Disk.bytes]
  · rcases he.temp_cases with htemp | hn
    · exact lt_of_lt_of_le (h.lt _ i (htemp ▸ ht)) he.next_le
    · exact w'.disk.lt_next _ i (hn.trans ht)
  · rw [hother] at ht
    exact lt_of_lt_of_le (h.lt _ i ht) he.next_le
  · rcases he.busy_cases with hb' | ⟨hb', htemp⟩ | ⟨-, -, hb', -⟩
    · simp [hb] at hb'
    · exact htemp.trans (h.busy _ i (hb' ▸ hb))
    · exact hb'.symm.trans hb
  · rw [hother] at hb ⊢
    exact h.busy _ i hb

end

theorem inv_start (c : Bool → Command) (d : Disk Name) : Inv c d (start c d) where
  command _ := rfl
  ready _ := trivial
  lt _ _ h := by cases h
  busy _ _ h := by cases h
  one _ := .inl rfl
  named _ _ h := by cases h
  held := .inl (.refl d)
  placed _ _ h := by cases h
  absent _ _ h := by cases h

/-! ### Whole runs -/

variable {xs ys : List (Bool × Act)} {w₁ w₂ : World}

/-- What was true of the target by its number is true of it by its name. -/
theorem Inv.toHeld (h : Inv c d₀ w) : Held c d₀ w.disk := by
  rcases h.held with hb | ⟨q, i, hi, hc⟩
  · left
    rw [Disk.file, Disk.file, hb.names]
    exact Option.map_congr fun i hi => hb.files i hi
  · exact .inr ⟨q, w.disk.files i, by rw [Disk.file, hi]; rfl, hc⟩

/-- What happens leaves the output of a process that has succeeded. -/
theorem Inv.kept_act {i : ℕ} (h : Inv c d₀ w) (hend : (w.procs q).pc = .ended (some exOk))
    (ht : (w.procs q).temp = some i) {x : Bool × Act} (hs : w.act x = some w') :
    w'.procs q = w.procs q ∧ w'.disk.files i = w.disk.files i := by
  obtain ⟨r, a⟩ := x
  obtain ⟨hact, hother⟩ := act_cases hs
  rcases Bool.eq_or_eq_not q r with rfl | rfl
  · -- A process that has ended does nothing more.
    rcases a with _ | _ <;> simp [Proc.act, Proc.advance, Proc.interrupt, hend] at hact
  · have he := Proc.effect_act (h.ready r) hact
    obtain ⟨-, hn, hb⟩ := h.placed _ i (by rw [hend]; rfl) ht
    exact ⟨hother, he.files_eq (hb r) hn (h.lt _ i ht)⟩

/-- So does a run. -/
theorem Inv.kept {i : ℕ} (h : Inv c d₀ w₁) (hend : (w₁.procs q).pc = .ended (some exOk))
    (ht : (w₁.procs q).temp = some i) (ha : Trace.Along World.act Apart w₁ ys)
    (hr : Trace.run World.act w₁ ys = some w₂) : w₂.disk.files i = w₁.disk.files i := by
  have hinv := Trace.induct
    (I := fun w => Inv c d₀ w ∧ w.procs q = w₁.procs q ∧ w.disk.files i = w₁.disk.files i)
    (fun {w x w'} hw hx hs => ?_) ⟨h, rfl, rfl⟩ ha hr
  · exact hinv.2.2
  · obtain ⟨hw, hp, hf⟩ := hw
    obtain ⟨hp', hf'⟩ := hw.kept_act (hp ▸ hend) (hp ▸ ht) hs
    exact ⟨hw.step hx hs, hp'.trans hp, hf'.trans hf⟩

end World

/-- Two runs whose steps are all apart are safe in every state. -/
theorem twoRuns_safe {c : Bool → Command} {d₀ : Disk Name} {xs ys : List (Bool × Act)}
    {w₁ w₂ : World} (h₁ : Trace.run World.act (.start c d₀) xs = some w₁)
    (h₂ : Trace.run World.act w₁ ys = some w₂)
    (ha : Trace.Along World.act World.Apart (.start c d₀) (xs ++ ys)) :
    World.Safe c d₀ w₁ w₂ := by
  obtain ⟨ha₁, ha₂⟩ := (Trace.along_append h₁).1 ha
  have hi₁ := Trace.induct (fun h hx hs => World.Inv.step h hx hs) (World.inv_start c d₀) ha₁ h₁
  have hi₂ := Trace.induct (fun h hx hs => World.Inv.step h hx hs) hi₁ ha₂ h₂
  exact {
    held := hi₂.toHeld
    kept := fun q i hend ht =>
      ⟨(hi₁.placed q i (by rw [hend]; rfl) ht).1, hi₁.kept hend ht ha₂ h₂⟩
    absent := fun q i hf hpc => hi₂.absent q hf (by rw [hpc]; rfl) }

/-- Two commands with outputs of their own. -/
def twoCommands (force : Bool) (q : Bool) : Command where
  force := force
  prepare := .ok (handOn (if q then [1, 2] else [3]))

/-- The process `q` takes `n` steps, and all is well. -/
def steps (q : Bool) (n : ℕ) : List (Bool × Act) := List.replicate n (q, fine)

/-- The steps of two runs in turns: the second has found the target when the first opens its
    file, and opens its own when the first has ended. -/
theorem twoRuns_sample : ∃ w₁ w₂,
    Trace.run World.act (.start (twoCommands true) oneTarget)
      (steps true 2 ++ steps false 2 ++ steps true 7 ++ steps false 1 ++ steps true 5) = some w₁ ∧
    (w₁.procs true).pc = .ended (some exOk) ∧
    Trace.run World.act w₁ (steps false 11) = some w₂ ∧ (w₂.procs false).pc = .ended (some exOk) ∧
    World.Safe (twoCommands true) oneTarget w₁ w₂ :=
  ⟨_, _, rfl, rfl, rfl, rfl,
    @twoRuns_safe _ _ (steps true 2 ++ steps false 2 ++ steps true 7 ++ steps false 1 ++ steps true 5)
      (steps false 11) _ _ rfl rfl (by decide)⟩

/-- What the two commands make. -/
theorem twoCommands_completes {force q : Bool} {bytes : Bytes}
    (h : (twoCommands force q).Completes bytes) : bytes = if q then [1, 2] else [3] := by
  obtain ⟨job, hjob, h⟩ := h
  obtain rfl := Except.ok.inj hjob
  exact handOn_makes h

/-- A disk with no files. -/
def noFiles : Disk Name where
  names _ := none
  files _ := { bytes := [], mode := 0 }
  next := 0
  newMode := 420
  lt_next _ _ h := by cases h
  names_inj _ _ _ h := by cases h

/-- Runs that are not safe. In the first, the second process opens the temporary
    file that the first is about to flush; the first renames it and succeeds, and
    the second writes into the target. In the second, both processes find no
    target; one makes it, and the other is to rename over it without `--force`. -/
theorem twoRuns_unsafe :
    (∃ w₁ w₂,
      Trace.run World.act (.start (twoCommands true) oneTarget)
        (steps true 9 ++ steps false 9 ++ steps true 5) = some w₁ ∧
      (w₁.procs true).pc = .ended (some exOk) ∧
      Trace.run World.act w₁ (steps false 1) = some w₂ ∧
      ¬ World.Held (twoCommands true) oneTarget w₂.disk ∧
      w₂.disk.files 1 ≠ w₁.disk.files 1 ∧ ¬ World.Safe (twoCommands true) oneTarget w₁ w₂) ∧
    ∃ w,
      Trace.run World.act (.start (twoCommands false) noFiles)
        (steps true 3 ++ steps false 3 ++ steps true 10 ++ steps false 8) = some w ∧
      (w.procs true).pc = .ended (some exOk) ∧ (w.procs false).pc = .replacing 1 ∧
      ¬ World.Safe (twoCommands false) noFiles w w := by
  refine ⟨⟨_, _, rfl, rfl, rfl, ?_, by decide, fun h => ?_⟩, _, rfl, rfl, rfl, fun h => ?_⟩
  · rintro (h | ⟨q, f, hf, h⟩)
    · exact absurd (congrArg (Option.map File.bytes) h) (by decide)
    · obtain rfl := Option.some.inj hf
      rcases q with _ | _ <;> exact absurd (twoCommands_completes h) (by decide)
  · exact absurd (h.kept true 1 rfl rfl).2 (by decide)
  · exact absurd (h.absent false 1 rfl rfl) (by decide)

end OdfCrypto

import OdfCrypto.Lib.Disk
import OdfCrypto.Lib.Trace
import OdfCrypto.Reencrypt

/-!
# The command line

A run of `decrypt`, `encrypt` or `rekey` that writes to a file, as a process that
takes one step after another on a disk with two names: the target, and the
temporary file beside it.

* `Job`: the library at work, through the buffer of the command line;
* `Pc`: the points between the steps of `cmd_crypt`, with `TempOutput::at`,
  `TempOutput::commit` and the drop of `TempOutput` step by step;
* `Proc.advance`: one step, with what the system answers to it;
* `Proc.interrupt`: the handler of Ctrl-C, and what Ctrl-C does before there is
  one.
-/

namespace OdfCrypto

open ByteStream Text

/-! ### Exit codes -/

def exOk : ℕ := 0
def exUsage : ℕ := 1
def exIo : ℕ := 2
def exNotOdf : ℕ := 3
def exWrongPassword : ℕ := 4
def exRefused : ℕ := 5
def exMalformed : ℕ := 6
def exInternal : ℕ := 7
def exHostCapacity : ℕ := 8
def exCancelled : ℕ := 130

def detectExit : DetectError → ℕ
  | .notZip | .missingManifest => exNotOdf
  | .inconsistent _ => exRefused
  | .zip _ => exMalformed
  | .io _ => exIo

def decryptExit : DecryptError → ℕ
  | .classify e => detectExit e
  | .wrongPassword => exWrongPassword
  | .notEncrypted | .odf12Fatal | .unsupportedPgp | .emptyPassword => exRefused
  | .badParameters _ | .inflate _ | .zip _ => exMalformed
  | .internal _ => exInternal
  | .hostCannotAllocate .. => exHostCapacity
  | .outputLimit _ => exRefused
  | .io _ => exIo

def encryptExit : EncryptError → ℕ
  | .classify e => detectExit e
  | .alreadyEncrypted | .partiallyEncrypted | .odf12Fatal | .emptyPassword => exRefused
  | .mimetype _ | .deflate _ | .zip _ => exMalformed
  | .params _ => exUsage
  | .random _ | .internal _ => exInternal
  | .hostCannotAllocate _ => exHostCapacity
  | .io _ => exIo

def reencryptExit : ReencryptError → ℕ
  | .decrypt e => decryptExit e
  | .encrypt e => encryptExit e
  | .partiallyEncrypted | .unexpectedStreams => exRefused
  | .io _ => exIo

/-- The error of the direction that ran. -/
inductive CryptError
  | decrypt (e : DecryptError)
  | encrypt (e : EncryptError)
  | rekey (e : ReencryptError)

def CryptError.exit : CryptError → ℕ
  | .decrypt e => decryptExit e
  | .encrypt e => encryptExit e
  | .rekey e => reencryptExit e

/-- Why a command is refused before it looks at its target. -/
inductive Refusal
  | passwordTrap
  | cannotReadInput
  | noPassword
  | cannotReadPassword
  | params (e : EncryptError)

def Refusal.exit : Refusal → ℕ
  | .passwordTrap | .noPassword => exUsage
  | .cannotReadInput | .cannotReadPassword => exIo
  | .params e => encryptExit e

theorem detectExit_ne (e : DetectError) : detectExit e ≠ exOk := by
  rcases e <;> exact Nat.succ_ne_zero _

theorem decryptExit_ne (e : DecryptError) : decryptExit e ≠ exOk := by
  rcases e with e | _
  · exact detectExit_ne e
  all_goals exact Nat.succ_ne_zero _

theorem encryptExit_ne (e : EncryptError) : encryptExit e ≠ exOk := by
  rcases e with e | _
  · exact detectExit_ne e
  all_goals exact Nat.succ_ne_zero _

theorem reencryptExit_ne (e : ReencryptError) : reencryptExit e ≠ exOk := by
  rcases e with e | e | _
  · exact decryptExit_ne e
  · exact encryptExit_ne e
  all_goals exact Nat.succ_ne_zero _

/-- No error has the exit code of a success. -/
theorem CryptError.exit_ne (e : CryptError) : e.exit ≠ exOk := by
  rcases e with e | e | e
  · exact decryptExit_ne e
  · exact encryptExit_ne e
  · exact reencryptExit_ne e

theorem Refusal.exit_ne (e : Refusal) : e.exit ≠ exOk := by
  rcases e with _ | _ | _ | _ | e
  case params => exact encryptExit_ne e
  all_goals exact Nat.succ_ne_zero _

/-! ### The library at work -/

/-- The library at work on its input: what it does after a read of it, and what it
    writes into the temporary file through the 64 KiB buffer. When it returns, the
    buffer still has `rest` to write. -/
inductive Job
  | read (k : Except IoError Unit → Job)
  | write (bs : Bytes) (k : Except IoError Unit → Job)
  | seek (pos : ℕ) (k : Except IoError Unit → Job)
  | done (r : Except CryptError Unit) (rest : Bytes)

/-- The job, with `bytes` in its file and the next write at `pos`, can come to
    report success with the file holding `out`, once the buffer is flushed. -/
inductive Job.Makes : Job → (bytes : Bytes) → (pos : ℕ) → (out : Bytes) → Prop
  | read {k bytes pos out} (r : Except IoError Unit) (h : (k r).Makes bytes pos out) :
      Makes (.read k) bytes pos out
  | write {bs k bytes pos out}
      (h : (k (.ok ())).Makes (Disk.overwrite bytes pos bs) (pos + bs.length) out) :
      Makes (.write bs k) bytes pos out
  | writeFailed {bs k bytes pos out} (e : IoError) (taken : ℕ)
      (h : (k (.error e)).Makes (Disk.overwrite bytes pos (bs.take taken))
        (pos + (bs.take taken).length) out) :
      Makes (.write bs k) bytes pos out
  | seek {pos' k bytes pos out} (h : (k (.ok ())).Makes bytes pos' out) :
      Makes (.seek pos' k) bytes pos out
  | seekFailed {pos' k bytes pos out} (e : IoError) (h : (k (.error e)).Makes bytes pos out) :
      Makes (.seek pos' k) bytes pos out
  | done {rest bytes pos} : Makes (.done (.ok ()) rest) bytes pos (Disk.overwrite bytes pos rest)

/-- A command line: whether it has `--force`, and what comes of its other
    arguments, its password and its input. -/
structure Command where
  force : Bool
  prepare : Except Refusal Job

/-! ### The process -/

/-- The names of the disk. -/
inductive Name
  | target
  | temp
  deriving DecidableEq

/-- What follows the drop of a temporary file: the end of the process, or `finish`. -/
inductive After
  | exit (code : ℕ)
  | finish (code : ℕ)

def After.code : After → ℕ
  | .exit code => code
  | .finish code => code

/-- A point between two steps of `cmd_crypt`. The temporary file has the number
    `file`, and the next write goes to its offset `pos`. -/
inductive Pc
  /-- Before the arguments, the password and the input are looked at. -/
  | preparing
  /-- Before the target is looked for. -/
  | checking (job : Job)
  | installing (job : Job)
  /-- In `TempOutput::at`: before the open, before its path goes into `TEMP_PATH`,
      and before the metadata of the target is read and its permissions are set. -/
  | opening (job : Job)
  | registering (job : Job) (file : ℕ)
  | inspecting (job : Job) (file : ℕ)
  | permitting (mode : ℕ) (job : Job) (file : ℕ)
  | working (job : Job) (file pos : ℕ)
  | flushing (rest : Bytes) (file pos : ℕ)
  /-- Before the buffer is dropped, which writes what it has, after an error. -/
  | unwinding (rest : Bytes) (code : ℕ) (file pos : ℕ)
  /-- Before `finish`, after an error. -/
  | deciding (code : ℕ)
  /-- In `TempOutput::commit`. -/
  | syncing (file : ℕ)
  | replacing (file : ℕ)
  | forgetting
  /-- In the drop of a `TempOutput` that was not committed. -/
  | removing (next : After)
  | clearing (next : After)
  /-- Before `finish`, after `commit`. -/
  | finishing (r : Except ℕ Unit)
  /-- The end, with an exit code, or killed by the signal. -/
  | ended (code : Option ℕ)

/-- A process: its statics `CANCELLED` and `TEMP_PATH`, whether its handler is
    there, and, for the statements about it, the temporary file it opened. -/
structure Proc where
  command : Command
  pc : Pc := .preparing
  cancelled : Bool := false
  handling : Bool := false
  tempPath : Bool := false
  temp : Option ℕ := none

/-- What happens next: the process takes a step, for which the system answers `r`
    (a write that failed had `taken` some bytes), or Ctrl-C is pressed. -/
inductive Act
  | step (r : Except IoError Unit) (taken : ℕ)
  | ctrlC

namespace Proc

/-- The process at another point. -/
def goto (p : Proc) (pc : Pc) : Proc := { p with pc }

/-- The error of a read of the input after Ctrl-C. -/
def cancelledError : IoError := .simple .other (ascii "cancelled by Ctrl-C")

/-- A read of the input, through the check of the cancel flag. -/
def cancellable (p : Proc) (r : Except IoError Unit) : Except IoError Unit :=
  if p.cancelled then .error cancelledError else r

/-- The exit code of a finished run. -/
def finish (p : Proc) (r : Except ℕ Unit) : ℕ :=
  if p.cancelled then exCancelled
  else
    match r with
    | .ok _ => exOk
    | .error code => code

/-- One step of the library. -/
def work (p : Proc) (d : Disk Name) (r : Except IoError Unit) (taken i pos : ℕ) :
    Job → Proc × Disk Name
  | .read k => (p.goto (.working (k (p.cancellable r)) i pos), d)
  | .write bs k =>
    match r with
    | .ok _ => (p.goto (.working (k (.ok ())) i (pos + bs.length)), d.write i pos bs)
    | .error e =>
      (p.goto (.working (k (.error e)) i (pos + (bs.take taken).length)), d.write i pos (bs.take taken))
  | .seek pos' k =>
    match r with
    | .ok _ => (p.goto (.working (k (.ok ())) i pos'), d)
    | .error e => (p.goto (.working (k (.error e)) i pos), d)
  | .done (.ok _) rest => (p.goto (.flushing rest i pos), d)
  | .done (.error e) rest => (p.goto (.unwinding rest e.exit i pos), d)

/-- One step of the process. -/
def advance (p : Proc) (d : Disk Name) (r : Except IoError Unit) (taken : ℕ) :
    Option (Proc × Disk Name) :=
  match p.pc with
  | .preparing =>
    match p.command.prepare with
    | .ok job => some (p.goto (.checking job), d)
    | .error e => some (p.goto (.ended (some e.exit)), d)
  | .checking job =>
    if (d.names .target).isSome ∧ ¬ p.command.force then some (p.goto (.ended (some exUsage)), d)
    else some (p.goto (.installing job), d)
  | .installing job => some ({ p with handling := true, pc := .opening job }, d)
  | .opening job =>
    match r with
    | .ok _ =>
      some ({ p with temp := some (d.create .temp).1, pc := .registering job (d.create .temp).1 },
        (d.create .temp).2)
    | .error _ => some (p.goto (.ended (some exIo)), d)
  | .registering job i => some ({ p with tempPath := true, pc := .inspecting job i }, d)
  | .inspecting job i =>
    match r, d.file .target with
    | .ok _, some f => some (p.goto (.permitting f.mode job i), d)
    -- no target, or none that can be inspected: the mode of the new file stays
    | _, _ => some (p.goto (.working job i 0), d)
  | .permitting mode job i =>
    match r, d.chmod .temp mode with
    | .ok _, some d' => some (p.goto (.working job i 0), d')
    | _, _ => some (p.goto (.removing (.exit exIo)), d)
  | .working job i pos => some (p.work d r taken i pos job)
  | .flushing rest i pos =>
    match r with
    | .ok _ => some (p.goto (.syncing i), d.write i pos rest)
    -- a failing write may have taken a part of the bytes
    | .error _ =>
      some (p.goto (.unwinding (rest.drop taken) exIo i (pos + (rest.take taken).length)),
        d.write i pos (rest.take taken))
  | .unwinding rest code i pos =>
    match r with
    | .ok _ => some (p.goto (.deciding code), d.write i pos rest)
    -- what the buffer still holds is tried once more, and an error is dropped
    | .error _ => some (p.goto (.deciding code), d.write i pos (rest.take taken))
  | .deciding code => some (p.goto (.removing (.exit (p.finish (.error code)))), d)
  | .syncing i =>
    match r with
    | .ok _ => some (p.goto (.replacing i), d)
    | .error _ => some (p.goto (.removing (.finish exIo)), d)
  | .replacing _ =>
    match r, d.rename .temp .target with
    | .ok _, some d' => some (p.goto .forgetting, d')
    | _, _ => some (p.goto (.removing (.finish exIo)), d)
  | .forgetting => some ({ p with tempPath := false, pc := .finishing (.ok ()) }, d)
  | .removing next =>
    match r with
    | .ok _ => some (p.goto (.clearing next), d.remove .temp)
    | .error _ => some (p.goto (.clearing next), d)
  | .clearing (.exit code) => some ({ p with tempPath := false, pc := .ended (some code) }, d)
  | .clearing (.finish code) =>
    some ({ p with tempPath := false, pc := .finishing (.error code) }, d)
  | .finishing r' => some (p.goto (.ended (some (p.finish r'))), d)
  | .ended _ => none

/-- Ctrl-C: before there is a handler, it kills the process; then the first sets
    the flag, and the second removes the temporary file and ends the process. -/
def interrupt (p : Proc) (d : Disk Name) : Option (Proc × Disk Name) :=
  match p.pc with
  | .ended _ => none
  | _ =>
    if ¬ p.handling then some (p.goto (.ended none), d)
    else if ¬ p.cancelled then some ({ p with cancelled := true }, d)
    else some (p.goto (.ended (some exCancelled)), if p.tempPath then d.remove .temp else d)

/-- What happens next. -/
def act (s : Proc × Disk Name) : Act → Option (Proc × Disk Name)
  | .step r taken => s.1.advance s.2 r taken
  | .ctrlC => s.1.interrupt s.2

end Proc

end OdfCrypto

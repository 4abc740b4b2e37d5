import OdfCrypto.Lib.Text
import OdfCrypto.Lib.Read

/-!
# DEFLATE

The interfaces of a streaming inflater and of a streaming compressor, with what
their callers rely on to come to an end, and what it means that they undo each
other:

* `Format`: which byte strings are whole blocks, and which are complete streams;
* `Inflater`, with `Inflater.Ran` (what it has consumed and made since the
  start) and `Inflater.Undoes`: it makes what a complete stream encodes, and
  stops at its end;
* `Compressor`, with `Compressor.Fed`, `Compressor.Flushing` and
  `Compressor.Makes`: what it makes is made of whole blocks where it is flushed,
  and complete where it finishes;
* `Compressor.parts`: the streams made of what a compressor makes and of stored
  blocks, part by part.
-/

namespace Deflate

open ByteStream Text

/-- The low and the high byte of a 16-bit number. -/
def le16 (n : ℕ) : Bytes := [UInt8.ofNat n, UInt8.ofNat (n / 2 ^ 8)]

/-- A stored block that is not the last one. -/
def storedBlock (block : Bytes) : Bytes :=
  0 :: (le16 block.length ++ le16 (2 ^ 16 - 1 - block.length) ++ block)

/-- What byte strings encode. -/
structure Format where
  /-- Whole blocks, none of them the last one, that end with a byte. -/
  Segment : (code data : Bytes) → Prop
  /-- A complete stream. -/
  Complete : (code data : Bytes) → Prop
  segment_nil : Segment [] []
  segment_append : ∀ {a b x y}, Segment a x → Segment b y → Segment (a ++ b) (x ++ y)
  append_complete : ∀ {a b x y}, Segment a x → Complete b y → Complete (a ++ b) (x ++ y)
  stored : ∀ {block}, block.length < 2 ^ 16 → Segment (storedBlock block) block

/-! ### Inflating -/

inductive InflateStatus
  | done
  | needsMoreInput
  | hasMoreOutput
  | failed (name : Str)
  deriving DecidableEq

/-- A streaming inflater. A call is given some input, and a window with the
    position in it to write to; it consumes some of the input and makes some
    bytes, no more than the window has from there on. -/
structure Inflater where
  State : Type
  init : State
  decompress : State → (input window : Bytes) → (outPos : ℕ) → (hasMore : Bool) →
    InflateStatus × ℕ × Bytes × State
  consumed_le : ∀ {st input window outPos more status n made st'},
    decompress st input window outPos more = (status, n, made, st') → n ≤ input.length
  made_le : ∀ {st input window outPos more status n made st'}, outPos ≤ window.length →
    decompress st input window outPos more = (status, n, made, st') →
      outPos + made.length ≤ window.length
  /-- A call with room in the window that does not end makes progress, unless it needs
      input and is given none. -/
  progress : ∀ {st input window outPos more status n made st'}, outPos < window.length →
    decompress st input window outPos more = (status, n, made, st') →
      status = .hasMoreOutput ∨ status = .needsMoreInput ∧ input ≠ [] → n ≠ 0 ∨ made ≠ []

/-- The last bytes of `o` are in the window, each where it was written. -/
def InWindow (window o : Bytes) : Prop :=
  ∀ k < o.length, o.length ≤ k + window.length → window[k % window.length]? = o[k]?

/-- The window with some bytes written at a position. -/
def overwrite (window : Bytes) (pos : ℕ) (made : Bytes) : Bytes :=
  window.take pos ++ made ++ window.drop (pos + made.length)

theorem length_overwrite {window made : Bytes} {pos : ℕ}
    (h : pos + made.length ≤ window.length) :
    (overwrite window pos made).length = window.length := by
  simp only [overwrite, List.length_append, List.length_take, List.length_drop]
  omega

/-- Writing makes a window no shorter, whatever is written. -/
theorem le_length_overwrite {window : Bytes} {pos : ℕ} (made : Bytes) (h : pos ≤ window.length) :
    window.length ≤ (overwrite window pos made).length := by
  simp only [overwrite, List.length_append, List.length_take, List.length_drop]
  omega

/-- What was written stands where it was written. -/
theorem take_drop_overwrite {window made : Bytes} {pos : ℕ}
    (h : pos + made.length ≤ window.length) :
    ((overwrite window pos made).drop pos).take made.length = made := by
  have hl : (window.take pos).length = pos := by rw [List.length_take]; omega
  rw [overwrite, List.append_assoc, List.drop_left' hl, List.take_left]

/-- What was not overwritten stands where it stood. -/
theorem getElem?_overwrite {window made : Bytes} {pos i : ℕ}
    (h : pos + made.length ≤ window.length) (hi : i < pos ∨ pos + made.length ≤ i) :
    (overwrite window pos made)[i]? = window[i]? := by
  have hl : (window.take pos).length = pos := by rw [List.length_take]; omega
  rw [overwrite]
  obtain hi | hi := hi
  · rw [List.append_assoc, List.getElem?_append_left (by rw [hl]; exact hi),
      List.getElem?_take_of_lt hi]
  · rw [List.getElem?_append_right (by rw [List.length_append, hl]; exact hi),
      List.getElem?_drop, List.length_append, hl]
    congr 1
    omega

theorem getElem?_overwrite_made {window made : Bytes} {pos j : ℕ}
    (h : pos + made.length ≤ window.length) (hj : j < made.length) :
    (overwrite window pos made)[pos + j]? = made[j]? := by
  have hl : (window.take pos).length = pos := by rw [List.length_take]; omega
  rw [overwrite, List.append_assoc, List.getElem?_append_right (by rw [hl]; omega), hl,
    Nat.add_sub_cancel_left, List.getElem?_append_left hj]

theorem InWindow.nil (window : Bytes) : InWindow window [] := nofun

/-- Writing where the output has come to keeps its last bytes in the window. -/
theorem InWindow.overwrite {window o made : Bytes} (h : InWindow window o)
    (hle : o.length % window.length + made.length ≤ window.length) :
    InWindow (overwrite window (o.length % window.length) made) (o ++ made) := by
  intro k hk hlast
  rw [length_overwrite hle] at hlast ⊢
  rw [List.length_append] at hk hlast
  have ho := Nat.div_add_mod o.length window.length
  have hkd := Nat.div_add_mod k window.length
  by_cases hko : k < o.length
  · rw [getElem?_overwrite hle, h k hko (by omega), List.getElem?_append_left hko]
    -- were it overwritten, it would be a whole window back
    by_contra hcon
    have hlt : k / window.length < o.length / window.length := by
      by_contra hge
      have := Nat.mul_le_mul_left window.length (Nat.le_of_not_lt hge)
      omega
    have := Nat.mul_le_mul_left window.length (Nat.succ_le_of_lt hlt)
    rw [Nat.mul_succ] at this
    omega
  · obtain ⟨j, rfl⟩ := Nat.exists_eq_add_of_le (Nat.le_of_not_lt hko)
    have hj : j < made.length := by omega
    have hmod : (o.length + j) % window.length = o.length % window.length + j := by
      rw [Nat.add_mod, Nat.mod_eq_of_lt (a := j) (by omega), Nat.mod_eq_of_lt (by omega)]
    rw [hmod, getElem?_overwrite_made hle hj, List.getElem?_append_right (Nat.le_add_right _ _),
      Nat.add_sub_cancel_left]

namespace Inflater

/-- Calls on a window of `w` bytes, none of which ended, took the inflater from
    its start to a state, consuming `i` and making `o`. -/
inductive Ran (f : Inflater) (w : ℕ) : f.State → (i o : Bytes) → Prop
  | init : Ran f w f.init [] []
  | step {st st' : f.State} {i o input window made : Bytes} {more : Bool} {n : ℕ}
      {status : InflateStatus} (h : Ran f w st i o) (hlen : window.length = w)
      (hw : InWindow window o)
      (hd : f.decompress st input window (o.length % w) more = (status, n, made, st'))
      (hs : status = .needsMoreInput ∨ status = .hasMoreOutput) :
      Ran f w st' (i ++ input.take n) (o ++ made)

/-- The inflater makes what a complete stream encodes, given the stream, and
    maybe more after it, in pieces; it says that it is done at the end of it. -/
def Undoes (f : Inflater) (F : Format) (w : ℕ) : Prop :=
  ∀ {st st' i o input window made more n status code data rest},
    f.Ran w st i o → window.length = w → InWindow window o →
    F.Complete code data → i ++ input <+: code ++ rest →
    (more = true ∨ code.length ≤ (i ++ input).length) →
    f.decompress st input window (o.length % w) more = (status, n, made, st') →
      i ++ input.take n <+: code ∧ o ++ made <+: data ∧
        (status = .done ∧ i ++ input.take n = code ∧ o ++ made = data ∨
          status = .hasMoreOutput ∨
          status = .needsMoreInput ∧ (i ++ input).length < code.length)

end Inflater

/-! ### Compressing -/

inductive Flush
  | none
  | full
  | finish
  deriving DecidableEq

inductive CompressStatus
  | okay
  | done
  | failed (name : Str)
  deriving DecidableEq

/-- A streaming compressor. A call is given some input, and how many bytes it may
    make; it uses some of the input. -/
structure Compressor where
  State : Type
  init : State
  compress : State → (input : Bytes) → (room : ℕ) → Flush → CompressStatus × ℕ × Bytes × State
  used_le : ∀ {c input room flush status used made c'},
    compress c input room flush = (status, used, made, c') → used ≤ input.length
  made_le : ∀ {c input room flush status used made c'},
    compress c input room flush = (status, used, made, c') → made.length ≤ room
  /-- How many more calls can make progress. -/
  rank : State → Bytes → ℕ
  rank_lt : ∀ {c input room flush used made c'}, 0 < room →
    compress c input room flush = (.okay, used, made, c') →
    (flush = .finish ∨ used ≠ 0 ∨ made ≠ []) →
    (flush = .finish ∨ input.drop used ≠ [] ∨ room ≤ made.length) →
      rank c' (input.drop used) < rank c input

namespace Compressor

/-- Calls with a flush, and no input, none of which completed it, took the
    compressor from one state to another, and made some bytes. -/
inductive Flushing (C : Compressor) (flush : Flush) (c : C.State) : C.State → (out : Bytes) → Prop
  | start : Flushing C flush c c []
  | step {c₁ c₂ : C.State} {out made : Bytes} {room used : ℕ} (h : Flushing C flush c c₁ out)
      (hc : C.compress c₁ [] room flush = (.okay, used, made, c₂))
      (hr : flush = .full → room ≤ made.length) : Flushing C flush c c₂ (out ++ made)

/-- Calls took the compressor to a state; since the last complete full flush it
    has used `x` and made `out`. -/
inductive Fed (C : Compressor) : C.State → (x out : Bytes) → Prop
  | init : Fed C C.init [] []
  | step {c c' : C.State} {x out input made : Bytes} {room used : ℕ} (h : Fed C c x out)
      (hc : C.compress c input room .none = (.okay, used, made, c')) :
      Fed C c' (x ++ input.take used) (out ++ made)
  | reset {c c₁ c' : C.State} {x out flushed made : Bytes} {room used : ℕ} (h : Fed C c x out)
      (hf : Flushing C .full c c₁ flushed)
      (hc : C.compress c₁ [] room .full = (.okay, used, made, c')) (hr : made.length < room) :
      Fed C c' [] []

/-- Given `x` and nothing more, the compressor finished, having made `code` since
    the last complete full flush before `x`. -/
def Finished (C : Compressor) (x code : Bytes) : Prop :=
  ∃ c c₁ c' out flushed made room used, C.Fed c x out ∧ C.Flushing .finish c c₁ flushed ∧
    C.compress c₁ [] room .finish = (.done, used, made, c') ∧ code = out ++ flushed ++ made

/-- What the compressor makes is whole blocks up to a full flush and complete
    when it finishes; and it does not fail. -/
structure Makes (C : Compressor) (F : Format) : Prop where
  full : ∀ {c c₁ c' x out flushed made room used}, C.Fed c x out → C.Flushing .full c c₁ flushed →
    C.compress c₁ [] room .full = (.okay, used, made, c') → made.length < room →
      F.Segment (out ++ flushed ++ made) x
  finish : ∀ {x code}, C.Finished x code → F.Complete code x
  okay : ∀ {c c' x out input made room used status}, C.Fed c x out → 0 < room →
    C.compress c input room .none = (status, used, made, c') → status = .okay
  okay_flush : ∀ {c c₁ c' x out flushed made room used status} {flush : Flush}, C.Fed c x out →
    C.Flushing flush c c₁ flushed → 0 < room →
    C.compress c₁ [] room flush = (status, used, made, c') →
      status = .okay ∨ status = .done ∧ flush = .finish
  progress : ∀ {c c' x out input made room used}, C.Fed c x out → 0 < room →
    C.compress c input room .none = (.okay, used, made, c') → input ≠ [] → used ≠ 0 ∨ made ≠ []

/-! ### The parts of a stream -/

/-- Given `x`, the compressor completed a full flush, having made `code` since the
    last complete full flush before `x`. -/
def Flushed (C : Compressor) (x code : Bytes) : Prop :=
  ∃ c c₁ c' out flushed made room used, C.Fed c x out ∧ C.Flushing .full c c₁ flushed ∧
    C.compress c₁ [] room .full = (.okay, used, made, c') ∧ made.length < room ∧
      code = out ++ flushed ++ made

/-- A part of a stream, before its end: what the compressor made up to a full flush,
    or a stored block. -/
inductive Part (C : Compressor)
  | flushed (data code : Bytes) (h : C.Flushed data code)
  | stored (block : Bytes) (h : block.length < 2 ^ 16)

namespace Part

variable {C : Compressor}

def code : Part C → Bytes
  | .flushed _ code _ => code
  | .stored block _ => storedBlock block

def data : Part C → Bytes
  | .flushed data _ _ => data
  | .stored block _ => block

end Part

/-- Some parts, and what the compressor makes when it finishes. -/
def parts (C : Compressor) : Format where
  Segment code data := ∃ ps : List (Part C), code = ps.flatMap Part.code ∧ data = ps.flatMap Part.data
  Complete code data := ∃ (ps : List (Part C)) (x out : Bytes), C.Finished x out ∧
    code = ps.flatMap Part.code ++ out ∧ data = ps.flatMap Part.data ++ x
  segment_nil := ⟨[], rfl, rfl⟩
  segment_append := by
    rintro _ _ _ _ ⟨ps, rfl, rfl⟩ ⟨qs, rfl, rfl⟩
    exact ⟨ps ++ qs, List.flatMap_append.symm, List.flatMap_append.symm⟩
  append_complete := by
    rintro _ _ _ _ ⟨ps, rfl, rfl⟩ ⟨qs, x, out, hf, rfl, rfl⟩
    refine ⟨ps ++ qs, x, out, hf, ?_, ?_⟩ <;> rw [List.flatMap_append, List.append_assoc]
  stored h := ⟨[.stored _ h], (List.append_nil _).symm, (List.append_nil _).symm⟩

variable {C : Compressor} {F : Format}

/-- A compressor makes parts, if it makes anything. -/
theorem Makes.parts (h : C.Makes F) : C.Makes C.parts where
  full hfed hfl hc hr := ⟨[.flushed _ _ ⟨_, _, _, _, _, _, _, _, hfed, hfl, hc, hr, rfl⟩],
    (List.append_nil _).symm, (List.append_nil _).symm⟩
  finish hf := ⟨[], _, _, hf, rfl, rfl⟩
  okay := h.okay
  okay_flush := h.okay_flush
  progress := h.progress

/-- Parts are whole blocks that end with a byte. -/
theorem Makes.segment_parts (h : C.Makes F) (ps : List (Part C)) :
    F.Segment (ps.flatMap Part.code) (ps.flatMap Part.data) := by
  induction ps with
  | nil => exact F.segment_nil
  | cons p ps ih =>
    rw [List.flatMap_cons, List.flatMap_cons]
    refine F.segment_append ?_ ih
    rcases p with ⟨data, code, c, c₁, c', out, flushed, made, room, used, hfed, hfl, hc, hr, rfl⟩ |
      ⟨block, hb⟩
    · exact h.full hfed hfl hc hr
    · exact F.stored hb

end Compressor

end Deflate

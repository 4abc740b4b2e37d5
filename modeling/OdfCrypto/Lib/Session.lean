import OdfCrypto.Lib.Deflate

/-!
# Inflating a source

What an inflater makes of a source that is read in chunks of `c` bytes, into a
window of `w` bytes that is written round and round: it is called again and again
on what is left of a chunk, until it says that it is done.

* `ring`: the window after some output, with `ring_append`;
* `Inflater.Reaches`: how far the inflater has come since the start;
* `Inflater.Ends`: where the inflater, from some point on, is done.
-/

namespace Deflate

open ByteStream

/-! ### The window -/

/-- A window of zeros, written round and round. -/
def ring (w : ℕ) (o : Bytes) : Bytes :=
  o.zipIdx.foldl (fun window x => window.set (x.2 % w) x.1) (List.replicate w 0)

/-- Bytes can be written one at a time. -/
theorem overwrite_cons {window : Bytes} {pos : ℕ} (b : UInt8) (made : Bytes)
    (h : pos < window.length) :
    overwrite window pos (b :: made) = overwrite (window.set pos b) (pos + 1) made := by
  have htake : (window.set pos b).take (pos + 1) = window.take pos ++ [b] := by
    have hl : (window.take pos ++ [b]).length = pos + 1 := by
      rw [List.length_append, List.length_take_of_le h.le, List.length_singleton]
    rw [List.set_eq_take_append_cons_drop, if_pos h, List.append_cons, List.take_left' hl]
  rw [overwrite, overwrite, htake, List.drop_set_of_lt (by omega), List.length_cons,
    List.append_cons, Nat.add_assoc pos 1, Nat.add_comm 1]

theorem overwrite_nil (window : Bytes) (pos : ℕ) : overwrite window pos [] = window := by
  rw [overwrite, List.append_nil, List.length_nil, Nat.add_zero, List.take_append_drop]

/-- Bytes written from a position on, up to the end of the window at most. -/
theorem foldl_set {w : ℕ} {window made : Bytes} {k : ℕ} (hl : window.length = w)
    (h : k % w + made.length ≤ w) :
    (made.zipIdx k).foldl (fun window x => window.set (x.2 % w) x.1) window =
      overwrite window (k % w) made := by
  induction made generalizing window k with
  | nil => rw [overwrite_nil]; rfl
  | cons b made ih =>
    rw [List.length_cons] at h
    rw [List.zipIdx_cons, List.foldl_cons, overwrite_cons b made (by omega)]
    by_cases hm : made = []
    · rw [hm, overwrite_nil]
      rfl
    · have hpos := List.length_pos_iff.2 hm
      have hk : (k + 1) % w = k % w + 1 := by
        rw [Nat.add_mod, Nat.mod_eq_of_lt (show 1 < w by omega), Nat.mod_eq_of_lt (by omega)]
      rw [ih (by rw [List.length_set, hl]) (by omega), hk]

theorem length_ring (w : ℕ) (o : Bytes) : (ring w o).length = w := by
  have h : ∀ (xs : List (UInt8 × ℕ)) (window : Bytes), window.length = w →
      (xs.foldl (fun window x => window.set (x.2 % w) x.1) window).length = w := by
    intro xs
    induction xs with
    | nil => exact fun _ h => h
    | cons x xs ih => exact fun window h => ih _ (by rw [List.length_set, h])
  exact h _ _ List.length_replicate

/-- Some more output, written where the output has come to. -/
theorem ring_append {w : ℕ} {o made : Bytes} (h : o.length % w + made.length ≤ w) :
    ring w (o ++ made) = overwrite (ring w o) (o.length % w) made := by
  rw [ring, List.zipIdx_append, List.foldl_append, ← ring, Nat.zero_add]
  exact foldl_set (length_ring w o) h

/-! ### The source -/

section

variable (c : ℕ) (bytes : Bytes) (i : ℕ)

/-- From byte `i` on, what there is of the chunk that it is in. -/
def offered : Bytes := (bytes.drop i).take (c - i % c)

/-- Whether that chunk is a full one, so that there may be more. -/
def full : Bool := (i / c + 1) * c ≤ bytes.length

end

variable {c i n : ℕ} {bytes : Bytes}

theorem full_eq_true : full c bytes i = true ↔ (i / c + 1) * c ≤ bytes.length :=
  decide_eq_true_iff

/-- At the beginning of a chunk, what is offered is the chunk. -/
theorem offered_of_dvd (h : c ∣ i) : offered c bytes i = (bytes.drop i).take c := by
  rw [offered, Nat.mod_eq_zero_of_dvd h, Nat.sub_zero]

theorem full_of_dvd (hc : 0 < c) (h : c ∣ i) :
    full c bytes i = decide (c ≤ (bytes.drop i).length) := by
  rw [full, Nat.succ_mul, Nat.div_mul_cancel h, List.length_drop]
  refine decide_eq_decide.2 ?_
  omega

/-- There is always something left of a full chunk. -/
theorem full_of_offered_nil (hc : 0 < c) (h : offered c bytes i = []) : full c bytes i = false := by
  have hlt : i % c < c := Nat.mod_lt _ hc
  have hdiv := Nat.div_add_mod i c
  have hlen := congrArg List.length h
  rw [offered, List.length_take, List.length_drop, List.length_nil] at hlen
  rw [Bool.eq_false_iff, ne_eq, full_eq_true, Nat.succ_mul, Nat.mul_comm]
  omega

theorem offered_take (h : n ≤ (offered c bytes i).length) :
    (offered c bytes i).take n = (bytes.drop i).take n := by
  rw [offered, List.length_take] at h
  rw [offered, List.take_take, Nat.min_eq_left (by omega)]

/-- Within a chunk, what is used is dropped. -/
theorem div_add_of_lt (h : i % c + n < c) : (i + n) / c = i / c ∧ (i + n) % c = i % c + n := by
  have hn : n % c = n := Nat.mod_eq_of_lt (by omega)
  refine ⟨?_, ?_⟩
  · rw [Nat.add_div (by omega), hn, if_neg (by omega), Nat.div_eq_of_lt (by omega : n < c)]
    rfl
  · rw [Nat.add_mod, hn, Nat.mod_eq_of_lt h]

theorem offered_add (h : i % c + n < c) :
    offered c bytes (i + n) = (offered c bytes i).drop n := by
  rw [offered, offered, (div_add_of_lt h).2, List.drop_take, List.drop_drop, Nat.sub_sub]

theorem full_add (h : i % c + n < c) : full c bytes (i + n) = full c bytes i := by
  rw [full, full, (div_add_of_lt h).1]

/-- A call can use a chunk up, which is a full one then. -/
theorem add_eq_of_le (hc : 0 < c) (h : c ≤ i % c + n) (hn : n ≤ (offered c bytes i).length) :
    i + n = (i / c + 1) * c ∧ (offered c bytes i).drop n = [] ∧ full c bytes i = true := by
  have hlt : i % c < c := Nat.mod_lt _ hc
  have hdiv := Nat.div_add_mod i c
  rw [offered, List.length_take, List.length_drop] at hn
  refine ⟨?_, List.drop_eq_nil_of_le ?_, full_eq_true.2 ?_⟩
  · rw [Nat.succ_mul, Nat.mul_comm]
    omega
  · rw [offered, List.length_take]
    omega
  · rw [Nat.succ_mul, Nat.mul_comm]
    omega

namespace Inflater

variable (f : Inflater) (c w : ℕ) (bytes : Bytes)

/-- A call of the inflater that has consumed `i` bytes of the source, and made `o`. -/
def callAt (st : f.State) (i : ℕ) (o : Bytes) : InflateStatus × ℕ × Bytes × f.State :=
  f.decompress st (offered c bytes i) (ring w o) (o.length % w) (full c bytes i)

/-- A call after which there is another one: the inflater has not ended, and does not
    wait for more when there is no more. -/
def GoesOn (i n : ℕ) (made : Bytes) : InflateStatus → Prop
  | .hasMoreOutput => True
  | .needsMoreInput => full c bytes i = false → n = (offered c bytes i).length → made ≠ []
  | _ => False

variable (fails : Bool)

/-- Calls took the inflater from its start to a state, consuming `i` bytes of the
    source and making `o`. A source that `fails` does so in place of a chunk that is
    not full. -/
inductive Reaches : f.State → (i : ℕ) → (o : Bytes) → Prop
  | init : Reaches f.init 0 []
  | step {st st' : f.State} {i n : ℕ} {o made : Bytes} {status : InflateStatus}
      (h : Reaches st i o) (hr : fails = true → full c bytes i = true)
      (hc : f.callAt c w bytes st i o = (status, n, made, st'))
      (hg : GoesOn c bytes i n made status) : Reaches st' (i + n) (o ++ made)

/-- From a state on, the inflater comes to say that it is done, having consumed `i'`
    bytes of the source, and made `o'`. -/
inductive Ends (i' : ℕ) (o' : Bytes) : f.State → (i : ℕ) → (o : Bytes) → Prop
  | done {st st' : f.State} {i n : ℕ} {o made : Bytes} (hr : fails = true → full c bytes i = true)
      (hc : f.callAt c w bytes st i o = (.done, n, made, st')) (hi : i' = i + n)
      (ho : o' = o ++ made) : Ends i' o' st i o
  | step {st st' : f.State} {i n : ℕ} {o made : Bytes} {status : InflateStatus}
      (hr : fails = true → full c bytes i = true)
      (hc : f.callAt c w bytes st i o = (status, n, made, st'))
      (hg : GoesOn c bytes i n made status) (h : Ends i' o' st' (i + n) (o ++ made)) :
      Ends i' o' st i o

/-- The inflater reaches the end of a stream, having consumed `i` bytes of the source,
    and made `o`. -/
def EndsAt (i : ℕ) (o : Bytes) : Prop := f.Ends c w bytes fails i o f.init 0 []

variable {f c w bytes fails} {st : f.State} {i i' : ℕ} {o o' : Bytes}

/-- Where the inflater is done from a point that it reaches, it is done from the start. -/
theorem Reaches.endsAt (h : f.Reaches c w bytes fails st i o)
    (he : f.Ends c w bytes fails i' o' st i o) : f.EndsAt c w bytes fails i' o' := by
  induction h with
  | init => exact he
  | step _ hr hc hg ih => exact ih (.step hr hc hg he)

/-- An end is reached by the next call, or from after it. -/
theorem Ends.next {st' : f.State} {n : ℕ} {made : Bytes} {status : InflateStatus}
    (h : f.Ends c w bytes fails i' o' st i o)
    (hc : f.callAt c w bytes st i o = (status, n, made, st')) :
    (fails = true → full c bytes i = true) ∧
      (status = .done ∧ i' = i + n ∧ o' = o ++ made ∨
        GoesOn c bytes i n made status ∧
          f.Ends c w bytes fails i' o' st' (i + n) (o ++ made)) := by
  rcases h with ⟨hr, hc', hi, ho⟩ | ⟨hr, hc', hg, h⟩ <;> cases hc'.symm.trans hc
  · exact ⟨hr, .inl ⟨rfl, hi, ho⟩⟩
  · exact ⟨hr, .inr ⟨hg, h⟩⟩

/-- There is one end at most. -/
theorem Ends.unique {i₁ i₂ : ℕ} {o₁ o₂ : Bytes} (h₁ : f.Ends c w bytes fails i₁ o₁ st i o)
    (h₂ : f.Ends c w bytes fails i₂ o₂ st i o) : i₁ = i₂ ∧ o₁ = o₂ := by
  induction h₁ with
  | done _ hc hi ho =>
    rcases (h₂.next hc).2 with ⟨-, hi', ho'⟩ | ⟨hg, -⟩
    · exact ⟨hi.trans hi'.symm, ho.trans ho'.symm⟩
    · exact hg.elim
  | step _ hc hg _ ih =>
    rcases (h₂.next hc).2 with ⟨rfl, -, -⟩ | ⟨-, h⟩
    · exact hg.elim
    · exact ih h

/-- What was made before is the beginning of what is made in all. -/
theorem Ends.isPrefix (h : f.Ends c w bytes fails i' o' st i o) : o <+: o' := by
  induction h with
  | done _ _ _ ho => exact ho ▸ List.prefix_append _ _
  | step _ _ _ _ ih => exact (List.prefix_append _ _).trans ih

end Inflater

end Deflate

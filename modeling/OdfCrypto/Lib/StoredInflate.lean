import OdfCrypto.Lib.StoredDeflate

/-!
# An inflater of stored blocks

The streams of `Stored.format`, read byte by byte.

* `Stored.Phase`: where in a stream the next byte stands, and `Stored.scan`: what some
  bytes come to from there;
* `Stored.blockInflater`, with `Stored.blockInflater_undoes`: it makes what a complete
  stream encodes, however it is given the stream.
-/

namespace Deflate.Stored

open ByteStream Text

/-- Where in a stream the next byte stands. -/
inductive Phase
  | header
  | low
  | high (b₀ : UInt8)
  | check (more : Bool) (left : ℕ)
  | block (left : ℕ)
  | last
  | done
  | bad
  deriving DecidableEq

/-- A block of which so much is left, or the next header. -/
def Phase.ofLeft : ℕ → Phase
  | 0 => .header
  | n + 1 => .block n

/-- What one byte comes to: where the next one stands, and the byte of a block. -/
def Phase.next : Phase → UInt8 → Phase × Option UInt8
  | .header, b => (if b = 0 then .low else if b = 3 then .last else .bad, none)
  | .low, b => (.high b, none)
  | .high b₀, b => (.check true (b₀.toNat + 2 ^ 8 * b.toNat), none)
  | .check true left, _ => (.check false left, none)
  | .check false left, _ => (.ofLeft left, none)
  | .block left, b => (.ofLeft left, some b)
  | .last, b => (if b = 0 then .done else .bad, none)
  | .done, _ => (.bad, none)
  | .bad, _ => (.bad, none)

/-- What some bytes come to. -/
def scan : Phase → Bytes → Bytes × Phase
  | p, [] => ([], p)
  | p, b :: bs => ((p.next b).2.toList ++ (scan (p.next b).1 bs).1, (scan (p.next b).1 bs).2)

@[simp] theorem scan_nil (p : Phase) : scan p [] = ([], p) := rfl

@[simp] theorem scan_append (p : Phase) (a b : Bytes) :
    scan p (a ++ b) = ((scan p a).1 ++ (scan (scan p a).2 b).1, (scan (scan p a).2 b).2) := by
  induction a generalizing p with
  | nil => rfl
  | cons c a ih => simp only [List.cons_append, scan, ih, List.append_assoc]

/-- Nothing comes of a stream that has gone wrong. -/
theorem scan_bad (bs : Bytes) : scan .bad bs = ([], .bad) := by
  induction bs with
  | nil => rfl
  | cons b bs ih => simp only [scan, Phase.next, ih, Option.toList_none, List.nil_append]

/-- A stream goes wrong beyond its end. -/
theorem scan_done {bs : Bytes} (h : bs ≠ []) : (scan .done bs).2 = .bad := by
  obtain ⟨b, bs, rfl⟩ := List.exists_cons_of_ne_nil h
  simp only [scan, Phase.next, scan_bad]

theorem scan_left (block rest : Bytes) :
    scan (.ofLeft block.length) (block ++ rest) =
      (block ++ (scan .header rest).1, (scan .header rest).2) := by
  induction block with
  | nil => rfl
  | cons b block ih =>
    rw [List.length_cons, List.cons_append, Phase.ofLeft, scan]
    simp only [Phase.next, ih, Option.toList_some, List.cons_append, List.nil_append]

theorem le16_toNat {n : ℕ} (h : n < 2 ^ 16) :
    (UInt8.ofNat n).toNat + 2 ^ 8 * (UInt8.ofNat (n / 2 ^ 8)).toNat = n := by
  rw [UInt8.toNat_ofNat', UInt8.toNat_ofNat', Nat.mod_eq_of_lt (a := n / 2 ^ 8) (by omega)]
  omega

theorem scan_storedBlock {block : Bytes} (h : block.length < 2 ^ 16) (rest : Bytes) :
    scan .header (storedBlock block ++ rest) =
      (block ++ (scan .header rest).1, (scan .header rest).2) := by
  rw [← scan_left]
  simp only [storedBlock, le16, List.cons_append, List.nil_append, scan, Phase.next, if_true,
    Option.toList_none, le16_toNat h]

/-- A complete stream comes to what it encodes, and to its end. -/
theorem scan_complete {code data : Bytes} (h : Complete code data) :
    scan .header code = (data, .done) := by
  obtain ⟨seg, ⟨blocks, hb, rfl, rfl⟩, rfl⟩ := h
  induction blocks with
  | nil => rfl
  | cons block blocks ih =>
    rw [List.flatMap_cons, List.append_assoc, scan_storedBlock (hb block List.mem_cons_self),
      ih fun b hm => hb b (List.mem_cons_of_mem _ hm), List.flatten_cons]

/-! ### Within some room -/

/-- Scan until the end of the stream, or until there is no room for a byte: how much was
    used, what was made, and where the next byte stands. -/
def scanWithin : (room : ℕ) → Phase → Bytes → ℕ × Bytes × Phase
  | _, p, [] => (0, [], p)
  | room, p, b :: bs =>
    if p = .done then (0, [], p)
    else
      match (p.next b).2, room with
      | none, room =>
        let (n, made, p') := scanWithin room (p.next b).1 bs
        (n + 1, made, p')
      | some _, 0 => (0, [], p)
      | some c, room + 1 =>
        let (n, made, p') := scanWithin room (p.next b).1 bs
        (n + 1, c :: made, p')

/-- What was scanned within some room. -/
structure Scanned (room : ℕ) (p : Phase) (bs : Bytes) (n : ℕ) (made : Bytes) (p' : Phase) :
    Prop where
  used : n ≤ bs.length
  scan : Stored.scan p (bs.take n) = (made, p')
  fits : made.length ≤ room
  /-- The stream was not at its end before. -/
  before : ∀ k < n, (Stored.scan p (bs.take k)).2 ≠ .done
  stopped : n = bs.length ∨ p' = .done ∨ made.length = room

theorem Scanned.nil {room : ℕ} {p : Phase} {bs : Bytes} (h : bs = [] ∨ p = .done ∨ room = 0) :
    Scanned room p bs 0 [] p where
  used := Nat.zero_le _
  scan := rfl
  fits := Nat.zero_le _
  before _ hk := absurd hk (Nat.not_lt_zero _)
  stopped := by
    rcases h with rfl | h | rfl
    · exact .inl rfl
    · exact .inr (.inl h)
    · exact .inr (.inr rfl)

theorem Scanned.cons {room n : ℕ} {p p' : Phase} {b : UInt8} {bs made : Bytes}
    (h : Scanned room (p.next b).1 bs n made p') (hp : p ≠ .done) :
    Scanned (room + (p.next b).2.toList.length) p (b :: bs) (n + 1) ((p.next b).2.toList ++ made)
      p' where
  used := Nat.succ_le_succ h.used
  scan := by rw [List.take_succ_cons, Stored.scan, h.scan]
  fits := by
    have := h.fits
    rw [List.length_append]
    omega
  before := by
    rintro (- | k) hk
    · exact hp
    · rw [List.take_succ_cons]
      exact h.before k (Nat.lt_of_succ_lt_succ hk)
  stopped := by
    rcases h.stopped with h | h | h
    · exact .inl (by rw [List.length_cons, h])
    · exact .inr (.inl h)
    · exact .inr (.inr (by rw [List.length_append, h, Nat.add_comm]))

theorem scanned (room : ℕ) (p : Phase) (bs : Bytes) :
    Scanned room p bs (scanWithin room p bs).1 (scanWithin room p bs).2.1
      (scanWithin room p bs).2.2 := by
  induction bs generalizing room p with
  | nil => exact .nil (.inl rfl)
  | cons b bs ih =>
    by_cases hp : p = .done
    · simpa only [scanWithin, if_pos hp] using .nil (.inr (.inl hp))
    rcases hc : (p.next b).2 with - | c
    · have h := (ih room (p.next b).1).cons hp
      rw [hc] at h
      simp only [scanWithin, if_neg hp, hc]
      exact h
    rcases room with - | room
    · simpa only [scanWithin, if_neg hp, hc] using .nil (.inr (.inr rfl))
    · have h := (ih room (p.next b).1).cons hp
      rw [hc] at h
      simp only [scanWithin, if_neg hp, hc]
      exact h

/-! ### The inflater -/

/-- What a call on so much input comes to, by what was scanned of it. -/
def blockStatus (inputLen n : ℕ) (made : Bytes) (p : Phase) : InflateStatus :=
  if p = .done then .done
  else if p = .bad then .failed (ascii "Failed")
  else if n = inputLen then .needsMoreInput
  else if made = [] then .failed (ascii "Failed")
  else .hasMoreOutput

theorem blockStatus_goes_on {inputLen n : ℕ} {made : Bytes} {p : Phase}
    (h : blockStatus inputLen n made p = .needsMoreInput ∨
      blockStatus inputLen n made p = .hasMoreOutput) : p ≠ .done ∧ p ≠ .bad := by
  unfold blockStatus at h
  split_ifs at h with h1 h2
  · obtain h | h := h <;> cases h
  · obtain h | h := h <;> cases h
  all_goals exact ⟨h1, h2⟩

/-- An inflater of stored blocks. -/
def blockInflater : Inflater where
  State := Phase
  init := .header
  decompress p input window outPos _ :=
    let (n, made, p') := scanWithin (window.length - outPos) p input
    (blockStatus input.length n made p', n, made, p')
  consumed_le {st input window outPos more status n made st'} h := by
    cases h
    exact (scanned (window.length - outPos) st input).used
  made_le {st input window outPos more status n made st'} hle h := by
    cases h
    have hfits := (scanned (window.length - outPos) st input).fits
    exact (Nat.add_le_add_left hfits _).trans (Nat.add_sub_cancel' hle).le
  progress {st input window outPos more status n made st'} _ h hs := by
    cases h
    unfold blockStatus at hs
    by_contra hn
    rw [not_or, not_not, not_not] at hn
    rw [hn.1, hn.2, if_pos (rfl : ([] : Bytes) = [])] at hs
    split_ifs at hs with h1 h2 h3 <;> obtain hs | ⟨hs, hne⟩ := hs <;> cases hs
    exact hne (List.length_eq_zero_iff.1 h3.symm)

instance : DecidableEq blockInflater.State := inferInstanceAs (DecidableEq Phase)

/-- What the inflater has consumed comes to what it has made, and to where it stands. -/
theorem scan_ran {w : ℕ} {p : blockInflater.State} {i o : Bytes} (h : blockInflater.Ran w p i o) :
    scan .header i = (o, p) ∧ p ≠ Phase.done ∧ p ≠ Phase.bad := by
  induction h with
  | init => exact ⟨rfl, Phase.noConfusion, Phase.noConfusion⟩
  | @step st st' i o input window made more n status _ _ _ hd hs ih =>
    obtain ⟨hscan, -⟩ := ih
    cases hd
    have hin := (scanned (window.length - o.length % w) st input).scan
    refine ⟨?_, blockStatus_goes_on hs⟩
    rw [scan_append, hscan]
    exact congrArg (fun x => (o ++ x.1, x.2)) hin

/-- A prefix of what a stream scans to its end is not beyond it. -/
theorem scan_prefix {code data t : Bytes} (hcode : scan .header code = (data, .done))
    (ht : t <+: code) : (scan .header t).2 ≠ .bad ∧ ((scan .header t).2 = .done → t = code) := by
  obtain ⟨more, rfl⟩ := ht
  rw [scan_append] at hcode
  have hend : (scan (scan .header t).2 more).2 = .done := congrArg Prod.snd hcode
  constructor
  · intro h
    rw [h, scan_bad] at hend
    cases hend
  · intro h
    by_contra hne
    have hmore : more ≠ [] := by
      rintro rfl
      exact hne (List.append_nil t).symm
    rw [h, scan_done hmore] at hend
    cases hend

theorem blockInflater_undoes {w : ℕ} (hw : 0 < w) : blockInflater.Undoes format w := by
  intro st st' i o input window made more n status code data rest hran hlen _ hcomplete hin _ hd
  obtain ⟨hscan, hdone, hgood⟩ := scan_ran hran
  have hcode : scan .header code = (data, .done) := scan_complete hcomplete
  cases hd
  have hs := scanned (window.length - o.length % w) st input
  rcases hsw : scanWithin (window.length - o.length % w) st input with ⟨n, made, p⟩
  rw [hsw] at hs
  dsimp only at hs ⊢
  have ht : scan .header (i ++ input.take n) = (o ++ made, p) := by
    rw [scan_append, hscan]
    exact congrArg (fun x => (o ++ x.1, x.2)) hs.scan
  have hpre : i ++ input.take n <+: code ++ rest :=
    (List.prefix_append_right_inj i |>.2 (List.take_prefix n input)).trans hin
  -- the scan stops at the end of the stream, so it has not gone beyond it
  have hcodepre : i ++ input.take n <+: code := by
    rcases List.prefix_or_prefix_of_prefix hpre (List.prefix_append code rest) with h | h
    · exact h
    rcases List.prefix_or_prefix_of_prefix (List.prefix_append i _) h with ⟨y, rfl⟩ | ⟨y, rfl⟩
    · rw [List.prefix_append_right_inj] at h
      rcases h.length_le.lt_or_eq with hlt | heq
      · rw [List.length_take_of_le hs.used] at hlt
        refine absurd ?_ (hs.before _ hlt)
        rw [scan_append, hscan] at hcode
        rw [List.prefix_iff_eq_take.1 (h.trans (List.take_prefix n input))] at hcode
        exact congrArg Prod.snd hcode
      · rw [h.eq_of_length heq]
    · rw [scan_append, hcode] at hscan
      rcases y with - | ⟨b, y⟩
      · exact absurd (congrArg Prod.snd hscan).symm hdone
      · refine absurd ((congrArg Prod.snd hscan).symm.trans ?_) hgood
        exact scan_done (List.cons_ne_nil b y)
  obtain ⟨hbad, hend⟩ := scan_prefix hcode hcodepre
  rw [ht] at hbad hend
  refine ⟨hcodepre, ?_, ?_⟩
  · obtain ⟨rem, rfl⟩ := hcodepre
    rw [scan_append, ht] at hcode
    exact ⟨_, congrArg Prod.fst hcode⟩
  unfold blockStatus
  by_cases hp : p = .done
  · obtain heq := hend hp
    rw [heq, hcode] at ht
    exact .inl ⟨if_pos hp, heq, (congrArg Prod.fst ht).symm⟩
  rw [if_neg hp, if_neg hbad]
  by_cases hn : n = input.length
  · refine .inr (.inr ⟨if_pos hn, ?_⟩)
    rw [hn, List.take_length] at hcodepre ht
    refine lt_of_le_of_ne hcodepre.length_le fun heq => hp ?_
    rw [hcodepre.eq_of_length heq, hcode] at ht
    exact (congrArg Prod.snd ht).symm
  · -- there is room in the window, so something was made
    have hroom : made.length = window.length - o.length % w :=
      (hs.stopped.resolve_left hn).resolve_left hp
    have hlt : o.length % w < w := Nat.mod_lt _ hw
    have hmade : made ≠ [] := List.ne_nil_of_length_pos (by omega)
    rw [if_neg hn, if_neg hmade]
    exact .inr (.inl rfl)

end Deflate.Stored

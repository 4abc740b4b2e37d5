import OdfCrypto.Stream.Legacy.Cbc
import OdfCrypto.Stream.Legacy.Gate

/-!
# What the legacy readers present

However a member that is not AES-GCM is read, what is handed out of it is its
ciphertext deciphered at once: by `BlowfishDecryptReader`, by either reader as a
`LegacyReader`, and past a `ChecksumGate` whose first window has the checksum.

* `BlowfishDecryptReader.presents`, `LegacyReader.presents_cbc`,
  `LegacyReader.presents_blowfish`: the readers;
* `ChecksumGate.presents`: the gate.
-/

namespace OdfCrypto

open ByteStream BlockModes

/-- Two reads with the same result hand over the same. -/
theorem Hands.congr {ρ σ ε : Type} [IsError ε] [Read ρ ε] [Read σ ε] {r : ρ} {d : σ} {n : ℕ}
    {e : Option ε} {rest : Bytes} (h : Hands r n e rest) (hread : (read d n).1 = (read r n).1) :
    Hands d n e rest := by
  rcases rest with - | ⟨b, rest⟩
  · rcases e with - | err
    · obtain ⟨r', hr⟩ := h
      exact ⟨_, Prod.ext (hread.trans (congrArg Prod.fst hr)) rfl⟩
    · obtain ⟨hi, r', hr⟩ := h
      exact ⟨hi, _, Prod.ext (hread.trans (congrArg Prod.fst hr)) rfl⟩
  · obtain ⟨piece, r', hr, hne, hpre⟩ := h
    exact ⟨piece, _, Prod.ext (hread.trans (congrArg Prod.fst hr)) rfl, hne, hpre⟩

variable {P : Prims} {ρ : Type} [Read ρ IoError]

namespace BlowfishDecryptReader

/-- However it is read, and however its source hands over the ciphertext, a reader
    presents the ciphertext deciphered, from the state it is in. -/
theorem presents {d : BlowfishDecryptReader P ρ} {ct : Bytes} {e : Option IoError}
    (hs : Presents d.src ct e) :
    Presents d (cfbDecrypt (P.blowfish d.key) blowfishIvLen d.dec ct).1 e := by
  -- The invariant: the source presents some ciphertext, and what is left is its
  -- decryption from the state.
  refine Presents.of_invariant (fun d rest => ∃ ct, Presents d.src ct e ∧
    rest = (cfbDecrypt (P.blowfish d.key) blowfishIvLen d.dec ct).1) ?_ ?_ ?_ ⟨ct, hs, rfl⟩
  · rintro d rest ⟨ct, hs, rfl⟩ n hn
    rcases ct with - | ⟨c, ct⟩
    · rcases e with - | err
      · obtain ⟨src, hr, -⟩ := hs.read_nil hn
        exact ⟨_, show d.next n = _ by rw [next, hr]; rfl⟩
      · obtain ⟨hi, src, hr⟩ := hs.read_error hn
        exact ⟨hi, _, show d.next n = _ by rw [next, hr]⟩
    · obtain ⟨piece, rest, src, hr, hne, hcut, -⟩ := hs.read_cons hn (List.cons_ne_nil c ct)
      have hnext : d.next n = (.ok (cfbDecrypt (P.blowfish d.key) blowfishIvLen d.dec piece).1, { d with
          src, dec := (cfbDecrypt (P.blowfish d.key) blowfishIvLen d.dec piece).2 }) := by rw [next, hr]
      rw [hcut, cfbDecrypt_append]
      obtain ⟨b, plain, hplain⟩ : ∃ b plain,
          (cfbDecrypt (P.blowfish d.key) blowfishIvLen d.dec piece).1 = b :: plain :=
        List.exists_cons_of_length_pos (by rw [length_cfbDecrypt]; exact List.length_pos_iff.2 hne)
      rw [hplain] at hnext ⊢
      exact ⟨_, _, hnext, List.cons_ne_nil _ _, List.prefix_append _ _⟩
  · rintro d rest n piece d' ⟨ct, hs, rfl⟩ hr
    obtain ⟨bs, hread, rfl, hd⟩ := next_ok hr
    obtain ⟨rest, rfl, hs'⟩ := hs.reads (.single hread)
    refine ⟨_, by rw [cfbDecrypt_append], rest, hs', ?_⟩
    rw [hd]
  · rintro d rest n err d' ⟨ct, hs, rfl⟩ hr hi
    obtain ⟨hread, hd⟩ := next_error hr
    obtain ⟨rest, hcut, hs'⟩ := hs.reads (.retry hread hi (.refl _))
    obtain rfl : ct = rest := hcut
    exact ⟨ct, hs', by rw [hd]⟩

end BlowfishDecryptReader

namespace CbcDecryptReader

/-- A reader that is not at the end of a ciphertext whose source is to fail. -/
structure Starving (d : CbcDecryptReader P ρ) (err : IoError) : Prop where
  finished : d.finished = false
  inBuffer : d.InBuffer
  chain : d.chain.length = aesBlockLen
  held : (d.held.getD []).length = d.off
  src : ∃ rest, Presents d.src rest (some err)

variable {d d' : CbcDecryptReader P ρ} {err : IoError} {b : Bool} {n : ℕ} {bs : Bytes}

theorem Starving.new {src : ρ} {key iv rest : Bytes} (hs : Presents src rest (some err))
    (hiv : iv.length = aesBlockLen) :
    Starving ({ src, key, chain := iv } : CbcDecryptReader P ρ) err where
  finished := rfl
  inBuffer := ⟨le_rfl, le_rfl⟩
  chain := hiv
  held := rfl
  src := ⟨rest, hs⟩

theorem Starving.handOut (h : Starving d err) (n : ℕ) : Starving (d.handOut n).2 err where
  finished := h.finished
  inBuffer := by
    obtain ⟨h1, h2⟩ := h.inBuffer
    refine ⟨?_, h2⟩
    simp only [CbcDecryptReader.handOut]
    omega
  chain := h.chain
  held := h.held
  src := h.src

section

variable (hD : ∀ key block, (P.aesInverse key block).length = aesBlockLen)

include hD

/-- A refill does not finish: it reads a full buffer, of which the last block is held
    back. -/
theorem Starving.refill (h : Starving d err) (hr : d.refill = (.ok b, d')) :
    b = true ∧ Starving d' err := by
  have hb : b = true := by
    rw [← Bool.not_eq_false]
    rintro rfl
    have hfin := (refill_false hr).1
    rw [h.finished] at hfin
    cases hfin
  subst hb
  refine ⟨rfl, ?_⟩
  obtain ⟨-, ct, src, hread, hdvd, -, hcases⟩ := refill_true hr
  obtain ⟨rest, hs⟩ := h.src
  -- the buffer is full, as the source fails before its end
  have hle : d.room ≤ rest.length := by
    rw [← Nat.not_lt]
    intro hlt
    obtain ⟨r', hfail⟩ := hs.readFull_error hlt
    cases hread.symm.trans hfail
  obtain ⟨src', hfull, hs'⟩ := hs.readFull_le hle
  obtain ⟨hct, rfl⟩ := Prod.mk.inj (hread.symm.trans hfull)
  obtain rfl := Except.ok.inj hct
  have hlen : (rest.take d.room).length = d.room := List.length_take_of_le hle
  obtain ⟨hlt, -⟩ | ⟨-, rfl⟩ := hcases
  · rw [hlen] at hlt
    exact absurd hlt (Nat.lt_irrefl _)
  have hblock : aesBlockLen ≤ d.room := by
    unfold room off
    split <;> decide
  have hbuf : (d.held.getD [] ++ cbcDecrypt (P.aesInverse d.key) aesBlockLen d.chain
      (rest.take d.room)).length = d.off + d.room := by
    rw [List.length_append, h.held, length_cbcDecrypt (by decide) (hD d.key) h.chain hdvd, hlen]
  refine ⟨h.finished, ⟨Nat.zero_le _, ?_⟩, length_cbcChain (by decide) h.chain hdvd, ?_, _, hs'⟩
  · rw [holdBack, hbuf, hlen]
    exact Nat.sub_le _ _
  · show ((List.drop _ _).take aesBlockLen).length = aesBlockLen
    rw [List.length_take, List.length_drop, hbuf, hlen]
    omega

/-- A read hands out something, and the source is still to fail. -/
theorem Starving.next (h : Starving d err) (hr : d.next n = (.ok bs, d')) :
    Starving d' err ∧ (0 < n → bs ≠ []) := by
  refine Loop.run_induct (l := readLoop n) (s := d) (fun d₁ => Starving d₁ err)
    (P := fun b => ∀ bs d', b = (.ok bs, d') → Starving d' err ∧ (0 < n → bs ≠ [])) h ?_ ?_ bs d' hr
  · intro d₁ d₂ h₁ hs
    simp only [readLoop, readStep] at hs
    split at hs
    · split at hs
      · cases hs
      · cases hs
      · next hrefill =>
        cases hs
        exact (h₁.refill hD hrefill).2
    · cases hs
  · intro d₁ b h₁ hs bs d' hb
    subst hb
    simp only [readLoop, readStep] at hs
    split at hs
    · split at hs
      · cases hs
      · next hrefill => cases (h₁.refill hD hrefill).1
      · cases hs
    · next hne =>
      cases hs
      exact ⟨h₁.handOut n, fun hn => handOut_ne_nil h₁.inBuffer hn hne⟩

theorem Starving.reads (hr : Reads d bs d') (h : Starving d err) : Starving d' err := by
  induction hr with
  | refl _ => exact h
  | ok hread _ ih => exact ih (h.next hD hread).1
  | retry hread hi => rw [next_error hread] at hi; cases hi

/-- Where a reader comes to its end, its source does. -/
theorem src_ends {src : ρ} {key iv ct : Bytes} {e : Option IoError}
    (hnew : CbcDecryptReader.new P src key iv = .ok d) (hs : Presents src ct e)
    {d₁ : CbcDecryptReader P ρ}
    (hr : Reads d bs d₁) (hend : read d₁ n = (.ok [], d')) (hn : 0 < n) : e = none := by
  obtain ⟨rfl, hiv⟩ := new_ok hnew
  rcases e with - | err
  · rfl
  · have hstarving := Starving.reads hD hr (.new hs hiv)
    exact absurd rfl ((hstarving.next hD hend).2 hn)

end

end CbcDecryptReader

namespace LegacyReader

variable {bs : Bytes} {e : Option IoError}

/-- A reader of either cipher presents what the reader of that cipher does. -/
theorem presents_of {σ : Type} [Read σ IoError] {wrap : σ → LegacyReader P ρ}
    (hread : ∀ c n, read (wrap c) n = ((read c n).1, wrap (read c n).2)) {c : σ}
    (h : Presents c bs e) : Presents (wrap c) bs e := by
  refine Presents.of_invariant (fun d rest => ∃ c, d = wrap c ∧ Presents c rest e) ?_ ?_ ?_
    ⟨c, rfl, h⟩
  · rintro d rest ⟨c, rfl, hc⟩ n hn
    exact Hands.congr (hc.hands hn) (by rw [hread])
  · rintro d rest n piece d' ⟨c, rfl, hc⟩ hr
    rw [hread] at hr
    obtain ⟨hok, rfl⟩ := Prod.mk.inj hr
    obtain ⟨left, rfl, hc'⟩ := hc.reads (.single (Prod.ext hok rfl : read c n = (.ok piece, _)))
    exact ⟨left, rfl, _, rfl, hc'⟩
  · rintro d rest n err d' ⟨c, rfl, hc⟩ hr hi
    rw [hread] at hr
    obtain ⟨herr, rfl⟩ := Prod.mk.inj hr
    obtain ⟨left, hcut, hc'⟩ :=
      hc.reads (.retry (Prod.ext herr rfl : read c n = (.error err, _)) hi (.refl _))
    obtain rfl : rest = left := hcut
    exact ⟨_, rfl, hc'⟩

/-- Reads of a reader of either cipher are reads of the reader of that cipher. -/
theorem reads_of {σ : Type} [Read σ IoError] {wrap : σ → LegacyReader P ρ}
    (hread : ∀ c n, read (wrap c) n = ((read c n).1, wrap (read c n).2)) {c : σ}
    {d : LegacyReader P ρ} (h : Reads (wrap c) bs d) : ∃ c', d = wrap c' ∧ Reads c bs c' := by
  generalize hc : wrap c = d₀ at h
  induction h generalizing c with
  | refl _ => exact ⟨c, hc.symm, .refl c⟩
  | ok hr _ ih =>
    subst hc
    rw [hread] at hr
    obtain ⟨hok, rfl⟩ := Prod.mk.inj hr
    obtain ⟨c', hd, hrest⟩ := ih rfl
    exact ⟨c', hd, .ok (Prod.ext hok rfl : read c _ = (.ok _, _)) hrest⟩
  | retry hr hi _ ih =>
    subst hc
    rw [hread] at hr
    obtain ⟨herr, rfl⟩ := Prod.mk.inj hr
    obtain ⟨c', hd, hrest⟩ := ih rfl
    exact ⟨c', hd, .retry (Prod.ext herr rfl : read c _ = (.error _, _)) hi hrest⟩

theorem presents_cbc {d : CbcDecryptReader P ρ} (h : Presents d bs e) :
    Presents (.cbc d : LegacyReader P ρ) bs e :=
  presents_of (fun _ _ => rfl) h

theorem presents_blowfish {d : BlowfishDecryptReader P ρ} (h : Presents d bs e) :
    Presents (.blowfish d : LegacyReader P ρ) bs e :=
  presents_of (fun _ _ => rfl) h

end LegacyReader

namespace ChecksumGate

variable {g g' : ChecksumGate P ρ} {rest : Bytes} {e : Option IoError}

theorem verify_reads (h : g.verify = (.ok (), g')) : ∃ cs, Reads g.src cs g'.src := by
  obtain ⟨-, rfl⟩ | ⟨window, src, hr, -, rfl⟩ := verify_ok h
  · exact ⟨[], .refl _⟩
  · exact ⟨window, (readFull_reads hr).1⟩

theorem readOn_reads {n : ℕ} {bs : Bytes} (h : g.readOn n = (.ok bs, g')) :
    ∃ cs, Reads g.src cs g'.src := by
  rw [readOn] at h
  split at h
  · cases h
    exact ⟨[], .refl _⟩
  · obtain ⟨hok, rfl⟩ := Prod.mk.inj h
    exact ⟨bs, .single (Prod.ext hok rfl)⟩

/-- Reads of a gate are reads of its source. -/
theorem reads_src {bs : Bytes} (hr : Reads g bs g') : ∃ cs, Reads g.src cs g'.src := by
  induction hr with
  | refl g => exact ⟨[], .refl _⟩
  | ok hread _ ih =>
    obtain ⟨cs, hcs⟩ := ih
    obtain ⟨e, -, ⟨⟩⟩ | ⟨g₁, hv, hon⟩ := next_eq hread
    obtain ⟨cs₁, h₁⟩ := verify_reads hv
    obtain ⟨cs₂, h₂⟩ := readOn_reads hon
    exact ⟨_, (h₁.trans h₂).trans hcs⟩
  | retry hread hi _ ih =>
    obtain ⟨cs, hcs⟩ := ih
    obtain ⟨e, hv, ⟨⟩⟩ | ⟨g₁, hv, hon⟩ := next_eq hread
    · rw [verify_error hv] at hi
      cases hi
    · obtain ⟨cs₁, h₁⟩ := verify_reads hv
      obtain ⟨-, hsrc, -⟩ := readOn_error hon
      exact ⟨_, h₁.trans (.retry hsrc hi hcs)⟩

/-- Where a gate comes to its end, its source does. -/
theorem src_ends {bs : Bytes} {g₁ : ChecksumGate P ρ} {n : ℕ} (hr : Reads g bs g₁)
    (hend : read g₁ n = (.ok [], g')) (hn : 0 < n) :
    ∃ cs d, Reads g.src cs d ∧ read d n = (.ok [], g'.src) := by
  obtain ⟨cs, hcs⟩ := reads_src hr
  obtain ⟨e, -, ⟨⟩⟩ | ⟨g₂, hv, hon⟩ := next_eq hend
  obtain ⟨cs', hcs'⟩ := verify_reads hv
  refine ⟨_, g₂.src, hcs.trans hcs', ?_⟩
  rw [readOn] at hon
  split at hon
  · next hlt =>
    -- there is some of the window left, so something was handed out
    have hnil := congrArg List.length (Except.ok.inj (Prod.mk.inj hon).1)
    rw [List.length_take, List.length_drop, List.length_nil] at hnil
    omega
  · obtain ⟨hok, rfl⟩ := Prod.mk.inj hon
    exact Prod.ext hok rfl

/-- A gate that is verified, with some of the window and of what comes after it still
    to be handed out. -/
def Verified (g : ChecksumGate P ρ) (rest : Bytes) (e : Option IoError) : Prop :=
  g.verified = true ∧ ∃ after, Presents g.src after e ∧ rest = g.window.drop g.pos ++ after

/-- A gate that will let its source through: its first window can be read, and has the
    checksum. -/
def Passing (g : ChecksumGate P ρ) (rest : Bytes) (e : Option IoError) : Prop :=
  g.verified = false ∧ g.pos = 0 ∧ Presents g.src rest e ∧
    (e = none ∨ checksumWindow ≤ rest.length) ∧
    matches_ P (rest.take checksumWindow) g.checksum = true

/-- Verifying such a gate succeeds. -/
theorem Passing.verify (h : Passing g rest e) :
    ∃ g', g.verify = (.ok (), g') ∧ Verified g' rest e := by
  obtain ⟨hv, hpos, hs, hlen, hm⟩ := h
  have hread : ∃ src, readFull g.src checksumWindow = (.ok (rest.take checksumWindow), src) ∧
      Presents src (rest.drop checksumWindow) e := by
    rcases hlen with rfl | hlen
    · exact hs.readFull_take checksumWindow
    · exact hs.readFull_le hlen
  obtain ⟨src, hread, hs'⟩ := hread
  refine ⟨{ g with src, window := rest.take checksumWindow, verified := true }, ?_, rfl,
    rest.drop checksumWindow, hs', ?_⟩
  · rw [ChecksumGate.verify, if_neg (by rw [hv]; exact Bool.false_ne_true), hread]
    dsimp only
    rw [if_pos hm]
  · dsimp only
    rw [hpos, List.drop_zero, List.take_append_drop]

/-- A gate is passing where verifying it succeeds. -/
theorem Passing.of_verify (hv : g.verified = false) (hpos : g.pos = 0) (hs : Presents g.src rest e)
    (h : g.verify.1 = .ok ()) : Passing g rest e := by
  obtain ⟨hverified, -⟩ | ⟨window, src, hread, hm, -⟩ :=
    verify_ok (Prod.ext h rfl : g.verify = (.ok (), g.verify.2))
  · rw [hv] at hverified
    cases hverified
  by_cases hle : checksumWindow ≤ rest.length
  · obtain ⟨src', hfull, -⟩ := hs.readFull_le hle
    obtain rfl := Except.ok.inj (Prod.mk.inj (hread.symm.trans hfull)).1
    exact ⟨hv, hpos, hs, .inr hle, hm⟩
  · rcases e with - | err
    · obtain ⟨src', htake, -⟩ := hs.readFull_take checksumWindow
      obtain rfl := Except.ok.inj (Prod.mk.inj (hread.symm.trans htake)).1
      exact ⟨hv, hpos, hs, .inl rfl, hm⟩
    · obtain ⟨r', hfail⟩ := hs.readFull_error (Nat.lt_of_not_le hle)
      cases hread.symm.trans hfail

theorem Verified.verify (h : Verified g rest e) : g.verify = (.ok (), g) := by
  rw [ChecksumGate.verify, if_pos h.1]

theorem Verified.next (h : Verified g rest e) (n : ℕ) : read g n = g.readOn n := by
  show g.next n = _
  rw [ChecksumGate.next, h.verify]

theorem Verified.hands (h : Verified g rest e) {n : ℕ} (hn : 0 < n) : Hands g n e rest := by
  have hnext := h.next n
  obtain ⟨-, after, hs, rfl⟩ := h
  by_cases hlt : g.pos < g.window.length
  · rw [readOn, if_pos hlt] at hnext
    obtain ⟨b, bs, hw⟩ : ∃ b bs, g.window.drop g.pos = b :: bs :=
      List.exists_cons_of_length_pos (by rw [List.length_drop]; omega)
    obtain ⟨m, hm⟩ : ∃ m, min (g.window.length - g.pos) n = m + 1 :=
      ⟨min (g.window.length - g.pos) n - 1, by omega⟩
    rw [hw]
    refine ⟨_, _, hnext, ?_, ?_⟩
    · rw [hw, hm, List.take_succ_cons]
      exact List.cons_ne_nil _ _
    · rw [hw]
      exact (List.take_prefix _ _).trans (List.prefix_append _ _)
  · -- the window is used up
    rw [readOn, if_neg hlt] at hnext
    rw [List.drop_of_length_le (Nat.le_of_not_lt hlt), List.nil_append]
    exact Hands.congr (hs.hands hn) (by rw [hnext])

theorem Verified.read_ok (h : Verified g rest e) {n : ℕ} {piece : Bytes}
    (hr : g.readOn n = (.ok piece, g')) : ∃ left, rest = piece ++ left ∧ Verified g' left e := by
  obtain ⟨hv, after, hs, rfl⟩ := h
  by_cases hlt : g.pos < g.window.length
  · rw [readOn, if_pos hlt] at hr
    cases hr
    refine ⟨g.window.drop (g.pos + min (g.window.length - g.pos) n) ++ after, ?_, hv, after, hs, rfl⟩
    rw [← List.drop_drop, ← List.append_assoc, List.take_append_drop]
  · rw [readOn, if_neg hlt] at hr
    obtain ⟨hok, rfl⟩ := Prod.mk.inj hr
    obtain ⟨left, rfl, hs'⟩ := hs.reads (.single (Prod.ext hok rfl : read g.src n = (.ok piece, _)))
    have hdrop : g.window.drop g.pos = [] := List.drop_of_length_le (Nat.le_of_not_lt hlt)
    refine ⟨left, by rw [hdrop, List.nil_append], hv, left, hs', ?_⟩
    rw [hdrop, List.nil_append]

theorem Verified.retry (h : Verified g rest e) {n : ℕ} {err : IoError}
    (hr : g.readOn n = (.error err, g')) (hi : interrupted err) : Verified g' rest e := by
  obtain ⟨hlt, hread, hg⟩ := readOn_error hr
  obtain ⟨hv, after, hs, rfl⟩ := h
  obtain ⟨left, hcut, hs'⟩ := hs.reads (.retry hread hi (.refl _))
  obtain rfl : after = left := hcut
  rw [hg]
  exact ⟨hv, after, hs', rfl⟩

/-- A gate whose first window has the checksum presents what its source does. -/
theorem presents (h : Passing g rest e) : Presents g rest e := by
  -- Up to its first read the gate is as it was; from then on it is verified.
  have hread : ∀ {g : ChecksumGate P ρ} {rest : Bytes} {n : ℕ}, Passing g rest e ∨ Verified g rest e →
      ∃ g₁, Verified g₁ rest e ∧ read g n = g₁.readOn n := by
    intro g rest n h
    rcases h with h | h
    · obtain ⟨g₁, hv, h₁⟩ := h.verify
      exact ⟨g₁, h₁, show g.next n = _ by rw [next, hv]⟩
    · exact ⟨g, h, h.next n⟩
  refine Presents.of_invariant (fun g rest => Passing g rest e ∨ Verified g rest e) ?_ ?_ ?_ (.inl h)
  · intro g rest hg n hn
    obtain ⟨g₁, h₁, hr⟩ := hread hg
    exact Hands.congr (h₁.hands hn) (by rw [hr, h₁.next])
  · intro g rest n piece g' hg hr
    obtain ⟨g₁, h₁, hr₁⟩ := hread hg
    obtain ⟨left, hcut, hl⟩ := h₁.read_ok (hr₁.symm.trans hr)
    exact ⟨left, hcut, .inr hl⟩
  · intro g rest n err g' hg hr hi
    obtain ⟨g₁, h₁, hr₁⟩ := hread hg
    exact .inr (h₁.retry (hr₁.symm.trans hr) hi)

end ChecksumGate

end OdfCrypto

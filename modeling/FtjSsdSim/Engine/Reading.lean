import Mathlib
import FtjSsdSim.Library.Loop
import FtjSsdSim.Engine.Writing
import FtjSsdSim.Engine.StoredEcc

/-!
# What a read delivers

With check bytes that match and no bit error injected, `Read` is one copy out of the address space
that the tables describe (`rawByte`), whatever its offset, its size and the pages it crosses.

* `readChunk_delivers`, `readPage_delivers`, `readLoop_delivers` — the three loops, each one piece of
  the copy (`Delivers`);
* `read_of_no_flip`, `read_eq` — the call, without bit errors and on a healthy controller;
* `rawByte_eq_contentOf` — on a consistent controller, `rawByte` is the content of its logical pages.
-/

namespace FtjSsdSim.Engine

open FtjSsdSim.Library FtjSsdSim.Engine.Ecc

namespace FTJController

/-- No bit errors are injected: no page is worn or disturbed beyond its threshold. -/
def Healthy (c : FTJController) : Prop := ∀ p < c.pageCount, ¬ c.degraded p

instance (c : FTJController) : Decidable c.Healthy :=
  inferInstanceAs (Decidable (∀ p < _, ¬ _))

/-- The byte that the tables show at address `a`. -/
def rawByte (c : FTJController) (a : ℕ) : Byte :=
  let phys := if a / pageSize < c.pageCount then c.l2pMap (a / pageSize) else -1
  if phys < 0 ∨ c.physValid phys.toNat = false then 0
  else c.memoryBuffer (phys.toNat * pageSize + a % pageSize)

/-- A read that has filled `n` more bytes of the caller's buffer, from `src` at `s`. -/
def ReadState.filled (st : ReadState) (src : ℕ → Byte) (s n : ℕ) : ReadState :=
  { st with dest := blit st.dest st.destOffset src s n, destOffset := st.destOffset + n }

@[simp] theorem ReadState.filled_zero (st : ReadState) (src : ℕ → Byte) (s : ℕ) :
    st.filled src s 0 = st := by
  rw [filled, blit_zero]
  rfl

theorem ReadState.filled_filled (st : ReadState) (src : ℕ → Byte) (s m n : ℕ) :
    (st.filled src s m).filled src (s + m) n = st.filled src s (m + n) := by
  simp only [filled, blit_blit, Nat.add_assoc]

theorem ReadState.filled_congr {src src' : ℕ → Byte} {s s' n : ℕ} (st : ReadState)
    (h : ∀ i < n, src (s + i) = src' (s' + i)) : st.filled src s n = st.filled src' s' n := by
  rw [filled, blit_congr h]
  rfl

/-- The same read with another seed. -/
def ReadState.withSeed (st : ReadState) (seed : Word) : ReadState := { st with seed := seed }

theorem ReadState.filled_withSeed (st : ReadState) (src : ℕ → Byte) (s n : ℕ) (seed : Word) :
    (st.filled src s n).withSeed seed = (st.withSeed seed).filled src s n := rfl

/-! ### Parts of a read -/

/-- A part of a read, from `st` to `st'`, that is to fill `n` bytes from `src` at `s`.  It counts at
most `bound` bit flips, and if it counts none it is the plain copy, up to the seed; where `quiet` says
that no page is degraded, it counts none and draws no seed. -/
def Delivers (quiet : Prop) (bound : ℕ) (src : ℕ → Byte) (s n : ℕ) (st st' : ReadState) : Prop :=
  ∃ flips ≤ bound, st'.totalBitFlips = st.totalBitFlips + BitVec.ofNat 64 flips ∧
    (flips = 0 → st' = (st.filled src s n).withSeed st'.seed) ∧
    (quiet → flips = 0 ∧ st'.seed = st.seed)

section

variable {quiet : Prop} {bound bound' : ℕ} {src src' : ℕ → Byte} {s s' m n : ℕ}
  {st st' st'' : ReadState}

theorem Delivers.of_filled (st : ReadState) (src : ℕ → Byte) (s n : ℕ) :
    Delivers quiet 0 src s n st (st.filled src s n) :=
  ⟨0, Nat.le_refl 0, (BitVec.add_zero _).symm, fun _ => rfl, fun _ => ⟨rfl, rfl⟩⟩

theorem Delivers.refl (st : ReadState) (src : ℕ → Byte) (s : ℕ) :
    Delivers quiet 0 src s 0 st st := by
  have h : Delivers quiet 0 src s 0 st (st.filled src s 0) := .of_filled st src s 0
  rwa [ReadState.filled_zero] at h

theorem Delivers.mono (h : Delivers quiet bound src s n st st') (hle : bound ≤ bound') :
    Delivers quiet bound' src s n st st' := by
  obtain ⟨flips, hflips, hrest⟩ := h
  exact ⟨flips, hflips.trans hle, hrest⟩

theorem Delivers.congr (h : Delivers quiet bound src s n st st')
    (hsrc : ∀ i < n, src (s + i) = src' (s' + i)) : Delivers quiet bound src' s' n st st' := by
  obtain ⟨flips, hflips, hcount, hexact, hquiet⟩ := h
  refine ⟨flips, hflips, hcount, fun h0 => ?_, hquiet⟩
  rw [← ReadState.filled_congr st hsrc]
  exact hexact h0

theorem Delivers.imp {quiet' : Prop} (h : Delivers quiet bound src s n st st')
    (hq : quiet' → quiet) : Delivers quiet' bound src s n st st' := by
  obtain ⟨flips, hflips, hcount, hexact, hquiet⟩ := h
  exact ⟨flips, hflips, hcount, hexact, fun h => hquiet (hq h)⟩

/-- Two parts that fill adjacent pieces. -/
theorem Delivers.trans (h : Delivers quiet bound src s m st st')
    (h' : Delivers quiet bound' src (s + m) n st' st'') :
    Delivers quiet (bound + bound') src s (m + n) st st'' := by
  obtain ⟨flips, hflips, hcount, hexact, hquiet⟩ := h
  obtain ⟨flips', hflips', hcount', hexact', hquiet'⟩ := h'
  refine ⟨flips + flips', Nat.add_le_add hflips hflips', ?_, fun h0 => ?_, fun hq => ?_⟩
  · rw [hcount', hcount, BitVec.ofNat_add, BitVec.add_assoc]
  · have hst' := hexact (Nat.eq_zero_of_add_eq_zero_right h0)
    have hst'' := hexact' (Nat.eq_zero_of_add_eq_zero_left h0)
    rw [hst''] at *
    rw [← ReadState.filled_filled, hst']
    rfl
  · obtain ⟨h0, hseed⟩ := hquiet hq
    obtain ⟨h0', hseed'⟩ := hquiet' hq
    exact ⟨by rw [h0, h0'], hseed'.trans hseed⟩

end

variable {c : FTJController} (hits : Hits)

/-- The check bytes of page `p` are those of its words. -/
def PageEcc (c : FTJController) (p : ℕ) : Prop :=
  ∀ m < 512, c.eccBuffer (p * 512 + m) = calculateECC (c.word (p * 512 + m))

theorem EccMatches.pageEcc (h : c.EccMatches) (p : ℕ) : c.PageEcc p := fun _ _ => h _

/-! ### The three loops -/

/-- A word that is read back with its own check byte is delivered as it is. -/
theorem decode_stored (data : Word) : decodeAndCorrect data (calculateECC data) = (0, data) := by
  have h := decode_clean (syndrome_encoded data)
  rwa [decodeReceived, encode] at h

theorem copyWord_eq (data : Word) {localOffset startB endB : ℕ} (st : ReadState)
    (h : startB ≤ endB) : copyWord data localOffset startB endB st =
      st.filled (fun b => byteAt data (b - localOffset)) startB (endB - startB) := by
  refine forLoop_induct (motive := fun b t =>
    t = st.filled (fun b => byteAt data (b - localOffset)) startB (b - startB)) h ?base ?step
  case base => rw [Nat.sub_self, ReadState.filled_zero]
  case step =>
    rintro b t hb - rfl
    rw [show b + 1 - startB = b - startB + 1 by omega, ← ReadState.filled_filled]
    simp only [ReadState.filled]
    congr 1
    funext i
    by_cases hi : i = st.destOffset + (b - startB)
    · rw [hi, Function.update_self, blit_in (Nat.le_refl _) (Nat.lt_succ_self _)]
      congr 1
      omega
    · exact (Function.update_of_ne hi ..).trans (blit_out (by omega)).symm

/-- The simulation counts its flips, one or two, or leaves the word alone; it does nothing at all to
a page that is not degraded. -/
theorem injectBitErrors_cases (c : FTJController) (phys : ℕ) (data : Word)
    (st : ReadState) :
    (∃ flips, (flips = 1 ∨ flips = 2) ∧ c.degraded phys ∧
      (injectBitErrors hits c phys data st).2.totalBitFlips =
        st.totalBitFlips + BitVec.ofNat 64 flips) ∨
    ∃ seed, injectBitErrors hits c phys data st = (data, st.withSeed seed) ∧
      (¬ c.degraded phys → seed = st.seed) := by
  unfold injectBitErrors
  simp only
  split_ifs with hdegraded hhit htwice
  · refine .inl ⟨2, .inr rfl, hdegraded, ?_⟩
    show st.totalBitFlips + 1 + 1 = st.totalBitFlips + BitVec.ofNat 64 2
    rw [BitVec.add_assoc]
    rfl
  · exact .inl ⟨1, .inl rfl, hdegraded, rfl⟩
  · exact .inr ⟨_, rfl, fun hn => absurd hdegraded hn⟩
  · exact .inr ⟨st.seed, rfl, fun _ => rfl⟩

/-- The flips of a chunk are those of the simulation. -/
theorem readChunk_totalBitFlips (phys pageOffset toCopy chunkOffset : ℕ) (st : ReadState) :
    (readChunk hits c phys pageOffset toCopy chunkOffset st).totalBitFlips =
      (injectBitErrors hits c phys
        (ofBytes fun i => c.memoryBuffer (phys * pageSize + (chunkOffset - phys * pageSize) + i))
        st).2.totalBitFlips := by
  rw [readChunk]
  simp only
  refine forLoop_preserves (P := fun t : ReadState => t.totalBitFlips = _) ?_
    fun _ _ _ _ ht => ht
  split_ifs <;> rfl

/-- A chunk of a page is decoded to the stored bytes. -/
theorem readChunk_delivers {phys pageOffset toCopy m : ℕ} (h : c.PageEcc phys) (hm : m < 512)
    (st : ReadState) (hlo : pageOffset < 8 * m + 8) (hhi : 8 * m < pageOffset + toCopy)
    (hcopy : 0 < toCopy) :
    Delivers (¬ c.degraded phys) 2 (fun i => c.memoryBuffer (phys * pageSize + i))
      (max pageOffset (8 * m)) (min (8 * m + 8) (pageOffset + toCopy) - max pageOffset (8 * m)) st
      (readChunk hits c phys pageOffset toCopy (phys * pageSize + 8 * m) st) := by
  have hword : ofBytes (fun i => c.memoryBuffer (phys * pageSize + 8 * m + i)) =
      c.word (phys * 512 + m) := by
    refine ofBytes_congr fun i hi => congrArg c.memoryBuffer ?_
    simp only [pageSize]
    omega
  have hecc : c.eccBuffer ((phys * pageSize + 8 * m) / 8) =
      calculateECC (c.word (phys * 512 + m)) := by
    rw [← h m hm]
    refine congrArg c.eccBuffer ?_
    simp only [pageSize]
    omega
  have hstart : (if 8 * m < pageOffset then pageOffset else 8 * m) = max pageOffset (8 * m) := by
    split_ifs <;> omega
  have hflips : (readChunk hits c phys pageOffset toCopy (phys * pageSize + 8 * m) st).totalBitFlips =
      (injectBitErrors hits c phys (c.word (phys * 512 + m)) st).2.totalBitFlips := by
    rw [readChunk_totalBitFlips, Nat.add_sub_cancel_left, hword]
  rcases injectBitErrors_cases hits c phys (c.word (phys * 512 + m)) st with
    ⟨flips, hcount, hdegraded, hinject⟩ | ⟨seed, hinject, hseed⟩
  · rw [hinject] at hflips
    refine ⟨flips, by omega, hflips, fun h0 => by omega, fun hn => absurd hdegraded hn⟩
  · have hchunk : readChunk hits c phys pageOffset toCopy (phys * pageSize + 8 * m) st =
        (st.filled (fun i => c.memoryBuffer (phys * pageSize + i)) (max pageOffset (8 * m))
          (min (8 * m + 8) (pageOffset + toCopy) - max pageOffset (8 * m))).withSeed seed := by
      rw [readChunk]
      simp only [Nat.add_sub_cancel_left, hword, hecc, hinject, decode_stored, hstart]
      rw [if_neg (by decide), if_neg (by decide), copyWord_eq _ _ (by omega)]
      rw [ReadState.filled_withSeed]
      refine ReadState.filled_congr _ fun i hi => ?_
      rw [← hword, byteAt_ofBytes _ _ (by omega)]
      exact congrArg c.memoryBuffer (by omega)
    rw [hchunk]
    exact ⟨0, by decide, (BitVec.add_zero _).symm, fun _ => rfl, fun hn => ⟨rfl, hseed hn⟩⟩

/-- The first chunks of a page, from the one that `pageOffset` is in. -/
theorem chunks_delivers {phys pageOffset toCopy : ℕ} (h : c.PageEcc phys) (st : ReadState)
    (hin : pageOffset + toCopy ≤ pageSize) (hcopy : 0 < toCopy) {count : ℕ}
    (hcount : count ≤ (pageOffset + toCopy + 7) / 8 - pageOffset / 8) :
    Delivers (¬ c.degraded phys) (2 * count) (fun i => c.memoryBuffer (phys * pageSize + i))
      pageOffset
      (min (pageOffset + toCopy) (max pageOffset (8 * (pageOffset / 8) + 8 * count)) - pageOffset) st
      (forLoop 0 count (fun i st => readChunk hits c phys pageOffset toCopy
        (phys * pageSize + 8 * (pageOffset / 8) + 8 * i) st) st) := by
  induction count with
  | zero =>
    rw [show min _ _ - pageOffset = 0 by omega]
    exact .refl st _ _
  | succ count ih =>
    simp only [pageSize] at hin
    have hword : pageOffset / 8 + count < 512 := by omega
    have hchunk := fun t => readChunk_delivers hits h hword t
      (show pageOffset < _ by omega) (show _ < pageOffset + toCopy by omega) hcopy
    rw [show phys * pageSize + 8 * (pageOffset / 8 + count) =
      phys * pageSize + 8 * (pageOffset / 8) + 8 * count by omega,
      show max pageOffset (8 * (pageOffset / 8 + count)) = pageOffset + (min (pageOffset + toCopy)
        (max pageOffset (8 * (pageOffset / 8) + 8 * count)) - pageOffset) by omega] at hchunk
    rw [forLoop_succ (Nat.zero_le _), Nat.mul_succ 2]
    have hboth := (ih (by omega)).trans (hchunk _)
    rw [show min (pageOffset + toCopy) (max pageOffset (8 * (pageOffset / 8) + 8 * count)) -
        pageOffset + _ = min (pageOffset + toCopy)
          (max pageOffset (8 * (pageOffset / 8) + 8 * (count + 1))) - pageOffset by omega] at hboth
    exact hboth

/-- The chunk loop delivers the requested bytes of the page. -/
theorem readPage_mapped {phys pageOffset toCopy : ℕ} (h : c.PageEcc phys) (st : ReadState)
    (hvalid : c.physValid phys = true) (hin : pageOffset + toCopy ≤ pageSize) (hcopy : 0 < toCopy) :
    Delivers (¬ c.degraded phys) (2 * ((pageOffset + toCopy + 7) / 8 - pageOffset / 8))
      (fun i => c.memoryBuffer (phys * pageSize + i)) pageOffset toCopy st
      (readPage hits c phys pageOffset toCopy st) := by
  have hmapped : ¬ ((phys : ℤ) < 0 ∨ c.physValid (phys : ℤ).toNat = false) := by
    rw [Int.toNat_natCast, hvalid]
    simp
  rw [readPage, if_neg hmapped]
  simp only [Int.toNat_natCast]
  -- the chunks start at word `pageOffset / 8` of the page
  obtain ⟨hstart, hcount⟩ : (phys * pageSize + pageOffset) / 8 * 8 =
        phys * pageSize + 8 * (pageOffset / 8) ∧
      ((phys * pageSize + pageOffset + toCopy + 7) / 8 * 8 -
        (phys * pageSize + 8 * (pageOffset / 8))) / 8 =
        (pageOffset + toCopy + 7) / 8 - pageOffset / 8 := by
    simp only [pageSize]
    omega
  rw [hstart, hcount]
  have hall := chunks_delivers hits h st hin hcopy (Nat.le_refl _)
  rw [show min _ _ - pageOffset = toCopy by omega] at hall
  exact hall

/-- The part of a read that falls into one logical page. -/
theorem readPage_delivers {quiet : Prop} {lp pageOffset toCopy : ℕ}
    (h : lp < c.pageCount → ∀ p : ℕ, c.l2pMap lp = p → c.PageEcc p)
    (hquiet : quiet → lp < c.pageCount → ∀ p : ℕ, c.l2pMap lp = p → ¬ c.degraded p)
    (hin : pageOffset + toCopy ≤ pageSize) (hcopy : 0 < toCopy) (st : ReadState) :
    Delivers quiet (2 * ((pageOffset + toCopy + 7) / 8 - pageOffset / 8)) c.rawByte
      (lp * pageSize + pageOffset) toCopy st
      (readPage hits c (if lp < c.pageCount then c.l2pMap lp else -1) pageOffset toCopy st) := by
  have hsplit : ∀ i < toCopy, (lp * pageSize + pageOffset + i) / pageSize = lp ∧
      (lp * pageSize + pageOffset + i) % pageSize = pageOffset + i := by
    intro i hi
    simp only [pageSize] at hin ⊢
    omega
  by_cases hmapped : (if lp < c.pageCount then c.l2pMap lp else -1) < 0 ∨
      c.physValid (if lp < c.pageCount then c.l2pMap lp else -1).toNat = false
  · rw [readPage, if_pos hmapped]
    have hzeros : Delivers quiet 0 (fun _ => 0) 0 toCopy st (st.filled (fun _ => 0) 0 toCopy) :=
      .of_filled ..
    refine (hzeros.mono (Nat.zero_le _)).congr fun i hi => ?_
    simp only [rawByte, (hsplit i hi).1]
    rw [if_pos hmapped]
  · have hlp : lp < c.pageCount := by
      by_contra hlp
      rw [if_neg hlp] at hmapped
      exact hmapped (.inl (by decide))
    rw [if_pos hlp] at hmapped ⊢
    obtain ⟨phys, hphys⟩ := Int.eq_ofNat_of_zero_le (not_lt.mp fun hneg => hmapped (.inl hneg))
    rw [hphys] at hmapped ⊢
    have hvalid : c.physValid phys = true := by
      by_contra hv
      exact hmapped (.inr (Bool.eq_false_iff.mpr hv))
    have hpage := readPage_mapped hits (h hlp phys hphys) st hvalid hin hcopy
    refine (hpage.imp fun hq => hquiet hq hlp phys hphys).congr fun i hi => ?_
    simp only [rawByte, (hsplit i hi).1, (hsplit i hi).2]
    rw [if_pos hlp, hphys, if_neg hmapped, Int.toNat_natCast]

/-- **The page loop is one copy.** -/
theorem readLoop_delivers {quiet : Prop}
    (h : ∀ lp < c.pageCount, ∀ p : ℕ, c.l2pMap lp = p → c.PageEcc p)
    (hquiet : quiet → ∀ lp < c.pageCount, ∀ p : ℕ, c.l2pMap lp = p → ¬ c.degraded p)
    (startByte endByte : ℕ) (hle : startByte ≤ endByte) (st : ReadState) :
    Delivers quiet (2 * ((endByte + 7) / 8 - startByte / 8)) c.rawByte startByte
      (endByte - startByte) st (readLoop hits c startByte endByte st) := by
  induction startByte, st using readLoop.induct hits c endByte with
  | case1 startByte st hlt lp pageOffset toCopy phys ih =>
    have hmod := Nat.mod_lt startByte (show 0 < pageSize by decide)
    have hdiv := Nat.div_add_mod' startByte pageSize
    have hcopy : 0 < toCopy ∧ pageOffset + toCopy ≤ pageSize ∧
        (startByte + toCopy = endByte ∨
          startByte + toCopy < endByte ∧ pageOffset + toCopy = pageSize) := by omega
    obtain ⟨hpos, hin, hnext⟩ := hcopy
    have hpage : Delivers quiet _ c.rawByte (lp * pageSize + pageOffset) toCopy st
        (readPage hits c phys pageOffset toCopy st) :=
      readPage_delivers hits (h lp) (fun hq => hquiet hq lp) hin hpos st
    rw [show lp * pageSize + pageOffset = startByte from hdiv] at hpage
    have hoffset : pageOffset = startByte % pageSize := rfl
    have hround : Delivers quiet (2 * ((endByte + 7) / 8 - startByte / 8)) c.rawByte startByte
        (endByte - startByte) st (readLoop hits c (startByte + toCopy) endByte
          (readPage hits c phys pageOffset toCopy st)) := by
      simp only [pageSize] at hdiv hoffset hnext
      rcases hnext with hlast | ⟨hmore, hfull⟩
      · rw [readLoop, if_neg (by omega), show endByte - startByte = toCopy by omega]
        exact hpage.mono (by omega)
      · have hboth := hpage.trans (ih (Nat.le_of_lt hmore))
        rw [show toCopy + (endByte - (startByte + toCopy)) = endByte - startByte by omega] at hboth
        exact hboth.mono (by omega)
    rw [readLoop, if_pos hlt]
    exact hround
  | case2 startByte st hge =>
    rw [readLoop, if_neg hge, Nat.sub_eq_zero_of_le (by omega : endByte ≤ startByte)]
    exact (Delivers.refl st _ _).mono (Nat.zero_le _)

/-- **An in-range read**: what its page loop delivers, and the call is counted. -/
theorem read_inRange {offset size : ℕ} (hin : offset + size ≤ c.capacity) (seed : Word)
    (dest : ℕ → Byte) :
    c.read hits seed offset (some dest) size =
      let st := readLoop hits c offset (offset + size)
        ⟨dest, 0, true, seed, c.correctedErrors, c.uncorrectableErrors, c.totalBitFlips⟩
      ⟨st.success, some st.dest, st.seed, { c with
        totalReads := c.totalReads + 1
        correctedErrors := st.correctedErrors
        uncorrectableErrors := st.uncorrectableErrors
        totalBitFlips := st.totalBitFlips }⟩ := by
  have hguard : ¬ (size > c.capacity ∨ offset > c.capacity - size) := by omega
  rw [read]
  simp only
  rw [if_neg hguard]

/-- **An in-range read of a healthy controller** succeeds, fills the first `size` bytes of the
caller's buffer and counts itself; no seed is drawn and no error is counted. -/
theorem read_eq (h : c.EccMatches) (hhealthy : c.Healthy)
    (hrange : ∀ lp < c.pageCount, ∀ p : ℕ, c.l2pMap lp = p → p < c.pageCount) (seed : Word)
    {offset size : ℕ} (dest : ℕ → Byte) (hin : offset + size ≤ c.capacity) :
    c.read hits seed offset (some dest) size =
      ⟨true, some (blit dest 0 c.rawByte offset size), seed,
        { c with totalReads := c.totalReads + 1 }⟩ := by
  have hloop : Delivers True _ _ _ _ _ _ := readLoop_delivers hits (fun _ _ p _ => h.pageEcc p)
    (fun _ lp hlp p hp => hhealthy p (hrange lp hlp p hp)) offset (offset + size)
    (Nat.le_add_right ..)
    ⟨dest, 0, true, seed, c.correctedErrors, c.uncorrectableErrors, c.totalBitFlips⟩
  obtain ⟨flips, -, -, hexact, hquiet⟩ := hloop
  obtain ⟨h0, hseed⟩ := hquiet trivial
  rw [read_inRange hits hin]
  simp only
  rw [hexact h0, hseed, Nat.add_sub_cancel_left]
  rfl

/-- **An in-range read that injects no bit error** does the same, up to the seed it draws. -/
theorem read_of_no_flip (h : ∀ lp < c.pageCount, ∀ p : ℕ, c.l2pMap lp = p → c.PageEcc p)
    (hsize : c.capacity < 2 ^ 64) (seed : Word) {offset size : ℕ} (dest : ℕ → Byte)
    (hin : offset + size ≤ c.capacity)
    (hflips : (c.read hits seed offset (some dest) size).controller.totalBitFlips =
      c.totalBitFlips) :
    c.read hits seed offset (some dest) size =
      ⟨true, some (blit dest 0 c.rawByte offset size),
        (c.read hits seed offset (some dest) size).seed,
        { c with totalReads := c.totalReads + 1 }⟩ := by
  have hloop : Delivers False _ _ _ _ _ _ := readLoop_delivers hits h (fun hq => hq.elim) offset
    (offset + size) (Nat.le_add_right ..)
    ⟨dest, 0, true, seed, c.correctedErrors, c.uncorrectableErrors, c.totalBitFlips⟩
  obtain ⟨flips, hbound, hcount, hexact, -⟩ := hloop
  rw [read_inRange hits hin] at hflips ⊢
  simp only at hflips hcount ⊢
  rw [hcount] at hflips
  have h0 : flips = 0 := by
    have hzero : BitVec.ofNat 64 flips = 0 := by simpa using hflips
    have hmod : flips % 2 ^ 64 = 0 := by
      rw [← BitVec.toNat_ofNat, hzero]
      rfl
    omega
  rw [hexact h0, Nat.add_sub_cancel_left]
  rfl

/-- A read changes the counters only. -/
theorem read_controller (c : FTJController) (seed : Word) (offset : ℕ) (dest : Option (ℕ → Byte))
    (size : ℕ) : ∃ reads corrected uncorrectable flips,
      (c.read hits seed offset dest size).controller = { c with
        totalReads := reads
        correctedErrors := corrected
        uncorrectableErrors := uncorrectable
        totalBitFlips := flips } := by
  cases dest with
  | none => exact ⟨_, _, _, _, rfl⟩
  | some dest =>
    rw [read]
    simp only
    split_ifs
    · exact ⟨_, _, _, _, rfl⟩
    · exact ⟨_, _, _, _, rfl⟩

/-- **A chunked read is a plain read.**  For every controller whose mapped entries are below the page
count and whose check bytes match, and for every in-range offset and size: a read that injects no bit
error returns `true` and writes exactly `size` bytes, byte `i` being the one that the tables show at
`offset + i`. -/
theorem read_plain (hcap : c.capacity = c.pageCount * pageSize) (hsize : c.capacity < 2 ^ 64)
    (hrange : ∀ lp < c.pageCount, 0 ≤ c.l2pMap lp → c.l2pMap lp < c.pageCount)
    (hecc : ∀ k < c.capacity / 8, c.eccBuffer k = calculateECC (c.word k)) (seed : Word)
    {offset size : ℕ} (dest : ℕ → Byte) (hin : offset + size ≤ c.capacity)
    (hflips : (c.read hits seed offset (some dest) size).controller.totalBitFlips =
      c.totalBitFlips) :
    (c.read hits seed offset (some dest) size).ok = true ∧
      ∃ dest', (c.read hits seed offset (some dest) size).dest = some dest' ∧
        (∀ i < size, dest' i = c.rawByte (offset + i)) ∧ ∀ i, size ≤ i → dest' i = dest i := by
  have hpages : ∀ lp < c.pageCount, ∀ p : ℕ, c.l2pMap lp = p → c.PageEcc p := by
    intro lp hlp p hp m hm
    have hlt := hrange lp hlp (by omega)
    refine hecc _ ?_
    rw [hcap]
    simp only [pageSize]
    omega
  rw [read_of_no_flip hits hpages hsize seed dest hin hflips]
  refine ⟨rfl, _, rfl, fun i hi => ?_, fun i hi => blit_out (by omega)⟩
  rw [blit_in (Nat.zero_le i) (by omega), Nat.sub_zero]

/-- A read across two pages, one written and one not. -/
theorem read_plain_two_pages :
    let c := run writeNext (construct sixtyPages) [⟨4090, some fun _ => 7, 3⟩]
    let r := c.read (fun _ _ _ _ => true) 0 4091 (some fun _ => 9) 12
    r.ok = true ∧ ∃ dest', r.dest = some dest' ∧
      (∀ i < 12, dest' i = c.rawByte (4091 + i)) ∧ ∀ i, 12 ≤ i → dest' i = 9 :=
  read_plain _ (by decide +kernel) (by decide +kernel) (by decide +kernel)
    (fun k _ => run_eccMatches _ _ k) 0 _ (by decide +kernel) (by decide +kernel)

/-- A consistent controller shows the content of its logical pages. -/
theorem rawByte_eq_contentOf {v : ℕ → Option Page} (h : c.Represents v) : c.rawByte = contentOf v := by
  funext a
  have hview := congrFun h.view (a / pageSize)
  simp only [PageMap.view, pageMap] at hview
  simp only [rawByte, contentOf, ← hview]
  by_cases hlp : a / pageSize < c.pageCount
  · rw [if_pos hlp]
    rcases h.consistent.range _ hlp with hl | ⟨p, hp, hl⟩
    · rw [hl, if_pos (.inl (by decide)), if_neg (by omega)]
      rfl
    · have hvalid := ((h.consistent.agree _ hlp p hp).mp hl).1
      rw [hl, Int.toNat_natCast, if_neg (by rw [hvalid]; simp), if_pos ⟨hlp, by omega⟩]
      rfl
  · rw [if_neg hlp, if_pos (.inl (by decide)), if_neg fun hc => hlp hc.1]
    rfl

/-- The address space reads as `f`: the tables show it, and while no page is degraded every in-range
read delivers it. -/
structure ReadsAs (c : FTJController) (f : ℕ → Byte) : Prop where
  shown : c.rawByte = f
  delivered : c.Healthy → ∀ (hits : Hits) (seed : Word) (offset : ℕ) (dest : ℕ → Byte) (size : ℕ),
    offset + size ≤ c.capacity →
      c.read hits seed offset (some dest) size =
        ⟨true, some (blit dest 0 f offset size), seed, { c with totalReads := c.totalReads + 1 }⟩

theorem Represents.readsAs {v : ℕ → Option Page} (h : c.Represents v) (hecc : c.EccMatches) :
    c.ReadsAs (contentOf v) where
  shown := rawByte_eq_contentOf h
  delivered hhealthy hits seed offset dest size hin := by
    have hc := h.consistent
    rw [← rawByte_eq_contentOf h]
    refine read_eq hits hecc hhealthy (fun lp hlp p hp => ?_) seed dest hin
    rcases hc.range lp hlp with hn | ⟨r, hr, hl⟩ <;> omega

end FTJController

end FtjSsdSim.Engine

import Mathlib
import FtjSsdSim.Library.LexPaths

/-!
# File names and their order

A file name is a list of 16-bit units without its terminator.  `MemfsFileNameCompare` walks two names
part by part: it skips a run of separators, compares the last separator of each run, and then the parts
up to the next separator.

* `compare_fileNameCompare` — on a case-sensitive volume the sign of the comparison is the
  lexicographic order of the two sequences of separators and parts;
* `fileNameCompare_insensitive` — on a case-insensitive volume two ASCII names compare as their
  upper-cased forms do on a case-sensitive one;
* `tokensCompare_pathName` — on the names of paths the order is the lexicographic order of the
  components;
* `fileNameHasPrefix_pathName` — on the names of paths `MemfsFileNameHasPrefix` is the prefix relation.
-/

namespace FtjSsdSim.Vdisk

open Std FtjSsdSim.Library

/-! ### Units and names -/

/-- A `WCHAR` of a name: 16 bits, and not the terminator. -/
abbrev WCHAR := { c : ℕ // c ≠ 0 ∧ c < 2 ^ 16 }

/-- `L'c'`. -/
def wide (c : Char) : WCHAR :=
  ⟨(c.toNat - 1) % (2 ^ 16 - 1) + 1, Nat.succ_ne_zero _, by omega⟩

/-- A terminated string, without its terminator. -/
abbrev FileName := List WCHAR

instance : LawfulEqOrd WCHAR where
  eq_of_compare h := Subtype.ext (LawfulEqOrd.eq_of_compare (α := ℕ) h)

/-- `L':' == c || L'\\' == c`. -/
def isSeparator (c : WCHAR) : Bool := c = wide ':' || c = wide '\\'

/-! ### The comparison of the source -/

/-- `MemfsUpperChar`. -/
def upperChar (c : BitVec 32) : BitVec 32 :=
  let s := ((c - BitVec.ofNat 32 'a'.toNat) ^^^ (c - BitVec.ofNat 32 ('z'.toNat + 1))) &&& 0x100
  c &&& ~~~(s >>> 3)

/-- What the system answers where a unit of the compared range is not ASCII: `CompareStringW` of the
two ranges (`0` if it fails, else `1`, `2` or `3`), and `_wcsnicmp` from two places on. -/
structure Nls where
  compareStringW : FileName → FileName → ℤ
  crtWcsnicmp : FileName → FileName → ℕ → ℤ

/-- `*s`, which is `0` at the terminator. -/
def unitAt : FileName → ℕ
  | [] => 0
  | c :: _ => c.val

/-- The loop of `MemfsWcsnicmp`, with `k` units to go. -/
def wcsnicmpLoop (nls : Nls) (s₀ t₀ : FileName) (n : ℕ) : ℕ → FileName → FileName → ℤ
  | 0, _, _ => 0
  | k + 1, s, t =>
    let sc := BitVec.ofNat 32 (unitAt s)
    let tc := BitVec.ofNat 32 (unitAt t)
    if 0xffffff80#32 &&& (sc ||| tc) ≠ 0 then
      let v := nls.compareStringW (s₀.take n) (t₀.take n)
      if v ≠ 0 then v - 2 else nls.crtWcsnicmp s t n
    else
      let v := (upperChar sc - upperChar tc).toInt
      if v ≠ 0 ∨ tc = 0 then v else wcsnicmpLoop nls s₀ t₀ n k s.tail t.tail

/-- `MemfsWcsnicmp`. -/
def wcsnicmp (nls : Nls) (s t : FileName) (n : ℕ) : ℤ := wcsnicmpLoop nls s t n n s t

/-- `wcsncmp`. -/
def wcsncmp : ℕ → FileName → FileName → ℤ
  | 0, _, _ => 0
  | n + 1, s, t =>
    if unitAt s ≠ unitAt t then (unitAt s : ℤ) - unitAt t
    else if unitAt s = 0 then 0
    else wcsncmp n s.tail t.tail

/-- What `c` holds after `for (…; p++) c = *p;` over a run of separators, `':'` made `1` and `'\\'` made
`2`. -/
def separatorCode (run : FileName) : ℤ :=
  match run.getLast? with
  | none => 0
  | some c => if c = wide ':' then 1 else if c = wide '\\' then 2 else c.val

/-- The comparison of two parts, at the start of the strings `p` and `q`. -/
def partCompare (nls : Nls) (caseInsensitive : Bool) (p q : FileName) (plen qlen : ℕ) : ℤ :=
  let len := if plen < qlen then plen else qlen
  let res := if caseInsensitive then wcsnicmp nls p q len else wcsncmp len p q
  if res = 0 then (plen : ℤ) - qlen else res

/-- The number of units up to the next separator. -/
def partLength (p : FileName) : ℕ := (p.takeWhile fun c => !isSeparator c).length

/-- The loop of `MemfsFileNameCompare`, in at most `n` rounds. -/
def compareLoop (nls : Nls) (caseInsensitive : Bool) : ℕ → FileName → FileName → ℤ
  | 0, p, q => -(if p = [] then 1 else 0) + (if q = [] then 1 else 0)
  | n + 1, p, q =>
    if p = [] ∨ q = [] then -(if p = [] then 1 else 0) + (if q = [] then 1 else 0)
    else
      let c := separatorCode (p.takeWhile isSeparator)
      let d := separatorCode (q.takeWhile isSeparator)
      if c - d ≠ 0 then c - d
      else
        let p := p.dropWhile isSeparator
        let q := q.dropWhile isSeparator
        let res := partCompare nls caseInsensitive p q (partLength p) (partLength q)
        if res ≠ 0 then res
        else compareLoop nls caseInsensitive n (p.drop (partLength p)) (q.drop (partLength q))

/-- `MemfsFileNameCompare`.  Every round leaves a shorter rest of `a`, so `a.length` rounds are enough. -/
def fileNameCompare (nls : Nls) (caseInsensitive : Bool) (a b : FileName) : ℤ :=
  compareLoop nls caseInsensitive a.length a b

/-- `MemfsFileNameHasPrefix`. -/
def fileNameHasPrefix (nls : Nls) (caseInsensitive : Bool) (a b : FileName) : Bool :=
  a.length ≥ b.length && fileNameCompare nls caseInsensitive (a.take b.length) b = 0 &&
    (a.length = b.length || (b.length = 1 && b.head? = some (wide '\\')) ||
      a[b.length]? = some (wide '\\'))

/-- `MEMFS_FILE_NODE_LESS`. -/
def fileNodeLess (nls : Nls) (caseInsensitive : Bool) (a b : FileName) : Bool :=
  0 > fileNameCompare nls caseInsensitive a b

/-- The order of the keys of a `std::map` under `MEMFS_FILE_NODE_LESS`. -/
def keyOrder (nls : Nls) (caseInsensitive : Bool) (a b : FileName) : Ordering :=
  if fileNodeLess nls caseInsensitive a b then .lt
  else if fileNodeLess nls caseInsensitive b a then .gt
  else .eq

/-! ### Separators and parts -/

/-- The rest of a name after its first run of separators and the part behind it. -/
def restOf (p : FileName) : FileName :=
  (p.dropWhile isSeparator).drop (partLength (p.dropWhile isSeparator))

theorem drop_partLength (p : FileName) :
    p.drop (partLength p) = p.dropWhile fun c => !isSeparator c := by
  have h := List.takeWhile_append_dropWhile (p := fun c => !isSeparator c) (l := p)
  calc p.drop (partLength p)
      = ((p.takeWhile fun c => !isSeparator c) ++ p.dropWhile fun c => !isSeparator c).drop
          (partLength p) := by rw [h]
    _ = p.dropWhile fun c => !isSeparator c := List.drop_left' rfl

theorem restOf_length_lt {p : FileName} (h : p ≠ []) : (restOf p).length < p.length := by
  cases p with
  | nil => exact absurd rfl h
  | cons c p =>
    rw [restOf, drop_partLength, List.length_cons]
    by_cases hc : isSeparator c = true
    · rw [List.dropWhile_cons_of_pos hc]
      have h₁ := (List.dropWhile_sublist (fun c => !isSeparator c)
        (l := p.dropWhile isSeparator)).length_le
      have h₂ := (List.dropWhile_sublist isSeparator (l := p)).length_le
      omega
    · rw [List.dropWhile_cons_of_neg hc, List.dropWhile_cons_of_pos (by simpa using hc)]
      have h₁ := (List.dropWhile_sublist (fun c => !isSeparator c) (l := p)).length_le
      omega

/-- A name as the comparison sees it: the code of each run of separators and the part behind it. -/
def tokens (p : FileName) : List (ℤ × FileName) :=
  if p = [] then []
  else
    (separatorCode (p.takeWhile isSeparator),
      (p.dropWhile isSeparator).takeWhile fun c => !isSeparator c) :: tokens (restOf p)
termination_by p.length
decreasing_by exact restOf_length_lt ‹_›

@[simp] theorem tokens_nil : tokens [] = [] := by rw [tokens, if_pos rfl]

theorem tokens_of_ne_nil {p : FileName} (h : p ≠ []) :
    tokens p = (separatorCode (p.takeWhile isSeparator),
      (p.dropWhile isSeparator).takeWhile fun c => !isSeparator c) :: tokens (restOf p) := by
  rw [tokens, if_neg h]

/-- The separator first, then the part. -/
def tokenCompare : ℤ × FileName → ℤ × FileName → Ordering :=
  compareLex (compareOn Prod.fst) (compareOn Prod.snd)

instance : TransCmp tokenCompare := inferInstanceAs (TransCmp (compareLex _ _))

instance : LawfulEqCmp tokenCompare where
  eq_of_compare h := by
    have ⟨h₁, h₂⟩ := compareLex_eq_eq.mp h
    exact Prod.ext (LawfulEqOrd.eq_of_compare (α := ℤ) h₁)
      (LawfulEqOrd.eq_of_compare (α := FileName) h₂)

/-- The order of the sequences of separators and parts. -/
def tokensCompare (a b : FileName) : Ordering :=
  List.compareLex tokenCompare (tokens a) (tokens b)

/-! ### The case-sensitive order -/

section

variable {nls : Nls}

/-- `wcsncmp` up to the shorter part and then the lengths: the order of the parts. -/
theorem compare_partCompare (nls : Nls) (p q p' q' : FileName) :
    compare (partCompare nls false (p ++ p') (q ++ q') p.length q.length) 0 = compare p q := by
  induction p generalizing q with
  | nil =>
    cases q with
    | nil => rfl
    | cons d q =>
      show compare ((0 : ℤ) - ((q.length + 1 : ℕ) : ℤ)) 0 = .lt
      rw [Int.compare_eq_lt]
      omega
  | cons c p ih =>
    cases q with
    | nil =>
      show compare (((p.length + 1 : ℕ) : ℤ) - 0) 0 = .gt
      rw [Int.compare_eq_gt]
      omega
    | cons d q =>
      have hstep : partCompare nls false (c :: p ++ p') (d :: q ++ q') (c :: p).length (d :: q).length =
          if c.val ≠ d.val then (c.val : ℤ) - d.val
          else partCompare nls false (p ++ p') (q ++ q') p.length q.length := by
        have hc := c.property.1
        have hlen : (if p.length + 1 < q.length + 1 then p.length + 1 else q.length + 1) =
            (if p.length < q.length then p.length else q.length) + 1 := by
          split_ifs <;> omega
        simp only [partCompare, List.length_cons, hlen, Bool.false_eq_true, if_false, wcsncmp,
          List.cons_append, unitAt, hc, List.tail_cons]
        by_cases hcd : c.val ≠ d.val
        · rw [if_pos hcd, if_pos hcd, if_neg (by omega)]
        · rw [if_neg hcd, if_neg hcd]
          push_cast
          rw [show (p.length : ℤ) + 1 - (q.length + 1) = p.length - q.length by ring]
      rw [hstep, List.compare_cons_cons]
      by_cases hcd : c.val = d.val
      · obtain rfl : c = d := Subtype.ext hcd
        rw [if_neg (by simp), ih, ReflOrd.compare_self]
        rfl
      · rw [if_pos hcd]
        have hval : compare c d = compare (c.val : ℤ) d.val := by
          show compare c.val d.val = _
          rw [Nat.compare_eq_ite_lt, Int.compare_eq_ite_lt]
          simp
        have hsub : compare ((c.val : ℤ) - d.val) 0 = compare (c.val : ℤ) d.val := by
          rw [Int.compare_eq_ite_lt, Int.compare_eq_ite_lt]
          split_ifs <;> first | rfl | omega
        rw [hsub, hval]
        cases hcmp : compare (c.val : ℤ) d.val with
        | eq => exact absurd (LawfulEqOrd.eq_of_compare hcmp) (by exact_mod_cast hcd)
        | lt => rfl
        | gt => rfl

theorem compare_sub_zero (c d : ℤ) : compare (c - d) 0 = compare c d := by
  rw [Int.compare_eq_ite_lt, Int.compare_eq_ite_lt]
  split_ifs <;> first | rfl | omega

theorem compareLoop_spec (n : ℕ) (p q : FileName) (h : p.length ≤ n) :
    compare (compareLoop nls false n p q) 0 = tokensCompare p q := by
  induction n generalizing p q with
  | zero =>
    obtain rfl : p = [] := List.length_eq_zero_iff.mp (by omega)
    rw [compareLoop, tokensCompare, tokens_nil]
    by_cases hq : q = []
    · rw [hq, tokens_nil]
      rfl
    · rw [if_pos rfl, if_neg hq, tokens_of_ne_nil hq]
      rfl
  | succ n ih =>
    rw [compareLoop, tokensCompare]
    by_cases hp : p = []
    · rw [if_pos (.inl hp), hp, tokens_nil]
      by_cases hq : q = []
      · rw [hq, tokens_nil]
        rfl
      · rw [if_pos rfl, if_neg hq, tokens_of_ne_nil hq]
        rfl
    by_cases hq : q = []
    · rw [if_pos (.inr hq), hq, tokens_nil, if_neg hp, if_pos rfl, tokens_of_ne_nil hp]
      rfl
    rw [if_neg (by simp [hp, hq]), tokens_of_ne_nil hp, tokens_of_ne_nil hq,
      List.compareLex_cons_cons, tokenCompare, compareLex, compareOn, compareOn]
    have hpart := compare_partCompare nls
      ((p.dropWhile isSeparator).takeWhile fun c => !isSeparator c)
      ((q.dropWhile isSeparator).takeWhile fun c => !isSeparator c)
      ((p.dropWhile isSeparator).dropWhile fun c => !isSeparator c)
      ((q.dropWhile isSeparator).dropWhile fun c => !isSeparator c)
    rw [List.takeWhile_append_dropWhile, List.takeWhile_append_dropWhile] at hpart
    have hrest := ih (restOf p) (restOf q) (by have := restOf_length_lt hp; omega)
    rw [tokensCompare] at hrest
    simp only
    by_cases hsep : separatorCode (p.takeWhile isSeparator) -
        separatorCode (q.takeWhile isSeparator) = 0
    · rw [if_neg (by simp [hsep]), show separatorCode (p.takeWhile isSeparator) =
        separatorCode (q.takeWhile isSeparator) by omega, ReflOrd.compare_self]
      show compare (if partCompare nls false _ _ (partLength _) (partLength _) ≠ 0 then _ else _) 0 =
        (compare _ _).then _
      rw [partLength, partLength, ← hpart]
      by_cases hres : partCompare nls false (p.dropWhile isSeparator) (q.dropWhile isSeparator)
          ((p.dropWhile isSeparator).takeWhile fun c => !isSeparator c).length
          ((q.dropWhile isSeparator).takeWhile fun c => !isSeparator c).length = 0
      · rw [if_neg (by simp [hres]), hres]
        exact hrest
      · rw [if_pos hres]
        cases hcmp : compare (partCompare nls false (p.dropWhile isSeparator)
          (q.dropWhile isSeparator)
          ((p.dropWhile isSeparator).takeWhile fun c => !isSeparator c).length
          ((q.dropWhile isSeparator).takeWhile fun c => !isSeparator c).length) 0 with
        | eq => exact absurd (LawfulEqOrd.eq_of_compare hcmp) hres
        | lt => rfl
        | gt => rfl
    · rw [if_pos hsep, compare_sub_zero]
      cases hcmp : compare (separatorCode (p.takeWhile isSeparator))
        (separatorCode (q.takeWhile isSeparator)) with
      | eq => exact absurd (LawfulEqOrd.eq_of_compare hcmp) (by omega)
      | lt => rfl
      | gt => rfl

/-- **The case-sensitive comparison** has the sign of the lexicographic order of the separators and
parts. -/
theorem compare_fileNameCompare (nls : Nls) (a b : FileName) :
    compare (fileNameCompare nls false a b) 0 = tokensCompare a b :=
  compareLoop_spec a.length a b le_rfl

theorem fileNodeLess_iff (nls : Nls) (a b : FileName) :
    fileNodeLess nls false a b = true ↔ tokensCompare a b = .lt := by
  rw [← compare_fileNameCompare nls, Int.compare_eq_lt, fileNodeLess]
  exact decide_eq_true_iff

instance : TransCmp tokensCompare where
  eq_swap {a b} := @OrientedCmp.eq_swap _ (List.compareLex tokenCompare) _ (tokens a) (tokens b)
  isLE_trans {a b c} :=
    @TransCmp.isLE_trans _ (List.compareLex tokenCompare) _ (tokens a) (tokens b) (tokens c)

theorem tokensCompare_self (a : FileName) : tokensCompare a a = .eq := ReflCmp.compare_self

theorem tokensCompare_swap (a b : FileName) : tokensCompare a b = (tokensCompare b a).swap :=
  OrientedCmp.eq_swap

theorem keyOrder_eq (a b : FileName) : keyOrder nls false a b = tokensCompare a b := by
  rw [keyOrder]
  cases h : tokensCompare a b with
  | lt => rw [if_pos ((fileNodeLess_iff nls a b).mpr h)]
  | eq =>
    have h' : tokensCompare b a = .eq := by rw [tokensCompare_swap, h]; rfl
    rw [if_neg (by rw [fileNodeLess_iff, h]; decide), if_neg (by rw [fileNodeLess_iff, h']; decide)]
  | gt =>
    have h' : tokensCompare b a = .lt := by rw [tokensCompare_swap, h]; rfl
    rw [if_neg (by rw [fileNodeLess_iff, h]; decide), if_pos ((fileNodeLess_iff nls b a).mpr h')]

instance : TransCmp (keyOrder nls false) := by
  have h : keyOrder nls false = tokensCompare := by
    funext a b
    exact keyOrder_eq a b
  rw [h]
  infer_instance

theorem fileNameCompare_eq_zero (a b : FileName) :
    fileNameCompare nls false a b = 0 ↔ tokens a = tokens b := by
  have h := compare_fileNameCompare nls a b
  constructor
  · intro h₀
    rw [h₀] at h
    exact @LawfulEqCmp.eq_of_compare _ (List.compareLex tokenCompare) _ _ _ h.symm
  · intro h₀
    rw [tokensCompare, h₀, ← tokensCompare, tokensCompare_self] at h
    exact LawfulEqOrd.eq_of_compare h

end

/-! ### The case-insensitive order of ASCII names -/

/-- Every unit is ASCII. -/
def Ascii (a : FileName) : Prop := ∀ c ∈ a, c.val < 128

instance (a : FileName) : Decidable (Ascii a) := List.decidableBAll ..

/-- The upper case of an ASCII letter; any other unit stays. -/
def toUpper (c : WCHAR) : WCHAR :=
  if h : 97 ≤ c.val ∧ c.val ≤ 122 then ⟨c.val - 32, by omega, by omega⟩ else c

/-- The bit trick of `MemfsUpperChar` upper-cases ASCII. -/
theorem upperChar_ascii (c : Fin 128) : upperChar (BitVec.ofNat 32 c) =
    BitVec.ofNat 32 (if 97 ≤ c.val ∧ c.val ≤ 122 then c.val - 32 else c.val) := by
  decide +revert

theorem upperChar_unit {c : WCHAR} (h : c.val < 128) :
    upperChar (BitVec.ofNat 32 c.val) = BitVec.ofNat 32 (toUpper c).val := by
  rw [upperChar_ascii ⟨c.val, h⟩, toUpper]
  split_ifs <;> rfl

theorem toUpper_val_lt {c : WCHAR} (h : c.val < 128) : (toUpper c).val < 128 := by
  rw [toUpper]
  split_ifs with hl
  · show c.val - 32 < 128
    omega
  · exact h

theorem toUpper_of_isSeparator {c : WCHAR} (h : isSeparator c = true) : toUpper c = c := by
  rw [isSeparator, Bool.or_eq_true, decide_eq_true_eq, decide_eq_true_eq] at h
  rcases h with rfl | rfl <;> decide

theorem isSeparator_toUpper (c : WCHAR) : isSeparator (toUpper c) = isSeparator c := by
  by_cases h : 97 ≤ c.val ∧ c.val ≤ 122
  · have hc : ∀ d : WCHAR, d.val < 65 ∨ 90 < d.val → toUpper c ≠ d := by
      intro d hd heq
      rw [← heq, toUpper, dif_pos h] at hd
      simp only at hd
      omega
    have hc' : ∀ d : WCHAR, d.val < 97 ∨ 122 < d.val → c ≠ d := by
      rintro d hd rfl
      omega
    rw [isSeparator, isSeparator, decide_eq_false (hc _ (by decide)),
      decide_eq_false (hc _ (by decide)), decide_eq_false (hc' _ (by decide)),
      decide_eq_false (hc' _ (by decide))]
  · rw [toUpper, dif_neg h]

theorem sub_toInt {x y : ℕ} (hx : x < 128) (hy : y < 128) :
    (BitVec.ofNat 32 x - BitVec.ofNat 32 y).toInt = (x : ℤ) - y := by
  have hone : ∀ {x : ℕ}, x < 128 → (BitVec.ofNat 32 x).toInt = x := by
    intro x hx
    have hval : (BitVec.ofNat 32 x).toNat = x := by
      rw [BitVec.toNat_ofNat, Nat.mod_eq_of_lt (by omega)]
    rw [BitVec.toInt_eq_toNat_of_lt (by rw [hval]; omega), hval]
  rw [BitVec.toInt_sub, hone hx, hone hy, Int.bmod_def]
  omega

theorem mask_ascii {x y : ℕ} (hx : x < 128) (hy : y < 128) :
    0xffffff80#32 &&& (BitVec.ofNat 32 x ||| BitVec.ofNat 32 y) = 0 := by
  have h : ∀ x y : Fin 128, 0xffffff80#32 &&& (BitVec.ofNat 32 x ||| BitVec.ofNat 32 y) = 0 := by
    intro x y
    rw [BitVec.and_or_distrib_left]
    have hone : ∀ x : Fin 128, 0xffffff80#32 &&& BitVec.ofNat 32 x = 0 := by decide
    rw [hone x, hone y]
    rfl
  exact h ⟨x, hx⟩ ⟨y, hy⟩

theorem unitAt_lt {s : FileName} (h : Ascii s) : unitAt s < 128 := by
  cases s with
  | nil => decide
  | cons c s => exact h c (List.mem_cons_self ..)

theorem upperChar_unitAt {s : FileName} (h : Ascii s) :
    upperChar (BitVec.ofNat 32 (unitAt s)) = BitVec.ofNat 32 (unitAt (s.map toUpper)) := by
  cases s with
  | nil => decide
  | cons c s => exact upperChar_unit (h c (List.mem_cons_self ..))

theorem Ascii.map_toUpper {s : FileName} (h : Ascii s) : Ascii (s.map toUpper) := by
  intro c hc
  obtain ⟨d, hd, rfl⟩ := List.mem_map.mp hc
  exact toUpper_val_lt (h d hd)

theorem Ascii.of_sublist {s t : FileName} (h : Ascii t) (hsub : List.Sublist s t) : Ascii s :=
  fun c hc => h c (hsub.subset hc)

section

variable {nls : Nls}

/-- On ASCII the fast loop is `wcsncmp` of the upper-cased units. -/
theorem wcsnicmpLoop_ascii (s₀ t₀ : FileName) (n k : ℕ) {s t : FileName} (hs : Ascii s)
    (ht : Ascii t) : wcsnicmpLoop nls s₀ t₀ n k s t = wcsncmp k (s.map toUpper) (t.map toUpper) := by
  induction k generalizing s t with
  | zero => rfl
  | succ k ih =>
    have hsu := unitAt_lt hs.map_toUpper
    have htu := unitAt_lt ht.map_toUpper
    rw [wcsnicmpLoop, wcsncmp]
    simp only
    rw [if_neg (by simp [mask_ascii (unitAt_lt hs) (unitAt_lt ht)]), upperChar_unitAt hs,
      upperChar_unitAt ht, sub_toInt hsu htu]
    by_cases hne : unitAt (s.map toUpper) = unitAt (t.map toUpper)
    · rw [if_neg (not_not.mpr hne)]
      cases t with
      | nil =>
        rw [if_pos (Or.inr (show BitVec.ofNat 32 (unitAt []) = 0 from rfl)),
          if_pos (by rw [hne]; rfl), hne]
        exact sub_self _
      | cons d t =>
        have hd : BitVec.ofNat 32 (unitAt (d :: t)) ≠ 0 := by
          intro h₀
          have h := congrArg BitVec.toNat h₀
          have hlt := d.property
          simp only [unitAt, BitVec.toNat_ofNat] at h
          rw [Nat.mod_eq_of_lt (by omega)] at h
          exact hlt.1 h
        have hd' : unitAt ((d :: t).map toUpper) ≠ 0 := (toUpper d).property.1
        rw [if_neg (not_or.mpr ⟨not_not.mpr (by rw [hne]; exact sub_self _), hd⟩),
          if_neg (by rw [hne]; exact hd'), ← List.map_tail, ← List.map_tail]
        exact ih (hs.of_sublist (List.tail_sublist s)) (ht.of_sublist (List.tail_sublist _))
    · rw [if_pos (.inl (by omega)), if_pos hne]

theorem takeWhile_isSeparator_map (p : FileName) :
    (p.map toUpper).takeWhile isSeparator = p.takeWhile isSeparator := by
  rw [List.takeWhile_map, show isSeparator ∘ toUpper = isSeparator by
    funext c; exact isSeparator_toUpper c]
  calc (p.takeWhile isSeparator).map toUpper
      = (p.takeWhile isSeparator).map id :=
        List.map_congr_left fun c hc => toUpper_of_isSeparator (List.mem_takeWhile_imp hc)
    _ = p.takeWhile isSeparator := List.map_id _

theorem dropWhile_isSeparator_map (p : FileName) :
    (p.map toUpper).dropWhile isSeparator = (p.dropWhile isSeparator).map toUpper := by
  rw [List.dropWhile_map, show isSeparator ∘ toUpper = isSeparator by
    funext c; exact isSeparator_toUpper c]

theorem partLength_map (p : FileName) : partLength (p.map toUpper) = partLength p := by
  rw [partLength, List.takeWhile_map, List.length_map, partLength]
  congr 2
  funext c
  exact congrArg (!·) (isSeparator_toUpper c)

theorem compareLoop_ascii (n : ℕ) {p q : FileName} (hp : Ascii p) (hq : Ascii q) :
    compareLoop nls true n p q = compareLoop nls false n (p.map toUpper) (q.map toUpper) := by
  have hnil : ∀ p : FileName, p.map toUpper = [] ↔ p = [] := fun p => List.map_eq_nil_iff
  induction n generalizing p q with
  | zero => simp only [compareLoop, hnil]
  | succ n ih =>
    rw [compareLoop, compareLoop]
    simp only [hnil, takeWhile_isSeparator_map, dropWhile_isSeparator_map, partLength_map]
    have hp' := hp.of_sublist (List.dropWhile_sublist isSeparator)
    have hq' := hq.of_sublist (List.dropWhile_sublist isSeparator)
    have hpart : ∀ m k, partCompare nls true (p.dropWhile isSeparator) (q.dropWhile isSeparator) m k =
        partCompare nls false ((p.dropWhile isSeparator).map toUpper)
          ((q.dropWhile isSeparator).map toUpper) m k := by
      intro m k
      simp only [partCompare, if_true, Bool.false_eq_true, if_false, wcsnicmp,
        wcsnicmpLoop_ascii _ _ _ _ hp' hq']
    rw [hpart, ih (hp'.of_sublist (List.drop_sublist ..)) (hq'.of_sublist (List.drop_sublist ..)),
      List.map_drop, List.map_drop]

/-- **The case-insensitive comparison** of ASCII names is the case-sensitive one of their upper-cased
forms. -/
theorem fileNameCompare_insensitive {a b : FileName} (ha : Ascii a) (hb : Ascii b) :
    fileNameCompare nls true a b = fileNameCompare nls false (a.map toUpper) (b.map toUpper) := by
  rw [fileNameCompare, fileNameCompare, List.length_map]
  exact compareLoop_ascii a.length ha hb

/-- **`MEMFS_FILE_NODE_LESS` is a strict weak order**, as `std::map` needs it: of all names on a
case-sensitive volume, of the ASCII ones on a case-insensitive one. -/
theorem fileNodeLess_strictWeak {caseInsensitive : Bool} {a b c : FileName}
    (h : caseInsensitive = true → Ascii a ∧ Ascii b ∧ Ascii c) :
    ¬ fileNodeLess nls caseInsensitive a a ∧
      (fileNodeLess nls caseInsensitive a b → fileNodeLess nls caseInsensitive b c →
        fileNodeLess nls caseInsensitive a c) ∧
      (¬ fileNodeLess nls caseInsensitive a b → ¬ fileNodeLess nls caseInsensitive b c →
        ¬ fileNodeLess nls caseInsensitive a c) := by
  -- both modes read the order off one sequence of separators and parts
  have hread : ∃ f : FileName → FileName, ∀ x ∈ [a, b, c], ∀ y ∈ [a, b, c],
      (fileNodeLess nls caseInsensitive x y = true ↔ tokensCompare (f x) (f y) = .lt) := by
    cases caseInsensitive with
    | false => exact ⟨id, fun x _ y _ => fileNodeLess_iff nls x y⟩
    | true =>
      obtain ⟨ha, hb, hc⟩ := h rfl
      refine ⟨List.map toUpper, fun x hx y hy => ?_⟩
      have hascii : ∀ x ∈ [a, b, c], Ascii x := by
        simp only [List.forall_mem_cons, List.not_mem_nil, false_imp_iff, implies_true, and_true]
        exact ⟨ha, hb, hc⟩
      rw [fileNodeLess, fileNameCompare_insensitive (hascii x hx) (hascii y hy)]
      exact fileNodeLess_iff nls _ _
  obtain ⟨f, hf⟩ := hread
  rw [hf a (by simp) a (by simp), hf a (by simp) b (by simp), hf b (by simp) c (by simp),
    hf a (by simp) c (by simp)]
  refine ⟨?_, ?_, ?_⟩
  · rw [tokensCompare_self]
    decide
  · intro h₁ h₂
    exact TransCmp.lt_trans h₁ h₂
  · intro h₁ h₂ h₃
    -- `c ≤ b` and `b ≤ a` give `c ≤ a`
    have hge : ∀ {x y : FileName}, ¬ tokensCompare x y = .lt → (tokensCompare y x).isLE = true := by
      intro x y hxy
      rw [tokensCompare_swap]
      revert hxy
      cases tokensCompare x y <;> decide
    have hca := TransCmp.isLE_trans (hge h₂) (hge h₁)
    rw [tokensCompare_swap, h₃] at hca
    cases hca

/-- A system that finds all ranges equal that are not ASCII. -/
def plainNls : Nls := ⟨fun _ _ => 2, fun _ _ _ => 0⟩

theorem fileNodeLess_strictWeak_letters :
    ¬ fileNodeLess plainNls true [wide 'B'] [wide 'B'] ∧
      (fileNodeLess plainNls true [wide 'B'] [wide 'a'] → fileNodeLess plainNls true [wide 'a'] [wide 'Z'] →
        fileNodeLess plainNls true [wide 'B'] [wide 'Z']) ∧
      (¬ fileNodeLess plainNls true [wide 'B'] [wide 'a'] → ¬ fileNodeLess plainNls true [wide 'a'] [wide 'Z'] →
        ¬ fileNodeLess plainNls true [wide 'B'] [wide 'Z']) :=
  fileNodeLess_strictWeak fun _ => ⟨by decide, by decide, by decide⟩

end

/-! ### Paths -/

/-- A component of a path: a name of its own, without separators. -/
abbrev Part := { p : FileName // p ≠ [] ∧ ∀ c ∈ p, isSeparator c = false }

/-- The components of a full name, from the root on. -/
abbrev Path := List Part

instance : TransOrd Part where
  eq_swap {p q} := @OrientedCmp.eq_swap _ compare _ p.val q.val
  isLE_trans {p q r} := @TransCmp.isLE_trans _ compare _ p.val q.val r.val

instance : LawfulEqOrd Part where
  eq_of_compare h := Subtype.ext (LawfulEqOrd.eq_of_compare (α := FileName) h)

/-- The full name of a path: `\` for the root, and one `\` in front of each component else. -/
def pathName : Path → FileName
  | [] => [wide '\\']
  | p :: ps => (p :: ps).flatMap fun p => wide '\\' :: p.val

theorem pathName_of_ne_nil {ps : Path} (h : ps ≠ []) :
    pathName ps = ps.flatMap fun p => wide '\\' :: p.val := by
  cases ps with
  | nil => exact absurd rfl h
  | cons p ps => rfl

theorem isSeparator_backslash : isSeparator (wide '\\') = true := by decide

theorem separatorCode_backslash : separatorCode [wide '\\'] = 2 := by decide

theorem takeWhile_part (p : Part) {rest : FileName} (h : ∀ c ∈ rest.head?, isSeparator c = true) :
    (p.val ++ rest).takeWhile (fun c => !isSeparator c) = p.val ∧
      (p.val ++ rest).dropWhile (fun c => !isSeparator c) = rest := by
  have hp : ∀ c ∈ p.val, (!isSeparator c) = true := by
    intro c hc
    rw [p.property.2 c hc]
    rfl
  rw [List.takeWhile_append_of_pos hp, List.dropWhile_append_of_pos hp]
  cases rest with
  | nil => exact ⟨List.append_nil _, rfl⟩
  | cons c rest =>
    have hc : ¬ (!isSeparator c) = true := by rw [h c rfl]; decide
    rw [List.takeWhile_cons_of_neg (p := fun c => !isSeparator c) hc,
      List.dropWhile_cons_of_neg (p := fun c => !isSeparator c) hc]
    exact ⟨List.append_nil _, rfl⟩

/-- One component at the front of a name is one token. -/
theorem tokens_part (p : Part) {rest : FileName} (h : ∀ c ∈ rest.head?, isSeparator c = true) :
    tokens (wide '\\' :: (p.val ++ rest)) = (2, p.val) :: tokens rest := by
  have hhead : ∃ c cs, p.val = c :: cs ∧ isSeparator c = false := by
    cases hp : p.val with
    | nil => exact absurd hp p.property.1
    | cons c cs => exact ⟨c, cs, rfl, p.property.2 c (by rw [hp]; exact List.mem_cons_self ..)⟩
  obtain ⟨c, cs, hp, hc⟩ := hhead
  have hstop : ¬ isSeparator c = true := by rw [hc]; decide
  have htake : (wide '\\' :: (p.val ++ rest)).takeWhile isSeparator = [wide '\\'] := by
    rw [List.takeWhile_cons_of_pos isSeparator_backslash, hp, List.cons_append,
      List.takeWhile_cons_of_neg hstop]
  have hdrop : (wide '\\' :: (p.val ++ rest)).dropWhile isSeparator = p.val ++ rest := by
    rw [List.dropWhile_cons_of_pos isSeparator_backslash, hp, List.cons_append,
      List.dropWhile_cons_of_neg hstop]
  rw [tokens_of_ne_nil (List.cons_ne_nil _ _), htake, separatorCode_backslash, restOf, hdrop,
    drop_partLength, (takeWhile_part p h).1, (takeWhile_part p h).2]

theorem head_flatMap (ps : Path) :
    ∀ c ∈ (ps.flatMap fun p => wide '\\' :: p.val).head?, isSeparator c = true := by
  intro c hc
  cases ps with
  | nil => cases hc
  | cons p ps =>
    cases hc
    exact isSeparator_backslash

theorem tokens_flatMap (ps : Path) :
    tokens (ps.flatMap fun p => wide '\\' :: p.val) = ps.map fun p => (2, p.val) := by
  induction ps with
  | nil => exact tokens_nil
  | cons p ps ih =>
    rw [List.flatMap_cons, List.cons_append, tokens_part p (head_flatMap ps), ih]
    rfl

theorem tokens_root : tokens [wide '\\'] = [(2, [])] := by
  rw [tokens_of_ne_nil (List.cons_ne_nil _ _)]
  have hrest : restOf [wide '\\'] = [] := by decide
  rw [hrest, tokens_nil]
  rfl

theorem compare_map_part (ps qs : Path) :
    List.compareLex tokenCompare (ps.map fun p => (2, p.val)) (qs.map fun q => (2, q.val)) =
      compare ps qs := by
  induction ps generalizing qs with
  | nil => cases qs <;> rfl
  | cons p ps ih =>
    cases qs with
    | nil => rfl
    | cons q qs =>
      rw [List.map_cons, List.map_cons, List.compareLex_cons_cons, List.compare_cons_cons, ih]
      rfl

/-- **The names of paths are ordered as the paths are.** -/
theorem tokensCompare_pathName (ps qs : Path) :
    tokensCompare (pathName ps) (pathName qs) = compare ps qs := by
  have hpart : ∀ p : Part, compare ([] : FileName) p.val = .lt := by
    intro p
    cases hp : p.val with
    | nil => exact absurd hp p.property.1
    | cons c cs => rfl
  rw [tokensCompare]
  cases ps with
  | nil =>
    rw [pathName, tokens_root]
    cases qs with
    | nil =>
      rw [pathName, tokens_root]
      rfl
    | cons q qs =>
      rw [pathName_of_ne_nil (List.cons_ne_nil _ _), tokens_flatMap, List.map_cons,
        List.compareLex_cons_cons, tokenCompare, compareLex, compareOn, compareOn, hpart q]
      rfl
  | cons p ps =>
    rw [pathName_of_ne_nil (List.cons_ne_nil _ _), tokens_flatMap]
    cases qs with
    | nil =>
      have hgt : compare p.val ([] : FileName) = .gt := by
        rw [OrientedOrd.eq_swap, hpart p]
        rfl
      rw [pathName, tokens_root, List.map_cons, List.compareLex_cons_cons, tokenCompare, compareLex,
        compareOn, compareOn, hgt]
      rfl
    | cons q qs =>
      rw [pathName_of_ne_nil (List.cons_ne_nil _ _), tokens_flatMap]
      exact compare_map_part _ _

theorem pathName_injective : Function.Injective pathName := by
  intro ps qs h
  have hcmp := tokensCompare_pathName ps qs
  rw [h, tokensCompare_self] at hcmp
  exact LawfulEqOrd.eq_of_compare hcmp.symm

@[simp] theorem pathName_inj {ps qs : Path} : pathName ps = pathName qs ↔ ps = qs :=
  pathName_injective.eq_iff

/-! ### Prefixes -/

/-- A cut of a name in front of a `\\`, or at its end, is a cut between components. -/
theorem take_flatMap (ps : Path) (n : ℕ)
    (hcut : n = (ps.flatMap fun p => wide '\\' :: p.val).length ∨
      (ps.flatMap fun p => wide '\\' :: p.val)[n]? = some (wide '\\')) :
    ∃ k, (ps.flatMap fun p => wide '\\' :: p.val).take n =
      (ps.take k).flatMap fun p => wide '\\' :: p.val := by
  induction ps generalizing n with
  | nil => exact ⟨0, by simp⟩
  | cons p ps ih =>
    cases n with
    | zero => exact ⟨0, rfl⟩
    | succ n =>
      rw [List.flatMap_cons, List.cons_append] at hcut ⊢
      rw [List.take_succ_cons]
      rw [List.length_cons, List.length_append, List.getElem?_cons_succ] at hcut
      have hle : p.val.length ≤ n := by
        by_contra hlt
        rcases hcut with hcut | hcut
        · omega
        · rw [List.getElem?_append_left (by omega)] at hcut
          have hsep := p.property.2 _ (List.mem_of_getElem? hcut)
          rw [isSeparator_backslash] at hsep
          cases hsep
      obtain ⟨m, rfl⟩ := Nat.exists_eq_add_of_le hle
      obtain ⟨k, hk⟩ := ih m (by
        rcases hcut with hcut | hcut
        · exact .inl (by omega)
        · rw [List.getElem?_append_right (by omega), Nat.add_sub_cancel_left] at hcut
          exact .inr hcut)
      refine ⟨k + 1, ?_⟩
      rw [List.take_length_add_append, hk, List.take_succ_cons, List.flatMap_cons, List.cons_append]

theorem map_part_injective : Function.Injective (List.map fun p : Part => ((2 : ℤ), p.val)) := by
  refine List.map_injective_iff.mpr ?_
  intro p q h
  exact Subtype.ext (congrArg Prod.snd h)

/-- **`MemfsFileNameHasPrefix`** on the names of paths is the prefix relation of the paths. -/
theorem fileNameHasPrefix_pathName (nls : Nls) (ps qs : Path) :
    fileNameHasPrefix nls false (pathName ps) (pathName qs) = true ↔ qs <+: ps := by
  rw [fileNameHasPrefix, Bool.and_eq_true, Bool.and_eq_true, decide_eq_true_eq, decide_eq_true_eq,
    fileNameCompare_eq_zero, Bool.or_eq_true, Bool.or_eq_true, decide_eq_true_eq, Bool.and_eq_true,
    decide_eq_true_eq, decide_eq_true_eq, decide_eq_true_eq]
  cases qs with
  | nil =>
    refine iff_of_true ⟨⟨?_, ?_⟩, .inl (.inr ⟨rfl, rfl⟩)⟩ List.nil_prefix
    · cases ps <;> simp [pathName]
    · cases ps <;> simp [pathName]
  | cons q qs =>
    rw [pathName_of_ne_nil (List.cons_ne_nil q qs)]
    have hlen : 2 ≤ ((q :: qs).flatMap fun p => wide '\\' :: p.val).length := by
      have hq := List.length_pos_iff.mpr q.property.1
      rw [List.flatMap_cons, List.length_append, List.length_cons]
      omega
    constructor
    · rintro ⟨⟨hle, htokens⟩, hcut⟩
      have hps : ps ≠ [] := by
        rintro rfl
        change ((q :: qs).flatMap fun p => wide '\\' :: p.val).length ≤ 1 at hle
        omega
      rw [pathName_of_ne_nil hps] at hle htokens hcut
      obtain ⟨k, hk⟩ := take_flatMap ps _ (by
        rcases hcut with (hcut | hcut) | hcut
        · exact .inl hcut.symm
        · omega
        · exact .inr hcut)
      rw [hk, tokens_flatMap, tokens_flatMap] at htokens
      rw [← map_part_injective htokens]
      exact List.take_prefix k ps
    · rintro ⟨rs, rfl⟩
      rw [pathName_of_ne_nil (by simp), List.flatMap_append, List.take_left, List.length_append]
      refine ⟨⟨by omega, rfl⟩, ?_⟩
      cases rs with
      | nil => exact .inl (.inl rfl)
      | cons r rs =>
        refine .inr ?_
        rw [List.getElem?_append_right (Nat.le_refl _), Nat.sub_self]
        rfl

end FtjSsdSim.Vdisk

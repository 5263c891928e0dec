import Mathlib
import FtjSsdSim.Hdl.BdiEncoder

/-!
# The stored byte stream of encoded words

Downstream of the encoder only the payload bytes travel: the serializer forwards the first
`valid_bytes` bytes of each word and neither it nor the chip top keeps `comp_type`.  A word of type
zero, uniform or base4 opens with its tag, a raw word opens with its own low byte.

The stream is therefore a code in which only a raw word can be taken for something else:
`types_differ_bytes_differ` shows that two word sequences with different types have the same bytes
exactly when, where the types first part, one word is raw and its untagged bytes, with what follows
them, read as the words opposite.
-/

namespace FtjSsdSim.Hdl.BdiStream

open FtjSsdSim.Library
open FtjSsdSim.Hdl.BdiEncoder

/-- `comp_type` of a word. -/
def typeOf (w : Word) : CompType := (ftjBdiEncoder w).compType

/-- The encoding types of a word sequence. -/
def types (ws : List Word) : List CompType := ws.map typeOf

/-- The bytes stored for a word sequence: the payloads, word by word. -/
def storedBytes (ws : List Word) : List Byte := ws.flatMap payload

/-- The tag byte of the three tagged types. -/
def tag : CompType → Byte
  | .zero => 0x00
  | .uniform => 0x01
  | .base4 => 0x02
  | .raw => 0x03

/-- The bytes read as the words, payload after payload, with no byte left over. -/
def ReadsAs (bytes : List Byte) : List Word → Prop
  | [] => bytes = []
  | w :: ws => payload w <+: bytes ∧ ReadsAs (bytes.drop (payload w).length) ws

instance decidableReadsAs (bytes : List Byte) : (ws : List Word) → Decidable (ReadsAs bytes ws)
  | [] => inferInstanceAs (Decidable (bytes = []))
  | w :: ws =>
    have := decidableReadsAs (bytes.drop (payload w).length) ws
    inferInstanceAs (Decidable (_ ∧ _))

/-- The two sequences store the same bytes word by word up to the place where their types first
differ; there one word is raw, and the bytes from it on read as the words of the other side. -/
def RawImitation : List Word → List Word → Prop
  | a :: as, b :: bs =>
    if typeOf a = typeOf b then payload a = payload b ∧ RawImitation as bs
    else
      (typeOf a = .raw ∧ ReadsAs (storedBytes (a :: as)) (b :: bs)) ∨
        (typeOf b = .raw ∧ ReadsAs (storedBytes (b :: bs)) (a :: as))
  | _, _ => False

instance decidableRawImitation : (as bs : List Word) → Decidable (RawImitation as bs)
  | [], _ => isFalse (fun h => h)
  | _ :: _, [] => isFalse (fun h => h)
  | a :: as, b :: bs =>
    have := decidableRawImitation as bs
    if h : typeOf a = typeOf b then
      decidable_of_iff (payload a = payload b ∧ RawImitation as bs) (by rw [RawImitation, if_pos h])
    else
      decidable_of_iff ((typeOf a = .raw ∧ ReadsAs (storedBytes (a :: as)) (b :: bs)) ∨
        (typeOf b = .raw ∧ ReadsAs (storedBytes (b :: bs)) (a :: as)))
        (by rw [RawImitation, if_neg h])

/-! ### Payloads -/

/-- The number of payload bytes of each type. -/
def sizeOfType : CompType → ℕ
  | .zero => 1
  | .uniform => 2
  | .base4 => 6
  | .raw => 8

theorem payload_length (w : Word) : (payload w).length = sizeOfType (typeOf w) := by
  have htype : typeOf w = (stored w).1 := rfl
  have hpay : payload w = (stored w).2 := rfl
  rw [htype, hpay]
  rcases stored_cases w with ⟨-, hs⟩ | ⟨-, -, hs⟩ | ⟨-, -, hs⟩ | ⟨-, -, hs⟩ <;> rw [hs]
  · rfl
  · rfl
  · rfl
  · exact bytesLE_length 8 w

theorem sizeOfType_pos (t : CompType) : 0 < sizeOfType t := by cases t <;> decide

/-- The first payload byte: the tag, or the low byte of a raw word. -/
theorem payload_head (w : Word) :
    (payload w).head? = some (if typeOf w = .raw then byteAt w 0 else tag (typeOf w)) := by
  have htype : typeOf w = (stored w).1 := rfl
  have hpay : payload w = (stored w).2 := rfl
  rw [htype, hpay]
  rcases stored_cases w with ⟨-, hs⟩ | ⟨-, -, hs⟩ | ⟨-, -, hs⟩ | ⟨-, -, hs⟩ <;> rw [hs] <;> rfl

theorem payload_ne_nil (w : Word) : payload w ≠ [] := by
  intro h
  have := payload_length w
  rw [h] at this
  exact absurd this.symm (Nat.pos_iff_ne_zero.mp (sizeOfType_pos _))

/-- Of two words of different types with the same first byte, one is raw: the tags are distinct. -/
theorem raw_of_head_eq {a b : Word} (ht : typeOf a ≠ typeOf b)
    (hh : (payload a).head? = (payload b).head?) : typeOf a = .raw ∨ typeOf b = .raw := by
  by_contra hraw
  push Not at hraw
  rw [payload_head, payload_head, Option.some.injEq, if_neg hraw.1, if_neg hraw.2] at hh
  cases hta : typeOf a <;> cases htb : typeOf b <;> simp_all [tag]

/-! ### Streams -/

theorem storedBytes_cons (a : Word) (as : List Word) :
    storedBytes (a :: as) = payload a ++ storedBytes as := rfl

theorem head?_flatMap_cons (a : Word) (as : List Word) :
    (storedBytes (a :: as)).head? = (payload a).head? := by
  rw [storedBytes_cons, List.head?_append_of_ne_nil _ (payload_ne_nil a)]

theorem storedBytes_cons_ne_nil (a : Word) (as : List Word) : storedBytes (a :: as) ≠ [] :=
  fun h => payload_ne_nil a (List.append_eq_nil_iff.mp h).1

theorem payload_length_eq {a b : Word} (ht : typeOf a = typeOf b) :
    (payload a).length = (payload b).length := by
  rw [payload_length, payload_length, ht]

/-- What reads as a word sequence is what the sequence stores. -/
theorem readsAs_iff (bytes : List Byte) (ws : List Word) :
    ReadsAs bytes ws ↔ bytes = storedBytes ws := by
  induction ws generalizing bytes with
  | nil => rfl
  | cons w ws ih =>
    rw [ReadsAs, ih, storedBytes_cons]
    constructor
    · rintro ⟨⟨rest, rfl⟩, hrest⟩
      rw [List.drop_left] at hrest
      rw [hrest]
    · rintro rfl
      exact ⟨List.prefix_append _ _, List.drop_left⟩

/-- Words of different types where the bytes agree: one side is raw and reads as the other. -/
theorem storedBytes_eq_iff_of_types_ne {a b : Word} {as bs : List Word}
    (ht : typeOf a ≠ typeOf b) :
    storedBytes (a :: as) = storedBytes (b :: bs) ↔ RawImitation (a :: as) (b :: bs) := by
  rw [RawImitation, if_neg ht, readsAs_iff, readsAs_iff]
  constructor
  · intro h
    have hh := congrArg List.head? h
    rw [head?_flatMap_cons, head?_flatMap_cons] at hh
    exact (raw_of_head_eq ht hh).imp (fun hr => ⟨hr, h⟩) (fun hr => ⟨hr, h.symm⟩)
  · rintro (⟨-, h⟩ | ⟨-, h⟩)
    · exact h
    · exact h.symm

/-- Two streams with different types have the same bytes exactly at a raw imitation. -/
theorem storedBytes_eq_iff (as bs : List Word) (ht : types as ≠ types bs) :
    storedBytes as = storedBytes bs ↔ RawImitation as bs := by
  induction as generalizing bs with
  | nil =>
    cases bs with
    | nil => exact absurd rfl ht
    | cons b bs => exact ⟨fun h => absurd h.symm (storedBytes_cons_ne_nil b bs), False.elim⟩
  | cons a as ih =>
    cases bs with
    | nil => exact ⟨fun h => absurd h (storedBytes_cons_ne_nil a as), False.elim⟩
    | cons b bs =>
      by_cases hab : typeOf a = typeOf b
      · have htail : types as ≠ types bs := fun h => ht (congrArg₂ List.cons hab h)
        rw [RawImitation, if_pos hab, ← ih bs htail, storedBytes_cons, storedBytes_cons]
        constructor
        · -- equal types have payloads of equal length, so the streams split at the same place
          exact fun h => List.append_inj h (payload_length_eq hab)
        · rintro ⟨hp, hrest⟩
          rw [hp, hrest]
      · exact storedBytes_eq_iff_of_types_ne hab

/-- **Parsing the stream.**  Word sequences with different types have different bytes, except
exactly where a raw word reads as the words opposite. -/
theorem types_differ_bytes_differ (as bs : List Word) (ht : types as ≠ types bs) :
    storedBytes as ≠ storedBytes bs ↔ ¬ RawImitation as bs :=
  not_congr (storedBytes_eq_iff as bs ht)

theorem types_differ_bytes_differ_raw_zero :
    types [0x4242424242424242, 0x0123456789ABCD00] ≠ types [0x4242424242424242, 0] ∧
      ¬ RawImitation [0x4242424242424242, 0x0123456789ABCD00] [0x4242424242424242, 0] ∧
      storedBytes [0x4242424242424242, 0x0123456789ABCD00] ≠
        storedBytes [0x4242424242424242, 0] := by
  have ht : types [0x4242424242424242, 0x0123456789ABCD00] ≠ types [0x4242424242424242, 0] := by
    decide
  -- the raw word's low byte is the tag of zero, but its other bytes are left over
  have hi : ¬ RawImitation [0x4242424242424242, 0x0123456789ABCD00] [0x4242424242424242, 0] := by
    decide
  exact ⟨ht, hi, (types_differ_bytes_differ _ _ ht).mpr hi⟩

example : RawImitation [0, 0x4001400140014001] (0 :: List.replicate 4 0x4040404040404040) := by
  decide

/-- A raw word of four tag-and-base pairs reads as four uniform words. -/
theorem raw_reads_as_uniform :
    types [0x4001400140014001] ≠ types (List.replicate 4 0x4040404040404040) ∧
      storedBytes [0x4001400140014001] = storedBytes (List.replicate 4 0x4040404040404040) := by
  decide

end FtjSsdSim.Hdl.BdiStream

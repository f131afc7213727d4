import Mathlib.Data.List.Basic
import Mathlib.Data.List.TakeWhile

/-!
# Codes that are read word by word

A code gives each letter a word. If a reader takes exactly one word off the front of every text, then a
text is decoded by reading on (`decode_flatMap`), and no two lists of letters have the same text. A word of a
class of characters ends before the first character outside the class (`takeWhile_word`, `dropWhile_word`).
-/

namespace Eecs678.Lib.PrefixCode

variable {α β : Type}

/-- The reader takes the word of `a` off every text that starts with it. -/
def Reads (read : List β → Option (α × List β)) (code : α → List β) (a : α) : Prop :=
  ∀ rest, read (code a ++ rest) = some (a, rest)

/-- At most `n` letters, read one by one. -/
def decodeN (read : List β → Option (α × List β)) : ℕ → List β → List α
  | 0, _ => []
  | n + 1, text =>
    match read text with
    | none => []
    | some (a, rest) => a :: decodeN read n rest

/-- All letters of a text. A word takes a character, so there are no more letters than characters. -/
def decode (read : List β → Option (α × List β)) (text : List β) : List α :=
  decodeN read text.length text

variable {read : List β → Option (α × List β)} {code : α → List β}

theorem Reads.ne_nil {a : α} (hnil : read [] = none) (h : Reads read code a) : code a ≠ [] := by
  intro he
  have hread := h []
  rw [he, List.append_nil, hnil] at hread
  cases hread

theorem decodeN_flatMap (hnil : read [] = none) : ∀ {n : ℕ} {l : List α}, (∀ a ∈ l, Reads read code a) →
    (l.flatMap code).length ≤ n → decodeN read n (l.flatMap code) = l
  | 0, [], _, _ => rfl
  | n + 1, [], _, _ => by
    rw [List.flatMap_nil, decodeN, hnil]
  | 0, a :: l, h, hlen => by
    have hpos := List.length_pos_of_ne_nil ((h a (List.mem_cons_self ..)).ne_nil hnil)
    rw [List.flatMap_cons, List.length_append] at hlen
    omega
  | n + 1, a :: l, h, hlen => by
    have ha := h a (List.mem_cons_self ..)
    have hpos := List.length_pos_of_ne_nil (ha.ne_nil hnil)
    rw [List.flatMap_cons, List.length_append] at hlen
    rw [List.flatMap_cons, decodeN, ha]
    simp only
    rw [decodeN_flatMap hnil (fun b hb => h b (List.mem_cons_of_mem a hb)) (by omega)]

/-- **Decoding** gives back the letters. -/
theorem decode_flatMap (hnil : read [] = none) {l : List α} (h : ∀ a ∈ l, Reads read code a) :
    decode read (l.flatMap code) = l :=
  decodeN_flatMap hnil h (Nat.le_refl _)

/-! ### Words of a class of characters -/

variable {p : β → Bool} {word rest : List β} {b : β}

theorem takeWhile_word (hword : ∀ c ∈ word, p c = true) (hb : p b = false) :
    (word ++ b :: rest).takeWhile p = word := by
  rw [List.takeWhile_append_of_pos hword, List.takeWhile_cons_of_neg (by simp [hb]), List.append_nil]

theorem dropWhile_word (hword : ∀ c ∈ word, p c = true) (hb : p b = false) :
    (word ++ b :: rest).dropWhile p = b :: rest := by
  rw [List.dropWhile_append_of_pos hword, List.dropWhile_cons_of_neg (by simp [hb])]

end Eecs678.Lib.PrefixCode

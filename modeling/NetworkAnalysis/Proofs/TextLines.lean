import Mathlib.Data.List.TakeWhile
import NetworkAnalysis.Text.Split

/-!
# Parts of texts, and texts as bytes

Splitting goes on behind a separator as if the text began there, and puts a row of other entries in front of the first
part. A trimmed text is the text without a row of blanks on each side. No byte of a character but the line feed is the
code of a line feed, so that cutting the bytes of a text into lines cuts the text.
-/

namespace NetworkAnalysis.Text

/-! ## Splitting -/

section Splitting

variable {β : Type} {isSeparator : β → Bool}

theorem splitOn_eq_splitOnP (entries : List β) : splitOn isSeparator entries = entries.splitOnP isSeparator := by
  induction entries with
  | nil => rfl
  | cons entry rest ih =>
    show extend isSeparator entry (splitOn isSeparator rest) = _
    rw [ih, List.splitOnP_cons_eq_if_modifyHead]
    unfold extend
    split
    · rfl
    · cases split : rest.splitOnP isSeparator with
      | nil => exact absurd split (List.splitOnP_ne_nil isSeparator rest)
      | cons part parts => rfl

theorem exists_splitOn_eq_cons (isSeparator : β → Bool) (entries : List β) :
    ∃ part parts, splitOn isSeparator entries = part :: parts := by
  rw [splitOn_eq_splitOnP]
  exact List.exists_cons_of_ne_nil (List.splitOnP_ne_nil isSeparator entries)

theorem splitOn_append_separator (front : List β) {entry : β} (separates : isSeparator entry) (rest : List β) :
    splitOn isSeparator (front ++ entry :: rest) = splitOn isSeparator front ++ splitOn isSeparator rest := by
  rw [splitOn_eq_splitOnP, splitOn_eq_splitOnP, splitOn_eq_splitOnP]
  exact List.splitOnP_append_cons front rest separates

theorem splitOn_separator {entry : β} (separates : isSeparator entry) (rest : List β) :
    splitOn isSeparator (entry :: rest) = [] :: splitOn isSeparator rest :=
  splitOn_append_separator [] separates rest

theorem splitOn_word {word : List β} (solid : ∀ entry ∈ word, isSeparator entry = false) :
    splitOn isSeparator word = [word] := by
  rw [splitOn_eq_splitOnP]
  exact List.splitOnP_eq_singleton solid

theorem splitOn_entry {entry : β} {part : List β} {parts : List (List β)} {rest : List β}
    (other : isSeparator entry = false) (split : splitOn isSeparator rest = part :: parts) :
    splitOn isSeparator (entry :: rest) = (entry :: part) :: parts := by
  show extend isSeparator entry (splitOn isSeparator rest) = _
  rw [split, extend, if_neg (Bool.eq_false_iff.1 other)]

theorem splitOn_append_word {word : List β} (solid : ∀ entry ∈ word, isSeparator entry = false) {part : List β}
    {parts : List (List β)} {rest : List β} (split : splitOn isSeparator rest = part :: parts) :
    splitOn isSeparator (word ++ rest) = (word ++ part) :: parts := by
  induction word with
  | nil => exact split
  | cons first word ih =>
    have later := ih fun entry member => solid entry (List.mem_cons_of_mem first member)
    exact splitOn_entry (solid first List.mem_cons_self) later

end Splitting

/-! ## Trimming -/

theorem exists_trim (text : List Char) :
    ∃ front back, (∀ c ∈ front, isBlank c) ∧ (∀ c ∈ back, isBlank c) ∧ text = front ++ trim text ++ back := by
  let left := trimLeft text
  refine ⟨text.takeWhile isBlank, (left.reverse.takeWhile isBlank).reverse, fun c => List.mem_takeWhile_imp, ?_, ?_⟩
  · intro c member
    exact List.mem_takeWhile_imp (List.mem_reverse.1 member)
  · have back : left = trim text ++ (left.reverse.takeWhile isBlank).reverse := by
      show left = (left.reverse.dropWhile isBlank).reverse ++ _
      rw [← List.reverse_append, List.takeWhile_append_dropWhile, List.reverse_reverse]
    rw [List.append_assoc, ← back]
    exact List.takeWhile_append_dropWhile.symm

theorem trim_eq_nil_iff (text : List Char) : trim text = [] ↔ ∀ c ∈ text, isBlank c := by
  constructor
  · intro nothing
    obtain ⟨front, back, before, behind, parts⟩ := exists_trim text
    rw [nothing, List.append_nil] at parts
    intro c member
    rw [parts, List.mem_append] at member
    exact member.elim (before c) (behind c)
  · intro blank
    have left : trimLeft text = [] := List.dropWhile_eq_nil_iff.2 blank
    rw [trim, left]
    rfl

/-! ## Bytes -/

theorem toList_bytes (bytes : ByteArray) : bytes.toList = bytes.data.toList := by
  have loop : ∀ (i : Nat) (before : List UInt8),
      ByteArray.toList.loop bytes i before = before.reverse ++ bytes.data.toList.drop i := by
    intro i before
    fun_induction ByteArray.toList.loop bytes i before with
    | case1 i before inside ih =>
      have bound : i < bytes.data.toList.length := inside
      have here : bytes.get! i = bytes.data.toList[i] := by
        simp [ByteArray.get!, getElem!_pos bytes.data i inside]
      rw [ih, List.drop_eq_getElem_cons bound, here, List.reverse_cons, List.append_assoc]
      rfl
    | case2 i before outside =>
      have bound : bytes.data.toList.length ≤ i := Nat.le_of_not_lt outside
      rw [List.drop_eq_nil_of_le bound, List.append_nil]
  exact loop 0 []

/-- The bytes of a text. -/
def encode (text : List Char) : List UInt8 :=
  text.flatMap String.utf8EncodeChar

theorem toList_toUTF8 (text : String) : text.toUTF8.toList = encode text.toList := by
  rw [toList_bytes]
  show text.toByteArray.data.toList = _
  rw [← String.utf8Encode_toList]
  exact List.toList_data_toByteArray

theorem fromUTF8?_encode (text : List Char) :
    String.fromUTF8? ⟨(encode text).toArray⟩ = some (String.ofList text) := by
  have bytes : (⟨(encode text).toArray⟩ : ByteArray) = (String.ofList text).toByteArray := by
    rw [String.toByteArray_ofList]
    exact ByteArray.ext List.data_toByteArray.symm
  rw [bytes]
  exact dif_pos (String.ofList text).isValidUTF8

theorem utf8EncodeChar_newline : String.utf8EncodeChar '\n' = [10] := by decide

theorem ne_newline_of_mem_utf8EncodeChar {c : Char} (other : c ≠ '\n') :
    ∀ byte ∈ String.utf8EncodeChar c, (byte == 10) = false := by
  have code : c.val.toNat ≠ 10 := by
    intro same
    exact other (Char.ext (UInt32.toNat_inj.1 same))
  intro byte member
  rw [beq_eq_false_iff_ne, ne_eq, ← UInt8.toNat_inj]
  unfold String.utf8EncodeChar at member
  dsimp only at member
  generalize c.val.toNat = v at code member
  have high : ∀ low mark, 128 ≤ mark → low + mark < 256 → (UInt8.ofNat (low + mark)).toNat ≠ 10 := by
    intro low mark large fits
    show (low + mark) % 256 ≠ 10
    omega
  split at member
  · obtain rfl := List.mem_singleton.1 member
    show v % 256 ≠ 10
    omega
  -- Of more bytes than one, each has its highest bit set.
  · split at member
    · simp only [List.mem_cons, List.not_mem_nil, or_false] at member
      rcases member with rfl | rfl <;> exact high _ _ (by omega) (by omega)
    · split at member
      · simp only [List.mem_cons, List.not_mem_nil, or_false] at member
        rcases member with rfl | rfl | rfl <;> exact high _ _ (by omega) (by omega)
      · simp only [List.mem_cons, List.not_mem_nil, or_false] at member
        rcases member with rfl | rfl | rfl | rfl <;> exact high _ _ (by omega) (by omega)

/-- Cutting the bytes of a text at line feeds cuts the text at line feeds. -/
theorem splitOn_encode (text : List Char) :
    splitOn (· == 10) (encode text) = (splitOn (· == '\n') text).map encode := by
  induction text with
  | nil => rfl
  | cons c rest ih =>
    obtain ⟨part, parts, split⟩ := exists_splitOn_eq_cons (· == '\n') rest
    rw [split, List.map_cons] at ih
    show splitOn _ (String.utf8EncodeChar c ++ encode rest) = _
    by_cases newline : c = '\n'
    · subst newline
      have cut : splitOn (· == '\n') ('\n' :: rest) = [] :: splitOn (· == '\n') rest :=
        splitOn_separator (by decide) rest
      have cut' : splitOn (· == 10) (10 :: encode rest) = [] :: splitOn (· == 10) (encode rest) :=
        splitOn_separator (by decide) (encode rest)
      rw [utf8EncodeChar_newline, cut, split]
      exact cut'.trans (congrArg _ ih)
    · have kept : splitOn (· == '\n') (c :: rest) = (c :: part) :: parts :=
        splitOn_entry (beq_eq_false_iff_ne.2 newline) split
      rw [kept]
      exact splitOn_append_word (ne_newline_of_mem_utf8EncodeChar newline) ih

end NetworkAnalysis.Text

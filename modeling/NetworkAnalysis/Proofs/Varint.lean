import NetworkAnalysis.Proofs.Paged
import NetworkAnalysis.Varint

/-!
# Variable-length numbers are read back

Wherever the bytes of a number stand in an array, reading at a cursor that stands before them gives the
number and a cursor that stands behind them. So a reader takes up one number after the other, however the
pages of the array cut their bytes.
-/

namespace NetworkAnalysis.Varint

theorem encode_of_lt {value : Nat} (h : value < 128) : encode value = [UInt8.ofNat value] := by
  rw [encode, if_pos h]

theorem encode_of_le {value : Nat} (h : 128 ≤ value) :
    encode value = UInt8.ofNat (value % 128 + 128) :: encode (value / 128) := by
  rw [encode, if_neg (Nat.not_lt.2 h)]

theorem encode_ne_nil (value : Nat) : encode value ≠ [] := by
  rw [encode]
  split <;> simp

theorem length_encode_pos (value : Nat) : 0 < (encode value).length :=
  List.length_pos_iff.2 (encode_ne_nil value)

theorem toNat_ofNat_of_lt {digit : Nat} (h : digit < 256) : (UInt8.ofNat digit).toNat = digit := by
  rw [UInt8.toNat_ofNat', Nat.mod_eq_of_lt h]

theorem readDigits_encode {bytes : Paged UInt8} (well : bytes.WellFormed) (value : Nat)
    {cursor : Paged.Cursor} {rest : List UInt8} (faces : bytes.Faces cursor (encode value ++ rest))
    {bound : Nat} (enough : (encode value).length ≤ bound) :
    ∃ cursor', readDigits bytes bound cursor = some (value, cursor') ∧ bytes.Faces cursor' rest := by
  induction value using Nat.strongRecOn generalizing cursor bound with
  | _ value ih =>
    obtain ⟨bound, rfl⟩ : ∃ less, bound = less + 1 :=
      Nat.exists_eq_add_one.2 (Nat.lt_of_lt_of_le (length_encode_pos value) enough)
    rcases Nat.lt_or_ge value 128 with small | large
    · rw [encode_of_lt small] at faces
      obtain ⟨cursor', here, faces⟩ := faces.next? well
      have byte := toNat_ofNat_of_lt (Nat.lt_trans small (by decide : 128 < 256))
      refine ⟨cursor', ?_, faces⟩
      simp only [readDigits, here, byte, small, if_true]
    · rw [encode_of_le large, List.length_cons] at enough
      rw [encode_of_le large, List.cons_append] at faces
      obtain ⟨next, here, faces⟩ := faces.next? well
      obtain ⟨cursor', others, faces⟩ :=
        ih (value / 128) (by omega) faces (Nat.le_of_succ_le_succ enough)
      have byte : (UInt8.ofNat (value % 128 + 128)).toNat = value % 128 + 128 :=
        toNat_ofNat_of_lt (by omega)
      have more : ¬ value % 128 + 128 < 128 := by omega
      refine ⟨cursor', ?_, faces⟩
      simp only [readDigits, here, byte, more, if_false, others, Option.map_some, Option.some.injEq,
        Prod.mk.injEq, and_true]
      omega

/-- A number that fits into a word is read back from its bytes. -/
theorem readAt_encode {bytes : Paged UInt8} (well : bytes.WellFormed) {value : Nat}
    (word : value < wordValues) {cursor : Paged.Cursor} {rest : List UInt8}
    (faces : bytes.Faces cursor (encode value ++ rest)) :
    ∃ cursor', readAt bytes cursor = some (value, cursor') ∧ bytes.Faces cursor' rest := by
  have length := faces.length_le well
  rw [List.length_append] at length
  have enough : (encode value).length ≤ bytes.size := by omega
  obtain ⟨cursor', digits, faces⟩ := readDigits_encode well value faces enough
  refine ⟨cursor', ?_, faces⟩
  rw [readAt, digits, Option.map_some]
  simp only [Nat.mod_eq_of_lt word]

/-- Reads `count` numbers, each of them behind the one before. -/
def readMany (bytes : Paged UInt8) : (count : Nat) → Paged.Cursor → Option (List Nat × Paged.Cursor)
  | 0, cursor => some ([], cursor)
  | count + 1, cursor =>
    (readAt bytes cursor).bind fun (value, cursor) =>
      (readMany bytes count cursor).map fun (values, cursor) => (value :: values, cursor)

theorem readMany_encode {bytes : Paged UInt8} (well : bytes.WellFormed) {values : List Nat}
    (words : ∀ value ∈ values, value < wordValues) {cursor : Paged.Cursor} {rest : List UInt8}
    (faces : bytes.Faces cursor (values.flatMap encode ++ rest)) :
    ∃ cursor', readMany bytes values.length cursor = some (values, cursor') ∧ bytes.Faces cursor' rest := by
  induction values generalizing cursor with
  | nil => exact ⟨cursor, rfl, faces⟩
  | cons value values ih =>
    rw [List.forall_mem_cons] at words
    rw [List.flatMap_cons, List.append_assoc] at faces
    obtain ⟨next, here, faces⟩ := readAt_encode well words.1 faces
    obtain ⟨cursor', others, faces⟩ := ih words.2 faces
    refine ⟨cursor', ?_, faces⟩
    simp only [List.length_cons, readMany, here, others, Option.bind_some, Option.map_some]

end NetworkAnalysis.Varint

import Mathlib.Data.Nat.Digits.Defs
import NetworkAnalysis.Proofs.Varint

/-!
# The forms of a number in base 128

Bytes are a form of a number if their low bits are its digits, least significant first, and their high bits say of
each byte whether another one follows (`Form`). As zeros may stand behind the digits, a number has many forms. Its
encoding is the shortest of them, and no form begins another one, so that a reader knows where each number ends.
-/

namespace NetworkAnalysis.Varint

/-- Bytes that stand for a number. -/
structure Form (value : Nat) (bytes : List UInt8) : Prop where
  continued : ∀ byte ∈ bytes.dropLast, 128 ≤ byte.toNat
  ended : ∃ last ∈ bytes.getLast?, last.toNat < 128
  digits : Nat.ofDigits 128 (bytes.map fun byte => byte.toNat % 128) = value

theorem not_form_nil (value : Nat) : ¬ Form value [] := by
  rintro ⟨-, ⟨last, ended, -⟩, -⟩
  simp at ended

theorem form_singleton_iff {value : Nat} {byte : UInt8} :
    Form value [byte] ↔ byte.toNat = value ∧ value < 128 := by
  constructor
  · rintro ⟨-, ended, digits⟩
    have small : byte.toNat < 128 := by simpa using ended
    simp [Nat.mod_eq_of_lt small] at digits
    omega
  · rintro ⟨rfl, small⟩
    exact ⟨by simp, by simpa using small, by simpa using small⟩

theorem form_cons_iff {value : Nat} {byte : UInt8} {rest : List UInt8} (more : rest ≠ []) :
    Form value (byte :: rest) ↔ byte.toNat = value % 128 + 128 ∧ Form (value / 128) rest := by
  obtain ⟨next, rest, rfl⟩ := List.exists_cons_of_ne_nil more
  have bound := byte.toNat_lt
  constructor
  · rintro ⟨continued, ended, digits⟩
    simp only [List.dropLast_cons_cons, List.forall_mem_cons] at continued
    rw [List.map_cons, Nat.ofDigits_cons] at digits
    have := continued.1
    refine ⟨by omega, continued.2, by simpa using ended, ?_⟩
    omega
  · rintro ⟨digit, continued, ended, digits⟩
    refine ⟨?_, by simpa using ended, ?_⟩
    · simp only [List.dropLast_cons_cons, List.forall_mem_cons]
      exact ⟨by omega, continued⟩
    · rw [List.map_cons, Nat.ofDigits_cons, digits]
      omega

theorem form_encode (value : Nat) : Form value (encode value) := by
  induction value using Nat.strongRecOn with
  | _ value ih =>
    rcases Nat.lt_or_ge value 128 with small | large
    · rw [encode_of_lt small, form_singleton_iff]
      exact ⟨toNat_ofNat_of_lt (by omega), small⟩
    · rw [encode_of_le large, form_cons_iff (encode_ne_nil _)]
      exact ⟨toNat_ofNat_of_lt (by omega), ih _ (by omega)⟩

namespace Form

variable {value value' : Nat} {bytes bytes' : List UInt8}

/-- Every other form is longer than the encoding. -/
theorem eq_encode_or_lt (h : Form value bytes) : bytes = encode value ∨ (encode value).length < bytes.length := by
  induction bytes generalizing value with
  | nil => exact absurd h (not_form_nil value)
  | cons byte rest ih =>
    rcases eq_or_ne rest [] with rfl | more
    · obtain ⟨rfl, small⟩ := form_singleton_iff.1 h
      left
      simp [encode_of_lt small]
    · obtain ⟨digit, others⟩ := (form_cons_iff more).1 h
      have byte_eq : UInt8.ofNat (value % 128 + 128) = byte := by simp [← digit]
      rcases Nat.lt_or_ge value 128 with small | large
      · right
        have := List.length_pos_iff.2 more
        simp only [encode_of_lt small, List.length_cons, List.length_nil]
        omega
      · rw [encode_of_le large, byte_eq]
        rcases ih others with same | longer
        · exact .inl (congrArg _ same)
        · exact .inr (Nat.succ_lt_succ longer)

/-- No form begins the form of another number. -/
theorem eq_of_begins (h : Form value bytes) (h' : Form value' bytes') (begins : bytes <+: bytes') :
    value = value' := by
  induction bytes generalizing value value' bytes' with
  | nil => exact absurd h (not_form_nil value)
  | cons byte rest ih =>
    cases bytes' with
    | nil => exact absurd h' (not_form_nil value')
    | cons byte' rest' =>
      obtain ⟨rfl, behind⟩ := List.cons_prefix_cons.1 begins
      rcases eq_or_ne rest [] with rfl | more <;> rcases eq_or_ne rest' [] with rfl | more'
      · have := form_singleton_iff.1 h
        have := form_singleton_iff.1 h'
        omega
      · -- the high bit cannot be both
        have := form_singleton_iff.1 h
        have := (form_cons_iff more').1 h'
        omega
      · exact absurd (List.prefix_nil.1 behind) more
      · obtain ⟨digit, others⟩ := (form_cons_iff more).1 h
        obtain ⟨digit', others'⟩ := (form_cons_iff more').1 h'
        have := ih others others' behind
        omega

end Form

theorem length_encode_le {value k : Nat} (bound : value < 128 ^ (k + 1)) : (encode value).length ≤ k + 1 := by
  induction k generalizing value with
  | zero => simp [encode_of_lt (by simpa using bound)]
  | succ k ih =>
    rcases Nat.lt_or_ge value 128 with small | large
    · simp [encode_of_lt small]
    · rw [encode_of_le large, List.length_cons]
      apply Nat.succ_le_succ
      apply ih
      rw [Nat.div_lt_iff_lt_mul (by decide)]
      rwa [pow_succ] at bound

/-- Whatever bytes come before and behind, words that are written one after the other are read back in order from
where the first one starts, and the reader then stands exactly behind the last one. The encoding of a word has one to
ten bytes, is its only form as short as that, and begins the encoding of no other number. -/
theorem encodings_read_back (front : List UInt8) {values : List Nat} (words : ∀ value ∈ values, value < wordValues)
    (behind : List UInt8) :
    (let written := values.foldl (fun b value => b.append (encode value)) (Paged.Builder.empty.append front)
      let bytes := (written.append behind).build
      ∃ cursor, readMany bytes values.length (.ofIndex front.length) = some (values, cursor)
        ∧ bytes.ahead cursor = behind
        ∧ (behind ≠ [] → cursor = .ofIndex (front.length + (values.flatMap encode).length)))
      ∧ ∀ value < wordValues, 1 ≤ (encode value).length ∧ (encode value).length ≤ 10 ∧ Form value (encode value)
        ∧ (∀ bytes, Form value bytes → bytes = encode value ∨ (encode value).length < bytes.length)
        ∧ ∀ other, encode value <+: encode other → value = other := by
  refine ⟨?_, fun value word => ⟨length_encode_pos value, ?_, form_encode value, fun _ => Form.eq_encode_or_lt,
    fun other => (form_encode value).eq_of_begins (form_encode other)⟩⟩
  · intro written bytes
    have together : bytes = .ofList (front ++ (values.flatMap encode ++ behind)) := by
      have encoded : written = (Paged.Builder.empty.append front).append (values.flatMap encode) :=
        List.foldl_flatMap.symm
      show (written.append behind).build = _
      simp only [encoded, Paged.ofList, Paged.Builder.append, List.foldl_append]
    have well : bytes.WellFormed := together ▸ Paged.wellFormed_ofList _
    have listed : bytes.toList = front ++ (values.flatMap encode ++ behind) := by
      rw [together, Paged.toList_ofList]
    have faces := Paged.faces_ofIndex well front.length
    rw [listed, List.drop_left] at faces
    obtain ⟨cursor, read, faces⟩ := readMany_encode well words faces
    refine ⟨cursor, read, faces.ahead, fun more => ?_⟩
    have size := Paged.length_toList well
    rw [listed, List.length_append, List.length_append, ← Nat.add_assoc] at size
    rw [faces.eq_ofIndex well more, ← size, Nat.add_sub_cancel]
  · exact length_encode_le (Nat.lt_trans word (by decide))

/-- The bytes of the largest word straddle the first two pages, and one more byte follows on the last number. -/
theorem encodings_read_back_straddling :
    let front := List.replicate (pageSize - 2) (0 : UInt8)
    let values := [wordValues - 1, 0, 127, 128, 300, 2 ^ 40]
    (∀ value ∈ values, value < wordValues)
      ∧ let written := values.foldl (fun b value => b.append (encode value)) (Paged.Builder.empty.append front)
        ∃ cursor, readMany (written.append [7]).build values.length (.ofIndex front.length) = some (values, cursor)
          ∧ (written.append [7]).build.ahead cursor = [7]
          ∧ cursor = .ofIndex (front.length + (values.flatMap encode).length) := by
  intro front values
  have words : ∀ value ∈ values, value < wordValues := by decide
  obtain ⟨cursor, read, ahead, here⟩ := (encodings_read_back front words [7]).1
  exact ⟨words, cursor, read, ahead, here (List.cons_ne_nil _ _)⟩

end NetworkAnalysis.Varint

import Mathlib.Data.List.Forall2
import NetworkAnalysis.EdgeFile
import NetworkAnalysis.Proofs.TextLines

/-!
# The grammar of edge lists

What stands before the number sign of a line is cut into words by separators, blanks and commas (`Words`). A line
without anything but blanks is passed over; of any other the words have to stand for a record (`StandsFor`), or they
are refused for one reason (`Refused`). A text is read as the records of its lines in order, or fails with the number
of the first line that is refused, whatever stands behind that line.
-/

namespace NetworkAnalysis.EdgeFile

open Text

/-! ## Words -/

/-- Whether a character stands between words. -/
def isSeparator (c : Char) : Bool :=
  isBlank c || c == ','

/-- The words of a text: rows of characters that are no separators, each as long as can be. -/
inductive Words : List Char → List (List Char) → Prop
  /-- Only separators are left. -/
  | gap {gap : List Char} (separators : ∀ c ∈ gap, isSeparator c) : Words gap []
  /-- A word behind separators, up to the next separator or the end. -/
  | word {gap word rest : List Char} {words : List (List Char)} (separators : ∀ c ∈ gap, isSeparator c)
    (full : word ≠ []) (solid : ∀ c ∈ word, isSeparator c = false) (ends : ∀ c ∈ rest.head?, isSeparator c)
    (more : Words rest words) : Words (gap ++ word ++ rest) (word :: words)

theorem fields_separator {c : Char} (separates : isSeparator c) (text : List Char) :
    fields (c :: text) = fields text := by
  have split := splitOn_separator separates text
  show (splitOn isSeparator (c :: text)).filter _ = _
  rw [split]
  rfl

theorem fields_gap_append {gap : List Char} (separators : ∀ c ∈ gap, isSeparator c) (text : List Char) :
    fields (gap ++ text) = fields text := by
  induction gap with
  | nil => rfl
  | cons c gap ih =>
    have later := ih fun d member => separators d (List.mem_cons_of_mem c member)
    exact (fields_separator (separators c List.mem_cons_self) _).trans later

theorem fields_append_separator (front : List Char) {c : Char} (separates : isSeparator c) (rest : List Char) :
    fields (front ++ c :: rest) = fields front ++ fields rest := by
  have split := splitOn_append_separator front separates rest
  show (splitOn isSeparator (front ++ c :: rest)).filter _ = _
  rw [split, List.filter_append]
  rfl

theorem fields_append_gap (text : List Char) {gap : List Char} (separators : ∀ c ∈ gap, isSeparator c) :
    fields (text ++ gap) = fields text := by
  cases gap with
  | nil => rw [List.append_nil]
  | cons c gap =>
    have noField := fields_gap_append (fun d member => separators d (List.mem_cons_of_mem c member)) []
    rw [List.append_nil] at noField
    rw [fields_append_separator text (separators c List.mem_cons_self), noField]
    exact List.append_nil _

theorem fields_word {word : List Char} (full : word ≠ []) (solid : ∀ c ∈ word, isSeparator c = false) :
    fields word = [word] := by
  have split := splitOn_word solid
  show (splitOn isSeparator word).filter _ = _
  rw [split]
  cases word with
  | nil => exact absurd rfl full
  | cons c word => rfl

theorem fields_of_words {text : List Char} {words : List (List Char)} (h : Words text words) :
    fields text = words := by
  induction h with
  | gap separators =>
    have noField := fields_gap_append separators []
    rwa [List.append_nil] at noField
  | @word gap word rest words separators full solid ends more ih =>
    rw [List.append_assoc, fields_gap_append separators]
    cases rest with
    | nil => rw [List.append_nil, fields_word full solid, ← ih]; rfl
    | cons c rest =>
      have separates : isSeparator c := ends c rfl
      rw [fields_append_separator word separates, fields_word full solid, ← fields_separator separates rest, ih]
      rfl

theorem Words.separator {c : Char} (separates : isSeparator c) {text : List Char} {words : List (List Char)}
    (h : Words text words) : Words (c :: text) words := by
  cases h with
  | gap separators => exact .gap (List.forall_mem_cons.2 ⟨separates, separators⟩)
  | word separators full solid ends more =>
    exact .word (List.forall_mem_cons.2 ⟨separates, separators⟩) full solid ends more

theorem Words.first {word rest : List Char} {words : List (List Char)} (full : word ≠ [])
    (solid : ∀ c ∈ word, isSeparator c = false) (ends : ∀ c ∈ rest.head?, isSeparator c) (more : Words rest words) :
    Words (word ++ rest) (word :: words) := by
  have noGap : ∀ c ∈ ([] : List Char), isSeparator c := fun _ outside => absurd outside List.not_mem_nil
  exact .word noGap full solid ends more

/-- A character that is no separator begins a word, or becomes the first of the word that follows. -/
theorem Words.exists_cons {c : Char} (other : isSeparator c = false) {text : List Char} {words : List (List Char)}
    (h : Words text words) : ∃ words', Words (c :: text) words' := by
  by_cases ends : ∀ d ∈ text.head?, isSeparator d
  · have single : ∀ d ∈ [c], isSeparator d = false := by
      intro d member
      rwa [List.mem_singleton.1 member]
    exact ⟨[c] :: words, .first (List.cons_ne_nil c []) single ends h⟩
  · cases h with
    | gap separators =>
      refine absurd (fun d first => separators d ?_) ends
      exact List.mem_of_mem_head? first
    | @word gap word rest words separators full solid ends' more =>
      cases gap with
      | nil =>
        have longer : ∀ d ∈ c :: word, isSeparator d = false := List.forall_mem_cons.2 ⟨other, solid⟩
        exact ⟨(c :: word) :: words, .first (List.cons_ne_nil c word) longer ends' more⟩
      | cons d gap =>
        refine absurd (fun e first => ?_) ends
        obtain rfl := Option.some.inj first
        exact separators d List.mem_cons_self

theorem exists_words (text : List Char) : ∃ words, Words text words := by
  induction text with
  | nil => exact ⟨[], .gap fun _ outside => absurd outside List.not_mem_nil⟩
  | cons c text ih =>
    obtain ⟨words, spelled⟩ := ih
    cases separates : isSeparator c with
    | true => exact ⟨words, spelled.separator separates⟩
    | false => exact spelled.exists_cons separates

/-- The fields of a record are its words. -/
theorem words_iff {text : List Char} {words : List (List Char)} : Words text words ↔ fields text = words := by
  constructor
  · exact fields_of_words
  · intro split
    obtain ⟨words', spelled⟩ := exists_words text
    rwa [← split, fields_of_words spelled]

instance (text : List Char) (words : List (List Char)) : Decidable (Words text words) :=
  decidable_of_iff _ words_iff.symm

/-! ## Records -/

/-- The record that words stand for. -/
inductive StandsFor : List (List Char) → Record → Prop
  /-- One label is a node. -/
  | node {word : List Char} {id : Nat} (read : readNat word = .ok id) : StandsFor [word] (.node id)
  /-- Two labels are an edge. -/
  | edge {source target : List Char} {s t : Nat} (first : readNat source = .ok s) (second : readNat target = .ok t) :
    StandsFor [source, target] (.edge s t)
  /-- Two labels and a weight are an edge with a weight. -/
  | weightedEdge {source target weight : List Char} {s t : Nat} {w : Float} (first : readNat source = .ok s)
    (second : readNat target = .ok t) (third : readDouble weight = some w) :
    StandsFor [source, target, weight] (.weightedEdge s t w)

/-- Why words are refused. -/
inductive Refused : List (List Char) → LineFault → Prop
  /-- There are none of them, or four and more. -/
  | count {words : List (List Char)} (wrong : words = [] ∨ 4 ≤ words.length) :
    Refused words (.fieldCount words.length)
  /-- The third is no weight, whatever the others are. -/
  | weight {source target word : List Char} (bad : readDouble word = none) :
    Refused [source, target, word] (.weight (String.ofList word) (doubleMessage word))
  /-- The first is no label, and there is nothing wrong with a weight. -/
  | source {word : List Char} {rest : List (List Char)} {reason : NumberFault} (few : rest.length ≤ 2)
    (weight : ∀ third ∈ rest[1]?, (readDouble third).isSome) (bad : readNat word = .error reason) :
    Refused (word :: rest) (.id (String.ofList word) reason)
  /-- The second is no label, and there is nothing wrong with the first and with a weight. -/
  | target {source word : List Char} {rest : List (List Char)} {id : Nat} {reason : NumberFault}
    (few : rest.length ≤ 1) (weight : ∀ third ∈ rest, (readDouble third).isSome) (good : readNat source = .ok id)
    (bad : readNat word = .error reason) : Refused (source :: word :: rest) (.id (String.ofList word) reason)

theorem readFields_of_standsFor {words : List (List Char)} {record : Record} (h : StandsFor words record) :
    readFields words = .ok record := by
  cases h with
  | node read => simp [readFields, readId, read, bind, Except.bind, pure, Except.pure]
  | edge first second => simp [readFields, readId, first, second, bind, Except.bind, pure, Except.pure]
  | weightedEdge first second third =>
    simp [readFields, readId, readWeight, first, second, third, bind, Except.bind, pure, Except.pure]

theorem readFields_of_refused {words : List (List Char)} {fault : LineFault} (h : Refused words fault) :
    readFields words = .error fault := by
  cases h with
  | count wrong =>
    rcases words with _ | ⟨_, _ | ⟨_, _ | ⟨_, _ | ⟨_, rest⟩⟩⟩⟩
    · rfl
    all_goals first | rfl | (simp at wrong)
  | weight bad => simp [readFields, readWeight, bad, bind, Except.bind]
  | @source word rest reason few weight bad =>
    rcases rest with _ | ⟨second, _ | ⟨third, _ | ⟨_, rest⟩⟩⟩
    · simp [readFields, readId, bad, bind, Except.bind]
    · simp [readFields, readId, bad, bind, Except.bind]
    · obtain ⟨w, known⟩ := Option.isSome_iff_exists.1 (weight third rfl)
      simp [readFields, readId, readWeight, known, bad, bind, Except.bind]
    · simp at few
  | @target source word rest id reason few weight good bad =>
    rcases rest with _ | ⟨third, _ | ⟨_, rest⟩⟩
    · simp [readFields, readId, good, bad, bind, Except.bind]
    · obtain ⟨w, known⟩ := Option.isSome_iff_exists.1 (weight third List.mem_cons_self)
      simp [readFields, readId, readWeight, known, good, bad, bind, Except.bind]
    · simp at few

/-- Words stand for a record or are refused. -/
theorem standsFor_or_refused (words : List (List Char)) :
    (∃ record, StandsFor words record) ∨ ∃ fault, Refused words fault := by
  rcases words with _ | ⟨first, _ | ⟨second, _ | ⟨third, _ | ⟨fourth, rest⟩⟩⟩⟩
  · exact .inr ⟨_, .count (.inl rfl)⟩
  · cases label : readNat first with
    | ok id => exact .inl ⟨_, .node label⟩
    | error reason => exact .inr ⟨_, .source (by simp) (by simp) label⟩
  · cases source : readNat first with
    | error reason => exact .inr ⟨_, .source (by simp) (by simp) source⟩
    | ok s =>
      cases target : readNat second with
      | error reason => exact .inr ⟨_, .target (by simp) (by simp) source target⟩
      | ok t => exact .inl ⟨_, .edge source target⟩
  · cases weight : readDouble third with
    | none => exact .inr ⟨_, .weight weight⟩
    | some w =>
      have known : (readDouble third).isSome := by rw [weight]; rfl
      cases source : readNat first with
      | error reason => exact .inr ⟨_, .source (by simp) (by simpa using known) source⟩
      | ok s =>
        cases target : readNat second with
        | error reason => exact .inr ⟨_, .target (by simp) (by simpa using known) source target⟩
        | ok t => exact .inl ⟨_, .weightedEdge source target weight⟩
  · exact .inr ⟨_, .count (.inr (by simp))⟩

/-! ## Lines -/

/-- What stands on a line before the first number sign. -/
def content (line : List Char) : List Char :=
  line.takeWhile (· ≠ '#')

/-- A line without anything but blanks and a comment. -/
def Blank (line : List Char) : Prop :=
  ∀ c ∈ content line, isBlank c

instance (line : List Char) : Decidable (Blank line) :=
  List.decidableBAll (fun c => isBlank c = true) (content line)

/-- A line that is blank or holds a record. -/
def Acceptable (line : List Char) : Prop :=
  Blank line ∨ ∃ words record, Words (content line) words ∧ StandsFor words record

/-- A line whose words are refused. -/
def Bad (line : List Char) (fault : LineFault) : Prop :=
  ¬ Blank line ∧ ∃ words, Words (content line) words ∧ Refused words fault

theorem readLine_of_blank {line : List Char} (blank : Blank line) : readLine line = .ok none := by
  have nothing : significant line = [] := (trim_eq_nil_iff _).2 blank
  unfold readLine
  dsimp only
  rw [nothing]
  rfl

/-- Trimming a line does not change its words. -/
theorem fields_significant (line : List Char) : fields (significant line) = fields (content line) := by
  obtain ⟨front, back, before, behind, parts⟩ := exists_trim (content line)
  have separates : ∀ {c : Char}, isBlank c → isSeparator c := by
    intro c blank
    rw [isSeparator, blank]
    rfl
  have inner : fields (content line) = fields (trim (content line)) := by
    conv => lhs; rw [parts]
    rw [fields_append_gap _ fun c member => separates (behind c member),
      fields_gap_append fun c member => separates (before c member)]
  exact inner.symm

theorem readLine_of_words {line : List Char} (written : ¬ Blank line) {words : List (List Char)}
    (spelled : Words (content line) words) : readLine line = (readFields words).map some := by
  have something : (significant line).isEmpty = false := by
    rw [Bool.eq_false_iff, ne_eq, List.isEmpty_iff]
    exact fun nothing => written ((trim_eq_nil_iff _).1 nothing)
  unfold readLine
  dsimp only
  rw [if_neg (Bool.eq_false_iff.1 something), fields_significant, fields_of_words spelled]
  cases readFields words <;> rfl

theorem not_blank_of_standsFor {line : List Char} {words : List (List Char)} {record : Record}
    (spelled : Words (content line) words) (stands : StandsFor words record) : ¬ Blank line := by
  intro blank
  have wordless : Words (content line) [] := by
    refine .gap fun c member => ?_
    rw [isSeparator, blank c member]
    rfl
  rw [← fields_of_words spelled, fields_of_words wordless] at stands
  cases stands

theorem acceptable_or_bad (line : List Char) : Acceptable line ∨ ∃ fault, Bad line fault := by
  by_cases blank : Blank line
  · exact .inl (.inl blank)
  · obtain ⟨words, spelled⟩ := exists_words (content line)
    rcases standsFor_or_refused words with ⟨record, stands⟩ | ⟨fault, refused⟩
    · exact .inl (.inr ⟨words, record, spelled, stands⟩)
    · exact .inr ⟨fault, blank, words, spelled, refused⟩

/-- The words of the lines that are not blank, in order. -/
inductive Spells : List (List Char) → List (List (List Char)) → Prop
  /-- No lines are left. -/
  | nil : Spells [] []
  /-- A blank line is passed over. -/
  | blank {line : List Char} {lines : List (List Char)} {words : List (List (List Char))} (blank : Blank line)
    (more : Spells lines words) : Spells (line :: lines) words
  /-- Any other line has its words. -/
  | record {line : List Char} {lines : List (List Char)} {first : List (List Char)} {words : List (List (List Char))}
    (written : ¬ Blank line) (spelled : Words (content line) first) (more : Spells lines words) :
    Spells (line :: lines) (first :: words)

theorem Spells.unique {lines : List (List Char)} {words words' : List (List (List Char))} (h : Spells lines words)
    (h' : Spells lines words') : words = words' := by
  induction h generalizing words' with
  | nil =>
    cases h'
    rfl
  | blank blank _ ih =>
    cases h' with
    | blank _ more => exact ih more
    | record written _ _ => exact absurd blank written
  | record written spelled _ ih =>
    cases h' with
    | blank blank _ => exact absurd blank written
    | record _ spelled' more => rw [ih more, ← fields_of_words spelled, ← fields_of_words spelled']

/-- Acceptable lines are those that spell records. -/
theorem acceptable_iff (texts : List (List Char)) :
    (∀ line ∈ texts, Acceptable line) ↔ ∃ words records, Spells texts words ∧ List.Forall₂ StandsFor words records := by
  constructor
  · intro acceptable
    induction texts with
    | nil => exact ⟨[], [], .nil, .nil⟩
    | cons line texts ih =>
      obtain ⟨first, later⟩ := List.forall_mem_cons.1 acceptable
      obtain ⟨words, records, spelled, stand⟩ := ih later
      rcases first with blank | ⟨first, record, own, stands⟩
      · exact ⟨words, records, .blank blank spelled, stand⟩
      · exact ⟨first :: words, record :: records, .record (not_blank_of_standsFor own stands) own spelled,
          .cons stands stand⟩
  · rintro ⟨words, records, spelled, stand⟩
    induction spelled generalizing records with
    | nil => exact fun _ outside => absurd outside List.not_mem_nil
    | blank blank _ ih => exact List.forall_mem_cons.2 ⟨.inl blank, ih records stand⟩
    | record written own _ ih =>
      cases stand with
      | cons stands stand => exact List.forall_mem_cons.2 ⟨.inr ⟨_, _, own, stands⟩, ih _ stand⟩

/-- All lines are acceptable, or there is a first one that is bad. -/
theorem acceptable_or_first_bad (texts : List (List Char)) :
    (∀ line ∈ texts, Acceptable line)
      ∨ ∃ good bad rest reason, texts = good ++ bad :: rest ∧ (∀ line ∈ good, Acceptable line) ∧ Bad bad reason := by
  induction texts with
  | nil => exact .inl fun _ outside => absurd outside List.not_mem_nil
  | cons line texts ih =>
    rcases acceptable_or_bad line with acceptable | ⟨reason, bad⟩
    · rcases ih with all | ⟨good, bad, rest, reason, rfl, before, refused⟩
      · exact .inl (List.forall_mem_cons.2 ⟨acceptable, all⟩)
      · exact .inr ⟨line :: good, bad, rest, reason, rfl, List.forall_mem_cons.2 ⟨acceptable, before⟩, refused⟩
    · exact .inr ⟨[], line, texts, reason, rfl, fun _ outside => absurd outside List.not_mem_nil, bad⟩

/-! ## Texts -/

/-- Lines that spell records add them to the list, and reading goes on behind them. -/
theorem readLines_of_spells {texts : List (List Char)} {words : List (List (List Char))} (spelled : Spells texts words)
    {records : List Record} (stand : List.Forall₂ StandsFor words records) (rest : List (Option (List Char)))
    (number : Nat) (l : EdgeList Float) :
    readLines number (texts.map some ++ rest) l
      = readLines (number + texts.length) rest (records.foldl (fun l record => record.addTo l) l) := by
  induction spelled generalizing records number l with
  | nil =>
    cases stand
    rfl
  | @blank line lines words blank _ ih =>
    rw [List.map_cons, List.cons_append, readLines, readLine_of_blank blank, List.length_cons,
      Nat.add_comm lines.length, ← Nat.add_assoc]
    exact ih stand (number + 1) l
  | @record line lines first words written own _ ih =>
    cases stand with
    | @cons _ record _ records stands stand =>
      rw [List.map_cons, List.cons_append, readLines, readLine_of_words written own, readFields_of_standsFor stands,
        List.length_cons, Nat.add_comm lines.length, ← Nat.add_assoc]
      exact ih stand (number + 1) (record.addTo l)

theorem readLines_of_bad {line : List Char} {reason : LineFault} (bad : Bad line reason)
    (rest : List (Option (List Char))) (number : Nat) (l : EdgeList Float) :
    readLines number (some line :: rest) l = .error (.line number reason) := by
  obtain ⟨written, words, spelled, refused⟩ := bad
  rw [readLines, readLine_of_words written spelled, readFields_of_refused refused]
  rfl

/-- The lines of a text. -/
def textLines (text : String) : List (List Char) :=
  splitOn (· == '\n') text.toList

theorem lines_toUTF8 (text : String) : lines text.toUTF8 = (textLines text).map some := by
  unfold lines
  rw [toList_toUTF8, splitOn_encode, List.map_map]
  refine List.map_congr_left fun line _ => ?_
  show (String.fromUTF8? ⟨(encode line).toArray⟩).map String.toList = some line
  rw [fromUTF8?_encode, Option.map_some, String.toList_ofList]

theorem lines_append_newline (bytes rest : ByteArray) :
    lines (bytes ++ "\n".toUTF8 ++ rest) = lines bytes ++ lines rest := by
  have joined : (bytes ++ "\n".toUTF8 ++ rest).toList = bytes.toList ++ 10 :: rest.toList := by
    rw [toList_bytes, toList_bytes, toList_bytes, ByteArray.toList_data_append, ByteArray.toList_data_append,
      List.append_assoc]
    rfl
  unfold lines
  rw [joined, splitOn_append_separator _ (by decide), List.map_append]

/-- A text whose lines spell records is read as the list that they make. -/
theorem read_of_spells {text : String} {words : List (List (List Char))} (spelled : Spells (textLines text) words)
    {records : List Record} (stand : List.Forall₂ StandsFor words records) :
    read text.toUTF8 = .ok (records.foldl (fun l record => record.addTo l) .empty) := by
  have run := readLines_of_spells spelled stand [] 1 .empty
  rw [List.append_nil] at run
  rw [read, lines_toUTF8, run]
  rfl

/-- The first bad line decides, whatever stands behind it. -/
theorem readLines_of_first_bad {texts good rest : List (List Char)} {bad : List Char} {reason : LineFault}
    (cut : texts = good ++ bad :: rest) (acceptable : ∀ line ∈ good, Acceptable line) (refused : Bad bad reason)
    (following : List (Option (List Char))) :
    readLines 1 (texts.map some ++ following) .empty = .error (.line (good.length + 1) reason) := by
  obtain ⟨words, records, spelled, stand⟩ := (acceptable_iff good).1 acceptable
  rw [cut, List.map_append, List.append_assoc, readLines_of_spells spelled stand, List.map_cons, List.cons_append,
    readLines_of_bad refused, Nat.add_comm]

theorem read_of_first_bad {text : String} {good rest : List (List Char)} {bad : List Char} {reason : LineFault}
    (cut : textLines text = good ++ bad :: rest) (acceptable : ∀ line ∈ good, Acceptable line)
    (refused : Bad bad reason) : read text.toUTF8 = .error (.line (good.length + 1) reason) := by
  have run := readLines_of_first_bad cut acceptable refused []
  rwa [List.append_nil, ← lines_toUTF8] at run

/-- A message about a line: its number comes first, and too few or too many fields are counted. -/
def Tells (number : Nat) (reason : LineFault) (chain : List String) : Prop :=
  ∃ what more, chain = ("line " ++ toString number ++ ": " ++ what) :: more
    ∧ ∀ count, reason = .fieldCount count → what
      = "expected 'node', 'source target' or 'source target weight', got " ++ toString count ++ " fields"

theorem tells_chain (number : Nat) (reason : LineFault) : Tells number reason (Fault.line number reason).chain := by
  cases reason with
  | weight field reason =>
    refine ⟨"invalid weight '" ++ field ++ "'", [reason], ?_, fun _ other => by cases other⟩
    have cut : ": invalid weight '" = ": " ++ "invalid weight '" := by decide
    show ["line " ++ toString number ++ ": invalid weight '" ++ field ++ "'", reason] = _
    rw [cut]
    simp only [String.append_assoc]
  | id field reason =>
    refine ⟨"invalid node id '" ++ field ++ "'", [reason.message], ?_, fun _ other => by cases other⟩
    have cut : ": invalid node id '" = ": " ++ "invalid node id '" := by decide
    show ["line " ++ toString number ++ ": invalid node id '" ++ field ++ "'", reason.message] = _
    rw [cut]
    simp only [String.append_assoc]
  | fieldCount count =>
    refine ⟨"expected 'node', 'source target' or 'source target weight', got " ++ toString count ++ " fields", [],
      ?_, fun _ same => by cases same; rfl⟩
    have cut : ": expected 'node', 'source target' or 'source target weight', got "
        = ": " ++ "expected 'node', 'source target' or 'source target weight', got " := by decide
    show ["line " ++ toString number ++ ": expected 'node', 'source target' or 'source target weight', got "
      ++ toString count ++ " fields"] = _
    rw [cut]
    simp only [String.append_assoc]

theorem exists_spells_of_read {text : String} {l : EdgeList Float} (success : read text.toUTF8 = .ok l) :
    ∃ words records, Spells (textLines text) words ∧ List.Forall₂ StandsFor words records
      ∧ l = records.foldl (fun l record => record.addTo l) .empty := by
  rcases acceptable_or_first_bad (textLines text) with acceptable | ⟨good, bad, rest, reason, cut, acceptable, refused⟩
  · obtain ⟨words, records, spelled, stand⟩ := (acceptable_iff _).1 acceptable
    have made := (read_of_spells spelled stand).symm.trans success
    exact ⟨words, records, spelled, stand, (Except.ok.inj made).symm⟩
  · rw [read_of_first_bad cut acceptable refused] at success
    cases success

theorem exists_first_bad_of_read {text : String} {fault : Fault} (failure : read text.toUTF8 = .error fault) :
    ∃ good bad rest reason, textLines text = good ++ bad :: rest ∧ (∀ line ∈ good, Acceptable line)
      ∧ Bad bad reason ∧ fault = .line (good.length + 1) reason := by
  rcases acceptable_or_first_bad (textLines text) with acceptable | ⟨good, bad, rest, reason, cut, acceptable, refused⟩
  · obtain ⟨words, records, spelled, stand⟩ := (acceptable_iff _).1 acceptable
    rw [read_of_spells spelled stand] at failure
    cases failure
  · have told := (read_of_first_bad cut acceptable refused).symm.trans failure
    exact ⟨good, bad, rest, reason, cut, acceptable, refused, (Except.error.inj told).symm⟩

/-- Only the words of the lines that are not blank matter. -/
theorem read_of_same_words {text other : String} {words : List (List (List Char))}
    (spelled : Spells (textLines text) words) (spelled' : Spells (textLines other) words) {l : EdgeList Float}
    (success : read text.toUTF8 = .ok l) : read other.toUTF8 = .ok l := by
  obtain ⟨words', records, again, stand, rfl⟩ := exists_spells_of_read success
  obtain rfl := spelled.unique again
  exact read_of_spells spelled' stand

/-- A text is read if every line is blank or holds a record, as the list that the records make one after the other.
Otherwise the first bad line is reported, by its number counted from one, whatever bytes follow. Comments, blank lines
and separators do not matter. -/
theorem read_text (text : String) :
    ((∃ l, read text.toUTF8 = .ok l) ↔ ∀ line ∈ textLines text, Acceptable line)
      ∧ (∀ l, read text.toUTF8 = .ok l ↔ ∃ words records, Spells (textLines text) words
        ∧ List.Forall₂ StandsFor words records ∧ l = records.foldl (fun l record => record.addTo l) .empty)
      ∧ (∀ other words, Spells (textLines text) words → Spells (textLines other) words →
        ∀ l, read text.toUTF8 = .ok l ↔ read other.toUTF8 = .ok l)
      ∧ (∀ fault, read text.toUTF8 = .error fault ↔ ∃ good bad rest reason, textLines text = good ++ bad :: rest
        ∧ (∀ line ∈ good, Acceptable line) ∧ Bad bad reason ∧ fault = .line (good.length + 1) reason)
      ∧ ∀ good bad rest reason, textLines text = good ++ bad :: rest → (∀ line ∈ good, Acceptable line) →
        Bad bad reason →
        Tells (good.length + 1) reason (Fault.line (good.length + 1) reason).chain
          ∧ ∀ following : ByteArray, read (text.toUTF8 ++ "\n".toUTF8 ++ following)
            = .error (.line (good.length + 1) reason) := by
  refine ⟨⟨?_, ?_⟩, fun l => ⟨exists_spells_of_read, ?_⟩, ?_, fun fault => ⟨exists_first_bad_of_read, ?_⟩, ?_⟩
  · rintro ⟨l, success⟩
    obtain ⟨words, records, spelled, stand, -⟩ := exists_spells_of_read success
    exact (acceptable_iff _).2 ⟨words, records, spelled, stand⟩
  · intro acceptable
    obtain ⟨words, records, spelled, stand⟩ := (acceptable_iff _).1 acceptable
    exact ⟨_, read_of_spells spelled stand⟩
  · rintro ⟨words, records, spelled, stand, rfl⟩
    exact read_of_spells spelled stand
  · intro other words spelled spelled' l
    exact ⟨read_of_same_words spelled spelled', read_of_same_words spelled' spelled⟩
  · rintro ⟨good, bad, rest, reason, cut, acceptable, refused, rfl⟩
    exact read_of_first_bad cut acceptable refused
  · intro good bad rest reason cut acceptable refused
    refine ⟨tells_chain _ reason, fun following => ?_⟩
    rw [read, lines_append_newline, lines_toUTF8]
    exact readLines_of_first_bad cut acceptable refused _

/-- Two spellings of a node and an edge, and a line of a comma that is refused before bytes that are no text. -/
theorem read_text_short :
    (∀ l, read "5\n\t1 , 2 # edge\n".toUTF8 = .ok l ↔ read "5 # node\n#\n1,,2".toUTF8 = .ok l)
      ∧ read "5 # node\n#\n1,,2".toUTF8 = .ok ((EdgeList.empty.addNode 5).addEdge 1 2 none)
      ∧ read ("5\n ,\n7 x".toUTF8 ++ "\n".toUTF8 ++ ⟨#[255]⟩) = .error (.line 2 (.fieldCount 0)) := by
  have spaced : Spells (textLines "5\n\t1 , 2 # edge\n") [[['5']], [['1'], ['2']]] := by
    have cut : textLines "5\n\t1 , 2 # edge\n" = ["5".toList, "\t1 , 2 # edge".toList, []] := by decide
    rw [cut]
    exact .record (by decide) (by decide) (.record (by decide) (by decide) (.blank (by decide) .nil))
  have dense : Spells (textLines "5 # node\n#\n1,,2") [[['5']], [['1'], ['2']]] := by
    have cut : textLines "5 # node\n#\n1,,2" = ["5 # node".toList, ['#'], "1,,2".toList] := by decide
    rw [cut]
    exact .record (by decide) (by decide) (.blank (by decide) (.record (by decide) (by decide) .nil))
  obtain ⟨-, -, same, -⟩ := read_text "5\n\t1 , 2 # edge\n"
  obtain ⟨-, made, -⟩ := read_text "5 # node\n#\n1,,2"
  obtain ⟨-, -, -, -, fails⟩ := read_text "5\n ,\n7 x"
  have number : Acceptable ['5'] := .inr ⟨[['5']], .node 5, by decide, .node rfl⟩
  have comma : Bad [' ', ','] (.fieldCount 0) := ⟨by decide, [], by decide, .count (.inl rfl)⟩
  refine ⟨same _ _ spaced dense, (made _).2 ⟨_, _, dense, .cons (.node rfl) (.cons (.edge rfl rfl) .nil), rfl⟩, ?_⟩
  exact (fails [['5']] [' ', ','] ["7 x".toList] _ (by decide) (List.forall_mem_singleton.2 number) comma).2 _

end NetworkAnalysis.EdgeFile

/-!
# Arguments

A command line is a row of words. A word of two dashes and a name is an option, with a value behind an
equals sign or in the next word; a word of one dash is a row of options of one letter each; all words
behind a lone pair of dashes and all other words are operands.

A command says which options it knows by a list of `Switch`es, each of which changes the record of options
that is filled in. Words are read from left to right, and the first that is out of place, or that asks for
help, ends the reading.
-/

namespace NetworkAnalysis.Command

/-- Why a command line is not run. -/
inductive Stop where
  /-- A word is out of place, or one is missing. -/
  | misuse
  /-- Help was asked for. -/
  | help
  /-- The version was asked for. -/
  | version
deriving DecidableEq, Repr

/-- What an option does with the record of options. -/
inductive Effect (σ : Type) where
  /-- Takes no value. -/
  | flag (set : σ → σ)
  /-- Takes a value, which it may refuse. -/
  | value (read : String → σ → Option σ)
  /-- Ends the reading. -/
  | stop (reason : Stop)

/-- An option that a command knows. -/
structure Switch (σ : Type) where
  /-- The name behind two dashes. -/
  name : String
  /-- The letter behind one dash. -/
  letter : Option Char := none
  /-- What the option does. -/
  effect : Effect σ

/-- A word by its form. -/
inductive Word where
  /-- An option with its name, and its value if that stands in the same word. -/
  | option (name : String) (value : Option String)
  /-- Options of one letter each. -/
  | letters (letters : List Char)
  /-- Two dashes alone. -/
  | separator
  /-- Any other word; a single dash is one. -/
  | operand (text : String)
deriving DecidableEq, Repr

/-- The form of a word. -/
def Word.ofText (text : String) : Word :=
  match text.toList with
  | ['-', '-'] => separator
  | '-' :: '-' :: rest =>
    let name := String.ofList (rest.takeWhile (· ≠ '='))
    match rest.dropWhile (· ≠ '=') with
    | [] => option name none
    | _ :: value => option name (some (String.ofList value))
  | '-' :: letter :: rest => letters (letter :: rest)
  | _ => operand text

/-- What a command knows. -/
structure Grammar (σ : Type) where
  /-- The options. -/
  switches : List (Switch σ)
  /-- What an operand does, which may be refused. Without it the first operand ends the reading. -/
  operand : Option (String → σ → Option σ) := none

/-- A command line under reading. -/
structure Line (σ : Type) where
  /-- The options so far. -/
  options : σ
  /-- The names of the options met so far. -/
  seen : List String := []

namespace Line

variable {σ : Type}

/-- Notes that an option is met, which may happen once. -/
def meet (line : Line σ) (name : String) : Except Stop (Line σ) :=
  if line.seen.contains name then .error .misuse else .ok { line with seen := name :: line.seen }

/-- Applies an option that was given without a value. -/
def applyBare (switch : Switch σ) (line : Line σ) : Except Stop (Line σ) := do
  match switch.effect with
  | .flag set =>
    let line ← line.meet switch.name
    pure { line with options := set line.options }
  | .value _ => throw .misuse
  | .stop reason => throw reason

/-- Applies an option that was given with a value. -/
def applyValue (switch : Switch σ) (value : String) (line : Line σ) : Except Stop (Line σ) := do
  match switch.effect with
  | .value read =>
    let line ← line.meet switch.name
    match read value line.options with
    | some options => pure { line with options }
    | none => throw .misuse
  | _ => throw .misuse

/-- Applies an option of one letter. -/
def applyLetter (switches : List (Switch σ)) (line : Line σ) (letter : Char) : Except Stop (Line σ) :=
  match switches.find? fun switch => switch.letter == some letter with
  | some switch => line.applyBare switch
  | none => .error .misuse

/-- Applies an operand. -/
def applyOperand (take : String → σ → Option σ) (line : Line σ) (text : String) :
    Except Stop (Line σ) :=
  match take text line.options with
  | some options => .ok { line with options }
  | none => .error .misuse

end Line

/-- Whether an option takes a value. -/
def Switch.takesValue {σ : Type} (switch : Switch σ) : Bool :=
  match switch.effect with
  | .value _ => true
  | _ => false

namespace Grammar

variable {σ : Type}

/-- Reads words. Answers the words from the first operand on, if operands end the reading. -/
def read (g : Grammar σ) : List String → Line σ → Except Stop (Line σ × List String)
  | [], line => .ok (line, [])
  | word :: rest, line =>
    match Word.ofText word with
    | .separator =>
      match g.operand with
      | none => .ok (line, word :: rest)
      | some take => do
        let line ← rest.foldlM (Line.applyOperand take) line
        pure (line, [])
    | .operand text =>
      match g.operand with
      | none => .ok (line, word :: rest)
      | some take => do
        let line ← line.applyOperand take text
        g.read rest line
    | .letters letters => do
      let line ← letters.foldlM (Line.applyLetter g.switches) line
      g.read rest line
    | .option name value =>
      match g.switches.find? fun switch => switch.name == name, value with
      | none, _ => .error .misuse
      | some switch, some value => do
        let line ← line.applyValue switch value
        g.read rest line
      | some switch, none =>
        if switch.takesValue then
          match rest with
          | [] => .error .misuse
          | next :: rest =>
            match Word.ofText next with
            | .operand value => do
              let line ← line.applyValue switch value
              g.read rest line
            | _ => .error .misuse
        else do
          let line ← line.applyBare switch
          g.read rest line

end Grammar

end NetworkAnalysis.Command

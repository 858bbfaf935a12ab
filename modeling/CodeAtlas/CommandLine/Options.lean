import CodeAtlas.Text.Blank
/-!
Reading arguments of a command line. A word that begins with a hyphen is an option, under its long
name or its letter; options may be followed by a value, or have it attached. Other words are
operands. Behind `--` all words are operands.
-/

namespace CodeAtlas.CommandLine

/-- What comes with an option. -/
inductive OptionKind where
  /-- Nothing: it is there or not. -/
  | switch
  /-- A value. -/
  | value
  /-- A value each time; it may be given more than once. -/
  | values
  /-- Nothing, and reading ends: the version is asked for. -/
  | version
  /-- Nothing, and reading ends: help is asked for. -/
  | help
deriving DecidableEq, Repr

/-- An option of a command. -/
structure OptionRule where
  name : String
  letter : Option Char := none
  kind : OptionKind
  /-- Which values may be given. -/
  accepts : String → Bool := fun _ => true

/-- An operand of a command. -/
structure OperandRule where
  name : String
  isRequired : Bool := false
  accepts : String → Bool := fun _ => true

/-- Why reading ends before everything is read. -/
inductive Interruption where
  | misuse
  | version
  | help
deriving DecidableEq, Repr

/-- What has been read. -/
structure Reading where
  /-- The values of options and operands by their names, the last first. -/
  entered : List (String × String) := []
  /-- An option whose value is the next word. -/
  open? : Option OptionRule := none
  /-- An option with the word that follows it, which is entered when something else has been
  read. -/
  pending : Option (OptionRule × String) := none
  /-- The operands that may still come. -/
  operands : List OperandRule
  /-- Whether all words that follow are operands. -/
  isLiteral : Bool := false

namespace Reading

/-- The last value of a name. -/
def value? (r : Reading) (name : String) : Option String :=
  (r.entered.find? (·.1 == name)).map (·.2)

/-- All values of a name in their order. -/
def values (r : Reading) (name : String) : List String :=
  ((r.entered.filter (·.1 == name)).map (·.2)).reverse

/-- Whether a name has been read. -/
def has (r : Reading) (name : String) : Bool := (r.value? name).isSome

/-- Enters an option with its value. Only some options may be given twice. -/
def enter (r : Reading) (o : OptionRule) (value : String) : Except Interruption Reading :=
  match o.kind with
  | .version => .error .version
  | .help => .error .help
  | .values =>
    if o.accepts value then .ok { r with entered := (o.name, value) :: r.entered }
    else .error .misuse
  | .switch | .value =>
    if r.has o.name || !o.accepts value then .error .misuse
    else .ok { r with entered := (o.name, value) :: r.entered }

/-- Enters what is pending. An option whose value has not come is misused. -/
def settle (r : Reading) : Except Interruption Reading :=
  match r.open?, r.pending with
  | some _, _ => .error .misuse
  | none, some (o, value) => enter { r with pending := none } o value
  | none, none => .ok r

/-- Reads an option, perhaps with a value attached to it. -/
def readOption (r : Reading) (o : OptionRule) (attached : Option String) :
    Except Interruption Reading :=
  match o.kind, attached with
  | .value, none | .values, none => do return { ← r.settle with open? := some o }
  | .value, some v | .values, some v => do enter (← r.settle) o v
  | _, none => do enter (← r.settle) o ""
  | _, some _ => .error .misuse

/-- What is attached to a letter: the rest of the word, without an equals sign in front. -/
def attachment : List Char → Option String
  | [] => none
  | '=' :: rest => some (.ofList rest)
  | rest => some (.ofList rest)

/-- Reads letters that stand behind one hyphen. The first that takes a value takes the rest. -/
def readLetters (rules : List OptionRule) (r : Reading) : List Char → Except Interruption Reading
  | [] => .ok r
  | c :: rest =>
    match rules.find? (·.letter == some c) with
    | none => .error .misuse
    | some o =>
      match o.kind with
      | .value | .values => r.readOption o (attachment rest)
      | _ => do readLetters rules (← r.readOption o none) rest

/-- Reads a long name behind two hyphens, with what is attached to it by an equals sign. -/
def readName (rules : List OptionRule) (r : Reading) (cs : List Char) :
    Except Interruption Reading :=
  let name := String.ofList (cs.takeWhile (· != '='))
  let attached := match cs.dropWhile (· != '=') with
    | _ :: v => some (String.ofList v)
    | [] => none
  match rules.find? (·.name == name) with
  | none => .error .misuse
  | some o => r.readOption o attached

/-- Reads an operand. -/
def readOperand (r : Reading) (word : String) : Except Interruption Reading :=
  match r.operands with
  | [] => .error .misuse
  | o :: rest => do
    let r ← r.settle
    if o.accepts word then
      return { r with entered := (o.name, word) :: r.entered, operands := rest }
    else .error .misuse

/-- Reads a word. -/
def readWord (rules : List OptionRule) (r : Reading) (word : String) :
    Except Interruption Reading :=
  if r.isLiteral then r.readOperand word
  else match word.toList with
    | ['-', '-'] => .ok { r with isLiteral := true }
    | '-' :: '-' :: cs => r.readName rules cs
    | '-' :: c :: cs => r.readLetters rules (c :: cs)
    | _ =>
      match r.open? with
      | some o => .ok { r with open? := none, pending := some (o, word) }
      | none => r.readOperand word

/-- Reads words up to the first that is the name of a command, which is told with the words behind
it. -/
def readUntil (rules : List OptionRule) (isCommand : String → Bool) (r : Reading) :
    List String → Except Interruption (Reading × Option (String × List String))
  | [] => .ok (r, none)
  | word :: rest =>
    if !r.isLiteral && r.open?.isNone && isCommand word then .ok (r, some (word, rest))
    else do readUntil rules isCommand (← r.readWord rules word) rest

/-- Reads all words. Operands that are required have to be there. -/
def readAll (rules : List OptionRule) (operands : List OperandRule) (words : List String) :
    Except Interruption Reading := do
  let r ← words.foldlM (readWord rules) { operands }
  let r ← r.settle
  if r.operands.any (·.isRequired) then .error .misuse
  else return r

end Reading

end CodeAtlas.CommandLine

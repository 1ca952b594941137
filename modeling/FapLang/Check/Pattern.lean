import FapLang.Grammar.Terminal

/-!
Shapes of single lines. A shape is read from the left; each reader takes its part off the front of a
text and gives the rest. A line may end with one line feed.
-/

namespace FapLang.Check

/-- Takes something off the front of a text, or fails. -/
abbrev Reader := List Char → Option (List Char)

def literal (s : String) : Reader := fun cs =>
  (Grammar.takeLiteral s cs).map (·.2)

def identifier : Reader := fun cs =>
  (Grammar.takeIdentifier cs).map (·.2)

def someBlanks : Reader := fun cs =>
  (Grammar.takeRun Text.isBlank cs).map (·.2)

def anyBlanks : Reader := fun cs =>
  some (cs.dropWhile Text.isBlank)

def someDigits : Reader := fun cs =>
  (Grammar.takeRun Text.isDecimal cs).map (·.2)

/-- Everything up to the first occurrence of a character, which is left. -/
def upTo (c : Char) : Reader := fun cs =>
  some (cs.dropWhile (· ≠ c))

/-- Like `upTo`, but something must be taken. -/
def someUpTo (c : Char) : Reader := fun cs =>
  (Grammar.takeRun (· ≠ c) cs).map (·.2)

/-- The end of a line. -/
def lineEnd : Reader := fun cs =>
  if cs = [] || cs = ['\n'] then some [] else none

/-- Any text without a line feed, then a closing parenthesis at the end of the line. -/
def untilFinalParen : Reader := fun cs =>
  let body := if cs.getLast? = some '\n' then cs.dropLast else cs
  if body.getLast? = some ')' && !body.contains '\n' then some [] else none

/-- One reader after the other. -/
def allOf : List Reader → Reader
  | [], cs => some cs
  | r :: rest, cs => (r cs).bind (allOf rest)

/-- The first of several readers that succeeds. -/
def oneOf (readers : List Reader) : Reader := fun cs =>
  readers.findSome? fun r => r cs

def optional (r : Reader) : Reader := fun cs =>
  some ((r cs).getD cs)

def fits (r : Reader) (cs : List Char) : Bool :=
  (r cs).isSome

def aName : Reader := allOf [identifier, lineEnd]

def aNumber : Reader :=
  allOf [optional (literal "-"), someDigits, optional (allOf [literal ".", someDigits]), lineEnd]

def aQuotedText : Reader :=
  allOf [literal "\"", upTo '"', literal "\"", lineEnd]

def aListMethod : Reader :=
  allOf [identifier, literal ".", oneOf [literal "add", literal "clear"], literal "(",
    untilFinalParen]

def anAdd : Reader :=
  allOf [identifier, literal ".add(", someUpTo ')', literal ")", lineEnd]

def aClear : Reader :=
  allOf [identifier, literal ".clear()", lineEnd]

def aListAccess : Reader :=
  allOf [identifier, literal "[", someDigits, literal "]", lineEnd]

/-- The head of a function definition, up to its parameters. -/
def functionHead : Reader :=
  allOf [literal "Fuc", someBlanks, identifier, anyBlanks, literal "("]

def aFunction : Reader :=
  allOf [functionHead, upTo ')', literal ")", anyBlanks, literal "[", lineEnd]

/-- The text between the parentheses of a function definition. -/
def parameterText (cs : List Char) : List Char :=
  ((functionHead cs).getD []).takeWhile (· ≠ ')')

def aTypedName : Reader :=
  allOf [oneOf [literal "int", literal "float", literal "str"], someBlanks, identifier, lineEnd]

def aCall : Reader :=
  allOf [identifier, anyBlanks, literal "(", upTo ')', literal ")", lineEnd]

def aReturn : Reader :=
  allOf [literal "back.value(", upTo ')', literal ")", lineEnd]

end FapLang.Check

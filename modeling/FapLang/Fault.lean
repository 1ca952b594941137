import FapLang.Text.Quoted

/-!
Faults: why an operation could not be carried out. A fault names its cause; its text and its kind are
functions of the cause. Statements recover from some kinds and pass on the others.
-/

namespace FapLang

/-- The kinds that statements and callers tell apart. -/
inductive FaultKind
  | typing
  | value
  | index
  | key
  | member
  | overflow
  | zeroDivision
  | statement
  deriving DecidableEq, Repr

/-- The word under which a kind is reported. -/
def FaultKind.label : FaultKind → String
  | typing => "TypeError"
  | value => "ValueError"
  | index => "IndexError"
  | key => "KeyError"
  | member => "AttributeError"
  | overflow => "OverflowError"
  | zeroDivision => "ZeroDivisionError"
  | statement => "Exception"

/-- The kinds of numbers, each with an arithmetic of its own. -/
inductive NumberKind
  | int
  | float
  | complex
  deriving DecidableEq, Repr

inductive Fault
  /-- A child or item asked for by position is not there. -/
  | childMissing
  | keyMissing (key : String)
  | noMember (type member : String)
  | operands (operator left right : String)
  | joinList (type : String)
  | repeatCount (type : String)
  | repeatTooLarge
  | unordered (operator left right : String)
  | notContainer (type : String)
  | notIndexable (type : String)
  | textIndex
  | listIndex
  | notHashable (type : String)
  | notIntegral (type : String)
  | notReal (type : String)
  | intText (text : String)
  | textNotInt (text : String)
  | floatNotInt (text : String)
  | textNotFloat (text : String)
  | floatText (text : String)
  | tooManyDigits
  | numeralTooLong (digits : Nat)
  | intTooLarge
  | quotientTooLarge
  | infiniteToInt
  | notANumberToInt
  | zeroDivisor (arithmetic : NumberKind)
  | zeroToNegativePower
  | powerOutOfRange
  | complexPower
  | unbound (name : String)
  | constant (name : String)
  | invalidStatement
  deriving DecidableEq, Repr

namespace Fault

def kind : Fault → FaultKind
  | childMissing => .index
  | keyMissing _ => .key
  | noMember _ _ => .member
  | operands _ _ _ | joinList _ | repeatCount _ | unordered _ _ _ | notContainer _ | notIndexable _
  | textIndex | listIndex | notHashable _ | notIntegral _ | notReal _ => .typing
  | intText _ | textNotInt _ | floatNotInt _ | textNotFloat _ | floatText _ | tooManyDigits
  | numeralTooLong _ | notANumberToInt | unbound _ | constant _ => .value
  | repeatTooLarge | intTooLarge | quotientTooLarge | infiniteToInt | powerOutOfRange
  | complexPower => .overflow
  | zeroDivisor _ | zeroToNegativePower => .zeroDivision
  | invalidStatement => .statement

def message : Fault → String
  | childMissing => "list index out of range"
  | keyMissing key => Text.quoted key
  | noMember type member => s!"'{type}' object has no attribute '{member}'"
  | operands operator left right =>
    s!"unsupported operand type(s) for {operator}: '{left}' and '{right}'"
  | joinList type => s!"can only concatenate list (not \"{type}\") to list"
  | repeatCount type => s!"can't multiply sequence by non-int of type '{type}'"
  | repeatTooLarge => "cannot fit 'int' into an index-sized integer"
  | unordered operator left right =>
    s!"'{operator}' not supported between instances of '{left}' and '{right}'"
  | notContainer type => s!"argument of type '{type}' is not iterable"
  | notIndexable type => s!"'{type}' object is not subscriptable"
  | textIndex => "string indices must be integers, not 'str'"
  | listIndex => "list indices must be integers or slices, not str"
  | notHashable type => s!"unhashable type: '{type}'"
  | notIntegral type =>
    s!"int() argument must be a string, a bytes-like object or a real number, not '{type}'"
  | notReal type => s!"float() argument must be a string or a real number, not '{type}'"
  | intText text => s!"invalid literal for int() with base 10: {Text.quoted text}"
  | textNotInt text => s!"String '{text}' cannot be converted to int"
  | floatNotInt text => s!"Float '{text}' cannot be converted to int without loss of precision"
  | textNotFloat text => s!"String '{text}' cannot be converted to float"
  | floatText text => s!"could not convert string to float: {Text.quoted text}"
  | tooManyDigits =>
    "Exceeds the limit (4300 digits) for integer string conversion; " ++
      "use sys.set_int_max_str_digits() to increase the limit"
  | numeralTooLong digits =>
    s!"Exceeds the limit (4300 digits) for integer string conversion: value has {digits} digits; " ++
      "use sys.set_int_max_str_digits() to increase the limit"
  | intTooLarge => "int too large to convert to float"
  | quotientTooLarge => "integer division result too large for a float"
  | infiniteToInt => "cannot convert float infinity to integer"
  | notANumberToInt => "cannot convert float NaN to integer"
  | zeroDivisor .int => "division by zero"
  | zeroDivisor .float => "float division by zero"
  | zeroDivisor .complex => "complex division by zero"
  | zeroToNegativePower => "0.0 cannot be raised to a negative power"
  | powerOutOfRange => "(34, 'Numerical result out of range')"
  | complexPower => "complex exponentiation"
  | unbound name => s!"Variable not defined: {name}"
  | constant name => s!"Cannot modify constant: {name}"
  | invalidStatement => "Invalid statement"

end Fault

end FapLang

/-
Tokens of a filter. White space is a token too, since the grammar has rules about it. A stretch of
text that is no token is kept as an illegal token together with what is wrong with it, so cutting
a text into tokens never fails.
-/
import ListQuery.Filter.Position

namespace ListQuery.Filter

/-- What is wrong with an illegal token. -/
inductive Fault where
  | unexpectedCharacter (c : Char)
  | unterminatedString
  | malformedNumber
  | noRadixDigits
  | exponentInDuration
  | unitsNotDescending
  | fractionAfterSubsecond
  | missingUnit
  | unknownUnit
  | invalidMonth
  | monthRange
  | noDashAfterMonth
  | invalidDay
  | dayRange
  | noTimeMark
  | invalidHour
  | hourRange
  | noColonAfterHour
  | invalidMinute
  | minuteRange
  | noColonAfterMinute
  | invalidSecond
  | secondRange
  | invalidFraction
  | noTimeZone
  | invalidOffsetHour
  | offsetHourRange
  | noColonInOffset
  | invalidOffsetMinute
  | offsetMinuteRange
  | afterTimestamp
deriving DecidableEq, Repr

/-- The wording of a fault. -/
def Fault.message : Fault → String
  | .unexpectedCharacter c => "unexpected character '" ++ String.singleton c ++ "'"
  | .unterminatedString => "unterminated string literal"
  | .malformedNumber => "malformed numeric literal"
  | .noRadixDigits => "radix prefix requires at least one digit"
  | .exponentInDuration => "duration components cannot use exponents"
  | .unitsNotDescending => "duration units must be in descending order"
  | .fractionAfterSubsecond => "fractional duration component after a sub-second unit"
  | .missingUnit => "duration component is missing a unit"
  | .unknownUnit => "unknown duration unit"
  | .invalidMonth => "invalid month"
  | .monthRange => "month out of range"
  | .noDashAfterMonth => "expected '-' after month"
  | .invalidDay => "invalid day"
  | .dayRange => "day out of range"
  | .noTimeMark => "expected 'T' between date and time"
  | .invalidHour => "invalid hour"
  | .hourRange => "hour out of range"
  | .noColonAfterHour => "expected ':' after hour"
  | .invalidMinute => "invalid minute"
  | .minuteRange => "minute out of range"
  | .noColonAfterMinute => "expected ':' after minute"
  | .invalidSecond => "invalid second"
  | .secondRange => "second out of range"
  | .invalidFraction => "invalid fractional seconds"
  | .noTimeZone => "timestamp requires a time zone"
  | .invalidOffsetHour => "invalid offset hour"
  | .offsetHourRange => "offset hour out of range"
  | .noColonInOffset => "expected ':' in offset"
  | .invalidOffsetMinute => "invalid offset minute"
  | .offsetMinuteRange => "offset minute out of range"
  | .afterTimestamp => "unexpected characters after timestamp"

inductive Kind where
  | text | string | int | numeric | hex | oct | duration | timestamp | bool | null
  | andWord | orWord | notWord | inWord
  | equals | notEquals | lessThan | lessEquals | greaterThan | greaterEquals | has
  | leftParen | rightParen | leftBracket | rightBracket | leftBrace | rightBrace
  | comma | dot | minus
  | whitespace
  | eof
  | illegal (fault : Fault)
deriving DecidableEq, Repr

namespace Kind

/-- The four words that are operators or names, as their place decides. -/
def isKeyword : Kind → Bool
  | .andWord | .orWord | .notWord | .inWord => true
  | _ => false

/-- Comparators written with punctuation. -/
def isComparator : Kind → Bool
  | .equals | .notEquals | .lessThan | .lessEquals | .greaterThan | .greaterEquals | .has => true
  | _ => false

/-- Literals written without quotes. -/
def isTextLiteral : Kind → Bool
  | .text | .int | .numeric | .hex | .oct | .duration | .timestamp | .bool | .null => true
  | _ => false

def isInteger : Kind → Bool
  | .int | .hex | .oct => true
  | _ => false

def isNumber (k : Kind) : Bool :=
  k.isInteger || k == .numeric

/-- Kinds that can be a value, a field or a name. -/
def isLeaf (k : Kind) : Bool :=
  k.isTextLiteral || k.isKeyword || k == .string

def isIllegal : Kind → Bool
  | .illegal _ => true
  | _ => false

/-- What a kind is called in a message. -/
def describe : Kind → String
  | .text => "text"
  | .string => "string"
  | .int => "integer"
  | .numeric => "number"
  | .hex => "hex literal"
  | .oct => "octal literal"
  | .duration => "duration"
  | .timestamp => "timestamp"
  | .bool => "boolean"
  | .null => "null"
  | .andWord => "AND"
  | .orWord => "OR"
  | .notWord => "NOT"
  | .inWord => "IN"
  | .equals => "'='"
  | .notEquals => "'!='"
  | .lessThan => "'<'"
  | .lessEquals => "'<='"
  | .greaterThan => "'>'"
  | .greaterEquals => "'>='"
  | .has => "':'"
  | .leftParen => "'('"
  | .rightParen => "')'"
  | .leftBracket => "'['"
  | .rightBracket => "']'"
  | .leftBrace => "'\x7b'"
  | .rightBrace => "'\x7d'"
  | .comma => "','"
  | .dot => "'.'"
  | .minus => "'-'"
  | .whitespace => "whitespace"
  | .eof => "end of input"
  | .illegal _ => "illegal token"

/-- A kind shown for inspection. -/
def shown : Kind → String
  | .text => "Text"
  | .string => "String"
  | .int => "Int"
  | .numeric => "Numeric"
  | .hex => "Hex"
  | .oct => "Oct"
  | .duration => "Duration"
  | .timestamp => "Timestamp"
  | .bool => "Bool"
  | .null => "Null"
  | .andWord => "And"
  | .orWord => "Or"
  | .notWord => "Not"
  | .inWord => "In"
  | .equals => "Equals"
  | .notEquals => "NotEquals"
  | .lessThan => "LessThan"
  | .lessEquals => "LessEquals"
  | .greaterThan => "GreaterThan"
  | .greaterEquals => "GreaterEquals"
  | .has => "Has"
  | .leftParen => "LeftParen"
  | .rightParen => "RightParen"
  | .leftBracket => "LeftBracket"
  | .rightBracket => "RightBracket"
  | .leftBrace => "LeftBrace"
  | .rightBrace => "RightBrace"
  | .comma => "Comma"
  | .dot => "Dot"
  | .minus => "Minus"
  | .whitespace => "Whitespace"
  | .eof => "Eof"
  | .illegal _ => "Illegal"

end Kind

/-- A piece of the text, what it is and where it starts. -/
structure Token where
  kind : Kind
  text : String
  pos : Position
deriving DecidableEq, Repr

namespace Token

/-- The end of the text, as a token without text. -/
def eof (pos : Position) : Token := ⟨.eof, "", pos⟩

/-- Byte offset just past the token. -/
def stop (t : Token) : Nat := t.pos.offset + t.text.utf8ByteSize

end Token

end ListQuery.Filter

/-!
# Exceptions

What can go wrong while a program runs. A fault is a cause with what it is about; `kind` gives the
exception it shows as and `message` its wording. Faults name values by their type or by their text.
-/

namespace Playback

inductive ExceptionKind where
  | exception | typeError | valueError | zeroDivision | indexError | keyError | nameError | unboundLocal
  | attributeError | recursionError | moduleNotFound | importError | endOfFile | overflow | internal
deriving DecidableEq

def ExceptionKind.name : ExceptionKind → String
  | .exception => "Exception"
  | .typeError => "TypeError"
  | .valueError => "ValueError"
  | .zeroDivision => "ZeroDivisionError"
  | .indexError => "IndexError"
  | .keyError => "KeyError"
  | .nameError => "NameError"
  | .unboundLocal => "UnboundLocalError"
  | .attributeError => "AttributeError"
  | .recursionError => "RecursionError"
  | .moduleNotFound => "ModuleNotFoundError"
  | .importError => "ImportError"
  | .endOfFile => "EOFError"
  | .overflow => "OverflowError"
  | .internal => "InternalError"

inductive Fault where
  /-- A child set of the trace takes no more frames. -/
  | tooManyIterations
  | recursionLimit
  /-- An integer that does not fit 64 bits. -/
  | overflow (operation : String)
  -- names
  | undefinedName (name : String)
  | unboundLocal (name : String)
  | noModule (name : String)
  | noImport (name module : String)
  | noModuleAttribute (module name : String)
  | noAttribute (type name : String)
  -- calls
  | notCallable (type : String)
  /-- More positional arguments than a function has parameters. -/
  | surplusArguments (function : String) (expected given : Nat)
  | unexpectedKeyword (function keyword : String)
  | repeatedArgument (function parameter : String)
  | missingArguments (function : String) (parameters : List String)
  | notOneArgument (function : String) (given : Nat)
  | tooFewArguments (function : String) (least given : Nat)
  | tooManyArguments (function : String) (most given : Nat)
  | printKeyword (keyword : String)
  | printText (keyword type : String)
  /-- A method that takes texts was given something else. -/
  | notText (method type : String)
  -- operators
  | unaryOperand (symbol type : String)
  | operands (symbol left right : String)
  | concatenation (left right : String)
  | repetition (type : String)
  | notOrdered (symbol left right : String)
  | textMembership (type : String)
  | notContainer (type : String)
  | divisionByZero
  | floorDivisionByZero
  | floatFloorDivisionByZero
  | moduloByZero
  | floatModuloByZero
  | negativePowerOfZero
  | logarithmBase
  | domain
  | negativeShift
  -- elements
  | unhashable (type : String)
  | notInteger (type : String)
  | notIterable (type : String)
  | notUnpackable (type : String)
  | tooFewValues (expected given : Nat)
  | tooManyValues (expected : Nat)
  | indexType (container index : String)
  | textIndexType (index : String)
  | sliceBound
  | indexRange (container : String)
  | assignmentRange
  | noItems (type : String)
  | noItemAssignment (type : String)
  /-- A key that is not there, by its text. -/
  | missingKey (key : String)
  | popEmpty
  | popRange
  | notInList (item : String)
  | notInListToRemove
  | emptySeparator
  | joinedItem (index : Nat) (type : String)
  -- conversions and functions
  | noLength (type : String)
  | zeroStep
  | absOperand (type : String)
  | sumOfTexts
  | notReversible
  | noSmallest (function : String)
  | chrRange
  | ordLength (length : Nat)
  | ordType (type : String)
  | pairElement (index : Nat)
  | pairLength (index length : Nat)
  | notReal (type : String)
  | notANumberToInt
  | infinityToInt
  | intText (text : String)
  | intType (type : String)
  | floatText (text : String)
  | floatType (type : String)
  | roundType (type : String)
  | negativeRoot
  | endOfInput

def Fault.kind : Fault → ExceptionKind
  | .tooManyIterations => .exception
  | .recursionLimit => .recursionError
  | .overflow _ | .infinityToInt => .overflow
  | .undefinedName _ => .nameError
  | .unboundLocal _ => .unboundLocal
  | .noModule _ => .moduleNotFound
  | .noImport _ _ => .importError
  | .noModuleAttribute _ _ | .noAttribute _ _ => .attributeError
  | .divisionByZero | .floorDivisionByZero | .floatFloorDivisionByZero | .moduloByZero
  | .floatModuloByZero | .negativePowerOfZero | .logarithmBase => .zeroDivision
  | .domain | .negativeShift | .tooFewValues _ _ | .tooManyValues _ | .notInList _ | .notInListToRemove
  | .emptySeparator | .zeroStep | .noSmallest _ | .chrRange | .pairLength _ _ | .notANumberToInt
  | .intText _ | .floatText _ | .negativeRoot => .valueError
  | .indexRange _ | .assignmentRange | .popEmpty | .popRange => .indexError
  | .missingKey _ => .keyError
  | .endOfInput => .endOfFile
  | _ => .typeError

/-- A count with its noun: an `s` unless there is one. -/
def plural (n : Nat) : String :=
  if n = 1 then "" else "s"

/-- Names in quotes, the last after an `and`. -/
def quotedNames (names : List String) : String :=
  let quoted := names.map fun name => "'" ++ name ++ "'"
  match quoted with
  | [] => ""
  | [only] => only
  | many => ", ".intercalate many.dropLast ++ " and " ++ (many.getLast?.getD "")

def Fault.message : Fault → String
  | .tooManyIterations => "Too many iterations."
  | .recursionLimit => "maximum recursion depth exceeded"
  | .overflow operation => s!"integer overflow in {operation}"
  | .undefinedName name => s!"name '{name}' is not defined"
  | .unboundLocal name =>
    s!"cannot access local variable '{name}' where it is not associated with a value"
  | .noModule name => s!"No module named '{name}'"
  | .noImport name module => s!"cannot import name '{name}' from '{module}'"
  | .noModuleAttribute module name => s!"module '{module}' has no attribute '{name}'"
  | .noAttribute type name => s!"'{type}' object has no attribute '{name}'"
  | .notCallable type => s!"'{type}' object is not callable"
  | .surplusArguments function expected given =>
    let verb := if given = 1 then "was" else "were"
    let ending := plural expected
    s!"{function}() takes {expected} positional argument{ending} but {given} {verb} given"
  | .unexpectedKeyword function keyword =>
    s!"{function}() got an unexpected keyword argument '{keyword}'"
  | .repeatedArgument function parameter =>
    s!"{function}() got multiple values for argument '{parameter}'"
  | .missingArguments function parameters =>
    let count := parameters.length
    let ending := plural count
    let names := quotedNames parameters
    s!"{function}() missing {count} required positional argument{ending}: {names}"
  | .notOneArgument function given => s!"{function}() takes exactly one argument ({given} given)"
  | .tooFewArguments function least given =>
    let ending := plural least
    s!"{function} expected at least {least} argument{ending}, got {given}"
  | .tooManyArguments function most given =>
    let ending := plural most
    s!"{function} expected at most {most} argument{ending}, got {given}"
  | .printKeyword keyword => s!"'{keyword}' is an invalid keyword argument for print()"
  | .printText keyword type => s!"{keyword} must be None or a string, not {type}"
  | .notText method type => s!"{method}() argument must be str, not {type}"
  | .unaryOperand symbol type => s!"bad operand type for unary {symbol}: '{type}'"
  | .operands symbol left right => s!"unsupported operand type(s) for {symbol}: '{left}' and '{right}'"
  | .concatenation left right => s!"can only concatenate {left} (not \"{right}\") to {left}"
  | .repetition type => s!"can't multiply sequence by non-int of type '{type}'"
  | .notOrdered symbol left right =>
    s!"'{symbol}' not supported between instances of '{left}' and '{right}'"
  | .textMembership type => s!"'in <string>' requires string as left operand, not {type}"
  | .notContainer type => s!"argument of type '{type}' is not iterable"
  | .divisionByZero => "division by zero"
  | .floorDivisionByZero => "integer division or modulo by zero"
  | .floatFloorDivisionByZero => "float floor division by zero"
  | .moduloByZero => "integer modulo by zero"
  | .floatModuloByZero => "float modulo by zero"
  | .negativePowerOfZero => "0.0 cannot be raised to a negative power"
  | .logarithmBase => "float division by zero"
  | .domain => "math domain error"
  | .negativeShift => "negative shift count"
  | .unhashable type => s!"unhashable type: '{type}'"
  | .notInteger type => s!"'{type}' object cannot be interpreted as an integer"
  | .notIterable type => s!"'{type}' object is not iterable"
  | .notUnpackable type => s!"cannot unpack non-iterable {type} object"
  | .tooFewValues expected given => s!"not enough values to unpack (expected {expected}, got {given})"
  | .tooManyValues expected => s!"too many values to unpack (expected {expected})"
  | .indexType container index => s!"{container} indices must be integers or slices, not {index}"
  | .textIndexType index => s!"string indices must be integers, not '{index}'"
  | .sliceBound => "slice indices must be integers or None"
  | .indexRange container => s!"{container} index out of range"
  | .assignmentRange => "list assignment index out of range"
  | .noItems type => s!"'{type}' object is not subscriptable"
  | .noItemAssignment type => s!"'{type}' object does not support item assignment"
  | .missingKey key => key
  | .popEmpty => "pop from empty list"
  | .popRange => "pop index out of range"
  | .notInList item => s!"{item} is not in list"
  | .notInListToRemove => "list.remove(x): x not in list"
  | .emptySeparator => "empty separator"
  | .joinedItem index type => s!"sequence item {index}: expected str instance, {type} found"
  | .noLength type => s!"object of type '{type}' has no len()"
  | .zeroStep => "range() arg 3 must not be zero"
  | .absOperand type => s!"bad operand type for abs(): '{type}'"
  | .sumOfTexts => "sum() can't sum strings [use ''.join(seq) instead]"
  | .notReversible => "'set' object is not reversible"
  | .noSmallest function => s!"{function}() arg is an empty sequence"
  | .chrRange => "chr() arg not in range(0x110000)"
  | .ordLength length => s!"ord() expected a character, but string of length {length} found"
  | .ordType type => s!"ord() expected string of length 1, but {type} found"
  | .pairElement index =>
    s!"cannot convert dictionary update sequence element #{index} to a sequence"
  | .pairLength index length =>
    s!"dictionary update sequence element #{index} has length {length}; 2 is required"
  | .notReal type => s!"must be real number, not {type}"
  | .notANumberToInt => "cannot convert float NaN to integer"
  | .infinityToInt => "cannot convert float infinity to integer"
  | .intText text => s!"invalid literal for int() with base 10: {text}"
  | .intType type =>
    s!"int() argument must be a string, a bytes-like object or a real number, not '{type}'"
  | .floatText text => s!"could not convert string to float: {text}"
  | .floatType type => s!"float() argument must be a string or a real number, not '{type}'"
  | .roundType type => s!"type {type} doesn't define __round__ method"
  | .negativeRoot => "isqrt() argument must be nonnegative"
  | .endOfInput => "EOF when reading a line"

/-- Why a run stops before its end. -/
inductive Halt where
  | raised (fault : Fault)
  /-- A loop went through all the rounds it was given. -/
  | exhausted
  /-- A sequence was asked for that no memory can hold. -/
  | capacity

end Playback

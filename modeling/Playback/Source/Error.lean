import Playback.Source.Lexeme

/-!
# Why a source text cannot be read

A text may have no division into lexemes, may be no text of the language, or may be one that scripts have
no place for.
-/

namespace Playback.Source

/-- Why a text has no division into lexemes. -/
inductive LexFault where
  | unclosedBrackets
  | tooManyLevels
  /-- A line that steps out to a width no enclosing block has. -/
  | unmatchedUnindent
  | unexpectedCharacter (c : Char)
  | unterminatedString
  /-- The text ends after a backslash in a string. -/
  | endInString
  | invalidEscape (digits : String)
  /-- Digits that are none of the base, or too many. -/
  | invalidInteger (digits : String)
  /-- A number run together with a word. -/
  | invalidDecimal (text : String)
  | invalidFloat (text : String)
  | integerTooLarge (text : String)
  /-- Letters before a string that give it a meaning scripts do not know. -/
  | stringMark (letters : String)

def LexFault.message : LexFault → String
  | .unclosedBrackets => "Unexpected end of file inside brackets"
  | .tooManyLevels => "Too many levels of indentation"
  | .unmatchedUnindent => "Unindent does not match any outer indentation level"
  | .unexpectedCharacter c => s!"Unexpected character: '{c}'"
  | .unterminatedString => "Unterminated string literal"
  | .endInString => "Unexpected end of file in string literal"
  | .invalidEscape digits => s!"Invalid escape sequence: \\{digits}"
  | .invalidInteger digits => s!"Invalid integer literal: {digits}"
  | .invalidDecimal text => s!"Invalid decimal literal: {text}"
  | .invalidFloat text => s!"Invalid float literal: {text}"
  | .integerTooLarge text => s!"Integer literal too large: {text}"
  | .stringMark letters => s!"String prefix '{letters}' is not supported"

structure LexError where
  fault : LexFault
  place : Place

def LexError.message (e : LexError) : String :=
  "Lexer error at " ++ e.place.text ++ ": " ++ e.fault.message

inductive SyntaxFault where
  | lexical (fault : LexFault)
  /-- A lexeme where another was expected. -/
  | expected (what : String) (found : Lexeme)
  | unexpectedIndent
  | expectedBlock
  /-- An `elif` or `else` that continues nothing. -/
  | unmatchedLink (found : Lexeme)
  /-- A keyword that scripts cannot hold. -/
  | reserved (word : String)
  | severalStatements
  | duplicateParameter (name : String)
  | wildcardImport
  | conditionalExpression
  | comprehension
  | tooDeep
  /-- A call of something other than a name or an attribute. -/
  | notCallable
  | argumentUnpacking
  | positionalAfterKeyword
  | attributeTarget
  /-- An assignment to an expression that names no place. -/
  | invalidTarget

def SyntaxFault.message : SyntaxFault → String
  | .lexical fault => fault.message
  | .expected what found => "Expected " ++ what ++ ", found " ++ found.display
  | .unexpectedIndent => "Unexpected indent"
  | .expectedBlock => "Expected an indented block"
  | .unmatchedLink found => found.display ++ " without a matching 'if'"
  | .reserved word => s!"'{word}' is not supported"
  | .severalStatements => "Only one statement per line is supported"
  | .duplicateParameter name => s!"Duplicate argument '{name}' in function definition"
  | .wildcardImport => "Wildcard imports are not supported"
  | .conditionalExpression => "Conditional expressions are not supported"
  | .comprehension => "Comprehensions are not supported"
  | .tooDeep => "Too many nested parentheses"
  | .notCallable => "Only names and attributes can be called"
  | .argumentUnpacking => "Argument unpacking is not supported"
  | .positionalAfterKeyword => "Positional argument follows keyword argument"
  | .attributeTarget => "Cannot assign to an attribute"
  | .invalidTarget => "Cannot assign to this expression"

/-- What the language has and scripts do not. -/
inductive Feature where
  | keywordOnlyParameters
  | collectingParameters
  | positionOnlyParameters
  | defaultValues
  | parameterAnnotations
  | returnAnnotations
  | loopElse
  | importAliases
  | chainedAssignment
  | augmentedAssignment
  | sliceAssignment
  | sliceSteps

def Feature.name : Feature → String
  | .keywordOnlyParameters => "keyword-only parameters"
  | .collectingParameters => "*args and **kwargs parameters"
  | .positionOnlyParameters => "position-only parameters"
  | .defaultValues => "default parameter values"
  | .parameterAnnotations => "parameter annotations"
  | .returnAnnotations => "return annotations"
  | .loopElse => "else clauses on loops"
  | .importAliases => "import aliases"
  | .chainedAssignment => "chained assignment"
  | .augmentedAssignment => "augmented assignment"
  | .sliceAssignment => "slice assignment"
  | .sliceSteps => "slice steps"

inductive ReadError where
  | invalid (fault : SyntaxFault) (place : Place)
  | unsupported (feature : Feature) (place : Place)

def ReadError.message : ReadError → String
  | .invalid fault place => "Syntax error at " ++ place.text ++ ": " ++ fault.message
  | .unsupported feature place => "Unsupported at " ++ place.text ++ ": " ++ feature.name

def LexError.toReadError (e : LexError) : ReadError :=
  .invalid (.lexical e.fault) e.place

end Playback.Source

import Sketchwright.Program
import Sketchwright.Token.Lexer

/-! Errors are causes; what a message says of a cause is in `Sketchwright.Error.Message`. Each error
knows the line of the source that it refers to. -/

namespace Sketchwright

/-- What a parser was waiting for. -/
inductive Expected where
  | expression
  | identifier
  | endOfLine
  | symbol (s : Symbol)
  | keyword (k : Keyword)
  deriving DecidableEq, Repr

/-- Texts that the grammar does not derive. -/
inductive Malformed where
  | expected (what : Expected) (found : TokenKind)
  | strayElse
  | strayIndent
  | strayBlockEnd
  | missingBlock
  | annotatedExpression
  | assignedExpression
  | duplicateParameter (name : String)
  | rangeArguments (count : Nat)
  deriving DecidableEq, Repr

/-- Parts of the input language that have no counterpart in a sketch. -/
inductive Construct where
  | booleanOperator
  | membershipTest
  | conditionalExpression
  | chainedComparison
  | negation
  | keywordExpression (word : String)
  | stringPrefix (word : String)
  | attributeAccess (path : String)
  | slice
  | computedCallee
  | keywordArgument
  | argumentUnpacking
  | noneValue
  | tuple
  | dictionary
  | comprehension
  | nestedFunction
  | whileLoop
  | returnOutsideFunction
  | jumpOutsideLoop (k : Keyword)
  | globalOutsideFunction
  | keywordStatement (word : String)
  | increment
  | chainedAssignment
  | annotationWithoutValue
  | compoundAssignment (op : String)
  | tupleAssignment
  | annotationName (name : String)
  | variadicParameter
  | defaultParameter
  | entryParameters (name : String)
  | entryReturnKind (name : String)
  | tupleLoopTarget
  | iteration
  | loopElse
  | computedStep
  | zeroStep
  | moduleStatement
  | redefinedFunction (name : String)
  | runtimeFunction (name : String)
  | unknownParameterKind (param function : String)
  | globalNamedAsFunction (name : String)
  | assignedRuntimeName (name : String)
  | listInBlock
  | reassignedGlobal (name : String)
  | reassignedList (name : String)
  | nestedList
  | mixedList (first other : Kind)
  | emptyList
  | moduleElement
  | assignedLoopVariable (name : String)
  | entryReturnValue (name : String)
  | lateGlobal (name : String)
  | functionAsValue (name : String)
  | listAsValue (name : String)
  | looseList
  | callInInitializer (callee : String)
  | looseRange
  | stringConversion (callee : String)
  | voidValue (callee : String)
  | unknownReturnKind (callee : String)
  | calledVariable (callee : String)
  | unknownCallValue (callee : String)
  | integerDivision
  | floatOperands (op : BinOp)
  deriving DecidableEq, Repr

/-- What has a kind that does not fit. -/
inductive Subject where
  | variable (name : String)
  | condition
  | elements (list : String)
  | rangeBounds
  | returnValue (function : String)
  | position (list : String)
  | operand (sign : Sign)
  | operands (op : BinOp)
  | argumentCount (callee : String)
  | lengthArgument
  | arguments (callee : String)
  | argument (number : Nat) (param callee : String)
  deriving DecidableEq, Repr

/-- What a message compares: kinds, classes of kinds, or counts. -/
inductive Trait where
  | kind (k : Kind)
  | number
  | list
  | count (n : Nat)
  deriving DecidableEq, Repr

inductive Unbound where
  | assignedAfterRead
  | loopAfterRead
  | globalDefinedLater (line : Nat)
  | noSuchGlobal
  | definedLater (line : Nat)
  | undefined
  deriving DecidableEq, Repr

/-- Conditions that inference and code generation rely on and do not expect to find broken. -/
inductive Internal where
  | noSignatureFor (function : String)
  | nestedFunctionInferred (function : String)
  | returnOutsideFunction
  | promotionFailed
  | noArguments (callee : String)
  | signatureMissing (function : String)
  | arrayWithoutItems (target : String)
  | assignmentUnresolved (target : String)
  | loopUnresolved (var : String)
  | lengthOfValue
  | castWithoutKind (callee : String)
  | printAsValue
  | rangeAsValue
  | listAsValue
  | kindWithoutName (kind : Kind)
  deriving DecidableEq, Repr

inductive Error where
  | lex (error : Token.LexError)
  | malformed (line : Nat) (text : String) (cause : Malformed)
  | unsupported (line : Nat) (construct : Construct)
  | mismatch (line : Nat) (subject : Subject) (expected found : Trait)
  | unbound (line : Nat) (name : String) (reason : Unbound)
  | internal (line : Nat) (cause : Internal)
  deriving DecidableEq, Repr

namespace Error

def line : Error → Nat
  | .lex error => error.line
  | .malformed line .. | .unsupported line _ | .mismatch line .. | .unbound line ..
  | .internal line _ => line

def isInternal : Error → Bool
  | .internal .. => true
  | _ => false

end Error

end Sketchwright

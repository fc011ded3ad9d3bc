import Sketchwright.Error

/-! What messages say of errors. -/

namespace Sketchwright

private def ticked (text : String) : String := "`" ++ text ++ "`"

private def quoted (text : String) : String := "'" ++ text ++ "'"

/-- A function as a message names it. -/
private def called (name : String) : String := "`" ++ name ++ "()`"

def Token.LexError.message (e : Token.LexError) : String :=
  let place := " at line " ++ toString e.line ++ ", column " ++ toString e.column
  match e.flaw with
  | .unterminatedString => "Unterminated string literal" ++ place
  | .invalidNumber literal => "Invalid number literal " ++ quoted literal ++ place

def Expected.text : Expected → String
  | .expression => "an expression"
  | .identifier => "identifier"
  | .endOfLine => "end of line"
  | .symbol s => s.text
  | .keyword k => k.text

def Malformed.text : Malformed → String
  | .expected what found => "expected " ++ what.text ++ ", found " ++ found.description
  | .strayElse => "`else` without a matching `if`"
  | .strayIndent => "unexpected indent"
  | .strayBlockEnd => "unexpected end of block"
  | .missingBlock => "expected an indented block"
  | .annotatedExpression => "only plain names can be annotated"
  | .assignedExpression => "cannot assign to this expression"
  | .duplicateParameter name => "duplicate parameter " ++ quoted name
  | .rangeArguments count => "range() takes 1 to 3 arguments, got " ++ toString count

def Construct.text : Construct → String
  | .booleanOperator => "boolean operators `and` and `or`"
  | .membershipTest => "identity and membership tests (`is`, `in`)"
  | .conditionalExpression => "conditional expressions"
  | .chainedComparison => "chained comparisons (split them into separate conditions)"
  | .negation => "boolean operator `not`"
  | .keywordExpression word => ticked word ++ " expressions"
  | .stringPrefix word =>
    "string prefix " ++ ticked word ++ " (f-strings, bytes and raw strings)"
  | .attributeAccess path => "attribute access " ++ ticked path ++ " outside a call"
  | .slice => "slices"
  | .computedCallee => "calls, subscripts or attributes on a computed value"
  | .keywordArgument => "keyword arguments"
  | .argumentUnpacking => "argument unpacking"
  | .noneValue => "`None` values"
  | .tuple => "tuples"
  | .dictionary => "dictionary and set literals"
  | .comprehension => "list comprehensions"
  | .nestedFunction => "nested function definitions"
  | .whileLoop => "`while` loops (only `for ... in range(...)` is translated)"
  | .returnOutsideFunction => "`return` outside a function"
  | .jumpOutsideLoop k => ticked k.text ++ " outside a loop"
  | .globalOutsideFunction => "`global` outside a function"
  | .keywordStatement word => ticked word ++ " statements"
  | .increment => "increment and decrement operators (`x++`, `x--`)"
  | .chainedAssignment => "chained assignment"
  | .annotationWithoutValue => "annotations without a value"
  | .compoundAssignment op => "compound assignment " ++ ticked op ++ " (write `x = x + ...`)"
  | .tupleAssignment => "tuple assignment and tuples"
  | .annotationName name => "type annotation " ++ ticked name
  | .variadicParameter => "variadic parameters"
  | .defaultParameter => "default parameter values"
  | .entryParameters name =>
    "parameters on entry point " ++ ticked name ++
      " (the Arduino runtime calls it without arguments)"
  | .entryReturnKind name => "a return type on entry point " ++ ticked name
  | .tupleLoopTarget => "tuple loop targets"
  | .iteration => "`for` loops over anything other than `range(...)`"
  | .loopElse => "`for ... else` blocks"
  | .computedStep => "a non-literal `range()` step"
  | .zeroStep => "a `range()` step of zero"
  | .moduleStatement =>
    "executable statements at module level (move them into setup() or loop())"
  | .redefinedFunction name => "redefining function " ++ ticked name
  | .runtimeFunction name => "defining " ++ ticked name ++ ", which is a runtime name"
  | .unknownParameterKind param function =>
    "cannot infer the type of parameter " ++ ticked param ++ " of " ++ called function ++
      "; annotate it (`" ++ param ++ ": int`)"
  | .globalNamedAsFunction name => "global " ++ ticked name ++ " shares its name with a function"
  | .assignedRuntimeName name => "assigning to runtime name " ++ ticked name
  | .listInBlock =>
    "list literals inside blocks (declare lists at the top of a function or module)"
  | .reassignedGlobal name => "re-assigning global " ++ ticked name ++ " at module level"
  | .reassignedList name =>
    "re-assigning list " ++ ticked name ++ " (assign its elements instead)"
  | .nestedList => "nested lists"
  | .mixedList first other =>
    "mixed-kind list literal (" ++ first.text ++ " and " ++ other.text ++ ")"
  | .emptyList => "empty list literals (the element type cannot be inferred)"
  | .moduleElement => "assigning list elements at module level"
  | .assignedLoopVariable name =>
    "assigning to loop variable " ++ ticked name ++ " inside its loop"
  | .entryReturnValue name => "returning a value from entry point " ++ ticked name
  | .lateGlobal name =>
    "`global " ++ name ++ "` after " ++ ticked name ++ " was already bound locally"
  | .functionAsValue name => "using function " ++ ticked name ++ " as a value"
  | .listAsValue name =>
    "using list " ++ ticked name ++ " as a value (index it or pass it to len())"
  | .looseList => "list literals outside a declaring assignment"
  | .callInInitializer callee => "calling " ++ called callee ++ " in a global initializer"
  | .looseRange => "`range()` outside a `for` loop header"
  | .stringConversion callee => "converting a string with " ++ called callee
  | .voidValue callee => "using the value of " ++ called callee ++ ", which returns nothing"
  | .unknownReturnKind callee =>
    "cannot infer the return type of " ++ called callee ++
      " where its value is used; annotate it (`def " ++ callee ++ "(...) -> int:`)"
  | .calledVariable callee => "calling " ++ ticked callee ++ ", which is not a function"
  | .unknownCallValue callee =>
    "using the value of unknown call " ++ called callee ++
      " (declare it under `calls` in the configuration)"
  | .integerDivision =>
    "`/` between integers (use `//` for integer division or float() for a fractional result)"
  | .floatOperands op => ticked op.text ++ " with float operands"

def Subject.text : Subject → String
  | .variable name => quoted name
  | .condition => "condition"
  | .elements list => "elements of " ++ quoted list
  | .rangeBounds => "bounds of `range()`"
  | .returnValue function => "return value of " ++ called function
  | .position list => "index of " ++ quoted list
  | .operand sign => "operand of unary " ++ ticked sign.text
  | .operands op => "operands of " ++ ticked op.text
  | .argumentCount callee => "argument count of " ++ called callee
  | .lengthArgument => "argument of `len()`"
  | .arguments callee => "arguments of " ++ called callee
  | .argument number param callee =>
    "argument " ++ toString number ++ " (" ++ ticked param ++ ") of " ++ called callee

def Trait.text : Trait → String
  | .kind k => k.text
  | .number => "a number"
  | .list => "a list"
  | .count n => toString n

def Unbound.text : Unbound → String
  | .assignedAfterRead =>
    "assigned after being read from the global scope in the same function; " ++
      "declare it `global` or use another name"
  | .loopAfterRead => "used as a loop variable after being read from the global scope"
  | .globalDefinedLater line =>
    "the global is defined at line " ++ toString line ++ ", after this function"
  | .noSuchGlobal => "no global of that name is defined"
  | .definedLater line =>
    "defined at line " ++ toString line ++ ", after this function; move the definition above it"
  | .undefined => "not defined before this line"

def Internal.text : Internal → String
  | .noSignatureFor function => "no signature for " ++ ticked function
  | .nestedFunctionInferred function =>
    "nested function " ++ ticked function ++ " reached the inferencer"
  | .returnOutsideFunction => "`return` outside a function"
  | .promotionFailed => "numeric promotion failed"
  | .noArguments callee => called callee ++ " has no arguments"
  | .signatureMissing function => "function " ++ ticked function ++ " has no inferred signature"
  | .arrayWithoutItems target => "array " ++ ticked target ++ " declared without a list literal"
  | .assignmentUnresolved target => "assignment to " ++ ticked target ++ " was never resolved"
  | .loopUnresolved var => "loop variable " ++ ticked var ++ " was never resolved"
  | .lengthOfValue => "len() of something other than a list"
  | .castWithoutKind callee => "cast " ++ ticked callee ++ " has no target kind"
  | .printAsValue => "print() used as a value"
  | .rangeAsValue => "range() outside a loop header"
  | .listAsValue => "list literal outside an array declaration"
  | .kindWithoutName kind => kind.text ++ " has no scalar type name"

namespace Error

def message : Error → String
  | .lex error => error.message
  | .malformed line text cause =>
    "Cannot parse line " ++ toString line ++ " " ++ ticked text ++ ": " ++ cause.text
  | .unsupported line construct =>
    "Unsupported construct at line " ++ toString line ++ ": " ++ construct.text
  | .mismatch line subject expected found =>
    "Inconsistent types at line " ++ toString line ++ ": " ++ subject.text ++ " is " ++
      expected.text ++ " but got " ++ found.text
  | .unbound line name reason =>
    "Unbound name " ++ quoted name ++ " at line " ++ toString line ++ ": " ++ reason.text
  | .internal line cause => "Internal error at line " ++ toString line ++ ": " ++ cause.text

/-- The family that an error belongs to. -/
def family : Error → String
  | .lex _ => "lex"
  | .malformed .. => "parse"
  | .unsupported .. => "unsupported_construct"
  | .mismatch .. => "type_inconsistency"
  | .unbound .. => "unbound_name"
  | .internal .. => "internal"

end Error

end Sketchwright

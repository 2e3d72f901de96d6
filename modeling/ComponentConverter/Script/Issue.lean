import ComponentConverter.Text.Quoted
import ComponentConverter.Text.Span

namespace ComponentConverter.Script

inductive Cause where
  | expressionExpected
  | tokenExpected (wanted got : String)
  | tokenUnexpected (got wanted : String)
  | statementEndExpected
  | semicolonExpected
  | identifierExpected
  | memberNameExpected
  | endOfScript
  | unterminatedTemplate
  | unterminatedPattern
  | unterminatedString
  | unterminatedComment
  | legacyComment
  | unexpectedCharacter (c : Char)
  | malformedEscape (wanted : String)
  | unclosedEscape
  | stringEscape
  | escapeExpected
  | nameCharacter
  | nameAfterNumber
  | digitExpected (base : Nat)
  | exponentExpected
  | numberGap
  | legacyOctal
  | legacyDecimal
  | patternFlags
  | repeatedFlag (flag : Char)
  | escapedReservedWord (word : String)
  | reservedInStrict (word : String)
  | reservedShorthand
  | reservedImport
  | awaitAsName
  | awaitInFunction
  | awaitInParameter
  | awaitStar
  | awaitInCountingLoop
  | yieldInParameter
  | lineBreakAfterThrow
  | lineBreakBeforeArrow
  | arrowNotAllowed
  | invalidTarget
  | notAssignable
  | notVariable
  | notPattern
  | notExpression
  | memberInitializer
  | emptyParentheses
  | spreadInParentheses
  | trailingComma
  | commaAfterRest
  | restNotLast
  | restParameterNotLast
  | restInitializer
  | optionalRest
  | restWithoutName
  | restInSetter
  | withStatement
  | unsupportedWith
  | setterParameters
  | getterParameters
  | deletedName
  | deletedValue
  | evalAsBinding
  | argumentsInStrict
  | argumentsInField
  | uninitializedConstant
  | uninitializedPattern
  | emptyDeclaration
  | declarationNotAllowed
  | returnOutside
  | breakOutside
  | breakTarget
  | continueOutside
  | continueTarget
  | repeatedLabel (label : String)
  | labelledFunction
  | labelledGenerator
  | repeatedDefault
  | loopInitializer
  | loopVariables
  | loopType
  | loopPattern
  | loopAsync
  | parameterProperty
  | parameterPropertyPattern
  | optionalInitializer
  | optionalPattern
  | strictDirective
  | mixedCoalescing
  | unaryBeforePower
  | chainAfterNew
  | chainedTemplate
  | targetOutside
  | optionalSuper
  | superAccess
  | superCall
  | importNotAllowed
  | commaInImport
  | decoratedExport
  | exportNotAllowed
  | repeatedDecorators
  | moduleItem
  | fromMissing (name : String)
  | stringExport
  | stringImport (name : String)
  | doubledType
  | usingDisabled
  | usingNotAllowed
  | usingPattern
  | usingInitializer
  | spaceAfterHash
  | privateConstructor
  | privateInInterface
  | privateModifier (modifier : String)
  | privateAccess
  | constructorField
  | constructorAccessor
  | constructorAsync
  | constructorGenerator
  | repeatedConstructor
  | constructorModifier (modifier : String)
  | constructorTypeParameters
  | constructorResult
  | emptyTypeParameters
  | readonlyMethod
  | readonlyAccessor
  | modifierOrder (first second : String)
  | repeatedModifier (modifier : String)
  | modifierConflict (first second : String)
  | elementModifier (modifier : String)
  | modifiersNotAllowed
  | overrideWithoutBase
  | parameterModifier (modifier : String)
  | classParameterModifier (modifier : String)
  | functionParameterModifier (modifier : String)
  | abstractMember
  | abstractBody
  | abstractInitializer
  | abstractPlace
  | asyncModifier
  | optionalMember
  | className
  | interfaceName
  | interfaceBase
  | repeatedExtends
  | lateExtends
  | severalBases
  | repeatedImplements
  | indexParameters
  | computedComma
  | computedEnumMember
  | numericEnumMember
  | ambientBody
  | ambientDeclare
  | ambientInitializer
  | requiredAfterOptional
  | stringExpected
  deriving Repr, DecidableEq

def digitName : Nat → String
  | 2 => "a binary"
  | 8 => "an octal"
  | 16 => "a hexadecimal"
  | _ => "a decimal"

def Cause.message : Cause → String
  | .expressionExpected => "Expression expected"
  | .tokenExpected wanted got => "Expected '" ++ wanted ++ "', got '" ++ got ++ "'"
  | .tokenUnexpected got wanted => "Unexpected token `" ++ got ++ "`. Expected " ++ wanted
  | .statementEndExpected => "Expected ';', '\x7d' or <eof>"
  | .semicolonExpected => "Expected a semicolon"
  | .identifierExpected => "Expected ident"
  | .memberNameExpected => "Expected an identifier"
  | .endOfScript => "Unexpected eof"
  | .unterminatedTemplate => "Unterminated template"
  | .unterminatedPattern => "Unterminated regexp literal"
  | .unterminatedString => "Unterminated string constant"
  | .unterminatedComment => "Unterminated block comment"
  | .legacyComment => "Legacy comments cannot be used in module code"
  | .unexpectedCharacter c => "Unexpected character " ++ quotedChar c
  | .malformedEscape wanted => "Bad character escape sequence, expected " ++ wanted
  | .unclosedEscape => "Invalid unicode escape"
  | .stringEscape => "Invalid string escape"
  | .escapeExpected => "Expected unicode escape"
  | .nameCharacter => "Invalid character in identifier"
  | .nameAfterNumber => "Identifier cannot follow number"
  | .digitExpected base => "Expected " ++ digitName base ++ " digit"
  | .exponentExpected => "Expected +, - or decimal digit after e"
  | .numberGap => "A numeric separator is only allowed between two digits"
  | .legacyOctal => "Legacy octal escape is not permitted in strict mode"
  | .legacyDecimal => "Legacy decimal escape is not permitted in strict mode"
  | .patternFlags => "Unknown regular expression flags."
  | .repeatedFlag flag => "Duplicated regular expression flag '" ++ flag.toString ++ "'."
  | .escapedReservedWord word => "Unexpected escape sequence in reserved word: " ++ word
  | .reservedInStrict word => "`" ++ word ++ "` cannot be used as an identifier in strict mode"
  | .reservedShorthand => "Cannot use a reserved word as a shorthand property"
  | .reservedImport => "cannot import as reserved word"
  | .awaitAsName => "`await` cannot be used as an identifier in an async context"
  | .awaitInFunction => "await isn't allowed in non-async function"
  | .awaitInParameter => "`await` expressions cannot be used in a parameter initializer."
  | .awaitStar =>
    "await* has been removed from the async functions proposal. Use Promise.all() instead."
  | .awaitInCountingLoop => "for await syntax is valid only for for-of statement"
  | .yieldInParameter => "'yield' cannot be used as a parameter within generator"
  | .lineBreakAfterThrow => "LineBreak cannot follow 'throw'"
  | .lineBreakBeforeArrow => "Unexpected line break between arrow head and arrow"
  | .arrowNotAllowed => "An arrow function is not allowed here"
  | .invalidTarget => "Invalid assignment target"
  | .notAssignable => "Cannot assign to this"
  | .notVariable =>
    "The left-hand side of an assignment expression must be a variable or a property access."
  | .notPattern => "Not a pattern"
  | .notExpression => "Not an expression"
  | .memberInitializer => "assignment property is invalid syntax"
  | .emptyParentheses => "Parenthesized expression cannot be empty"
  | .spreadInParentheses => "Parenthesized expression cannot contain spread operator"
  | .trailingComma => "Trailing comma is not allowed"
  | .commaAfterRest => "Trailing comma isn't permitted after a rest element"
  | .restNotLast => "Rest element must be final element"
  | .restParameterNotLast => "A rest parameter must be last in a parameter list"
  | .restInitializer => "A rest parameter cannot have an initializer"
  | .optionalRest => "A rest parameter cannot be optional"
  | .restWithoutName => "`...` must be followed by an identifier in declaration contexts"
  | .restInSetter => "Rest pattern is not allowed in setter"
  | .withStatement => "With statement are not allowed in strict mode"
  | .unsupportedWith =>
    "The 'with' statement is not supported. " ++ "All symbols in a 'with' block will have type 'any'."
  | .setterParameters => "A `set` accessor must have exactly one parameter"
  | .getterParameters => "A `get` accessor cannot have parameters"
  | .deletedName => "'delete' cannot be called on an identifier in strict mode"
  | .deletedValue => "The operand of a 'delete' operator must be a property reference."
  | .evalAsBinding =>
    "'eval' and 'arguments' cannot be used as a binding identifier in strict mode"
  | .argumentsInStrict => "Invalid use of 'arguments' in strict mode"
  | .argumentsInField => "'arguments' is only allowed in functions and class methods"
  | .uninitializedConstant => "'const' declarations must be initialized"
  | .uninitializedPattern => "Destructuring bindings require initializers"
  | .emptyDeclaration => "Variable declaration list cannot be empty"
  | .declarationNotAllowed => "Declaration is not allowed"
  | .returnOutside => "Return statement is not allowed here"
  | .breakOutside =>
    "A 'break' statement can only be used within an enclosing iteration or switch statement"
  | .breakTarget => "A 'break' statement can only jump to a label of an enclosing statement"
  | .continueOutside =>
    "A 'continue' statement can only jump to a label of an enclosing iteration statement"
  | .continueTarget => "Jump target cannot cross function boundary"
  | .repeatedLabel label => "Label " ++ label ++ " is already declared"
  | .labelledFunction => "Function cannot be labelled in strict mode"
  | .labelledGenerator => "Generator or async function cannot be labelled"
  | .repeatedDefault => "A switch block cannot have multiple defaults"
  | .loopInitializer => "Unexpected initializer in for in/of loop"
  | .loopVariables => "Expected one variable binding"
  | .loopType => "The left-hand side of a 'for...of' statement cannot use a type annotation"
  | .loopPattern =>
    "The left-hand side of a 'for...in' statement cannot be a destructuring pattern"
  | .loopAsync => "The left-hand side of a `for...of` statement may not be `async`"
  | .parameterProperty => "A parameter property is only allowed in a constructor implementation"
  | .parameterPropertyPattern =>
    "Typescript parameter property must be an identifier or assignment pattern"
  | .optionalInitializer => "Parameter cannot have question mark and initializer"
  | .optionalPattern =>
    "A binding pattern parameter cannot be optional in an implementation signature."
  | .strictDirective =>
    "Illegal 'use strict' directive in function with non-simple parameter list."
  | .mixedCoalescing =>
    "Nullish coalescing operator(??) requires parens when mixing with logical operators"
  | .unaryBeforePower => "'**' cannot be applied to unary/await expression."
  | .chainAfterNew => "Constructor in/after an optional chaining is not allowed."
  | .chainedTemplate => "Tagged template literal is not allowed in optional chain"
  | .targetOutside => "'new.target' metaproperty can only be used inside function block."
  | .optionalSuper => "Super call cannot be optional"
  | .superAccess => "Invalid access to super"
  | .superCall => "Invalid `super()`"
  | .importNotAllowed => "Import is not allowed here"
  | .commaInImport => "Trailing comma is disallowed inside import(...) arguments"
  | .decoratedExport =>
    "Using the export keyword between a decorator and a class is not allowed. " ++
      "Please use `export @dec class` instead."
  | .exportNotAllowed => "`export` is not allowed here"
  | .repeatedDecorators =>
    "Decorators may not appear after `export` or `export default` if they also appear before " ++ "`export`."
  | .moduleItem => "'import', and 'export' cannot be used outside of module code"
  | .fromMissing name => "`" ++ name ++ "` cannot be used without `from` clause"
  | .stringExport => "A string literal cannot be used as an exported binding without `from`."
  | .stringImport name =>
    "A string literal cannot be used as an imported binding.\n- Did you mean `import \x7b \"" ++
      name ++ "\" as local \x7d`?"
  | .doubledType =>
    "The 'type' modifier cannot be used on a named import when 'import type' is used on its " ++ "import statement"
  | .usingDisabled =>
    "Using declaration is not enabled. Set jsc.parser.explicitResourceManagement to true"
  | .usingNotAllowed => "Using declaration is not allowed here"
  | .usingPattern => "Invalid name in using declaration"
  | .usingInitializer => "Using declaration requires initializer"
  | .spaceAfterHash => "Unexpected space between # and identifier"
  | .privateConstructor => "Classes can't have a private field named '#constructor'."
  | .privateInInterface => "private names are not allowed in interface"
  | .privateModifier modifier =>
    "'" ++ modifier ++ "' modifier cannot be used with a private identifier"
  | .privateAccess => "An accessibility modifier cannot be used with a private identifier."
  | .constructorField => "Classes may not have a non-static field named 'constructor'"
  | .constructorAccessor => "Class constructor can't be an accessor."
  | .constructorAsync => "Constructor can't be an async function"
  | .constructorGenerator => "Constructor can't be a generator"
  | .repeatedConstructor => "A class may only have one constructor"
  | .constructorModifier modifier =>
    "'" ++ modifier ++ "' modifier cannot appear on a constructor declaration"
  | .constructorTypeParameters => "Type parameters cannot appear on a constructor declaration"
  | .constructorResult => "Type annotation cannot appear on a constructor declaration"
  | .emptyTypeParameters => "Type parameter list cannot be empty"
  | .readonlyMethod => "A method cannot be readonly"
  | .readonlyAccessor => "A getter or a setter cannot be readonly"
  | .modifierOrder first second =>
    "'" ++ first ++ "' modifier must precede '" ++ second ++ "' modifier."
  | .repeatedModifier modifier => "'" ++ modifier ++ "' modifier already seen."
  | .modifierConflict first second =>
    "'" ++ first ++ "' modifier cannot be used with '" ++ second ++ "' modifier."
  | .elementModifier modifier => "`" ++ modifier ++ "` modifier cannot appear on a class element"
  | .modifiersNotAllowed => "Modifiers cannot appear here"
  | .overrideWithoutBase =>
    "This member cannot have an 'override' modifier because its containing class does not " ++ "extend another class."
  | .parameterModifier modifier =>
    "'" ++ modifier ++ "' modifier cannot appear on a type parameter"
  | .classParameterModifier modifier =>
    "'" ++ modifier ++ "' modifier can only appear on a type parameter of a class, interface or type alias"
  | .functionParameterModifier modifier =>
    "'" ++ modifier ++ "' modifier can only appear on a type parameter of a function, method or class"
  | .abstractMember => "Abstract methods can only appear within an abstract class."
  | .abstractBody => "Abstract method cannot have an implementation."
  | .abstractInitializer => "Abstract property cannot have an initializer."
  | .abstractPlace => "`abstract` modifier can only appear on a class or method declaration"
  | .asyncModifier => "`async` modifier cannot be used here"
  | .optionalMember => "An object member cannot be declared optional"
  | .className => "Invalid class name"
  | .interfaceName => "interface name is invalid"
  | .interfaceBase =>
    "An interface can only extend an identifier/qualified-name with optional type arguments."
  | .repeatedExtends => "`extends` clause already seen."
  | .lateExtends => "'extends' clause must precede 'implements' clause."
  | .severalBases => "Classes can only extend a single class"
  | .repeatedImplements => "`implements` clause already seen."
  | .indexParameters => "An index signature must have exactly one parameter"
  | .computedComma => "A comma expression is not allowed in a computed property name"
  | .computedEnumMember => "Computed property names are not allowed in enums"
  | .numericEnumMember => "An enum member cannot have a numeric name"
  | .ambientBody => "An implementation cannot be declared in ambient contexts"
  | .ambientDeclare => "`declare` modifier not allowed for code already in an ambient context"
  | .ambientInitializer =>
    "A parameter initializer is only allowed in a function or constructor implementation"
  | .requiredAfterOptional => "A required element cannot follow an optional element."
  | .stringExpected => "String literal expected"

structure Issue where
  cause : Cause
  span : Span
  deriving Repr, DecidableEq

def Issue.message (i : Issue) : String := i.cause.message

end ComponentConverter.Script

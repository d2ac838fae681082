/-! # Kinds

The shapes of nodes and the classes of tokens of the C# fragment. Each has a name of its
own, and the names of the two families differ. -/

namespace CallFill

inductive NodeKind where
  /-- A whole document. -/
  | compilationUnit
  /-- Written `using Some.Namespace;`. -/
  | usingDirective
  /-- Written `Type name = value;`. -/
  | localDeclaration
  /-- Written `expression;`. -/
  | expressionStatement
  /-- Written `callee(arguments)`. -/
  | invocation
  /-- Written `(a, b)` after a callee. -/
  | argumentList
  /-- One entry of an argument list. -/
  | argument
  /-- Written `target.name`. -/
  | memberAccess
  /-- Written `typeof(T)`. -/
  | typeOf
  /-- Written `(expression)`. -/
  | parenthesized
  /-- A number, a string, `true`, `false` or `null`. -/
  | literal
  /-- Written `this`. -/
  | this
  /-- Written `Name`. -/
  | identifierName
  /-- Written `Name<T1, T2>`. -/
  | genericName
  /-- Written `<T1, T2>`. -/
  | typeArgumentList
  /-- Written `Left.Right`. -/
  | qualifiedName
  /-- Written `global::Name`. -/
  | aliasQualifiedName
  /-- Written `int`, `string` and the like. -/
  | predefinedType
  /-- Written `T[]`. -/
  | arrayType
  /-- Written `[]` or `[,]`. -/
  | rankSpecifier
  /-- Written `T?`. -/
  | nullableType
  /-- Written `T*`. -/
  | pointerType
  /-- Written `(T1, T2 name)`. -/
  | tupleType
  /-- One element of a tuple type. -/
  | tupleElement
deriving DecidableEq, Repr

inductive TokenKind where
  | identifier
  /-- A reserved word. -/
  | keyword
  | number
  | string
  | dot
  | comma
  | semicolon
  | equals
  | openParen
  | closeParen
  | lessThan
  | greaterThan
  | openBracket
  | closeBracket
  | question
  | asterisk
  | colonColon
  /-- The empty token that carries the trivia at the end of a document. -/
  | endOfFile
deriving DecidableEq, Repr

namespace NodeKind

def name : NodeKind → String
  | .compilationUnit => "CompilationUnit"
  | .usingDirective => "UsingDirective"
  | .localDeclaration => "LocalDeclarationStatement"
  | .expressionStatement => "ExpressionStatement"
  | .invocation => "InvocationExpression"
  | .argumentList => "ArgumentList"
  | .argument => "Argument"
  | .memberAccess => "SimpleMemberAccessExpression"
  | .typeOf => "TypeOfExpression"
  | .parenthesized => "ParenthesizedExpression"
  | .literal => "LiteralExpression"
  | .this => "ThisExpression"
  | .identifierName => "IdentifierName"
  | .genericName => "GenericName"
  | .typeArgumentList => "TypeArgumentList"
  | .qualifiedName => "QualifiedName"
  | .aliasQualifiedName => "AliasQualifiedName"
  | .predefinedType => "PredefinedType"
  | .arrayType => "ArrayType"
  | .rankSpecifier => "ArrayRankSpecifier"
  | .nullableType => "NullableType"
  | .pointerType => "PointerType"
  | .tupleType => "TupleType"
  | .tupleElement => "TupleElement"

def all : List NodeKind :=
  [.compilationUnit, .usingDirective, .localDeclaration, .expressionStatement, .invocation,
   .argumentList, .argument, .memberAccess, .typeOf, .parenthesized, .literal, .this,
   .identifierName, .genericName, .typeArgumentList, .qualifiedName, .aliasQualifiedName,
   .predefinedType, .arrayType, .rankSpecifier, .nullableType, .pointerType, .tupleType,
   .tupleElement]

/-- The kinds that denote a type. -/
def isType : NodeKind → Bool
  | .identifierName | .genericName | .qualifiedName | .aliasQualifiedName | .predefinedType
  | .arrayType | .nullableType | .pointerType | .tupleType => true
  | _ => false

end NodeKind

namespace TokenKind

def name : TokenKind → String
  | .identifier => "IdentifierToken"
  | .keyword => "KeywordToken"
  | .number => "NumericLiteralToken"
  | .string => "StringLiteralToken"
  | .dot => "DotToken"
  | .comma => "CommaToken"
  | .semicolon => "SemicolonToken"
  | .equals => "EqualsToken"
  | .openParen => "OpenParenToken"
  | .closeParen => "CloseParenToken"
  | .lessThan => "LessThanToken"
  | .greaterThan => "GreaterThanToken"
  | .openBracket => "OpenBracketToken"
  | .closeBracket => "CloseBracketToken"
  | .question => "QuestionToken"
  | .asterisk => "AsteriskToken"
  | .colonColon => "ColonColonToken"
  | .endOfFile => "EndOfFileToken"

def all : List TokenKind :=
  [.identifier, .keyword, .number, .string, .dot, .comma, .semicolon, .equals, .openParen,
   .closeParen, .lessThan, .greaterThan, .openBracket, .closeBracket, .question, .asterisk,
   .colonColon, .endOfFile]

end TokenKind

/-- The kind of a node or of a token. -/
inductive Kind where
  | node (k : NodeKind)
  | token (k : TokenKind)
deriving DecidableEq, Repr

namespace Kind

def name : Kind → String
  | .node k => k.name
  | .token k => k.name

def isToken : Kind → Bool
  | .node _ => false
  | .token _ => true

def isType : Kind → Bool
  | .node k => k.isType
  | .token _ => false

def all : List Kind := NodeKind.all.map .node ++ TokenKind.all.map .token

/-- The kind with a given name. -/
def ofName? (n : String) : Option Kind := all.find? (·.name == n)

end Kind

end CallFill

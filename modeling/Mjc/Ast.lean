import Mjc.Token

/-!
# The abstract syntax tree

The classes of `ast.hpp`, without source locations. A null `Statement *` (an empty statement) is
`none`; a block never holds one, since `parseBlock` does not store the null pointers it gets.
`Block::containsNothingExceptOneSingleLonelyEmtpyExpression` is the flag `lonely` of a block, kept as
a field because the parser computes it once and the printer reads it.
-/

namespace Mjc.Ast

inductive PrimType where
  | boolean | int | void
  deriving DecidableEq, Repr

/-- `BasicType`: a primitive type or a class type. -/
inductive BasicType where
  | primitive (type : PrimType)
  | classType (name : String)
  deriving DecidableEq, Repr

/-- `Type`: a basic type, or an array of one of a positive dimension. -/
inductive Ty where
  | basic (type : BasicType)
  | array (elementType : BasicType) (dimension : Nat)
  deriving DecidableEq, Repr

/-- `BinaryExpression::Op`. -/
inductive BinaryOp where
  | assign | or | and | equals | notEquals | less | lessEquals | greater | greaterEquals
  | plus | minus | mul | div | mod
  deriving DecidableEq, Repr

/-- `UnaryExpression::Op`. -/
inductive UnaryOp where
  | not | neg
  deriving DecidableEq, Repr

/-- `Expression` and its subclasses. -/
inductive Expr where
  | intLiteral (value : Int)
  | boolLiteral (value : Bool)
  | nullLiteral
  | thisLiteral
  | varRef (name : String)
  | methodInvocation (left : Expr) (name : String) (arguments : List Expr)
  | fieldAccess (left : Expr) (name : String)
  | arrayAccess (array index : Expr)
  | newObject (name : String)
  | newArray (elementType : BasicType) (dimension : Nat) (size : Expr)
  | binary (op : BinaryOp) (left right : Expr)
  | unary (op : UnaryOp) (expression : Expr)
  deriving Repr

/-- `BlockStatement` and its subclasses. -/
inductive Stmt where
  | block (statements : List Stmt) (lonely : Bool)
  | varDecl (type : Ty) (name : String) (initializer : Option Expr)
  | exprStmt (expression : Expr)
  | ifStmt (condition : Expr) (thenStmt elseStmt : Option Stmt)
  | whileStmt (condition : Expr) (statement : Option Stmt)
  | returnStmt (expression : Option Expr)
  deriving Repr

/-- `Block`, as the body of a method. -/
structure Block where
  statements : List Stmt
  lonely : Bool
  deriving Repr

structure Field where
  type : Ty
  name : String
  deriving DecidableEq, Repr

structure Parameter where
  type : Ty
  name : String
  idx : Nat
  deriving DecidableEq, Repr

structure RegularMethod where
  returnType : Ty
  name : String
  parameters : List Parameter
  block : Block
  deriving Repr

structure MainMethod where
  name : String
  argName : String
  block : Block
  deriving Repr

structure Class where
  name : String
  fields : List Field
  methods : List RegularMethod
  mainMethods : List MainMethod
  deriving Repr

structure Program where
  classes : List Class
  deriving Repr

end Mjc.Ast

import Mathlib.Data.String.Basic
import Mjc.Bisect
import Mjc.Sema.Annotated
import Mjc.Sema.SymbolTable

/-!
# Semantic analysis

The functions of `semantic_visitor.cpp`. A visit returns the annotated tree, or stops with a `SemanticError` or
where the code asserts or dereferences a null pointer.

* `visitExpr` : an expression; it only reads the symbol table;
* `visitStmt` : a statement; it moves the symbol table and the number of the next local variable;
* `visitProgram` : the whole program.

A function that is named after one for a node with children, and has these visited first, gets them visited.
Source locations are left out. The sorts of the source are all sorts by name: `std::sort` is only ever applied to
lists whose names are known to be different.
-/

namespace Mjc.Sema
open Mjc.Ast Mjc.Bisect

set_option autoImplicit false

/-- The message of a `SemanticError`. -/
inductive Message where
  | duplicate (what : String)
  | noMain
  | severalMains
  | overloadsMain
  | severalMainsInClass
  | returnsVoidArray
  | missingReturn
  | variableDefined (name : String)
  | initializerType (source target : SemType)
  | voidVariable (type : SemType)
  | unknownVariable (name : String)
  | mainArgument
  | fieldInMain
  | parameterDefined (name : String)
  | voidParameter (type : SemType)
  | undefinedClass (name : String)
  | thisInMain
  | operandsInt
  | operandsBool
  | assignToRValue
  | assignType (source target : SemType)
  | compareType (left right : SemType)
  | arraySize
  | newVoidArray (type : SemType)
  | systemField (name : String)
  | systemOutField (name : String) (stream : String)
  | accessOnNonClass (type : SemType)
  | unknownField (name className : String)
  | systemMethod (name : String)
  | noMethodInClass (className name : String)
  | invokeOnNonClass
  | sysoutArguments (name : String) (given : Nat)
  | sysoutArgumentType (name : String) (type : SemType)
  | takesNoArguments
  | systemOutMethod (name : String) (stream : String)
  | callOnNonClass
  | noMethodCalled (className name : String)
  | argumentCount (expected given : Nat)
  | argumentType (expected given : SemType)
  | ifCondition (type : SemType)
  | whileCondition (type : SemType)
  | returnsNothing
  | returnsValue
  | returnExprType (given expected : SemType)
  | negationInt (type : SemType)
  | negationBool (type : SemType)
  | arrayIndex (type : SemType)
  | nonArray (indexType : SemType)
  | voidField (type : SemType)
  deriving DecidableEq, Repr

def typeKindToString : TypeKind → String
  | .bool => "bool"
  | .int => "int"
  | .cls => "Class"
  | .array => ""
  | .void => "void"
  | .null => "null"
  | .unresolved => "Unresolved"

/-- How a `sem::Type` is written. -/
def SemType.text (t : SemType) : String :=
  match t.kind with
  | .cls => typeKindToString .cls ++ "(" ++ t.name ++ ")"
  | .array => typeKindToString t.innerKind ++ (if t.innerKind = .cls then "(" ++ t.name ++ ")" else "") ++
      String.join (List.replicate t.dimension "[]")
  | kind => typeKindToString kind

def Message.text : Message → String
  | .duplicate what => "invalid duplicate definition of " ++ what
  | .noMain => "Program does not contain a valid main method"
  | .severalMains => "Program contains more than one main method"
  | .overloadsMain => "may not overload main method"
  | .severalMainsInClass => "Not more than one main method allowed per class"
  | .returnsVoidArray => "Method return type cannot be of type 'void[]'"
  | .missingReturn => "Non-Void method must return a value on every path"
  | .variableDefined name => "Variable '" ++ name ++ "' already defined"
  | .initializerType source target => "May not assign from " ++ source.text ++ " to " ++ target.text
  | .voidVariable type => "Variable may not be of type '" ++ type.text ++ "'"
  | .unknownVariable name => "Unknown variable '" ++ name ++ "'"
  | .mainArgument => "Access to the parameter of a main method is forbidden"
  | .fieldInMain => "Cannot use fields in static method"
  | .parameterDefined name => "Parameter '" ++ name ++ "' already defined"
  | .voidParameter type => "Parameter may not be of type '" ++ type.text ++ "'"
  | .undefinedClass name => "Undefined class '" ++ name ++ "'"
  | .thisInMain => "Cannot access class members in static method"
  | .operandsInt => "operands must both be int"
  | .operandsBool => "operands must both be bool"
  | .assignToRValue => "Left hand side of assignment may not be an rvalue"
  | .assignType source target =>
    "Can't assign value of type " ++ source.text ++ " to variable of type " ++ target.text
  | .compareType left right =>
    "Can't compare expression of type '" ++ left.text ++ "' to expression of type '" ++ right.text ++ "'"
  | .arraySize => "Array indices must be ints"
  | .newVoidArray type => "Cannot create new object of type '" ++ type.text ++ "'"
  | .systemField name => "invalid field access '" ++ name ++ "' on 'System'"
  | .systemOutField name stream => "invalid access '" ++ name ++ "' on " ++ stream
  | .accessOnNonClass type =>
    "Left hand side of field access must be class type object, but is '" ++ type.text ++ "'"
  | .unknownField name className => "Unknown field " ++ name ++ " in class " ++ className
  | .systemMethod name => "invalid method call '" ++ name ++ "' on 'System'"
  | .noMethodInClass className name => "Class " ++ className ++ " does not contain a method " ++ name
  | .invokeOnNonClass => "Methods can only be invoked on class types"
  | .sysoutArguments name given =>
    "System.out." ++ name ++ " takes exactly one int argument, " ++ toString given ++ " given"
  | .sysoutArgumentType name type =>
    "System.out." ++ name ++ " takes one int argument, but argument is of type " ++ type.text
  -- also when the arguments of `System.in.read` are wrong
  | .takesNoArguments => "System.out.flush takes no arguments"
  | .systemOutMethod name stream => "Invalid method call '" ++ name ++ "' on '" ++ stream ++ "'"
  | .callOnNonClass => "Methods can only be called on class types"
  | .noMethodCalled className name => "Class " ++ className ++ " does not have a method called '" ++ name ++ "'"
  | .argumentCount expected given =>
    "invalid number of arguments: expected " ++ toString expected ++ " but have " ++ toString given
  | .argumentType expected given => "Invalid Argument type. Expected " ++ expected.text ++ " but have " ++ given.text
  | .ifCondition type => "if condition must be boolean, not " ++ type.text
  | .whileCondition type => "while condition must be boolean, not " ++ type.text
  | .returnsNothing => "Non-Void methods must return a value"
  | .returnsValue => "Void method may not return any value"
  | .returnExprType given expected => "May not return expression of type '" ++ given.text ++
      "' from method with return type '" ++ expected.text ++ "'"
  | .negationInt type => "Negation requires int expression, not " ++ type.text
  | .negationBool type => "Negation requires boolean expression, not " ++ type.text
  | .arrayIndex type => "Array indices must be integer expressions, but have " ++ type.text
  | .nonArray indexType => "Array access on non-array expression, but have " ++ indexType.text
  | .voidField type => "Field may not be of type '" ++ type.text ++ "'"

/-- Why a visit does not return. -/
inductive Stop where
  | semanticError (message : Message)
  /-- a failed assertion or a null pointer -/
  | crash
  deriving DecidableEq, Repr

def error {α : Type} (message : Message) : Except Stop α := .error (.semanticError message)

/-- Raise an error unless a condition holds. -/
def check (b : Bool) (message : Message) : Except Stop Unit := if b then .ok () else error message

/-! ## Lists of named things -/

/-- The sort by name. -/
def sortByName {α : Type} (name : α → String) (l : List α) : List α :=
  l.insertionSort fun a b => name a ≤ name b

/-- `std::adjacent_find` on a sorted list: some name stands twice. -/
def hasAdjacent {α : Type} (name : α → String) : List α → Bool
  | a :: b :: l => name a = name b || hasAdjacent name (b :: l)
  | _ => false

/-- `checkForDuplicates`; the list is sorted afterwards. -/
def checkForDuplicates {α : Type} (name : α → String) (what : String) (l : List α) : Except Stop (List α) :=
  if hasAdjacent name (sortByName name l) then error (.duplicate what) else .ok (sortByName name l)

/-- `std::lower_bound`, and the test that the name is the one looked for. -/
def findByName {α : Type} (name : α → String) (l : List α) (key : String) : Option α :=
  match l[lowerBound (fun x => name x < key) l]? with
  | none => none
  | some x => if key < name x then none else some x

def sortMembers (klass : Ast.Class) : Ast.Class :=
  { klass with
    fields := sortByName Ast.Field.name klass.fields
    methods := sortByName RegularMethod.name klass.methods }

def findMethodInClass (klass : Ast.Class) (name : String) : Option RegularMethod :=
  findByName RegularMethod.name klass.methods name

def findFieldInClass (klass : Ast.Class) (name : String) : Option Ast.Field :=
  findByName Ast.Field.name klass.fields name

/-! ## Context -/

/-- `currentMethod`. -/
inductive Method where
  | regular (returnType : Ty)
  | main
  deriving DecidableEq, Repr

def Method.returnType : Method → SemType
  | .regular returnType => semaType returnType
  | .main => .void

/-- `currentProgram`, `currentClass` and `currentMethod`. -/
structure Context where
  classes : List Ast.Class
  currentClass : Ast.Class
  currentMethod : Method

def Context.findClassByName (cx : Context) (name : String) : Option Ast.Class :=
  findByName Ast.Class.name cx.classes name

abbrev Table := SymbolTable Definition

/-! ## Types -/

/-- The visit of a basic type: `visitClassType`. -/
def visitBasicType (cx : Context) : BasicType → Except Stop Unit
  | .primitive _ => .ok ()
  | .classType name => check (cx.findClassByName name).isSome (.undefinedClass name)

def visitType (cx : Context) : Ty → Except Stop Unit
  | .basic type => visitBasicType cx type
  | .array elementType _ => visitBasicType cx elementType

/-! ## Expressions -/

def visitVarRef (cx : Context) (tbl : Table) (name : String) : Except Stop TExpr :=
  match tbl.lookup name with
  | none =>
    if name = "System" then .ok (.varRef name .system .unresolved) else error (.unknownVariable name)
  | some .mainArg => error .mainArgument
  | some (.field type) =>
    if cx.currentMethod = .main then error .fieldInMain
    else .ok (.varRef name (.definition (.field type)) (semaType type))
  | some (.parameter idx type) => .ok (.varRef name (.definition (.parameter idx type)) (semaType type))
  | some (.variable idx type) => .ok (.varRef name (.definition (.variable idx type)) (semaType type))

def visitThisLiteral (cx : Context) : Except Stop TExpr :=
  match cx.currentMethod with
  | .regular _ => .ok (.thisLiteral (.cls cx.currentClass.name))
  | .main => error .thisInMain

/-- `visitNewObjectExpression`. -/
def visitNewObject (cx : Context) (name : String) : Except Stop TExpr := do
  check (cx.findClassByName name).isSome (.undefinedClass name)
  return .newObject name (.cls name)

/-- `visitNewArrayExpression`, after the size. -/
def visitNewArray (elementType : BasicType) (dimension : Nat) (size : TExpr) : Except Stop TExpr := do
  check size.targetType.isInt .arraySize
  let type := semaType (.array elementType dimension)
  check (!type.isVoidOrVoidArray) (.newVoidArray type)
  return .newArray elementType dimension size type

/-- A `PrimaryRValueExpression` or an `RValueExpression`: not the left side of an assignment. -/
def TExpr.isRValue : TExpr → Bool
  | .varRef _ _ _ | .fieldAccess _ _ _ _ | .arrayAccess _ _ _ => false
  | _ => true

def visitBinary (op : BinaryOp) (left right : TExpr) : Except Stop TExpr := do
  match op with
  | .plus | .minus | .mul | .div | .mod =>
    check (right.targetType.isInt && left.targetType.isInt) .operandsInt
    return .binary op left right .int
  | .less | .lessEquals | .greater | .greaterEquals =>
    check (right.targetType.isInt && left.targetType.isInt) .operandsInt
    return .binary op left right .bool
  | .or | .and =>
    check (right.targetType.isBool && left.targetType.isBool) .operandsBool
    return .binary op left right .bool
  | .assign =>
    check (!left.isRValue) .assignToRValue
    check (left.targetType.accepts right.targetType) (.assignType right.targetType left.targetType)
    return .binary op left right left.targetType
  | .equals | .notEquals =>
    check (!left.targetType.isVoid && !right.targetType.isVoid &&
        (left.targetType.accepts right.targetType || right.targetType.accepts left.targetType))
      (.compareType left.targetType right.targetType)
    return .binary op left right .bool

def visitUnary (op : UnaryOp) (inner : TExpr) : Except Stop TExpr := do
  match op with
  | .neg =>
    check inner.targetType.isInt (.negationInt inner.targetType)
    return .unary op inner .int
  | .not =>
    check inner.targetType.isBool (.negationBool inner.targetType)
    return .unary op inner .bool

def visitArrayAccess (array index : TExpr) : Except Stop TExpr := do
  check index.targetType.isInt (.arrayIndex index.targetType)
  check array.targetType.isArray (.nonArray index.targetType)
  return .arrayAccess array index array.targetType.element

/-- The end of `visitFieldAccess`: a field of a class. -/
def visitMember (cx : Context) (left : TExpr) (name : String) : Except Stop TExpr := do
  check left.targetType.isClass (.accessOnNonClass left.targetType)
  match cx.findClassByName left.targetType.name with
  | none => .error .crash
  | some cls =>
    match findFieldInClass cls name with
    | none => error (.unknownField name left.targetType.name)
    | some field => return .fieldAccess left name (.field cls.name) (semaType field.type)

def visitFieldAccess (cx : Context) (left : TExpr) (name : String) : Except Stop TExpr :=
  match left with
  | .varRef _ .system _ =>
    if name = "out" then .ok (.fieldAccess left name .systemOut .unresolved)
    else if name = "in" then .ok (.fieldAccess left name .systemIn .unresolved)
    else error (.systemField name)
  | .fieldAccess _ _ .systemOut _ => error (.systemOutField name "System.out")
  | .fieldAccess _ _ .systemIn _ => error (.systemOutField name "System.in")
  | _ => visitMember cx left name

/-- A call on `System.out` with one `int` argument: `println` and `write`. -/
def visitSysoutArgument (left : TExpr) (name : String) (arguments : List TExpr) : Except Stop TExpr :=
  match arguments with
  | [arg] =>
    if arg.targetType.isInt then .ok (.methodInvocation left name arguments .sysout .void)
    else error (.sysoutArgumentType name arg.targetType)
  | _ => error (.sysoutArguments name arguments.length)

def checkArguments : List Parameter → List TExpr → Except Stop Unit
  | param :: params, arg :: args => do
    check ((semaType param.type).accepts arg.targetType) (.argumentType (semaType param.type) arg.targetType)
    checkArguments params args
  | _, _ => .ok ()

/-- The end of `visitMethodInvocation`: a method of a class. -/
def visitCall (cx : Context) (left : TExpr) (name : String) (arguments : List TExpr) : Except Stop TExpr := do
  check left.targetType.isClass .callOnNonClass
  match cx.findClassByName left.targetType.name with
  | none => .error .crash
  | some classDef =>
    match findMethodInClass classDef name with
    | none => error (.noMethodCalled cx.currentClass.name name)
    | some method =>
      check (method.parameters.length == arguments.length)
        (.argumentCount method.parameters.length arguments.length)
      checkArguments method.parameters arguments
      return .methodInvocation left name arguments (.method classDef.name) (semaType method.returnType)

/-- The first checks of `visitMethodInvocation` on a variable: its class has the method. -/
def visitReceiver (cx : Context) (d : Definition) (name : String) : Except Stop Unit :=
  match d.type with
  | none => .error .crash
  | some type =>
    if (semaType type).isClass then
      match cx.findClassByName (semaType type).name with
      | none => .error .crash
      | some classDef =>
        check (findMethodInClass classDef name).isSome (.noMethodInClass (semaType type).name name)
    else error .invokeOnNonClass

def visitMethodInvocation (cx : Context) (left : TExpr) (name : String) (arguments : List TExpr) :
    Except Stop TExpr :=
  match left with
  | .varRef _ .system _ => error (.systemMethod name)
  | .varRef _ (.definition d) _ => do
    visitReceiver cx d name
    visitCall cx left name arguments
  | .fieldAccess _ _ .systemOut _ =>
    if name = "println" || name = "write" then visitSysoutArgument left name arguments
    else if name = "flush" then do
      check arguments.isEmpty .takesNoArguments
      return .methodInvocation left name arguments .sysout .void
    else error (.systemOutMethod name "System.out")
  | .fieldAccess _ _ .systemIn _ =>
    if name = "read" then do
      check arguments.isEmpty .takesNoArguments
      return .methodInvocation left name arguments .sysout .int
    else error (.systemOutMethod name "System.in")
  | _ => visitCall cx left name arguments

mutual

def visitExpr (cx : Context) (tbl : Table) : Expr → Except Stop TExpr
  | .intLiteral value => .ok (.intLiteral value)
  | .boolLiteral value => .ok (.boolLiteral value)
  | .nullLiteral => .ok .nullLiteral
  | .thisLiteral => visitThisLiteral cx
  | .varRef name => visitVarRef cx tbl name
  | .methodInvocation left name arguments => do
    let left ← visitExpr cx tbl left
    let arguments ← visitExprs cx tbl arguments
    visitMethodInvocation cx left name arguments
  | .fieldAccess left name => do
    let left ← visitExpr cx tbl left
    visitFieldAccess cx left name
  | .arrayAccess array index => do
    let array ← visitExpr cx tbl array
    let index ← visitExpr cx tbl index
    visitArrayAccess array index
  | .newObject name => visitNewObject cx name
  | .newArray elementType dimension size => do
    visitBasicType cx elementType
    let size ← visitExpr cx tbl size
    visitNewArray elementType dimension size
  | .binary op left right => do
    let left ← visitExpr cx tbl left
    let right ← visitExpr cx tbl right
    visitBinary op left right
  | .unary op expression => do
    let inner ← visitExpr cx tbl expression
    visitUnary op inner

def visitExprs (cx : Context) (tbl : Table) : List Expr → Except Stop (List TExpr)
  | [] => .ok []
  | e :: es => do
    let e ← visitExpr cx tbl e
    let es ← visitExprs cx tbl es
    return e :: es

end

def visitOptExpr (cx : Context) (tbl : Table) : Option Expr → Except Stop (Option TExpr)
  | none => .ok none
  | some e => do
    let e ← visitExpr cx tbl e
    return some e

/-! ## Statements -/

/-- `symTbl` and `currentLocalVarDeclNr`. -/
structure St where
  symTbl : Table
  currentLocalVarDeclNr : Nat

/-- `leaveScope` of a visitor. -/
def leave (tbl : Table) : Except Stop Table :=
  match tbl.leaveScope with
  | none => .error .crash
  | some tbl => .ok tbl

/-- A definition that a local variable may hide. -/
def mayHide : Option Definition → Bool
  | none | some (.field _) => true
  | _ => false

/-- `visitVariableDeclaration`, before the children. -/
def declare (st : St) (type : Ty) (name : String) : Except Stop St := do
  check (!st.symTbl.isDefinedInCurrentScope name) (.variableDefined name)
  check (mayHide (st.symTbl.lookup name)) (.variableDefined name)
  return ⟨st.symTbl.insert name (.variable st.currentLocalVarDeclNr type), st.currentLocalVarDeclNr + 1⟩

/-- `visitVariableDeclaration`, after the children. -/
def checkDeclaration (type : SemType) (initializer : Option TExpr) : Except Stop Unit := do
  match initializer with
  | none => pure ()
  | some e => check (type.accepts e.targetType) (.initializerType e.targetType type)
  check (!type.isVoidOrVoidArray) (.voidVariable type)

def checkReturn (methodReturnType : SemType) : Option TExpr → Except Stop Unit
  | none => check methodReturnType.isVoid .returnsNothing
  | some e => do
    check (!methodReturnType.isVoid) .returnsValue
    check (methodReturnType.accepts e.targetType) (.returnExprType e.targetType methodReturnType)

/-- The loop of `visitBlock`: the statements up to the first one that returns, and those that are erased. -/
def cutDeadCode : List TStmt → List TStmt × List TStmt
  | [] => ([], [])
  | s :: l => if s.cfb = .return then ([s], l) else (s :: (cutDeadCode l).1, (cutDeadCode l).2)

def finishBlock (statements : List TStmt) (lonely : Bool) : TStmt :=
  .block (cutDeadCode statements).1 (cutDeadCode statements).2 lonely
    (if statements.any fun s => s.cfb = .return then .return else .mayContinue)

def branchCFB : Option TStmt → ControlFlowBehavior
  | none => .mayContinue
  | some s => s.cfb

mutual

def visitStmt (cx : Context) (st : St) : Stmt → Except Stop (TStmt × St)
  | .block statements lonely => do
    let (statements, st) ← visitStmts cx { st with symTbl := st.symTbl.enterScope } statements
    let tbl ← leave st.symTbl
    return (finishBlock statements lonely, { st with symTbl := tbl })
  | .varDecl type name initializer => do
    let idx := st.currentLocalVarDeclNr
    let st ← declare st type name
    visitType cx type
    let initializer ← visitOptExpr cx st.symTbl initializer
    checkDeclaration (semaType type) initializer
    return (.varDecl type name idx initializer, st)
  | .exprStmt expression => do
    let expression ← visitExpr cx st.symTbl expression
    return (.exprStmt expression, st)
  | .ifStmt condition thenStmt elseStmt => do
    let condition ← visitExpr cx st.symTbl condition
    let (thenStmt, st) ← visitOptStmt cx st thenStmt
    let (elseStmt, st) ← visitOptStmt cx st elseStmt
    check condition.targetType.isBool (.ifCondition condition.targetType)
    return (.ifStmt condition thenStmt elseStmt (combineCFB (branchCFB thenStmt) (branchCFB elseStmt)), st)
  | .whileStmt condition statement => do
    let condition ← visitExpr cx st.symTbl condition
    let (statement, st) ← visitOptStmt cx st statement
    check condition.targetType.isBool (.whileCondition condition.targetType)
    return (.whileStmt condition statement, st)
  | .returnStmt expression => do
    let expression ← visitOptExpr cx st.symTbl expression
    checkReturn cx.currentMethod.returnType expression
    return (.returnStmt expression, st)

def visitStmts (cx : Context) (st : St) : List Stmt → Except Stop (List TStmt × St)
  | [] => .ok ([], st)
  | s :: l => do
    let (s, st) ← visitStmt cx st s
    let (l, st) ← visitStmts cx st l
    return (s :: l, st)

def visitOptStmt (cx : Context) (st : St) : Option Stmt → Except Stop (Option TStmt × St)
  | none => .ok (none, st)
  | some s => do
    let (s, st) ← visitStmt cx st s
    return (some s, st)

end

section
-- the equations of the visits, generated once for all the proofs
attribute [local simp] visitExpr visitStmt
end

/-- `visitBlock`, for the body of a method. -/
def visitBlock (cx : Context) (st : St) (block : Block) : Except Stop (TStmt × St) :=
  visitStmt cx st (.block block.statements block.lonely)

/-! ## Methods, classes and programs -/

def mangledBasicType : BasicType → String
  | .primitive .boolean => "b"
  | .primitive .int => "i"
  | .primitive .void => "v"
  | .classType name => toString name.utf8ByteSize ++ name

def mangledType : Ty → String
  | .basic type => mangledBasicType type
  | .array elementType dimension => String.ofList (List.replicate dimension 'P') ++ mangledBasicType elementType

def createMangledName (className name : String) (parameters : List Parameter) : String :=
  "_ZN" ++ toString className.utf8ByteSize ++ className ++ toString name.utf8ByteSize ++ name ++ "E" ++
    if parameters.isEmpty then "v" else String.join (parameters.map fun p => mangledType p.type)

def visitParameter (cx : Context) (tbl : Table) (param : Parameter) : Except Stop Table := do
  visitType cx param.type
  check (!tbl.isDefinedInCurrentScope param.name) (.parameterDefined param.name)
  check (!(semaType param.type).isVoidOrVoidArray) (.voidParameter (semaType param.type))
  return tbl.insert param.name (.parameter param.idx param.type)

def visitParameters (cx : Context) (tbl : Table) : List Parameter → Except Stop Table
  | [] => .ok tbl
  | param :: params => do
    let tbl ← visitParameter cx tbl param
    visitParameters cx tbl params

def visitRegularMethod (cx : Context) (tbl : Table) (method : RegularMethod) :
    Except Stop (TRegularMethod × Table) := do
  let cx := { cx with currentMethod := .regular method.returnType }
  visitType cx method.returnType
  let tbl ← visitParameters cx tbl.enterScope method.parameters
  let (body, st) ← visitBlock cx ⟨tbl, 0⟩ method.block
  let tbl ← leave st.symTbl
  check (!(semaType method.returnType).isVoidArray) .returnsVoidArray
  check ((semaType method.returnType).isVoid || body.cfb = .return) .missingReturn
  return (⟨method.returnType, method.name, method.parameters, body, st.currentLocalVarDeclNr,
    createMangledName cx.currentClass.name method.name method.parameters⟩, tbl)

/-- `visitMainMethod`; `mainMethodCount` is passed along. -/
def visitMainMethod (cx : Context) (tbl : Table) (mainMethodCount : Nat) (mm : MainMethod) :
    Except Stop (TMainMethod × Table × Nat) := do
  let cx := { cx with currentMethod := .main }
  let (body, st) ← visitBlock cx ⟨tbl.insert mm.argName .mainArg, 0⟩ mm.block
  return (⟨mm.name, mm.argName, body, st.currentLocalVarDeclNr⟩, st.symTbl,
    if mm.name = "main" then mainMethodCount + 1 else mainMethodCount)

def visitField (cx : Context) (field : Ast.Field) : Except Stop Unit := do
  visitType cx field.type
  check (!(semaType field.type).isVoidOrVoidArray) (.voidField (semaType field.type))

def visitFields (cx : Context) : List Ast.Field → Except Stop Unit
  | [] => .ok ()
  | f :: l => do
    visitField cx f
    visitFields cx l

def visitFieldList (cx : Context) (tbl : Table) (fields : List Ast.Field) :
    Except Stop (List Ast.Field × Table) := do
  let fields ← checkForDuplicates Ast.Field.name "field" fields
  let tbl := fields.foldl (fun tbl f => tbl.insert f.name (.field f.type)) tbl
  visitFields cx fields
  return (fields, tbl)

def visitMethods (cx : Context) (tbl : Table) : List RegularMethod → Except Stop (List TRegularMethod × Table)
  | [] => .ok ([], tbl)
  | m :: l => do
    let (m, tbl) ← visitRegularMethod cx tbl m
    let (l, tbl) ← visitMethods cx tbl l
    return (m :: l, tbl)

def visitMethodList (cx : Context) (tbl : Table) (methods : List RegularMethod) :
    Except Stop (List TRegularMethod × Table) := do
  let methods ← checkForDuplicates RegularMethod.name "method" methods
  visitMethods cx tbl methods

def visitMainMethods (cx : Context) (tbl : Table) (mainMethodCount : Nat) :
    List MainMethod → Except Stop (List TMainMethod × Table × Nat)
  | [] => .ok ([], tbl, mainMethodCount)
  | m :: l => do
    let (m, tbl, mainMethodCount) ← visitMainMethod cx tbl mainMethodCount m
    let (l, tbl, mainMethodCount) ← visitMainMethods cx tbl mainMethodCount l
    return (m :: l, tbl, mainMethodCount)

/-- `visitMainMethodList`; `acceptChildren` sorts it, when it has at most one element. -/
def visitMainMethodList (cx : Context) (tbl : Table) (mainMethodCount : Nat) (mainMethods : List MainMethod) :
    Except Stop (List TMainMethod × Table × Nat) := do
  check (mainMethods.length ≤ 1) .severalMainsInClass
  visitMainMethods cx tbl mainMethodCount (sortByName MainMethod.name mainMethods)

/-- `visitClass`, after the children: no method has the name of the first main method. -/
def checkOverload (klass : Ast.Class) : Except Stop Unit :=
  match klass.mainMethods with
  | [] => .ok ()
  | mm :: _ => check (findMethodInClass klass mm.name).isNone .overloadsMain

def visitClass (classes : List Ast.Class) (tbl : Table) (mainMethodCount : Nat) (klass : Ast.Class) :
    Except Stop (TClass × Table × Nat) := do
  -- no method is visited yet, so that nothing reads the last component
  let cx : Context := ⟨classes, klass, .main⟩
  let (fields, tbl) ← visitFieldList cx tbl.enterScope klass.fields
  let (methods, tbl) ← visitMethodList cx tbl klass.methods
  let (mainMethods, tbl, mainMethodCount) ← visitMainMethodList cx tbl mainMethodCount klass.mainMethods
  let tbl ← leave tbl
  checkOverload klass
  return (⟨klass.name, fields, methods, mainMethods⟩, tbl, mainMethodCount)

def visitClasses (classes : List Ast.Class) (tbl : Table) (mainMethodCount : Nat) :
    List Ast.Class → Except Stop (List TClass × Table × Nat)
  | [] => .ok ([], tbl, mainMethodCount)
  | c :: l => do
    let (c, tbl, mainMethodCount) ← visitClass classes tbl mainMethodCount c
    let (l, tbl, mainMethodCount) ← visitClasses classes tbl mainMethodCount l
    return (c :: l, tbl, mainMethodCount)

def visitProgram (program : Program) : Except Stop TProgram := do
  let classes ← checkForDuplicates Ast.Class.name "class" program.classes
  let classes := classes.map sortMembers
  let (visited, _, mainMethodCount) ← visitClasses classes .empty 0 classes
  check (mainMethodCount ≠ 0) .noMain
  check (mainMethodCount ≤ 1) .severalMains
  return ⟨visited⟩

end Mjc.Sema

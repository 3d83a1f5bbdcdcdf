import Mjc.Firm.Sequence
import Mjc.Sema.Annotated

/-!
# Graph construction

`firm_visitor.cpp` as far as its two stacks go: the visit of an expression leaves a `Value` on `nodeStack`, and the top
of `reqBoolInfo` says whether the value of a boolean expression is wanted as control flow.

* `Value` : the values, a node being its mode and a null pointer `none`;
* `popNode`, `requiresBool`, `booleanToControlFlow` : the helpers, with their assertions;
* `visitExpr`, `visitStmt`, `visitProgram` : the visits of the tree that semantic analysis leaves;
* `graphEntities` : the entities that `visitProgram` builds a graph for.

Nodes and blocks other than the values are left out, and with them the targets of the jumps; a null pointer handed to
libfirm is a failure of its own. The lookups of classes, methods and fields find what semantic analysis has found.
-/

namespace Mjc.FirmVisitor
open Mjc.Ast Mjc.Sema Mjc.Firm

set_option autoImplicit false

/-- Why the construction does not go on. -/
inductive Failure where
  /-- `popNode` on an empty stack -/
  | emptyStack
  | assertion
  /-- `__builtin_trap` -/
  | trap
  /-- a null pointer where libfirm wants a node -/
  | nullNode
  deriving DecidableEq, Repr

inductive Value where
  | varValue (mode : Mode)
  | fieldValue (mode : Mode)
  | arrayValue (mode : Mode)
  | rvalue (node : Option Mode)
  deriving DecidableEq, Repr

def Value.load : Value → Option Mode
  | .varValue mode | .fieldValue mode | .arrayValue mode => some mode
  | .rvalue node => node

/-- `store`; an `RValue` has only that of the base class. -/
def Value.store : Value → Except Failure Unit
  | .rvalue _ => .error .trap
  | _ => .ok ()

/-- `nodeStack`, `reqBoolInfo` and the names of `firmGraphs`; the tops of the stacks are the heads. -/
structure St where
  nodeStack : List Value
  reqBoolInfo : List Bool
  firmGraphs : List String
  deriving DecidableEq, Repr

/-! ## Helpers -/

def assert (b : Bool) : Except Failure Unit := if b then .ok () else .error .assertion

def pushNode (v : Value) (st : St) : St := { st with nodeStack := v :: st.nodeStack }

def popNode (st : St) : Except Failure (Value × St) :=
  match st.nodeStack with
  | [] => .error .emptyStack
  | v :: rest => .ok (v, { st with nodeStack := rest })

def pushRequires (bool : Bool) (st : St) : St := { st with reqBoolInfo := bool :: st.reqBoolInfo }

def popRequiresBoolInfo (st : St) : Except Failure St :=
  match st.reqBoolInfo with
  | [] => .error .assertion
  | _ :: rest => .ok { st with reqBoolInfo := rest }

def requiresBool (st : St) : Except Failure Bool :=
  match st.reqBoolInfo with
  | [] => .error .assertion
  | b :: _ => .ok b

def nonNull : Option Mode → Except Failure Mode
  | none => .error .nullNode
  | some mode => .ok mode

def getIrMode (type : SemType) : Except Failure Mode :=
  match type.kind with
  | .int => .ok .Is
  | .bool => .ok .Bu
  | .array | .cls => .ok .P
  | _ => .error .assertion

def booleanToControlFlow (boolean : Option Mode) : Except Failure Unit := do
  let mode ← nonNull boolean
  assert (mode = .Bu)

/-- The value of an expression of a declared type: control flow where it is wanted, and the value elsewhere. -/
def pushValue (v : Value) (st : St) : Except Failure St := do
  if ← requiresBool st then
    booleanToControlFlow v.load
    return pushNode (.rvalue none) st
  else return pushNode v st

/-! ## Expressions -/

def visitVarRef (ref : RefDef) (st : St) : Except Failure St :=
  match ref with
  | .system => .ok st
  | .definition d => do
    let v ← match d with
      | .parameter _ type => Value.varValue <$> getIrMode (semaType type)
      | .variable _ type => Value.varValue <$> getIrMode (semaType type)
      | .field type => Value.fieldValue <$> getIrMode (semaType type)
      | .mainArg => .error .assertion
    let st := pushNode v st
    let (out, st) ← popNode st
    if (← requiresBool st) && out.load = some .Bu then
      booleanToControlFlow out.load
      return pushNode (.rvalue none) st
    else return pushNode out st

/-- `visitMethodInvocation` of a call on `System.out` or `System.in`, after the children. -/
def visitSysout (name : String) (st : St) : Except Failure St := do
  if name = "println" || name = "write" then
    let (arg, st) ← popNode st
    let _ ← nonNull arg.load
    return pushNode (.rvalue none) st
  else if name = "flush" then return pushNode (.rvalue none) st
  else if name = "read" then return pushNode (.rvalue (some .Is)) st
  else .error .assertion

/-- `visitMethodInvocation` of a method, after the receiver and the arguments. -/
def visitResult (type : SemType) (st : St) : Except Failure St :=
  if type.isVoid then .ok (pushNode (.rvalue none) st)
  else do
    let result ← getIrMode type
    pushValue (.rvalue (some result)) st

/-- `outNode` of a binary expression: a `Cond`, or a value. -/
inductive OutNode where
  | cond
  | value (node : Option Mode)
  deriving DecidableEq, Repr

def outNode (op : BinaryOp) (left right : Value) : Except Failure OutNode :=
  match op with
  | .assign => do
    left.store
    return .value right.load
  | .equals | .notEquals | .less | .lessEquals | .greater | .greaterEquals => do
    let _ ← nonNull left.load
    let _ ← nonNull right.load
    return .cond
  | .plus | .minus | .mul => do
    let mode ← nonNull left.load
    let _ ← nonNull right.load
    return .value (some mode)
  | .div | .mod => do
    let _ ← nonNull left.load
    let _ ← nonNull right.load
    return .value (some .Is)
  | .or | .and => .error .trap

def pushOutNode (out : OutNode) (st : St) : Except Failure St := do
  match out with
  | .cond =>
    if ← requiresBool st then return pushNode (.rvalue none) st
    else return pushNode (.rvalue (some .Bu)) st
  | .value node =>
    assert node.isSome
    pushValue (.rvalue node) st

/-- The result of `&&`, `||` and `!`, whose operands have become control flow. -/
def pushCondition (st : St) : Except Failure St := do
  if ← requiresBool st then return pushNode (.rvalue none) st
  else return pushNode (.rvalue (some .Bu)) st

/-- `auto node = popNode(); assert(node->load() == nullptr); popRequiresBoolInfo();` -/
def popCondition (st : St) : Except Failure St := do
  let (node, st) ← popNode st
  assert node.load.isNone
  popRequiresBoolInfo st

mutual

def visitExpr : TExpr → St → Except Failure St
  | .intLiteral _, st => .ok (pushNode (.rvalue (some .Is)) st)
  | .boolLiteral _, st => pushCondition st
  | .nullLiteral, st => .ok (pushNode (.rvalue (some .P)) st)
  | .thisLiteral _, st => .ok (pushNode (.rvalue (some .P)) st)
  | .varRef _ ref _, st => visitVarRef ref st
  | .methodInvocation left name arguments .sysout _, st => do
    let st ← visitExpr left st
    let st ← visitArguments arguments st
    visitSysout name st
  | .methodInvocation left _ arguments (.method _) type, st => do
    assert left.targetType.isClass
    let st ← visitExpr left (pushRequires false st)
    let (node, st) ← popNode st
    let _ ← nonNull node.load
    let st ← popArguments arguments st
    let st ← popRequiresBoolInfo st
    visitResult type st
  | .fieldAccess _ _ .systemOut _, st => .ok st
  | .fieldAccess _ _ .systemIn _, st => .ok st
  | .fieldAccess left _ (.field _) type, st => do
    let st ← visitExpr left (pushRequires false st)
    let st ← popRequiresBoolInfo st
    let (node, st) ← popNode st
    let mode ← nonNull node.load
    assert (mode = .P)
    let mode ← getIrMode type
    pushValue (.fieldValue mode) st
  | .arrayAccess array index _, st => do
    let st ← visitExpr array (pushRequires false st)
    let (node, st) ← popNode st
    let mode ← nonNull node.load
    assert (mode = .P)
    let st ← visitExpr index st
    let (node, st) ← popNode st
    let _ ← nonNull node.load
    let st ← popRequiresBoolInfo st
    let mode ← getIrMode array.targetType.element
    pushValue (.arrayValue mode) st
  | .newObject _ _, st => .ok (pushNode (.rvalue (some .P)) st)
  | .newArray _ _ size _, st => do
    let st ← visitExpr size (pushRequires false st)
    let st ← popRequiresBoolInfo st
    let (node, st) ← popNode st
    let _ ← nonNull node.load
    return pushNode (.rvalue (some .P)) st
  | .binary op left right _, st =>
    match op with
    | .or | .and => do
      let st ← visitExpr left (pushRequires true st)
      let st ← popCondition st
      let st ← visitExpr right (pushRequires true st)
      let st ← popCondition st
      pushCondition st
    | _ => do
      let st ← visitExpr left (pushRequires false st)
      let (leftNode, st) ← popNode st
      let st ← visitExpr right st
      let (rightNode, st) ← popNode st
      let st ← popRequiresBoolInfo st
      let out ← outNode op leftNode rightNode
      pushOutNode out st
  | .unary op expression _, st =>
    match op with
    | .not => do
      let st ← visitExpr expression (pushRequires true st)
      let st ← popCondition st
      pushCondition st
    | .neg => do
      let st ← visitExpr expression st
      let (node, st) ← popNode st
      let mode ← nonNull node.load
      return pushNode (.rvalue (some mode)) st

/-- The arguments of a call on `System.out` or `System.in`, which stay on the stack. -/
def visitArguments : List TExpr → St → Except Failure St
  | [], st => .ok st
  | e :: l, st => do
    let st ← visitExpr e st
    visitArguments l st

/-- The arguments of a method, each of which is popped at once. -/
def popArguments : List TExpr → St → Except Failure St
  | [], st => .ok st
  | e :: l, st => do
    let st ← visitExpr e st
    let (node, st) ← popNode st
    let _ ← nonNull node.load
    popArguments l st

end

/-! ## Statements -/

def visitReturnStatement (expression : Option TExpr) (st : St) : Except Failure St :=
  match expression with
  | none => .ok st
  | some e => do
    let st ← visitExpr e (pushRequires false st)
    let st ← popRequiresBoolInfo st
    let (node, st) ← popNode st
    let _ ← nonNull node.load
    return st

def visitVariableDeclaration (initializer : Option TExpr) (st : St) : Except Failure St :=
  match initializer with
  | none => .ok st
  | some e => do
    let st ← visitExpr e st
    let (node, st) ← popNode st
    let _ ← nonNull node.load
    return st

def visitCondition (condition : TExpr) (st : St) : Except Failure St := do
  let st ← visitExpr condition (pushRequires true st)
  popCondition st

mutual

def visitStmt : TStmt → St → Except Failure St
  | .block statements _ _ _, st => visitStmts statements st
  | .varDecl _ _ _ initializer, st => visitVariableDeclaration initializer st
  | .exprStmt expression, st => do
    let st ← visitExpr expression st
    let (_, st) ← popNode st
    return st
  | .ifStmt condition thenStmt elseStmt _, st => do
    let st ← visitCondition condition st
    let st ← visitOptStmt thenStmt st
    visitOptStmt elseStmt st
  | .whileStmt condition statement, st => do
    let st ← visitCondition condition st
    visitOptStmt statement st
  | .returnStmt expression, st => visitReturnStatement expression st

def visitStmts : List TStmt → St → Except Failure St
  | [], st => .ok st
  | s :: l, st => do
    let st ← visitStmt s st
    visitStmts l st

def visitOptStmt : Option TStmt → St → Except Failure St
  | none, st => .ok st
  | some s, st => visitStmt s st

end

/-! ## Methods and programs -/

/-- The body of a method, and `firmGraphs.push_back` of its graph. -/
def visitMethod (entity : String) (body : TStmt) (st : St) : Except Failure St := do
  let st ← visitStmt body st
  return { st with firmGraphs := st.firmGraphs ++ [entity] }

/-- `visitRegularMethod`; the entity has the mangled name. -/
def visitRegularMethod (m : TRegularMethod) (st : St) : Except Failure St := visitMethod m.mangledName m.body st

/-- `visitMainMethod`; the entity is called `main`, whatever the method is called. -/
def visitMainMethod (m : TMainMethod) (st : St) : Except Failure St := visitMethod "main" m.body st

def visitClassMembers (c : TClass) (st : St) : Except Failure St := do
  let st ← c.methods.foldlM (fun st m => visitRegularMethod m st) st
  c.mainMethods.foldlM (fun st m => visitMainMethod m st) st

def initial : St := ⟨[], [false], []⟩

def visitProgram (t : TProgram) : Except Failure St := do
  let st ← t.classes.foldlM (fun st c => visitClassMembers c st) initial
  assert st.nodeStack.isEmpty
  return st

def classEntities (c : TClass) : List String :=
  c.methods.map TRegularMethod.mangledName ++ c.mainMethods.map fun _ => "main"

/-- The entities of a program that `visitProgram` builds a graph for. -/
def graphEntities (t : TProgram) : List String := t.classes.flatMap classEntities

end Mjc.FirmVisitor

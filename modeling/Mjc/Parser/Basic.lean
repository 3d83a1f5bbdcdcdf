import Mjc.Ast

/-!
# The parser

The functions of `parser.cpp`, over the list of tokens still to be read: its head is `curTok`, and
past its end the current token is `Token.eof`.

* `P` : a parser step; it returns a value and the tokens left, or stops with a `ParseError`, with the
  `std::runtime_error` of `parsePrimary`, or because the step bound is used up;
* the `while` loops and the mutual recursion of the source count down a step bound;
  `parseProgram` starts with `stepBound`, which is never used up (`Parser.Soundness`).
-/

namespace Mjc.Parser
open Mjc.Ast

abbrev TT := Token.Type

/-- The message of a `ParseError`. -/
inductive Message where
  /-- `expect`: "Unexpected 'x', expected 'y'". -/
  | expected (type : TT)
  /-- `errorExpectedAnyOf`: "Unexpected 'x', expected one of 'y', 'z' or 'w'". -/
  | expectedAnyOf (types : List TT)
  /-- `parseMainMethod`: "Unexpected 'x', expected 'String'". -/
  | expectedString
  /-- `parsePrimary`: "Integer literal 'x' out of range". -/
  | outOfRange
  deriving DecidableEq, Repr

/-- `ParseError`: the token the error is reported at, and the message. -/
structure ParseError where
  tok : Token
  message : Message
  deriving DecidableEq, Repr

/-- Why a parser function does not return. -/
inductive Stop where
  | parseError (e : ParseError)
  | runtimeError (what : String)
  | outOfSteps
  deriving DecidableEq, Repr

/-- A parser function: it reads tokens and returns a value. -/
structure P (α : Type) where
  run : List Token → Except Stop (α × List Token)

namespace P

/-- Return a value, read nothing. -/
protected def pure {α : Type} (a : α) : P α := ⟨fun ts => .ok (a, ts)⟩

/-- Run one function after the other. -/
protected def bind {α β : Type} (x : P α) (f : α → P β) : P β := ⟨fun ts =>
  match x.run ts with
  | .ok (a, ts') => (f a).run ts'
  | .error s => .error s⟩

instance : Monad P where
  pure := P.pure
  bind := P.bind

/-- Stop for a reason. -/
def stop {α : Type} (s : Stop) : P α := ⟨fun _ => .error s⟩

end P

/-! ## Reading tokens -/

/-- The current token of a list of tokens. -/
def headTok (ts : List Token) : Token := ts.headD Token.eof

def curTok : P Token := ⟨fun ts => .ok (headTok ts, ts)⟩

def readNextToken : P Unit := ⟨fun ts => .ok ((), ts.tail)⟩

def lookAhead (numTokens : Nat) : P Token := ⟨fun ts => .ok (headTok (ts.drop numTokens), ts)⟩

/-- The assignment `curTok.str = str`. -/
def setCurTokStr (str : String) : P Unit :=
  ⟨fun ts => .ok ((), { headTok ts with str := str } :: ts.tail)⟩

def error {α : Type} (message : Message) : P α :=
  ⟨fun ts => .error (.parseError ⟨headTok ts, message⟩)⟩

def errorExpectedAnyOf {α : Type} (types : List TT) : P α := error (.expectedAnyOf types)

def expect (ttype : TT) : P Unit := do
  let tok ← curTok
  if tok.type ≠ ttype then error (.expected ttype) else pure ()

def expectAndNext (ttype : TT) : P Unit := do
  expect ttype
  readNextToken

def expectGetIdentAndNext (ttype : TT) : P String := do
  expect ttype
  let tok ← curTok
  readNextToken
  return tok.str

/-! ## Operators and literals -/

def getOpPrec : TT → Int
  | .Eq => 1
  | .VBarVBar => 2
  | .AmpAmp => 3
  | .EqEq | .BangEq => 4
  | .Lt | .LtEq | .Gt | .GtEq => 5
  | .Plus | .Minus => 6
  | .Star | .Slash | .Percent => 7
  | _ => -1

/-- `BinaryExpression::getOpForToken`; `Op::None` is `none`. -/
def getOpForToken : TT → Option BinaryOp
  | .Eq => some .assign
  | .VBarVBar => some .or
  | .AmpAmp => some .and
  | .EqEq => some .equals
  | .BangEq => some .notEquals
  | .Lt => some .less
  | .LtEq => some .lessEquals
  | .Gt => some .greater
  | .GtEq => some .greaterEquals
  | .Plus => some .plus
  | .Minus => some .minus
  | .Star => some .mul
  | .Slash => some .div
  | .Percent => some .mod
  | _ => none

/-- `PrimitiveType::getTypeForToken`; `PrimType::None` is `none`. -/
def getTypeForToken : TT → Option PrimType
  | .Boolean => some .boolean
  | .Int => some .int
  | .Void => some .void
  | _ => none

/-- The value of a list of decimal digits, most significant first. -/
def digitsValue (cs : List Char) : Nat := cs.foldl (fun n c => 10 * n + (c.toNat - '0'.toNat)) 0

/-- `std::stoi` on a text without leading blanks: an optional sign, then the longest run of digits;
`none` for `std::invalid_argument`. The range is not checked here. -/
def stoiDigits (s : String) : Option Int :=
  match s.toList with
  | '-' :: cs => signed (-1) cs
  | '+' :: cs => signed 1 cs
  | cs => signed 1 cs
where
  signed (sign : Int) (cs : List Char) : Option Int :=
    match cs.takeWhile Char.isDigit with
    | [] => none
    | ds => some (sign * digitsValue ds)

/-- The range of `int`. -/
def InIntRange (v : Int) : Prop := -2147483648 ≤ v ∧ v ≤ 2147483647

instance (v : Int) : Decidable (InIntRange v) :=
  inferInstanceAs (Decidable (-2147483648 ≤ v ∧ v ≤ 2147483647))

/-! ## Types -/

def parseBasicType : P BasicType := do
  let tok ← curTok
  match tok.type with
  | .Boolean | .Int | .Void =>
    readNextToken
    match getTypeForToken tok.type with
    | some type => pure (.primitive type)
    | none => P.stop (.runtimeError "PrimType::None")
  | .Identifier =>
    readNextToken
    pure (.classType tok.str)
  | _ => errorExpectedAnyOf [.Boolean, .Identifier, .Int, .Void]

/-- The loop of `parseType` over the bracket pairs. -/
def typeLoop : Nat → BasicType → Nat → P Ty
  | 0, _, _ => P.stop .outOfSteps
  | n + 1, basicType, numDimensions => do
    let tok ← curTok
    match tok.type with
    | .LBracket =>
      readNextToken
      expectAndNext .RBracket
      typeLoop n basicType (numDimensions + 1)
    | _ => pure (if numDimensions = 0 then .basic basicType else .array basicType numDimensions)

def parseType (n : Nat) : P Ty := do
  let basicType ← parseBasicType
  typeLoop n basicType 0

/-! ## Expressions -/

mutual

def precedenceParse : Nat → Int → P Expr
  | 0, _ => P.stop .outOfSteps
  | n + 1, minPrec => do
    let result ← parseUnary n
    precedenceLoop n minPrec result

/-- The `while` loop of `precedenceParse`. -/
def precedenceLoop : Nat → Int → Expr → P Expr
  | 0, _, _ => P.stop .outOfSteps
  | n + 1, minPrec, result => do
    let opTok ← curTok
    let opPrec := getOpPrec opTok.type
    if opPrec ≥ minPrec then
      readNextToken
      -- only right assoc case
      let rhs ← precedenceParse n (if opTok.type ≠ .Eq then opPrec + 1 else opPrec)
      match getOpForToken opTok.type with
      | some operation => precedenceLoop n minPrec (.binary operation result rhs)
      | none => P.stop (.runtimeError "Op::None")
    else
      pure result

/-- `parseUnary`: `unaries` holds the prefix operators read so far, the last one first. -/
def parseUnary : Nat → P Expr
  | 0 => P.stop .outOfSteps
  | n + 1 => unaryLoop n []

/-- The loop of `parseUnary`. -/
def unaryLoop : Nat → List UnaryOp → P Expr
  | 0, _ => P.stop .outOfSteps
  | n + 1, unaries => do
    let tok ← curTok
    match tok.type with
    | .Bang =>
      readNextToken
      unaryLoop n (.not :: unaries)
    | .Minus =>
      readNextToken
      unaryLoop n (.neg :: unaries)
    | _ =>
      if tok.type = .IntLiteral ∧ unaries.head? = some .neg then
        setCurTokStr ("-" ++ tok.str)
        let expression ← parsePostfixExpr n
        pure (unaries.tail.foldl (fun e op => .unary op e) expression)
      else
        let expression ← parsePostfixExpr n
        pure (unaries.foldl (fun e op => .unary op e) expression)

def parsePostfixExpr : Nat → P Expr
  | 0 => P.stop .outOfSteps
  | n + 1 => do
    let lhs ← parsePrimary n
    postfixLoop n lhs

/-- The loop of `parsePostfixExpr`. -/
def postfixLoop : Nat → Expr → P Expr
  | 0, _ => P.stop .outOfSteps
  | n + 1, lhs => do
    let tok ← curTok
    match tok.type with
    | .Dot =>
      let lhs ← parseMemberAccess n lhs
      postfixLoop n lhs
    | .LBracket =>
      let lhs ← parseArrayAccess n lhs
      postfixLoop n lhs
    | _ => pure lhs

def parsePrimary : Nat → P Expr
  | 0 => P.stop .outOfSteps
  | n + 1 => do
    let tok ← curTok
    match tok.type with
    | .LParen =>
      readNextToken
      let expr ← precedenceParse n 0
      expectAndNext .RParen
      pure expr
    | .False =>
      readNextToken
      pure (.boolLiteral false)
    | .True =>
      readNextToken
      pure (.boolLiteral true)
    | .Null =>
      readNextToken
      pure .nullLiteral
    | .This =>
      readNextToken
      pure .thisLiteral
    | .IntLiteral =>
      match stoiDigits tok.str with
      | none => P.stop (.runtimeError "Invalid integer literal")
      | some value =>
        if InIntRange value then
          readNextToken
          pure (.intLiteral value)
        else error .outOfRange
    | .Identifier =>
      readNextToken
      let next ← curTok
      if next.type = .LParen then
        readNextToken
        let args ← parseArguments n
        expectAndNext .RParen
        pure (.methodInvocation .thisLiteral tok.str args)
      else
        pure (.varRef tok.str)
    | .New => parseNewExpr n
    | _ => errorExpectedAnyOf [.LParen, .False, .True, .Null, .This, .IntLiteral, .Identifier, .New]

def parseMemberAccess : Nat → Expr → P Expr
  | 0, _ => P.stop .outOfSteps
  | n + 1, lhs => do
    expectAndNext .Dot
    let ident ← expectGetIdentAndNext .Identifier
    let tok ← curTok
    if tok.type = .LParen then
      readNextToken
      let args ← parseArguments n
      expectAndNext .RParen
      pure (.methodInvocation lhs ident args)
    else
      pure (.fieldAccess lhs ident)

def parseArrayAccess : Nat → Expr → P Expr
  | 0, _ => P.stop .outOfSteps
  | n + 1, lhs => do
    expectAndNext .LBracket
    let index ← precedenceParse n 0
    expectAndNext .RBracket
    pure (.arrayAccess lhs index)

def parseArguments : Nat → P (List Expr)
  | 0 => P.stop .outOfSteps
  | n + 1 => do
    let tok ← curTok
    match tok.type with
    | .Bang | .False | .Identifier | .IntLiteral | .New | .Null | .True | .LParen | .Minus | .This =>
      let argument ← precedenceParse n 0
      argumentsLoop n [argument]
    | .RParen => pure []
    | _ => errorExpectedAnyOf [.Bang, .False, .Identifier, .IntLiteral, .New, .Null, .True, .LParen,
        .Minus, .This, .RParen]

/-- The loop of `parseArguments`. -/
def argumentsLoop : Nat → List Expr → P (List Expr)
  | 0, _ => P.stop .outOfSteps
  | n + 1, arguments => do
    let tok ← curTok
    if tok.type = .Comma then
      readNextToken
      let argument ← precedenceParse n 0
      argumentsLoop n (arguments ++ [argument])
    else
      pure arguments

/-- `parseNewExpr`; the next token is checked instead of the current one. -/
def parseNewExpr : Nat → P Expr
  | 0 => P.stop .outOfSteps
  | n + 1 => do
    expectAndNext .New
    let next ← lookAhead 1
    match next.type with
    | .LParen =>
      let ident ← expectGetIdentAndNext .Identifier
      readNextToken
      expectAndNext .RParen
      pure (.newObject ident)
    | .LBracket =>
      let elementType ← parseBasicType
      readNextToken
      let size ← precedenceParse n 0
      expectAndNext .RBracket
      let dimension ← dimensionLoop n 1
      pure (.newArray elementType dimension size)
    | _ => errorExpectedAnyOf [.LParen, .LBracket]

/-- The loop of `parseNewExpr` over the empty bracket pairs. -/
def dimensionLoop : Nat → Nat → P Nat
  | 0, _ => P.stop .outOfSteps
  | n + 1, dimension => do
    let tok ← curTok
    let next ← lookAhead 1
    if tok.type = .LBracket ∧ next.type = .RBracket then
      readNextToken
      readNextToken
      dimensionLoop n (dimension + 1)
    else
      pure dimension

end

def parseExpr (n : Nat) : P Expr := precedenceParse n 0

/-! ## Statements -/

/-- The statement is a block with the flag set. -/
def isLonelyBlock : Stmt → Bool
  | .block _ lonely => lonely
  | _ => false

/-- The flag `containsNothingExceptOneSingleLonelyEmtpyExpression` of a block of these statements. -/
def isLonely (statements : List Stmt) : Bool := statements.all isLonelyBlock

def parseLocalVarDeclStmt (n : Nat) : P Stmt := do
  let type ← parseType n
  let ident ← expectGetIdentAndNext .Identifier
  let tok ← curTok
  match tok.type with
  | .Eq =>
    readNextToken
    let initializer ← parseExpr n
    expectAndNext .Semicolon
    pure (.varDecl type ident (some initializer))
  | .Semicolon =>
    readNextToken
    pure (.varDecl type ident none)
  | _ => errorExpectedAnyOf [.Eq, .Semicolon]

def parseExprStmt (n : Nat) : P Stmt := do
  let expr ← parseExpr n
  expectAndNext .Semicolon
  pure (.exprStmt expr)

def parseReturnStmt (n : Nat) : P Stmt := do
  expectAndNext .Return
  let tok ← curTok
  match tok.type with
  | .Semicolon =>
    readNextToken
    pure (.returnStmt none)
  | _ =>
    let expr ← parseExpr n
    expectAndNext .Semicolon
    pure (.returnStmt (some expr))

mutual

/-- `parseBlock`: the statements and the flag. -/
def parseBlock : Nat → P Block
  | 0 => P.stop .outOfSteps
  | n + 1 => do
    expectAndNext .LBrace
    blockLoop n []

/-- The loop of `parseBlock`. -/
def blockLoop : Nat → List Stmt → P Block
  | 0, _ => P.stop .outOfSteps
  | n + 1, statements => do
    let tok ← curTok
    match tok.type with
    | .RBrace =>
      readNextToken
      pure ⟨statements, isLonely statements⟩
    | .Bang | .Boolean | .False | .Identifier | .If | .Int | .IntLiteral | .New | .Null | .True
    | .LBrace | .LParen | .Minus | .Return | .Semicolon | .This | .Void | .While =>
      let stmt ← parseBlockStatement n
      blockLoop n (statements ++ stmt.toList)
    | _ => errorExpectedAnyOf [.RBrace, .Bang, .Boolean, .False, .Identifier, .If, .Int, .IntLiteral,
        .New, .Null, .True, .LBrace, .LParen, .Minus, .Return, .Semicolon, .This, .Void, .While]

def parseBlockStatement : Nat → P (Option Stmt)
  | 0 => P.stop .outOfSteps
  | n + 1 => do
    let tok ← curTok
    match tok.type with
    | .Boolean | .Int | .Void => some <$> parseLocalVarDeclStmt n
    | .Bang | .False | .If | .IntLiteral | .New | .Null | .True | .LBrace | .LParen | .Minus
    | .Return | .Semicolon | .This | .While => parseStmt n
    | .Identifier =>
      let nextTok ← lookAhead 1
      let afterNextTok ← lookAhead 2
      if nextTok.type = .Identifier ∨ (nextTok.type = .LBracket ∧ afterNextTok.type = .RBracket) then
        some <$> parseLocalVarDeclStmt n
      else parseStmt n
    | _ => pure none

/-- `parseStmt`: `none` for an empty statement. -/
def parseStmt : Nat → P (Option Stmt)
  | 0 => P.stop .outOfSteps
  | n + 1 => do
    let tok ← curTok
    match tok.type with
    | .LBrace =>
      let block ← parseBlock n
      pure (some (.block block.statements block.lonely))
    | .Semicolon =>
      readNextToken
      pure none
    | .If => some <$> parseIfStmt n
    | .Return => some <$> parseReturnStmt n
    | .While => some <$> parseWhileStmt n
    | .Bang | .False | .IntLiteral | .New | .Null | .True | .LParen | .Minus | .This | .Identifier =>
      some <$> parseExprStmt n
    | _ => errorExpectedAnyOf [.LBrace, .Semicolon, .If, .Return, .While, .Bang, .False, .IntLiteral,
        .New, .Null, .True, .LParen, .Minus, .This, .Identifier]

def parseIfStmt : Nat → P Stmt
  | 0 => P.stop .outOfSteps
  | n + 1 => do
    expectAndNext .If
    expectAndNext .LParen
    let condition ← parseExpr n
    expectAndNext .RParen
    let thenStmt ← parseStmt n
    let tok ← curTok
    if tok.type = .Else then
      readNextToken
      let elseStmt ← parseStmt n
      pure (.ifStmt condition thenStmt elseStmt)
    else
      pure (.ifStmt condition thenStmt none)

def parseWhileStmt : Nat → P Stmt
  | 0 => P.stop .outOfSteps
  | n + 1 => do
    expectAndNext .While
    expectAndNext .LParen
    let condition ← parseExpr n
    expectAndNext .RParen
    let stmt ← parseStmt n
    pure (.whileStmt condition stmt)

end

/-! ## Classes -/

def parseParameter (n : Nat) (idx : Nat) : P Parameter := do
  let type ← parseType n
  let ident ← expectGetIdentAndNext .Identifier
  pure ⟨type, ident, idx⟩

/-- The loop of `parseParameterList`. -/
def parameterLoop : Nat → Nat → List Parameter → P (List Parameter)
  | 0, _, _ => P.stop .outOfSteps
  | n + 1, paramIndex, params => do
    let tok ← curTok
    match tok.type with
    | .Comma =>
      readNextToken
      let param ← parseParameter n (paramIndex + 1)
      parameterLoop n (paramIndex + 1) (params ++ [param])
    | _ => pure params

def parseParameterList (n : Nat) : P (List Parameter) := do
  let tok ← curTok
  match tok.type with
  | .Boolean | .Identifier | .Int | .Void =>
    let param ← parseParameter n 1
    parameterLoop n 1 [param]
  | _ => pure []

/-- The optional `throws IDENT` of a method header. -/
def skipThrows : P Unit := do
  let tok ← curTok
  if tok.str = "throws" then
    readNextToken
    expectAndNext .Identifier
  else pure ()

def parseMainMethod (n : Nat) : P MainMethod := do
  expectAndNext .Public
  expectAndNext .Static
  expectAndNext .Void
  let methodName ← expectGetIdentAndNext .Identifier
  expectAndNext .LParen
  expect .Identifier
  let tok ← curTok
  if tok.str ≠ "String" then error .expectedString else
  readNextToken
  expectAndNext .LBracket
  expectAndNext .RBracket
  let paramName ← expectGetIdentAndNext .Identifier
  expectAndNext .RParen
  skipThrows
  let block ← parseBlock n
  pure ⟨methodName, paramName, block⟩

/-- A class member. -/
inductive Member where
  | field (f : Ast.Field)
  | method (m : RegularMethod)
  | mainMethod (m : MainMethod)

def parseFieldOrMethod (n : Nat) : P Member := do
  expectAndNext .Public
  let type ← parseType n
  let name ← expectGetIdentAndNext .Identifier
  let tok ← curTok
  match tok.type with
  | .Semicolon =>
    readNextToken
    pure (.field ⟨type, name⟩)
  | .LParen =>
    readNextToken
    let params ← parseParameterList n
    expectAndNext .RParen
    skipThrows
    let block ← parseBlock n
    pure (.method ⟨type, name, params, block⟩)
  | _ => errorExpectedAnyOf [.Semicolon, .LParen]

/-- `parseClassMember`: the member that is appended to one of the three lists of the class. -/
def parseClassMember (n : Nat) : P Member := do
  let next ← lookAhead 1
  match next.type with
  | .Static => Member.mainMethod <$> parseMainMethod n
  | .Boolean | .Identifier | .Int | .Void => parseFieldOrMethod n
  | _ => errorExpectedAnyOf [.Static, .Boolean, .Identifier, .Int, .Void]

/-- Append a member to its list. -/
def addMember (c : Ast.Class) : Member → Ast.Class
  | .field f => { c with fields := c.fields ++ [f] }
  | .method m => { c with methods := c.methods ++ [m] }
  | .mainMethod m => { c with mainMethods := c.mainMethods ++ [m] }

/-- The loop of `parseClassDeclaration`. -/
def memberLoop : Nat → Ast.Class → P Ast.Class
  | 0, _ => P.stop .outOfSteps
  | n + 1, c => do
    let tok ← curTok
    match tok.type with
    | .RBrace =>
      readNextToken
      pure c
    | .Public =>
      let member ← parseClassMember n
      memberLoop n (addMember c member)
    | _ => errorExpectedAnyOf [.RBrace, .Public]

def parseClassDeclaration (n : Nat) : P Ast.Class := do
  expectAndNext .Class
  let name ← expectGetIdentAndNext .Identifier
  expectAndNext .LBrace
  memberLoop n ⟨name, [], [], []⟩

/-- The loop of `parseProgram`. -/
def programLoop : Nat → List Ast.Class → P Program
  | 0, _ => P.stop .outOfSteps
  | n + 1, classes => do
    let tok ← curTok
    match tok.type with
    | .Class =>
      let c ← parseClassDeclaration n
      programLoop n (classes ++ [c])
    | .Eof => pure ⟨classes⟩
    | _ => errorExpectedAnyOf [.Class, .Eof]

/-- A number of steps that no run on these tokens uses up. -/
def stepBound (ts : List Token) : Nat := 16 * ts.length + 16

def parseProgram (ts : List Token) : Except Stop Program :=
  match (programLoop (stepBound ts) []).run ts with
  | .ok (program, _) => .ok program
  | .error s => .error s

end Mjc.Parser

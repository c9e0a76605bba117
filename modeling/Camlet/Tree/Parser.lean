import Camlet.Number.Decimal
import Camlet.Token.Lexer
import Camlet.Tree.Basic
import Camlet.Tree.Fault

/-
  Reading tokens as a program. The grammar, from the loosest to the tightest; every binary level
  associates to the left:

    program      (declaration ";;"*)*
    declaration  "let" binding ["in" expression] | expression
    binding      ["rec"] name name* "=" expression
    expression   "let" binding "in" expression
               | "if" expression "then" expression "else" expression
               | "fun" name+ "->" expression
               | "match" expression "with" ("|" pattern "->" expression)+
               | level
    level        six levels of binary operators, see operatorLevels
    unary        ("-" | "-.") unary | application
    application  primary primary*
    primary      literal | name | backtick name | "(" expression ")"
    pattern      "_" | name

  A rule of the grammar is a parser over the tokens left, the end of input not among them; the rules
  below it are given to it as an argument, and `Nonterminal.parse` ties the knot, with a budget for the
  depth of nesting. A declaration that fails is left out: its fault is kept, and reading goes on behind
  the next `;;` or at the next keyword that starts an expression.
-/

namespace Camlet

/-- Why a rule stops: a token that does not fit, the end of input, a fault at a place, or nesting
beyond the budget. -/
inductive Stop where
  | unfit (token : Token) (expected : Expectation)
  | atEnd (expected : Expectation)
  | fault (pos : Pos) (fault : SyntaxFault)
  | tooDeep
  deriving Repr

/-- A rule of the grammar: it consumes tokens and gives a value, or stops at some token. -/
abbrev Parser (α : Type) := EStateM Stop (List Token) α

namespace Parser

/-- Stops at the next token, which is not what is expected. -/
def fail {α : Type} (expected : Expectation) : Parser α := do
  match ← get with
  | [] => throw (.atEnd expected)
  | t :: _ => throw (.unfit t expected)

/-- Consumes the next token if it has the given class and spelling; says whether it did. -/
def accept (kind : TokenKind) (lexeme : String) : Parser Bool := do
  match ← get with
  | [] => return false
  | t :: ts =>
    if t.isA kind lexeme then
      set ts
      return true
    else return false

/-- Consumes the next token, which must have the given class and spelling. -/
def expect (kind : TokenKind) (lexeme : String) (expected : Expectation) : Parser Unit := do
  unless ← accept kind lexeme do fail expected

/-- The names of parameters up to the first token that is not a name. No name may come back, but `_`
may; `seen` are the names so far. -/
def paramsFrom (seen : List String) : List Token → EStateM.Result Stop (List Token) (List String)
  | [] => .ok [] []
  | t :: ts =>
    if t.kind = .identifier then
      if seen.contains t.lexeme && t.lexeme != "_" then
        .error (.fault t.pos (.repeatedParam t.lexeme)) ts
      else
        match paramsFrom (t.lexeme :: seen) ts with
        | .ok ps rest => .ok (t.lexeme :: ps) rest
        | .error stop rest => .error stop rest
    else .ok [] (t :: ts)

/-- The names of parameters. -/
def params : Parser (List String) := paramsFrom []

end Parser

/-- The binary operators by level, the loosest first. -/
def operatorLevels : List (List String) :=
  [["||", "or"], ["&&"], ["==", "<>", "="], ["<", ">", "<=", ">="], ["+", "-", "+.", "-."],
    ["*", "/", "*.", "/.", "mod"]]

/-- The operator that a spelling stands for in a tree: `or` is another spelling of `||`. -/
def operatorName (s : String) : String := if s = "or" then "||" else s

/-- The rules of the grammar that give expressions. What a binding binds is an expression with the rule of the
binding open around it. A level is given by its operators and those of the tighter levels. -/
inductive Nonterminal where
  | expression
  | bound
  | level (operators : List (List String))
  | unary
  | application
  | primary

/-- What a `let` binds, up to where `in` may follow. -/
structure Binding where
  recursive : Bool
  name : String
  params : List String
  value : Node

namespace Grammar

open Camlet.Parser

/-- A binding, behind its `let`. A recursive binding without parameters must bind a function. -/
def binding (sub : Nonterminal → Parser Node) : Parser Binding := do
  let recursive ← accept .keyword "rec"
  match ← get with
  | [] => fail (.binder recursive)
  | name :: ts =>
    if name.kind = .identifier then
      set ts
      let ps ← params
      expect .operator "=" (.equals name.lexeme ps)
      let value ← sub .bound
      if recursive && ps.isEmpty && !value.isLambda then
        throw (.fault name.pos (.notFunction name.lexeme))
      return ⟨recursive, name.lexeme, ps, value⟩
    else fail (.binder recursive)

/-- A local binding, behind its `let` at `pos`. -/
def letIn (sub : Nonterminal → Parser Node) (pos : Pos) : Parser Node := do
  let b ← binding sub
  expect .keyword "in" .keywordIn
  let body ← sub .expression
  return .letIn pos b.name (.curry pos b.params b.value) body b.recursive

/-- A conditional, behind its `if` at `pos`. -/
def cond (sub : Nonterminal → Parser Node) (pos : Pos) : Parser Node := do
  let condition ← sub .expression
  expect .keyword "then" .keywordThen
  let thenBranch ← sub .expression
  expect .keyword "else" .keywordElse
  let elseBranch ← sub .expression
  return .cond pos condition thenBranch elseBranch

/-- A function, behind its `fun` at `pos`. -/
def lambda (sub : Nonterminal → Parser Node) (pos : Pos) : Parser Node := do
  let ps ← params
  if ps.isEmpty then fail .parameter
  expect .operator "->" .arrowAfterParams
  return .curry pos ps (← sub .expression)

/-- A pattern. -/
def pattern : Parser Node := do
  match ← get with
  | [] => fail .pattern
  | t :: ts =>
    if t.kind = .identifier then
      set ts
      return if t.lexeme = "_" then .wildcard t.pos else .bind t.pos t.lexeme
    else fail .pattern

/-- One case of a case distinction. -/
def case (sub : Nonterminal → Parser Node) : Parser (Node × Node) := do
  expect .delimiter "|" .caseBar
  let p ← pattern
  expect .operator "->" .arrowAfterPattern
  return (p, ← sub .expression)

/-- Further cases as long as a bar follows, at most as many as there are tokens in `bound`, which are those
that are left at first. -/
def cases (sub : Nonterminal → Parser Node) : (bound : List Token) → Parser (List (Node × Node))
  | [] => return []
  | _ :: bound => do
    match ← get with
    | t :: _ =>
      if t.isA .delimiter "|" then
        let c ← case sub
        return c :: (← cases sub bound)
      else return []
    | [] => return []

/-- A case distinction, behind its `match` at `pos`. -/
def matching (sub : Nonterminal → Parser Node) (pos : Pos) : Parser Node := do
  let scrutinee ← sub .expression
  expect .keyword "with" .keywordWith
  let first ← case sub
  let rest ← cases sub (← get)
  return .matching pos scrutinee (first :: rest)

/-- The forms that a keyword starts, or else operators from the loosest level on. -/
def expression (sub : Nonterminal → Parser Node) : Parser Node := do
  match ← get with
  | t :: ts =>
    if t.isA .keyword "let" then set ts; letIn sub t.pos
    else if t.isA .keyword "if" then set ts; cond sub t.pos
    else if t.isA .keyword "fun" then set ts; lambda sub t.pos
    else if t.isA .keyword "match" then set ts; matching sub t.pos
    else sub (.level operatorLevels)
  | [] => sub (.level operatorLevels)

/-- Whether a token is one of the given binary operators. -/
def isOperator (operators : List String) (t : Token) : Bool :=
  (t.kind == .operator || t.kind == .keyword) && operators.contains t.lexeme

/-- Operands that follow `left`, each behind an operator of the level. Each step consumes a token at
least, so there are no more steps than tokens in `bound`, which are those that are left at first. -/
def chain (operators : List String) (operand : Parser Node) :
    (bound : List Token) → Node → Parser Node
  | [], left => return left
  | _ :: bound, left => do
    match ← get with
    | t :: ts =>
      if isOperator operators t then
        set ts
        let right ← operand
        chain operators operand bound (.binary left.pos (operatorName t.lexeme) left right)
      else return left
    | [] => return left

/-- A level of binary operators over its operands. -/
def level (operators : List String) (operand : Parser Node) : Parser Node := do
  let left ← operand
  chain operators operand (← get) left

/-- Signs in front of an application. -/
def unary (sub : Nonterminal → Parser Node) : Parser Node := do
  match ← get with
  | t :: ts =>
    if t.isA .operator "-" || t.isA .operator "-." then
      set ts
      return .unary t.pos t.lexeme (← sub .unary)
    else sub .application
  | [] => sub .application

/-- Whether a primary expression starts with the token. -/
def startsPrimary (t : Token) : Bool :=
  match t.kind with
  | .int | .float | .string | .char | .identifier | .backtickIdent => true
  | _ => t.isA .delimiter "("

/-- Arguments that follow `callee`, at most as many as there are tokens in `bound`, which are those that
are left at first. -/
def arguments (argument : Parser Node) : (bound : List Token) → Node → Parser Node
  | [], callee => return callee
  | _ :: bound, callee => do
    match ← get with
    | t :: _ =>
      if startsPrimary t then
        arguments argument bound (.apply callee.pos callee (← argument))
      else return callee
    | [] => return callee

/-- A primary expression applied to any number of others. -/
def application (primary : Parser Node) : Parser Node := do
  let callee ← primary
  arguments primary (← get) callee

/-- An expression in brackets, behind the opening one at `pos`. -/
def bracketed (sub : Nonterminal → Parser Node) (pos : Pos) : Parser Node := do
  let e ← sub .expression
  expect .delimiter ")" (.closing pos)
  return e

/-- The literal or name that a token spells; `none` if it is no such token. -/
def atom? (t : Token) : Option (Except SyntaxFault Node) :=
  match t.kind with
  | .int => some <| match Number.readInt? t.lexeme with
    | some n => .ok (.intLit t.pos n)
    | none => .error (.tooLarge t.lexeme)
  | .float => some <| match Number.readFloat? t.lexeme with
    | some x => .ok (.floatLit t.pos x)
    | none => .error (.unreadable t.lexeme)
  | .string => some (.ok (.stringLit t.pos t.lexeme))
  | .char => some (.ok (.charLit t.pos t.lexeme))
  | .identifier | .backtickIdent => some (.ok (.ident t.pos t.lexeme))
  | _ => none

/-- A literal, a name or an expression in brackets. -/
def primary (sub : Nonterminal → Parser Node) : Parser Node := do
  match ← get with
  | t :: ts =>
    match atom? t with
    | some (.ok e) => set ts; return e
    | some (.error f) => set ts; throw (.fault t.pos f)
    | none => if t.isA .delimiter "(" then set ts; bracketed sub t.pos else fail .expression
  | [] => fail .expression

/-- What must follow a declaration: one or more `;;`, the end of input, or the next `let`. -/
def endDeclaration : Parser Unit := do
  match ← get with
  | [] => return
  | t :: ts =>
    if t.isA .delimiter ";;" then set (ts.dropWhile (·.isA .delimiter ";;"))
    else unless t.isA .keyword "let" do fail .endOfDeclaration

/-- The declaration that a binding at `pos` makes when no `in` follows. -/
def declarationOf (pos : Pos) (b : Binding) : Node :=
  if !b.params.isEmpty then .funDecl pos b.name b.params b.value b.recursive
  else if b.recursive then .funDecl pos b.name b.value.uncurry.1 b.value.uncurry.2 true
  else .letDecl pos b.name b.value

/-- A declaration that a `let` at `pos` starts, behind it. -/
def letDeclaration (sub : Nonterminal → Parser Node) (pos : Pos) : Parser Node := do
  let b ← binding sub
  if ← accept .keyword "in" then
    let body ← sub .expression
    endDeclaration
    return .exprStmt pos (.letIn pos b.name (.curry pos b.params b.value) body b.recursive)
  else
    endDeclaration
    return declarationOf pos b

/-- A declaration with what must follow it. -/
def declaration (sub : Nonterminal → Parser Node) : Parser Node := do
  match ← get with
  | t :: ts =>
    if t.isA .keyword "let" then set ts; letDeclaration sub t.pos
    else
      let e ← sub .expression
      endDeclaration
      return .exprStmt t.pos e
  | [] => fail .expression

end Grammar

/-- The parser of each rule, with a budget for the rules that may be open at once. -/
def Nonterminal.parse : (budget : Nat) → Nonterminal → Parser Node
  | 0, _ => throw .tooDeep
  | n + 1, .expression => Grammar.expression (parse n)
  | n + 1, .bound => parse n .expression
  | n + 1, .level [] => parse n .unary
  | n + 1, .level (operators :: tighter) => Grammar.level operators (parse n (.level tighter))
  | n + 1, .unary => Grammar.unary (parse n)
  | n + 1, .application => Grammar.application (parse n .primary)
  | n + 1, .primary => Grammar.primary (parse n)

/-- A program: its declarations, and the place of the first. -/
structure Program where
  pos : Pos
  body : List Node

/-- A program as a node. -/
def Program.toNode (p : Program) : Node := .program p.pos p.body

/-- What came of reading tokens: the declarations that were recovered, if any, and the faults. -/
structure Parsed where
  program : Option Program
  errors : List (Located SyntaxFault)

namespace Parsed

/-- The place and fault of a stop in the declaration that starts at `start`. -/
def locate (start stop : Pos) : Stop → Located SyntaxFault
  | .unfit t expected =>
    ⟨t.pos, if t.kind = .error then .malformed t.lexeme t.note else .unexpected t.lexeme expected⟩
  | .atEnd expected => ⟨stop, .unexpectedEnd expected⟩
  | .fault pos f => ⟨pos, f⟩
  | .tooDeep => ⟨start, .tooDeep⟩

/-- The keywords at which reading may go on after a fault. -/
def isRestart (t : Token) : Bool :=
  t.kind == .keyword && ["let", "if", "fun", "match"].contains t.lexeme

/-- The tokens behind the next `;;` or from the next keyword that starts an expression. -/
def skip : List Token → List Token
  | [] => []
  | t :: ts =>
    if isRestart t then t :: ts
    else if t.isA .delimiter ";;" then ts
    else skip ts

/-- The tokens at which reading goes on after a declaration failed that started with the tokens `start`
and stopped with the tokens `left`. It always gets past the first token of the declaration. -/
def resume (start left : List Token) : List Token :=
  if left.length = start.length then skip (start.drop 1) else skip left

/-- The declarations and faults of tokens that end at `stop`. Each step consumes a token at least, so
`fuel` is enough if it is the number of tokens. -/
def collect (budget : Nat) (stop : Pos) :
    (fuel : Nat) → List Token → List Node × List (Located SyntaxFault)
  | _, [] => ([], [])
  | 0, _ :: _ => ([], [])
  | fuel + 1, t :: ts =>
    if t.isA .delimiter ";;" then collect budget stop fuel ts
    else
      match Grammar.declaration (Nonterminal.parse budget) (t :: ts) with
      | .ok d rest =>
        let (ds, fs) := collect budget stop fuel rest
        (d :: ds, fs)
      | .error e left =>
        let (ds, fs) := collect budget stop fuel (resume (t :: ts) left)
        (ds, locate t.pos stop e :: fs)

end Parsed

/-- The place where tokens end: that of the first `endOfInput`, or else of the last token. -/
def endPos (ts : List Token) : Pos :=
  match ts.find? (·.kind == .endOfInput), ts.getLast? with
  | some t, _ => t.pos
  | none, some t => t.pos
  | none, none => .first

/-- Reads tokens as a program, with a budget for nesting. Comments are passed over, and nothing behind
an `endOfInput` is read. -/
def parseWithin (budget : Nat) (tokens : List Token) : Parsed :=
  let ts := tokens.filter (·.kind != .comment)
  let body := ts.takeWhile (·.kind != .endOfInput)
  let (ds, fs) := Parsed.collect budget (endPos ts) body.length body
  ⟨ds.head?.map fun d => ⟨d.pos, ds⟩, fs⟩

/-- The nesting of rules that is read. -/
def nestingBudget : Nat := 980

/-- Reads tokens as a program. -/
def parseTokens (tokens : List Token) : Parsed := parseWithin nestingBudget tokens

/-- Reads a source text as a program. -/
def parse (source : String) : Parsed := parseTokens (tokenize source)

/-- The crash that a token causes which is given as a number and spells none. -/
def Parsed.crash? (p : Parsed) : Option Crash :=
  p.errors.findSome? fun f =>
    match f.val with
    | .unreadable lexeme => some (.unreadableNumber lexeme)
    | _ => none

end Camlet

import TinyC.Syntax.Tree

/-!
# From tokens to trees

`Program.ofWords` finds the tree of a row of tokens, looking one token ahead. Each function takes
a phrase off the front of the row and gives its tree with the tokens behind it; where the tree
ends in a gap no tokens are left to go on with.

Every function has a budget of calls. A phrase needs a fixed number of calls for each of its
tokens, so a budget proportional to the number of tokens is never used up.
-/

namespace TinyC.Syntax

/-- The tree of a phrase and the tokens behind it, if it is without a gap. -/
abbrev Parsed (α : Type) := α × Option (List Word)

/-- The kind of the next token. -/
def kindOf (ws : List Word) : Kind :=
  match ws with
  | w :: _ => w.kind
  | [] => .eof

/-- The number of the next token. -/
def ordOf (ws : List Word) : Nat :=
  match ws with
  | w :: _ => w.ord
  | [] => 0

/-- The gap in front of some tokens. -/
def gapAt (want : List Kind) (ws : List Word) : Gap :=
  ⟨want, ordOf ws⟩

/-- The token that closes a phrase. -/
def closing (k : Kind) (ws : List Word) : Parsed Close :=
  if kindOf ws = k then (.word (ordOf ws), some ws.tail) else (.gap (gapAt [k] ws), none)

/-- A budget of calls that suffices for some tokens. -/
def budget (ws : List Word) : Nat :=
  16 * (ws.length + 1)

/-- The text of the next token, if it is an identifier. -/
def nameText (v : Value) : String :=
  match v with
  | .text s => s
  | _ => ""

/-- The type of a variable. -/
def variableType? : Kind → Option Ty
  | .intKw => some .int
  | .doubleKw => some .double
  | _ => none

/-- The operator of a sum. -/
def sumOp? : Kind → Option ArithOp
  | .plus => some .add
  | .minus => some .sub
  | _ => none

/-- The operator of a product. -/
def productOp? : Kind → Option ArithOp
  | .mul => some .mul
  | .div => some .div
  | _ => none

/-- A comparison. -/
def relOp? : Kind → Option RelOp
  | .lt => some .lt
  | .le => some .le
  | .ge => some .ge
  | .gt => some .gt
  | .neq => some .neq
  | .eq => some .eq
  | _ => none

/-- The signs in front of some tokens, and the tokens behind them. -/
def signs : List Word → List Bool × List Word
  | [] => ([], [])
  | w :: ws =>
    match w.kind with
    | .minus => let (ss, rest) := signs ws; (true :: ss, rest)
    | .plus => let (ss, rest) := signs ws; (false :: ss, rest)
    | _ => ([], w :: ws)

/-- The kinds that a primary can start with. -/
def primaryKinds : List Kind :=
  [.ident, .uintLiteral, .doubleLiteral, .charLiteral, .stringLiteral, .lParen]

/-! ## Expressions -/

mutual

/-- Parses an expression or comparison. -/
def relational : Nat → List Word → Parsed Relational
  | 0, ws => (.value (outOfBudget ws), none)
  | n + 1, ws =>
    match expr n ws with
    | (l, none) => (.value l, none)
    | (l, some ws) =>
      match relOp? (kindOf ws) with
      | none => (.value l, some ws)
      | some op =>
        let (r, rest) := expr n ws.tail
        (.compare l op r, rest)

/-- Parses a sum. -/
def expr : Nat → List Word → Parsed Expr
  | 0, ws => (outOfBudget ws, none)
  | n + 1, ws =>
    match term n ws with
    | (t, none) => (.term t, none)
    | (t, some ws) => exprRest n (.term t) ws

/-- Parses the operators and terms behind a sum. -/
def exprRest : Nat → Expr → List Word → Parsed Expr
  | 0, _, ws => (outOfBudget ws, none)
  | n + 1, l, ws =>
    match sumOp? (kindOf ws) with
    | none => (l, some ws)
    | some op =>
      match term n ws.tail with
      | (t, none) => (.sum l op t, none)
      | (t, some ws) => exprRest n (.sum l op t) ws

/-- Parses a product. -/
def term : Nat → List Word → Parsed Term
  | 0, ws => (.factor (.mk (ordOf ws) [] (.primary (.gap (gapAt [] ws)))), none)
  | n + 1, ws =>
    match factor n ws with
    | (f, none) => (.factor f, none)
    | (f, some ws) => termRest n (.factor f) ws

/-- Parses the operators and factors behind a product. -/
def termRest : Nat → Term → List Word → Parsed Term
  | 0, _, ws => (.factor (.mk (ordOf ws) [] (.primary (.gap (gapAt [] ws)))), none)
  | n + 1, l, ws =>
    match productOp? (kindOf ws) with
    | none => (l, some ws)
    | some op =>
      match factor n ws.tail with
      | (f, none) => (.product l op f, none)
      | (f, some ws) => termRest n (.product l op f) ws

/-- Parses signs and what they stand before. -/
def factor : Nat → List Word → Parsed Factor
  | 0, ws => (.mk (ordOf ws) [] (.primary (.gap (gapAt [] ws))), none)
  | n + 1, ws =>
    let (ss, rest) := signs ws
    match primary n rest with
    | (p, none) => (.mk (ordOf ws) ss (.primary p), none)
    | (p, some rest) =>
      let (c, rest) := castRest n (.primary p) rest
      (.mk (ordOf ws) ss c, rest)

/-- Parses the casts behind a primary. -/
def castRest : Nat → Casted → List Word → Parsed Casted
  | 0, _, ws => (.primary (.gap (gapAt [] ws)), none)
  | n + 1, c, ws =>
    if kindOf ws = .asKw then
      match variableType? (kindOf ws.tail) with
      | some type => castRest n (.cast c (ordOf ws) type) ws.tail.tail
      | none => (.untyped c (ordOf ws) (gapAt [.intKw, .doubleKw] ws.tail), none)
    else (c, some ws)

/-- Parses a primary. -/
def primary : Nat → List Word → Parsed Primary
  | 0, ws => (.gap (gapAt [] ws), none)
  | _ + 1, [] => (.gap (gapAt primaryKinds []), none)
  | n + 1, w :: ws =>
    match w.kind, w.value with
    | .ident, v =>
      if kindOf ws = .lParen then
        let (as, rest) := args n true ws.tail
        (.call ⟨nameText v, w.ord⟩ as, rest)
      else (.name ⟨nameText v, w.ord⟩, some ws)
    | .uintLiteral, .int v => (.int v.toUInt64 w.ord, some ws)
    | .charLiteral, .int v => (.int v.toUInt64 w.ord, some ws)
    | .doubleLiteral, .bits b => (.double b w.ord, some ws)
    | .stringLiteral, .text s => (.text s w.ord, some ws)
    | .lParen, _ =>
      match relational n ws with
      | (r, none) => (.paren w.ord r (.word 0), none)
      | (r, some ws) =>
        let (close, rest) := closing .rParen ws
        (.paren w.ord r close, rest)
    | _, _ => (.gap (gapAt primaryKinds (w :: ws)), none)

/-- Parses arguments up to the closing parenthesis; a comma stands before every argument but the
first. -/
def args : Nat → Bool → List Word → Parsed Args
  | 0, _, ws => (.gap (gapAt [] ws), none)
  | n + 1, isFirst, ws =>
    if kindOf ws = .rParen then (.done (ordOf ws), some ws.tail)
    else if isFirst then argument n ws
    else if kindOf ws = .comma then argument n ws.tail
    else (.gap (gapAt [.comma] ws), none)

/-- Parses an argument and those behind it. -/
def argument : Nat → List Word → Parsed Args
  | 0, ws => (.gap (gapAt [] ws), none)
  | n + 1, ws =>
    match expr n ws with
    | (e, none) => (.more e (.done 0), none)
    | (e, some ws) =>
      let (as, rest) := args n false ws
      (.more e as, rest)

/-- The tree where the budget is used up. -/
def outOfBudget (ws : List Word) : Expr :=
  .term (.factor (.mk (ordOf ws) [] (.primary (.gap (gapAt [] ws)))))

end

/-- Parses an expression. -/
def parseExpr (ws : List Word) : Parsed Expr :=
  expr (budget ws) ws

/-- Parses an expression or comparison. -/
def parseRelational (ws : List Word) : Parsed Relational :=
  relational (budget ws) ws

/-- Parses the arguments of a call behind the opening parenthesis. -/
def parseArgs (ws : List Word) : Parsed Args :=
  args (budget ws) true ws

/-! ## Declarations -/

/-- Parses an identifier, a colon and a type. -/
def typedName (ws : List Word) : Except Gap (Name × Ty × List Word) :=
  match ws with
  | x :: ws =>
    if x.kind ≠ .ident then .error (gapAt [.ident] (x :: ws))
    else if kindOf ws ≠ .colon then .error (gapAt [.colon] ws)
    else
      match variableType? (kindOf ws.tail) with
      | some type => .ok (⟨nameText x.value, x.ord⟩, type, ws.tail.tail)
      | none => .error (gapAt [.intKw, .doubleKw] ws.tail)
  | [] => .error (gapAt [.ident] [])

/-- Parses the initial value of a declaration, if there is one. -/
def initializer (ws : List Word) : Parsed (Option Expr) :=
  if kindOf ws = .assign then
    let (e, rest) := parseExpr ws.tail
    (some e, rest)
  else (none, some ws)

/-- Parses a declaration; its first token is `let` or `const`. -/
def declaration (ws : List Word) : Parsed Decl :=
  match typedName ws.tail with
  | .error g => (.gap g, none)
  | .ok (x, type, rest) =>
    match initializer rest with
    | (init, none) => (.mk (kindOf ws = .constKw) x type init (.word 0), none)
    | (init, some rest) =>
      let (close, rest) := closing .semicolon rest
      (.mk (kindOf ws = .constKw) x type init close, rest)

/-! ## Statements -/

/-- The kinds that a statement can start with, and that of the brace behind the last one. -/
def statementKinds : List Kind :=
  [.ifKw, .whileKw, .returnKw, .breakKw, .continueKw, .semicolon, .ident, .letKw, .constKw, .rBrace]

/-- Parses a return statement behind `return`. -/
def returned (ord : Nat) (ws : List Word) : Parsed Stmt :=
  if kindOf ws = .semicolon then (.ret ord none (.word (ordOf ws)), some ws.tail)
  else
    match parseExpr ws with
    | (e, none) => (.ret ord (some e) (.word 0), none)
    | (e, some ws) =>
      let (close, rest) := closing .semicolon ws
      (.ret ord (some e) close, rest)

/-- Parses a call or an assignment behind its first identifier. -/
def named (x : Name) (ws : List Word) : Parsed Stmt :=
  match kindOf ws with
  | .lParen =>
    match parseArgs ws.tail with
    | (as, none) => (.call x as (.word 0), none)
    | (as, some ws) =>
      let (close, rest) := closing .semicolon ws
      (.call x as close, rest)
  | .assign =>
    match parseExpr ws.tail with
    | (e, none) => (.assign x e (.word 0), none)
    | (e, some ws) =>
      let (close, rest) := closing .semicolon ws
      (.assign x e close, rest)
  | _ => (.unfinished x (gapAt [.lParen, .assign] ws), none)

mutual

/-- Parses a block. -/
def block : Nat → List Word → Parsed Block
  | 0, ws => (.gap (gapAt [] ws), none)
  | n + 1, ws =>
    if kindOf ws = .lBrace then
      let (ss, rest) := stmts n ws.tail
      (.stmts ss, rest)
    else (.gap (gapAt [.lBrace] ws), none)

/-- Parses statements up to the closing brace. -/
def stmts : Nat → List Word → Parsed Stmts
  | 0, ws => (.more (.gap (gapAt [] ws)) (.done 0), none)
  | n + 1, ws =>
    if kindOf ws = .rBrace then (.done (ordOf ws), some ws.tail)
    else
      match stmt n ws with
      | (s, none) => (.more s (.done 0), none)
      | (s, some ws) =>
        let (ss, rest) := stmts n ws
        (.more s ss, rest)

/-- Parses a statement. -/
def stmt : Nat → List Word → Parsed Stmt
  | 0, ws => (.gap (gapAt [] ws), none)
  | _ + 1, [] => (.gap (gapAt statementKinds []), none)
  | n + 1, w :: ws =>
    match w.kind with
    | .ifKw =>
      let (i, rest) := branch n ws
      (.branch i, rest)
    | .whileKw =>
      match parseRelational ws with
      | (c, none) => (.loop w.ord c (.stmts (.done 0)), none)
      | (c, some ws) =>
        let (b, rest) := block n ws
        (.loop w.ord c b, rest)
    | .returnKw => returned w.ord ws
    | .breakKw =>
      let (close, rest) := closing .semicolon ws
      (.brk w.ord close, rest)
    | .continueKw =>
      let (close, rest) := closing .semicolon ws
      (.cont w.ord close, rest)
    | .semicolon => (.empty, some ws)
    | .ident => named ⟨nameText w.value, w.ord⟩ ws
    | .letKw | .constKw =>
      let (d, rest) := declaration (w :: ws)
      (.declare d, rest)
    | _ => (.gap (gapAt statementKinds (w :: ws)), none)

/-- Parses a condition with its blocks behind `if`. -/
def branch : Nat → List Word → Parsed If
  | 0, ws => (.mk (.value (outOfBudget ws)) (.stmts (.done 0)) .none, none)
  | n + 1, ws =>
    match parseRelational ws with
    | (c, none) => (.mk c (.stmts (.done 0)) .none, none)
    | (c, some ws) =>
      match block n ws with
      | (b, none) => (.mk c b .none, none)
      | (b, some ws) =>
        let (alternative, rest) := otherwise n ws
        (.mk c b alternative, rest)

/-- Parses what stands behind the block of a condition. -/
def otherwise : Nat → List Word → Parsed Else
  | 0, ws => (.gap (gapAt [] ws), none)
  | n + 1, ws =>
    if kindOf ws ≠ .elseKw then (.none, some ws)
    else
      match kindOf ws.tail with
      | .ifKw =>
        let (i, rest) := branch n ws.tail.tail
        (.branch i, rest)
      | .lBrace =>
        let (b, rest) := block n ws.tail
        (.block b, rest)
      | _ => (.gap (gapAt [.lBrace, .ifKw] ws.tail), none)

end

/-- Parses a block. -/
def parseBlock (ws : List Word) : Parsed Block :=
  block (budget ws) ws

/-! ## Functions and programs -/

/-- The type of the result of a function. -/
def resultType? : Kind → Option Ty
  | .voidKw => some .void
  | k => variableType? k

/-- Parses a parameter. -/
def param (ws : List Word) : Except Gap (Param × List Word) :=
  let constant : Bool := kindOf ws = .constKw
  match typedName (if constant then ws.tail else ws) with
  | .error g => .error g
  | .ok (x, type, rest) => .ok (⟨constant, x, type⟩, rest)

/-- Parses one parameter or more, a comma between them: those that are complete, and the tokens
behind the last, unless there is a gap in it. -/
def params : Nat → List Word → List Param × Except Gap (List Word)
  | 0, ws => ([], .error (gapAt [] ws))
  | n + 1, ws =>
    match param ws with
    | .error g => ([], .error g)
    | .ok (p, rest) =>
      if kindOf rest = .comma then
        let (ps, rest) := params n rest.tail
        (p :: ps, rest)
      else ([p], .ok rest)

/-- Parses what stands behind the parameters of a function. -/
def body (ws : List Word) : Except Gap (Ty × Block) × Option (List Word) :=
  if kindOf ws ≠ .rParen then (.error (gapAt [.rParen] ws), none)
  else if kindOf ws.tail ≠ .arrow then (.error (gapAt [.arrow] ws.tail), none)
  else
    match resultType? (kindOf ws.tail.tail) with
    | none => (.error (gapAt [.intKw, .doubleKw, .voidKw] ws.tail.tail), none)
    | some type =>
      let (b, rest) := parseBlock ws.tail.tail.tail
      (.ok (type, b), rest)

/-- Parses a function behind `fn`. -/
def function (ws : List Word) : Parsed Fn :=
  match ws with
  | [] => (.gap (gapAt [.ident] []), none)
  | x :: ws =>
    if x.kind ≠ .ident then (.gap (gapAt [.ident] (x :: ws)), none)
    else
      let name : Name := ⟨nameText x.value, x.ord⟩
      if kindOf ws ≠ .lParen then (.mk name [] (.error (gapAt [.lParen] ws)), none)
      else if kindOf ws.tail = .rParen then
        let (b, rest) := body ws.tail
        (.mk name [] b, rest)
      else
        match params (budget ws) ws.tail with
        | (ps, .error g) => (.mk name ps (.error g), none)
        | (ps, .ok ws) =>
          let (b, rest) := body ws
          (.mk name ps b, rest)

/-- Parses the declarations at the front of a program. -/
def parseDecls : Nat → List Word → Parsed (List Decl)
  | 0, ws => ([.gap (gapAt [] ws)], none)
  | n + 1, ws =>
    if kindOf ws = .letKw ∨ kindOf ws = .constKw then
      match declaration ws with
      | (d, none) => ([d], none)
      | (d, some ws) =>
        let (ds, rest) := parseDecls n ws
        (d :: ds, rest)
    else ([], some ws)

/-- Parses the functions of a program. -/
def parseFunctions : Nat → List Word → Parsed (List Fn)
  | 0, ws => ([.gap (gapAt [] ws)], none)
  | n + 1, ws =>
    if kindOf ws = .fnKw then
      match function ws.tail with
      | (f, none) => ([f], none)
      | (f, some ws) =>
        let (fs, rest) := parseFunctions n ws
        (f :: fs, rest)
    else ([], some ws)

/-- The tree of a program. -/
def Program.ofWords (ws : List Word) : Program :=
  match parseDecls (budget ws) ws with
  | (ds, none) => ⟨ds, [], .word 0⟩
  | (ds, some ws) =>
    match parseFunctions (budget ws) ws with
    | (fs, none) => ⟨ds, fs, .word 0⟩
    | (fs, some ws) => ⟨ds, fs, (closing .eof ws).1⟩

end TinyC.Syntax

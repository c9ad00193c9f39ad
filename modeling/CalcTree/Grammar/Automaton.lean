import CalcTree.Grammar.Production

/-!
# The shift-reduce automaton

Seventy states, each a row of data: the tokens it can shift, the states reached over a construct,
and at most one production it can reduce, with the lookaheads that call for it. State 1 has read
nothing yet. State 0 is where reading goes on after an error: it has no row of its own and takes
every lookahead as a call for recovery.

A comment is shifted in every other state and leaves the state as it is, so rows do not list it.
The lookaheads of a reduction depend on the construct alone and not on where it stands. So a
reduction may run on a token which turns out to be wrong, but no wrong token is ever shifted.
-/

namespace CalcTree

abbrev State := Fin 70

inductive Action where
  | shift (s : State)
  | shiftExtra
  | reduce (p : Production)
  | accept
  | recover
deriving DecidableEq, Repr

structure Row where
  shifts : List (Terminal × State) := []
  gotos : List (Nonterminal × State) := []
  reduction : Option Production := none
  follow : List Lookahead := []
  accepts : Bool := false
deriving DecidableEq, Repr

namespace State

def error : State := 0

def start : State := 1

/-- The states reached over the binding levels and their operations, loosest first. -/
def levels : List (Nonterminal × State) :=
  [(.sum, 7), (.additive, 8), (.product, 9), (.multiplicative, 10), (.signed, 11), (.unary, 12),
    (.raised, 13), (.power, 14), (.suffixed, 15), (.factorial, 16), (.primary, 17),
    (.functionCall, 20)]

/-- Where an expression stands, all levels may stand too. -/
def expressionGotos (s : State) : List (Nonterminal × State) :=
  (.expression, s) :: levels

/-- The right operand of an addition or subtraction. -/
def productGotos (s : State) : List (Nonterminal × State) :=
  (.product, s) :: levels.drop 3

/-- The right operand of an operation that binds tighter than addition. -/
def signedGotos (s : State) : List (Nonterminal × State) :=
  (.signed, s) :: levels.drop 5

/-- The tokens that start an operand. -/
def operandShifts : List (Terminal × State) :=
  [(.identifier, 34), (.minus, 22), (.leftParen, 21), (.number, 18)]

/-- The same at the start of a statement, where a name may turn out to be assigned to. -/
def statementShifts : List (Terminal × State) :=
  [(.identifier, 19), (.minus, 22), (.leftParen, 21), (.number, 18)]

def multiplyShifts : List (Terminal × State) :=
  [(.star, 26), (.slash, 27), (.percent, 28)]

def afterParameters : List Lookahead :=
  [.token .identifier, .token .minus, .token .leftParen, .token .number]

def afterStatement : List Lookahead :=
  .finish :: afterParameters

def closers : List Lookahead :=
  [.token .rightParen, .token .rightBracket, .token .semicolon, .token .rightBrace]

/-- The next statement may follow an expression, but not one that starts with a minus. -/
def startsAnew : List Lookahead :=
  [.finish, .token .identifier, .token .leftParen, .token .number]

def afterExpression : List Lookahead :=
  startsAnew ++ closers

def afterSum : List Lookahead :=
  [.token .plus, .token .minus] ++ afterExpression

def multiplyOperators : List Lookahead :=
  [.token .star, .token .slash, .token .percent]

def afterProduct : List Lookahead :=
  multiplyOperators ++ afterSum

def afterSuffixed : List Lookahead :=
  [.token .caret, .token .bang] ++ afterProduct

/-- A name that starts a statement stands in no brackets. -/
def afterName : List Lookahead :=
  [.token .caret, .token .bang] ++ multiplyOperators ++ [.token .plus, .token .minus] ++ startsAnew

def afterItem : List Lookahead :=
  [.token .rightBracket, .token .semicolon]

/-- A row that needs more input. -/
def awaiting (shifts : List (Terminal × State)) (gotos : List (Nonterminal × State)) : Row :=
  { shifts := shifts, gotos := gotos }

/-- A row at the end of a production. -/
def complete (p : Production) (follow : List Lookahead) : Row :=
  { reduction := some p, follow := follow }

/-- A row at the end of a production that a further token may still extend. -/
def undecided (shifts : List (Terminal × State)) (p : Production) (follow : List Lookahead) :
    Row :=
  { shifts := shifts, reduction := some p, follow := follow }

/-- The rows of all states, in order. -/
def rows : List Row := [
  {},
  { shifts := statementShifts,
    gotos := (.sourceFile, 2) :: (.statement, 4) :: (.assignment, 5) :: (.statements, 3) ::
      expressionGotos 6,
    reduction := some .emptyFile, follow := [.finish] },
  { accepts := true },
  { shifts := statementShifts,
    gotos := (.statement, 23) :: (.assignment, 5) :: expressionGotos 6,
    reduction := some .file, follow := [.finish] },
  complete .firstStatement afterStatement,
  complete .assignmentStatement afterStatement,
  complete .expressionStatement afterStatement,
  undecided [(.plus, 24), (.minus, 25)] .expression afterExpression,
  complete .sumOfAdditive afterSum,
  undecided multiplyShifts .sumOfProduct afterSum,
  complete .productOfMultiplicative afterProduct,
  complete .productOfSigned afterProduct,
  complete .signedOfUnary afterProduct,
  complete .signedOfRaised afterProduct,
  complete .raisedOfPower afterProduct,
  undecided [(.caret, 30), (.bang, 29)] .raisedOfSuffixed afterProduct,
  complete .suffixedOfFactorial afterSuffixed,
  complete .suffixedOfPrimary afterSuffixed,
  complete .numberPrimary afterSuffixed,
  undecided [(.colon, 32), (.leftBracket, 31)] .namePrimary afterName,
  complete .callPrimary afterSuffixed,
  awaiting operandShifts (expressionGotos 33),
  awaiting operandShifts (signedGotos 35),
  complete .nextStatement afterStatement,
  awaiting operandShifts (productGotos 36),
  awaiting operandShifts (productGotos 37),
  awaiting operandShifts (signedGotos 38),
  awaiting operandShifts (signedGotos 39),
  awaiting operandShifts (signedGotos 40),
  complete .factorial afterSuffixed,
  awaiting operandShifts (signedGotos 41),
  awaiting ((.rightBracket, 43) :: operandShifts) ((.argumentList, 42) :: expressionGotos 44),
  awaiting ((.leftBrace, 47) :: operandShifts) ((.functionBody, 45) :: expressionGotos 46),
  awaiting [(.rightParen, 48)] [],
  undecided [(.leftBracket, 31)] .namePrimary afterSuffixed,
  complete .negation afterProduct,
  undecided multiplyShifts .addition afterSum,
  undecided multiplyShifts .subtraction afterSum,
  complete .multiplication afterProduct,
  complete .division afterProduct,
  complete .remainder afterProduct,
  complete .power afterProduct,
  awaiting [(.rightBracket, 49)] [],
  complete .emptyCall afterSuffixed,
  { shifts := [(.semicolon, 51)],
    gotos := [(.moreArguments, 50)],
    reduction := some .oneArgument, follow := [.token .rightBracket] },
  complete .assignFunction afterStatement,
  complete .assignExpression afterStatement,
  awaiting ((.leftBracket, 54) :: operandShifts) ((.parameterList, 52) :: expressionGotos 53),
  complete .parenthesised afterSuffixed,
  complete .call afterSuffixed,
  undecided [(.semicolon, 55)] .manyArguments [.token .rightBracket],
  awaiting operandShifts (expressionGotos 56),
  awaiting operandShifts (expressionGotos 57),
  awaiting [(.rightBrace, 58)] [],
  awaiting [(.identifier, 59), (.rightBracket, 60)] [],
  awaiting operandShifts (expressionGotos 61),
  complete .secondArgument afterItem,
  awaiting [(.rightBrace, 62)] [],
  complete .plainBody afterStatement,
  awaiting [(.rightBracket, 64), (.semicolon, 65)] [(.moreParameters, 63)],
  complete .noParameters afterParameters,
  complete .nextArgument afterItem,
  complete .parametrisedBody afterStatement,
  awaiting [(.rightBracket, 66), (.semicolon, 67)] [],
  complete .oneParameter afterParameters,
  awaiting [(.identifier, 68)] [],
  complete .manyParameters afterParameters,
  awaiting [(.identifier, 69)] [],
  complete .secondParameter afterItem,
  complete .nextParameter afterItem]

def row (s : State) : Row :=
  rows[s.val]?.getD {}

/-- What the automaton does in a state on a lookahead, if it has anything to do. -/
def action (s : State) (a : Lookahead) : Option Action :=
  if s = error then some .recover
  else
    match a with
    | .token .comment => some .shiftExtra
    | .token t =>
      match s.row.shifts.lookup t with
      | some next => some (.shift next)
      | none => if a ∈ s.row.follow then s.row.reduction.map .reduce else none
    | .finish =>
      if s.row.accepts then some .accept
      else if a ∈ s.row.follow then s.row.reduction.map .reduce else none

/-- The state that a construct leads to. -/
def goto? (s : State) (n : Nonterminal) : Option State :=
  s.row.gotos.lookup n

/-- The state after a symbol is read, the error state if it cannot be read. -/
def next (s : State) : Symbol → State
  | .terminal t =>
    match s.action (.token t) with
    | some (.shift s') => s'
    | some .shiftExtra => s
    | _ => error
  | .nonterminal n => (s.goto? n).getD error

end State

end CalcTree

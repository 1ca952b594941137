import FapLang.Grammar.Production

/-!
The table of the grammar: its LALR(1) states. A state is a set of productions under way, each with a
mark that counts the symbols already read. What may follow a finished production depends on its
category alone.
-/

namespace FapLang.Grammar

structure State where
  /-- The productions under way and their marks. -/
  items : List (Nat × Nat)
  shifts : List (Terminal × Nat)
  gotos : List (Category × Nat)

namespace State

/-- A state in which a token is read next. -/
def reads (items : List (Nat × Nat)) (shifts : List (Terminal × Nat)) : State :=
  ⟨items, shifts, []⟩

/-- A state in which a production is finished. -/
def ends (items : List (Nat × Nat)) : State :=
  ⟨items, [], []⟩

end State

/-! The terminals that may follow a category. -/

/-- The terminals that a statement can begin with. -/
def openers : List Terminal :=
  [.ident, .readInputLong, .readInput, .again, .cause, .const, .back, .function, .new, .rep]

def afterStatement : List Terminal :=
  .newline :: .closeBracket :: .finish :: openers

def afterExpr : List Terminal :=
  .comparison :: .and :: .or :: .comma :: .closeParen :: .bar :: .openBracket :: afterStatement

def afterTerm : List Terminal :=
  .addOp :: afterExpr

def afterFactor : List Terminal :=
  .mulOp :: afterTerm

/-- The terminals that an expression can begin with. -/
def exprOpeners : List Terminal :=
  [.ident, .number, .quotedText, .readInputLong, .readInput, .openParen, .openBracket, .bar]

def followers : Category → List Terminal
  | .root => []
  | .start => [.finish]
  | .statements => .finish :: openers
  | .block => .otherwise :: afterStatement
  | .blockItems => .newline :: .closeBracket :: openers
  | .typeName => [.ident]
  | .conditions => [.openBracket]
  | .condition | .moreConditions => [.and, .or, .openBracket]
  | .logicOp => exprOpeners
  | .memberAccess | .listMethod => [.openParen]
  | .funcArgs | .outputArgs | .params => [.closeParen]
  | .param | .moreParams => [.comma, .closeParen]
  | .moreExprs => [.comma, .closeParen, .closeBracket]
  | .expr => afterExpr
  | .term | .moreTerms => afterTerm
  | .factor | .moreFactors | .memberAccessExpr | .inputCall | .mathFuncCall | .listLiteral
  | .listAccess | .absExpr | .funcCall => afterFactor
  | .statement | .constDef | .varDef | .listDef | .assignment | .causeStmt | .outputStmt | .againStmt
  | .repStop | .listMethodCall | .funcDef | .funcCallStmt | .backStmt => afterStatement

/-! The entries that states share. -/

def statementShifts : List (Terminal × Nat) :=
  [(.const, 17), (.new, 18), (.ident, 19), (.cause, 20), (.readInput, 22), (.readInputLong, 23),
    (.again, 24), (.rep, 25), (.function, 26), (.back, 27)]

def statementGotos : List (Category × Nat) :=
  [(.constDef, 4), (.varDef, 5), (.assignment, 6), (.causeStmt, 7), (.outputStmt, 8),
    (.inputCall, 9), (.againStmt, 10), (.repStop, 11), (.listMethodCall, 12), (.listDef, 13),
    (.funcDef, 14), (.funcCallStmt, 15), (.backStmt, 16), (.memberAccess, 21)]

def exprShifts : List (Terminal × Nat) :=
  [(.readInput, 22), (.readInputLong, 23), (.openBracket, 43), (.number, 46), (.quotedText, 47),
    (.ident, 48), (.openParen, 56), (.bar, 57)]

def partGotos : List (Category × Nat) :=
  [(.memberAccessExpr, 49), (.inputCall, 50), (.mathFuncCall, 51), (.listLiteral, 52),
    (.listAccess, 53), (.absExpr, 54), (.funcCall, 55)]

def factorGotos : List (Category × Nat) :=
  (.factor, 45) :: partGotos

def termGotos : List (Category × Nat) :=
  (.term, 44) :: factorGotos

def typeShifts : List (Terminal × Nat) :=
  [(.intType, 32), (.floatType, 33), (.strType, 34)]

open State in
/-- All states; every tenth is marked with its number. -/
def states : List State := [
  -- 0
  ⟨[(0, 0), (4, 0)],
    statementShifts, (.start, 1) :: (.statements, 2) :: (.statement, 3) :: statementGotos⟩,
  reads [(0, 1)] [(.finish, 28)],
  ⟨[(1, 1), (2, 1), (6, 1)], statementShifts, (.statement, 29) :: statementGotos⟩,
  reads [(3, 1), (5, 1)] [(.newline, 30)],
  ends [(7, 1)],
  ends [(8, 1)],
  ends [(9, 1)],
  ends [(10, 1)],
  ends [(11, 1)],
  ends [(12, 1)],
  -- 10
  ends [(13, 1)],
  ends [(14, 1)],
  ends [(15, 1)],
  ends [(16, 1)],
  ends [(17, 1)],
  ends [(18, 1)],
  ends [(19, 1)],
  ⟨[(20, 1)], typeShifts, [(.typeName, 31)]⟩,
  ⟨[(21, 1), (22, 1), (23, 1)], (.list, 36) :: typeShifts, [(.typeName, 35)]⟩,
  reads [(24, 1), (42, 1), (52, 1), (53, 1), (63, 1), (64, 1)]
    [(.arrow, 37), (.dot, 38), (.openParen, 39)],
  -- 20
  ⟨[(25, 1), (26, 1)],
    exprShifts, (.conditions, 40) :: (.condition, 41) :: (.expr, 42) :: termGotos⟩,
  reads [(40, 1), (41, 1)] [(.openParen, 58)],
  reads [(47, 1)] [(.openParen, 59)],
  reads [(48, 1)] [(.openParen, 60)],
  reads [(49, 1), (50, 1)] [(.openParen, 61)],
  reads [(51, 1)] [(.dot, 62)],
  reads [(56, 1)] [(.ident, 63)],
  reads [(65, 1), (66, 1)] [(.dot, 64)],
  ends [(0, 2)],
  reads [(1, 2), (6, 2)] [(.newline, 65)],
  -- 30
  ends [(5, 2)],
  reads [(20, 2)] [(.ident, 66)],
  ends [(98, 1)],
  ends [(99, 1)],
  ends [(100, 1)],
  reads [(21, 2), (22, 2)] [(.ident, 67)],
  reads [(23, 2)] [(.ident, 68)],
  ⟨[(24, 2)], exprShifts, (.expr, 69) :: termGotos⟩,
  ⟨[(42, 2), (52, 2), (53, 2)], [(.ident, 70), (.add, 72), (.clear, 73)], [(.listMethod, 71)]⟩,
  ⟨[(63, 2), (64, 2)],
    (.closeParen, 75) :: exprShifts, (.funcArgs, 74) :: (.expr, 76) :: termGotos⟩,
  -- 40
  ⟨[(25, 2), (26, 2)], [(.openBracket, 78)], [(.block, 77)]⟩,
  ⟨[(27, 1), (28, 1)], [(.and, 81), (.or, 82)], [(.moreConditions, 79), (.logicOp, 80)]⟩,
  reads [(31, 1)] [(.comparison, 83)],
  ⟨[(86, 1), (87, 1), (88, 1)], (.closeBracket, 85) :: exprShifts, (.expr, 84) :: termGotos⟩,
  ⟨[(67, 1), (68, 1)], [(.addOp, 87)], [(.moreTerms, 86)]⟩,
  ⟨[(71, 1), (72, 1)], [(.mulOp, 89)], [(.moreFactors, 88)]⟩,
  ends [(75, 1)],
  ends [(76, 1)],
  reads [(77, 1), (89, 1), (90, 1), (91, 1), (92, 1), (93, 1), (94, 1)]
    [(.dot, 90), (.openBracket, 91), (.openParen, 92)],
  ends [(78, 1)],
  -- 50
  ends [(79, 1)],
  ends [(80, 1)],
  ends [(81, 1)],
  ends [(82, 1)],
  ends [(83, 1)],
  ends [(84, 1)],
  ⟨[(85, 1)], exprShifts, (.expr, 93) :: termGotos⟩,
  ⟨[(97, 1)], exprShifts, (.expr, 94) :: termGotos⟩,
  ⟨[(40, 2), (41, 2)],
    (.closeParen, 96) :: exprShifts, (.outputArgs, 95) :: (.expr, 97) :: termGotos⟩,
  reads [(47, 2)] [(.quotedText, 98)],
  -- 60
  reads [(48, 2)] [(.quotedText, 99)],
  ⟨[(49, 2), (50, 2)], exprShifts, (.expr, 100) :: termGotos⟩,
  reads [(51, 2)] [(.stop, 101)],
  reads [(56, 2)] [(.openParen, 102)],
  reads [(65, 2), (66, 2)] [(.value, 103)],
  ends [(6, 3)],
  reads [(20, 3)] [(.arrow, 104)],
  reads [(21, 3), (22, 3)] [(.arrow, 105)],
  reads [(23, 3)] [(.listArrow, 106)],
  ends [(24, 3)],
  -- 70
  ends [(42, 3)],
  reads [(52, 3), (53, 3)] [(.openParen, 107)],
  ends [(54, 1)],
  ends [(55, 1)],
  reads [(63, 3)] [(.closeParen, 108)],
  ends [(64, 3)],
  ⟨[(95, 1), (96, 1)], [(.comma, 110)], [(.moreExprs, 109)]⟩,
  reads [(25, 3), (26, 3)] [(.otherwise, 111)],
  ⟨[(34, 1), (35, 1)],
    (.closeBracket, 113) :: (.newline, 115) :: statementShifts,
    (.blockItems, 112) :: (.statement, 114) :: statementGotos⟩,
  ⟨[(27, 2), (30, 1)], [(.and, 81), (.or, 82)], [(.logicOp, 116)]⟩,
  -- 80
  ⟨[(29, 1)], exprShifts, (.condition, 117) :: (.expr, 42) :: termGotos⟩,
  ends [(32, 1)],
  ends [(33, 1)],
  ⟨[(31, 2)], exprShifts, (.expr, 118) :: termGotos⟩,
  ⟨[(86, 2), (87, 2)], [(.closeBracket, 120), (.comma, 110)], [(.moreExprs, 119)]⟩,
  ends [(88, 2)],
  reads [(67, 2), (70, 1)] [(.addOp, 121)],
  ⟨[(69, 1)], exprShifts, (.term, 122) :: factorGotos⟩,
  reads [(71, 2), (74, 1)] [(.mulOp, 123)],
  ⟨[(73, 1)], exprShifts, (.factor, 124) :: partGotos⟩,
  -- 90
  reads [(89, 2)] [(.ident, 125)],
  ⟨[(90, 2)], exprShifts, (.expr, 126) :: termGotos⟩,
  ⟨[(91, 2), (92, 2), (93, 2), (94, 2)],
    (.closeParen, 129) :: exprShifts, (.expr, 127) :: (.funcArgs, 128) :: termGotos⟩,
  reads [(85, 2)] [(.closeParen, 130)],
  reads [(97, 2)] [(.bar, 131)],
  reads [(40, 3)] [(.closeParen, 132)],
  ends [(41, 3)],
  ⟨[(43, 1), (44, 1)], [(.comma, 110)], [(.moreExprs, 133)]⟩,
  reads [(47, 3)] [(.closeParen, 134)],
  reads [(48, 3)] [(.closeParen, 135)],
  -- 100
  reads [(49, 3), (50, 3)] [(.closeParen, 136), (.comma, 137)],
  ends [(51, 3)],
  ⟨[(56, 3), (59, 0)], typeShifts, [(.params, 138), (.param, 139), (.typeName, 140)]⟩,
  reads [(65, 3), (66, 3)] [(.openParen, 141)],
  ⟨[(20, 4)], exprShifts, (.expr, 142) :: termGotos⟩,
  ⟨[(21, 4)], exprShifts, (.expr, 143) :: termGotos⟩,
  ⟨[(23, 4)], [(.openBracket, 43)], [(.listLiteral, 144)]⟩,
  ⟨[(52, 4), (53, 4)], (.closeParen, 146) :: exprShifts, (.expr, 145) :: termGotos⟩,
  ends [(63, 4)],
  reads [(46, 1), (95, 2)] [(.comma, 147)],
  -- 110
  ⟨[(45, 1)], exprShifts, (.expr, 148) :: termGotos⟩,
  ⟨[(25, 4)], [(.openBracket, 78)], [(.block, 149)]⟩,
  ⟨[(34, 2), (38, 1), (39, 1)],
    (.closeBracket, 150) :: (.newline, 152) :: statementShifts,
    (.statement, 151) :: statementGotos⟩,
  ends [(35, 2)],
  ends [(36, 1)],
  ends [(37, 1)],
  ⟨[(30, 2)], exprShifts, (.condition, 153) :: (.expr, 42) :: termGotos⟩,
  ends [(29, 2)],
  ends [(31, 3)],
  reads [(46, 1), (86, 3)] [(.comma, 147), (.closeBracket, 154)],
  -- 120
  ends [(87, 3)],
  ⟨[(70, 2)], exprShifts, (.term, 155) :: factorGotos⟩,
  ends [(69, 2)],
  ⟨[(74, 2)], exprShifts, (.factor, 156) :: partGotos⟩,
  ends [(73, 2)],
  ends [(89, 3)],
  reads [(90, 3)] [(.closeBracket, 157)],
  ⟨[(91, 3), (92, 3), (95, 1), (96, 1)],
    [(.closeParen, 159), (.comma, 110)], [(.moreExprs, 158)]⟩,
  reads [(93, 3)] [(.closeParen, 160)],
  ends [(94, 3)],
  -- 130
  ends [(85, 3)],
  ends [(97, 3)],
  ends [(40, 4)],
  reads [(43, 2), (46, 1)] [(.comma, 147)],
  ends [(47, 4)],
  ends [(48, 4)],
  ⟨[(49, 4)], [(.openBracket, 78)], [(.block, 161)]⟩,
  reads [(50, 4)] [(.ident, 162)],
  reads [(56, 4)] [(.closeParen, 163)],
  ⟨[(57, 1), (58, 1)], [(.comma, 165)], [(.moreParams, 164)]⟩,
  -- 140
  reads [(62, 1)] [(.ident, 166)],
  ⟨[(65, 4), (66, 4)], (.closeParen, 168) :: exprShifts, (.expr, 167) :: termGotos⟩,
  ends [(20, 5)],
  ends [(21, 5)],
  ends [(23, 5)],
  reads [(52, 5)] [(.closeParen, 169)],
  ends [(53, 5)],
  ⟨[(46, 2)], exprShifts, (.expr, 170) :: termGotos⟩,
  ends [(45, 2)],
  ends [(25, 5)],
  -- 150
  ends [(34, 3)],
  ends [(38, 2)],
  ends [(39, 2)],
  ends [(30, 3)],
  ends [(86, 4)],
  ends [(70, 3)],
  ends [(74, 3)],
  ends [(90, 4)],
  reads [(46, 1), (91, 4), (95, 2)] [(.comma, 147), (.closeParen, 171)],
  ends [(92, 4)],
  -- 160
  ends [(93, 4)],
  ends [(49, 5)],
  reads [(50, 5)] [(.closeParen, 172)],
  ⟨[(56, 5)], [(.openBracket, 78)], [(.block, 173)]⟩,
  reads [(57, 2), (61, 1)] [(.comma, 174)],
  ⟨[(60, 1)], typeShifts, [(.param, 175), (.typeName, 140)]⟩,
  ends [(62, 2)],
  reads [(65, 5)] [(.closeParen, 176)],
  ends [(66, 5)],
  ends [(52, 6)],
  -- 170
  ends [(46, 3)],
  ends [(91, 5)],
  ⟨[(50, 6)], [(.openBracket, 78)], [(.block, 177)]⟩,
  ends [(56, 6)],
  ⟨[(61, 2)], typeShifts, [(.param, 178), (.typeName, 140)]⟩,
  ends [(60, 2)],
  ends [(65, 6)],
  ends [(50, 7)],
  ends [(61, 3)]]

end FapLang.Grammar

import FapLang.Grammar.Terminal

/-!
The grammar. The children of helper categories for repetition are spliced into the parent. An
optional part that is left out of a list literal or a parameter list leaves one absent child behind.
-/

namespace FapLang.Grammar

inductive Category
  | root
  | start
  | statements
  | statement
  | constDef
  | varDef
  | listDef
  | assignment
  | causeStmt
  | conditions
  | moreConditions
  | condition
  | logicOp
  | block
  | blockItems
  | outputStmt
  | memberAccess
  | outputArgs
  | moreExprs
  | inputCall
  | againStmt
  | repStop
  | listMethodCall
  | listMethod
  | listLiteral
  | funcDef
  | params
  | moreParams
  | param
  | funcCallStmt
  | backStmt
  | expr
  | moreTerms
  | term
  | moreFactors
  | factor
  | memberAccessExpr
  | listAccess
  | mathFuncCall
  | funcCall
  | funcArgs
  | absExpr
  | typeName
  deriving DecidableEq, Repr

namespace Category

def all : List Category := [
  root, start, statements, statement, constDef, varDef, listDef, assignment, causeStmt, conditions,
  moreConditions, condition, logicOp, block, blockItems, outputStmt, memberAccess, outputArgs,
  moreExprs, inputCall, againStmt, repStop, listMethodCall, listMethod, listLiteral, funcDef, params,
  moreParams, param, funcCallStmt, backStmt, expr, moreTerms, term, moreFactors, factor,
  memberAccessExpr, listAccess, mathFuncCall, funcCall, funcArgs, absExpr, typeName]

/-- Helper categories have no tree of their own. -/
def isSpliced : Category → Bool
  | statements | moreConditions | blockItems | moreExprs | moreParams | moreTerms | moreFactors => true
  | _ => false

end Category

inductive Symbol
  | terminal (t : Terminal)
  | category (c : Category)
  deriving DecidableEq, Repr

structure Production where
  category : Category
  /-- The name of the tree. -/
  label : String
  symbols : List Symbol
  /-- Whether a tree without children gets one absent child. -/
  marksAbsence : Bool := false
  deriving Repr

instance : Coe Terminal Symbol := ⟨.terminal⟩

instance : Coe Category Symbol := ⟨.category⟩

open Terminal Category

/-- The alternatives of one category. -/
def alternatives (c : Category) (label : String) (bodies : List (List Symbol)) : List Production :=
  bodies.map fun body => { category := c, label := label, symbols := body }

def statementProductions : List Production :=
  alternatives root "root" [[start, finish]] ++
  alternatives start "start" [[statements, statement], [statements], [statement], []] ++
  alternatives statements "statements"
    [[statement, newline], [statements, statement, newline]] ++
  alternatives statement "statement"
    [[constDef], [varDef], [assignment], [causeStmt], [outputStmt], [inputCall], [againStmt],
      [repStop], [listMethodCall], [listDef], [funcDef], [funcCallStmt], [backStmt]] ++
  alternatives constDef "const_def" [[const, typeName, ident, arrow, expr]] ++
  alternatives varDef "var_def" [[new, typeName, ident, arrow, expr], [new, typeName, ident]] ++
  alternatives listDef "list_def" [[new, list, ident, listArrow, listLiteral]] ++
  alternatives assignment "assignment" [[ident, arrow, expr]] ++
  alternatives causeStmt "cause_stmt"
    [[cause, conditions, block, otherwise, block], [cause, conditions, block]] ++
  alternatives conditions "conditions" [[condition, moreConditions], [condition]] ++
  alternatives moreConditions "more_conditions"
    [[logicOp, condition], [moreConditions, logicOp, condition]] ++
  alternatives condition "condition" [[expr, comparison, expr]] ++
  alternatives logicOp "logic_op" [[Terminal.and], [Terminal.or]] ++
  alternatives block "block" [[openBracket, blockItems, closeBracket], [openBracket, closeBracket]] ++
  alternatives blockItems "block_items"
    [[statement], [newline], [blockItems, statement], [blockItems, newline]] ++
  alternatives outputStmt "output_stmt"
    [[memberAccess, openParen, outputArgs, closeParen], [memberAccess, openParen, closeParen]] ++
  alternatives memberAccess "member_access" [[ident, dot, ident]] ++
  alternatives outputArgs "output_args" [[expr, moreExprs], [expr]] ++
  alternatives moreExprs "more_exprs" [[comma, expr], [moreExprs, comma, expr]] ++
  alternatives inputCall "input_call"
    [[readInput, openParen, quotedText, closeParen],
      [readInputLong, openParen, quotedText, closeParen]] ++
  alternatives againStmt "again_stmt"
    [[again, openParen, expr, closeParen, block],
      [again, openParen, expr, comma, ident, closeParen, block]] ++
  alternatives repStop "rep_stop" [[rep, dot, stop]] ++
  alternatives listMethodCall "list_method_call"
    [[ident, dot, listMethod, openParen, expr, closeParen],
      [ident, dot, listMethod, openParen, closeParen]] ++
  alternatives listMethod "list_method" [[add], [clear]] ++
  alternatives funcDef "func_def" [[function, ident, openParen, params, closeParen, block]] ++
  alternatives params "params" [[param, moreParams], [param]] ++
  [{ category := params, label := "params", symbols := [], marksAbsence := true }] ++
  alternatives moreParams "more_params" [[comma, param], [moreParams, comma, param]] ++
  alternatives param "param" [[typeName, ident]] ++
  alternatives funcCallStmt "func_call_stmt"
    [[ident, openParen, funcArgs, closeParen], [ident, openParen, closeParen]] ++
  alternatives backStmt "back_stmt"
    [[back, dot, value, openParen, expr, closeParen], [back, dot, value, openParen, closeParen]]

def expressionProductions : List Production :=
  alternatives expr "expr" [[term, moreTerms], [term]] ++
  alternatives moreTerms "more_terms" [[addOp, term], [moreTerms, addOp, term]] ++
  alternatives term "term" [[factor, moreFactors], [factor]] ++
  alternatives moreFactors "more_factors" [[mulOp, factor], [moreFactors, mulOp, factor]] ++
  alternatives factor "factor"
    [[number], [quotedText], [ident], [memberAccessExpr], [inputCall], [mathFuncCall], [listLiteral],
      [listAccess], [absExpr], [funcCall], [openParen, expr, closeParen]] ++
  alternatives listLiteral "list_literal"
    [[openBracket, expr, moreExprs, closeBracket], [openBracket, expr, closeBracket]] ++
  [{ category := listLiteral, label := "list_literal", symbols := [openBracket, closeBracket],
     marksAbsence := true }] ++
  alternatives memberAccessExpr "member_access_expr" [[ident, dot, ident]] ++
  alternatives listAccess "list_access" [[ident, openBracket, expr, closeBracket]] ++
  alternatives mathFuncCall "math_func_call"
    [[ident, openParen, expr, moreExprs, closeParen], [ident, openParen, expr, closeParen]] ++
  alternatives funcCall "func_call"
    [[ident, openParen, funcArgs, closeParen], [ident, openParen, closeParen]] ++
  alternatives funcArgs "func_args" [[expr, moreExprs], [expr]] ++
  alternatives absExpr "abs_expr" [[bar, expr, bar]] ++
  alternatives typeName "type_int" [[intType]] ++
  alternatives typeName "type_float" [[floatType]] ++
  alternatives typeName "type_str" [[strType]]

/-- All productions; the first is that of the whole text. -/
def productions : List Production :=
  statementProductions ++ expressionProductions

end FapLang.Grammar

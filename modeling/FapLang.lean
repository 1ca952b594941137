import FapLang.Main
import FapLang.Measure.Bench
import FapLang.Proofs.Assignments
import FapLang.Proofs.BalancedTexts
import FapLang.Proofs.CastOutcomes
import FapLang.Proofs.CommentLines
import FapLang.Proofs.ConditionChains
import FapLang.Proofs.DeclaredTypes
import FapLang.Proofs.DivisionByZero
import FapLang.Proofs.FaultyNames
import FapLang.Proofs.Fingerprints
import FapLang.Proofs.LexicalScoping
import FapLang.Proofs.LineBalance
import FapLang.Proofs.LineNumbers
import FapLang.Proofs.ListLiterals
import FapLang.Proofs.ListMethods
import FapLang.Proofs.LoopScopes
import FapLang.Proofs.LoopStops
import FapLang.Proofs.MissingParts
import FapLang.Proofs.Plateaus
import FapLang.Proofs.RoundLog
import FapLang.Proofs.RankedCalls
import FapLang.Proofs.ScopeChains
import FapLang.Proofs.Summary
import FapLang.Proofs.Tracing
import FapLang.Proofs.UnassignedReads
import FapLang.Proofs.UnusedNames
import FapLang.Proofs.ValidCalls
import FapLang.Proofs.VariableKinds

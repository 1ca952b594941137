import FapLang.Proofs.Run.Reachable

/-!
Call discipline. A visit that returns or fails ends in the scope in which it started; expressions
and calls also leave the result and the return request of the running call as they were.
-/

namespace FapLang

namespace Node

/-- The rules of calls: as an expression, as a statement, and of a built-in function. -/
def callRules : List String := ["func_call", "func_call_stmt", "math_func_call"]

/-- The rules of expressions, of their parts and of conditions. -/
def expressionRules : List String :=
  ["expr", "term", "factor", "member_access_expr", "input_call", "list_literal", "list_access", "abs_expr",
    "func_args", "condition", "conditions", "logic_op"]

def isCall : Node → Bool
  | tree rule _ => callRules.contains rule
  | _ => false

def isExpression : Node → Bool
  | tree rule _ => expressionRules.contains rule
  | token _ _ => true
  | _ => false

/-- Expressions and calls of an accepted text are calm. -/
theorem isCalm_of_isExpression {n : Node} (hn : n.isOrderly = true)
    (hkind : (n.isExpression || n.isCall) = true) : n.isCalm = true := by
  cases n with
  | tree rule cs =>
    have hinactive : ∀ rule ∈ expressionRules ++ callRules, activeRules.contains rule = false := by decide
    refine isCalm_of_isOrderly hn (hinactive rule ?_)
    rw [Bool.or_eq_true] at hkind
    exact List.mem_append.mpr (hkind.imp List.contains_iff_mem.mp List.contains_iff_mem.mp)
  | token terminal text => exact hn
  | absent => rfl
  | plain text => rfl

end Node

namespace Run

open Interp

/-- Started in `s`, the step returns or fails, and leaves `t`. -/
def Interp.Leaves {α : Type} (m : Interp α) (s t : Session) : Prop :=
  ∃ outcome, m.exec s = (outcome, t) ∧ outcome ≠ .error .exhausted

theorem Interp.Follows.course_of_leaves {α : Type} {m : Interp α} {level : Level} (hm : m.Follows level)
    {s t : Session} (hs : Sound s) (h : m.Leaves s t) : Course level s t := by
  obtain ⟨outcome, hexec, hout⟩ := h
  have hend := hm s hs
  rw [hexec] at hend
  cases outcome with
  | ok a => exact hend
  | error stop =>
    cases stop with
    | fault f => exact hend
    | exhausted => exact absurd rfl hout

/-- For every node of an accepted text, in every session that a run can reach. -/
theorem visit_keeps_call_state {code : String} {program : Node} (hparse : Grammar.parse code = .ok program)
    {n : Node} (hn : n.Part program) {s : Session} (hs : Reachable s) (depth : Nat) :
    (∀ t, (visit depth n).Leaves s t → t.current = s.current ∧
      ((n.isExpression || n.isCall) = true → t.result = s.result ∧ t.returning = s.returning)) ∧
    (n.isCall = true → ∀ t, (visitFuncCall (visit depth) n).Leaves s t →
      t.current = s.current ∧ t.result = s.result ∧ t.returning = s.returning) := by
  have horderly := hn.isOrderly (Grammar.isOrderly_of_parse hparse)
  have hvisit := tame_visit depth
  constructor
  · intro t hleaves
    have hcourse := (hvisit.orderly n horderly).course_of_leaves hs.sound hleaves
    refine ⟨(hcourse.frame hs.sound).current, fun hkind ↦ ?_⟩
    have hcalm := Node.isCalm_of_isExpression horderly hkind
    have hcourse := (hvisit.calm n hcalm).course_of_leaves hs.sound hleaves
    exact (hcourse.frame hs.sound).requests rfl
  · intro hcall t hleaves
    have hcalm := Node.isCalm_of_isExpression horderly (by rw [hcall, Bool.or_true])
    have hfollows := follows_visitFuncCall hvisit.calm hvisit.orderly hcalm
    have hframe := (hfollows.course_of_leaves hs.sound hleaves).frame hs.sound
    exact ⟨hframe.current, hframe.requests rfl⟩

/-- A call that fails in the body of a second call, which the body of the first one makes. -/
theorem failing_call_keeps_state :
    ∃ s n f t, Reachable s ∧ n.isCall = true ∧ (visit 30 n).exec s = (.error (.fault f), t) ∧
      t.scopes.size = s.scopes.size + 2 ∧
      t.current = s.current ∧ t.result = s.result ∧ t.returning = s.returning := by
  let s := ((execute "Fuc g(int k)[\nback.value(k - \"a\")\n]\nFuc f(int k)[\nback.value(g(k))\n]").exec
    { Session.fresh with input := none }).2
  let arg : Node := .tree "expr" [.tree "term" [.tree "factor" [.token "NUMBER" "1"]]]
  let n : Node := .tree "func_call_stmt" [.token "IDENT" "f", .tree "func_args" [arg]]
  have hs : Reachable s := Reachable.execute ⟨none, .refl⟩ _
  have hparse : Grammar.parse "f(1)" = .ok (.tree "start" [.tree "statement" [n]]) := by rfl
  have hpart : n.Part (.tree "start" [.tree "statement" [n]]) :=
    .child (.head _) (.child (.head _) (.refl n))
  have hfails : (failed? ((visit 30 n).exec s)).map (·.scopes.size) = some (s.scopes.size + 2) := by
    decide +kernel
  obtain ⟨t, ht, hsize⟩ := Option.map_eq_some_iff.mp hfails
  obtain ⟨f, hexec⟩ := failed?_eq_some ht
  have hkeeps := (visit_keeps_call_state hparse hpart hs 30).1 t ⟨_, hexec, by simp⟩
  exact ⟨s, n, f, t, hs, rfl, hexec, hsize, hkeeps.1, hkeeps.2 rfl⟩

end Run

end FapLang

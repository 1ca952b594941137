import FapLang.Proofs.Run.Remarks

/-!
Calls. The body of a function starts in a session that is known exactly (`Session.entered`), and
after it the caller is put back (`exec_runBody`), so a call is a part of a course of expressions
(`follows_visitFuncCall`).
-/

namespace FapLang

variable {n : Node} {s : Run.Session} {f : Function} {cs : List Node} {id : Nat}

/-- The parts of a calm node are calm. -/
theorem Node.isCalm_of_mem_kids (hn : n.isCalm = true) : ∀ c ∈ n.kids, c.isCalm = true := by
  cases n with
  | tree rule children =>
    rw [Node.isCalm, Bool.and_eq_true, Node.areCalm_iff] at hn
    exact hn.2
  | token | absent | plain => exact fun c hc => absurd hc List.not_mem_nil

theorem Node.isCalm_of_mem_children (hn : n.isCalm = true) (hcs : n.children = .ok cs) : ∀ c ∈ cs, c.isCalm = true := by
  cases n with
  | tree rule children =>
    obtain rfl : children = cs := Except.ok.inj hcs
    exact Node.isCalm_of_mem_kids hn
  | token | absent | plain => simp [Node.children] at hcs

namespace Run

open Interp

/-- A function that is found can be called. -/
theorem knows_of_function? {name : String} {t : Session} (hs : Sound s)
    (h : (function? name).exec s = (.ok (some f), t)) : s.Knows f := by
  obtain ⟨id, hid, hget⟩ := List.exists_of_findSome?_eq_some ((tells_function? name s).answer_eq h).symm
  obtain ⟨hscope, _⟩ := hs.functions id (Session.lt_of_mem_chain hid) _ (Table.mem_of_get? hget)
  have hscope : f.scope = id := hscope
  rw [Session.Knows, hscope]
  exact ⟨hid, name, hget⟩

theorem exec_announce_quiet (hquiet : (s.scope id).modes = .quiet)
    (step : String) (args : List Piece) : (announce id step args).exec s = (.ok (), s) := by
  rw [announce, exec_bind_ok (exec_scopeOf id s), hquiet]
  rfl

theorem exec_announceOutcome_quiet (hquiet : (s.scope id).modes = .quiet)
    (message : List Piece) : (announceOutcome id message).exec s = (.ok (), s) := by
  rw [announceOutcome, exec_bind_ok (exec_scopeOf id s), hquiet]
  rfl

theorem exec_defineVar_quiet (hid : id < s.scopes.size)
    (hquiet : (s.scope id).modes = .quiet) (name : String) (v : Value) :
    (defineVar id name v).exec s = (.ok (), s.bindVar id name v) := by
  have hquiet' : ((s.bindVar id name v).scope id).modes = .quiet := by
    rw [Session.bindVar, Session.scope_setScope_self hid]
    exact hquiet
  rw [defineVar, exec_bind_ok (exec_announce_quiet hquiet _ _),
    exec_bind_ok (show (setScope id _).exec s = (.ok (), s.bindVar id name v) from rfl)]
  exact exec_announceOutcome_quiet hquiet' _

/-- The session with a scope for a call, which the caller does not enter yet. -/
def Session.pushed (s : Session) (scope : Scope) : Session :=
  { s with scopes := s.scopes.push scope }

/-- Parameters are bound in a new scope without a trace. -/
theorem exec_bindAll_pushed (bound : List (String × Value)) (s : Session) {scope : Scope}
    (hquiet : scope.modes = .quiet) :
    (bindAll s.scopes.size bound).exec (s.pushed scope) = (.ok (), s.pushed { scope with
      vars := bound.foldl (fun vars entry => vars.insert entry.1 entry.2) scope.vars }) := by
  induction bound generalizing scope with
  | nil => rfl
  | cons entry rest ih =>
    obtain ⟨name, v⟩ := entry
    have hsize : s.scopes.size < (s.pushed scope).scopes.size := by simp [Session.pushed]
    have hscope : (s.pushed scope).scope s.scopes.size = scope := by
      simp [Session.pushed, Session.scope_eq]
    have hbind : (s.pushed scope).bindVar s.scopes.size name v =
        s.pushed { scope with vars := scope.vars.insert name v } := by
      simp only [Session.bindVar, Session.setScope, Session.pushed, Session.mk.injEq, and_true]
      refine Array.ext_getElem? fun i => ?_
      rw [Array.getElem?_modify, Array.getElem?_push, Array.getElem?_push]
      by_cases hi : i = s.scopes.size
      · rw [if_pos hi.symm, if_pos hi, if_pos hi, Option.map_some]
      · rw [if_neg (Ne.symm hi), if_neg hi, if_neg hi]
    rw [bindAll, exec_bind_ok (exec_defineVar_quiet hsize (by rw [hscope, hquiet]) name v), hbind]
    exact ih hquiet

/-- What a call gives, from the outcome of its body and the session in which the body ended. -/
def Session.returned (caller : Session) : Except Stop Value × Session → Except Stop Value × Session
  | (.ok _, t) => (.ok t.result, t.resumed caller)
  | (.error (.fault f), t) => (.error (.fault f), t.resumed caller)
  | (.error .exhausted, t) => (.error .exhausted, t)

theorem exec_runBody (visit : Visit) (body : Node) (scope : Nat) (s : Session) : (runBody visit body scope).exec s =
      s.returned ((visit body).exec { s with current := scope, result := .none, returning := false }) := by
  rw [runBody, exec_get_bind, exec_bind_ok (show (restore scope .none false).exec s = _ from rfl),
    exec_bind, exec_recover, exec_bind]
  cases (visit body).exec { s with current := scope, result := .none, returning := false } with
  | mk outcome t =>
    cases outcome with
    | ok v => rfl
    | error stop => cases stop <;> rfl

/-- The scope of a call is made, filled and entered in one go. -/
theorem exec_runCall (visit : Visit) (f : Function) (bound : List (String × Value)) (s : Session) :
    (runCall visit f bound).exec s = s.returned ((visit f.body).exec (s.entered f bound)) := by
  have hnew : (newScope f.scope).exec s =
      (.ok s.scopes.size, s.pushed (Scope.empty (some f.scope))) := rfl
  rw [runCall, exec_bind_ok hnew, exec_bind_ok (exec_bindAll_pushed bound s rfl), exec_runBody]
  rfl

theorem Sound.isOrderly_body (hs : Sound s) (hf : s.Knows f) : f.body.isOrderly = true := by
  obtain ⟨hmem, name, hget⟩ := hf
  exact (hs.functions f.scope (Session.lt_of_mem_chain hmem) _ (Table.mem_of_get? hget)).2

theorem isCalm_callArgs (hcs : ∀ c ∈ cs, c.isCalm = true) : ∀ n ∈ callArgs cs, n.isCalm = true := by
  unfold callArgs
  split
  · exact Node.isCalm_of_mem_kids (hcs _ (.tail _ (.head _)))
  · exact fun n hn => hcs n (.tail _ hn)
  · simp

variable {level : Level}

theorem ends_runCall {visit : Visit} (hbody : (visit f.body).Follows .statement)
    (hs : Sound s) (hf : s.Knows f) (bound : List (String × Value)) :
    Ends level s ((runCall visit f bound).exec s) := by
  have hend := hbody _ (hs.entered hf bound)
  rw [exec_runCall]
  rcases hexec : (visit f.body).exec (s.entered f bound) with ⟨stop | v, t⟩ <;> rw [hexec] at hend
  · cases stop with
    | fault g => exact Course.call hf bound hend (.refl _ _)
    | exhausted => exact .inside (.refl _ s) hf bound hend
  · exact Course.call hf bound hend (.refl _ _)

theorem ends_enter {visit : Visit} (hbody : (visit f.body).Follows .statement)
    (hs : Sound s) (hf : s.Knows f) (name : String) (bound : List (String × Value)) :
    Ends .expression s ((enter visit name f bound).exec s) := by
  refine Ends.after (stays_note _) fun _ t _ hnote => ?_
  have ht := hs.of_sameFrame hnote
  refine Ends.bind (ends_runCall hbody ht (hnote.knows hf) bound) fun result u _ hcall => ?_
  exact Follows.after (stays_note _) (fun _ => .pure result) u (hcall.sound ht)

theorem follows_visitAll {visit : Visit} (hcalm : ∀ n : Node, n.isCalm = true → (visit n).Follows .expression)
    {ns : List Node} (hns : ∀ n ∈ ns, n.isCalm = true) : (visitAll visit ns).Follows .expression := by
  have hvisits : (following .expression).Visits visit visit ns := fun n hn => (hcalm n (hns n hn)).keeps
  exact ((lawful_following .expression).visitAll hvisits).1

section Visiting

variable {visit : Visit} (hcalm : ∀ n : Node, n.isCalm = true → (visit n).Follows .expression)
  (horderly : ∀ n : Node, n.isOrderly = true → (visit n).Follows .statement)

include hcalm horderly

theorem ends_callFunction (hs : Sound s) (hf : s.Knows f) (name : String) (hcs : ∀ c ∈ cs, c.isCalm = true) :
    Ends .expression s ((callFunction visit name f cs).exec s) := by
  have hbody := horderly f.body (hs.isOrderly_body hf)
  refine Ends.bind (follows_visitAll hcalm (isCalm_callArgs hcs) s hs) fun args t _ hvisits => ?_
  have ht := hvisits.sound hs
  have hft := hvisits.knows hs hf
  refine Ends.after (stays_itemsOf _) fun params u _ hitems => ?_
  refine Ends.after (.ofExcept _) fun sig w _ hsig => ?_
  have hframe := hitems.trans hsig
  have hw := ht.of_sameFrame hframe
  by_cases hlen : args.length ≠ sig.length
  · rw [if_pos hlen]
    exact Follows.after (stays_report _) (fun _ => .pure _) w hw
  · rw [if_neg hlen]
    refine Ends.after (stays_castArgs name sig _ 1) fun bound? x _ hcast => ?_
    have hx := hw.of_sameFrame hcast
    cases bound? with
    | none => exact Follows.pure _ x hx
    | some bound => exact ends_enter hbody hx ((hframe.trans hcast).knows hft) name bound

theorem follows_visitFuncCall (hn : n.isCalm = true) : (visitFuncCall visit n).Follows .expression := by
  have hB := lawful_following .expression
  suffices hbond : (following .expression).Agrees (visitFuncCall visit n) (visitFuncCall visit n) from hbond.1
  have hkids : (following .expression).Visits visit visit n.kids :=
    fun c hc => (hcalm c (Node.isCalm_of_mem_kids hn c hc)).keeps
  refine hB.begins <| hB.tree fun _ _ => hB.child fun target _ htarget => ?_
  refine hB.after (hB.nameOf (hkids target htarget)) fun name => hB.after (hB.markUsed name) fun _ => ?_
  refine hB.unlessFaulty <| hB.after (hB.isFunction name) fun _ => ?_
  refine Bond.either (Follows.keeps fun s hs => ?_) (hB.blamed _ name hB.done)
  refine Ends.after (lawful_staying.function? name).1 fun f? t hexec hlookup => ?_
  have ht := hs.of_sameFrame hlookup
  cases f? with
  | none => exact Follows.after (stays_report _) (fun _ => .pure _) t ht
  | some f =>
    have hf := hlookup.knows (knows_of_function? hs hexec)
    exact ends_callFunction hcalm horderly ht hf name (Node.isCalm_of_mem_kids hn)

end Visiting

end Run

end FapLang

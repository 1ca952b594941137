import FapLang.Proofs.Constants
import FapLang.Proofs.Run.Bindings
import FapLang.Proofs.Run.Inherited

/-!
What a loop does to the scope in which it runs. Each name keeps its binding there, unless a
statement that binds it was begun; but the repeat variable is bound without asking, and removed
unless the loop is stopped (`loops_spare_all_but_their_variables`).
-/

namespace FapLang.Run

open Interp Grammar

variable {parts : LoopParts}

/-- A name has its binding in a scope, or has become a variable with a number of an iteration. -/
structure Numbered (name : String) (id : Nat) (s t : Session) : Prop where
  size : s.scopes.size ≤ t.scopes.size
  constants : id < s.scopes.size → (t.scope id).constants.get? name = (s.scope id).constants.get? name
  functions : id < s.scopes.size → (t.scope id).functions.get? name = (s.scope id).functions.get? name
  vars : id < s.scopes.size → (t.scope id).vars.get? name = (s.scope id).vars.get? name ∨
    ∃ i : Nat, (t.scope id).vars.get? name = some (.int i)

namespace Numbered

variable {name : String} {id : Nat} {s t u : Session}

theorem of_spared (h : Spared name id s t) : Numbered name id s t :=
  ⟨h.size, fun hid => (h.binding hid).constants, fun hid => (h.binding hid).functions,
    fun hid => .inl (h.binding hid).vars⟩

theorem trans (h1 : Numbered name id s t) (h2 : Numbered name id t u) : Numbered name id s u := by
  have hlt : id < s.scopes.size → id < t.scopes.size := fun hid => Nat.lt_of_lt_of_le hid h1.size
  refine ⟨h1.size.trans h2.size, fun hid => (h2.constants (hlt hid)).trans (h1.constants hid),
    fun hid => (h2.functions (hlt hid)).trans (h1.functions hid), fun hid => ?_⟩
  rcases h2.vars (hlt hid) with hsame | hnum
  · rw [hsame]
    exact h1.vars hid
  · exact .inr hnum

theorem bindVar (name : String) (id : Nat) (s : Session) (i : Nat) :
    Numbered name id s (s.bindVar id name (.int i)) := by
  refine ⟨by rw [Session.bindVar, Session.size_setScope], fun hid => ?_, fun hid => ?_, fun hid => .inr ⟨i, ?_⟩⟩
  · rw [Session.bindVar, Session.scope_setScope_self hid]
  · rw [Session.bindVar, Session.scope_setScope_self hid]
  · rw [Session.bindVar, Session.scope_setScope_self hid, Table.get?_insert, if_pos rfl]

end Numbered

/-- The manner in which a loop over a name runs its iterations. -/
def Manner.numbering (name : String) (id : Nat) : Manner where
  moves := Numbered name id
  stops s _ t := Numbered name id s t
  free := (Manner.sparing name id).free

section Numbering

variable {name : String} {id : Nat}

theorem Manner.sparing_within : (Manner.sparing name id).Within (Manner.numbering name id) :=
  ⟨.of_spared, .of_spared⟩

instance Manner.numbering_lawful : (Manner.numbering name id).Lawful :=
  lawful_of_moves (fun s => .of_spared (.refl name id s)) .trans
    fun hframe hgrowth => .of_spared ((sparing_lawful name id).aside hframe hgrowth)

theorem Manner.numbering_counting : (Manner.numbering name id).Counting name id where
  bind {s} hid i := by
    rw [hid]
    exact .bindVar name id s i

end Numbering

/-- A name is no variable of a scope any more. -/
structure Removed (name : String) (id : Nat) (s t : Session) : Prop where
  vars : (t.scope id).vars.get? name = none
  constants : (t.scope id).constants.get? name = (s.scope id).constants.get? name
  functions : (t.scope id).functions.get? name = (s.scope id).functions.get? name

/-- How a loop over a name leaves its scope. -/
def LoopEnds {α : Type} (name : String) (id : Nat) (s : Session) : Except Stop α × Session → Prop
  | (.ok _, t) => Removed name id s t ∨
      Spared name id s t ∧ t.Reports "Loop times must be a non-negative number"
  | (.error _, t) => Numbered name id s t

section Ends

variable {α β : Type} {name : String} {id : Nat} {s t : Session}

/-- A step of the loop before the last ones. -/
theorem LoopEnds.after {M : Manner} (hwithin : M.Within (.numbering name id)) {m : Interp α} {k : α → Interp β}
    (hm : M.Ends s (m.exec t))
    (hk : ∀ a u, m.exec t = (.ok a, u) → M.Reaches s u → LoopEnds name id s ((k a).exec u)) :
    LoopEnds name id s ((m >>= k).exec t) := by
  rcases hexec : m.exec t with ⟨stop | a, u⟩ <;> rw [hexec] at hm
  · rw [exec_bind_error hexec]
    exact hwithin.stops hm.2
  · rw [exec_bind_ok hexec]
    exact hk a u hexec hm

theorem LoopEnds.pure {m : Interp α} (h : LoopEnds name id s (m.exec t)) (b : β) :
    LoopEnds name id s ((do let _ ← m; return b : Interp β).exec t) := by
  rcases hexec : m.exec t with ⟨stop | a, u⟩ <;> rw [hexec] at h
  · rw [exec_bind_error hexec]
    exact h
  · rw [exec_bind_ok hexec]
    exact h

/-- The repeat variable is removed, and the loop is left. -/
theorem loopEnds_endLoop (hname : name.isEmpty = false) (hs : id < s.scopes.size)
    (ht : (Manner.numbering name id).Reaches s t) (hid : t.current = id) :
    LoopEnds name id s ((endLoop name).exec t) := by
  obtain ⟨u, hremarks, hexec⟩ := exec_dropRepeatVar name t
  have hu := ht.remarks hremarks
  have hcur : u.current = id := hremarks.sameFrame.current.trans hid
  rcases hexec with ⟨-, hexec⟩ | ⟨hunseen, hexec⟩
  · rw [endLoop, exec_bind_ok hexec, hcur]
    have hself := Session.scope_setScope_self (Nat.lt_of_lt_of_le hs hu.2.size)
      (f := fun scope : Scope => { scope with vars := scope.vars.erase name })
    exact .inl ⟨(congrArg (·.vars.get? name) hself).trans (Table.get?_erase_self _ name),
      (congrArg (·.constants.get? name) hself).trans (hu.2.constants hs),
      (congrArg (·.functions.get? name) hself).trans (hu.2.functions hs)⟩
  · -- A name that nothing binds is no variable.
    rw [endLoop, exec_bind_ok hexec]
    have hbinds := hu.1.sound.binds_eq_false ((hremarks.sameFrame.sees_eq name).trans (hunseen hname))
    rw [hcur, Scope.binds, Bool.or_eq_false_iff, Bool.or_eq_false_iff] at hbinds
    exact .inl ⟨Table.get?_of_has_eq_false hbinds.1.1, hu.2.constants hs, hu.2.functions hs⟩

/-- A loop is refused with a message. -/
theorem reports_of_refused {visit : Visit} (h : (beginLoop visit parts).exec s = (.ok none, t)) :
    t.Reports "Loop times must be a non-negative number" := by
  obtain ⟨times, _, -, h⟩ := exec_bind_eq_ok h
  obtain ⟨counts, _, -, h⟩ := exec_bind_eq_ok h
  cases counts with
  | true =>
    obtain ⟨_, _, -, h⟩ := exec_bind_eq_ok h
    cases h
  | false =>
    obtain ⟨_, _, hreport, h⟩ := exec_bind_eq_ok h
    rw [← (Prod.mk.inj h).2, ← (Prod.mk.inj hreport).2]
    exact reports_report _ _

variable {visit : Visit} (hvisit : Beside (Manner.evaluating name id) (Manner.sparing name id) visit)

include hvisit

theorem loopEnds_runLoop (hvar : parts.var = name) (hname : name.isEmpty = false)
    (htimes : Of .expr parts.times) (hblock : Of .block parts.block) (hs : id < s.scopes.size)
    (ht : (Manner.sparing name id).Reaches s t) (hid : t.current = id) :
    LoopEnds name id s ((runLoop visit parts).exec t) := by
  have hact := @Manner.sparing_acting name id
  have hbegin := goes_beginLoop (goes_setBreaking hact.requesting false)
    (hvisit.phrase_within hact (by decide) htimes) t ht.1
  rw [runLoop_eq]
  refine .after Manner.sparing_within (.prepend ht.2 hbegin) fun count? u hexec hu => ?_
  have hcur := (current_of_follows (hvisit.tame.beginLoop htimes.isOrderly) ht.1.sound hexec).trans hid
  cases count? with
  | none => exact .inr ⟨hu.2, reports_of_refused hexec⟩
  | some count =>
    have hcounting : parts.var.isEmpty = false → (Manner.numbering name id).Counting parts.var u.current := by
      rw [hvar, hcur]
      exact fun _ => Manner.numbering_counting
    have hlaps := (hvisit.within Manner.sparing_within).ends_runIterations hblock hu.1 hcounting
    refine .after (.refl _) (.prepend (.of_spared hu.2) (hlaps count 1)) fun _ w hexec' hw => ?_
    have hcur' := current_of_follows (hvisit.tame.runIterations hblock.isOrderly _ 1) hu.1.sound hexec'
    rw [hvar]
    exact loopEnds_endLoop hname hs hw (hcur'.trans hcur)

theorem loopEnds_visitAgain {cs : List Node} (hparts : LoopParts.of cs = .ok parts)
    (hvar : parts.var = name) (hname : name.isEmpty = false) (htimes : Of .expr parts.times)
    (hblock : Of .block parts.block) (hs : Formed s) (hid : s.current = id) :
    LoopEnds name id s ((visitAgain visit (.tree "again_stmt" cs)).exec s) := by
  have hM := Manner.sparing_lawful name id
  refine .after Manner.sparing_within (.quiet ⟨hs, hM.refl s⟩ (quiet_noteStep _)) fun _ t hexec ht => ?_
  rw [exec_bind_ok (exec_childrenOf _ _ t), hparts]
  have hcur := ((quiet_noteStep _).stays.sameFrame hexec).current.trans hid
  exact (loopEnds_runLoop hvisit hvar hname htimes hblock (hid ▸ hs.sound.current) ht hcur).pure Value.none

end Ends

/-- Visits that may be given up are the visits at the same depth where none is given up. -/
theorem lasts_visitUntil (stops : Node → Session → Bool) (depth : Nat) (n : Node) :
    (visitUntil stops depth n).Lasts (visit depth n) := by
  induction depth generalizing n with
  | zero => exact fun s hs => absurd rfl hs
  | succ depth ih =>
    have hnext := (inherited_lasts.visitNode ih n).recover fun f => Interp.fail (hideInternal f)
    intro s hs
    rw [exec_visitUntil_succ] at hs ⊢
    split at hs
    · exact absurd rfl hs
    · rw [if_neg ‹_›]
      exact hnext s hs

/-- However a loop ends, a name has the binding in its scope that it had, if nothing was begun there
that would define or assign it and it is not the repeat variable. That is still the constant and the
function that it was. It is no variable any more once the loop has run to its end, or to a request
to leave it; a loop whose count is refused leaves it as it was, and one that was stopped may leave
the number of an iteration. -/
theorem loops_spare_all_but_their_variables {s : Session} (hs : Arising s) {n : Node} (hn : Of .againStmt n)
    {parts : LoopParts} (hparts : loop? n = some parts) (name : String) (depth : Nat) :
    ∃ outcome t, (visitAgain (visitUntil (rebinds name s.current) depth) n).exec s = (outcome, t) ∧
      (outcome ≠ .error .exhausted → (visitAgain (visit depth) n).exec s = (outcome, t)) ∧
      (name ≠ parts.var ∨ name = "" → SameBinding s t s.current name) ∧
      (name = parts.var → name ≠ "" →
        (t.scope s.current).constants.get? name = (s.scope s.current).constants.get? name ∧
        (t.scope s.current).functions.get? name = (s.scope s.current).functions.get? name ∧
        (∀ v, outcome = .ok v → (t.scope s.current).vars.get? name = none ∨
          SameBinding s t s.current name ∧ t.Reports "Loop times must be a non-negative number") ∧
        ∀ stop, outcome = .error stop →
          (t.scope s.current).vars.get? name = (s.scope s.current).vars.get? name ∨
          ∃ i : Nat, (t.scope s.current).vars.get? name = some (.int i)) := by
  obtain ⟨cs, found, rfl, hof, htimes, hblock⟩ := loop?_of_againStmt hn
  obtain rfl : found = parts := by
    rw [loop?, hof] at hparts
    exact Option.some.inj hparts
  have hvisit := beside_sparing name s.current (fun _ _ h ↦ h) depth
  have hlasts := inherited_lasts.visitAgain (lasts_visitUntil (rebinds name s.current) depth) (.tree "again_stmt" cs) s
  have hlt := hs.formed.sound.current
  cases hexec : (visitAgain (visitUntil (rebinds name s.current) depth) (.tree "again_stmt" cs)).exec s with
  | mk outcome t =>
    rw [hexec] at hlasts
    refine ⟨outcome, t, rfl, hlasts, fun hside ↦ ?_, fun hname hempty ↦ ?_⟩
    · have hrepeats : found.var.isEmpty = false → (Manner.sparing name s.current).Repeating found.var s.current := by
        intro hvar
        refine Manner.sparing_repeating fun hbound ↦ ?_
        rcases hside with hne | rfl
        · exact absurd hbound.symm hne
        · exact absurd hvar (by rw [hbound]; decide)
      have hend := hvisit.ends_visitAgain Manner.sparing_acting hof htimes hblock hs.formed hrepeats
      rw [hexec] at hend
      exact (Manner.Ends.moved hend).binding hlt
    · have hend := loopEnds_visitAgain hvisit hof hname.symm (by simpa using hempty) htimes hblock hs.formed rfl
      rw [hexec] at hend
      cases outcome with
      | ok v =>
        rcases hend with hremoved | ⟨hspared, hreports⟩
        · exact ⟨hremoved.constants, hremoved.functions, fun _ _ ↦ .inl hremoved.vars, by simp⟩
        · have hsame := hspared.binding hlt
          exact ⟨hsame.constants, hsame.functions, fun _ _ ↦ .inr ⟨hsame, hreports⟩, by simp⟩
      | error stop =>
        exact ⟨hend.constants hlt, hend.functions hlt, by simp, fun _ _ ↦ hend.vars hlt⟩

/-- A variable is gone after a loop over its name. -/
theorem variable_removed_by_its_loop :
    ∃ s n, Arising s ∧ ((s.scope 0).vars.get? "i").map Value.kind = some .int ∧
      parse "Again(2, i)[\nk -> i\n]" = .ok (.tree "start" [.tree "statement" [n]]) ∧
      ∃ v t, (visitAgain (visit 30) n).exec s = (.ok v, t) ∧ (t.scope 0).vars.get? "i" = none := by
  let value : Node := .tree "expr" [.tree "term" [.tree "factor" [.token "IDENT" "i"]]]
  let block : Node := .tree "block" [.token "NEWLINE" "\n",
    .tree "statement" [.tree "assignment" [.token "IDENT" "k", value]], .token "NEWLINE" "\n"]
  let times : Node := .tree "expr" [.tree "term" [.tree "factor" [.token "NUMBER" "2"]]]
  let n : Node := .tree "again_stmt" [times, .token "IDENT" "i", block]
  obtain ⟨s, hs, hcurrent, hkind, hok, herrors⟩ : ∃ s, Arising s ∧ s.current = 0 ∧
      ((s.scope 0).vars.get? "i").map Value.kind = some .int ∧
      ((visitAgain (visitUntil (rebinds "i" 0) 30) n).exec s).1.toOption.isSome = true ∧
      ((visitAgain (visitUntil (rebinds "i" 0) 30) n).exec s).2.errors = #[] := by
    refine ⟨_, .execute (.fresh (some [])) (fun _ _ ↦ false) "i -> 5", ?_⟩
    decide +kernel
  have hparse : parse "Again(2, i)[\nk -> i\n]" = .ok (.tree "start" [.tree "statement" [n]]) := by rfl
  have hn : Of .againStmt n := (of_parse_statement hparse).of_statement (by decide)
  have hparts : loop? n = some ⟨times, "i", block⟩ := rfl
  obtain ⟨outcome, t, hexec, hplain, -, hown⟩ := loops_spare_all_but_their_variables hs hn hparts "i" 30
  rw [hcurrent] at hexec hown
  rw [hexec] at hok herrors
  cases outcome with
  | error stop => simp [Except.toOption] at hok
  | ok v =>
    refine ⟨s, n, hs, hkind, hparse, v, t, hplain (by simp), ?_⟩
    refine ((hown rfl (by decide)).2.2.1 v rfl).resolve_right fun hrefused ↦ ?_
    have hmem := hrefused.2
    rw [Session.Reports, herrors] at hmem
    exact absurd hmem (by simp)

end FapLang.Run

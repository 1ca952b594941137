import FapLang.Proofs.Run.Collected
import FapLang.Proofs.Run.Control

/-!
The run of a text that is accepted goes on in every manner in which its visits do (`Beside.goes_executeWithin`). What
happens before and after the statements only adds to the records.
-/

namespace FapLang.Run

open Interp Grammar

/-- The step only adds to the records, whatever its outcome. -/
def Interp.Grows {α : Type} (m : Interp α) : Prop :=
  ∀ s, Growth s (m.exec s).2

theorem Interp.Grows.of_mild {α : Type} {m : Interp α} (hm : m.Mild) : m.Grows :=
  fun s => (hm s).1

theorem grows_collect_of_parse {code : String} {program : Node} (hparse : parse code = .ok program) :
    (collect program).Grows := by
  intro s
  obtain ⟨t, hexec, hcollected⟩ := collects_collect_of_parse hparse s
  obtain ⟨_, _, rfl⟩ := hcollected.rest
  rw [hexec]
  exact .of_eq rfl rfl rfl

theorem quiet_statementFault (i : Nat) (f : Fault) : (statementFault i f).Quiet :=
  .bind .get fun _ => .ite (quiet_debugIf _ _) (quiet_reportAt _ (ordinary_message f))

theorem quiet_programFailure {message : String} (h : Ordinary message) : (programFailure message).Quiet :=
  .bind .get fun _ => .bind (quiet_debugIf _ _) fun _ => .ite (.pure ()) (quiet_reportAt _ h)

/-- A step whose faults are caught may be any that keeps the frame. -/
theorem Interp.Goes.recover_after {M : Manner} [hM : M.Lawful] {α β : Type} {m : Interp α} {k : α → Interp β}
    {handler : Fault → Interp β} (hstays : m.Stays) (hgrows : m.Grows) (hk : ∀ a, (recover (k a) handler).Goes M)
    (hhandler : ∀ f, (handler f).Goes M) : (recover (m >>= k) handler).Goes M := by
  intro s hs
  have hframe := hstays s
  have hgrowth := hgrows s
  rw [exec_recover, exec_bind]
  cases hexec : m.exec s with
  | mk outcome t =>
    rw [hexec] at hframe hgrowth
    have ht := hs.of_sameFrame hframe
    have hmoves := hM.aside hframe hgrowth
    cases outcome with
    | ok a =>
      have hend := hk a t ht
      rw [exec_recover] at hend
      exact .prepend hmoves hend
    | error stop =>
      cases stop with
      | fault f => exact .prepend hmoves (hhandler f t ht)
      | exhausted => exact ⟨ht, hM.prepend hmoves (hM.exhausted t)⟩

theorem Interp.Goes.recover_children {M : Manner} {α : Type} {rule : String} {cs : List Node}
    {k : List Node → Interp α} {handler : Fault → Interp α} (hk : (recover (k cs) handler).Goes M) :
    (recover (childrenOf (.tree rule cs) >>= k) handler).Goes M :=
  hk

namespace Beside

variable {E M : Manner} (hact : E.Acting M) {visit : Visit} (hvisit : Beside E M visit)

include hact hvisit

theorem goes_visit_item {n : Node} (hn : IsItem n) : (visit n).Goes M := by
  rcases hn with hstmt | ⟨text, rfl⟩
  · exact hvisit.deed .statement (by decide) n hstmt
  · exact (hvisit.token .newline rfl text).within hact.binding.within

variable [M.Lawful]

theorem goes_runTop (i : Nat) {n : Node} (hn : IsItem n) : (runTop visit i n).Goes M := by
  refine .after (quiet_setLine i) fun _ => .after .get fun _ => .after (quiet_debugIf _ _) fun _ => ?_
  refine .recover (.bind (hvisit.goes_visit_item hact hn) fun _ => .pure _) fun f => ?_
  exact (quiet_statementFault i f).goes

theorem goes_runProgram {ns : List Node} (hns : ∀ n ∈ ns, IsItem n) (i : Nat) : (runProgram visit i ns).Goes M := by
  induction ns generalizing i with
  | nil => exact .pure ()
  | cons n rest ih =>
    refine .bind (hvisit.goes_runTop hact i (hns n (.head _))) fun _ => ?_
    exact ih (fun m hm => hns m (List.mem_cons_of_mem n hm)) (i + 1)

/-- The run of a text that is accepted. -/
theorem goes_executeWithin {code : String} {program : Node} (hparse : parse code = .ok program) :
    (executeWithin visit code).Goes M := by
  have hfail : ∀ f : Fault, (programFailure f.message).Goes M :=
    fun f => (quiet_programFailure (ordinary_message f)).goes
  obtain ⟨items, rfl, hitems⟩ := (of_parse hparse).start_inv
  refine .after quiet_clearNotes fun _ => .after .get fun _ => .after (quiet_debugIf _ _) fun _ => ?_
  rw [hparse]
  refine .recover_after .get (.of_mild .get) (fun _ => ?_) hfail
  refine .recover_children (.recover_after (quiet_debugIf _ _).stays (.of_mild (quiet_debugIf _ _).mild) (fun _ => ?_) hfail)
  refine .recover_after (lawful_staying.collect _).1 (grows_collect_of_parse hparse) (fun _ => .recover ?_ hfail) hfail
  refine .after (quiet_debugIf _ _) fun _ => .after (quiet_setLine 1) fun _ => ?_
  refine .bind (hvisit.goes_runProgram hact hitems 1) fun _ => .after quiet_checkUnused fun _ => ?_
  exact .after .get fun _ => (quiet_flushNotes _).goes

end Beside

end FapLang.Run

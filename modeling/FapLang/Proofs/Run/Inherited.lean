import FapLang.Proofs.Run.Backing

/-!
Relations that steps inherit from visits. A relation that is kept by the ways to build steps
(`Inherited`) holds of the steps of two visitors if it holds of their visits
(`Inherited.visitNode`), for instance that a step ends as another does unless that is cut off
(`Interp.Lasts`).
-/

namespace FapLang.Run

open Interp

/-- A relation of steps if it holds of their visits, as long as the first visits obey a contract
that asks for nothing. -/
structure InheritedUnder (C : Contract) (R : (α : Type) → Interp α → Interp α → Prop) : Prop extends C.Open where
  pre (s : Session) : C.Pre s
  knows (name : String) (f : Function) : C.knows name f
  related {α : Type} {m : Interp α} (h : m.Obeys C) : R α m m
  bind {α β : Type} {ok : α → Prop} {m m' : Interp α} {k k' : α → Interp β} (h : R α m m')
    (hm : ∀ s a t, m.exec s = (.ok a, t) → ok a) (hk : ∀ a, ok a → (k a).Obeys C ∧ R β (k a) (k' a)) :
    R β (m >>= k) (m' >>= k')
  tidy {m m' : Interp Unit} {rest : Interp Unit} (hrest : rest.Obeys C) (h : R Unit m m') :
    R Unit (recover m fun f => do rest; Interp.fail f) (recover m' fun f => do rest; Interp.fail f)

namespace InheritedUnder

variable {C : Contract} {R : (α : Type) → Interp α → Interp α → Prop}

/-- The bond between steps that are related, the first of which obeys the contract. -/
def bond (C : Contract) (R : (α : Type) → Interp α → Interp α → Prop) : Bond where
  admits _ := True
  knows := C.knows
  rel ok m m' := C.bond.rel ok m m' ∧ R _ m m'

variable (hR : InheritedUnder C R)

include hR

theorem keeps {α : Type} {m : Interp α} (h : C.bond.Keeps m) : (bond C R).Keeps m :=
  ⟨h, hR.related h.1⟩

theorem lawful : (bond C R).Lawful where
  pure ha := have h := hR.toFair.lawful.pure ha; ⟨h, hR.related h.1⟩
  fail f := have h := hR.toFair.lawful.fail f; ⟨h, hR.related h.1⟩
  bind hm hk := ⟨hR.toFair.lawful.bind hm.1 fun a ha => (hk a ha).1,
    hR.bind hm.2 (fun s a t hexec => hm.1.2 s a t (hR.pre s) hexec) fun a ha => ⟨(hk a ha).1.1, (hk a ha).2⟩⟩
  recover hm hhandler := hR.keeps (hR.toFair.lawful.recover hm.1 fun f => (hhandler f).1)
  look hk := by
    have := hR.toFair
    have hk := fun s => hk s s ⟨.refl s, fun _ _ _ => trivial, fun _ _ _ => trivial, fun _ _ _ => trivial,
      fun _ _ _ => hR.knows _ _⟩
    refine ⟨⟨.bind .get fun s => (hk s).1.1, .look fun s _ => (hk s).1.2⟩, ?_⟩
    exact hR.bind (hR.related .get) (fun _ _ _ _ => trivial) fun s _ => ⟨(hk s).1.1, (hk s).2⟩
  noteStep step := hR.keeps (hR.toFair.lawful.noteStep step)
  note h rest := hR.keeps (hR.toFair.lawful.note h rest)
  report message := hR.keeps (hR.toFair.lawful.report message)
  blaming message name := hR.keeps (hR.toFair.lawful.blaming message name)
  lament message name := hR.keeps (hR.toFair.lawful.lament message name)
  markUsed name := hR.keeps (hR.toFair.lawful.markUsed name)
  markDefined name := hR.keeps (hR.toFair.lawful.markDefined name)
  newList h := hR.keeps (hR.toFair.lawful.newList h)
  announce id step name := hR.keeps (hR.toFair.lawful.announce id step name)
  announceOutcome id _ h := hR.keeps (hR.toFair.lawful.announceOutcome id h)
  readLine message := hR.keeps (hR.toFair.lawful.readLine message)
  short _ := trivial
  castInt _ _ := trivial

theorem calling : (bond C R).Calling where
  toLawful := hR.lawful
  markAssigned name := hR.keeps (hR.toFair.calling.markAssigned name)
  setItems cell _ hf := hR.keeps (hR.toFair.calling.setItems cell hf)
  define name _ hv := hR.keeps (hR.toFair.calling.define name hv)
  setValue name _ hv := hR.keeps (hR.toFair.calling.setValue name hv)
  dropVar name := hR.keeps (hR.toFair.calling.dropVar name)
  setBreaking b := hR.keeps (hR.toFair.calling.setBreaking b)
  setResult v := hR.keeps (hR.toFair.calling.setResult v)
  setReturning := hR.keeps hR.toFair.calling.setReturning
  count _ _ _ _ := trivial
  defineVar id name _ hv := hR.keeps (hR.toFair.calling.defineVar id name hv)
  defineConst id name _ hv := hR.keeps (hR.toFair.calling.defineConst id name hv)
  newScope parent := hR.keeps (hR.toFair.calling.newScope parent)
  restore scope result returning := hR.keeps (hR.toFair.calling.restore scope result returning)
  tidy hm _ hrest := ⟨hR.toFair.calling.tidy hm.1 hrest.1, hR.tidy hrest.1.1 hm.2⟩

theorem plain : (bond C R).Plain where
  toLawful := hR.lawful
  any _ := trivial
  currentMethod := hR.keeps hR.toFair.plain.currentMethod
  visitLogicOp n := hR.keeps (hR.toFair.plain.visitLogicOp n)
  noteResult h rest v := hR.keeps (hR.toFair.plain.noteResult h rest v)

variable {first second : Visit} (h : ∀ n, (first n).Obeys C ∧ R Value (first n) (second n))

include h

omit hR in
theorem visits (ns : List Node) : (bond C R).Visits first second ns :=
  fun n _ => ⟨⟨(h n).1, .any⟩, (h n).2⟩

theorem supports (n : Node) : (bond C R).Supports first second n := by
  intro m _
  have hcall := hR.calling.visitFuncCall (visits h m.kids) (visits h _) fun _ _ _ _ f _ =>
    visits h [f.body] _ (.head _)
  exact ⟨visits h _, fun _ => visits h _, fun _ severity message => hR.keeps (hR.writeMessage severity message).keeps,
    fun name _ v => hR.keeps (hR.warnUnassigned name v).keeps, fun _ => hcall, fun _ _ _ _ _ _ => hcall,
    fun _ => hR.calling.visitConstDef (visits h _),
    fun _ _ _ _ _ _ _ _ => hR.keeps (hR.toFair.settleFunction fun _ _ => hR.knows _ _).keeps⟩

/-- The steps of two visitors are related as their visits are. -/
theorem visitNode (n : Node) : (visitNode first n).Obeys C ∧ R _ (visitNode first n) (visitNode second n) := by
  have hbond : (bond C R).rel (fun _ => True) (Run.visitNode first n) (Run.visitNode second n) := by
    refine hR.plain.visitNode fun name hfits default hdefault => ?_
    refine hR.calling.namedStep hfits (hR.supports h n) hdefault (fun _ => hR.plain.visitLogicOp n) fun _ => ?_
    exact hR.plain.visitListMethodCall hR.calling.toBinding (visits h _)
  exact ⟨hbond.1.1, hbond.2⟩

end InheritedUnder

/-- A relation that holds of two steps if it holds of the visits they are built from. -/
structure Inherited (R : (α : Type) → Interp α → Interp α → Prop) : Prop where
  refl {α : Type} (m : Interp α) : R α m m
  bind {α β : Type} {m m' : Interp α} {k k' : α → Interp β} (h : R α m m')
    (hk : ∀ a, R β (k a) (k' a)) : R β (m >>= k) (m' >>= k')
  tidy {α : Type} {m m' : Interp α} (rest : Interp Unit) (h : R α m m') :
    R α (recover m fun f => do rest; Interp.fail f) (recover m' fun f => do rest; Interp.fail f)

/-- The contract that all steps obey. -/
def Contract.idle : Contract where
  holds _ := True
  post _ _ _ := True
  knows _ _ := True

theorem obeys_idle {α : Type} (m : Interp α) : m.Obeys .idle :=
  fun _ _ => ⟨⟨trivial, fun _ _ _ => trivial⟩, trivial⟩

instance Contract.idle_open : Contract.idle.Open := by
  have hallows : ∀ s t, Contract.idle.Allows s t := fun _ _ _ => ⟨trivial, trivial⟩
  have : Contract.idle.Fair := ⟨fun _ => trivial, fun _ _ => trivial, fun _ => trivial, fun _ _ => trivial,
    fun _ => hallows _ _, fun _ _ _ => hallows _ _, fun _ _ => hallows _ _, fun _ _ => hallows _ _, fun _ _ => hallows _ _,
    fun _ _ => hallows _ _, fun _ _ _ _ _ => hallows _ _, fun _ _ _ _ => hallows _ _, fun _ _ => hallows _ _⟩
  exact ⟨fun _ _ => hallows _ _, fun _ _ _ _ _ _ => hallows _ _, fun _ _ => hallows _ _, fun _ => hallows _ _⟩

namespace Inherited

variable {R : (α : Type) → Interp α → Interp α → Prop} (hR : Inherited R)

include hR

/-- The second of two steps has to be related only for what the first may return. -/
theorem bind_ok {α β : Type} {ok : α → Prop} {m m' : Interp α} {k k' : α → Interp β} (h : R α m m')
    (hm : ∀ s a t, m.exec s = (.ok a, t) → ok a) (hk : ∀ a, ok a → R β (k a) (k' a)) : R β (m >>= k) (m' >>= k') := by
  classical
  have hsame : (m >>= k) = m >>= fun a => if ok a then k a else k' a := by
    refine funext fun s => ?_
    change (m >>= k).exec s = (m >>= _).exec s
    rcases hexec : m.exec s with ⟨stop | a, t⟩
    · rw [exec_bind_error hexec, exec_bind_error hexec]
    · rw [exec_bind_ok hexec, exec_bind_ok hexec, if_pos (hm s a t hexec)]
  rw [hsame]
  refine hR.bind h fun a => ?_
  by_cases ha : ok a
  · rw [if_pos ha]
    exact hk a ha
  · rw [if_neg ha]
    exact hR.refl _

theorem under : InheritedUnder .idle R where
  toOpen := Contract.idle_open
  pre _ := ⟨trivial, fun _ _ _ => trivial⟩
  knows _ _ := trivial
  related _ := hR.refl _
  bind h hm hk := hR.bind_ok h hm fun a ha => (hk a ha).2
  tidy _ h := hR.tidy _ h

variable {first second : Visit} (h : ∀ n, R Value (first n) (second n))

include h

/-- The steps of two visitors are related as their visits are. -/
theorem visitNode (n : Node) : R _ (visitNode first n) (visitNode second n) :=
  (hR.under.visitNode (fun n => ⟨obeys_idle _, h n⟩) n).2

theorem visitAgain (n : Node) : R _ (visitAgain first n) (visitAgain second n) := by
  have hvisits := InheritedUnder.visits (C := .idle) fun n => ⟨obeys_idle _, h n⟩
  exact (hR.under.calling.visitAgain (hvisits _) fun _ _ => hR.under.calling.visitBlock (hvisits _)).2

/-- A relation that stays when faults are caught is inherited by the runs of texts. -/
theorem executeWithin (hrecover : ∀ {m m' : Interp Unit} (handler : Fault → Interp Unit), R Unit m m' →
    R Unit (recover m handler) (recover m' handler)) (code : String) :
    R Unit (executeWithin first code) (executeWithin second code) := by
  have hprog : ∀ ns i, R Unit (runProgram first i ns) (runProgram second i ns) := by
    intro ns
    induction ns with
    | nil => exact fun i => hR.refl _
    | cons n rest ih =>
      refine fun i => hR.bind (hR.bind (hR.refl _) fun _ => hR.bind (hR.refl _) fun _ => ?_) fun _ => ih (i + 1)
      exact hR.bind (hR.refl _) fun _ => hrecover _ (hR.bind (h n) fun _ => hR.refl _)
  refine hR.bind (hR.refl _) fun _ => hR.bind (hR.refl _) fun _ => hR.bind (hR.refl _) fun _ => ?_
  cases Grammar.parse code with
  | error e => exact hR.refl _
  | ok program =>
    refine hrecover _ (hR.bind (hR.refl _) fun _ => hR.bind (hR.refl _) fun ns => hR.bind (hR.refl _) fun _ => ?_)
    refine hR.bind (hR.refl _) fun _ => hR.bind (hR.refl _) fun _ => hR.bind (hR.refl _) fun _ => ?_
    exact hR.bind (hprog ns 1) fun _ => hR.refl _

end Inherited

variable {α β : Type}

/-- Where the first step is not cut off, the second one ends as it does. -/
def Interp.Lasts (m m' : Interp α) : Prop :=
  ∀ s, (m.exec s).1 ≠ .error .exhausted → m'.exec s = m.exec s

namespace Interp.Lasts

protected theorem refl (m : Interp α) : m.Lasts m :=
  fun _ _ => rfl

protected theorem bind {m m' : Interp α} {k k' : α → Interp β} (h : m.Lasts m') (hk : ∀ a, (k a).Lasts (k' a)) :
    (m >>= k).Lasts (m' >>= k') := by
  intro s hs
  cases hexec : m.exec s with
  | mk outcome t =>
    have hm := h s
    rw [hexec] at hm
    cases outcome with
    | ok a =>
      rw [exec_bind_ok hexec] at hs
      rw [exec_bind_ok hexec, exec_bind_ok (hm (by simp))]
      exact hk a t hs
    | error stop =>
      rw [exec_bind_error hexec] at hs
      have hstop : stop ≠ .exhausted := fun hstop => hs (congrArg Except.error hstop)
      rw [exec_bind_error hexec, exec_bind_error (hm fun h => hstop (Except.error.inj h))]

protected theorem recover {m m' : Interp α} (h : m.Lasts m') (handler : Fault → Interp α) :
    (Interp.recover m handler).Lasts (Interp.recover m' handler) := by
  intro s hs
  have hm : (m.exec s).1 ≠ .error .exhausted := by
    intro hcut
    rw [exec_recover, show m.exec s = (.error .exhausted, (m.exec s).2) from Prod.ext hcut rfl] at hs
    exact hs rfl
  rw [exec_recover, exec_recover, h s hm]

end Interp.Lasts

theorem inherited_lasts : Inherited fun _ m m' => m.Lasts m' where
  refl := .refl
  bind := .bind
  tidy _ h := h.recover _

/-- A visit that is not cut off ends the same way at every greater depth. -/
theorem lasts_visit {depth deeper : Nat} (h : depth ≤ deeper) (n : Node) : (visit depth n).Lasts (visit deeper n) := by
  induction depth generalizing deeper n with
  | zero => exact fun s hs => absurd rfl hs
  | succ depth ih =>
    obtain ⟨deeper, rfl⟩ : ∃ d, deeper = d + 1 := ⟨deeper - 1, by omega⟩
    exact (inherited_lasts.visitNode (fun c => ih (Nat.le_of_succ_le_succ h) c) n).recover _

end FapLang.Run

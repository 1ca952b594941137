import Mathlib.Data.List.Forall2
import FapLang.Proofs.Run.Statements

/-!
Calls with valid arguments. An argument is cast under a made-up name, and a faulty name is never
cast for. So a call with arguments that can all be cast runs the body, with the casts as parameters,
exactly if none of these names is faulty (`valid_calls_run_unless_blamed`).
-/

namespace FapLang.Run

open Interp Grammar

variable {s t : Session} {i : Nat} {name type : String} {v w : Value}
variable {pairs : List (Value × Value)} {bound : List (String × Value)}

/-! ### Casts -/

/-- The value can be cast to the type, for no name, and becomes `w`. -/
def Session.Casts (s : Session) (v : Value) (type : String) (w : Value) : Prop :=
  (∃ t, (cast v type "").exec s = (.ok w, t)) ∧ w.isNone = false

theorem Session.Casts.castBy (h : s.Casts v type w) : v.castBy s.cells type = .ok w := by
  obtain ⟨⟨t, hexec⟩, hw⟩ := h
  exact (castBy_of_cast hexec hw).2.1

/-- A cast that can be made is made for every name without an error. -/
theorem tells_cast (h : s.Casts v type w) (hname : s.faulty.contains name = false) : (cast v type name).Tells s w :=
  tells_cast_of_castBy (by rw [Session.shuns, hname, Bool.and_false]) h.castBy

/-- No cast is made for a name with an error. -/
theorem tells_cast_of_faulty (hname : s.faulty.contains name = true)
    (hne : name.isEmpty = false) (v : Value) (type : String) : (cast v type name).Tells s .none := by
  obtain ⟨u, hu, hcast⟩ := exec_cast v type name s
  rw [Session.shuns, hname, hne] at hcast
  exact ⟨u, hcast, hu⟩

theorem Remarks.casts (h : Remarks s t) (hs : s.Casts v type w) : t.Casts v type w := by
  have hby := hs.castBy
  rw [← h.cells_eq] at hby
  obtain ⟨u, hexec, -⟩ := tells_cast_of_castBy (show t.shuns "" = false from rfl) hby
  exact ⟨⟨u, hexec⟩, hs.2⟩

/-! ### Arguments -/

/-- A parameter with its type, the value that is passed for it, and what it is bound to. -/
structure Passed where
  param : String
  type : String
  value : Value
  bound : Value

/-- The names and types of parameters. -/
def signatureOf (passed : List Passed) : List (Value × Value) :=
  passed.map fun p ↦ (.text p.param, .text p.type)

/-- The last type that is declared for a name. -/
def countedType? (name : String) : List Passed → Option String
  | [] => none
  | p :: rest => (countedType? name rest).or (if p.param = name then some p.type else none)

theorem isSome_countedType? (name : String) (passed : List Passed) :
    (countedType? name passed).isSome = passed.any fun p => p.param == name := by
  induction passed with
  | nil => rfl
  | cons p rest ih =>
    rw [countedType?, Option.isSome_or, ih, List.any_cons, Bool.or_comm]
    by_cases hname : p.param = name
    · simp [hname]
    · simp [hname]

/-- Of the types declared for a name the last one counts. -/
theorem lastType_signatureOf (cells : Cells) {passed : List Passed}
    (h : countedType? name passed = some type) : lastType cells (.text name) (signatureOf passed) = .text type := by
  induction passed with
  | nil => simp [countedType?] at h
  | cons p rest ih =>
    have hany : ((signatureOf rest).any fun pair => pair.1.equal cells (.text name)) =
        (countedType? name rest).isSome := by
      rw [isSome_countedType?, signatureOf, List.any_map]
      rfl
    rw [countedType?] at h
    change (if ((signatureOf rest).any fun pair => pair.1.equal cells (.text name)) = true then
      lastType cells (.text name) (signatureOf rest) else if (p.param == name) = true then Value.text p.type
      else lastType cells (.text name) (signatureOf rest)) = _
    rw [hany]
    cases hrest : countedType? name rest with
    | some other =>
      rw [hrest, Option.some_or] at h
      rw [Option.isSome_some, if_pos rfl]
      exact ih (hrest.trans h)
    | none =>
      rw [hrest, Option.none_or] at h
      rw [Option.isSome_none, if_neg Bool.false_ne_true]
      by_cases hname : p.param = name
      · rw [if_pos hname] at h
        rw [if_pos (beq_iff_eq.mpr hname), Option.some.inj h]
      · rw [if_neg hname] at h
        cases h

/-- The name under which an argument is cast. -/
def argumentName (function : String) (i : Nat) : String :=
  function ++ " argument " ++ toString i

theorem isEmpty_argumentName (function : String) (i : Nat) : (argumentName function i).isEmpty = false := by
  rw [Bool.eq_false_iff, ne_eq, String.isEmpty_iff, argumentName]
  intro h
  have htext := congrArg String.toList h
  simp at htext

theorem shown_join (v : Value) (cells : Cells) :
    String.join ([Piece.val v].map (·.shown cells)) = v.shown cells := by
  simp [Piece.shown, String.join_cons, String.join_nil]

theorem tells_strOf {v : Value} (h : s.Writes [.val v]) : (strOf v).Tells s (v.shown s.cells) := by
  rw [← shown_join]
  exact tells_format h

/-- Only what can be written has a text. -/
theorem writes_of_strOf {v : Value} {text : String} (h : (strOf v).exec s = (.ok text, t)) :
    s.Writes [.val v] ∧ text = v.shown s.cells ∧ Remarks s t := by
  by_cases hv : s.Writes [.val v]
  · obtain ⟨u, hexec, hu⟩ := tells_strOf hv
    obtain ⟨htext, rfl⟩ := Prod.mk.inj (hexec.symm.trans h)
    exact ⟨hv, (Except.ok.inj htext).symm, hu⟩
  · rw [strOf, format, exec_bind_error (exec_checkWritable_of_not_writes hv)] at h
    cases h

/-- The name that a value stands for does not depend on remarks. -/
theorem says_nameOfValue {v : Value} {text : String} (h : (nameOfValue v).exec s = (.ok text, t)) :
    Remarks s t ∧ ∀ u, Remarks s u → (nameOfValue v).Tells u text := by
  rw [nameOfValue.eq_def] at h ⊢
  split at h
  · obtain ⟨htext, rfl⟩ := Prod.mk.inj h
    cases htext
    exact ⟨.refl _, fun u _ ↦ .of_pure _ u⟩
  iterate 3 cases h
  · obtain ⟨hv, rfl, ht⟩ := writes_of_strOf h
    exact ⟨ht, fun u hu ↦ by rw [← hu.cells_eq]; exact tells_strOf (hu.writes hv)⟩

section Cast

variable {function : String} {sig : List (Value × Value)} {s : Session}

/-- A parameter is bound to the cast of its argument, which is made under a name without an error.
-/
structure Session.Passes (s : Session) (made : String) (sig : List (Value × Value))
    (pair : Value × Value) (entry : String × Value) : Prop where
  clean : s.faulty.contains made = false
  typed : s.Writes [.val (lastType s.cells pair.1 sig)]
  cast : pair.2.castBy s.cells ((lastType s.cells pair.1 sig).shown s.cells) = .ok entry.2
  some : entry.2.isNone = false
  named : ∀ t, Remarks s t → (nameOfValue pair.1).Tells t entry.1

/-- Every parameter is bound to the cast of its argument; the first one has the number `i`. -/
def Session.PassesAll (s : Session) (function : String) (sig : List (Value × Value)) (i : Nat)
    (pairs : List (Value × Value)) (bound : List (String × Value)) : Prop :=
  List.Forall₂ (fun pair entry ↦ s.Passes (argumentName function pair.2) sig pair.1 entry)
    (pairs.zipIdx i) bound

theorem Remarks.passes {made : String} {pair : Value × Value} {entry : String × Value}
    (h : Remarks s t) (hs : s.Passes made sig pair entry) : t.Passes made sig pair entry where
  clean := h.faulty_eq ▸ hs.clean
  typed := by
    rw [h.cells_eq]
    exact h.writes hs.typed
  cast := by
    rw [h.cells_eq]
    exact hs.cast
  some := hs.some
  named u hu := hs.named u (h.trans hu)

theorem Remarks.passesAll
    (h : Remarks s t) (hs : s.PassesAll function sig i pairs bound) :
    t.PassesAll function sig i pairs bound :=
  List.Forall₂.imp (fun _ _ ↦ h.passes) hs

/-- The cast of one argument, before the next ones. -/
theorem exec_castArgs_cons {pair : Value × Value} {entry : String × Value}
    (h : s.Passes (argumentName function i) sig pair entry) (rest : List (Value × Value)) :
    ∃ t, Remarks s t ∧ ∀ others? u, (castArgs function sig (i + 1) rest).exec t = (.ok others?, u) →
      (castArgs function sig i (pair :: rest)).exec s = (.ok (others?.map (entry :: ·)), u) := by
  obtain ⟨s1, htype, hs1⟩ := tells_strOf h.typed
  have hshuns : s1.shuns (argumentName function i) = false := by
    rw [Session.shuns, hs1.faulty_eq, h.clean, Bool.and_false]
  have hby := h.cast
  rw [← hs1.cells_eq] at hby
  obtain ⟨s2, hcast, hs2⟩ := tells_cast_of_castBy hshuns hby
  rw [hs1.cells_eq] at hcast
  obtain ⟨s3, hname, hs3⟩ := h.named s2 (hs1.trans hs2)
  refine ⟨s3, (hs1.trans hs2).trans hs3, fun others? u hothers ↦ ?_⟩
  rw [castArgs, exec_get_bind, exec_bind_ok htype]
  refine (exec_bind_ok hcast).trans ?_
  rw [h.some, if_neg Bool.false_ne_true]
  refine (exec_bind_ok hname).trans ((exec_bind_ok hothers).trans ?_)
  cases others? <;> rfl

/-- Arguments that can be passed are. -/
theorem tells_castArgs_of_passesAll
    (h : s.PassesAll function sig i pairs bound) :
    (castArgs function sig i pairs).Tells s (some bound) := by
  induction pairs generalizing i s bound with
  | nil =>
    cases h
    exact .of_pure _ s
  | cons pair rest ih =>
    rw [Session.PassesAll, List.zipIdx_cons] at h
    cases h with
    | cons hpair hrest =>
      obtain ⟨t, ht, hnext⟩ := exec_castArgs_cons hpair rest
      obtain ⟨u, hothers, hu⟩ := ih (ht.passesAll hrest)
      exact ⟨u, hnext _ u hothers, ht.trans hu⟩

/-- Arguments are bound only as they can be passed. -/
theorem passesAll_of_castArgs
    (h : (castArgs function sig i pairs).exec s = (.ok (some bound), t)) :
    s.PassesAll function sig i pairs bound ∧ Remarks s t := by
  induction pairs generalizing i s t bound with
  | nil =>
    obtain ⟨hbound, rfl⟩ := Prod.mk.inj h
    cases hbound
    exact ⟨.nil, .refl _⟩
  | cons pair rest ih =>
    rw [castArgs, exec_get_bind] at h
    obtain ⟨type, s1, htype, h⟩ := exec_bind_eq_ok h
    obtain ⟨hwrites, rfl, hs1⟩ := writes_of_strOf htype
    obtain ⟨v, s3, hcast, h⟩ := exec_bind_eq_ok h
    split at h
    · obtain ⟨_, s4, _, h⟩ := exec_bind_eq_ok h
      cases h
    next hv =>
    obtain ⟨name, s4, hname, h⟩ := exec_bind_eq_ok h
    obtain ⟨others?, s5, hothers, h⟩ := exec_bind_eq_ok h
    cases others? with
    | none => cases h
    | some others =>
      obtain ⟨hbound, rfl⟩ := Prod.mk.inj h
      cases hbound
      obtain ⟨hshuns, hby, hs3⟩ := castBy_of_cast hcast (Bool.eq_false_iff.mpr hv)
      obtain ⟨hs4, hnamed⟩ := says_nameOfValue hname
      have hs := (hs1.trans hs3).trans hs4
      obtain ⟨hrest, hs5⟩ := ih hothers
      rw [← argumentName, Session.shuns, isEmpty_argumentName, Bool.not_false, Bool.true_and,
        hs1.faulty_eq] at hshuns
      rw [hs1.cells_eq] at hby
      refine ⟨?_, hs.trans hs5⟩
      rw [Session.PassesAll, List.zipIdx_cons]
      exact .cons ⟨hshuns, hwrites, hby, Bool.eq_false_iff.mpr hv, fun u hu ↦
        hnamed u ((hs1.trans hs3).symm.trans hu)⟩ (hs.symm.passesAll hrest)

variable {passed : List Passed}

/-- A parameter is passed what its argument can be cast to. -/
theorem Passed.passes {p : Passed} (hcounts : countedType? p.param passed = some p.type)
    (hcasts : s.Casts p.value p.type p.bound)
    (hclean : s.faulty.contains (argumentName function i) = false) :
    s.Passes (argumentName function i) (signatureOf passed) (.text p.param, p.value) (p.param, p.bound) := by
  have hlast := lastType_signatureOf s.cells hcounts
  exact ⟨hclean, by rw [hlast]; rfl, by rw [hlast]; exact hcasts.castBy, hcasts.2, fun t _ ↦ .of_pure _ t⟩

/-- Arguments that can be cast are cast, if none of their names has an error. -/
theorem tells_castArgs (rest : List Passed)
    (hcasts : ∀ p ∈ rest, countedType? p.param passed = some p.type ∧ s.Casts p.value p.type p.bound)
    (hclean : ∀ j < rest.length, s.faulty.contains (argumentName function (i + j)) = false) :
    (castArgs function (signatureOf passed) i (rest.map fun p => (.text p.param, p.value))).Tells s
      (some (rest.map fun p => (p.param, p.bound))) := by
  induction rest generalizing i s with
  | nil => exact .of_pure _ s
  | cons p rest ih =>
    obtain ⟨hcounts, hcast⟩ := hcasts p (.head _)
    obtain ⟨t, ht, hnext⟩ := exec_castArgs_cons (Passed.passes hcounts hcast (hclean 0 (by simp)))
      (rest.map fun p => (.text p.param, p.value))
    obtain ⟨u, hothers, hu⟩ := ih (s := t) (i := i + 1)
      (fun q hq => ⟨(hcasts q (List.mem_cons_of_mem p hq)).1, ht.casts (hcasts q (List.mem_cons_of_mem p hq)).2⟩)
      (fun j hj => by
        rw [ht.faulty_eq, Nat.add_right_comm, Nat.add_assoc]
        exact hclean (j + 1) (by simpa using hj))
    exact ⟨u, hnext _ u hothers, ht.trans hu⟩

/-- The error of a call whose argument is not cast. -/
def argumentProblem (function : String) (i : Nat) (type : String) : String :=
  "Argument " ++ toString i ++ " of function '" ++ function ++ "' cannot be cast to type '" ++ type ++ "'"

/-- The first argument whose name has an error is not cast, and neither are those after it. -/
theorem exec_castArgs_blamed (before : List Passed) {p : Passed} (after : List Passed)
    (hcasts : ∀ q ∈ before, countedType? q.param passed = some q.type ∧ s.Casts q.value q.type q.bound)
    (hcounts : countedType? p.param passed = some p.type)
    (hclean : ∀ j < before.length, s.faulty.contains (argumentName function (i + j)) = false)
    (hblamed : s.faulty.contains (argumentName function (i + before.length)) = true) :
    ∃ t, (castArgs function (signatureOf passed) i ((before ++ p :: after).map fun q => (.text q.param, q.value))).exec s =
      (.ok none, t) ∧ Remarks ((report (argumentProblem function (i + before.length) p.type)).exec s).2 t := by
  induction before generalizing i s with
  | nil =>
    obtain ⟨s1, htype, hs1⟩ := tells_strOf (s := s) (v := .text p.type) rfl
    have hlast := lastType_signatureOf s.cells hcounts
    have hfaulty : s1.faulty.contains (argumentName function i) = true := by
      rw [hs1.faulty_eq]
      exact hblamed
    obtain ⟨s2, hcast, hs2⟩ := tells_cast_of_faulty hfaulty (isEmpty_argumentName function i) p.value p.type
    refine ⟨((report (argumentProblem function i p.type)).exec s2).2, ?_, (hs1.trans hs2).report _⟩
    rw [List.nil_append, List.map_cons, castArgs, exec_get_bind, hlast, exec_bind_ok htype]
    exact (exec_bind_ok hcast).trans rfl
  | cons q before ih =>
    obtain ⟨hcountsFirst, hcast⟩ := hcasts q (.head _)
    obtain ⟨t, ht, hnext⟩ := exec_castArgs_cons (Passed.passes hcountsFirst hcast (hclean 0 (by simp)))
      ((before ++ p :: after).map fun q => (.text q.param, q.value))
    have hindex : ∀ j, i + 1 + j = i + (j + 1) := fun j => by omega
    obtain ⟨u, hothers, hu⟩ := ih (s := t) (i := i + 1)
      (fun q' hq' => ⟨(hcasts q' (List.mem_cons_of_mem q hq')).1, ht.casts (hcasts q' (List.mem_cons_of_mem q hq')).2⟩)
      (fun j hj => by
        rw [ht.faulty_eq, hindex]
        exact hclean (j + 1) (by simpa using hj))
      (by
        rw [ht.faulty_eq, hindex]
        exact hblamed)
    rw [hindex] at hu
    exact ⟨u, hnext _ u hothers, (ht.report _).trans hu⟩

end Cast

/-! ### Calls -/

theorem get?_foldl_insert_of_not_mem (h : ∀ entry ∈ bound, entry.1 ≠ name)
    (table : Table Value) :
    (bound.foldl (fun vars entry => vars.insert entry.1 entry.2) table).get? name = table.get? name := by
  induction bound generalizing table with
  | nil => rfl
  | cons entry rest ih =>
    rw [List.foldl_cons, ih fun other hother => h other (List.mem_cons_of_mem entry hother), Table.get?_insert,
      if_neg (h entry (.head _)).symm]

/-- A parameter is bound to its value; of several with one name the last one counts. -/
theorem get?_calleeScope (f : Function) (before : List (String × Value))
    {after : List (String × Value)} (h : ∀ entry ∈ after, entry.1 ≠ name) :
    (calleeScope f (before ++ (name, v) :: after)).vars.get? name = some v := by
  rw [calleeScope, List.foldl_append, List.foldl_cons, get?_foldl_insert_of_not_mem h, Table.get?_insert, if_pos rfl]

section Calls

variable (visit : Visit) {s : Session} {name : String} {f : Function}

/-- The call of a function that is visible and has no error comes to its arguments. -/
theorem exec_visitFuncCall (rule kind : String) (cs : List Node) (hclean : s.faulty.contains name = false)
    (hf : s.function? name = some f) : ∃ t, Remarks { s with used := s.used.insert name } t ∧
      (visitFuncCall visit (.tree rule (.token kind name :: cs))).exec s =
        (callFunction visit name f (.token kind name :: cs)).exec t := by
  obtain ⟨s1, hnote, notes, events, rfl⟩ := tells_noteStep "visit_func_call" s
  let s2 : Session := { s with used := s.used.insert name, notes := notes, events := events }
  obtain ⟨s3, hisFunction, hs3⟩ := tells_isFunction name s2
  obtain ⟨s4, hfun, hs4⟩ := tells_function? name s3
  have hvisible : s2.function? name = some f := hf
  have hvisible3 : s3.function? name = some f := by
    obtain ⟨_, _, rfl⟩ := hs3
    exact hf
  rw [hvisible, Option.isSome_some] at hisFunction
  rw [hvisible3] at hfun
  refine ⟨s4, .trans ⟨notes, events, rfl⟩ (hs3.trans hs4), ?_⟩
  rw [visitFuncCall, exec_bind_ok hnote]
  refine (exec_bind_ok (exec_childrenOf _ _ _)).trans ?_
  refine (exec_bind_ok (show (child (.token kind name :: cs) 0).exec _ = (.ok (.token kind name), _) from rfl)).trans ?_
  refine (exec_bind_ok (exec_nameOf visit _ _ _)).trans ?_
  refine (exec_bind_ok (show (markUsed name).exec _ = (.ok (), s2) from rfl)).trans ?_
  rw [exec_bind_ok (exec_isFaulty name s2), show s2.faulty.contains name = false from hclean,
    if_neg Bool.false_ne_true, exec_bind_ok hisFunction, if_pos rfl, exec_bind_ok hfun]

/-- The arguments are visited, and then they are cast. -/
theorem exec_callFunction {cs : List Node} {passed : List Passed} {u : Session}
    (hargs : (visitAll visit (callArgs cs)).exec s = (.ok (passed.map (·.value)), u))
    (hsig : signature (u.cells.getD f.params #[]).toList = .ok (signatureOf passed)) {bound? : Option (List (String × Value))}
    (hcast : (castArgs name (signatureOf passed) 1 (passed.map fun p => (.text p.param, p.value))).exec u =
      (.ok bound?, t)) : (callFunction visit name f cs).exec s =
      (bound?.elim (pure .none) (enter visit name f)).exec t := by
  have hzip : ((signatureOf passed).map (·.1)).zip (passed.map (·.value)) =
      passed.map fun p => (.text p.param, p.value) := by
    rw [signatureOf, List.map_map, List.zip_map']
    rfl
  have hlen : ¬ (passed.map (·.value)).length ≠ (signatureOf passed).length := by simp [signatureOf]
  rw [callFunction, exec_bind_ok hargs, exec_bind_ok (exec_itemsOf f.params u), hsig,
    exec_bind_ok (exec_ofExcept_ok _ u), if_neg hlen, hzip, exec_bind_ok hcast]
  cases bound? <;> rfl

end Calls

/-- A call of a function that is visible and has no error, with arguments that can each be cast to
the type of their parameter (the last one declared for its name), runs the body in a scope where
every parameter is bound to the cast of its argument, if no argument has an error under its made-up
name. The first argument that has one ends the call instead: nothing is bound, the body is not run,
and an error is recorded. -/
theorem valid_calls_run_unless_blamed (depth : Nat) (s : Session) (rule kind : String) {name : String} (cs : List Node)
    {f : Function} (hclean : name ∉ s.faulty) (hf : s.function? name = some f) :
    ∃ s₁, Remarks { s with used := s.used.insert name } s₁ ∧ ∀ passed u,
      (visitAll (visit depth) (callArgs (.token kind name :: cs))).exec s₁ = (.ok (passed.map (·.value)), u) →
      signature (u.cells.getD f.params #[]).toList = .ok (signatureOf passed) →
      (∀ p ∈ passed, countedType? p.param passed = some p.type ∧ u.Casts p.value p.type p.bound) →
      let call := visitFuncCall (visit depth) (.tree rule (.token kind name :: cs))
      ((∀ i < passed.length, argumentName name (1 + i) ∉ u.faulty) → u.Writes [.all (passed.map (·.bound))] →
        ∃ t, Remarks u t ∧ let start := t.entered f (passed.map fun p ↦ (p.param, p.bound))
          (∀ before p after, passed = before ++ p :: after → (∀ q ∈ after, q.param ≠ p.param) →
            (start.scope start.current).vars.get? p.param = some p.bound) ∧
          (∀ v w, (visit depth f.body).exec start = (.ok v, w) → w.Writes [.val w.result] →
            ∃ x, call.exec s = (.ok w.result, x) ∧ Remarks (w.resumed t) x) ∧
          ∀ g w, (visit depth f.body).exec start = (.error (.fault g), w) →
            call.exec s = (.error (.fault g), w.resumed t)) ∧
      ∀ before p after, passed = before ++ p :: after →
        (∀ i < before.length, argumentName name (1 + i) ∉ u.faulty) →
        argumentName name (1 + before.length) ∈ u.faulty →
        ∃ t, call.exec s = (.ok .none, t) ∧ t.scopes = u.scopes ∧
          Remarks ((report (argumentProblem name (1 + before.length) p.type)).exec u).2 t := by
  obtain ⟨s₁, hs₁, hcall⟩ := exec_visitFuncCall (visit depth) rule kind cs (by simpa using hclean) hf
  refine ⟨s₁, hs₁, fun passed u hargs hsig hcasts ↦ ⟨fun hnames hshown ↦ ?_, fun before p after heq hnames hblamed ↦ ?_⟩⟩
  · obtain ⟨t, hcast, ht⟩ := tells_castArgs passed hcasts fun i hi ↦ by simpa using hnames i hi
    have hwrites : t.Writes [.lit "[RUNTIME] Calling function ", .lit name, .lit " with args ",
        .all ((passed.map fun p ↦ (p.param, p.bound)).map (·.2))] := by
      rw [List.map_map]
      simpa [Session.Writes, Piece.isWritable, ht.cells_eq] using hshown
    obtain ⟨t₁, hnote, ht₁⟩ := tells_note hwrites
    have hrun := (hcall.trans (exec_callFunction (visit depth) hargs hsig hcast)).trans (exec_bind_ok hnote)
    refine ⟨t₁, ht.trans ht₁, fun before p after heq hlast ↦ ?_, fun v w hbody hresult ↦ ?_, fun g w hbody ↦ ?_⟩
    · rw [show (t₁.entered f (passed.map fun p ↦ (p.param, p.bound))).current = t₁.scopes.size from rfl,
        Session.scope_entered_new, heq, List.map_append, List.map_cons]
      refine get?_calleeScope f _ fun entry hentry ↦ ?_
      obtain ⟨q, hq, rfl⟩ := List.mem_map.mp hentry
      exact hlast q hq
    · have hreturns : (runCall (visit depth) f (passed.map fun p ↦ (p.param, p.bound))).exec t₁ =
          (.ok w.result, w.resumed t₁) := by
        rw [exec_runCall, hbody]
        rfl
      have hwritten : (w.resumed t₁).Writes
          [.lit "[RUNTIME] Function ", .lit name, .lit " returned: ", .val w.result] := by
        simpa [Session.Writes, Piece.isWritable, Session.resumed] using hresult
      obtain ⟨x, hreturned, hx⟩ := tells_note hwritten
      exact ⟨x, hrun.trans ((exec_bind_ok hreturns).trans (exec_bind_ok hreturned)), hx⟩
    · have hfails : (runCall (visit depth) f (passed.map fun p ↦ (p.param, p.bound))).exec t₁ =
          (.error (.fault g), w.resumed t₁) := by
        rw [exec_runCall, hbody]
        rfl
      exact hrun.trans (exec_bind_error hfails)
  · subst heq
    obtain ⟨t, hcast, ht⟩ := exec_castArgs_blamed before after
      (fun q hq ↦ hcasts q (List.mem_append_left _ hq)) (hcasts p (by simp)).1
      (fun i hi ↦ by simpa using hnames i hi) (by simpa using hblamed)
    refine ⟨t, hcall.trans (exec_callFunction (visit depth) hargs hsig hcast), ?_, ht⟩
    rw [ht.sameFrame.scopes]
    exact ((stays_report _).sameFrame rfl).scopes

/-- A function with a text parameter runs for a text, but not once its first argument has an error.
-/
theorem text_passed_unless_blamed :
    ∃ s t x y : Session, ∃ n, parse "f(\"x\")" = .ok (.tree "start" [.tree "statement" [n]]) ∧
      s.breaking = false ∧ t = { s with faulty := #["f argument 1"] } ∧
      (visitFuncCall (visit 20) n).exec s = (.ok .none, x) ∧ x.breaking = true ∧
      (visitFuncCall (visit 20) n).exec t = (.ok .none, y) ∧ y.breaking = false := by
  let argument : Node := .tree "expr" [.tree "term" [.tree "factor" [.token "STRING" "\"x\""]]]
  let cs : List Node := [.tree "func_args" [argument]]
  let f : Function := ⟨0, .tree "block" [.tree "statement" [.tree "rep_stop" []]], 0⟩
  let s : Session :=
    { Session.fresh with
      scopes := #[{ Scope.empty none with functions := [("f", f)] }], cells := #[#[paramRecord "a" "str"]] }
  let t : Session := { s with faulty := #["f argument 1"] }
  let passed : List Passed := [⟨"a", "str", .text "x", .text "x"⟩]
  have hparse : parse "f(\"x\")" =
      .ok (.tree "start" [.tree "statement" [.tree "func_call_stmt" (.token "IDENT" "f" :: cs)]]) := by rfl
  have hargs : ∀ u : Session, u.modes = .quiet →
      (visitAll (visit 20) (callArgs (.token "IDENT" "f" :: cs))).exec u = (.ok (passed.map (·.value)), u) := by
    intro u hu
    cases u
    cases hu
    rfl
  have hcasts : ∀ u : Session, ∀ p ∈ passed,
      countedType? p.param passed = some p.type ∧ u.Casts p.value p.type p.bound := by
    intro u
    refine List.forall_mem_singleton.mpr ⟨rfl, ?_⟩
    obtain ⟨u₁, hnote, hu₁⟩ := tells_noteStep "cast_type" u
    refine ⟨⟨u₁, ?_⟩, rfl⟩
    rw [cast, exec_bind_ok hnote]
    rfl
  have hstops : ∀ u : Session, u.modes = .quiet → u.returning = false → u.breaking = false →
      (visit 20 f.body).exec u = (.ok .none, { u with breaking := true }) := by
    intro u hmodes hreturning hbreaking
    cases u
    cases hmodes
    cases hreturning
    cases hbreaking
    rfl
  have hclean : ∀ label : String, label ∉ s.faulty := fun _ ↦ Array.not_mem_empty _
  have hlabel : argumentName "f" 1 = "f argument 1" := by decide +kernel
  have hblamed : argumentName "f" 1 ∈ t.faulty := by
    rw [hlabel]
    exact Array.mem_singleton.mpr rfl
  have hother : "f" ∉ t.faulty := fun h ↦ absurd (Array.mem_singleton.mp h) (by decide)
  obtain ⟨s₁, ⟨notes, events, rfl⟩, hruns⟩ :=
    valid_calls_run_unless_blamed 20 s "func_call_stmt" "IDENT" cs (hclean "f") (show s.function? "f" = some f from rfl)
  obtain ⟨u, hu, -, hbody, -⟩ := (hruns passed _ (hargs _ rfl) rfl (hcasts _)).1 (fun _ _ ↦ hclean _) rfl
  obtain ⟨notes', events', rfl⟩ := hu
  obtain ⟨x, hx, hxs⟩ := hbody .none _ (hstops _ rfl rfl rfl) rfl
  obtain ⟨t₁, ⟨notes₂, events₂, rfl⟩, hfails⟩ :=
    valid_calls_run_unless_blamed 20 t "func_call_stmt" "IDENT" cs hother (show t.function? "f" = some f from rfl)
  obtain ⟨y, hy, -, hys⟩ := (hfails passed _ (hargs _ rfl) rfl (hcasts _)).2 [] _ [] rfl
    (fun _ h ↦ absurd h (Nat.not_lt_zero _)) hblamed
  refine ⟨s, t, x, y, .tree "func_call_stmt" (.token "IDENT" "f" :: cs), hparse, rfl, rfl, hx, hxs.sameFrame.breaking, hy, ?_⟩
  exact hys.sameFrame.breaking.trans ((stays_report _).sameFrame rfl).breaking

end FapLang.Run

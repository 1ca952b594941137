import FapLang.Proofs.Run.Arising
import FapLang.Proofs.Run.Places

/-!
Calls of list methods. Which method is called is read off the current line of the source, so a call
adds its argument exactly if that line has `.add(` in it, and otherwise empties the list or records
an error (`list_methods_follow_the_line`).
-/

namespace FapLang

/-- The place of a list; other values have none. -/
def Value.cell? : Value → Option Nat
  | list cell => some cell
  | _ => Option.none

theorem Value.eq_list_of_cell? {v : Value} {cell : Nat} (h : v.cell? = some cell) : v = .list cell := by
  cases v with
  | list other => exact congrArg Value.list (Option.some.inj h)
  | none | bool | int | float | complex | text | record | function | node | scope => simp [cell?] at h

namespace Run

open Interp Grammar

variable {s t : Session} {cell id : Nat} {name : String}

/-- The method that the current line of the source calls. -/
def Session.method? (s : Session) : Option ListMethod :=
  (s.sourceLine? s.line).bind ListMethod.ofLine?

/-- The error of a call whose line calls another method or none. -/
def methodProblem? : Option ListMethod → List Node → Option String
  | none, _ => some "Invalid list method call: could not extract method name"
  | some .add, [] => some "List.add method requires an element to add"
  | some .add, _ :: _ => none
  | some .clear, [] => none
  | some .clear, _ :: _ => some "List.clear method should not have arguments"

/-- A call of a list method. -/
def methodCall (name : String) (method : Node) (args : List Node) : Node :=
  .tree "list_method_call" (.token "IDENT" name :: method :: args)

theorem Remarks.method?_eq (h : Remarks s t) : t.method? = s.method? := by
  obtain ⟨_, _, rfl⟩ := h
  rfl

theorem cells_report (message : String) (s : Session) : ((report message).exec s).2.cells = s.cells := by
  rw [report, reportAt, exec_modify]
  dsimp only
  split <;> rfl

/-! ### The list of a name -/

/-- A list is never a constant. -/
theorem Sound.vars_of_list (hs : Sound s) (hid : id < s.scopes.size) (h : s.Holds id name (.list cell)) :
    (s.scope id).constants.has name = false ∧ (s.scope id).vars.get? name = some (.list cell) := by
  rcases h with hconst | ⟨hconst, hvar | ⟨-, hkind⟩⟩
  · exact absurd (hs.constants id hid _ (Table.mem_of_get? hconst)) (by simp [Value.isPlain])
  · exact ⟨hconst, hvar⟩
  · simp [Value.kind] at hkind

/-- The name has no error and is the variable of a list that can be written. -/
structure Session.Lists (s : Session) (name : String) (id cell : Nat) : Prop where
  clean : s.faulty.contains name = false
  nearest : s.nearest? name (s.chain s.current) = some id
  noConst : (s.scope id).constants.has name = false
  var : (s.scope id).vars.get? name = some (.list cell)
  shown : s.Writes [.val (.list cell)]

theorem Remarks.lists (h : Remarks s t) (hs : s.Lists name id cell) : t.Lists name id cell := by
  obtain ⟨_, _, rfl⟩ := h
  exact ⟨hs.clean, hs.nearest, hs.noConst, hs.var, hs.shown⟩

theorem tells_namedList? (hs : s.Lists name id cell) : (namedList? name).Tells s (some cell) := by
  have hsees : s.sees name = true := by
    refine List.any_eq_true.mpr ⟨id, List.mem_of_find?_eq_some hs.nearest, ?_⟩
    exact List.find?_some (p := fun id => (s.scope id).binds name) hs.nearest
  refine (tells_isDefined name s).bind fun t ht => ?_
  rw [hsees, if_pos rfl]
  have hlists := ht.lists hs
  have hdatum : (t.scope id).datum? name = some (.list cell) := by
    rw [Scope.datum?, Table.get?_of_has_eq_false hlists.noConst, Option.none_or, hlists.var]
  have hshown : (Value.list cell).isWritable t.cells = true := by
    simpa [Session.Writes, Piece.isWritable] using hlists.shown
  have hvalue : (valueOf name).Tells t (.list cell) :=
    .after (exec_currentChain t) (tells_valueIn hlists.nearest hdatum hshown)
  exact hvalue.bind fun u _ => .of_pure _ u

/-- After the argument has been evaluated the name is still a variable in the same scope. -/
theorem Course.variable_kept (h : Course .expression s t) (hs : Sound s)
    (hnear : s.nearest? name (s.chain s.current) = some id) (hconst : (s.scope id).constants.has name = false)
    (hvar : (s.scope id).vars.has name = true) :
    t.nearest? name (t.chain t.current) = some id ∧ (t.scope id).constants.has name = false ∧
      ∃ v, (t.scope id).vars.get? name = some v := by
  have hid : id < s.scopes.size := Session.lt_of_mem_chain (List.mem_of_find?_eq_some hnear)
  have hnames := (h.frame hs).names id hid (.inr rfl)
  refine ⟨(h.nearest?_eq hs name).trans hnear, by rw [hnames.constants, hconst], ?_⟩
  have hhas : (t.scope id).vars.has name = true := by
    rwa [Table.has_eq_contains, hnames.vars, ← Table.has_eq_contains]
  rw [Table.has_eq_isSome] at hhas
  exact Option.isSome_iff_exists.mp hhas

/-! ### The two methods -/

/-- The items of a list have changed and the list is bound to its name once more. -/
def Session.relisted (s : Session) (id : Nat) (name : String) (cell : Nat) (f : Array Value → Array Value) : Session :=
  { s.bindVar id name (.list cell) with cells := s.cells.modify cell f, assigned := s.assigned.insert name }

theorem Remarks.relisted (h : Remarks s t) (id : Nat) (name : String) (cell : Nat)
    (f : Array Value → Array Value) : Remarks (s.relisted id name cell f) (t.relisted id name cell f) := by
  obtain ⟨notes, events, rfl⟩ := h
  exact ⟨notes, events, rfl⟩

theorem Session.getElem?_relisted (s : Session) (id : Nat) (name : String) (hcell : cell < s.cells.size)
    (f : Array Value → Array Value) :
    (s.relisted id name cell f).cells[cell]? = some (f (s.cells.getD cell #[])) := by
  have hitems : s.cells[cell]? = some s.cells[cell] := Array.getElem?_eq_getElem hcell
  rw [Session.relisted, Array.getElem?_modify, if_pos rfl, Array.getD_eq_getD_getElem?, hitems]
  rfl

/-- The items change, and the list is assigned to its name. -/
theorem exec_relist {old : Value} (cell : Nat)
    (f : Array Value → Array Value) (message : List Piece) (hnear : s.nearest? name (s.chain s.current) = some id)
    (hconst : (s.scope id).constants.has name = false) (hold : (s.scope id).vars.get? name = some old)
    (hshown : (s.relisted id name cell f).Writes [.val (.list cell), .val old])
    (hmsg : (s.relisted id name cell f).Writes message) :
    ∃ t, (do setItems cell f; setValue name (.list cell); markAssigned name; note message : Interp Unit).exec s =
      (.ok (), t) ∧ Remarks (s.relisted id name cell f) t := by
  let u : Session := { s with cells := s.cells.modify cell f }
  have hassign : ∃ t, (setValue name (.list cell)).exec u = (.ok (), t) ∧ Remarks (u.bindVar id name (.list cell)) t :=
    exec_setValue hnear hconst hold hshown
  obtain ⟨t, hset, notes, events, rfl⟩ := hassign
  have hrelisted : Remarks (s.relisted id name cell f) { s.relisted id name cell f with notes := notes, events := events } :=
    ⟨notes, events, rfl⟩
  obtain ⟨w, hnote, hw⟩ := tells_note (hrelisted.writes hmsg)
  rw [exec_bind_ok (show (setItems cell f).exec s = (.ok (), u) from rfl), exec_bind_ok hset, markAssigned,
    exec_bind_ok (exec_modify _ _)]
  exact ⟨w, hnote, hrelisted.trans hw⟩

/-- What a call does once its method and its list are known. -/
def methodStep (visit : Visit) (name : String) (cell : Nat) (cs : List Node) : ListMethod → Interp Unit
  | .add => addElement visit name cell cs
  | .clear => clearElements name cell cs

section Calls

variable (visit : Visit) {s : Session} {name : String} {id cell : Nat}

/-- A call on a line that names a method comes to the list of its name. -/
theorem exec_visitListMethodCall (hs : s.Lists name id cell) (method : Node) (args : List Node) {called : ListMethod}
    (hcalled : s.method? = some called) :
    ∃ t, Remarks s t ∧ (visitListMethodCall visit (methodCall name method args)).exec s =
      (do
        methodStep visit name cell (.token "IDENT" name :: method :: args) called
        return .none : Interp Value).exec t := by
  obtain ⟨u, hnote, hu⟩ := tells_noteStep "visit_list_method_call" s
  have hmeth : currentMethod?.exec u = (.ok (some called), u) := by
    rw [currentMethod?, exec_get_bind, exec_pure]
    exact congrArg (fun method? => (Except.ok method?, u)) (hu.method?_eq.trans hcalled)
  obtain ⟨t, hnamed, ht⟩ := tells_namedList? (hu.lists hs)
  refine ⟨t, hu.trans ht, ?_⟩
  have hfaulty : (isFaulty name).exec u = (.ok false, u) := by rw [exec_isFaulty, (hu.lists hs).clean]
  rw [visitListMethodCall, exec_bind_ok hnote, exec_bind_ok hmeth]
  dsimp only
  rw [methodCall, exec_bind_ok (exec_childrenOf _ _ u),
    exec_bind_ok (show (child _ 0).exec u = (.ok (.token "IDENT" name), u) from rfl),
    exec_bind_ok (exec_nameOf visit _ _ u),
    exec_bind_ok hfaulty, if_neg Bool.false_ne_true, exec_bind_ok hnamed]
  cases called <;> rfl

/-- A call whose line calls another method or none records that and leaves the list alone. -/
theorem exec_misread (hs : s.Lists name id cell) (method : Node) {args : List Node} {message : String}
    (hprob : methodProblem? s.method? args = some message) :
    ∃ t, (visitListMethodCall visit (methodCall name method args)).exec s = (.ok .none, t) ∧
      Remarks ((report message).exec s).2 t := by
  cases hcalled : s.method? with
  | none =>
    rw [hcalled, methodProblem?] at hprob
    cases hprob
    obtain ⟨u, hnote, hu⟩ := tells_noteStep "visit_list_method_call" s
    have hmeth : currentMethod?.exec u = (.ok none, u) := by
      rw [currentMethod?, exec_get_bind, exec_pure]
      exact congrArg (fun method? => (Except.ok method?, u)) (hu.method?_eq.trans hcalled)
    rw [visitListMethodCall, exec_bind_ok hnote, exec_bind_ok hmeth]
    exact ⟨_, rfl, hu.report _⟩
  | some called =>
    obtain ⟨t, ht, hexec⟩ := exec_visitListMethodCall visit hs method args hcalled
    rw [hcalled] at hprob
    rw [hexec]
    cases called with
    | add =>
      cases args with
      | nil =>
        cases hprob
        exact ⟨_, rfl, ht.report _⟩
      | cons e rest => simp [methodProblem?] at hprob
    | clear =>
      cases args with
      | nil => simp [methodProblem?] at hprob
      | cons e rest =>
        cases hprob
        exact ⟨_, rfl, ht.report _⟩

theorem method?_of_arguments {e : Node} {rest : List Node} {method? : Option ListMethod}
    (h : methodProblem? method? (e :: rest) = none) : method? = some .add := by
  cases method? with
  | none => simp [methodProblem?] at h
  | some called =>
    cases called with
    | add => rfl
    | clear => simp [methodProblem?] at h

theorem method?_of_no_arguments {method? : Option ListMethod} (h : methodProblem? method? [] = none) :
    method? = some .clear := by
  cases method? with
  | none => simp [methodProblem?] at h
  | some called =>
    cases called with
    | add => simp [methodProblem?] at h
    | clear => rfl

theorem isWritable_of_empty {cells : Cells} {cell : Nat} (h : cells.getD cell #[] = #[]) :
    (Value.list cell).isWritable cells = true := by
  simp [Value.isWritable, nestingLimit, Value.isWritableWithin, h]

/-- The list is emptied. -/
theorem exec_clear (hs : s.Lists name id cell) (method : Node) (hprob : methodProblem? s.method? [] = none) :
    ∃ t, (visitListMethodCall visit (methodCall name method [])).exec s = (.ok .none, t) ∧
      Remarks (s.relisted id name cell fun _ => #[]) t := by
  obtain ⟨t, ht, hexec⟩ :=
    exec_visitListMethodCall visit hs method [] (method?_of_no_arguments hprob)
  have hempty : (t.cells.modify cell fun _ => #[]).getD cell #[] = #[] := by
    simp only [Array.getD_eq_getD_getElem?, Array.getElem?_modify]
    cases t.cells[cell]? <;> simp
  have hshown : (t.relisted id name cell fun _ => #[]).Writes [.val (.list cell), .val (.list cell)] := by
    have hwritable := isWritable_of_empty hempty
    simpa [Session.Writes, Piece.isWritable, Session.relisted] using hwritable
  have hlists := ht.lists hs
  obtain ⟨u, hclear, hu⟩ := exec_relist cell _ [.lit "[RUNTIME] Cleared list ", .lit name] hlists.nearest hlists.noConst
    hlists.var hshown rfl
  refine ⟨u, ?_, ?_⟩
  · rw [hexec]
    exact exec_bind_ok hclear
  · exact (ht.relisted id name cell _).trans hu

/-- The value of the argument is added, once it is known. -/
theorem exec_add {depth : Nat} (hsound : Sound s) (hs : s.Lists name id cell) (method : Node) {e : Node} (he : Of .expr e)
    (hprob : methodProblem? s.method? [e] = none) : ∃ s1, Remarks s s1 ∧
      (∀ v u, (Run.visit depth e).exec s1 = (.ok v, u) → (∀ old, (u.scope id).vars.get? name = some old →
          (u.relisted id name cell (·.push v)).Writes [.val v, .val (.list cell), .val old]) →
        ∃ t, (visitListMethodCall (Run.visit depth) (methodCall name method [e])).exec s = (.ok .none, t) ∧
          Remarks (u.relisted id name cell (·.push v)) t) ∧
      ∀ stop u, (Run.visit depth e).exec s1 = (.error stop, u) →
        (visitListMethodCall (Run.visit depth) (methodCall name method [e])).exec s = (.error stop, u) := by
  obtain ⟨s1, hs1, hexec⟩ :=
    exec_visitListMethodCall (Run.visit depth) hs method [e] (method?_of_arguments hprob)
  have hlists := hs1.lists hs
  refine ⟨s1, hs1, fun v u hv hshown => ?_, fun stop u hstop => ?_⟩
  · -- The argument may assign to the name, but it leaves it a variable of the same scope.
    have hsound1 := hsound.of_sameFrame hs1.sameFrame
    have hcourse : Course .expression s1 u := by
      have hend := (tame_visit depth).calm e (he.isCalm rfl) s1 hsound1
      rwa [hv] at hend
    have hvar : (s1.scope id).vars.has name = true := by rw [Table.has_eq_isSome, hlists.var]; rfl
    obtain ⟨hnear, hconst, old, hold⟩ := hcourse.variable_kept hsound1 hlists.nearest hlists.noConst hvar
    have hwrites := hshown old hold
    obtain ⟨hvWrites, hcellWrites, holdWrites⟩ : v.isWritable (u.relisted id name cell (·.push v)).cells = true ∧
        (Value.list cell).isWritable (u.relisted id name cell (·.push v)).cells = true ∧
        old.isWritable (u.relisted id name cell (·.push v)).cells = true := by
      simpa [Session.Writes, Piece.isWritable] using hwrites
    obtain ⟨t, hadd, ht⟩ := exec_relist cell (·.push v)
      [.lit "[RUNTIME] Added element ", .val v, .lit " to list ", .lit name] hnear hconst hold
      (by simp [Session.Writes, Piece.isWritable, hcellWrites, holdWrites])
      (by simp [Session.Writes, Piece.isWritable, hvWrites])
    refine ⟨t, ?_, ht⟩
    rw [hexec, exec_bind_ok (show (methodStep _ name cell _ .add).exec s1 = (.ok (), t) from (exec_bind_ok hv).trans hadd),
      exec_pure]
  · rw [hexec, exec_bind_error (show (methodStep _ name cell _ .add).exec s1 = (.error stop, u) from exec_bind_error hstop)]

end Calls

/-- A call of a method of a list does what the line with the number of the running top-level
statement says. An argument is added to the end of the list if the line calls `add`; without one,
the list is emptied if the line calls `clear`. Nothing else changes then, apart from the trace. On
any other line the list stays as it is, an argument is not evaluated, and an error is recorded. -/
theorem list_methods_follow_the_line (depth : Nat) {s : Session} (hs : Arising s) {name : String} {id cell : Nat}
    (hclean : name ∉ s.faulty) (hnearest : s.nearest? name (s.chain s.current) = some id)
    (hlist : s.Holds id name (.list cell)) (hcell : cell < s.cells.size) (hshown : s.Writes [.val (.list cell)])
    (method : Node) :
    (∀ e, Of .listMethodCall (methodCall name method [e]) → methodProblem? s.method? [e] = none → ∃ s₁, Remarks s s₁ ∧
      (∀ v u, (visit depth e).exec s₁ = (.ok v, u) → (∀ old, (u.scope id).vars.get? name = some old →
          (u.relisted id name cell (·.push v)).Writes [.val v, .val (.list cell), .val old]) →
        ∃ t, (visit (depth + 1) (methodCall name method [e])).exec s = (.ok .none, t) ∧
          t.cells[cell]? = some ((u.cells.getD cell #[]).push v) ∧ t.errors = u.errors ∧
          Remarks (u.relisted id name cell (·.push v)) t) ∧
      ∀ stop u, (visit depth e).exec s₁ = (.error stop, u) →
        ∃ stop', (visit (depth + 1) (methodCall name method [e])).exec s = (.error stop', u)) ∧
    (methodProblem? s.method? [] = none →
      ∃ t, (visit (depth + 1) (methodCall name method [])).exec s = (.ok .none, t) ∧
        t.cells[cell]? = some #[] ∧ t.errors = s.errors ∧ Remarks (s.relisted id name cell fun _ ↦ #[]) t) ∧
    (∀ args message, methodProblem? s.method? args = some message →
      ∃ t, (visit (depth + 1) (methodCall name method args)).exec s = (.ok .none, t) ∧ t.cells = s.cells ∧
        Remarks ((report message).exec s).2 t) ∧
    ∀ stops i n, ((runTop (visitUntil stops depth) i n).exec s).2.line = i ∧
      ((runTop (visitUntil stops depth) i n).exec s).2.source = s.source := by
  have hsound := hs.formed.sound
  have hid : id < s.scopes.size := Session.lt_of_mem_chain (List.mem_of_find?_eq_some hnearest)
  obtain ⟨hconst, hvar⟩ := hsound.vars_of_list hid hlist
  have hlists : s.Lists name id cell := ⟨by simpa using hclean, hnearest, hconst, hvar, hshown⟩
  have hcall := fun args ↦ exec_visit_tree depth "list_method_call" (.token "IDENT" name :: method :: args) rfl (by decide) s
  refine ⟨fun e hn hproblem ↦ ?_, fun hproblem ↦ ?_, fun args message hproblem ↦ ?_, fun stops i n ↦ ?_⟩
  · have he : Of .expr e := by
      obtain ⟨_, _, rest, heq, hrest⟩ := hn.listMethodCall_inv
      obtain rfl := (List.cons.inj (List.cons.inj (Node.tree.inj heq).2).2).2
      obtain ⟨value, hvalue, hexpr⟩ := hrest.resolve_left (by simp)
      rwa [List.singleton_inj.mp hvalue]
    obtain ⟨s₁, hs₁, hok, herror⟩ := hcall [e]
    obtain ⟨s₂, hs₂, hadd, hfail⟩ := exec_add (hsound.of_sameFrame hs₁.sameFrame) (hs₁.lists hlists) method he
      (hs₁.method?_eq ▸ hproblem)
    refine ⟨s₂, hs₁.trans hs₂, fun v u hv hwrites ↦ ?_, fun stop u hstop ↦ herror stop u (hfail stop u hstop)⟩
    have hsize : cell < u.cells.size := by
      have hplace := place_visit depth e s₂
      rw [hv] at hplace
      exact Nat.lt_of_lt_of_le ((hs₁.trans hs₂).cells_eq ▸ hcell) hplace.lists
    obtain ⟨t, hexec, ht⟩ := hadd v u hv hwrites
    obtain ⟨w, hvisit, hw⟩ := hok .none t hexec rfl
    have hremarks := ht.trans hw
    refine ⟨w, hvisit, ?_, hremarks.errors_eq, hremarks⟩
    rw [hremarks.cells_eq]
    exact u.getElem?_relisted id name hsize _
  · obtain ⟨s₁, hs₁, hok, -⟩ := hcall []
    obtain ⟨t, hexec, ht⟩ := exec_clear (visit depth) (hs₁.lists hlists) method (hs₁.method?_eq ▸ hproblem)
    obtain ⟨u, hvisit, hu⟩ := hok .none t hexec rfl
    have hremarks := (hs₁.relisted id name cell _).trans (ht.trans hu)
    refine ⟨u, hvisit, ?_, hremarks.errors_eq, hremarks⟩
    rw [hremarks.cells_eq]
    exact s.getElem?_relisted id name hcell _
  · obtain ⟨s₁, hs₁, hok, -⟩ := hcall args
    obtain ⟨t, hexec, ht⟩ := exec_misread (visit depth) (hs₁.lists hlists) method (hs₁.method?_eq ▸ hproblem)
    obtain ⟨u, hvisit, hu⟩ := hok .none t hexec rfl
    have hremarks := (hs₁.report message).trans (ht.trans hu)
    exact ⟨u, hvisit, hremarks.cells_eq.trans (cells_report message s), hremarks⟩
  · have hplace := line_runTop stops depth i n s
    exact ⟨hplace.line, hplace.source⟩

/-- On a line that calls `add`, the argument comes after the elements that the list has. -/
theorem element_added_on_its_line :
    ∃ s t e method, Arising s ∧ parse "a.add(2)" = .ok (.tree "start" [.tree "statement" [methodCall "a" method [e]]]) ∧
      (visit 30 (methodCall "a" method [e])).exec s = (.ok .none, t) ∧ t.errors = #[] ∧
      t.cells[0]? = some ((s.cells.getD 0 #[]).push (.int 2)) := by
  let e : Node := .tree "expr" [.tree "term" [.tree "factor" [.token "NUMBER" "2"]]]
  let method : Node := .tree "list_method" []
  have hparse : parse "a.add(2)" = .ok (.tree "start" [.tree "statement" [methodCall "a" method [e]]]) := by rfl
  -- A session in which the list is defined, on a line that calls the method.
  obtain ⟨s, hs, hcell, hconst, hclean, hnearest, hsize, hproblem, hwritable, hpushed, hclear, hquiet⟩ : ∃ s, Arising s ∧
      ((s.scope 0).vars.get? "a").bind Value.cell? = some 0 ∧ (s.scope 0).constants.has "a" = false ∧ "a" ∉ s.faulty ∧
        s.nearest? "a" (s.chain s.current) = some 0 ∧ 0 < s.cells.size ∧ methodProblem? s.method? [e] = none ∧
        (Value.list 0).isWritable s.cells = true ∧
        (Value.list 0).isWritable (s.cells.modify 0 (·.push (.int 2))) = true ∧ s.errors = #[] ∧ s.modes = .quiet := by
    refine ⟨_, .setModes (.execute (.fresh (some [])) (fun _ _ ↦ false) "New List a => [1]") .quiet #["a.add(2)"], ?_⟩
    decide +kernel
  obtain ⟨w, hvar, hw⟩ := Option.bind_eq_some_iff.mp hcell
  obtain rfl := Value.eq_list_of_cell? hw
  have hlist : s.Holds 0 "a" (.list 0) := .inr ⟨hconst, .inl hvar⟩
  have hn : Of .listMethodCall (methodCall "a" method [e]) := (of_parse_statement hparse).of_statement (by decide)
  have hshown : s.Writes [.val (.list 0)] := by
    simpa [Session.Writes, Piece.isWritable] using hwritable
  obtain ⟨s₁, ⟨notes, events, rfl⟩, hadd, -⟩ :=
    (list_methods_follow_the_line 29 hs hclean hnearest hlist hsize hshown method).1 e hn hproblem
  have hvalue : ∀ u : Session, u.modes = .quiet → (visit 29 e).exec u = (.ok (.int 2), u) := by
    intro u hu
    cases u
    cases hu
    rfl
  obtain ⟨t, hexec, hitems, herrors, -⟩ := hadd (.int 2) _ (hvalue _ hquiet) fun old hold ↦ by
    obtain rfl : old = .list 0 := Option.some.inj (hold.symm.trans hvar)
    have htwo : (Value.int 2).isPlain = true := by decide +kernel
    simpa [Session.Writes, Piece.isWritable] using ⟨Value.isWritable_of_isPlain htwo _, hpushed⟩
  exact ⟨s, t, e, method, hs, hparse, hexec, herrors.trans hclear, hitems⟩

end Run

end FapLang

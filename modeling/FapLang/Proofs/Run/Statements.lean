import FapLang.Proofs.Run.Calls

/-!
Statements follow courses of statements (`binding_following`). Definitions of constants and
functions need more: a constant must be new and plain, and the body of a function orderly.
-/

namespace FapLang

namespace Node

/-- A statement that takes no other statements has calm parts. -/
theorem isCalm_of_mem_statement {rule : String} {cs : List Node} (h : (tree rule cs).isOrderly = true)
    (hnesting : nestingRules.contains rule = false) (hheaded : headedRules.contains rule = false) :
    ∀ c ∈ cs, c.isCalm = true := by
  rw [isOrderly, hnesting, hheaded] at h
  exact areCalm_iff.mp h

end Node

namespace Value

/-- A value as one of a type, or why it cannot be one, if the type exists. -/
def castBy (cells : Cells) (type : String) (v : Value) : Except (Option Fault) Value :=
  match type with
  | "int" => v.castInt.mapError some
  | "float" => v.castFloat.mapError some
  | "str" => ((v.str cells).map text).mapError some
  | _ => .error Option.none

theorem castBy_cases {cells : Cells} {type : String} {v w : Value} (h : v.castBy cells type = .ok w) :
    (type = "int" ∧ v.castInt = .ok w) ∨ (type = "float" ∧ v.castFloat = .ok w) ∨
      (type = "str" ∧ ∃ s, w = text s) := by
  have hok : ∀ {e : Except Fault Value}, e.mapError some = .ok w → e = .ok w := by
    intro e he
    cases e with
    | ok a => exact congrArg Except.ok (Except.ok.inj he)
    | error f => simp [Except.mapError] at he
  unfold castBy at h
  split at h
  · exact .inl ⟨rfl, hok h⟩
  · exact .inr (.inl ⟨rfl, hok h⟩)
  · have htext := hok h
    cases hstr : v.str cells with
    | ok s =>
      rw [hstr] at htext
      exact .inr (.inr ⟨rfl, s, (Except.ok.inj htext).symm⟩)
    | error f =>
      rw [hstr] at htext
      simp [Except.map] at htext
  · cases h

end Value

namespace Run

open Interp

variable {s t : Session} {name type : String} {v w : Value}

/-! ### Changes of scopes -/

/-- A change of a scope between two announcements. -/
theorem ends_announced {id : Nat} {step : String} {args : List Piece} {f : Scope → Scope} {after : Interp Unit}
    (hs : Sound s) (hafter : after.Follows .statement)
    (hchange : ∀ t, SameFrame s t → Change .statement t (t.setScope id f)) :
    Ends .statement s ((do announce id step args; setScope id f; after : Interp Unit).exec s) := by
  refine Ends.after (stays_announce id step args) fun _ t _ hannounce => ?_
  have hcourse : Course .statement t (t.setScope id f) := .single (hchange t hannounce)
  rw [exec_bind_ok (exec_setScope id f t)]
  exact Ends.prepend hcourse (hafter _ (hcourse.sound (hs.of_sameFrame hannounce)))

theorem follows_define (name : String) (v : Value) : (define name v).Follows .statement := by
  intro s hs
  rw [define, exec_get_bind]
  refine ends_announced hs (stays_announceOutcome _ _).follows fun t hframe => ?_
  rw [← hframe.current]
  exact .define t name v

theorem ends_defineConst (hs : Sound s) (hname : s.sees name = false) (hv : v.isPlain = true) :
    Ends .statement s ((defineConst s.current name v).exec s) := by
  refine ends_announced hs (stays_announceOutcome _ _).follows fun t hframe => ?_
  have hsees : t.sees name = false := by rw [hframe.sees_eq, hname]
  rw [← hframe.current]
  exact .defineConst hsees hv

theorem stays_mapM {α β : Type} {g : α → Interp β} (hg : ∀ a, (g a).Stays) (as : List α) : (as.mapM g).Stays := by
  induction as with
  | nil => exact .pure []
  | cons a rest ih =>
    rw [List.mapM_cons]
    exact .bind (hg a) fun _ => .bind ih fun _ => .pure _

theorem ends_defineFunc (hs : Sound s) (name : String) (params : Nat) {body : Node} (hbody : body.isOrderly = true) :
    Ends .statement s ((defineFunc s.current name
      { params := params, body := body, scope := s.current }).exec s) := by
  refine ends_announced hs ?_ fun t hframe => ?_
  · refine .after (stays_scopeOf _) fun _ => .ite ?_ (.pure ())
    refine .after (stays_itemsOf params) fun items => ?_
    exact .after (stays_mapM (fun p => .ofExcept _) _) fun _ => (stays_announceOutcome _ _).follows
  · rw [← hframe.current]
    exact .defineFunc t name hbody params

/-- The nearest variable of a name is changed where it is. -/
theorem ends_setIn {ids : List Nat}
    (hids : ∀ id ∈ ids, id ∈ s.chain s.current) : Ends .statement s ((setIn name v ids).exec s) := by
  rcases exec_setIn_cases name v ids s with ⟨f, t, hexec, -, ht⟩ | ⟨id, old, outcome, t, hkeeper, -, hold, hexec, -, ht⟩
  · rw [hexec]
    exact ht.sameFrame.ends _
  · have hhas : (s.scope id).vars.has name = true := by rw [Table.has_eq_isSome, hold, Option.isSome_some]
    have hcourse : Course .statement s (s.bindVar id name v) :=
      .single (.assign (hids id (List.mem_of_find?_eq_some hkeeper)) hhas v)
    rw [hexec]
    exact Ends.prepend hcourse (ht.sameFrame.ends _)

theorem follows_setValue (name : String) (v : Value) : (setValue name v).Follows .statement := by
  intro s _
  rw [setValue, exec_bind_ok (exec_currentChain s)]
  exact ends_setIn fun id hid => hid

theorem follows_request {g : Session → Session} (hg : ∀ s, ∃ result returning breaking,
      g s = { s with result := result, returning := returning, breaking := breaking }) :
    (modify g : Interp Unit).Follows .statement := by
  intro s _
  obtain ⟨result, returning, breaking, heq⟩ := hg s
  rw [exec_modify, heq]
  exact (Course.single (.request s result returning breaking)).ends _

/-! ### What casts give -/

/-- A cast that fails is on record. -/
theorem castResult_cases {e : Except Fault Value}
    (h : (castResult v type name e).exec s = (.ok w, t)) : w = .none ∧ t.errors ≠ #[] ∨ e = .ok w := by
  have hfail : ∀ f, (castFailure v type name f).exec s = (.ok w, t) → w = .none ∧ t.errors ≠ #[] := by
    intro f hf
    have herrs := (records_castFailure v type name f).errors hf
    obtain ⟨_, u, _, hf⟩ := exec_bind_eq_ok hf
    obtain ⟨_, u', _, hf⟩ := exec_bind_eq_ok hf
    exact ⟨(Except.ok.inj (congrArg Prod.fst hf)).symm, herrs⟩
  cases e with
  | ok w' => exact .inr (congrArg Except.ok (Except.ok.inj (congrArg Prod.fst h)))
  | error f =>
    rw [castResult] at h
    split at h
    · exact .inl (hfail f h)
    · exact .inl (hfail f h)
    · cases h

theorem castTo_cases (h : (castTo v type name).exec s = (.ok w, t)) :
    w = .none ∧ t.errors ≠ #[] ∨ v.castBy s.cells type = .ok w := by
  rw [castTo, exec_get_bind] at h
  dsimp only at h
  split at h
  iterate 3
    · exact (castResult_cases h).imp_right fun h => by rw [Value.castBy, h]; rfl
  · have herrs := (records_unsupported _ name).errors h
    obtain ⟨_, _, _, h⟩ := exec_bind_eq_ok h
    obtain ⟨_, _, _, h⟩ := exec_bind_eq_ok h
    exact .inl ⟨(Except.ok.inj (congrArg Prod.fst h)).symm, herrs⟩

/-- What a cast gives does not depend on the name that it is for. -/
theorem exec_castTo_of_castBy (h : v.castBy s.cells type = .ok w) (name : String) :
    (castTo v type name).exec s = (.ok w, s) := by
  have hres : ∀ {e : Except Fault Value}, e.mapError some = .ok w →
      (castResult v type name e).exec s = (.ok w, s) := by
    intro e he
    cases e with
    | ok a =>
      cases he
      rfl
    | error f => simp [Except.mapError] at he
  rw [castTo, exec_get_bind]
  unfold Value.castBy at h
  split at h
  · exact hres h
  · exact hres h
  · exact hres h
  · cases h

/-- No cast is tried for a name with an error. -/
def Session.shuns (s : Session) (name : String) : Bool :=
  !name.isEmpty && s.faulty.contains name

/-- A cast is tried unless the name has an error. -/
theorem exec_cast (v : Value) (type name : String) (s : Session) : ∃ u, Remarks s u ∧
    (cast v type name).exec s = if s.shuns name = true then (.ok .none, u) else (castTo v type name).exec u := by
  obtain ⟨u, hnote, hu⟩ := tells_noteStep "cast_type" s
  have hshuns : (!name.isEmpty && u.faulty.contains name) = s.shuns name := by rw [hu.faulty_eq]; rfl
  refine ⟨u, hu, ?_⟩
  rw [cast, exec_bind_ok hnote, exec_bind_ok (exec_isFaulty name u), hshuns]
  split <;> rfl

theorem tells_cast_of_castBy (hname : s.shuns name = false) (hby : v.castBy s.cells type = .ok w) :
    (cast v type name).Tells s w := by
  obtain ⟨u, hu, hcast⟩ := exec_cast v type name s
  rw [hname, if_neg Bool.false_ne_true] at hcast
  rw [← hu.cells_eq] at hby
  exact ⟨u, hcast.trans (exec_castTo_of_castBy hby name), hu⟩

/-- A cast that gives something is tried, and changes nothing. -/
theorem castBy_of_cast (h : (cast v type name).exec s = (.ok w, t)) (hw : w.isNone = false) :
    s.shuns name = false ∧ v.castBy s.cells type = .ok w ∧ Remarks s t := by
  obtain ⟨u, hu, hcast⟩ := exec_cast v type name s
  rw [hcast] at h
  split at h
  · rw [← Except.ok.inj (Prod.mk.inj h).1] at hw
    simp [Value.isNone] at hw
  next hshuns =>
  rcases castTo_cases h with ⟨hnone, -⟩ | hby
  · rw [hnone] at hw
    simp [Value.isNone] at hw
  · rw [exec_castTo_of_castBy hby] at h
    rw [hu.cells_eq] at hby
    exact ⟨Bool.eq_false_iff.mpr hshuns, hby, (Prod.mk.inj h).2 ▸ hu⟩

/-- A cast gives what its type makes of the value, or nothing, and then an error is on record. -/
theorem cast_cases (hs : Sound s) (h : (cast v type name).exec s = (.ok w, t)) :
    w = .none ∧ t.errors ≠ #[] ∨ (type = "int" ∧ v.castInt = .ok w) ∨
      (type = "float" ∧ v.castFloat = .ok w) ∨ (type = "str" ∧ ∃ text, w = .text text) := by
  obtain ⟨u, hu, hcast⟩ := exec_cast v type name s
  rw [hcast] at h
  split at h
  · next hknown =>
    obtain ⟨hw, rfl⟩ := Prod.mk.inj h
    rw [Session.shuns, Bool.and_eq_true] at hknown
    have hmem : name ∈ s.faulty := Array.contains_iff_mem.mp hknown.2
    refine .inl ⟨(Except.ok.inj hw).symm, ?_⟩
    rw [hu.errors_eq]
    exact hs.recorded (Array.ne_empty_of_mem hmem)
  · exact (castTo_cases h).imp_right Value.castBy_cases

/-- What a value that can be written is cast to is plain. -/
theorem isPlain_of_cast (hs : Sound s) (hv : ∀ n, v = .int n → Number.isWritable n = true)
    (h : (cast v type name).exec s = (.ok w, t)) (hw : ¬ w.isNone = true) : w.isPlain = true := by
  rcases cast_cases hs h with ⟨rfl, _⟩ | ⟨_, h⟩ | ⟨_, h⟩ | ⟨_, text, rfl⟩
  · exact absurd rfl hw
  · exact Value.isPlain_of_castInt hv h
  · exact Value.isPlain_of_castFloat h
  · rfl

theorem isPlain_of_castInitial (hs : Sound s) (hv : ∀ n, v = .int n → Number.isWritable n = true)
    (h : (castInitial v type name).exec s = (.ok w, t)) (hw : ¬ w.isNone = true) : w.isPlain = true := by
  unfold castInitial at h
  split_ifs at h
  · exact isPlain_of_cast hs hv h hw
  · exact isPlain_of_cast hs hv h hw
  · exact isPlain_of_cast hs hv h hw

/-- A trace line exists only if its values can be written. -/
theorem isWritable_of_note {message : List Piece} {u : Unit}
    (h : (note message).exec s = (.ok u, t)) : ∀ piece ∈ message, piece.isWritable s.cells = true := by
  refine List.all_eq_true.mp (Decidable.not_not.mp fun hnot => ?_)
  rw [exec_note_of_not_writes hnot] at h
  cases h

/-! ### Definitions -/

theorem binding_following : (following .statement).Binding where
  toLawful := lawful_following .statement
  markAssigned name := (stays_markAssigned name).follows.keeps
  setItems cell _ _ := (stays_setItems cell _).follows.keeps
  define name _ _ := (follows_define name _).keeps
  setValue name _ _ := (follows_setValue name _).keeps
  dropVar name := Follows.keeps fun s _ => (Course.single (.dropVar s name)).ends _
  setBreaking b := (follows_request fun s => ⟨s.result, s.returning, b, rfl⟩).keeps
  setResult v := (follows_request fun s => ⟨v, s.returning, s.breaking, rfl⟩).keeps
  setReturning := (follows_request fun s => ⟨s.result, true, s.breaking, rfl⟩).keeps
  count _ _ _ _ := trivial

theorem follows_settleFunction (name : String) (params : Node) {body : Node} (hbody : body.isOrderly = true) :
    (settleFunction name params body).Follows .statement := by
  refine .bind .get fun _ => .after (stays_newList _) fun list => fun s hs => ?_
  rw [exec_get_bind]
  refine Ends.bind (ends_defineFunc hs name _ hbody) fun _ t _ hdef => ?_
  refine Follows.after (stays_markDefined name) (fun _ => ?_) t (hdef.sound hs)
  exact .after (stays_note _) fun _ => .pure _

/-- Visits of calm nodes do what expressions do, visits of orderly nodes what statements do. -/
structure Tame (visit : Visit) : Prop where
  calm : ∀ n : Node, n.isCalm = true → (visit n).Follows .expression
  orderly : ∀ n : Node, n.isOrderly = true → (visit n).Follows .statement

namespace Tame

variable {visit : Visit} (hvisit : Tame visit)

include hvisit

/-- The name is not bound around the current scope, so no constant is overwritten. -/
theorem ends_initConst (hs : Sound s) (hname : s.sees name = false)
    (type : String) {value : Node} (hvalue : value.isCalm = true) :
    Ends .statement s ((initConst visit type name value).exec s) := by
  refine Ends.bind_expression (hvisit.calm value hvalue s hs) fun v t _ hvisited => ?_
  have ht := hvisited.sound hs
  refine Ends.after (stays_note _) fun _ u hnote hnoted => ?_
  refine Ends.after (stays_castInitial v type name) fun w x hcast hcasted => ?_
  have hframe := hnoted.trans hcasted
  have hx := ht.of_sameFrame hframe
  by_cases hnone : w.isNone = true
  · rw [if_pos hnone]
    exact Follows.pure () x hx
  rw [if_neg hnone, exec_get_bind]
  have hwritable : ∀ n, v = .int n → Number.isWritable n = true := by
    rintro n rfl
    exact isWritable_of_note hnote (.val (.int n)) (by simp)
  have hplain := isPlain_of_castInitial (ht.of_sameFrame hnoted) hwritable hcast hnone
  have hsees : x.sees name = false := by
    rw [hframe.sees_eq, hvisited.sees_eq hs, hname]
  refine Ends.bind (ends_defineConst hx hsees hplain) fun _ y _ hdef => ?_
  refine Follows.after (stays_markAssigned name) (fun _ => ?_) y (hdef.sound hx)
  exact .after (stays_markDefined name) fun _ => (stays_note _).follows

theorem visitConstDef {n : Node} (hkids : ∀ c ∈ n.kids, c.isCalm = true) :
    (visitConstDef visit n).Follows .statement := by
  have hB := lawful_following .statement
  suffices hbond : (following .statement).Agrees (Run.visitConstDef visit n) (Run.visitConstDef visit n) from hbond.1
  refine hB.begins <| hB.tree fun _ _ => ?_
  split
  · next typeNode target value rest heq =>
    have hcalm : ∀ c ∈ typeNode :: target :: value :: rest, c.isCalm = true := heq ▸ hkids
    have htarget : (visit target).Follows .statement := (hvisit.calm target (hcalm target (by simp))).lift
    refine hB.after (hB.declaredType typeNode) fun type => hB.noted <| Bond.either ?_ ?_
    · exact hB.last (hB.report _)
    refine hB.after (hB.nameOf htarget.keeps) fun name => hB.unlessFaulty ?_
    refine Follows.keeps fun s hs => Ends.after (stays_isDefined name) fun found t hexec hasked => ?_
    have ht := hs.of_sameFrame hasked
    cases found with
    | true => exact (records_report_blame _ name _).stays.follows t ht
    | false =>
      have hsees : t.sees name = false := by
        rw [hasked.sees_eq, sees_eq_false_of_isDefined hexec]
      refine Ends.bind (hvisit.ends_initConst ht hsees type (hcalm value (by simp))) fun _ u _ hinit => ?_
      exact Follows.pure _ u (hinit.sound ht)
  · exact hB.last (hB.report _)

end Tame

end Run

end FapLang

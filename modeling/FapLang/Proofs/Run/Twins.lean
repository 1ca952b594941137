import FapLang.Proofs.Run.Echoes

/-!
Steps that visit. If the visits of two visitors mirror each other (`Twins`), so do the steps that
are made with them; two steps look at the source, and must read the same off the current line
(`Session.reading`).
-/

namespace FapLang.Run

open Interp

variable {p : Aspect} {α β : Type} {s t : Session}

namespace Interp

/-- Steps that end in the same way, whatever values they return. -/
abbrev Agrees (p : Aspect) (m m' : Interp α) : Prop :=
  m.Mirrors p (fun _ ↦ True) m'

end Interp

/-- Visitors whose visits mirror each other; the values that they return are held to be short. -/
def Twins (p : Aspect) (first second : Visit) : Prop :=
  ∀ n, (first n).Mirrors p p.Admits (second n)

deriving instance DecidableEq for ListMethod

/-- The list method that a line of the source calls, and its logical operator. -/
structure Reading where
  method : Option ListMethod
  conjoins : Bool
  disjoins : Bool
  deriving DecidableEq

def Session.reading (s : Session) : Reading where
  method := (s.sourceLine? s.line).bind ListMethod.ofLine?
  conjoins := s.currentLine?.any (Text.contains · " and ")
  disjoins := s.currentLine?.any (Text.contains · " or ")

theorem Session.reading_congr (hsource : t.source = s.source) (hline : t.line = s.line) : t.reading = s.reading := by
  rw [Session.reading, Session.reading, Session.sourceLine?, Session.sourceLine?, Session.currentLine?,
    Session.currentLine?, hsource, hline]

/-- After the beginning of a step sessions are alike as before, and read the same off the source. -/
theorem Alike.exec_noteStep (h : Alike p s t) (step : String) :
    ∃ s' t', (noteStep step).exec s = (.ok (), s') ∧ (noteStep step).exec t = (.ok (), t') ∧ Alike p s' t' ∧
      s'.reading = s.reading ∧ t'.reading = t.reading := by
  obtain ⟨notes, hexec⟩ := exists_notes_noteStep step s
  obtain ⟨notes', hexec'⟩ := exists_notes_noteStep step t
  have hmatches := echoes_noteStep step s t h
  rw [hexec, hexec'] at hmatches
  rcases hmatches with hexhausted | ⟨_, halike, _⟩
  · cases hexhausted
  · exact ⟨_, _, hexec, hexec', halike, rfl, rfl⟩

/-- The steps that look at the source. -/
def sourceRules : List String := ["list_method_call", "logic_op"]

theorem hidden_noteContent (content : Option String) : (noteContent content).Hidden p := by
  cases content with
  | some content => exact hidden_note fun _ _ => rfl
  | none => exact .pure

theorem matches_visitLogicOp (n : Node) (h : Alike p s t) (hread : t.reading = s.reading) :
    Matches p (fun _ => True) ((visitLogicOp n).exec s) ((visitLogicOp n).exec t) := by
  obtain ⟨s', t', hexec, hexec', h', hs, ht⟩ := h.exec_noteStep "visit_logic_op"
  have hread' : t'.reading = s'.reading := by rw [hs, ht, hread]
  have hword : (logicWord s'.currentLine? n).Agrees p (logicWord t'.currentLine? n) :=
    (lawful_mirroring p).logicWord (congrArg Reading.conjoins hread') (congrArg Reading.disjoins hread') n
  rw [visitLogicOp, exec_bind_ok hexec, exec_bind_ok hexec', exec_get_bind, exec_get_bind]
  exact Mirrors.after ((hidden_noteContent _).mirrors (hidden_noteContent _)) (fun _ => hword) s' t' h'

/-- A parameter as a definition of a function makes it. -/
def IsParam (v : Value) : Prop :=
  ∃ name type, v = paramRecord name type

theorem isParam_of_mem_declaredParams {n : Node} {v : Value} (h : v ∈ declaredParams n) : IsParam v := by
  unfold declaredParams at h
  split at h
  · obtain ⟨c, _, hparam⟩ := List.mem_filterMap.mp h
    unfold param? at hparam
    split at hparam
    · exact ⟨_, _, (Option.some.inj hparam).symm⟩
    · cases hparam
  · cases h

theorem IsParam.admits {v : Value} (h : IsParam v) : p.Admits v := by
  obtain ⟨name, type, rfl⟩ := h
  exact fun _ => rfl

theorem mem_separated {separator piece : Piece} {pieces : List (List Piece)}
    (h : piece ∈ separated separator pieces) : piece = separator ∨ ∃ group ∈ pieces, piece ∈ group := by
  induction pieces with
  | nil => cases h
  | cons group rest ih =>
    cases rest with
    | nil => exact .inr ⟨group, (.head _), h⟩
    | cons next rest =>
      rw [separated] at h
      · rcases List.mem_append.mp h with h | h
        · exact .inr ⟨group, (.head _), h⟩
        rcases List.mem_cons.mp h with h | h
        · exact .inl h
        obtain hsep | ⟨other, hother, hmem⟩ := ih h
        · exact .inl hsep
        · exact .inr ⟨other, List.mem_cons_of_mem _ hother, hmem⟩
      · simp

/-- Parameters always have the pieces that show them. -/
theorem exec_mapM_paramPieces {params : List Value} (h : ∀ v ∈ params, IsParam v) (s : Session) :
    ∃ pieces, (params.mapM fun v => Interp.ofExcept (paramPieces v) : Interp (List (List Piece))).exec s =
      (.ok pieces, s) ∧ ∀ group ∈ pieces, ∀ piece ∈ group, piece.Admits p := by
  induction params with
  | nil => exact ⟨[], rfl, by simp⟩
  | cons v rest ih =>
    obtain ⟨pieces, hexec, hpieces⟩ := ih fun w hw => h w (List.mem_cons_of_mem v hw)
    obtain ⟨name, type, rfl⟩ := h v (.head _)
    refine ⟨[.val (.text type), .lit " ", .val (.text name)] :: pieces, ?_, ?_⟩
    · rw [List.mapM_cons]
      have hparam : (Interp.ofExcept (paramPieces (paramRecord name type))).exec s =
          (.ok [.val (.text type), .lit " ", .val (.text name)], s) := rfl
      rw [exec_bind_ok hparam, exec_bind_ok hexec, exec_pure]
    · refine List.forall_mem_cons.mpr ⟨?_, hpieces⟩
      simpa [Piece.Admits] using ⟨admits_text type, admits_text name⟩

theorem echoes_mapM {g : α → Interp β} (hg : ∀ a, (g a).Echoes p) (as : List α) : (as.mapM g).Echoes p := by
  induction as with
  | nil => exact .pure trivial
  | cons a rest ih =>
    rw [List.mapM_cons]
    exact .after (hg a) fun _ => .after ih fun _ => .pure trivial

theorem matches_announceFunc (id : Nat) (name : String) {f : Function} (h : Alike p s t)
    (hparams : p = .trace → ∀ v ∈ s.cells.getD f.params #[], IsParam v) :
    Matches p (fun _ => True) ((announceFunc id name f).exec s) ((announceFunc id name f).exec t) := by
  have hcells := h.records.cells
  cases p with
  | source =>
    rw [announceFunc, exec_scopeOf_bind, exec_scopeOf_bind, h.scope_eq]
    refine Mirrors.ite (.after ((lawful_mirroring _).itemsOf _) fun items => ?_) (.pure trivial) s t h
    refine .after (echoes_mapM (fun v => .ofExcept fun _ _ => trivial) _) fun params => ?_
    refine echoes_announceOutcome id fun piece _ => ?_
    cases piece with
    | lit text => trivial
    | val v => exact fun hp => absurd hp (by simp)
    | all vs => exact fun v _ hp => absurd hp (by simp)
  | trace =>
    have hhidden : ∀ u : Session, Short u → u.cells = s.cells →
        ∃ w, (announceFunc id name f).exec u = (.ok (), w) ∧ Aspect.trace.blur w = Aspect.trace.blur u ∧
          Aspect.trace.Guards w := by
      intro u hu hsame
      rw [announceFunc, exec_scopeOf_bind]
      by_cases hany : (u.scope id).modes.any = true
      · have hitems : (itemsOf f.params).exec u = (.ok (u.cells.getD f.params #[]), u) := rfl
        rw [hsame] at hitems
        obtain ⟨pieces, hpieces, hadmits⟩ := exec_mapM_paramPieces (p := .trace)
          (fun v hv => hparams rfl v (Array.mem_toList_iff.mp hv)) u
        rw [if_pos hany, exec_bind_ok hitems, exec_bind_ok hpieces]
        refine hidden_announceOutcome id (fun piece hpiece => ?_) u hu
        simp only [List.cons_append, List.mem_cons, List.mem_append, List.not_mem_nil, or_false] at hpiece
        rcases hpiece with rfl | rfl | rfl | hpiece | rfl
        · trivial
        · trivial
        · trivial
        · obtain rfl | ⟨group, hgroup, hmem⟩ := mem_separated hpiece
          · trivial
          · exact hadmits group hgroup piece hmem
        · trivial
      · rw [if_neg hany]
        exact Hidden.pure (p := .trace) u hu
    obtain ⟨s', hexec, hblur, hs'⟩ := hhidden s h.guards rfl
    obtain ⟨t', hexec', hblur', ht'⟩ := hhidden t h.guards' hcells
    rw [hexec, hexec']
    exact .value ⟨by rw [hblur', hblur, h.blur], hs', ht'⟩ trivial

theorem exec_newList (items : Array Value) (s : Session) :
    (newList items).exec s = (.ok (.list s.cells.size), { s with cells := s.cells.push items }) :=
  rfl

theorem matches_defineFunc (id : Nat) (name : String) {f : Function} (h : Alike p s t)
    (hparams : ∀ v ∈ s.cells.getD f.params #[], IsParam v) :
    Matches p (fun _ => True) ((defineFunc id name f).exec s) ((defineFunc id name f).exec t) := by
  have hargs : ∀ q : Aspect, ∀ piece ∈ [Piece.lit name, .val (.list f.params)], piece.Admits q :=
    fun q => by simpa [Piece.Admits] using admits_list f.params
  refine Matches.bind (echoes_announce id _ (hargs p) s t h) fun _ s' t' hexec _ _ h' => ?_
  have hcells : p = .trace → s'.cells = s.cells := by
    rintro rfl
    obtain ⟨u, hannounce, hblur, _⟩ := hidden_announce id "define_func" (hargs .trace) s h.guards
    obtain ⟨_, rfl⟩ := Prod.mk.inj (hannounce.symm.trans hexec)
    have hfield : ∀ {β : Type} (field : Session → β), field (Aspect.trace.blur u) = field (Aspect.trace.blur s) :=
      fun field => congrArg field hblur
    exact hfield Session.cells
  have hset : (setScope id fun scope => { scope with functions := scope.functions.insert name f }).Echoes p :=
    echoes_setScope id (fun _ => rfl) (fun _ _ hentry => .inl hentry) fun _ _ hentry => .inl hentry
  refine Matches.bind (hset s' t' h') fun _ s'' t'' hexec' _ _ h'' => ?_
  have hscope : s'' = s'.setScope id fun scope => { scope with functions := scope.functions.insert name f } :=
    (congrArg Prod.snd hexec').symm
  subst hscope
  exact matches_announceFunc id name h'' fun hp => by rw [Session.setScope, hcells hp]; exact hparams

theorem echoes_settleFunction (name : String) (params body : Node) : (settleFunction name params body).Echoes p := by
  refine .get_bind fun s t hst => ?_
  rw [hst.records.cells]
  have hitems : ∀ v ∈ (declaredParams params).toArray, IsParam v :=
    fun v hv => isParam_of_mem_declaredParams (List.mem_toArray.mp hv)
  refine Matches.bind (mirrors_newList (fun v hv => (hitems v hv).admits) s t hst) fun list s' t' hexec _ _ hst' => ?_
  have hcells : s'.cells.getD s.cells.size #[] = (declaredParams params).toArray := by
    rw [← congrArg (fun ending => ending.2.cells) hexec, exec_newList, Array.getD_eq_getD_getElem?,
      Array.getElem?_push_size, Option.getD_some]
  rw [exec_get_bind, exec_get_bind, hst'.records.current]
  refine Matches.bind (matches_defineFunc s'.current name hst' ?_) fun _ u w _ _ _ huw => ?_
  · exact fun v hv => hitems v (hcells ▸ hv)
  · exact Mirrors.after (echoes_markDefined name) (fun _ => .after (echoes_note _) fun _ => .pure trivial) u w huw

namespace Twins

variable {first second : Visit} (h : Twins p first second)

include h

theorem supports (n : Node) : (mirroring p).Supports first second n := by
  intro m _
  have hcall := (calling_mirroring p).visitFuncCall (fun c (_ : c ∈ m.kids) => h c) (fun c _ => h c)
    fun _ _ _ _ f _ => h f.body
  exact ⟨fun c _ => h c, fun _ c _ => h c, fun _ => echoes_writeMessage, fun name _ => echoes_warnUnassigned name,
    fun _ => hcall, fun _ _ _ _ _ _ => hcall, fun _ => (calling_mirroring p).visitConstDef fun c _ => h c,
    fun _ _ params body _ _ name _ => echoes_settleFunction name params body⟩

/-- Calls of list methods mirror each other where the current line calls the same method. -/
theorem visitListMethodCall (n : Node) (hst : Alike p s t) (hread : t.reading = s.reading) :
    Matches p (fun _ => True) ((visitListMethodCall first n).exec s) ((visitListMethodCall second n).exec t) := by
  obtain ⟨s', t', hexec, hexec', hst, hs, ht⟩ := hst.exec_noteStep "visit_list_method_call"
  have hmeth : ∀ u : Session, currentMethod?.exec u = (.ok u.reading.method, u) := fun _ => rfl
  rw [Run.visitListMethodCall, exec_bind_ok hexec, Run.visitListMethodCall, exec_bind_ok hexec',
    exec_bind_ok (hmeth s'), exec_bind_ok (hmeth t'), hs, ht, hread]
  cases s.reading.method with
  | none => exact Mirrors.after (echoes_report _) (fun _ => .pure trivial) s' t' hst
  | some method => exact (calling_mirroring p).callMethod (fun c (_ : c ∈ n.kids) => h c) method s' t' hst

/-- Steps mirror each other; those that look at the source do where they read the same. -/
theorem namedStep {n : Node} {name : String} (hfits : Bond.Fits n name) {default : Node → Interp Value}
    (hdefault : (default n).Echoes p) (hst : Alike p s t)
    (hread : sourceRules.contains name = true → t.reading = s.reading) :
    Matches p (fun _ => True) (((namedStep first name).getD default n).exec s)
      (((namedStep second name).getD default n).exec t) := by
  by_cases hlogic : name = "logic_op"
  · subst hlogic
    exact matches_visitLogicOp n hst (hread rfl)
  by_cases hmeth : name = "list_method_call"
  · subst hmeth
    exact h.visitListMethodCall n hst (hread rfl)
  exact (calling_mirroring p).namedStep hfits (h.supports n) hdefault (absurd · hlogic) (absurd · hmeth) s t hst

end Twins

end FapLang.Run

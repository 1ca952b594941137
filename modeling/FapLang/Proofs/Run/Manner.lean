import FapLang.Proofs.Grammar.Shapes
import FapLang.Proofs.Run.Growth
import FapLang.Proofs.Run.Statements

/-!
Manners of running: what may lie between two sessions of a run and how a run may stop (`Manner`). To
go on in a manner (`Interp.Goes`) is closed under the ways to build steps, and steps that keep the
frame and add ordinary records (`Interp.Quiet`) do so in every lawful one.
-/

namespace FapLang

namespace Grammar

variable {c : Category} {n : Node}

theorem Of.isCalm (h : Of c n) (hc : c.isCalm = true) : n.isCalm = true := by
  obtain ⟨ls, next, h⟩ := h
  exact h.isCalm (fun x hx => List.mem_singleton.mp hx ▸ hc) n (List.mem_singleton_self n)

theorem Of.isOrderly (h : Of c n) : n.isOrderly = true := by
  obtain ⟨ls, next, h⟩ := h
  exact Derives.isOrderly h n (List.mem_singleton_self n)

end Grammar

namespace Run

open Interp Grammar

variable {α β : Type} {ending : Except Stop α × Session} {m : Interp α} {cs : List Node} {k : α → Interp β}

/-! ### Formed sessions -/

/-- A sound session whose functions have blocks of the grammar as bodies. -/
structure Formed (s : Session) : Prop where
  sound : Sound s
  bodies : ∀ id < s.scopes.size, ∀ entry ∈ (s.scope id).functions, Of .block entry.2.body

namespace Formed

variable {s t : Session} (hs : Formed s)

include hs

theorem of_sameFrame (h : SameFrame s t) : Formed t := by
  refine ⟨hs.sound.of_sameFrame h, fun id hid entry hentry => ?_⟩
  rw [h.scopes] at hid
  rw [h.scope_eq] at hentry
  exact hs.bodies id hid entry hentry

/-- A change of one scope that brings in no other functions than such. -/
theorem setScope {id : Nat} {f : Scope → Scope} (hsound : Sound (s.setScope id f))
    (hbodies : ∀ entry ∈ (f (s.scope id)).functions,
      entry ∈ (s.scope id).functions ∨ Of .block entry.2.body) : Formed (s.setScope id f) := by
  refine ⟨hsound, fun i hi entry hentry => ?_⟩
  rw [Session.size_setScope] at hi
  by_cases hid : i = id
  · subst hid
    rw [Session.scope_setScope_self hi] at hentry
    exact (hbodies entry hentry).elim (hs.bodies i hi entry) id
  · rw [Session.scope_setScope_of_ne hid] at hentry
    exact hs.bodies i hi entry hentry

theorem bindVar (id : Nat) (name : String) (v : Value) : Formed (s.bindVar id name v) :=
  hs.setScope (hs.sound.setScope rfl (fun _ => .inl) fun _ => .inl) fun _ => .inl

theorem dropVar (id : Nat) (name : String) : Formed (s.dropVar id name) :=
  hs.setScope (hs.sound.setScope rfl (fun _ => .inl) fun _ => .inl) fun _ => .inl

theorem bindConst {name : String} {v : Value} (hname : s.sees name = false) (hv : v.isPlain = true) :
    Formed (s.bindConst s.current name v) :=
  hs.setScope (hs.sound.change (.defineConst hname hv)) fun _ => .inl

theorem bindFunc (name : String) {body : Node} (hbody : Of .block body) (params : Nat) :
    Formed (s.bindFunc s.current name { params := params, body := body, scope := s.current }) := by
  refine hs.setScope (hs.sound.change (.defineFunc s name hbody.isOrderly params)) fun entry hentry => ?_
  rcases Table.mem_insert hentry with rfl | hold
  · exact .inr hbody
  · exact .inl hold

theorem request (result : Value) (returning breaking : Bool) :
    Formed { s with result := result, returning := returning, breaking := breaking } :=
  ⟨hs.sound.change (.request s result returning breaking), hs.bodies⟩

theorem body {f : Function} (hf : s.Knows f) : Of .block f.body := by
  obtain ⟨hmem, name, hget⟩ := hf
  exact hs.bodies f.scope (Session.lt_of_mem_chain hmem) _ (Table.mem_of_get? hget)

theorem entered {f : Function} (hf : s.Knows f) (bound : List (String × Value)) : Formed (s.entered f bound) := by
  refine ⟨hs.sound.entered hf bound, fun id hid entry hentry => ?_⟩
  obtain ⟨hlt, hold⟩ := Session.of_mem_entered hid rfl hentry
  exact hs.bodies id hlt entry hold

theorem resumed (ht : Formed t) (hsize : s.scopes.size ≤ t.scopes.size) : Formed (t.resumed s) :=
  ⟨hs.sound.resumed ht.sound hsize, ht.bodies⟩

end Formed

/-! ### Manners -/

/-- What may lie between two sessions of a run, how it may stop, and which names may be bound, with
a mark and without. -/
structure Manner where
  moves : Session → Session → Prop
  stops : Session → Stop → Session → Prop
  free : Bool → Session → String → Prop := fun _ s name ↦ name ∉ s.faulty

/-- A manner that the steps keep to which bind nothing and ask for nothing. -/
class Manner.Lawful (M : Manner) : Prop where
  refl (s : Session) : M.moves s s
  trans {s t u : Session} (h₁ : M.moves s t) (h₂ : M.moves t u) : M.moves s u
  prepend {s t u : Session} {stop : Stop} (h₁ : M.moves s t) (h₂ : M.stops t stop u) : M.stops s stop u
  caught {s t : Session} {f : Fault} (h : M.stops s (.fault f) t) : M.moves s t
  hidden {s t : Session} {f : Fault} (h : M.stops s (.fault f) t) : M.stops s (.fault (hideInternal f)) t
  aside {s t : Session} (hframe : SameFrame s t) (hgrowth : Growth s t) : M.moves s t
  fault (s : Session) {f : Fault} (hf : f.isGrave = false) : M.stops s (.fault f) s
  exhausted (s : Session) : M.stops s .exhausted s
  /-- A function whose list of parameters has been spoilt. -/
  spoilt {s : Session} {g : Function} {f : Fault} (hg : s.Knows g)
      (hf : signature (s.cells.getD g.params #[]).toList = .error f) : M.stops s (.fault f) s

/-- A point of a run that started in `s`. -/
def Manner.Reaches (M : Manner) (s t : Session) : Prop :=
  Formed t ∧ M.moves s t

theorem Manner.Reaches.remarks {M : Manner} {s t u : Session} (h : M.Reaches s t) [hM : M.Lawful] (hu : Remarks t u) :
    M.Reaches s u :=
  ⟨h.1.of_sameFrame hu.sameFrame, hM.trans h.2 (hM.aside hu.sameFrame hu.growth)⟩

/-- How a step may end in a run that started in `s`. -/
def Manner.Ends (M : Manner) (s : Session) : Except Stop α × Session → Prop
  | (.ok _, t) => M.Reaches s t
  | (.error stop, t) => Formed t ∧ M.stops s stop t

/-- What goes on in the first manner goes on in the second one. -/
structure Manner.Within (E M : Manner) : Prop where
  moves {s t : Session} (h : E.moves s t) : M.moves s t
  stops {s t : Session} {stop : Stop} (h : E.stops s stop t) : M.stops s stop t

theorem Manner.Within.refl (M : Manner) : M.Within M :=
  ⟨id, id⟩

/-- Started in a formed session, the step ends as the manner says. -/
def Interp.Goes (M : Manner) (m : Interp α) : Prop :=
  ∀ s, Formed s → M.Ends s (m.exec s)

/-- A manner that does not ask how steps end. -/
theorem Manner.lawful_of_moves {moves : Session → Session → Prop} {free : Bool → Session → String → Prop}
    (refl : ∀ s, moves s s) (trans : ∀ {s t u}, moves s t → moves t u → moves s u)
    (aside : ∀ {s t}, SameFrame s t → Growth s t → moves s t) :
    Manner.Lawful { moves := moves, stops := fun s _ t => moves s t, free := free } where
  refl := refl
  trans := trans
  prepend := trans
  caught h := h
  hidden h := h
  aside := aside
  fault s _ _ := refl s
  exhausted := refl
  spoilt _ _ := refl _

namespace Manner.Ends

variable {M : Manner} {s t : Session}

theorem moved {moves : Session → Session → Prop} {free : Bool → Session → String → Prop}
    (h : Manner.Ends { moves := moves, stops := fun s _ t => moves s t, free := free } s ending) : moves s ending.2 := by
  obtain ⟨outcome, t⟩ := ending
  cases outcome with
  | ok a => exact h.2
  | error stop => exact h.2

theorem prepend [hM : M.Lawful] (h : M.moves s t) (hend : M.Ends t ending) : M.Ends s ending := by
  obtain ⟨outcome, u⟩ := ending
  cases outcome with
  | ok a => exact ⟨hend.1, hM.trans h hend.2⟩
  | error stop => exact ⟨hend.1, hM.prepend h hend.2⟩

theorem within {E : Manner} (hwithin : E.Within M) (hend : E.Ends s ending) : M.Ends s ending := by
  obtain ⟨outcome, u⟩ := ending
  cases outcome with
  | ok a => exact ⟨hend.1, hwithin.moves hend.2⟩
  | error stop => exact ⟨hend.1, hwithin.stops hend.2⟩

/-- A step in the first manner and one that takes the run on in the second manner. -/
theorem bind_within {E : Manner} (hwithin : E.Within M) (hm : E.Ends s (m.exec t))
    (hk : ∀ a u, m.exec t = (.ok a, u) → E.Reaches s u → M.Ends s ((k a).exec u)) : M.Ends s ((m >>= k).exec t) := by
  rcases hexec : m.exec t with ⟨stop | a, u⟩ <;> rw [hexec] at hm
  · rw [exec_bind_error hexec]
    exact ⟨hm.1, hwithin.stops hm.2⟩
  · rw [exec_bind_ok hexec]
    exact hk a u hexec hm

/-- Two steps in a row, where the second may use what the first found. -/
theorem bind [hM : M.Lawful] (hm : M.Ends s (m.exec s))
    (hk : ∀ a t, m.exec s = (.ok a, t) → Formed t → M.moves s t → M.Ends t ((k a).exec t)) :
    M.Ends s ((m >>= k).exec s) :=
  bind_within (.refl M) hm fun a t hexec ht => prepend ht.2 (hk a t hexec ht.1 ht.2)

theorem of_quiet [hM : M.Lawful] (hs : Formed s) (hm : m.Quiet) : M.Ends s (m.exec s) := by
  have hframe := hm.stays s
  obtain ⟨hgrowth, hstop⟩ := hm.mild s
  cases hexec : m.exec s with
  | mk outcome t =>
    rw [hexec] at hframe hgrowth hstop
    have ht := hs.of_sameFrame hframe
    have hmoves := hM.aside hframe hgrowth
    cases outcome with
    | ok a => exact ⟨ht, hmoves⟩
    | error stop =>
      obtain ⟨f, rfl, hf⟩ := hstop stop rfl
      exact ⟨ht, hM.prepend hmoves (hM.fault t hf)⟩

theorem quiet [hM : M.Lawful] (h : M.Reaches s t) (hm : m.Quiet) : M.Ends s (m.exec t) :=
  prepend h.2 (of_quiet h.1 hm)

/-- A step after a quiet one. -/
theorem after_within {E : Manner} [hE : E.Lawful] (hwithin : E.Within M) (h : E.Reaches s t) (hm : m.Quiet)
    (hk : ∀ a u, m.exec t = (.ok a, u) → SameFrame t u → E.Reaches s u → M.Ends s ((k a).exec u)) :
    M.Ends s ((m >>= k).exec t) :=
  bind_within hwithin (quiet h hm) fun a u hexec hu => hk a u hexec (hm.stays.sameFrame hexec) hu

/-- The children of a tree are at hand. -/
theorem children_bind {rule : String} {k : List Node → Interp α} (hk : M.Ends s ((k cs).exec t)) :
    M.Ends s ((childrenOf (.tree rule cs) >>= k).exec t) :=
  hk

theorem child_bind {i : Nat} {c : Node} {k : Node → Interp α} (hc : cs[i]? = some c)
    (hk : M.Ends s ((k c).exec t)) : M.Ends s ((child cs i >>= k).exec t) := by
  unfold child Node.childAt
  rwa [hc]

/-- A quiet step after another one. -/
theorem then_quiet [hM : M.Lawful] (hm : M.Ends s (m.exec t)) (hk : ∀ a, (k a).Quiet) : M.Ends s ((m >>= k).exec t) :=
  bind_within (.refl M) hm fun a _ _ hu => quiet hu (hk a)

/-- A step after a quiet one, in one session. -/
theorem after [hM : M.Lawful] (hs : Formed s) (hm : m.Quiet)
    (hk : ∀ a t, m.exec s = (.ok a, t) → SameFrame s t → Growth s t → Formed t → M.Ends t ((k a).exec t)) :
    M.Ends s ((m >>= k).exec s) := by
  refine bind (of_quiet hs hm) fun a t hexec ht _ => ?_
  have hgrowth := (hm.mild s).1
  rw [hexec] at hgrowth
  exact hk a t hexec (hm.stays.sameFrame hexec) hgrowth ht

/-- A step at one level of visits more. -/
theorem hide [hM : M.Lawful] (hm : M.Ends s (m.exec s)) :
    M.Ends s ((recover m fun f => Interp.fail (hideInternal f)).exec s) := by
  rw [exec_recover]
  rcases hexec : m.exec s with ⟨stop | a, t⟩ <;> rw [hexec] at hm
  · cases stop with
    | fault f => exact ⟨hm.1, hM.hidden hm.2⟩
    | exhausted => exact hm
  · exact hm

end Manner.Ends

namespace Interp

theorem Quiet.goes {M : Manner} [hM : M.Lawful] (hm : m.Quiet) : m.Goes M :=
  fun _ hs => .of_quiet hs hm

namespace Goes

theorem within {E M : Manner} (hwithin : E.Within M) (hm : m.Goes E) : m.Goes M :=
  fun s hs => (hm s hs).within hwithin

variable {M : Manner} [hM : M.Lawful]

protected theorem pure (a : α) : (pure a : Interp α).Goes M :=
  Quiet.goes (.pure a)

protected theorem bind (hm : m.Goes M) (hk : ∀ a, (k a).Goes M) : (m >>= k).Goes M :=
  fun s hs => .bind (hm s hs) fun a t _ ht _ => hk a t ht

/-- The second step may use what value the first one gave. -/
theorem bind_ok (hm : m.Goes M) (hk : ∀ s a t, m.exec s = (.ok a, t) → (k a).Goes M) : (m >>= k).Goes M :=
  fun s hs => .bind (hm s hs) fun a t hexec ht _ => hk s a t hexec t ht

theorem after (hm : m.Quiet) (hk : ∀ a, (k a).Goes M) : (m >>= k).Goes M :=
  .bind (hm.goes) hk

theorem begins {step : String} (hm : m.Goes M) : (do noteStep step; m).Goes M :=
  .after (quiet_noteStep step) fun _ => hm

theorem noted {message : List Piece} (hm : m.Goes M) : (do note message; m).Goes M :=
  .after (quiet_note message) fun _ => hm

omit [M.Lawful] in
protected theorem ite {c : Prop} [Decidable c] {m' : Interp α} (hm : m.Goes M) (hm' : m'.Goes M) :
    (if c then m else m').Goes M :=
  iteInduction (fun _ => hm) fun _ => hm'

protected theorem recover {handler : Fault → Interp α} (hm : m.Goes M)
    (hhandler : ∀ f, (handler f).Goes M) : (Interp.recover m handler).Goes M := by
  intro s hs
  have hend := hm s hs
  rw [exec_recover]
  rcases hexec : m.exec s with ⟨stop | a, t⟩ <;> rw [hexec] at hend
  · cases stop with
    | fault f => exact .prepend (hM.caught hend.2) (hhandler f t hend.1)
    | exhausted => exact hend
  · exact hend

omit [M.Lawful] in
theorem children_bind {rule : String} {k : List Node → Interp α} (hk : (k cs).Goes M) :
    (childrenOf (.tree rule cs) >>= k).Goes M :=
  fun s hs => .children_bind (hk s hs)

omit [M.Lawful] in
theorem child_bind {i : Nat} {c : Node} {k : Node → Interp α} (hc : cs[i]? = some c)
    (hk : (k c).Goes M) : (child cs i >>= k).Goes M :=
  fun s hs => .child_bind hc (hk s hs)

end Goes

end Interp

/-! ### What visits are taken to do -/

/-- The categories of which nodes are visited in expressions and conditions. -/
def phraseForms : List Category :=
  [.expr, .term, .factor, .condition, .conditions, .logicOp, .memberAccess, .listLiteral]

/-- Expressions and calls go on in a manner, operators stand for themselves, and literals of lists
for lists. -/
structure Below (M : Manner) (visit : Visit) : Prop where
  tame : Tame visit
  phrase : ∀ c ∈ phraseForms, ∀ n, Of c n → (visit n).Goes M
  token : ∀ t : Terminal, t.isKept = true → ∀ text, (visit (.token t.name text)).Goes M
  absent : (visit .absent).Goes M
  call : ∀ s, Formed s → ∀ f, s.Knows f → ∀ bound, M.Ends s ((runCall visit f bound).exec s)
  comparison : ∀ {text s v t}, (visit (.token "COMPARISON_OP" text)).exec s = (.ok v, t) → v = .text text
  logic : ∀ {n s v t}, Of .logicOp n → (visit n).exec s = (.ok v, t) → v = .text "and" ∨ v = .text "or"
  list : ∀ {n s v t}, Of .listLiteral n → (visit n).exec s = (.ok v, t) → ∃ cell, v = .list cell

theorem Below.expr {M : Manner} {visit : Visit} (hvisit : Below M visit) {n : Node} (hn : Of .expr n) :
    (visit n).Goes M :=
  hvisit.phrase .expr (by decide) n hn

end Run

end FapLang

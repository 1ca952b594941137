import FapLang.Proofs.Run.Exec
import FapLang.Proofs.Run.Scopes
import FapLang.Run.Execute

/-!
Two sessions side by side (`Alike`): they differ in what is traced, or in the source only. What is
traced matters unless all integers are short (`Short`); the source matters in the full trace and to
two kinds of steps (`Session.reading`).
-/

namespace FapLang

namespace Value

variable {cells : Cells} {v : Value}

/-- Whether no integer in a value has too many digits; the items of lists aside. -/
def isShort (v : Value) : Bool :=
  v.isWritable #[]

theorem isShort_list (cell : Nat) : (list cell).isShort = true := by
  rw [isShort, isWritable, nestingLimit, isWritableWithin]
  simp

/-- Looking less deep finds fewer long integers. -/
theorem isWritableWithin_of_succ {fuel : Nat} {path : List Nat}
    (h : isWritableWithin cells (fuel + 1) path v = true) : isWritableWithin cells fuel path v = true := by
  induction fuel generalizing path v with
  | zero => rfl
  | succ fuel ih =>
    cases v with
    | int n => exact h
    | list cell =>
      rw [isWritableWithin, Bool.or_eq_true, Array.all_eq_true_iff_forall_mem] at h ⊢
      exact h.imp_right fun h item hitem => ih (h item hitem)
    | record fields =>
      rw [isWritableWithin, List.all_eq_true] at h ⊢
      exact fun field hfield => ih (h field hfield)
    | function f =>
      rw [isWritableWithin] at h ⊢
      exact ih h
    | none | bool | float | complex | text | node | scope => rfl

theorem isWritableWithin_of_le {fuel more : Nat} (hle : fuel ≤ more) {path : List Nat}
    (h : isWritableWithin cells more path v = true) : isWritableWithin cells fuel path v = true := by
  induction hle with
  | refl => exact h
  | step _ ih => exact ih (isWritableWithin_of_succ h)

theorem mem_of_mem_getD {cell : Nat} (h : v ∈ cells.getD cell #[]) : ∃ items ∈ cells, v ∈ items := by
  rw [Array.getD_eq_getD_getElem?] at h
  cases hget : cells[cell]? with
  | none =>
    rw [hget] at h
    simp at h
  | some items =>
    rw [hget] at h
    exact ⟨items, Array.mem_of_getElem? hget, h⟩

/-- Where all items are short, short values can be written. -/
theorem isWritable_of_isShort (hcells : ∀ items ∈ cells, ∀ v ∈ items, v.isShort = true)
    (hv : v.isShort = true) : v.isWritable cells = true := by
  have hwithin : ∀ fuel ≤ nestingLimit, ∀ path v, isWritableWithin #[] fuel [] v = true →
      isWritableWithin cells fuel path v = true := by
    intro fuel
    induction fuel with
    | zero => exact fun _ _ _ _ => rfl
    | succ fuel ih =>
      intro hle path v hv
      have hle' : fuel ≤ nestingLimit := Nat.le_of_succ_le hle
      cases v with
      | int n => exact hv
      | list cell =>
        rw [isWritableWithin, Bool.or_eq_true, Array.all_eq_true_iff_forall_mem]
        refine .inr fun item hitem => ih hle' _ item ?_
        obtain ⟨items, hitems, hitem⟩ := mem_of_mem_getD hitem
        exact isWritableWithin_of_le hle' (hcells items hitems item hitem)
      | record fields =>
        rw [isWritableWithin, List.all_eq_true] at hv ⊢
        exact fun field hfield => ih hle' path field.2 (hv field hfield)
      | function f =>
        rw [isWritableWithin] at hv ⊢
        exact ih hle' path _ hv
      | none | bool | float | complex | text | node | scope => rfl
  exact hwithin nestingLimit (Nat.le_refl _) [] v hv

end Value

namespace Run

/-- In what two sessions may differ. -/
inductive Aspect
  /-- In the trace modes and in all that they decide. -/
  | trace
  /-- In the source, which is one of two. -/
  | source (a b : Array String)

def Scope.still (scope : Scope) : Scope :=
  { scope with modes := .quiet }

/-- Scopes that are the same but for their modes bind the same. -/
theorem Scope.eq_of_still {a b : Scope} (h : b.still = a.still) :
    b.vars = a.vars ∧ b.constants = a.constants ∧ b.functions = a.functions := by
  cases a
  cases b
  simp only [still, mk.injEq] at h
  exact ⟨h.1, h.2.1, h.2.2.1⟩

/-- A line of output, or the prompt of a line that the program reads. -/
def Event.isProgram (event : Event) : Bool :=
  event.isOutput || event.isPrompt

/-- All values that names and lists hold are short. -/
structure Short (s : Session) : Prop where
  vars : ∀ id, ∀ entry ∈ (s.scope id).vars, entry.2.isShort = true
  constants : ∀ id, ∀ entry ∈ (s.scope id).constants, entry.2.isShort = true
  cells : ∀ items ∈ s.cells, ∀ v ∈ items, v.isShort = true

namespace Aspect

/-- What is left of a session without what may differ. -/
def blur : Aspect → Session → Session
  | trace, s =>
    { s with
      scopes := s.scopes.map Scope.still, errors := #[], modes := .quiet, notes := #[],
      events := s.events.filter Event.isProgram }
  | source _ _, s => { s with source := #[] }

/-- What keeps the difference from mattering. -/
def Guards : Aspect → Session → Prop
  | trace, s => Short s
  | source a b, s => s.modes.full = false ∧ (s.source = a ∨ s.source = b)

/-- Values that are held to be short where that matters. -/
def Admits (p : Aspect) (v : Value) : Prop :=
  p = trace → v.isShort = true

end Aspect

structure Alike (p : Aspect) (s t : Session) : Prop where
  blur : p.blur t = p.blur s
  guards : p.Guards s
  guards' : p.Guards t

/-- All is the same that a program can see of its session. -/
structure SameRecords (s t : Session) : Prop where
  scopes : t.scopes.map Scope.still = s.scopes.map Scope.still
  cells : t.cells = s.cells
  current : t.current = s.current
  used : t.used = s.used
  defined : t.defined = s.defined
  assigned : t.assigned = s.assigned
  warned : t.warned = s.warned
  faulty : t.faulty = s.faulty
  hasOutput : t.hasOutput = s.hasOutput
  line : t.line = s.line
  breaking : t.breaking = s.breaking
  returning : t.returning = s.returning
  result : t.result = s.result
  input : t.input = s.input
  events : t.events.filter Event.isProgram = s.events.filter Event.isProgram

namespace Alike

variable {p : Aspect} {s t : Session}

theorem refl (h : p.Guards s) : Alike p s s :=
  ⟨rfl, h, h⟩

theorem symm (h : Alike p s t) : Alike p t s :=
  ⟨h.blur.symm, h.guards', h.guards⟩

theorem trans {u : Session} (h : Alike p s t) (h' : Alike p t u) : Alike p s u :=
  ⟨h'.blur.trans h.blur, h.guards, h'.guards'⟩

theorem source_eq {a b : Array String} (h : Alike (.source a b) s t) : t = { s with source := t.source } := by
  have hblur := h.blur
  cases s
  cases t
  simpa [Aspect.blur] using hblur

/-- Sessions that are alike keep the same records. -/
theorem records (h : Alike p s t) : SameRecords s t := by
  have hfield : ∀ {β : Type} (field : Session → β), field (p.blur t) = field (p.blur s) :=
    fun field => congrArg field h.blur
  cases p with
  | trace =>
    exact ⟨hfield Session.scopes, hfield Session.cells, hfield Session.current, hfield Session.used,
      hfield Session.defined, hfield Session.assigned, hfield Session.warned, hfield Session.faulty,
      hfield Session.hasOutput, hfield Session.line, hfield Session.breaking, hfield Session.returning,
      hfield Session.result, hfield Session.input, hfield Session.events⟩
  | source =>
    exact ⟨congrArg (Array.map Scope.still) (hfield Session.scopes), hfield Session.cells,
      hfield Session.current, hfield Session.used, hfield Session.defined, hfield Session.assigned,
      hfield Session.warned, hfield Session.faulty, hfield Session.hasOutput, hfield Session.line,
      hfield Session.breaking, hfield Session.returning, hfield Session.result, hfield Session.input,
      congrArg (Array.filter Event.isProgram) (hfield Session.events)⟩

end Alike

namespace SameRecords

theorem refl (s : Session) : SameRecords s s :=
  ⟨rfl, rfl, rfl, rfl, rfl, rfl, rfl, rfl, rfl, rfl, rfl, rfl, rfl, rfl, rfl⟩

variable {s t : Session}

theorem still_scope (h : SameRecords s t) (id : Nat) : (t.scope id).still = (s.scope id).still := by
  have hget : (t.scopes.map Scope.still)[id]? = (s.scopes.map Scope.still)[id]? := by rw [h.scopes]
  rw [Array.getElem?_map, Array.getElem?_map] at hget
  have hscope : ∀ s : Session, (s.scope id).still =
      ((s.scopes[id]?).map Scope.still).getD (Scope.empty none) := by
    intro s
    rw [Session.scope_eq]
    cases s.scopes[id]? <;> rfl
  rw [hscope, hscope, hget]

theorem size (h : SameRecords s t) : t.scopes.size = s.scopes.size := by
  have hsize := congrArg Array.size h.scopes
  rwa [Array.size_map, Array.size_map] at hsize

theorem chain (h : SameRecords s t) (id : Nat) : t.chain id = s.chain id := by
  have hfrom : ∀ fuel id, chainFrom t.scopes fuel id = chainFrom s.scopes fuel id := by
    intro fuel
    induction fuel with
    | zero => exact fun _ => rfl
    | succ fuel ih =>
      intro id
      have hget : (t.scopes.map Scope.still)[id]? = (s.scopes.map Scope.still)[id]? := by rw [h.scopes]
      rw [Array.getElem?_map, Array.getElem?_map] at hget
      have hpar : (t.scopes[id]?).map Scope.parent = (s.scopes[id]?).map Scope.parent := by
        have hmap := congrArg (Option.map Scope.parent) hget
        rwa [Option.map_map, Option.map_map] at hmap
      rw [chainFrom, chainFrom]
      cases hs : s.scopes[id]? with
      | none =>
        rw [hs, Option.map_none, Option.map_eq_none_iff] at hpar
        rw [hpar]
      | some scope =>
        rw [hs, Option.map_some, Option.map_eq_some_iff] at hpar
        obtain ⟨other, hother, hup⟩ := hpar
        rw [hother]
        dsimp only
        rw [hup]
        cases scope.parent with
        | none => rfl
        | some parent => exact congrArg (id :: ·) (ih parent)
  rw [Session.chain, Session.chain, h.size]
  exact hfrom _ id

end SameRecords

end Run

end FapLang

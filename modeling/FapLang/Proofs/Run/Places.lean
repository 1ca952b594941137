import FapLang.Proofs.Run.Backing

/-!
Places in the source. No visit changes the current line or the source, and none loses a list
(`place_visitUntil`). Only the run of a top-level statement sets the line, to the number of the
statement (`line_runTop`).
-/

namespace FapLang.Run

open Interp

/-- The place in the source is the same, and no list is lost. -/
structure SamePlace (s t : Session) : Prop where
  line : t.line = s.line
  source : t.source = s.source
  lists : s.cells.size ≤ t.cells.size

namespace SamePlace

variable {s t u : Session}

theorem refl (s : Session) : SamePlace s s :=
  ⟨rfl, rfl, Nat.le_refl _⟩

theorem trans (h1 : SamePlace s t) (h2 : SamePlace t u) : SamePlace s u :=
  ⟨h2.line.trans h1.line, h2.source.trans h1.source, Nat.le_trans h1.lists h2.lists⟩

theorem currentLine?_eq (h : SamePlace s t) : t.currentLine? = s.currentLine? := by
  rw [Session.currentLine?, Session.currentLine?, h.line, h.source]

end SamePlace

/-- The contract to stay at one place. -/
def Contract.placing : Contract where
  holds _ := True
  post s _ t := SamePlace s t
  knows _ _ := True

instance Contract.placing_open : Contract.placing.Open where
  refl := .refl
  trans := .trans
  caught h := h
  raise s _ := .refl s
  aside h _ := ⟨trivial, h.line, h.source, h.lists⟩
  error s line message _ := by
    rw [reportAt, exec_modify]
    dsimp only
    split
    · exact ⟨trivial, .refl s⟩
    · exact ⟨trivial, rfl, rfl, Nat.le_refl _⟩
  blame _ _ _ := ⟨trivial, rfl, rfl, Nat.le_refl _⟩
  used _ _ _ := ⟨trivial, rfl, rfl, Nat.le_refl _⟩
  defined _ _ _ := ⟨trivial, rfl, rfl, Nat.le_refl _⟩
  assigned _ _ _ := ⟨trivial, rfl, rfl, Nat.le_refl _⟩
  note _ _ _ _ _ _ := ⟨trivial, rfl, rfl, Nat.le_refl _⟩
  write _ _ _ _ _ := ⟨trivial, rfl, rfl, Nat.le_refl _⟩
  prompt _ _ _ := ⟨trivial, rfl, rfl, Nat.le_refl _⟩
  event _ _ _ := ⟨trivial, rfl, rfl, Nat.le_refl _⟩
  notes _ _ _ _ _ _ _ := ⟨trivial, rfl, rfl, Nat.le_refl _⟩
  warned _ _ _ := ⟨trivial, rfl, rfl, Nat.le_refl _⟩
  output _ _ := ⟨trivial, rfl, rfl, Nat.le_refl _⟩

theorem Contract.pre_placing (s : Session) : Contract.placing.Pre s :=
  ⟨trivial, fun _ _ _ => trivial⟩

theorem Contract.supports_placing {visit : Visit} (h : ∀ n, (visit n).Obeys Contract.placing) (n : Node) :
    Contract.placing.Supports visit n :=
  fun _ _ => {
    inner := fun c _ => h c
    arguments := fun _ c _ => h c
    prints := fun _ severity message => placing_open.writeMessage severity message
    warns := fun name _ v => placing_open.warnUnassigned name v
    calls := fun _ _ f _ => h f.body
    defines := fun _ _ _ _ _ _ _ _ _ _ => trivial }

theorem obeys_placing_visitUntil (stops : Node → Session → Bool) (depth : Nat) (n : Node) :
    (visitUntil stops depth n).Obeys Contract.placing :=
  obeys_visitUntil (P := fun _ => True)
    (fun _ hvisit n _ => Contract.supports_placing (fun n => hvisit n trivial) n) .refl stops depth n trivial

/-- A visit stays at its place, whether it ends, fails or is cut off. -/
theorem place_visitUntil (stops : Node → Session → Bool) (depth : Nat) (n : Node) (s : Session) :
    SamePlace s ((visitUntil stops depth n).exec s).2 :=
  (obeys_placing_visitUntil stops depth n s (Contract.pre_placing s)).2

theorem place_visit (depth : Nat) (n : Node) (s : Session) : SamePlace s ((visit depth n).exec s).2 := by
  rw [← visitUntil_never]
  exact place_visitUntil _ depth n s

/-- Inside a top-level statement the current line is the number of that statement. -/
theorem line_runTop (stops : Node → Session → Bool) (depth i : Nat) (n : Node) (s : Session) :
    SamePlace { s with line := i } ((runTop (visitUntil stops depth) i n).exec s).2 := by
  have hrest : (do
      debugIf (← get).modes.full ("Visiting statement " ++ toString i ++ " at line " ++ toString i)
      recover (do let _ ← visitUntil stops depth n) fun f => statementFault i f : Interp Unit).Obeys
        Contract.placing := by
    refine .bind .get fun _ => .bind (obeys_debugIf _ _) fun _ => ?_
    exact .recover (.bind (obeys_placing_visitUntil stops depth n) fun _ => .pure _)
      fun f => obeys_statementFault i f
  rw [runTop, exec_bind_ok (exec_modify _ s)]
  exact (hrest _ (Contract.pre_placing _)).2

end FapLang.Run

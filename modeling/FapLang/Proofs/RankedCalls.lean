import FapLang.Proofs.Run.Collected
import FapLang.Proofs.Run.Inherited
import Mathlib.Algebra.Order.BigOperators.Group.List
import Mathlib.Algebra.Order.Group.Nat

/-!
Programs without recursion come to an end. If functions have ranks such that each calls functions of
lower rank only (`Node.Ranked`), then from some depth on a run is never cut off and always comes to
the same session (`ranked_programs_terminate`).
-/

namespace FapLang

variable {m n program : Node} {cs : List Node} {name rule : String}

/-! ### Calls and definitions -/

namespace Node

/-- The function that a tree calls, if it is a call of one that is not built in. -/
def called (rule : String) : List Node → List String
  | token _ name :: _ =>
    if rule = "func_call" ∨ rule = "func_call_stmt" ∨ rule = "math_func_call" ∧ name ∉ builtinFunctions then [name]
    else []
  | _ => []

mutual

/-- The functions that are called in a node, but not those that are called in functions defined
there. -/
def callees : Node → List String
  | tree rule cs => if rule = "func_def" then [] else called rule cs ++ calleesOfAll cs
  | _ => []

def calleesOfAll : List Node → List String
  | [] => []
  | c :: cs => callees c ++ calleesOfAll cs

end

/-- The name and the body of the function that a tree defines. -/
def defined (rule : String) : List Node → List (String × Node)
  | token _ name :: _ :: body :: _ => if rule = "func_def" then [(name, body)] else []
  | _ => []

mutual

/-- The functions that are defined in a node, also within the bodies of others. -/
def definitions : Node → List (String × Node)
  | tree rule cs => defined rule cs ++ definitionsOfAll cs
  | _ => []

def definitionsOfAll : List Node → List (String × Node)
  | [] => []
  | c :: cs => definitions c ++ definitionsOfAll cs

end

/-- Every function calls functions of lower rank only. -/
def Ranked (rank : String → Nat) (program : Node) : Prop :=
  ∀ d ∈ program.definitions, ∀ name ∈ d.2.callees, rank name < rank d.1

instance (rank : String → Nat) (program : Node) : Decidable (Ranked rank program) :=
  inferInstanceAs (Decidable (∀ d ∈ _, ∀ name ∈ _, _))

theorem calleesOfAll_eq_flatMap (cs : List Node) : calleesOfAll cs = cs.flatMap callees := by
  induction cs with
  | nil => rfl
  | cons c cs ih => rw [calleesOfAll, ih, List.flatMap_cons]

theorem definitionsOfAll_eq_flatMap (cs : List Node) : definitionsOfAll cs = cs.flatMap definitions := by
  induction cs with
  | nil => rfl
  | cons c cs ih => rw [definitionsOfAll, ih, List.flatMap_cons]

theorem callees_subset {c : Node} (hn : n.rule? ≠ some "func_def") (h : c ∈ n.kids) : c.callees ⊆ n.callees := by
  cases n with
  | tree rule cs =>
    intro name hname
    rw [callees, if_neg fun hrule => hn (congrArg some hrule), calleesOfAll_eq_flatMap]
    exact List.mem_append_right _ (List.mem_flatMap.mpr ⟨c, h, hname⟩)
  | token | absent | plain => cases h

theorem mem_callees_of_mayCall {kind other : String} {rest : List Node}
    (h : (tree rule (token kind other :: rest)).MayCall name) : name ∈ (tree rule (token kind other :: rest)).callees := by
  obtain rfl : other = name := h.heads kind other rest rfl
  have hrule : rule = "func_call" ∨ rule = "func_call_stmt" ∨ rule = "math_func_call" ∧ other ∉ builtinFunctions := by
    simpa only [rule?, Option.some.injEq] using h.rule
  have hdef : rule ≠ "func_def" := by
    rintro rfl
    simp at hrule
  rw [callees, if_neg hdef, called, if_pos hrule]
  exact .head _

theorem Part.definitions_subset (h : n.Part m) : n.definitions ⊆ m.definitions := by
  induction h with
  | refl => exact fun _ => id
  | child hc _ ih =>
    intro d hd
    rw [definitions, definitionsOfAll_eq_flatMap]
    exact List.mem_append_right _ (List.mem_flatMap.mpr ⟨_, hc, ih hd⟩)

theorem mem_definitions_func_def (kind name : String) (params body : Node) (rest : List Node) :
    (name, body) ∈ (tree "func_def" (token kind name :: params :: body :: rest)).definitions := by
  rw [definitions, defined, if_pos rfl]
  exact .head _

theorem mem_of_mem_defined {d : String × Node} (h : d ∈ defined rule cs) : d.2 ∈ cs := by
  unfold defined at h
  split at h
  · split at h
    · rw [List.mem_singleton.mp h]
      simp
    · cases h
  · cases h

theorem part_of_mem_definitions (n : Node) {d : String × Node} (h : d ∈ n.definitions) : d.2.Part n := by
  cases n with
  | tree rule cs =>
    rw [definitions, definitionsOfAll_eq_flatMap] at h
    rcases List.mem_append.mp h with h | h
    · exact .child (mem_of_mem_defined h) (.refl _)
    · obtain ⟨c, hc, hd⟩ := List.mem_flatMap.mp h
      exact .child hc (part_of_mem_definitions c hd)
  | token | absent | plain => cases h

theorem Part.of_mem_kids {c : Node} (h : n.Part m) (hc : c ∈ n.kids) : c.Part m := by
  induction h with
  | refl =>
    cases n with
    | tree rule cs => exact .child hc (.refl c)
    | token | absent | plain => cases hc
  | child hmem _ ih => exact .child hmem ih

theorem sizeOf_lt_of_mem_kids {c : Node} (h : c ∈ n.kids) : sizeOf c < sizeOf n := by
  cases n with
  | tree rule cs =>
    have hlt := List.sizeOf_lt_of_mem (show c ∈ cs from h)
    rw [tree.sizeOf_spec]
    omega
  | token | absent | plain => cases h

theorem Part.sizeOf_le (h : n.Part m) : sizeOf n ≤ sizeOf m := by
  induction h with
  | refl => exact Nat.le_refl _
  | @child c rule cs hc _ ih => exact Nat.le_trans ih (Nat.le_of_lt (sizeOf_lt_of_mem_kids (n := tree rule cs) hc))

end Node

namespace Grammar

/-- Calls and definitions in the tree of an accepted text begin with a name. -/
theorem exists_name_of_part {source : String} (h : parse source = .ok program)
    (hpart : (Node.tree rule cs).Part program)
    (hrule : rule ∈ ["func_call", "func_call_stmt", "math_func_call", "func_def"]) :
    ∃ name rest, cs = .token "IDENT" name :: rest := by
  simp only [List.mem_cons, List.not_mem_nil, or_false] at hrule
  rcases hrule with rfl | rfl | rfl | rfl
  · obtain ⟨name, rest, heq, -⟩ := (of_part h hpart .funcCall (by decide)).funcCall_inv
    exact ⟨name, rest, (Node.tree.inj heq).2⟩
  · obtain ⟨name, rest, heq, -⟩ := (of_part h hpart .funcCallStmt (by decide)).funcCallStmt_inv
    exact ⟨name, rest, (Node.tree.inj heq).2⟩
  · obtain ⟨name, rest, heq, -⟩ := (of_part h hpart .mathFuncCall (by decide)).mathFuncCall_inv
    exact ⟨name, rest, (Node.tree.inj heq).2⟩
  · obtain ⟨name, params, body, heq, -⟩ := (of_part h hpart .funcDef (by decide)).funcDef_inv
    exact ⟨name, [params, body], (Node.tree.inj heq).2⟩

end Grammar

namespace Run

open Interp Grammar

/-! ### Visits that are not cut off -/

/-- Nothing is cut off, and only functions of the program are called. -/
def Contract.ending (program : Node) : Contract where
  holds _ := True
  post _ stop _ := stop ≠ some .exhausted
  knows name f := (name, f.body) ∈ program.definitions

theorem Contract.ending_allows (program : Node) (s t : Session) : (Contract.ending program).Allows s t :=
  fun _ => ⟨trivial, (Option.some_ne_none _).symm⟩

instance Contract.ending_open (program : Node) : (Contract.ending program).Open where
  refl _ := (Option.some_ne_none _).symm
  trans _ h := h
  caught _ := (Option.some_ne_none _).symm
  raise _ _ := by simp [ending]
  aside _ := ending_allows program _ _
  error _ _ _ := ending_allows program _ _
  blame _ _ := ending_allows program _ _
  used _ _ := ending_allows program _ _
  defined _ _ := ending_allows program _ _
  assigned _ _ := ending_allows program _ _
  note _ _ _ _ _ := ending_allows program _ _
  write _ _ _ _ := ending_allows program _ _
  prompt _ _ := ending_allows program _ _
  event _ _ := ending_allows program _ _
  notes _ _ _ _ _ _ := ending_allows program _ _
  warned _ _ := ending_allows program _ _
  output _ := ending_allows program _ _

/-- A node of the program that calls functions below a rank only. -/
structure CallsBelow (rank : String → Nat) (program : Node) (r : Nat) (n : Node) : Prop where
  part : n.Part program
  callees : ∀ name ∈ n.callees, rank name < r

namespace CallsBelow

variable {code : String} {program : Node} (hparse : parse code = .ok program) {rank : String → Nat} {r : Nat} {n c : Node}
  (h : CallsBelow rank program r n)

include h

theorem kid (hn : n.rule? ≠ some "func_def") (hc : c ∈ n.kids) : CallsBelow rank program r c :=
  ⟨h.part.of_mem_kids hc, fun name hname => h.callees name (Node.callees_subset hn hc hname)⟩

include hparse

theorem inner (hc : c ∈ n.inner) : CallsBelow rank program r c := by
  by_cases hn : n.rule? = some "func_def"
  · cases n with
    | tree rule cs =>
      obtain rfl : rule = "func_def" := Option.some.inj hn
      obtain ⟨name, rest, rfl⟩ := exists_name_of_part hparse h.part (by decide)
      obtain rfl := List.mem_singleton.mp hc
      exact ⟨h.part.of_mem_kids (.head _), fun _ hname => absurd hname List.not_mem_nil⟩
    | token | absent | plain => cases hc
  · exact h.kid hn (Node.mem_kids_of_mem_inner hc)

theorem argument (hn : n.rule? = some "output_stmt") (hc : c ∈ argumentNodes n.kids) :
    CallsBelow rank program r c ∧ sizeOf c < sizeOf n := by
  cases n with
  | tree rule cs =>
    obtain rfl : rule = "output_stmt" := Option.some.inj hn
    obtain ⟨target, rest, heq, -, hargs⟩ := (of_part hparse h.part .outputStmt (by decide)).outputStmt_inv
    obtain rfl := (Node.tree.inj heq).2
    rcases hargs with rfl | ⟨args, rfl, -⟩
    · cases hc
    · have hargs : Node.tree "output_args" args ∈ (Node.tree "output_stmt" [target, .tree "output_args" args]).kids :=
        List.mem_cons_of_mem _ (.head _)
      refine ⟨(h.kid (by simp [Node.rule?]) hargs).kid (by simp [Node.rule?]) hc, ?_⟩
      exact Nat.lt_trans (Node.sizeOf_lt_of_mem_kids (n := .tree _ args) hc) (Node.sizeOf_lt_of_mem_kids hargs)
  | token | absent | plain => simp [Node.rule?] at hn

theorem mem_callees (hcall : n.MayCall name) : name ∈ n.callees := by
  cases n with
  | tree rule cs =>
    have hrule : rule ∈ ["func_call", "func_call_stmt", "math_func_call", "func_def"] := by
      rcases hcall.rule with hrule | hrule | ⟨hrule, -⟩ <;> rw [Option.some.inj hrule] <;> decide
    obtain ⟨other, rest, rfl⟩ := exists_name_of_part hparse h.part hrule
    exact Node.mem_callees_of_mayCall hcall
  | token | absent | plain => exact absurd hcall.rule (by simp [Node.rule?])

theorem mem_definitions (hn : n.rule? = some "func_def") (hheads : n.Heads name)
    {target params body : Node} {rest : List Node} (hkids : n.kids = target :: params :: body :: rest) :
    (name, body) ∈ program.definitions := by
  cases n with
  | tree rule cs =>
    obtain rfl : rule = "func_def" := Option.some.inj hn
    obtain ⟨other, others, rfl⟩ := exists_name_of_part hparse h.part (by decide)
    cases hkids
    obtain rfl : other = name := hheads _ _ _ rfl
    exact h.part.definitions_subset (Node.mem_definitions_func_def _ _ _ _ _)
  | token | absent | plain => simp [Node.rule?] at hn

end CallsBelow

/-- Nodes whose calls rank below `r` can be visited with room for a program in each rank below. -/
theorem obeys_visit_of_rank {code : String} (hparse : parse code = .ok program) {rank : String → Nat}
    (hranked : program.Ranked rank) {depth r : Nat} (hn : CallsBelow rank program r n)
    (hdepth : r * (sizeOf program + 1) + sizeOf n < depth) : (visit depth n).Obeys (.ending program) := by
  have hC := Contract.ending_open program
  induction depth generalizing n r with
  | zero => exact absurd hdepth (Nat.not_lt_zero _)
  | succ depth ih =>
    refine obeys_visit_succ fun m hm => ?_
    obtain ⟨hbelow, hsize⟩ : CallsBelow rank program r m ∧ sizeOf m ≤ sizeOf n := by
      refine hm.takesOver (P := fun m => CallsBelow rank program r m ∧ sizeOf m ≤ sizeOf n) (fun m hm c hc => ?_)
        ⟨hn, Nat.le_refl _⟩
      exact ⟨hm.1.inner hparse hc,
        Nat.le_trans (Nat.le_of_lt (Node.sizeOf_lt_of_mem_kids (Node.mem_kids_of_mem_inner hc))) hm.2⟩
    refine ⟨fun c hc => ?_, fun hrule c hc => ?_, fun _ => hC.writeMessage, fun name _ => hC.warnUnassigned name,
      fun name hcall f hf => ?_, fun hrule name hheads target params body rest hkids cell scope => ?_⟩
    · have hlt := Node.sizeOf_lt_of_mem_kids (Node.mem_kids_of_mem_inner hc)
      exact ih (hbelow.inner hparse hc) (by omega)
    · obtain ⟨harg, hlt⟩ := hbelow.argument hparse hrule hc
      exact ih harg (by omega)
    · have hlower := hbelow.callees name (hbelow.mem_callees hparse hcall)
      have hbody := Node.part_of_mem_definitions program hf
      have hroom := Nat.mul_le_mul_right (sizeOf program + 1) (Nat.succ_le_of_lt hlower)
      rw [Nat.succ_mul] at hroom
      have hbodySize : sizeOf f.body ≤ sizeOf program := hbody.sizeOf_le
      exact ih (r := rank name) ⟨hbody, hranked _ hf⟩ (by omega)
    · exact hbelow.mem_definitions hparse hrule hheads hkids

/-! ### Runs of ranked programs -/

/-- If each function calls only functions of lower rank, then from some depth on the run of a
program returns, and what it leaves does not depend on the depth. -/
theorem ranked_programs_terminate {code : String} {program : Node} (hparse : parse code = .ok program)
    {rank : String → Nat} (hranked : program.Ranked rank) :
    ∃ bound, ∀ s : Session, (∀ id, (s.scope id).functions = []) →
      ∃ t, ∀ depth, bound ≤ depth → (executeWithin (visit depth) code).exec s = (.ok (), t) := by
  let r := (program.callees.map rank).sum + 1
  have hprogram : CallsBelow rank program r program :=
    ⟨.refl program, fun name hname ↦ Nat.lt_succ_of_le (List.le_sum_of_mem (List.mem_map_of_mem hname))⟩
  have hstart : program.rule? ≠ some "func_def" := by
    obtain ⟨items, rfl, -⟩ := (of_parse hparse).start_inv
    simp [Node.rule?]
  have hC := Contract.ending_open program
  let bound := r * (sizeOf program + 1) + sizeOf program
  have hrun : (runText (visit bound) code).Obeys (.ending program) := by
    refine obeys_runText (fun _ _ ↦ Contract.ending_allows program _ _) (fun other hother c hc ↦ ?_)
      hC.warnUnused fun s ↦ hC.flushNotes _ s
    cases hparse.symm.trans hother
    have hlt := Node.sizeOf_lt_of_mem_kids hc
    exact obeys_visit_of_rank hparse hranked (hprogram.kid hstart hc) (Nat.add_lt_add_left hlt _)
  refine ⟨bound, fun s hs ↦ ?_⟩
  have hends : ((executeWithin (visit bound) code).exec s).1 ≠ .error .exhausted := by
    intro hcut
    have hpost := (hrun { s with notes := #[] } ⟨trivial, fun id entry hentry ↦ ?_⟩).2
    · rw [← exec_executeWithin_eq_runText, hcut] at hpost
      exact hpost rfl
    · have hnone : (s.scope id).functions = [] := hs id
      cases hnone ▸ hentry
  obtain ⟨t, ht⟩ := (exec_executeWithin_cases _ code s).resolve_left hends
  refine ⟨t, fun depth hdepth ↦ ?_⟩
  rw [inherited_lasts.executeWithin (lasts_visit hdepth) (fun _ h ↦ h.recover _) code s hends, ht]

/-- One function calls another one in a loop. -/
theorem calls_in_loop_terminate :
    ∃ (program : Node) (rank : String → Nat),
      parse "Fuc g()[rep.stop]\nFuc f()[Again(3)[g()]]\nf()" = .ok program ∧ program.Ranked rank ∧ rank "g" < rank "f" ∧
        ∃ bound, ∀ s : Session, (∀ id, (s.scope id).functions = []) → ∃ t, ∀ depth, bound ≤ depth →
          (executeWithin (visit depth) "Fuc g()[rep.stop]\nFuc f()[Again(3)[g()]]\nf()").exec s = (.ok (), t) := by
  let code := "Fuc g()[rep.stop]\nFuc f()[Again(3)[g()]]\nf()"
  let rank : String → Nat := fun name ↦ if name = "f" then 1 else 0
  obtain ⟨hparses, hranked⟩ : (parse code).isOk = true ∧ (Node.tree "start" (parsedItems code)).Ranked rank := by
    decide +kernel
  have hparse : parse code = .ok (.tree "start" (parsedItems code)) := parse_eq_parsedItems hparses
  exact ⟨_, rank, hparse, hranked, by decide, ranked_programs_terminate hparse hranked⟩

end Run

end FapLang

import FapLang.Proofs.LogicWords

/-!
Chains of conditions with different words in them. A chain is cut off after the first word that
settles its own pair (`exitOf`). The cut is seen exactly if the last condition that decides on its
own (`lastDecision`) comes after it and decides the other way.
-/

namespace FapLang.Run

open Interp

namespace Connective

variable {w : Connective}

def apply : Connective → Bool → Bool → Bool
  | conj => and
  | disj => or

/-- Whether a truth value is the one that the connective cannot change any more. -/
def settles : Connective → Bool → Bool
  | conj, b => !b
  | disj, b => b

theorem settles_iff {b c : Bool} (hb : w.settles b = true) : w.settles c = true ↔ c = b := by
  cases w <;> cases b <;> cases c <;> simp_all [settles]

/-- A condition that settles a pair decides it, and any other one leaves it as it is. -/
theorem apply_eq (w : Connective) (b c : Bool) : w.apply b c = if w.settles c then c else b := by
  cases w <;> cases b <;> cases c <;> rfl

end Connective

/-- The words of a chain, each with the truth value of the condition after it. -/
abbrev Links := List (Connective × Bool)

/-- All words are applied, from the left. -/
def plainFold (b : Bool) (links : Links) : Bool :=
  links.foldl (fun b link ↦ link.1.apply b link.2) b

/-- The outcome of a chain up to the first word that settles its own pair, and the rest. -/
def exitOf : Bool → Links → Bool × Links
  | b, [] => (b, [])
  | b, (w, c) :: rest => if w.settles (w.apply b c) then (w.apply b c, rest) else exitOf (w.apply b c) rest

/-- The last condition that decides its pair whatever stands before it. -/
def lastDecision (links : Links) : Option Bool :=
  ((links.filter fun link ↦ link.1.settles link.2).getLast?).map (·.2)

variable (b : Bool)

/-- The words after the cut would be applied to the outcome. -/
theorem plainFold_exitOf (links : Links) : plainFold b links = plainFold (exitOf b links).1 (exitOf b links).2 := by
  induction links generalizing b with
  | nil => rfl
  | cons link rest ih =>
    obtain ⟨w, c⟩ := link
    rw [exitOf]
    split
    · rfl
    · exact ih (w.apply b c)

theorem plainFold_eq (links : Links) : plainFold b links = (lastDecision links).getD b := by
  induction links generalizing b with
  | nil => rfl
  | cons link rest ih =>
    obtain ⟨w, c⟩ := link
    have hfold : plainFold b ((w, c) :: rest) = plainFold (w.apply b c) rest := rfl
    rw [hfold, ih, Connective.apply_eq, lastDecision, lastDecision, List.filter_cons]
    dsimp only
    cases w.settles c with
    | false => rfl
    | true =>
      rw [if_pos rfl, if_pos rfl, List.getLast?_cons]
      cases (rest.filter fun link => link.1.settles link.2).getLast? with
      | none => rfl
      | some last => rfl

/-- The cut is not seen unless a condition after it decides the other way. -/
theorem exitOf_eq_plainFold_iff (links : Links) :
    (exitOf b links).1 = plainFold b links ↔ ∀ c ∈ lastDecision (exitOf b links).2, c = (exitOf b links).1 := by
  rw [plainFold_exitOf, plainFold_eq]
  cases lastDecision (exitOf b links).2 with
  | none => simp
  | some c =>
    constructor
    · rintro heq d ⟨⟩
      exact heq.symm
    · exact fun hall => (hall c rfl).symm

/-- Where a chain of one word is cut off, the word is settled. -/
theorem settles_exitOf {links : Links} (hlinks : ∀ link ∈ links, link.1 = w) :
    (exitOf b links).2 = [] ∨
      w.settles (exitOf b links).1 = true ∧ ∀ link ∈ (exitOf b links).2, link.1 = w := by
  induction links generalizing b with
  | nil => exact .inl rfl
  | cons link rest ih =>
    obtain ⟨v, c⟩ := link
    obtain ⟨rfl, hrest⟩ := List.forall_mem_cons.mp hlinks
    rw [exitOf]
    split
    · rename_i hsettled
      exact .inr ⟨hsettled, hrest⟩
    · exact ih _ hrest

theorem exitOf_eq_plainFold {links : Links} (hlinks : ∀ link ∈ links, link.1 = w) :
    (exitOf b links).1 = plainFold b links := by
  rw [exitOf_eq_plainFold_iff]
  intro c hc
  obtain ⟨link, hlast, rfl⟩ := Option.map_eq_some_iff.mp hc
  obtain ⟨hlink, hdecides⟩ := List.mem_filter.mp (List.mem_of_getLast? hlast)
  rcases settles_exitOf b hlinks with hnone | ⟨hsettled, hrest⟩
  · rw [hnone] at hlink
    cases hlink
  · rw [hrest link hlink] at hdecides
    exact (Connective.settles_iff hsettled).mp hdecides

/-- A chain runs up to its cut. -/
theorem exec_chainOperators_links (ws : List Connective) (bs : List Bool) (s : Session) :
    (chainOperators (.bool b) ((ws.map fun w => .text w.word).zip (bs.map .bool))).exec s =
      (.ok (.bool (exitOf b (ws.zip bs)).1), s) := by
  induction ws generalizing b bs with
  | nil => rfl
  | cons w ws ih =>
    cases bs with
    | nil => rfl
    | cons c bs =>
      rw [List.map_cons, List.map_cons, List.zip_cons_cons, List.zip_cons_cons, exitOf]
      cases w with
      | conj =>
        cases b with
        | false => rfl
        | true =>
          cases c with
          | false => rfl
          | true => exact ih true bs
      | disj =>
        cases b with
        | true => rfl
        | false =>
          cases c with
          | true => rfl
          | false => exact ih false bs

/-- The words among the children of a chain. -/
def wordsOf (cs : List Node) : List Node :=
  cs.filter (·.hasRule "logic_op")

/-- What is gathered: one truth value for each condition, and one value for each word. -/
theorem parts_of_visitConditionParts {depth : Nat} {cs : List Node} {results ops results' ops' : List Value}
    {s t : Session} (h : (visitConditionParts (visit depth) cs results ops).exec s = (.ok (results', ops'), t)) :
    ∃ (bs : List Bool) (words : List Value), results' = results ++ bs.map .bool ∧ ops' = ops ++ words ∧
      bs.length = (conditionsOf cs).length ∧
      words.length = (wordsOf cs).length := by
  induction cs generalizing results ops s with
  | nil =>
    cases h
    exact ⟨[], [], by simp, by simp, rfl, rfl⟩
  | cons n rest ih =>
    rw [visitConditionParts.eq_def] at h
    dsimp only at h
    split at h
    · rename_i hrule
      obtain ⟨ns, rfl⟩ : ∃ ns, n = .tree "condition" ns := by
        cases n with
        | tree rule ns => exact ⟨ns, by rw [Option.some.inj hrule]⟩
        | token | absent | plain => simp [Node.rule?] at hrule
      obtain ⟨v, s1, hvisit, h⟩ := exec_bind_eq_ok h
      obtain ⟨b, rfl⟩ := decides_visit_condition s v s1 hvisit
      obtain ⟨_, s2, -, h⟩ := exec_bind_eq_ok h
      obtain ⟨bs, words, rfl, rfl, hbs, hwords⟩ := ih h
      refine ⟨b :: bs, words, by simp, rfl, ?_, hwords⟩
      rw [List.length_cons, hbs]
      rfl
    · rename_i hrule
      obtain ⟨ns, rfl⟩ : ∃ ns, n = .tree "logic_op" ns := by
        cases n with
        | tree rule ns => exact ⟨ns, by rw [Option.some.inj hrule]⟩
        | token | absent | plain => simp [Node.rule?] at hrule
      obtain ⟨v, s1, -, h⟩ := exec_bind_eq_ok h
      obtain ⟨_, s2, -, h⟩ := exec_bind_eq_ok h
      obtain ⟨bs, words, rfl, rfl, hbs, hwords⟩ := ih h
      refine ⟨bs, v :: words, rfl, by simp, hbs, ?_⟩
      rw [List.length_cons, hwords]
      rfl
    · rename_i hcond hword
      obtain ⟨bs, words, hres, hops, hbs, hwords⟩ := ih h
      have hother : ∀ rule, n.hasRule rule = true → n.rule? = some rule := by
        intro rule hrule
        cases n with
        | tree other ns => exact beq_iff_eq.mp hrule
        | token | absent | plain => simp [Node.hasRule, Node.rule?] at hrule
      refine ⟨bs, words, hres, hops, ?_, ?_⟩
      · have hnone := Bool.eq_false_iff.mpr fun h => hcond (hother "condition" h)
        rw [hbs, conditionsOf, conditionsOf, List.filter_cons, hnone, if_neg Bool.false_ne_true]
      · have hnone := Bool.eq_false_iff.mpr fun h => hword (hother "logic_op" h)
        rw [hwords, wordsOf, wordsOf, List.filter_cons, hnone, if_neg Bool.false_ne_true]

/-- All conditions and words of a chain are visited in order, and one that stops ends the chain. The
outcome is that of the chain up to its cut. It is that of all words exactly if the last condition
after the cut that decides on its own decides the same way, as it does in a chain of one word. -/
theorem chains_are_cut_off (depth : Nat) (rule : String) {cs : List Node} (hwords : wordsOf cs ≠ [])
    (hcount : (conditionsOf cs).length = (wordsOf cs).length + 1) (s : Session) :
    ∃ s₁, Remarks s s₁ ∧
      (∀ stop t, (visitConditionParts (visit depth) cs [] []).exec s₁ = (.error stop, t) →
        (visitConditions (visit depth) (.tree rule cs)).exec s = (.error stop, t)) ∧
      ∀ results ops t, (visitConditionParts (visit depth) cs [] []).exec s₁ = (.ok (results, ops), t) →
        ∃ (b : Bool) (bs : List Bool), results = (b :: bs).map .bool ∧ bs.length = (wordsOf cs).length ∧
          ops.length = (wordsOf cs).length ∧
          ∀ ws : List Connective, ops = ws.map (fun w ↦ .text w.word) →
            (visitConditions (visit depth) (.tree rule cs)).exec s = (.ok (.bool (exitOf b (ws.zip bs)).1), t) ∧
            ((exitOf b (ws.zip bs)).1 = plainFold b (ws.zip bs) ↔
              ∀ c ∈ lastDecision (exitOf b (ws.zip bs)).2, c = (exitOf b (ws.zip bs)).1) ∧
            ((∃ w, ∀ v ∈ ws, v = w) → (exitOf b (ws.zip bs)).1 = plainFold b (ws.zip bs)) := by
  obtain ⟨s₁, hnote₁, hs₁⟩ := tells_noteStep "visit_conditions" s
  obtain ⟨s₂, hnote₂, hs₂⟩ : (note [.lit "[RUNTIME] Conditions node has ", .lit (toString cs.length),
      .lit " children"]).Tells s₁ () := tells_note rfl
  have hchain : (visitConditions (visit depth) (.tree rule cs)).exec s =
      (visitConditionParts (visit depth) cs [] [] >>= fun parts ↦ combineConditions parts.1 parts.2).exec s₂ := by
    have htwo : 2 ≤ cs.length := by
      have hpos := List.length_pos_iff.mpr hwords
      have hle : (conditionsOf cs).length ≤ cs.length := List.length_filter_le ..
      omega
    obtain ⟨first, rest, rfl⟩ := List.exists_cons_of_length_pos (Nat.lt_of_succ_lt htwo)
    obtain ⟨second, rest, rfl⟩ := List.exists_cons_of_length_pos (Nat.lt_of_succ_lt_succ htwo)
    exact (exec_bind_ok hnote₁).trans (exec_bind_ok hnote₂)
  refine ⟨s₂, hs₁.trans hs₂, fun stop t hparts ↦ hchain.trans (exec_bind_error hparts), ?_⟩
  intro results ops t hparts
  obtain ⟨bs, words, hresults, hops, hbs, hlength⟩ := parts_of_visitConditionParts hparts
  obtain ⟨b, bs, rfl⟩ := List.exists_cons_of_length_eq_add_one (hbs.trans hcount)
  obtain rfl : results = (b :: bs).map .bool := hresults
  obtain rfl : ops = words := hops
  have hbs : bs.length = (wordsOf cs).length := Nat.succ.inj (hbs.trans hcount)
  refine ⟨b, bs, rfl, hbs, hlength, ?_⟩
  rintro ws rfl
  refine ⟨?_, exitOf_eq_plainFold_iff b _, ?_⟩
  · rw [hchain, exec_bind_ok hparts, ← exec_chainOperators_links]
    obtain ⟨w, ws, rfl⟩ := List.exists_cons_of_ne_nil
      (show ws ≠ [] from fun hnil ↦ hwords (List.length_eq_zero_iff.mp (by rw [← hlength, hnil]; rfl)))
    have hsame : (bs.map Value.bool).length = ((w :: ws).map fun w ↦ Value.text w.word).length := by
      rw [List.length_map, hbs, hlength]
    rw [List.map_cons] at hsame
    dsimp only
    rw [List.map_cons, List.map_cons, combineConditions, if_pos hsame]
    simp
  · rintro ⟨w, hw⟩
    exact exitOf_eq_plainFold b fun link hlink ↦ hw _ (List.of_mem_zip hlink).1

/-- After a false pair of an `and` the `or` with a true condition is not looked at. -/
theorem mixed_chain_cut_off :
    ∃ cs t, wordsOf cs ≠ [] ∧ (conditionsOf cs).length = (wordsOf cs).length + 1 ∧
      (visitConditions (visit 2) (.tree "conditions" cs)).exec Session.fresh = (.ok (.bool false), t) ∧
      plainFold false [(.conj, true), (.disj, true)] = true := by
  let equal : String → String → Node := fun a b ↦ .tree "condition" [.plain a, .token "COMPARISON_OP" "?", .plain b]
  let word : String → Node := fun text ↦ .tree "logic_op" [.token "LOGIC_OP" text]
  let cs : List Node := [equal "a" "b", word "and", equal "a" "a", word "or", equal "b" "b"]
  have hsome : wordsOf cs ≠ [] := List.cons_ne_nil (word "and") [word "or"]
  obtain ⟨s₁, ⟨notes, events, rfl⟩, -, hparts⟩ := chains_are_cut_off 2 "conditions" hsome rfl Session.fresh
  let u : Session := { Session.fresh with notes := notes, events := events }
  have hword : ∀ text, (visit 2 (word text)).exec u = (.ok (.text (Text.lower text)), u) := fun _ ↦ rfl
  have hand : Text.lower "and" = "and" := by decide +kernel
  have hor : Text.lower "or" = "or" := by decide +kernel
  have hgathered : (visitConditionParts (visit 2) cs [] []).exec u =
      (.ok ([.bool false, .bool true, .bool true], [.text "and", .text "or"]), u) := by
    have hfalse : (visit 2 (equal "a" "b")).exec u = (.ok (.bool false), u) := rfl
    have htrue : (visit 2 (equal "a" "a")).exec u = (.ok (.bool true), u) := rfl
    have htrue' : (visit 2 (equal "b" "b")).exec u = (.ok (.bool true), u) := rfl
    refine (exec_bind_ok hfalse).trans ((exec_bind_ok rfl).trans ((exec_bind_ok (hand ▸ hword "and")).trans ?_))
    refine (exec_bind_ok rfl).trans ((exec_bind_ok htrue).trans ((exec_bind_ok rfl).trans ?_))
    refine (exec_bind_ok (hor ▸ hword "or")).trans ((exec_bind_ok rfl).trans ?_)
    exact (exec_bind_ok htrue').trans (exec_bind_ok rfl)
  obtain ⟨b, bs, hresults, -, -, houtcome⟩ := hparts _ _ _ hgathered
  obtain ⟨rfl, rfl⟩ : false = b ∧ [true, true] = bs := by
    have hvalues : [false, true, true].map Value.bool = (b :: bs).map Value.bool := hresults
    exact List.cons.inj (List.map_injective_iff.mpr (fun _ _ ↦ Value.bool.inj) hvalues)
  obtain ⟨hexec, -⟩ := houtcome [.conj, .disj] rfl
  exact ⟨cs, u, hsome, rfl, hexec, rfl⟩

end FapLang.Run

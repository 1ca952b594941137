import FapLang.Proofs.Returns

/-!
The iterations of loops. A loop runs its block as often as its count says, unless an iteration fails
or asks it to end (`LapsFrom`). Such a request is the last statement that the loop starts, and the
loop leaves nothing asked for (`stops_end_their_loop`).
-/

namespace FapLang

variable {s t : Run.Session} {count i left : Nat} {v : Value}

/-- The number of iterations: the integer part of a number that is finite and not negative. -/
def Value.iterations? : Value → Option Nat
  | bool b => some b.toNat
  | int n => if n < 0 then Option.none else some n.toNat
  | float x =>
    if Number.isNaN x || Number.isInfinite x || (Number.toRatio x).1 < 0 then Option.none
    else some (Number.truncate x).toNat
  | _ => Option.none

/-- Such a value is accepted as a count. -/
theorem Value.count_of_iterations (h : v.iterations? = some count) (cells : Cells) :
    v.isReal = true ∧ v.order cells .less (.int 0) = .ok false ∧ ∃ n, v.toInt = .ok (.int n) ∧ n.toNat = count := by
  cases v with
  | bool b => cases b <;> exact ⟨rfl, rfl, _, rfl, Option.some.inj h⟩
  | int n =>
    by_cases hn : n < 0
    · simp [iterations?, hn] at h
    · have hless : Relation.less.holds (compare n 0) = false := by
        rw [Relation.holds, show compare n 0 = if n < 0 then .lt else if n = 0 then .eq else .gt from rfl, if_neg hn]
        split_ifs <;> rfl
      refine ⟨rfl, congrArg Except.ok hless, n, rfl, ?_⟩
      simpa [iterations?, hn] using h
  | float x =>
    by_cases hx : (Number.isNaN x || Number.isInfinite x || decide ((Number.toRatio x).1 < 0)) = true
    · exact absurd h (by rw [iterations?, if_pos hx]; simp)
    · rw [iterations?, if_neg hx] at h
      simp only [Bool.or_eq_true, decide_eq_true_eq, not_or, Bool.not_eq_true] at hx
      obtain ⟨⟨hnan, hfinite⟩, hsign⟩ := hx
      have hless : ((Number.compareInt 0 x).map Ordering.swap).any Relation.less.holds = false := by
        have hswap : (compare 0 (Number.toRatio x).1).swap ≠ .lt := by
          generalize (Number.toRatio x).1 = n at hsign
          rw [show compare 0 n = if 0 < n then .lt else if 0 = n then .eq else .gt from rfl]
          split_ifs with hpos hzero
          · simp
          · simp
          · omega
        simp [Number.compareInt, hnan, hfinite, Relation.holds, hswap]
      refine ⟨rfl, congrArg Except.ok hless, Number.truncate x, ?_, Option.some.inj h⟩
      rw [toInt, if_neg (by simp [hnan]), if_neg (by simp [hfinite])]
  | none | complex | text | list | record | function | node | scope => simp [iterations?] at h

namespace Run

open Interp Grammar

/-! ### Before the first iteration -/

theorem exec_isLoopCount (h : v.iterations? = some count) (s : Session) : (isLoopCount v).exec s = (.ok true, s) := by
  obtain ⟨hreal, horder, -⟩ := Value.count_of_iterations h s.cells
  rw [isLoopCount, if_pos hreal, exec_get_bind, horder]
  rfl

/-- A loop with a good count begins, if the count can be written. -/
theorem exec_beginLoop {d : Nat} {parts : LoopParts}
    (htimes : (visit d parts.times).exec s = (.ok v, t)) (hcount : v.iterations? = some count) :
    (t.Writes [.val v] → ∃ u, (beginLoop (visit d) parts).exec s = (.ok (some count), u) ∧
      Remarks { t with breaking := false } u) ∧
    (¬ t.Writes [.val v] → (beginLoop (visit d) parts).exec s = (.error (.fault .tooManyDigits), t)) := by
  obtain ⟨-, -, n, hint, hn⟩ := Value.count_of_iterations hcount t.cells
  let header : List Piece := ["[RUNTIME] Starting loop: ", v, " iterations"]
  have hwrites : t.Writes header ↔ t.Writes [.val v] := by simp [header, Session.Writes, Piece.isWritable]
  have hbegin : (beginLoop (visit d) parts).exec s = (openLoop v >>= fun count => pure (some count)).exec t := by
    rw [beginLoop, exec_bind_ok htimes, exec_bind_ok (exec_isLoopCount hcount t), if_pos rfl]
  rw [hbegin]
  refine ⟨fun hv => ?_, fun hv => ?_⟩
  · obtain ⟨u, hnote, notes, events, rfl⟩ := tells_note (hwrites.mpr hv)
    refine ⟨_, ?_, notes, events, rfl⟩
    refine exec_bind_ok ?_
    rw [openLoop, exec_bind_ok hnote, exec_bind_ok (exec_setBreaking false _), hint]
    exact congrArg (fun count => (Except.ok count, _)) hn
  · exact exec_bind_error (exec_bind_error (exec_note_of_not_writes (mt hwrites.mp hv)))

/-- The number of an iteration can be written if the count can. -/
theorem isWritable_of_le (hcount : v.iterations? = some count) {cells : Cells}
    (hv : v.isWritable cells = true) (hi : i ≤ count) : Number.isWritable i = true := by
  obtain ⟨-, -, n, hint, hn⟩ := Value.count_of_iterations hcount #[]
  obtain ⟨m, hm, hwritable⟩ := Value.exists_int_of_toInt hint
  obtain rfl : n = m := Value.int.inj hm
  have hbound : Number.isWritable n = true := by
    rcases hwritable with rfl | hwritable
    · exact hv
    · exact hwritable
  unfold Number.isWritable at hbound ⊢
  generalize Nat.pow 10 Number.digitLimit = bound at hbound ⊢
  simp only [decide_eq_true_eq] at hbound ⊢
  omega

theorem succeeds_beginLap (parts : LoopParts) (hi : Number.isWritable i = true) : (beginLap parts i).Succeeds := by
  have hint : ∀ cells : Cells, Value.isWritable cells (.int i) = true := fun _ => hi
  have hannounce : ∀ id, (announce id "define_var" [parts.var, .val (.int i)]).Succeeds :=
    fun id => .of_tells fun _ => ⟨(), tells_announce id _ (by simp [Session.Writes, Piece.isWritable, hint])⟩
  have hout : ∀ id, (announceOutcome id ["Defined variable: ", parts.var, " = ", .val (.int i)]).Succeeds :=
    fun id => .of_tells fun _ => ⟨(), tells_announceOutcome id (by simp [Session.Writes, Piece.isWritable, hint])⟩
  have hdefine : (define parts.var (.int i)).Succeeds :=
    .bind .get fun s => .bind (hannounce s.current) fun _ => .bind (.modify _) fun _ => hout s.current
  refine .bind (succeeds_note fun _ => rfl) fun _ => .ite (.pure ()) (.bind hdefine fun _ => succeeds_note fun _ => rfl)

/-! ### Iterations -/

/-- An iteration: where its block starts, the statements it starts, whether it ends, and what it
leaves. -/
structure Lap where
  begun : Session
  starts : List Start
  done : Bool
  ended : Session

/-- Whether the loop goes on after an iteration. -/
def Lap.goesOn (lap : Lap) : Bool :=
  lap.done && !lap.ended.breaking

/-- The iterations of a loop from one number on, if at most so many are left. -/
inductive LapsFrom (d : Nat) (parts : LoopParts) (items : List Node) : Nat → Nat → Session → List Lap → Prop
  | none (i : Nat) (s : Session) : LapsFrom d parts items 0 i s []
  | last {left i : Nat} {s : Session} {lap : Lap} (hbegun : Remarks (s.counted parts i) lap.begun)
      (hrun : Runs d (.block items) lap.begun lap.starts lap.done lap.ended) (hoff : lap.goesOn = false) :
      LapsFrom d parts items (left + 1) i s [lap]
  | more {left i : Nat} {s : Session} {lap : Lap} {laps : List Lap} (hbegun : Remarks (s.counted parts i) lap.begun)
      (hrun : Runs d (.block items) lap.begun lap.starts lap.done lap.ended) (hon : lap.goesOn = true)
      (hrest : LapsFrom d parts items left (i + 1) lap.ended laps) :
      LapsFrom d parts items (left + 1) i s (lap :: laps)

variable {d : Nat} {parts : LoopParts} {items : List Node}

theorem Remarks.counted (h : Remarks s t) (parts : LoopParts) (i : Nat) :
    Remarks (s.counted parts i) (t.counted parts i) := by
  unfold Session.counted
  split
  · exact h
  · rw [h.sameFrame.current]
    exact h.bindVar _ _ _

/-- The session that iterations leave. -/
def afterLaps : Session → List Lap → Session
  | s, [] => s
  | _, lap :: laps => afterLaps lap.ended laps

theorem Remarks.afterLaps (h : Remarks s t) (laps : List Lap) :
    Remarks (afterLaps s laps) (afterLaps t laps) := by
  cases laps with
  | nil => exact h
  | cons => exact .refl _

/-- The end of a loop: the repeat variable is dropped if visible, and nothing is asked for. -/
def Session.closed (s : Session) (parts : LoopParts) : Session :=
  { (if parts.var.isEmpty = false ∧ s.sees parts.var = true then s.dropVar s.current parts.var
      else s) with breaking := false }

theorem Remarks.closed (h : Remarks s t) (parts : LoopParts) :
    Remarks (s.closed parts) (t.closed parts) := by
  obtain ⟨notes, events, rfl⟩ := h
  rw [Session.closed, Session.closed]
  by_cases hdrop : parts.var.isEmpty = false ∧ s.sees parts.var = true
  · rw [if_pos hdrop, if_pos (by exact hdrop)]
    exact ⟨notes, events, rfl⟩
  · rw [if_neg hdrop, if_neg (by exact hdrop)]
    exact ⟨notes, events, rfl⟩

theorem closed_of_endLoop {outcome : Except Stop Unit}
    (h : (endLoop parts.var).exec s = (outcome, t)) : Remarks (s.closed parts) t := by
  obtain ⟨u, ⟨notes, events, rfl⟩, ⟨hdrop, hexec⟩ | ⟨hunseen, hexec⟩⟩ :=
    exec_dropRepeatVar parts.var s
  · rw [endLoop, exec_bind_ok hexec] at h
    rw [Session.closed, if_pos hdrop]
    cases h
    exact ⟨notes, events, rfl⟩
  · rw [endLoop, exec_bind_ok hexec] at h
    have hkeep : ¬ (parts.var.isEmpty = false ∧ s.sees parts.var = true) := by
      rintro ⟨hvar, hsees⟩
      rw [hunseen hvar] at hsees
      cases hsees
    rw [Session.closed, if_neg hkeep]
    cases h
    exact ⟨notes, events, rfl⟩

theorem LapsFrom.of_remarks {laps : List Lap} (hs : Remarks s t)
    (h : LapsFrom d parts items left i t laps) : LapsFrom d parts items left i s laps := by
  cases h with
  | none => exact .none i s
  | last hbegun hrun hoff => exact .last ((hs.counted parts i).trans hbegun) hrun hoff
  | more hbegun hrun hon hrest => exact .more ((hs.counted parts i).trans hbegun) hrun hon hrest

/-- The iterations that a run of a loop tells of. -/
theorem Runs.laps {task : Task} {starts : List Start} {done : Bool}
    (h : Runs d task s starts done t) (htask : task = .laps parts left i)
    (hblock : parts.block = .tree "block" items)
    (hnums : ∀ j < i + left, Number.isWritable j = true) :
    ∃ laps, LapsFrom d parts items left i s laps ∧ starts = laps.flatMap (·.starts) ∧
      done = laps.all (·.done) ∧ Remarks (afterLaps s laps) t := by
  induction h generalizing left i with
  | before hs _ ih =>
    obtain ⟨laps, hlaps, hstarts, hdone, ht⟩ := ih htask hnums
    exact ⟨laps, hlaps.of_remarks hs, hstarts, hdone, (hs.afterLaps laps).trans ht⟩
  | after _ hafter ih =>
    obtain ⟨laps, hlaps, hstarts, hdone, ht⟩ := ih htask hnums
    exact ⟨laps, hlaps, hstarts, hdone, ht.trans hafter⟩
  | lapsEnd s =>
    obtain ⟨rfl, rfl, rfl⟩ := Task.laps.inj htask
    exact ⟨[], .none _ s, rfl, rfl, .refl s⟩
  | @noLap _ _ i other s _ _ hbegin =>
    obtain ⟨rfl, rfl, rfl⟩ := Task.laps.inj htask
    have hi : Number.isWritable i = true := hnums i (by omega)
    obtain ⟨_, _, hbegun⟩ := succeeds_beginLap other hi s
    cases hbegin.symm.trans hbegun
  | @lap _ left i _ _ s t u w starts others done hblock' hbegin hrun hu _ _ ih =>
    obtain ⟨rfl, rfl, rfl⟩ := Task.laps.inj htask
    obtain rfl := (Node.tree.inj (hblock.symm.trans hblock')).2
    obtain ⟨laps, hlaps, rfl, rfl, hw⟩ := ih rfl fun j hj ↦ hnums j (by omega)
    have hon : (⟨t, starts, true, u⟩ : Lap).goesOn = true := by rw [Lap.goesOn, hu]; rfl
    exact ⟨⟨t, starts, true, u⟩ :: laps, .more (counted_of_beginLap hbegin) hrun hon hlaps, rfl, rfl, hw⟩
  | @lastLap _ left i _ _ s t u starts hblock' hbegin hrun hu _ =>
    obtain ⟨rfl, rfl, rfl⟩ := Task.laps.inj htask
    obtain rfl := (Node.tree.inj (hblock.symm.trans hblock')).2
    have hoff : (⟨t, starts, true, u⟩ : Lap).goesOn = false := by rw [Lap.goesOn, hu]; rfl
    exact ⟨[⟨t, starts, true, u⟩], .last (counted_of_beginLap hbegin) hrun hoff,
      (List.append_nil _).symm, rfl, .refl u⟩
  | @lapFailed _ left i _ _ s t u starts hblock' hbegin hrun _ =>
    obtain ⟨rfl, rfl, rfl⟩ := Task.laps.inj htask
    obtain rfl := (Node.tree.inj (hblock.symm.trans hblock')).2
    exact ⟨[⟨t, starts, false, u⟩], .last (counted_of_beginLap hbegin) hrun rfl,
      (List.append_nil _).symm, rfl, .refl u⟩
  | simple | tooDeep | undecided | passed | branch | uncounted | refused | loop | loopFailed
  | blockEnd | newline | asked | blockTooDeep | statement | statementFailed => cases htask

theorem LapsFrom.length_pos_iff {laps : List Lap} (h : LapsFrom d parts items left i s laps) :
    0 < laps.length ↔ 0 < left := by
  cases h with
  | none => exact Iff.rfl
  | last => exact ⟨fun _ => Nat.succ_pos _, fun _ => Nat.one_pos⟩
  | more => exact ⟨fun _ => Nat.succ_pos _, fun _ => Nat.succ_pos _⟩

theorem get?_counted (hs : Formed s) (hvar : parts.var.isEmpty = false)
    (h : Remarks (s.counted parts i) t) : (t.scope t.current).vars.get? parts.var = some (.int i) := by
  have hnot : ¬ parts.var.isEmpty = true := by simp [hvar]
  rw [Session.counted, if_neg hnot] at h
  rw [h.scope_eq, h.sameFrame.current]
  change ((s.bindVar s.current parts.var (.int i)).scope s.current).vars.get? parts.var = _
  rw [Session.bindVar, Session.scope_setScope_self hs.sound.current, Table.get?_insert, if_pos rfl]

/-- Each iteration runs with its number, and the next one follows unless the loop is asked to end.
-/
theorem LapsFrom.lap {laps : List Lap} (h : LapsFrom d parts items left i s laps)
    (hitems : ∀ item ∈ items, IsItem item) (hs : Formed s) (hfree : s.breaking = false) (k : Nat) (hk : k < laps.length) :
    Runs d (.block items) laps[k].begun laps[k].starts laps[k].done laps[k].ended ∧ laps[k].begun.breaking = false ∧
    (parts.var.isEmpty = false →
      (laps[k].begun.scope laps[k].begun.current).vars.get? parts.var = some (.int ((k + i : Nat) : Int))) ∧
    (k + 1 < laps.length ↔ k + 1 < left ∧ laps[k].done = true ∧ laps[k].ended.breaking = false) := by
  have hfirst : ∀ {i : Nat} {s : Session} {lap : Lap}, Formed s → s.breaking = false →
      Remarks (s.counted parts i) lap.begun → Formed lap.begun ∧ lap.begun.breaking = false ∧
      (parts.var.isEmpty = false → (lap.begun.scope lap.begun.current).vars.get? parts.var = some (.int i)) :=
    fun hs hfree hbegun => ⟨(hs.counted parts _).of_sameFrame hbegun.sameFrame,
      hbegun.breaking_eq.trans ((Session.counted_breaking _ parts _).trans hfree), fun hvar => get?_counted hs hvar hbegun⟩
  induction h generalizing k with
  | none => exact absurd hk (Nat.not_lt_zero k)
  | @last left i s lap hbegun hrun hoff =>
    obtain rfl : k = 0 := Nat.lt_one_iff.mp hk
    obtain ⟨-, hbreak, hvar⟩ := hfirst hs hfree hbegun
    rw [Nat.zero_add]
    refine ⟨hrun, hbreak, hvar, fun h => absurd h (Nat.lt_irrefl 1), fun h => ?_⟩
    obtain ⟨-, hdone, hended⟩ := h
    have hon : lap.goesOn = true := Bool.and_eq_true_iff.mpr ⟨hdone, congrArg not hended⟩
    cases hoff.symm.trans hon
  | @more left i s lap laps hbegun hrun hon hrest ih =>
    obtain ⟨hformed, hbreak, hvar⟩ := hfirst hs hfree hbegun
    obtain ⟨hdone, hended⟩ := Bool.and_eq_true_iff.mp hon
    have hended : lap.ended.breaking = false := by simpa using hended
    cases k with
    | zero =>
      rw [Nat.zero_add i]
      refine ⟨hrun, hbreak, hvar, ?_⟩
      have hpos := hrest.length_pos_iff
      simp only [List.getElem_cons_zero, List.length_cons, hdone, hended, and_self, and_true]
      omega
    | succ k =>
      have hk : k < laps.length := Nat.lt_of_succ_lt_succ hk
      obtain ⟨hrun', hbreak', hvar', hnext⟩ := ih (hrun.account hitems hformed).1 hended k hk
      refine ⟨hrun', hbreak', ?_, ?_⟩
      · rw [show k + 1 + i = k + (i + 1) by omega]
        exact hvar'
      · have hlen : (lap :: laps).length = laps.length + 1 := rfl
        rw [hlen, Nat.add_lt_add_iff_right, Nat.add_lt_add_iff_right]
        exact hnext

/-! ### Loops -/

/-- A loop in any session of a run, with a value that stands for a number of iterations. A value
that is too long to be written ends it before its first iteration. Otherwise it starts its block
that often, up to the first iteration that fails or leaves the loop asked to end: the first in the
session that the count has left, each other one in the session that the one before has left, and
each with its number in the repeat variable. Nothing is started after a request to end the loop. If
no iteration fails, the repeat variable is gone, and the loop leaves no such request behind, nor a
request to return that was not made in it. -/
theorem stops_end_their_loop {s : Session} (hs : Arising s) {cs : List Node}
    (hn : Of .statement (.tree "statement" [.tree "again_stmt" cs])) {parts : LoopParts}
    (hparts : LoopParts.of cs = .ok parts) (d : Nat) :
    ∃ items s₁, parts.block = .tree "block" items ∧ Remarks s s₁ ∧ ∀ v t count,
      (visit d parts.times).exec s₁ = (.ok v, t) → v.iterations? = some count →
      (¬ t.Writes [.val v] →
        ∃ stop, (visit (d + 1) (.tree "again_stmt" cs)).exec s = (.error stop, t)) ∧
      (t.Writes [.val v] → ∃ first, ∃ laps : List Lap, Remarks { t with breaking := false } first ∧
        LapsFrom d parts items count 1 first laps ∧ (0 < laps.length ↔ 0 < count) ∧
        (∀ k, (hk : k < laps.length) →
          Runs d (.block items) laps[k].begun laps[k].starts laps[k].done laps[k].ended ∧
          laps[k].begun.breaking = false ∧
          (parts.var.isEmpty = false → (laps[k].begun.scope laps[k].begun.current).vars.get?
            parts.var = some (.int ((k + 1 : Nat) : Int))) ∧
          (k + 1 < laps.length ↔
            k + 1 < count ∧ laps[k].done = true ∧ laps[k].ended.breaking = false)) ∧
        (∀ before start after, laps.flatMap (·.starts) = before ++ start :: after →
          start.loops = 0 → isStop start.deed = true → after = []) ∧
        (laps.all (·.done) = false →
          ∃ stop u, (visit (d + 1) (.tree "again_stmt" cs)).exec s = (.error stop, u) ∧
            Remarks (afterLaps first laps) u) ∧
        (laps.all (·.done) = true →
          ∃ u, (visit (d + 1) (.tree "again_stmt" cs)).exec s = (.ok .none, u) ∧
            Remarks ((afterLaps first laps).closed parts) u ∧ u.breaking = false ∧
            ((∀ start ∈ laps.flatMap (·.starts), isBack start.deed = false) →
              u.returning = s.returning))) := by
  obtain ⟨htimes, hblock⟩ := of_loopParts hn hparts
  obtain ⟨items, hitem, hitems⟩ := hblock.block_inv
  obtain ⟨s₁, hs₁, hok, herror⟩ := exec_visit_again d hparts s
  rw [runLoop_eq] at hok herror
  refine ⟨items, s₁, hitem, hs₁, fun v t count hexec hcount ↦ ?_⟩
  obtain ⟨hbegins, hfails⟩ := exec_beginLoop hexec hcount
  refine ⟨fun hlong ↦ herror _ t (exec_bind_error (hfails hlong)), fun hwrites ↦ ?_⟩
  have hformed := hs.formed.of_sameFrame hs₁.sameFrame
  obtain ⟨ht, hkept⟩ := lasting_visit_phrase d (by decide) htimes hformed hexec
  obtain ⟨u, hbegin, hu⟩ := hbegins hwrites
  have hopened : Formed u := (ht.request t.result t.returning false).of_sameFrame hu.sameFrame
  have hnumbers : ∀ j < 1 + count, Number.isWritable j = true :=
    fun j hj ↦ isWritable_of_le hcount (by simpa [Session.Writes, Piece.isWritable] using hwrites) (by omega)
  cases hlaps : (runIterations (visit d) parts count 1).exec u with
  | mk inner w =>
    obtain ⟨starts, hrun⟩ := runs_laps (fun e _ ↦ runs_deed e) hitem hitems hlaps
    have haccount := (hrun.account hblock hopened).2
    obtain ⟨laps, hfrom, rfl, hdone, hlast⟩ := hrun.laps rfl hitem hnumbers
    refine ⟨u, laps, hu, hfrom, hfrom.length_pos_iff, hfrom.lap hitems hopened hu.breaking_eq, ?_,
      fun hfailed ↦ ?_, fun hall ↦ ?_⟩
    · intro before start after hstarts hloops hstop
      have hasks : start.asks = true := by rw [Start.asks, hloops, hstop, beq_self_eq_true, Bool.and_true, Bool.or_true]
      exact (haccount.last_of_asks hstarts hasks).1
    · cases inner with
      | ok => cases (hdone.trans hfailed).symm
      | error stop =>
        obtain ⟨stop', hvisit⟩ := herror stop w ((exec_bind_ok hbegin).trans (exec_bind_error hlaps))
        exact ⟨stop', w, hvisit, hlast⟩
    · cases inner with
      | error stop => cases hdone.trans hall
      | ok =>
        obtain ⟨_, x, hend⟩ := succeeds_endLoop parts.var w
        obtain ⟨y, hvisit, hy⟩ := hok x ((exec_bind_ok hbegin).trans ((exec_bind_ok hlaps).trans hend))
        obtain ⟨hended, hbreaking, -⟩ := exec_endLoop hend
        have hclosed := (hlast.closed parts).trans (closed_of_endLoop hend)
        refine ⟨y, hvisit, hclosed.trans hy, hy.breaking_eq.trans hbreaking, fun hnone ↦ ?_⟩
        calc y.returning = x.returning := hy.sameFrame.returning
          _ = w.returning := hended.returning
          _ = u.returning := (haccount.kept hnone).returning
          _ = t.returning := hu.sameFrame.returning
          _ = s₁.returning := (hkept rfl).returning
          _ = s.returning := hs₁.sameFrame.returning

/-- A loop that is left in its first iteration. -/
theorem loop_left_at_once :
    ∃ cs u, ∃ laps : List Lap,
      parse "Again(3, i)[\nrep.stop\nk -> i\n]" = .ok (.tree "start" [.tree "statement" [.tree "again_stmt" cs]]) ∧
      (visit 30 (.tree "again_stmt" cs)).exec Session.fresh = (.ok .none, u) ∧ u.breaking = false ∧
      ∃ hpos : 0 < laps.length, (laps[0].begun.scope laps[0].begun.current).vars.get? "i" = some (.int 1) := by
  let times : Node := .tree "expr" [.tree "term" [.tree "factor" [.token "NUMBER" "3"]]]
  let value : Node := .tree "expr" [.tree "term" [.tree "factor" [.token "IDENT" "i"]]]
  let block : Node := .tree "block" [.token "NEWLINE" "\n", .tree "statement" [.tree "rep_stop" []],
    .token "NEWLINE" "\n", .tree "statement" [.tree "assignment" [.token "IDENT" "k", value]], .token "NEWLINE" "\n"]
  let cs : List Node := [times, .token "IDENT" "i", block]
  have hparse : parse "Again(3, i)[\nrep.stop\nk -> i\n]" =
    .ok (.tree "start" [.tree "statement" [.tree "again_stmt" cs]]) := by rfl
  have hok : ((visit 30 (.tree "again_stmt" cs)).exec Session.fresh).1.isOk = true := by decide +kernel
  obtain ⟨items, s₁, -, ⟨notes, events, rfl⟩, hloop⟩ :=
    stops_end_their_loop (.fresh (some [])) (of_parse_statement hparse)
      (show LoopParts.of cs = .ok ⟨times, "i", block⟩ from rfl) 29
  have hthree : Number.isWritable 3 = true := Number.isWritable_signed false (by decide : 3 < Nat.pow 10 1) (by decide)
  have hwrites : ∀ t : Session, t.Writes [.val (.int 3)] := fun _ ↦ Bool.and_eq_true_iff.mpr ⟨hthree, rfl⟩
  obtain ⟨_, laps, -, -, hpos, hfacts, -, hfailed, hended⟩ := (hloop (.int 3) _ 3 rfl rfl).2 (hwrites _)
  cases hall : laps.all (·.done) with
  | false =>
    obtain ⟨stop, u, hexec, -⟩ := hfailed hall
    rw [show Session.fresh = { Session.fresh with input := some [] } from rfl, hexec] at hok
    cases hok
  | true =>
    obtain ⟨u, hexec, -, hbreaking, -⟩ := hended hall
    have hsome := hpos.mpr (by decide)
    exact ⟨cs, u, laps, hparse, hexec, hbreaking, hsome, (hfacts 0 hsome).2.2.1 rfl⟩

end Run

end FapLang

import MiddleEnd.Proofs.Tree.Cell
import MiddleEnd.Proofs.Walk.Cursor
import MiddleEnd.Proofs.Walk.Depth

/-!
# MiddleEnd.Proofs.Walk.Visit

What the tasks about lists come to where it is known what stands in the list.  A list that repeats
nothing is walked from its start, what is left of a list is its next entry and then the rest, and
operands are walked one by one.  Proofs about walks take lists apart with these laws, and look at no
cursor but through `Cursor.Splits`.
-/

namespace MiddleEnd.Walk

variable {σ : Type} {h : Hooks σ} {st st' : WalkState σ}

section

variable {list : SymbolList} {cursor : Cursor SymbolId} {done todo : List SymbolId} {s : SymbolId}

/-- A list without repetition is walked from its start. -/
theorem exec_symbols (hnodup : (st.scene.program.symbolsIn list).Nodup) :
    exec (run h (.symbols list)) st = exec (run h (.symbolsFrom list .start)) st := by
  rw [run_eq h (.symbols list), visit, exec_bind_ok (exec_program st),
    Program.symbolList?_bind list rfl, firstRepeat?_eq_none.mpr ⟨hnodup, by simp⟩]

/-- A list that repeats a symbol halts the walk there. -/
theorem exec_symbols_repeat (h : Hooks σ) (hnodup : ¬ (st.scene.program.symbolsIn list).Nodup) :
    ∃ s, firstRepeat? [] (st.scene.program.symbolsIn list) = some s ∧
      exec (run h (.symbols list)) st = exec (fail h (.symbol s) .sharedNode) st := by
  cases hr : firstRepeat? [] (st.scene.program.symbolsIn list) with
  | none => exact absurd (firstRepeat?_eq_none.mp hr).1 hnodup
  | some s =>
    refine ⟨s, rfl, ?_⟩
    rw [run_eq, visit, exec_bind_ok (exec_program st), Program.symbolList?_bind list rfl, hr]

/-- A cursor at the end of its list is through. -/
theorem exec_symbolsFrom_nil (hlist : st.scene.program.symbolsIn list = done ++ [])
    (hsplits : cursor.Splits done []) :
    exec (run h (.symbolsFrom list cursor)) st = (.ok (), st) := by
  rw [run_eq, visit, exec_bind_ok (exec_program st),
    Program.symbolList?_bind list (Cursor.next?_empty cursor), hlist, List.append_nil,
    Cursor.next?_nil hsplits]
  rfl

/-- A cursor hands out the next symbol, and goes on behind it. -/
theorem exec_symbolsFrom_cons (hlist : st.scene.program.symbolsIn list = done ++ s :: todo)
    (hsplits : cursor.Splits done [s]) :
    exec (run h (.symbolsFrom list cursor)) st = exec (do
      run h (.symbol s)
      run h (.symbolsFrom list ⟨done.length, s :: cursor.handed⟩)) st := by
  rw [run_eq h (.symbolsFrom list cursor), visit, exec_bind_ok (exec_program st),
    Program.symbolList?_bind list (Cursor.next?_empty cursor), hlist, Cursor.next?_next hsplits]

end

section

variable {list : StmtList} {cursor : Cursor StmtId} {done todo : List StmtId} {s : StmtId}

/-- A list without repetition is walked from its start. -/
theorem exec_stmts (hnodup : (st.scene.program.stmtsIn list).Nodup) :
    exec (run h (.stmts list)) st = exec (run h (.stmtsFrom list .start)) st := by
  rw [run_eq h (.stmts list), visit, exec_bind_ok (exec_program st),
    Program.stmtList?_bind list rfl, firstRepeat?_eq_none.mpr ⟨hnodup, by simp⟩]

/-- A list that repeats a statement halts the walk there. -/
theorem exec_stmts_repeat (h : Hooks σ) (hnodup : ¬ (st.scene.program.stmtsIn list).Nodup) :
    ∃ s, firstRepeat? [] (st.scene.program.stmtsIn list) = some s ∧
      exec (run h (.stmts list)) st = exec (fail h (.stmt s) .sharedNode) st := by
  cases hr : firstRepeat? [] (st.scene.program.stmtsIn list) with
  | none => exact absurd (firstRepeat?_eq_none.mp hr).1 hnodup
  | some s =>
    refine ⟨s, rfl, ?_⟩
    rw [run_eq, visit, exec_bind_ok (exec_program st), Program.stmtList?_bind list rfl, hr]

/-- A cursor at the end of its list is through. -/
theorem exec_stmtsFrom_nil (hlist : st.scene.program.stmtsIn list = done ++ [])
    (hsplits : cursor.Splits done []) :
    exec (run h (.stmtsFrom list cursor)) st = (.ok (), st) := by
  rw [run_eq, visit, exec_bind_ok (exec_program st),
    Program.stmtList?_bind list (Cursor.next?_empty cursor), hlist, List.append_nil,
    Cursor.next?_nil hsplits]
  rfl

/-- A cursor hands out the next statement, and goes on behind it. -/
theorem exec_stmtsFrom_cons (hlist : st.scene.program.stmtsIn list = done ++ s :: todo)
    (hsplits : cursor.Splits done [s]) :
    exec (run h (.stmtsFrom list cursor)) st = exec (do
      run h (.stmt (.entry list done.length))
      run h (.stmtsFrom list ⟨done.length, s :: cursor.handed⟩)) st := by
  rw [run_eq h (.stmtsFrom list cursor), visit, exec_bind_ok (exec_program st),
    Program.stmtList?_bind list (Cursor.next?_empty cursor), hlist, Cursor.next?_next hsplits]

/-- The next entry of a list stands where the cursor hands it out. -/
theorem stmtAt?_of_stmtsIn {p : Program} (hlist : p.stmtsIn list = done ++ s :: todo) :
    p.stmtAt? (.entry list done.length) = some s := by
  rw [Program.stmtAt?_entry, hlist]
  simp

/-- An entry whose walk ends well takes up room. -/
theorem room_lt_of_entry {i : Nat} (hat : st.scene.program.stmtAt? (.entry list i) = some s)
    (hok : exec (run h (.stmt (.entry list i))) st = (.ok (), st')) :
    st'.trail.seen.room < st.trail.seen.room :=
  room_lt_of_walk (.stmt (.entry list i)) (by simp [Task.HasNode, hat]) hok

end

section

variable {owner : ExprOwner} {i : Nat}

/-- Operands are walked one by one. -/
theorem exec_operandsFrom_lt (hi : i < (st.scene.program.operands owner).length) :
    exec (run h (.operandsFrom owner i)) st = exec (do
      run h (.expr ⟨owner, i⟩)
      run h (.operandsFrom owner (i + 1))) st := by
  rw [run_eq h (.operandsFrom owner i), visit, exec_bind_ok (exec_program st), if_pos hi]

/-- Behind the last operand the walk is through. -/
theorem exec_operandsFrom_ge (hi : ¬ i < (st.scene.program.operands owner).length) :
    exec (run h (.operandsFrom owner i)) st = (.ok (), st) := by
  rw [run_eq, visit, exec_bind_ok (exec_program st), if_neg hi]
  rfl

/-- An operand whose walk ends well takes up room. -/
theorem room_lt_of_operand {place : ExprPlace} {e : ExprId}
    (hat : st.scene.program.exprAt? place = some e)
    (hok : exec (run h (.expr place)) st = (.ok (), st')) :
    st'.trail.seen.room < st.trail.seen.room :=
  room_lt_of_walk (.expr place) (by simp [Task.HasNode, hat]) hok

end

end MiddleEnd.Walk

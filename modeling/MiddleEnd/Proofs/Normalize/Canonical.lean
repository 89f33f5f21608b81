import MiddleEnd.Normalize
import MiddleEnd.Proofs.Tree.Unfold

/-!
# MiddleEnd.Proofs.Normalize.Canonical

The canonical shape, as a plain recursion on trees.  It is what the pass is compared with: nothing
here walks, and nothing reads or writes an arena.

New nodes need ids, temporaries need numbers and every rewrite is counted, so the recursion draws
from a `Supply`, in the order in which the pass allocates: for a statement the blocks around its
branches first, then what its hoisted condition needs, then everything below it.
-/

namespace MiddleEnd.Normalize

open MiddleEnd.Tree

/-! ## Supply -/

/-- The positions of the next new nodes, the number of the next temporary, and what was counted. -/
structure Supply where
  symbols : Nat
  stmts : Nat
  exprs : Nat
  temps : Nat
  counts : Counts
deriving DecidableEq, Repr

abbrev SupplyM := StateM Supply

theorem run_pure {α : Type} (a : α) (s : Supply) : (pure a : SupplyM α).run s = (a, s) := rfl

theorem run_bind {α β : Type} (x : SupplyM α) (f : α → SupplyM β) (s : Supply) :
    (x >>= f).run s = (f (x.run s).1).run (x.run s).2 := rfl

/-- The ids and the name that a hoisted condition needs. -/
structure Temp where
  symbol : SymbolId
  decl : StmtId
  ref : ExprId
  name : String
deriving DecidableEq, Repr

def newTemp : SupplyM Temp := modifyGet fun s =>
  (⟨.ofIndex s.symbols, .ofIndex s.stmts, .ofIndex s.exprs, "_t" ++ s.temps.repr⟩,
    { s with
      symbols := s.symbols + 1, stmts := s.stmts + 1, exprs := s.exprs + 1, temps := s.temps + 1,
      counts.hoistedTemps := s.counts.hoistedTemps + 1 })

/-- Set new blocks aside; they take consecutive positions. -/
def newBlocks (n : Nat) : SupplyM Nat := modifyGet fun s =>
  (s.stmts, { s with
    stmts := s.stmts + n, counts.wrappedBranches := s.counts.wrappedBranches + n })

/-- A temporary takes the next symbol, statement and expression, and the next number. -/
theorem run_newTemp (s : Supply) : newTemp.run s =
    (⟨.ofIndex s.symbols, .ofIndex s.stmts, .ofIndex s.exprs, "_t" ++ s.temps.repr⟩,
      { s with
        symbols := s.symbols + 1, stmts := s.stmts + 1, exprs := s.exprs + 1, temps := s.temps + 1,
        counts.hoistedTemps := s.counts.hoistedTemps + 1 }) := rfl

/-- Blocks take the next statements in a row. -/
theorem run_newBlocks (n : Nat) (s : Supply) : (newBlocks n).run s = (s.stmts, { s with
    stmts := s.stmts + n, counts.wrappedBranches := s.counts.wrappedBranches + n }) := rfl

def countDropped : SupplyM Unit := modify fun s =>
  { s with counts.droppedNops := s.counts.droppedNops + 1 }

def countFlattened (n : Nat) : SupplyM Unit := modify fun s =>
  { s with counts.flattenedParens := s.counts.flattenedParens + n }

/-! ## New nodes -/

/-- A reference to the temporary. -/
def Temp.refTree (temp : Temp) (line : UInt32) : Tree :=
  .node (.expr temp.ref) (.expr (.symRef temp.symbol) line) [] [] []

def Temp.varTree (temp : Temp) (line : UInt32) : Tree :=
  .node (.symbol temp.symbol) (.symbol temp.name line false (.var none)) [] [] []

/-- The declaration of the temporary. -/
def Temp.declTree (temp : Temp) (line : UInt32) (init : List Tree) : Tree :=
  .node (.stmt temp.decl) (.stmt .decl line) init [temp.varTree line] []

/-- The block at a position. -/
def blockTree (position : Nat) (line : UInt32) (entries : List Tree) : Tree :=
  .node (.stmt (.ofIndex position)) (.stmt .block line) [] [] entries

end MiddleEnd.Normalize

/-! ## What a rule looks for -/

namespace MiddleEnd.Label

def line : Label → UInt32
  | .module _ _ _ => 0
  | .symbol _ line _ _ | .stmt _ line | .expr _ line => line

def isNop : Label → Bool
  | .stmt .nop _ => true
  | _ => false

def isBlock : Label → Bool
  | .stmt .block _ => true
  | _ => false

def isIf : Label → Bool
  | .stmt .ifElse _ => true
  | _ => false

def isParen : Label → Bool
  | .expr .paren _ => true
  | _ => false

def isCall : Label → Bool
  | .expr .call _ => true
  | _ => false

/-- Whether the statements below are branches and not entries of a list. -/
def hasBranches : Label → Bool
  | .stmt .ifElse _ | .stmt .whileDo _ => true
  | _ => false

/-- Only an `if` is labelled as one. -/
theorem exists_of_isIf {l : Label} (h : l.isIf = true) : ∃ line, l = .stmt .ifElse line := by
  unfold isIf at h
  split at h
  · exact ⟨_, rfl⟩
  · cases h

/-- Only an empty statement is labelled as one. -/
theorem exists_of_isNop {l : Label} (h : l.isNop = true) : ∃ line, l = .stmt .nop line := by
  unfold isNop at h
  split at h
  · exact ⟨_, rfl⟩
  · cases h

end MiddleEnd.Label

namespace MiddleEnd.Normalize

open MiddleEnd.Tree

/-- The expression under any number of parentheses. -/
def underParens : Tree → Tree
  | .node _ (.expr .paren _) [inner] _ _ => underParens inner
  | t => t

/-- Whether an entry of a list is left out. -/
def dropped (r : Rules) (t : Tree) : Bool := r.dropNops && t.label.isNop

/-- Whether the condition of an entry of a list moves into a temporary. -/
def hoisted (r : Rules) (t : Tree) : Bool :=
  r.hoistCallConditions && t.label.isIf && t.exprs.any fun e => (underParens e).label.isCall

/-- Whether a branch is put into a block. -/
def wrapped (r : Rules) (t : Tree) : Bool := r.wrapBranches && !t.label.isBlock

/-- How many new blocks the branches of a statement need. -/
def blocksFor (r : Rules) (t : Tree) : Nat :=
  if t.label.hasBranches then t.stmts.countP (wrapped r) else 0

/-! ## Expressions -/

mutual

/-- The expression with every parenthesis replaced by what it encloses. -/
def flat : Tree → Tree
  | .node n l es ss ts =>
    match l, flatAll es with
    | .expr .paren _, [inner] => inner
    | l, es => .node n l es ss ts

def flatAll : List Tree → List Tree
  | [] => []
  | t :: ts => flat t :: flatAll ts

end

/-- Expressions are flattened one by one. -/
theorem flatAll_eq (es : List Tree) : flatAll es = es.map flat := by
  induction es with
  | nil => rfl
  | cons e es ih => rw [flatAll, ih, List.map_cons]

/-- Parentheses go, and what they enclose is flattened. -/
theorem flat_paren (n : NodeId) (line : UInt32) (inner : Tree) (ss ts : List Tree) :
    flat (.node n (.expr .paren line) [inner] ss ts) = flat inner := by
  simp [flat, flatAll]

/-- What is not parentheses stays, with its operands flattened. -/
theorem flat_of_not_paren {n : NodeId} {l : Label} {es ss ts : List Tree}
    (hl : l.isParen = false) : flat (.node n l es ss ts) = .node n l (flatAll es) ss ts := by
  unfold flat
  split
  · exact absurd hl (by simp [Label.isParen])
  · rfl

/-- An expression that is not in parentheses is its own inside. -/
theorem underParens_of_not_paren {t : Tree} (hl : t.label.isParen = false) :
    underParens t = t := by
  unfold underParens
  split
  · exact absurd hl (by simp [Label.isParen])
  · rfl

/-- How many parentheses there are in expressions. -/
def parens (es : List Tree) : Nat := (subtreesOf es).countP fun t => t.label.isParen

/-- Expressions as the rules leave them. -/
def flatten (r : Rules) (es : List Tree) : SupplyM (List Tree) := do
  if r.flattenParens then
    countFlattened (parens es)
    return flatAll es
  else
    return es

/-! ## Statements and symbols -/

/-- What a list has in the place of an entry, where `rebuilt` is the entry with new blocks from a
position on and its condition moved into a temporary, if there is one. -/
def entryOf (r : Rules) (t : Tree) (rebuilt : Nat → Option Temp → SupplyM Tree) :
    SupplyM (List Tree) := do
  if dropped r t then
    countDropped
    return []
  let block ← newBlocks (blocksFor r t)
  if hoisted r t then
    let temp ← newTemp
    let rest ← rebuilt block (some temp)
    let init ← flatten r t.exprs
    return [temp.declTree t.label.line init, rest]
  else
    let rest ← rebuilt block none
    return [rest]

mutual

/-- A symbol or a statement with everything below it rewritten.  The new blocks around its branches
stand from position `block` on; where its condition moved into a temporary, a reference takes its
place. -/
def rebuild (r : Rules) (block : Nat) (temp? : Option Temp) : Tree → SupplyM Tree
  | .node n l es ss ts => do
    let es ← match temp? with
      | some temp => pure [temp.refTree l.line]
      | none => flatten r es
    let ss ← rebuildAll r ss
    let ts ← if l.hasBranches then rebuildBranches r block ts else rebuildEntries r ts
    return .node n l es ss ts

/-- Symbols that are declared together. -/
def rebuildAll (r : Rules) : List Tree → SupplyM (List Tree)
  | [] => return []
  | t :: ts => do
    let t ← rebuild r 0 none t
    let ts ← rebuildAll r ts
    return t :: ts

/-- The branches of a statement.  A branch that is put into a block becomes an entry of it. -/
def rebuildBranches (r : Rules) (block : Nat) : List Tree → SupplyM (List Tree)
  | [] => return []
  | t :: ts => do
    if wrapped r t then
      let entries ← entryOf r t fun block temp? => rebuild r block temp? t
      let ts ← rebuildBranches r (block + 1) ts
      return blockTree block t.label.line entries :: ts
    else
      let t ← rebuild r 0 none t
      let ts ← rebuildBranches r block ts
      return t :: ts

/-- The entries of a list. -/
def rebuildEntries (r : Rules) : List Tree → SupplyM (List Tree)
  | [] => return []
  | t :: ts => do
    let entries ← entryOf r t fun block temp? => rebuild r block temp? t
    let ts ← rebuildEntries r ts
    return entries ++ ts

end

/-! ## What is done on entering a statement, and what after that -/

/-- The branches of a statement, each that has to be put into a block in one by itself. -/
def wrapAll (r : Rules) (block : Nat) : List Tree → List Tree
  | [] => []
  | t :: ts =>
    if wrapped r t then blockTree block t.label.line [t] :: wrapAll r (block + 1) ts
    else t :: wrapAll r block ts

/-- The statement as it stands when it was entered: nothing below it was rewritten yet. -/
def entered (r : Rules) (block : Nat) (temp? : Option Temp) : Tree → Tree
  | .node n l es ss ts =>
    .node n l ((temp?.map fun temp => [temp.refTree l.line]).getD es) ss
      (if l.hasBranches then wrapAll r block ts else ts)

/-- The statements that a node holds, once its branches were wrapped. -/
def rebuildHeld (r : Rules) (l : Label) (ts : List Tree) : SupplyM (List Tree) :=
  if l.hasBranches then rebuildAll r ts else rebuildEntries r ts

/-- What is done below a node. -/
def below (r : Rules) : Tree → SupplyM Tree
  | .node n l es ss ts => do
    let es ← flatten r es
    let ss ← rebuildAll r ss
    let ts ← rebuildHeld r l ts
    return .node n l es ss ts

@[simp] theorem flatten_nil (r : Rules) : flatten r [] = pure [] := by
  unfold flatten
  split <;> rfl

/-- A reference has no parentheses. -/
theorem flatten_ref (r : Rules) (temp : Temp) (line : UInt32) :
    flatten r [temp.refTree line] = pure [temp.refTree line] := by
  unfold flatten
  split <;> rfl

/-- A block has its one statement rewritten as an entry of a list. -/
theorem rebuild_block (r : Rules) (position : Nat) (line : UInt32) (t : Tree) :
    rebuild r 0 none (blockTree position line [t]) = (do
      let entries ← entryOf r t fun block temp? => rebuild r block temp? t
      return blockTree position line entries) := by
  simp [blockTree, rebuild, rebuildAll, rebuildEntries, Label.hasBranches]

/-- Branches are put into blocks first and rewritten as statements after. -/
theorem rebuildBranches_eq (r : Rules) (ts : List Tree) : ∀ block,
    rebuildBranches r block ts = rebuildAll r (wrapAll r block ts) := by
  induction ts with
  | nil => intro block; simp [rebuildBranches, wrapAll, rebuildAll]
  | cons t ts ih =>
    intro block
    by_cases hw : wrapped r t = true
    · simp [rebuildBranches, wrapAll, hw, rebuildAll, ih, rebuild_block]
    · simp [rebuildBranches, wrapAll, hw, rebuildAll, ih]

/-- A node is rewritten by what is done on entering it and what is done below it after that. -/
theorem rebuild_eq (r : Rules) (block : Nat) (temp? : Option Temp) (t : Tree) :
    rebuild r block temp? t = below r (entered r block temp? t) := by
  obtain ⟨n, l, es, ss, ts⟩ := t
  cases temp? <;> cases hl : l.hasBranches <;>
    simp [rebuild, entered, below, rebuildHeld, hl, rebuildBranches_eq, flatten_ref]

/-- The temporary for the condition of a statement, and what becomes of the statement. -/
def hoistOf (r : Rules) (t : Tree) (rebuilt : Nat → Option Temp → SupplyM Tree) :
    SupplyM (Temp × Tree) := do
  let block ← newBlocks (blocksFor r t)
  let temp ← newTemp
  let rest ← rebuilt block (some temp)
  return (temp, rest)

section

variable {r : Rules} {t : Tree} {rebuilt : Nat → Option Temp → SupplyM Tree}

/-- Nothing stands for an entry that is left out. -/
theorem entryOf_of_dropped (h : dropped r t = true) :
    entryOf r t rebuilt = do countDropped; return [] := by
  simp [entryOf, h]

/-- An entry that needs no temporary is rewritten where it stands. -/
theorem entryOf_of_plain (hd : dropped r t = false) (hh : hoisted r t = false) :
    entryOf r t rebuilt = do
      let block ← newBlocks (blocksFor r t)
      let rest ← rebuilt block none
      return [rest] := by
  simp [entryOf, hd, hh]

/-- The declaration of a temporary stands in front of an entry whose condition it holds. -/
theorem entryOf_of_hoisted (hd : dropped r t = false) (hh : hoisted r t = true) :
    entryOf r t rebuilt = do
      let hoist ← hoistOf r t rebuilt
      let init ← flatten r t.exprs
      return [hoist.1.declTree t.label.line init, hoist.2] := by
  simp [entryOf, hoistOf, hd, hh]

end

/-- A node that owns nothing is as it is. -/
theorem below_leaf (r : Rules) (n : NodeId) (l : Label) :
    below r (.node n l [] [] []) = pure (.node n l [] [] []) := by
  simp [below, rebuildHeld, rebuildAll, rebuildEntries]

/-- A node stays the node it is, whatever is done below it. -/
theorem id_below (r : Rules) (t : Tree) (s : Supply) : ((below r t).run s).1.id = t.id := by
  obtain ⟨n, l, es, ss, ts⟩ := t
  simp only [below, run_bind, run_pure, id_node]

/-- A node that is rewritten stays the node it is. -/
theorem id_rebuild (r : Rules) (block : Nat) (temp? : Option Temp) (t : Tree) (s : Supply) :
    ((rebuild r block temp? t).run s).1.id = t.id := by
  rw [rebuild_eq, id_below]
  cases t
  rfl

/-- Nodes that are rewritten in a row stay the nodes they are. -/
theorem map_id_rebuildAll (r : Rules) (ts : List Tree) : ∀ s,
    ((rebuildAll r ts).run s).1.map Tree.id = ts.map Tree.id := by
  induction ts with
  | nil =>
    intro s
    rw [rebuildAll, run_pure]
  | cons t ts ih =>
    intro s
    simp only [rebuildAll, run_bind, run_pure, List.map_cons, id_rebuild, ih]

/-- Branches that are blocks stay as they are. -/
theorem wrapAll_of_not_wrapped {r : Rules} {ts : List Tree} (h : ∀ t ∈ ts, wrapped r t = false)
    (block : Nat) : wrapAll r block ts = ts := by
  induction ts with
  | nil => rfl
  | cons t ts ih =>
    rw [wrapAll, if_neg (by simp [h t List.mem_cons_self]),
      ih fun u hu => h u (List.mem_cons_of_mem t hu)]

/-- A statement whose branches are left alone is as it was when it is entered. -/
theorem entered_of_blocksFor {r : Rules} {t : Tree} (h : blocksFor r t = 0) (block : Nat) :
    entered r block none t = t := by
  obtain ⟨n, l, es, ss, ts⟩ := t
  rw [blocksFor] at h
  by_cases hl : l.hasBranches = true
  · have hts : ∀ t ∈ ts, wrapped r t = false := by simpa [hl] using h
    simp [entered, hl, wrapAll_of_not_wrapped hts]
  · simp [entered, hl]

/-- A branch that is not put into a block has no branches to put into one. -/
theorem blocksFor_of_not_wrapped {r : Rules} {t : Tree} (h : wrapped r t = false) :
    blocksFor r t = 0 := by
  obtain ⟨n, l, es, ss, ts⟩ := t
  by_cases hr : r.wrapBranches = true
  · have hl : l.hasBranches = false := by
      simp only [wrapped, hr, Bool.true_and, Bool.not_eq_false', label_node] at h
      unfold Label.isBlock at h
      split at h
      · rfl
      · cases h
    simp [blocksFor, hl]
  · have hts : ts.countP (wrapped r) = 0 := by simp [wrapped, hr]
    simp [blocksFor, hts]

/-- Where no branch is put into a block, it does not matter which blocks are new. -/
theorem rebuild_of_blocksFor {r : Rules} {t : Tree} (h : blocksFor r t = 0) (block : Nat) :
    rebuild r block none t = rebuild r 0 none t := by
  rw [rebuild_eq, rebuild_eq, entered_of_blocksFor h, entered_of_blocksFor h]

theorem run_newBlocks_zero (s : Supply) : (newBlocks 0).run s = (s.stmts, s) := rfl

/-- A block is not put into another one. -/
theorem not_wrapped_blockTree (r : Rules) (position : Nat) (line : UInt32) (ts : List Tree) :
    wrapped r (blockTree position line ts) = false := by
  simp [wrapped, blockTree, Label.isBlock]

/-- No branch has to be put into a block again. -/
theorem not_wrapped_of_mem_wrapAll {r : Rules} {ts : List Tree} : ∀ {block : Nat} {u : Tree},
    u ∈ wrapAll r block ts →
      wrapped r u = false ∧
        (u ∈ ts ∨ ∃ position, ∃ t ∈ ts, u = blockTree position t.label.line [t]) := by
  induction ts with
  | nil => intro _ _ h; cases h
  | cons t ts ih =>
    intro block u h
    rw [wrapAll] at h
    split at h
    · rcases List.mem_cons.mp h with rfl | h
      · exact ⟨not_wrapped_blockTree _ _ _ _, .inr ⟨_, t, List.mem_cons_self, rfl⟩⟩
      · obtain ⟨hu, hmem⟩ := ih h
        refine ⟨hu, hmem.imp (List.mem_cons_of_mem t) ?_⟩
        rintro ⟨position, v, hv, rfl⟩
        exact ⟨position, v, List.mem_cons_of_mem t hv, rfl⟩
    · next hw =>
      rcases List.mem_cons.mp h with rfl | h
      · exact ⟨by simpa using hw, .inl List.mem_cons_self⟩
      · obtain ⟨hu, hmem⟩ := ih h
        refine ⟨hu, hmem.imp (List.mem_cons_of_mem t) ?_⟩
        rintro ⟨position, v, hv, rfl⟩
        exact ⟨position, v, List.mem_cons_of_mem t hv, rfl⟩

/-- A node without expressions and branches is rewritten list by list. -/
theorem rebuild_lists {l : Label} (hl : l.hasBranches = false) (r : Rules) (n : NodeId)
    (ss ts : List Tree) : rebuild r 0 none (.node n l [] ss ts) = do
      let ss ← rebuildAll r ss
      let ts ← rebuildEntries r ts
      return .node n l [] ss ts := by
  simp [rebuild, hl]

/-- Nothing but the condition is rewritten in a declaration that was made for it. -/
theorem rebuild_declTree (r : Rules) (block : Nat) (temp : Temp) (line : UInt32)
    (init : List Tree) : rebuild r block none (temp.declTree line init) = do
      let init ← flatten r init
      return temp.declTree line init := by
  simp [Temp.declTree, Temp.varTree, rebuild, rebuildAll, rebuildEntries, Label.hasBranches]

end MiddleEnd.Normalize

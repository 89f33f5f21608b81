import MiddleEnd.Proofs.Tree.Removal

/-!
# MiddleEnd.Proofs.Tree.Deletions

Deleting several symbols, one after another.  In whatever order they are named, and however often,
what is left is the program without those of them that exist (`Program.removeSymbols_eq`): they are
marked, no list of symbols has them any more, and declarations of them are empty.  Everything else
is as it was, also inside a symbol that is itself deleted.

One more deletion takes one more symbol out of a program that is already without some
(`Program.removeSymbol_without`); all of them follow by induction.
-/

namespace MiddleEnd

/-- The same symbol without any of those among its parameters or members. -/
def SymbolKind.withoutNestedAll (gone : List SymbolId) : SymbolKind → SymbolKind
  | .func params ret body => .func (params.filter (· ∉ gone)) ret body
  | .type members => .type (members.filter (· ∉ gone))
  | .var ty => .var ty
  | .param ty => .param ty

/-- The empty statement for a declaration of one of those; anything else is unchanged. -/
def StmtKind.withoutDeclAll (gone : List SymbolId) (k : StmtKind) : StmtKind :=
  match k with
  | .decl sym _ => if sym ∈ gone then .nop else k
  | k => k

namespace Program

/-- Delete symbols, one after another. -/
def removeSymbols (p : Program) (xs : List SymbolId) : Program := xs.foldl removeSymbol p

/-- The ids of symbols that exist, out of a list. -/
def present (p : Program) (xs : List SymbolId) : List SymbolId :=
  xs.filter fun x => p.has (.symbol x)

/-- The program in which those symbols are marked as removed, no list of symbols has them, and no
statement declares them. -/
def without (p : Program) (gone : List SymbolId) : Program where
  modules := p.modules.map fun module =>
    { module with symbols := module.symbols.filter (· ∉ gone) }
  symbols := p.symbols.mapIdx fun index symbol =>
    { symbol with
      kind := symbol.kind.withoutNestedAll gone
      removed := symbol.removed || gone.any (·.index = index) }
  stmts := p.stmts.map fun stmt => { stmt with kind := stmt.kind.withoutDeclAll gone }
  exprs := p.exprs

end Program

/-! ## One after another -/

section

variable (gone : List SymbolId) (x : SymbolId)

/-- To leave out some symbols and then another one is to leave out all of them. -/
theorem filter_notMem_concat (ss : List SymbolId) :
    (ss.filter (· ∉ gone)).filter (· ≠ x) = ss.filter (· ∉ gone ++ [x]) := by
  rw [List.filter_filter]
  refine List.filter_congr fun s _ => ?_
  simp [and_comm]

theorem SymbolKind.withoutNested_withoutNestedAll (k : SymbolKind) :
    (k.withoutNestedAll gone).withoutNested x = k.withoutNestedAll (gone ++ [x]) := by
  cases k <;> simp only [withoutNestedAll, withoutNested, filter_notMem_concat]

theorem StmtKind.withoutDecl_withoutDeclAll (k : StmtKind) :
    (k.withoutDeclAll gone).withoutDecl x = k.withoutDeclAll (gone ++ [x]) := by
  cases k with
  | decl sym init =>
    by_cases hgone : sym ∈ gone
    · simp [withoutDeclAll, withoutDecl, declared?, hgone]
    · simp [withoutDeclAll, withoutDecl, declared?, hgone]
  | _ => rfl

end

namespace Program

variable {p : Program} {gone gone' xs ys : List SymbolId} {x : SymbolId}

@[simp] theorem without_nil (p : Program) : p.without [] = p := by
  have hsymbol : ∀ s : Symbol, s.kind.withoutNestedAll [] = s.kind := fun s => by
    cases s.kind <;> simp [SymbolKind.withoutNestedAll]
  have hstmt : ∀ s : Stmt, s.kind.withoutDeclAll [] = s.kind := fun s => by
    cases s.kind <;> simp [StmtKind.withoutDeclAll]
  have hsymbols : p.symbols.mapIdx (fun _ symbol => symbol) = p.symbols :=
    Array.ext_getElem? fun _ => by simp
  simp [without, hsymbol, hstmt, hsymbols]

/-- No symbol leaves its arena. -/
@[simp] theorem has_symbol_without (x : SymbolId) :
    (p.without gone).has (.symbol x) = p.has (.symbol x) := by
  simp [has, symbol?, without]

/-- Which symbols are gone matters, and not in which order they are listed. -/
theorem without_congr (h : ∀ x, x ∈ gone ↔ x ∈ gone') : p.without gone = p.without gone' := by
  have hany : ∀ index, gone.any (·.index = index) = gone'.any (·.index = index) := fun index => by
    rw [Bool.eq_iff_iff]
    simp [h]
  have hkind : ∀ k : SymbolKind, k.withoutNestedAll gone = k.withoutNestedAll gone' := fun k => by
    cases k <;> simp [SymbolKind.withoutNestedAll, h]
  have hdecl : ∀ k : StmtKind, k.withoutDeclAll gone = k.withoutDeclAll gone' := fun k => by
    cases k <;> simp [StmtKind.withoutDeclAll, h]
  simp [without, h, hany, hkind, hdecl]

/-- Where some symbols are gone, the deletion of one more leaves the program without it, too. -/
theorem removeSymbol_without (hx : p.has (.symbol x) = true) :
    (p.without gone).removeSymbol x = p.without (gone ++ [x]) := by
  rw [removeSymbol_eq ((has_symbol_without x).trans hx)]
  simp only [without, Program.mk.injEq, Array.map_map, and_true]
  refine ⟨?_, ?_, ?_⟩
  · congr 1
    funext m
    simp only [Function.comp_apply, filter_notMem_concat]
  · refine Array.ext_getElem? fun index => ?_
    simp only [Array.getElem?_map, Array.getElem?_modify, Array.getElem?_mapIdx, Option.map_map]
    by_cases hindex : x.index = index
    · simp [hindex, Function.comp_def, SymbolKind.withoutNested_withoutNestedAll]
    · simp [hindex, Function.comp_def, SymbolKind.withoutNested_withoutNestedAll]
  · congr 1
    funext s
    simp only [Function.comp_apply, StmtKind.withoutDecl_withoutDeclAll]

/-- What does not exist cannot be deleted. -/
theorem removeSymbol_of_not_has (hx : ¬ p.has (.symbol x) = true) : p.removeSymbol x = p :=
  if_neg hx

/-- Deleting symbols after others were taken out takes out those too that exist. -/
theorem removeSymbols_without :
    (p.without gone).removeSymbols xs = p.without (gone ++ p.present xs) := by
  induction xs generalizing gone with
  | nil => simp [removeSymbols, present]
  | cons x xs ih =>
    rw [removeSymbols, List.foldl_cons, ← removeSymbols]
    by_cases hx : p.has (.symbol x) = true
    · have hpresent : p.present (x :: xs) = [x] ++ p.present xs := by simp [present, hx]
      rw [removeSymbol_without hx, ih, List.append_assoc, hpresent]
    · have hx' : ¬ (p.without gone).has (.symbol x) = true := by rwa [has_symbol_without]
      have hpresent : p.present (x :: xs) = p.present xs := by simp [present, hx]
      rw [removeSymbol_of_not_has hx', ih, hpresent]

/-- However symbols are listed that are deleted one after another, the result is the same: the
program without those of them that exist. -/
theorem removeSymbols_eq (p : Program) (h : ∀ x, x ∈ ys ↔ x ∈ xs) :
    p.removeSymbols ys = p.removeSymbols xs ∧ p.removeSymbols xs = p.without (p.present xs) := by
  have hall : ∀ zs, p.removeSymbols zs = p.without (p.present zs) := fun zs => by
    have hzs : (p.without []).removeSymbols zs = p.without ([] ++ p.present zs) :=
      removeSymbols_without
    rwa [without_nil, List.nil_append] at hzs
  have hpresent : ∀ x, x ∈ p.present ys ↔ x ∈ p.present xs := fun x => by
    simp only [present, List.mem_filter, h]
  exact ⟨(hall ys).trans ((without_congr hpresent).trans (hall xs).symm), hall xs⟩

/-- A function that has itself and another function as parameters; its body declares that function
and a variable. -/
def entangled : Program where
  modules := #[⟨"m", "m.w", none, [⟨0⟩, ⟨9⟩, ⟨1⟩]⟩]
  symbols := #[⟨"f", 1, .func [⟨0⟩, ⟨1⟩, ⟨9⟩] none [⟨0⟩, ⟨1⟩], none, false⟩,
    ⟨"g", 2, .func [⟨2⟩] none [], none, false⟩, ⟨"a", 3, .var none, none, false⟩]
  stmts := #[⟨.decl ⟨1⟩ none, 2, none, none⟩, ⟨.decl ⟨2⟩ none, 3, none, none⟩]
  exprs := #[]

/-- Two functions go, in either order. What does not exist stays in every list. -/
theorem removeSymbols_eq_entangled :
    (∀ x, x ∈ [(⟨1⟩ : SymbolId), ⟨9⟩, ⟨0⟩, ⟨1⟩] ↔ x ∈ [(⟨0⟩ : SymbolId), ⟨1⟩, ⟨9⟩]) ∧
    entangled.removeSymbols [⟨1⟩, ⟨9⟩, ⟨0⟩, ⟨1⟩] = entangled.removeSymbols [⟨0⟩, ⟨1⟩, ⟨9⟩] ∧
    entangled.removeSymbols [⟨0⟩, ⟨1⟩, ⟨9⟩] =
      { modules := #[⟨"m", "m.w", none, [⟨9⟩]⟩]
        symbols := #[⟨"f", 1, .func [⟨9⟩] none [⟨0⟩, ⟨1⟩], none, true⟩,
          ⟨"g", 2, .func [⟨2⟩] none [], none, true⟩, ⟨"a", 3, .var none, none, false⟩]
        stmts := #[⟨.nop, 2, none, none⟩, ⟨.decl ⟨2⟩ none, 3, none, none⟩]
        exprs := #[] } := by
  have hsame : ∀ x, x ∈ [(⟨1⟩ : SymbolId), ⟨9⟩, ⟨0⟩, ⟨1⟩] ↔ x ∈ [(⟨0⟩ : SymbolId), ⟨1⟩, ⟨9⟩] := by
    grind
  obtain ⟨heq, hleft⟩ := removeSymbols_eq entangled hsame
  exact ⟨hsame, heq, hleft.trans (by decide +kernel)⟩

end Program

end MiddleEnd

import MiddleEnd.Normalize
import MiddleEnd.Proofs.Walk.Depth

/-!
# MiddleEnd.Proofs.Normalize.Parens

Parentheses in a program of any shape.  `stripParens?` takes them off one by one and remembers where
it was, so it ends even where they enclose each other in a circle.  `underParens?`, which counts its
steps instead, finds the same with as many steps as there are expressions (`underParens?_of_strip`):
a path from one parenthesis into the next meets no expression twice.
-/

namespace MiddleEnd

instance : Finite ExprId := Finite.of_injective NodeId.expr fun _ _ => NodeId.expr.inj

namespace Normalize

/-- The expression under any number of parentheses, none of which was seen before. -/
def stripParens? (p : Program) (seen : List ExprId) (e : ExprId) : Option ExprId :=
  if _hseen : e ∈ seen then none
  else
    match p.expr? e with
    | none => none
    | some x =>
      match x.kind with
      | .paren inner => stripParens? p (e :: seen) inner
      | _ => some e
termination_by {m : ExprId | m ∉ seen}.ncard
decreasing_by
  refine Set.ncard_lt_ncard ⟨fun m hm => ?_, fun hsub => ?_⟩
  · exact fun hseen => hm (List.mem_cons_of_mem e hseen)
  · exact hsub _hseen List.mem_cons_self

/-- So many parentheses lead from one expression to another, which is none. -/
inductive Strips (p : Program) : Nat → ExprId → ExprId → Prop where
  | bare {e : ExprId} {x : Expr} (hx : p.expr? e = some x) (hk : ∀ inner, x.kind ≠ .paren inner) :
      Strips p 0 e e
  | paren {e inner z : ExprId} {x : Expr} {n : Nat} (hx : p.expr? e = some x)
      (hk : x.kind = .paren inner) (h : Strips p n inner z) : Strips p (n + 1) e z

section

variable {p : Program} {e z z' : ExprId} {n m : Nat} {seen : List ExprId}

/-- Parentheses lead to one expression, and there is one way through them. -/
theorem Strips.unique (h : Strips p n e z) : ∀ {m z'}, Strips p m e z' → n = m ∧ z = z' := by
  induction h with
  | bare hx hk =>
    intro m z' h'
    cases h' with
    | bare => exact ⟨rfl, rfl⟩
    | paren hx' hk' =>
      rw [hx, Option.some.injEq] at hx'
      exact (hk _ (hx' ▸ hk')).elim
  | paren hx hk _ ih =>
    intro m z' h'
    cases h' with
    | bare hx' hk' =>
      rw [hx, Option.some.injEq] at hx'
      exact (hk' _ (hx' ▸ hk)).elim
    | paren hx' hk' hrest =>
      rw [hx, Option.some.injEq] at hx'
      obtain rfl : _ = _ := ExprKind.paren.inj (hk.symm.trans (hx' ▸ hk'))
      obtain ⟨rfl, rfl⟩ := ih hrest
      exact ⟨rfl, rfl⟩

/-- An expression at the end of parentheses is there. -/
theorem Strips.exists_expr (h : Strips p n e z) : ∃ x, p.expr? e = some x := by
  cases h with
  | bare hx => exact ⟨_, hx⟩
  | paren hx => exact ⟨_, hx⟩

/-- Every number of parentheses on the way is passed somewhere. -/
theorem Strips.through (h : Strips p n e z) : ∀ m ≤ n, ∃ e', Strips p m e' z := by
  induction h with
  | bare hx hk =>
    intro m hm
    obtain rfl := Nat.le_zero.mp hm
    exact ⟨_, .bare hx hk⟩
  | paren hx hk hrest ih =>
    intro m hm
    rcases Nat.lt_or_eq_of_le hm with hlt | rfl
    · exact ih m (Nat.le_of_lt_succ hlt)
    · exact ⟨_, .paren hx hk hrest⟩

/-- The way meets no expression twice, so it is shorter than the arena. -/
theorem Strips.lt_size (h : Strips p n e z) : n < p.exprs.size := by
  choose! at? hat using h.through
  have hindex : ∀ i : Fin (n + 1), (at? i).index < p.exprs.size := fun i => by
    obtain ⟨x, hx⟩ := (hat i (Nat.le_of_lt_succ i.isLt)).exists_expr
    exact (Array.getElem?_eq_some_iff.mp hx).1
  have hinj : Function.Injective fun i : Fin (n + 1) =>
      (⟨(at? i).index, hindex i⟩ : Fin p.exprs.size) := fun i j hij => by
    have hsame : at? i = at? j := ExprId.index_inj.mp (Fin.mk.inj hij)
    have hi := hat i (Nat.le_of_lt_succ i.isLt)
    rw [hsame] at hi
    exact Fin.ext (hi.unique (hat j (Nat.le_of_lt_succ j.isLt))).1
  simpa using Fintype.card_le_of_injective _ hinj

/-- Where the way ends, the loop gets there, if it has only seen expressions further out. -/
theorem Strips.strip (h : Strips p n e z) : ∀ {seen : List ExprId},
    (∀ s ∈ seen, ∃ m z', n < m ∧ Strips p m s z') → stripParens? p seen e = some z := by
  induction h with
  | @bare e x hx hk =>
    intro seen hseen
    have hnot : e ∉ seen := fun hmem => by
      obtain ⟨m, z', hlt, hs⟩ := hseen e hmem
      exact Nat.ne_of_lt hlt ((Strips.bare hx hk).unique hs).1
    rw [stripParens?, dif_neg hnot, hx]
    dsimp only
    split
    · next hk' => exact (hk _ hk').elim
    · rfl
  | @paren e inner z x n hx hk hrest ih =>
    intro seen hseen
    have hnot : e ∉ seen := fun hmem => by
      obtain ⟨m, z', hlt, hs⟩ := hseen e hmem
      exact Nat.ne_of_lt hlt ((Strips.paren hx hk hrest).unique hs).1
    rw [stripParens?, dif_neg hnot, hx]
    simp only [hk]
    refine ih fun s hs => ?_
    rcases List.mem_cons.mp hs with rfl | hs
    · exact ⟨n + 1, z, Nat.lt_succ_self n, .paren hx hk hrest⟩
    · obtain ⟨m, z', hlt, hs'⟩ := hseen s hs
      exact ⟨m, z', Nat.lt_of_succ_lt hlt, hs'⟩

/-- What the loop finds is reached by taking parentheses off. -/
theorem strips_of_strip (h : stripParens? p seen e = some z) : ∃ n, Strips p n e z := by
  induction seen, e using stripParens?.induct p with
  | case1 seen e hseen => simp [stripParens?, hseen] at h
  | case2 seen e hseen hx => simp [stripParens?, hseen, hx] at h
  | case3 seen e hseen x hx inner hk ih =>
    rw [stripParens?, dif_neg hseen, hx] at h
    simp only [hk] at h
    obtain ⟨n, hn⟩ := ih h
    exact ⟨n + 1, .paren hx hk hn⟩
  | case4 seen e hseen x hx hk =>
    rw [stripParens?, dif_neg hseen, hx] at h
    dsimp only at h
    split at h
    · next inner hk' => exact (hk inner hk').elim
    · obtain rfl := Option.some.inj h
      exact ⟨0, .bare hx hk⟩

/-- So many steps lead under fewer parentheses. -/
theorem Strips.underParens? (h : Strips p n e z) : ∀ {steps : Nat}, n < steps →
    underParens? p steps e = (p.expr? z).map (·.kind) := by
  induction h with
  | bare hx hk =>
    rintro (_ | steps) hlt
    · cases hlt
    · rw [Normalize.underParens?, hx]
      dsimp only
      split
      · next hk' => exact (hk _ hk').elim
      · rfl
  | paren hx hk _ ih =>
    rintro (_ | steps) hlt
    · cases hlt
    · rw [Normalize.underParens?, hx]
      simp only [hk]
      exact ih (Nat.lt_of_succ_lt_succ hlt)

/-- What is found under parentheses is where they lead. -/
theorem strips_of_underParens? {k : ExprKind} : ∀ {steps : Nat} {e : ExprId},
    underParens? p steps e = some k → ∃ n z, Strips p n e z
  | 0, _, h => by cases h
  | steps + 1, e, h => by
    cases hx : p.expr? e with
    | none => simp [underParens?, hx] at h
    | some x =>
      rw [underParens?, hx] at h
      dsimp only at h
      split at h
      · next inner hk =>
        obtain ⟨n, z, hz⟩ := strips_of_underParens? h
        exact ⟨n + 1, z, .paren hx hk hz⟩
      · next hk => exact ⟨0, e, .bare hx hk⟩

/-- As many steps as there are expressions find what the loop finds, which exists. -/
theorem underParens?_of_strip (p : Program) (e : ExprId) :
    (stripParens? p [] e = none ∧ underParens? p p.exprs.size e = none) ∨
    ∃ inner x, stripParens? p [] e = some inner ∧ p.expr? inner = some x ∧
      underParens? p p.exprs.size e = some x.kind := by
  cases hstrip : stripParens? p [] e with
  | none =>
    refine .inl ⟨rfl, Option.eq_none_iff_forall_ne_some.mpr fun k hk => ?_⟩
    obtain ⟨n, z, hz⟩ := strips_of_underParens? hk
    have hfound : stripParens? p [] e = some z := hz.strip nofun
    rw [hfound] at hstrip
    cases hstrip
  | some inner =>
    obtain ⟨n, hn⟩ := strips_of_strip hstrip
    obtain ⟨z, hz⟩ := hn.through 0 (Nat.zero_le n)
    cases hz with
    | bare hx => exact .inr ⟨inner, _, rfl, hx, by rw [hn.underParens? hn.lt_size, hx]; rfl⟩

end

end Normalize

end MiddleEnd

import MiddleEnd.Proofs.Tree.Change

/-!
# MiddleEnd.Proofs.Tree.Places

The laws of places.  What is written into a place is read from it afterwards, writing what stands
there changes nothing, the last of two writes counts, and no other place is read differently
(`Lawful`).  A place for an expression exists as far as its owner counts (`operandCount`), and can
be written where it can be read; only the empty `else` of an `if` is written and not read
(`places_lawful`).

Reading, counting and writing are separate case distinctions over the kinds of nodes, so the laws
are shown for kinds first: operands, entries of a block and entries of a body are lists with
something around them (`Listed`), and branches are few.  Programs inherit the laws: a place is found
in steps, from the program to an arena, a node and a position in it, and each step keeps them
(`Lawful.within`, `Lawful.comp`, `Lawful.sum`).
-/

namespace MiddleEnd

/-! ## Laws -/

/-- Reading and writing fit together: what is written is read, and nothing else is read
differently. -/
structure Lawful {κ ι α : Type} (read? : κ → ι → Option α) (write? : κ → ι → α → Option κ) :
    Prop where
  read_write : ∀ {k k' i a}, write? k i a = some k' → read? k' i = some a
  write_read : ∀ {k i a}, read? k i = some a → write? k i a = some k
  write_write : ∀ {k k' i a} b, write? k i a = some k' → write? k' i b = write? k i b
  read_other : ∀ {k k' i j a}, write? k i a = some k' → j ≠ i → read? k' j = read? k j

section

variable {κ κ' ι ι' α : Type} {read? : κ → ι → Option α} {write? : κ → ι → α → Option κ}

/-- A part of something larger, which is always there. -/
structure Part {κ κ' : Type} (get : κ' → κ) (put : κ → κ' → κ') : Prop where
  get_put : ∀ x k, get (put k x) = k
  put_get : ∀ x, put (get x) x = x
  put_put : ∀ x k l, put l (put k x) = put l x

/-- What is part of something larger is read and written there. -/
theorem Lawful.within (h : Lawful read? write?) {get : κ' → κ} {put : κ → κ' → κ'}
    (hpart : Part get put) :
    Lawful (fun x i => read? (get x) i) fun x i a => (write? (get x) i a).map (put · x) where
  read_write {x x' i a} hw := by
    obtain ⟨k, hk, rfl⟩ := Option.map_eq_some_iff.mp hw
    rw [hpart.get_put]
    exact h.read_write hk
  write_read {x i a} hr := by rw [h.write_read hr, Option.map_some, hpart.put_get]
  write_write {x x' i a} b hw := by
    obtain ⟨k, hk, rfl⟩ := Option.map_eq_some_iff.mp hw
    rw [hpart.get_put, h.write_write b hk]
    simp only [hpart.put_put]
  read_other {x x' i j a} hw hne := by
    obtain ⟨k, hk, rfl⟩ := Option.map_eq_some_iff.mp hw
    rw [hpart.get_put]
    exact h.read_other hk hne

/-- A place inside of what stands in a place. -/
theorem Lawful.comp {β : Type} {readIn? : α → ι' → Option β} {writeIn? : α → ι' → β → Option α}
    (h : Lawful read? write?) (hin : Lawful readIn? writeIn?) :
    Lawful (fun k (i : ι × ι') => (read? k i.1).bind (readIn? · i.2)) fun k i b =>
      (read? k i.1).bind fun a => (writeIn? a i.2 b).bind (write? k i.1) where
  read_write {k k' i b} hw := by
    obtain ⟨a, ha, hw⟩ := Option.bind_eq_some_iff.mp hw
    obtain ⟨a', ha', hw⟩ := Option.bind_eq_some_iff.mp hw
    rw [h.read_write hw, Option.bind_some]
    exact hin.read_write ha'
  write_read {k i b} hr := by
    obtain ⟨a, ha, hr⟩ := Option.bind_eq_some_iff.mp hr
    rw [ha, Option.bind_some, hin.write_read hr, Option.bind_some, h.write_read ha]
  write_write {k k' i b} c hw := by
    obtain ⟨a, ha, hw⟩ := Option.bind_eq_some_iff.mp hw
    obtain ⟨a', ha', hw⟩ := Option.bind_eq_some_iff.mp hw
    rw [h.read_write hw, ha, Option.bind_some, Option.bind_some, hin.write_write c ha']
    congr 1
    funext a''
    exact h.write_write a'' hw
  read_other {k k' i j b} hw hne := by
    obtain ⟨a, ha, hw⟩ := Option.bind_eq_some_iff.mp hw
    obtain ⟨a', ha', hw⟩ := Option.bind_eq_some_iff.mp hw
    by_cases hsame : j.1 = i.1
    · rw [hsame, h.read_write hw, ha, Option.bind_some, Option.bind_some]
      exact hin.read_other ha' fun he => hne (Prod.ext hsame he)
    · rw [h.read_other hw hsame]

/-- Places of two sorts, where writing into one of a sort does not show in the other sort. -/
theorem Lawful.sum {readOn? : κ → ι' → Option α} {writeOn? : κ → ι' → α → Option κ}
    (h : Lawful read? write?) (hon : Lawful readOn? writeOn?)
    (hleft : ∀ {k k' i a}, write? k i a = some k' → readOn? k' = readOn? k)
    (hright : ∀ {k k' i a}, writeOn? k i a = some k' → read? k' = read? k) :
    Lawful (fun k => Sum.elim (read? k) (readOn? k)) fun k => Sum.elim (write? k) (writeOn? k) where
  read_write {k k' i a} hw := by
    cases i with
    | inl i => exact h.read_write hw
    | inr i => exact hon.read_write hw
  write_read {k i a} hr := by
    cases i with
    | inl i => exact h.write_read hr
    | inr i => exact hon.write_read hr
  write_write {k k' i a} b hw := by
    cases i with
    | inl i => exact h.write_write b hw
    | inr i => exact hon.write_write b hw
  read_other {k k' i j a} hw hne := by
    cases i with
    | inl i =>
      cases j with
      | inl j => exact h.read_other hw fun he => hne (congrArg _ he)
      | inr j => exact congrFun (hleft hw) j
    | inr i =>
      cases j with
      | inl j => exact congrFun (hright hw) j
      | inr j => exact hon.read_other hw fun he => hne (congrArg _ he)

/-- The same places under other names. -/
theorem Lawful.renamed (h : Lawful read? write?) {name : ι' → ι} (hname : Function.Injective name)
    {read?' : κ → ι' → Option α} {write?' : κ → ι' → α → Option κ}
    (hread : ∀ k i, read?' k i = read? k (name i))
    (hwrite : ∀ k i a, write?' k i a = write? k (name i) a) : Lawful read?' write?' where
  read_write hw := by
    rw [hread]
    exact h.read_write (hwrite _ _ _ ▸ hw)
  write_read hr := by
    rw [hwrite]
    exact h.write_read (hread _ _ ▸ hr)
  write_write b hw := by
    rw [hwrite, hwrite]
    exact h.write_write b (hwrite _ _ _ ▸ hw)
  read_other hw hne := by
    rw [hread, hread]
    exact h.read_other (hwrite _ _ _ ▸ hw) fun he => hne (hname he)

end

/-! ## Lists -/

/-- Something made of a list and of whatever else. -/
structure Listed {κ α β : Type} (list : κ → List α) (rest : κ → β)
    (write? : κ → Nat → α → Option κ) : Prop where
  ext : ∀ {k l}, list k = list l → rest k = rest l → k = l
  write : ∀ {k i} a, i < (list k).length →
    ∃ k', write? k i a = some k' ∧ list k' = (list k).set i a ∧ rest k' = rest k
  none : ∀ {k i} a, (list k).length ≤ i → write? k i a = none

section

variable {κ α β : Type} {list : κ → List α} {rest : κ → β} {write? : κ → Nat → α → Option κ}

/-- An entry that was written is within the list, and all else is as before. -/
theorem Listed.of_write (h : Listed list rest write?) {k k' : κ} {i : Nat} {a : α}
    (hw : write? k i a = some k') :
    i < (list k).length ∧ list k' = (list k).set i a ∧ rest k' = rest k := by
  rcases Nat.lt_or_ge i (list k).length with hi | hi
  · obtain ⟨l, hl, hlist, hrest⟩ := h.write a hi
    obtain rfl := Option.some.inj (hl.symm.trans hw)
    exact ⟨hi, hlist, hrest⟩
  · rw [h.none a hi] at hw
    cases hw

/-- What can be written is what is in the list. -/
theorem Listed.isSome_write (h : Listed list rest write?) (k : κ) (i : Nat) (a : α) :
    (write? k i a).isSome ↔ i < (list k).length := by
  constructor
  · intro hw
    obtain ⟨k', hk'⟩ := Option.isSome_iff_exists.mp hw
    exact (h.of_write hk').1
  · intro hi
    obtain ⟨k', hk', _⟩ := h.write a hi
    rw [hk']
    rfl

/-- Entries are lawful places. -/
theorem Listed.lawful (h : Listed list rest write?) : Lawful (fun k i => (list k)[i]?) write? where
  read_write {k k' i a} hw := by
    obtain ⟨hi, hlist, _⟩ := h.of_write hw
    rw [hlist, List.getElem?_set_self hi]
  write_read {k i a} hr := by
    obtain ⟨hi, ha⟩ := List.getElem?_eq_some_iff.mp hr
    obtain ⟨k', hk', hlist, hrest⟩ := h.write a hi
    rw [hk', h.ext (hlist.trans (ha ▸ List.set_getElem_self hi)) hrest]
  write_write {k k' i a} b hw := by
    obtain ⟨hi, hlist, hrest⟩ := h.of_write hw
    obtain ⟨l, hl, hlistl, hrestl⟩ := h.write b hi
    have hi' : i < (list k').length := by rwa [hlist, List.length_set]
    obtain ⟨l', hl', hlistl', hrestl'⟩ := h.write b hi'
    rw [hlist, List.set_set] at hlistl'
    rw [hl, hl', h.ext (hlistl'.trans hlistl.symm) ((hrestl'.trans hrest).trans hrestl.symm)]
  read_other {k k' i j a} hw hne := by
    obtain ⟨_, hlist, _⟩ := h.of_write hw
    rw [hlist, List.getElem?_set_ne (Ne.symm hne)]

end

/-! ## Kinds of nodes -/

/-- The operands of a statement are counted. -/
theorem StmtKind.operandCount_eq (k : StmtKind) : k.operandCount = k.operands.length := by
  cases k with
  | decl _ init => cases init <;> rfl
  | ret value => cases value <;> rfl
  | _ => rfl

/-- The operands of an expression are counted. -/
theorem ExprKind.operandCount_eq (k : ExprKind) : k.operandCount = k.operands.length := by
  cases k with
  | call _ args => exact Nat.add_comm 1 args.length
  | _ => rfl

/-- What a statement consists of besides its operands. -/
def StmtKind.besideOperands (k : StmtKind) : StmtHead × Option SymbolId × List StmtId :=
  (k.head, k.declared?, k.held)

/-- A statement is a list of operands and what it is besides. -/
theorem StmtKind.listed_operands :
    Listed StmtKind.operands StmtKind.besideOperands StmtKind.withOperand? where
  ext {k l} hlist hrest := by
    simp only [besideOperands, Prod.mk.injEq] at hrest
    have hcell : (Node.stmt (.new k 0)).cell = (Node.stmt (.new l 0)).cell := by
      simp only [Node.cell, Stmt.new, hlist, hrest]
    exact congrArg Stmt.kind (Node.stmt.inj (Node.ext_views hcell rfl))
  write {k i} e hi := by
    obtain ⟨k', hk', hhead, hops, hdeclared, hheld⟩ := Program.StmtKind.withOperand?_eq hi e
    exact ⟨k', hk', hops, by simp only [besideOperands, hhead, hdeclared, hheld]⟩
  none {k i} e hi := by
    cases k with
    | decl _ init => cases init <;> cases i <;> simp_all [withOperand?, operands]
    | ret value => cases value <;> cases i <;> simp_all [withOperand?, operands]
    | _ => cases i <;> simp_all [withOperand?, operands]

/-- An expression is a list of operands and its head. -/
theorem ExprKind.listed_operands :
    Listed ExprKind.operands ExprKind.head ExprKind.withOperand? where
  ext {k l} hlist hhead := by
    have hcell : (Node.expr (.new k 0)).cell = (Node.expr (.new l 0)).cell := by
      simp only [Node.cell, Expr.new, hlist, hhead]
    exact congrArg Expr.kind (Node.expr.inj (Node.ext_views hcell rfl))
  write {k i} e hi := by
    obtain ⟨k', hk', hhead, hops⟩ := Program.ExprKind.withOperand?_eq hi e
    exact ⟨k', hk', hops, hhead⟩
  none {k i} e hi := by
    cases k with
    | call _ args => cases i <;> simp_all [withOperand?, operands]
    | _ => rcases i with _ | _ | i <;> simp_all [withOperand?, operands]

/-- Overwrite an entry of a function body; `none` where there is none. -/
def SymbolKind.withEntryAt? (k : SymbolKind) (i : Nat) (s : StmtId) : Option SymbolKind :=
  k.body?.bind fun xs => if i < xs.length then some (k.withBody (xs.set i s)) else none

/-- A function is a list of entries and what it is besides. -/
theorem SymbolKind.listed_body :
    Listed (fun k => k.body?.getD []) (fun k => k.withBody []) SymbolKind.withEntryAt? where
  ext {k l} hlist hrest := by
    cases k <;> cases l <;> simp_all [body?, withBody]
  write {k i} s hi := by
    cases k <;> simp_all [body?, withBody, withEntryAt?]
  none {k i} s hi := by
    cases k <;> simp_all [body?, withEntryAt?]

/-- Overwrite an entry of a block; `none` where there is none. -/
def StmtKind.withEntryAt? (k : StmtKind) (i : Nat) (s : StmtId) : Option StmtKind :=
  k.entries?.bind fun xs => if i < xs.length then some (k.withEntries (xs.set i s)) else none

/-- A block is a list of entries and nothing besides. -/
theorem StmtKind.listed_entries :
    Listed (fun k => k.entries?.getD []) (fun k => k.withEntries []) StmtKind.withEntryAt? where
  ext {k l} hlist hrest := by
    cases k <;> cases l <;> simp_all [entries?, withEntries]
  write {k i} s hi := by
    cases k <;> simp_all [entries?, withEntries, withEntryAt?]
  none {k i} s hi := by
    cases k <;> simp_all [entries?, withEntryAt?]

/-- Branches are lawful places. -/
theorem StmtKind.lawful_branches : Lawful StmtKind.branch? StmtKind.withBranch? where
  read_write {k k' which s} hw := by
    cases k <;> cases which <;> simp_all [withBranch?] <;> subst hw <;> rfl
  write_read {k which s} hr := by
    cases k <;> cases which <;> simp_all [withBranch?, branch?]
  write_write {k k' which s} t hw := by
    cases k <;> cases which <;> simp_all [withBranch?] <;> subst hw <;> rfl
  read_other {k k' which other s} hw hne := by
    cases k <;> cases which <;> simp_all [withBranch?] <;> subst hw <;>
      cases other <;> simp_all [branch?]

/-- A branch can be written where there is one, or where an `if` lacks its `else`. -/
theorem StmtKind.isSome_withBranch? (k : StmtKind) (which : Branch) (s : StmtId) :
    (k.withBranch? which s).isSome ↔
      (k.branch? which).isSome ∨ (k.head = .ifElse ∧ which = .elseBranch) := by
  cases k <;> cases which <;> simp [withBranch?, branch?, head]

/-- A block has no branches. -/
theorem StmtKind.branch?_of_withEntryAt? {k k' : StmtKind} {i : Nat} {s : StmtId}
    (hw : k.withEntryAt? i s = some k') : k'.branch? = k.branch? := by
  cases k <;> simp_all [withEntryAt?, entries?, withEntries]
  obtain ⟨_, rfl⟩ := hw
  rfl

/-- What has branches is no block. -/
theorem StmtKind.entries?_of_withBranch? {k k' : StmtKind} {which : Branch} {s : StmtId}
    (hw : k.withBranch? which s = some k') : k'.entries? = k.entries? := by
  cases k <;> cases which <;> simp_all [withBranch?] <;> subst hw <;> rfl

/-- The places for statements in a statement: the entries of a block, and branches. -/
theorem StmtKind.lawful_stmts :
    Lawful (fun k : StmtKind => Sum.elim (fun i : Nat => (k.entries?.getD [])[i]?) k.branch?)
      fun k => Sum.elim k.withEntryAt? k.withBranch? :=
  StmtKind.listed_entries.lawful.sum StmtKind.lawful_branches StmtKind.branch?_of_withEntryAt?
    fun hw => by simp only [entries?_of_withBranch? hw]

/-- Operands and held statements are apart from each other. -/
theorem StmtKind.stmts_of_withOperand? {k k' : StmtKind} {i : Nat} {e : ExprId}
    (hw : k.withOperand? i e = some k') : k'.entries? = k.entries? ∧ k'.branch? = k.branch? := by
  suffices h : k'.entries? = k.entries? ∧ ∀ which, k'.branch? which = k.branch? which from
    ⟨h.1, funext h.2⟩
  cases k with
  | decl _ init =>
    cases init <;> cases i <;> simp_all [withOperand?]
    subst hw
    simp [entries?, branch?]
  | ret value =>
    cases value <;> cases i <;> simp_all [withOperand?]
    subst hw
    simp [entries?, branch?]
  | _ =>
    cases i <;> simp_all [withOperand?] <;> subst hw <;> refine ⟨rfl, fun which => ?_⟩ <;>
      cases which <;> rfl

/-- Another branch leaves the rest of the statement. -/
theorem StmtKind.besides_of_withBranch? {k k' : StmtKind} {which : Branch} {s : StmtId}
    (hw : k.withBranch? which s = some k') :
    k'.head = k.head ∧ k'.operands = k.operands ∧ k'.declared? = k.declared? := by
  cases k <;> cases which <;> simp_all [withBranch?] <;> subst hw <;> exact ⟨rfl, rfl, rfl⟩

/-- Other entries leave the rest of the statement. -/
theorem StmtKind.besides_withEntries (k : StmtKind) (xs : List StmtId) :
    (k.withEntries xs).head = k.head ∧ (k.withEntries xs).operands = k.operands ∧
      (k.withEntries xs).declared? = k.declared? := by
  cases k <;> exact ⟨rfl, rfl, rfl⟩

/-- Another body leaves the rest of the symbol. -/
theorem SymbolKind.besides_withBody (k : SymbolKind) (xs : List StmtId) :
    (k.withBody xs).head = k.head ∧ (k.withBody xs).nested? = k.nested? := by
  cases k <;> exact ⟨rfl, rfl⟩

/-! ## Views -/

/-- All of a node but the expressions it owns. -/
def Node.besidesExprs (x : Node) : Cell × Backs := ({ x.cell with exprs := [] }, x.backs)

/-- All of a node but the statements it owns. -/
def Node.besidesStmts (x : Node) : Cell × Backs := ({ x.cell with stmts := [] }, x.backs)

/-! ## Arenas -/

/-- A part of the nodes of an arena. -/
theorem lawful_arena {ν κ : Type} {get : ν → κ} {put : κ → ν → ν} (hpart : Part get put) :
    Lawful (fun (xs : Array ν) i => xs[i]?.map get)
      fun xs i k => xs[i]?.map fun _ => xs.modify i (put k) where
  read_write {xs ys i k} hw := by
    obtain ⟨x, hx, rfl⟩ := Option.map_eq_some_iff.mp hw
    simp [Array.getElem?_modify, hx, hpart.get_put]
  write_read {xs i k} hr := by
    obtain ⟨x, hx, rfl⟩ := Option.map_eq_some_iff.mp hr
    rw [hx, Option.map_some]
    congr 1
    refine Array.ext_getElem? fun j => ?_
    rw [Array.getElem?_modify]
    split
    · next h => rw [← h, hx, Option.map_some, hpart.put_get]
    · rfl
  write_write {xs ys i k} l hw := by
    obtain ⟨x, hx, rfl⟩ := Option.map_eq_some_iff.mp hw
    rw [Array.getElem?_modify, if_pos rfl, hx, Option.map_some, Option.map_some, Option.map_some]
    congr 1
    refine Array.ext_getElem? fun j => ?_
    rw [Array.getElem?_modify, Array.getElem?_modify, Array.getElem?_modify]
    split
    · rw [Option.map_map]
      congr 1
      funext x
      exact hpart.put_put x k l
    · rfl
  read_other {xs ys i j k} hw hne := by
    obtain ⟨x, hx, rfl⟩ := Option.map_eq_some_iff.mp hw
    rw [Array.getElem?_modify, if_neg (Ne.symm hne)]

/-- What is done to an entry of an arena counts at that entry only. -/
theorem modify_congr {ν : Type} {xs : Array ν} {i : Nat} {x : ν} (hx : xs[i]? = some x)
    {f g : ν → ν} (h : f x = g x) : xs.modify i f = xs.modify i g := by
  refine Array.ext_getElem? fun j => ?_
  rw [Array.getElem?_modify, Array.getElem?_modify]
  split
  · next hj => rw [← hj, hx, Option.map_some, Option.map_some, h]
  · rfl

theorem Symbol.part_kind : Part Symbol.kind fun kind x => { x with kind } :=
  ⟨fun _ _ => rfl, fun _ => rfl, fun _ _ _ => rfl⟩

theorem Stmt.part_kind : Part Stmt.kind fun kind x => { x with kind } :=
  ⟨fun _ _ => rfl, fun _ => rfl, fun _ _ _ => rfl⟩

theorem Expr.part_kind : Part Expr.kind fun kind x => { x with kind } :=
  ⟨fun _ _ => rfl, fun _ => rfl, fun _ _ _ => rfl⟩

theorem SymbolId.index_injective : Function.Injective SymbolId.index :=
  fun _ _ => SymbolId.index_inj.mp

/-- No two statements have the same position. -/
theorem StmtId.index_injective : Function.Injective StmtId.index := fun _ _ => StmtId.index_inj.mp

theorem ExprId.index_injective : Function.Injective ExprId.index := fun _ _ => ExprId.index_inj.mp

namespace Program

/-- The arena of symbols is a part of the program. -/
theorem part_symbols : Part Program.symbols fun symbols p => { p with symbols } :=
  ⟨fun _ _ => rfl, fun _ => rfl, fun _ _ _ => rfl⟩

/-- The arena of statements is a part of the program. -/
theorem part_stmts : Part Program.stmts fun stmts p => { p with stmts } :=
  ⟨fun _ _ => rfl, fun _ => rfl, fun _ _ _ => rfl⟩

/-- The arena of expressions is a part of the program. -/
theorem part_exprs : Part Program.exprs fun exprs p => { p with exprs } :=
  ⟨fun _ _ => rfl, fun _ => rfl, fun _ _ _ => rfl⟩

/-- What a symbol consists of is a lawful place of the program. -/
theorem lawful_symbolKind :
    Lawful (fun (p : Program) (s : SymbolId) => (p.symbol? s).map (·.kind))
      fun p s kind => (p.symbol? s).map fun _ => p.updateSymbol s ({ · with kind }) :=
  ((lawful_arena Symbol.part_kind).within part_symbols).renamed SymbolId.index_injective
    (fun _ _ => rfl) fun p s kind => by rw [Option.map_map]; rfl

/-- What a statement consists of is a lawful place of the program. -/
theorem lawful_stmtKind :
    Lawful (fun (p : Program) (s : StmtId) => (p.stmt? s).map (·.kind))
      fun p s kind => (p.stmt? s).map fun _ => p.updateStmt s ({ · with kind }) :=
  ((lawful_arena Stmt.part_kind).within part_stmts).renamed StmtId.index_injective
    (fun _ _ => rfl) fun p s kind => by rw [Option.map_map]; rfl

/-- What an expression consists of is a lawful place of the program. -/
theorem lawful_exprKind :
    Lawful (fun (p : Program) (e : ExprId) => (p.expr? e).map (·.kind))
      fun p e kind => (p.expr? e).map fun _ => p.updateExpr e ({ · with kind }) :=
  ((lawful_arena Expr.part_kind).within part_exprs).renamed ExprId.index_injective
    (fun _ _ => rfl) fun p e kind => by rw [Option.map_map]; rfl

/-! ## Places of a program -/

variable {p q : Program}

/-- The operands of a node are counted. -/
theorem operandCount_eq (p : Program) (owner : ExprOwner) :
    p.operandCount owner = (p.operands owner).length := by
  cases owner with
  | stmt s => cases h : p.stmt? s <;> simp [operandCount, operands, h, StmtKind.operandCount_eq]
  | expr e => cases h : p.expr? e <;> simp [operandCount, operands, h, ExprKind.operandCount_eq]

/-- Read place by place, the expressions that an owner holds are its operands. -/
theorem heldExprs_eq (p : Program) (owner : ExprOwner) : p.heldExprs owner = p.operands owner := by
  have hread : ∀ xs : List ExprId, (List.range xs.length).filterMap (xs[·]?) = xs := fun xs => by
    induction xs with
    | nil => rfl
    | cons x xs ih =>
      rw [List.length_cons, List.range_succ_eq_map, List.filterMap_cons, List.filterMap_map]
      exact congrArg (x :: ·) ih
  rw [heldExprs, operandCount_eq]
  exact hread (p.operands owner)

/-- A place for an expression by the category of its owner. -/
def placeOfExpr : ExprPlace → (StmtId × Nat) ⊕ (ExprId × Nat)
  | ⟨.stmt s, i⟩ => .inl (s, i)
  | ⟨.expr e, i⟩ => .inr (e, i)

/-- A place for a statement by the category of its holder. -/
def placeOfStmt : StmtPlace → (SymbolId × Nat) ⊕ (StmtId × (Nat ⊕ Branch))
  | .entry (.body s) i => .inl (s, i)
  | .entry (.block b) i => .inr (b, .inl i)
  | .branch s which => .inr (s, .inr which)

/-- A place for an expression is known from its owner and its position. -/
theorem placeOfExpr_injective : Function.Injective placeOfExpr := by
  rintro ⟨_ | _, i⟩ ⟨_ | _, j⟩ h <;> cases h <;> rfl

/-- A place for a statement is known from its holder and its position. -/
theorem placeOfStmt_injective : Function.Injective placeOfStmt := by
  rintro (⟨_ | _, i⟩ | ⟨_, _⟩) (⟨_ | _, j⟩ | ⟨_, _⟩) h <;> cases h <;> rfl

theorem updateSymbol_congr {s : SymbolId} {x : Symbol} (hx : p.symbol? s = some x)
    {f g : Symbol → Symbol} (h : f x = g x) : p.updateSymbol s f = p.updateSymbol s g := by
  rw [updateSymbol, updateSymbol, modify_congr hx h]

/-- Only what becomes of the statement itself counts. -/
theorem updateStmt_congr {s : StmtId} {x : Stmt} (hx : p.stmt? s = some x) {f g : Stmt → Stmt}
    (h : f x = g x) : p.updateStmt s f = p.updateStmt s g := by
  rw [updateStmt, updateStmt, modify_congr hx h]

/-- What is written into a place of a node goes into its kind. -/
theorem exists_of_withKind {ν κ ι α : Type} {x? : Option ν} {kind : ν → κ} {put : κ → Program}
    {write? : κ → ι → α → Option κ} {i : ι} {a : α}
    (hw : (x?.map kind).bind (fun k => (write? k i a).bind fun k' => x?.map fun _ => put k') =
      some q) : ∃ x k, x? = some x ∧ write? (kind x) i a = some k ∧ q = put k := by
  obtain ⟨_, hx, hw⟩ := Option.bind_eq_some_iff.mp hw
  obtain ⟨x, rfl, rfl⟩ := Option.map_eq_some_iff.mp hx
  obtain ⟨k, hk, hw⟩ := Option.bind_eq_some_iff.mp hw
  exact ⟨x, k, rfl, hk, (Option.some.inj hw).symm⟩

/-- Places for expressions are lawful. -/
theorem lawful_exprAt? : Lawful exprAt? setExprAt? := by
  refine ((lawful_stmtKind.comp StmtKind.listed_operands.lawful).sum
    (lawful_exprKind.comp ExprKind.listed_operands.lawful) ?_ ?_).renamed
      placeOfExpr_injective ?_ ?_
  · intro p q i e hw
    obtain ⟨_, _, _, _, rfl⟩ := exists_of_withKind hw
    rfl
  · intro p q i e hw
    obtain ⟨_, _, _, _, rfl⟩ := exists_of_withKind hw
    rfl
  · rintro p ⟨s | e, i⟩
    · cases h : p.stmt? s <;> simp [exprAt?, operands, placeOfExpr, h]
    · cases h : p.expr? e <;> simp [exprAt?, operands, placeOfExpr, h]
  · rintro p ⟨s | e, i⟩ a
    · cases h : p.stmt? s <;> simp [setExprAt?, placeOfExpr, h]
    · cases h : p.expr? e <;> simp [setExprAt?, placeOfExpr, h]

/-- Places for statements are lawful. -/
theorem lawful_stmtAt? : Lawful stmtAt? setStmtAt? := by
  refine ((lawful_symbolKind.comp SymbolKind.listed_body.lawful).sum
    (lawful_stmtKind.comp StmtKind.lawful_stmts) ?_ ?_).renamed placeOfStmt_injective ?_ ?_
  · intro p q i e hw
    obtain ⟨_, _, _, _, rfl⟩ := exists_of_withKind hw
    rfl
  · intro p q i e hw
    obtain ⟨_, _, _, _, rfl⟩ := exists_of_withKind hw
    rfl
  · rintro p (⟨s | b, i⟩ | ⟨s, which⟩)
    · cases h : p.symbol? s with
      | none => simp [stmtAt?, stmtList?, placeOfStmt, h]
      | some x => cases hb : x.kind.body? <;> simp [stmtAt?, stmtList?, placeOfStmt, h, hb]
    · cases h : p.stmt? b with
      | none => simp [stmtAt?, stmtList?, placeOfStmt, h]
      | some x => cases hb : x.kind.entries? <;> simp [stmtAt?, stmtList?, placeOfStmt, h, hb]
    · cases h : p.stmt? s <;> simp [stmtAt?, placeOfStmt, h]
  · rintro p (⟨s | b, i⟩ | ⟨s, which⟩) t
    · cases h : p.symbol? s with
      | none => simp [setStmtAt?, stmtList?, placeOfStmt, h]
      | some x =>
        cases hb : x.kind.body? with
        | none => simp [setStmtAt?, stmtList?, placeOfStmt, SymbolKind.withEntryAt?, h, hb]
        | some xs =>
          by_cases hi : i < xs.length <;>
            simp [setStmtAt?, stmtList?, placeOfStmt, SymbolKind.withEntryAt?, h, hb, hi]
          exact updateSymbol_congr h rfl
    · cases h : p.stmt? b with
      | none => simp [setStmtAt?, stmtList?, placeOfStmt, h]
      | some x =>
        cases hb : x.kind.entries? with
        | none => simp [setStmtAt?, stmtList?, placeOfStmt, StmtKind.withEntryAt?, h, hb]
        | some xs =>
          by_cases hi : i < xs.length <;>
            simp [setStmtAt?, stmtList?, placeOfStmt, StmtKind.withEntryAt?, h, hb, hi]
          exact updateStmt_congr h rfl
    · cases h : p.stmt? s <;> simp [setStmtAt?, placeOfStmt, h]

/-! ## Which places there are -/

/-- There is an expression at every place that is counted, and at no other. -/
theorem isSome_exprAt? (p : Program) (owner : ExprOwner) (i : Nat) :
    (p.exprAt? ⟨owner, i⟩).isSome ↔ i < p.operandCount owner := by
  simp [exprAt?, operandCount_eq]

/-- An expression can be written at every place that is counted, and at no other. -/
theorem isSome_setExprAt? (p : Program) (owner : ExprOwner) (i : Nat) (e : ExprId) :
    (p.setExprAt? ⟨owner, i⟩ e).isSome ↔ i < p.operandCount owner := by
  rw [operandCount_eq]
  cases owner with
  | stmt s =>
    cases h : p.stmt? s with
    | none => simp [setExprAt?, operands, h]
    | some x =>
      simpa [setExprAt?, operands, h, Option.isSome_bind] using
        StmtKind.listed_operands.isSome_write x.kind i e
  | expr s =>
    cases h : p.expr? s with
    | none => simp [setExprAt?, operands, h]
    | some x =>
      simpa [setExprAt?, operands, h, Option.isSome_bind] using
        ExprKind.listed_operands.isSome_write x.kind i e

/-- The place for the `else` of an `if`, which may be missing. -/
def IsElse (p : Program) (place : StmtPlace) : Prop :=
  ∃ s x, place = .branch s .elseBranch ∧ p.stmt? s = some x ∧ x.kind.head = .ifElse

/-- Only an `if` has a place for an `else`. -/
theorem isElse_branch {s : StmtId} {x : Stmt} (hx : p.stmt? s = some x) (which : Branch) :
    p.IsElse (.branch s which) ↔ x.kind.head = .ifElse ∧ which = .elseBranch := by
  constructor
  · rintro ⟨_, y, ⟨rfl, rfl⟩, hy, hhead⟩
    obtain rfl := Option.some.inj (hx.symm.trans hy)
    exact ⟨hhead, rfl⟩
  · rintro ⟨hhead, rfl⟩
    exact ⟨s, x, rfl, hx, hhead⟩

/-- A statement can be written where one is, and where an `else` may be. -/
theorem isSome_setStmtAt? (p : Program) (place : StmtPlace) (s : StmtId) :
    (p.setStmtAt? place s).isSome ↔ (p.stmtAt? place).isSome ∨ p.IsElse place := by
  cases place with
  | entry list i =>
    have helse : ¬ p.IsElse (.entry list i) := by
      rintro ⟨_, _, h, _⟩
      cases h
    cases h : p.stmtList? list with
    | none => simp [setStmtAt?, stmtAt?, h, helse]
    | some entries => by_cases hi : i < entries.length <;> simp [setStmtAt?, stmtAt?, h, hi, helse]
  | branch t which =>
    cases h : p.stmt? t with
    | none => simp [setStmtAt?, stmtAt?, IsElse, h]
    | some x =>
      simpa [setStmtAt?, stmtAt?, h, isElse_branch h, Option.isSome_bind] using
        x.kind.isSome_withBranch? which s

/-! ## What writing leaves alone -/

/-- The arenas of two programs are the same but for one node, and that one has the same `view`. -/
structure AgreesBut {β : Type} (view : Node → β) (n : NodeId) (p q : Program) : Prop where
  modules : q.modules = p.modules
  symbols : ∀ i, (∀ s, n = .symbol s → i ≠ s.index) → q.symbols[i]? = p.symbols[i]?
  stmts : ∀ i, (∀ s, n = .stmt s → i ≠ s.index) → q.stmts[i]? = p.stmts[i]?
  exprs : ∀ i, (∀ e, n = .expr e → i ≠ e.index) → q.exprs[i]? = p.exprs[i]?
  view : (q.node? n).map view = (p.node? n).map view

section

variable {β : Type} {view : Node → β}

theorem agreesBut_updateSymbol {s : SymbolId} {x : Symbol} (hx : p.symbol? s = some x)
    {f : Symbol → Symbol} (h : view (.symbol (f x)) = view (.symbol x)) :
    AgreesBut view (.symbol s) p (p.updateSymbol s f) where
  modules := rfl
  symbols i hi := by
    rw [updateSymbol, Array.getElem?_modify, if_neg (hi s rfl).symm]
  stmts _ _ := rfl
  exprs _ _ := rfl
  view := by simp [node?, symbol?_updateSymbol, hx, h]

/-- A change to a statement that leaves its view leaves all other nodes. -/
theorem agreesBut_updateStmt {s : StmtId} {x : Stmt} (hx : p.stmt? s = some x)
    {f : Stmt → Stmt} (h : view (.stmt (f x)) = view (.stmt x)) :
    AgreesBut view (.stmt s) p (p.updateStmt s f) where
  modules := rfl
  symbols _ _ := rfl
  stmts i hi := by
    rw [updateStmt, Array.getElem?_modify, if_neg (hi s rfl).symm]
  exprs _ _ := rfl
  view := by simp [node?, stmt?_updateStmt, hx, h]

theorem agreesBut_updateExpr {e : ExprId} {x : Expr} (hx : p.expr? e = some x)
    {f : Expr → Expr} (h : view (.expr (f x)) = view (.expr x)) :
    AgreesBut view (.expr e) p (p.updateExpr e f) where
  modules := rfl
  symbols _ _ := rfl
  stmts _ _ := rfl
  exprs i hi := by
    rw [updateExpr, Array.getElem?_modify, if_neg (hi e rfl).symm]
  view := by simp [node?, expr?_updateExpr, hx, h]

end

/-- Writing an expression changes an operand of its owner. -/
theorem agreesBut_setExprAt? {place : ExprPlace} {e : ExprId} (h : p.setExprAt? place e = some q) :
    AgreesBut Node.besidesExprs place.owner.node p q := by
  obtain ⟨owner, i⟩ := place
  cases owner with
  | stmt s =>
    obtain ⟨x, hx, h⟩ := Option.bind_eq_some_iff.mp h
    obtain ⟨k, hk, h⟩ := Option.bind_eq_some_iff.mp h
    obtain rfl := Option.some.inj h
    have hrest := (StmtKind.listed_operands.of_write hk).2.2
    simp only [StmtKind.besideOperands, Prod.mk.injEq] at hrest
    exact agreesBut_updateStmt hx (by simp [Node.besidesExprs, Node.cell, Node.backs, hrest])
  | expr s =>
    obtain ⟨x, hx, h⟩ := Option.bind_eq_some_iff.mp h
    obtain ⟨k, hk, h⟩ := Option.bind_eq_some_iff.mp h
    obtain rfl := Option.some.inj h
    have hrest := (ExprKind.listed_operands.of_write hk).2.2
    exact agreesBut_updateExpr hx (by simp [Node.besidesExprs, Node.cell, Node.backs, hrest])

/-- What is done to a statement does not show where statements are read, if its own are the same. -/
theorem stmtAt?_updateStmt {s : StmtId} {x : Stmt} (hx : p.stmt? s = some x) {f : Stmt → Stmt}
    (hentries : (f x).kind.entries? = x.kind.entries?)
    (hbranch : (f x).kind.branch? = x.kind.branch?) : (p.updateStmt s f).stmtAt? = p.stmtAt? := by
  funext place
  rcases place with ⟨_ | t, i⟩ | ⟨t, which⟩
  · rfl
  · by_cases ht : t = s <;> simp [stmtAt?, stmtList?, stmt?_updateStmt, ht, hx, hentries]
  · by_cases ht : t = s <;> simp [stmtAt?, stmt?_updateStmt, ht, hx, hbranch]

/-- What is done to a statement does not show where expressions are read, if its own are the
same. -/
theorem exprAt?_updateStmt {s : StmtId} {x : Stmt} (hx : p.stmt? s = some x) {f : Stmt → Stmt}
    (hops : (f x).kind.operands = x.kind.operands) : (p.updateStmt s f).exprAt? = p.exprAt? := by
  funext place
  obtain ⟨t | _, i⟩ := place
  · by_cases ht : t = s <;> simp [exprAt?, operands, stmt?_updateStmt, ht, hx, hops]
  · rfl

/-- Writing an expression changes no statement that is held. -/
theorem stmtAt?_setExprAt? {place : ExprPlace} {e : ExprId} (h : p.setExprAt? place e = some q) :
    q.stmtAt? = p.stmtAt? := by
  obtain ⟨owner, i⟩ := place
  cases owner with
  | stmt s =>
    obtain ⟨x, hx, h⟩ := Option.bind_eq_some_iff.mp h
    obtain ⟨k, hk, h⟩ := Option.bind_eq_some_iff.mp h
    obtain rfl := Option.some.inj h
    obtain ⟨hentries, hbranch⟩ := StmtKind.stmts_of_withOperand? hk
    exact stmtAt?_updateStmt hx hentries hbranch
  | expr s =>
    obtain ⟨x, hx, h⟩ := Option.bind_eq_some_iff.mp h
    obtain ⟨k, hk, h⟩ := Option.bind_eq_some_iff.mp h
    obtain rfl := Option.some.inj h
    rfl

/-- Writing a statement changes what its holder holds, and no expression that is held. -/
theorem besides_setStmtAt? {place : StmtPlace} {s : StmtId} (h : p.setStmtAt? place s = some q) :
    AgreesBut Node.besidesStmts place.holder p q ∧ q.exprAt? = p.exprAt? := by
  cases place with
  | entry list i =>
    obtain ⟨xs, hxs, h⟩ := Option.bind_eq_some_iff.mp h
    split at h
    · obtain rfl := Option.some.inj h
      cases list with
      | body t =>
        obtain ⟨x, hx, _⟩ := Option.bind_eq_some_iff.mp hxs
        have hrest := x.kind.besides_withBody (xs.set i s)
        exact ⟨agreesBut_updateSymbol hx
          (by simp [Node.besidesStmts, Node.cell, Node.backs, hrest]), rfl⟩
      | block t =>
        obtain ⟨x, hx, _⟩ := Option.bind_eq_some_iff.mp hxs
        have hrest := x.kind.besides_withEntries (xs.set i s)
        exact ⟨agreesBut_updateStmt hx
          (by simp [Node.besidesStmts, Node.cell, Node.backs, hrest]),
          exprAt?_updateStmt hx hrest.2.1⟩
    · cases h
  | branch t which =>
    obtain ⟨x, hx, h⟩ := Option.bind_eq_some_iff.mp h
    obtain ⟨k, hk, h⟩ := Option.bind_eq_some_iff.mp h
    obtain rfl := Option.some.inj h
    have hrest := StmtKind.besides_of_withBranch? hk
    exact ⟨agreesBut_updateStmt hx (by simp [Node.besidesStmts, Node.cell, Node.backs, hrest]),
      exprAt?_updateStmt hx hrest.2.1⟩

/-! ## All laws -/

/-- Places are lawful.  An expression can be read and written at the places that its owner counts,
and a statement can be written where one is read and at the `else` of an `if`; where nothing can be
written the program stays as it is.  Writing changes what is read at the place, and otherwise
nothing: no other place of either sort, and no node but the one that owns the place, which keeps all
it says, records and owns besides. -/
theorem places_lawful :
    Lawful exprAt? setExprAt? ∧ Lawful stmtAt? setStmtAt? ∧
    (∀ (p : Program) owner, (p.heldExprs owner).length = p.operandCount owner ∧
      ∀ i, (p.heldExprs owner)[i]? = p.exprAt? ⟨owner, i⟩ ∧
        ((p.exprAt? ⟨owner, i⟩).isSome ↔ i < p.operandCount owner)) ∧
    (∀ (p : Program) owner i e, ((p.setExprAt? ⟨owner, i⟩ e).isSome ↔ i < p.operandCount owner) ∧
      (¬ i < p.operandCount owner → (p.setExprAt? ⟨owner, i⟩ e).getD p = p)) ∧
    (∀ (p : Program) place s,
      ((p.setStmtAt? place s).isSome ↔ (p.stmtAt? place).isSome ∨ p.IsElse place) ∧
      (¬ ((p.stmtAt? place).isSome ∨ p.IsElse place) → (p.setStmtAt? place s).getD p = p)) ∧
    (∀ (p q : Program) place e, p.setExprAt? place e = some q →
      q.stmtAt? = p.stmtAt? ∧ AgreesBut Node.besidesExprs place.owner.node p q) ∧
    (∀ (p q : Program) place s, p.setStmtAt? place s = some q →
      q.exprAt? = p.exprAt? ∧ AgreesBut Node.besidesStmts place.holder p q) := by
  refine ⟨lawful_exprAt?, lawful_stmtAt?, fun p owner => ⟨?_, fun i => ⟨?_, ?_⟩⟩,
    fun p owner i e => ⟨isSome_setExprAt? p owner i e, fun hi => ?_⟩,
    fun p place s => ⟨isSome_setStmtAt? p place s, fun hplace => ?_⟩,
    fun p q place e h => ⟨stmtAt?_setExprAt? h, agreesBut_setExprAt? h⟩,
    fun p q place s h => ⟨(besides_setStmtAt? h).2, (besides_setStmtAt? h).1⟩⟩
  · rw [heldExprs_eq, operandCount_eq]
  · rw [heldExprs_eq, exprAt?]
  · exact isSome_exprAt? p owner i
  · rw [← isSome_setExprAt? p owner i e, Option.not_isSome_iff_eq_none] at hi
    rw [hi, Option.getD_none]
  · rw [← isSome_setStmtAt? p place s, Option.not_isSome_iff_eq_none] at hplace
    rw [hplace, Option.getD_none]

/-- An `if` without `else`, and a statement that nothing holds. -/
def missingElse : Program where
  modules := #[]
  symbols := #[]
  stmts := #[.new (.ifElse ⟨0⟩ ⟨1⟩ none) 1, .new .nop 2, .new .nop 3]
  exprs := #[.new (.bool true) 1]

/-- The missing `else` gets a statement, the second operand of the `if` cannot be written. -/
theorem places_lawful_missing_else :
    missingElse.stmtAt? (.branch ⟨0⟩ .elseBranch) = none ∧
    (∃ q, missingElse.setStmtAt? (.branch ⟨0⟩ .elseBranch) ⟨2⟩ = some q ∧
      q.stmtAt? (.branch ⟨0⟩ .elseBranch) = some ⟨2⟩ ∧
      q.stmtAt? (.branch ⟨0⟩ .thenBranch) = some ⟨1⟩ ∧ q.exprAt? = missingElse.exprAt?) ∧
    (missingElse.setExprAt? ⟨.stmt ⟨0⟩, 1⟩ ⟨0⟩).getD missingElse = missingElse := by
  obtain ⟨_, hstmts, _, hexpr, hstmt, _, hwrite⟩ := places_lawful
  refine ⟨by decide, ?_, (hexpr missingElse (.stmt ⟨0⟩) 1 ⟨0⟩).2 (by decide)⟩
  obtain ⟨q, hq⟩ := Option.isSome_iff_exists.mp
    ((hstmt missingElse (.branch ⟨0⟩ .elseBranch) ⟨2⟩).1.mpr (.inr ⟨⟨0⟩, _, rfl, rfl, rfl⟩))
  exact ⟨q, hq, hstmts.read_write hq, (hstmts.read_other hq (by decide)).trans (by decide),
    (hwrite _ _ _ _ hq).1⟩

end Program

end MiddleEnd

import MiddleEnd.Dump.Decode
import MiddleEnd.Proofs.Dump.Reads

/-!
# MiddleEnd.Proofs.Dump.RoundTrip

A dump is read as the program that it was made of, and so is every text that stands for a variation
of it.  One law per type says that its reader gives back what its encoder was given, so that the law
of a record is put together from those of its fields and that of a choice has one case per
alternative.

Nothing is asked of the program: the ids in it need not lead anywhere, and its texts may hold any
characters.
-/

namespace MiddleEnd.Dump

/-! ## Single values -/

/-- What is read as part of another value. -/
theorem Inverts.as {α β : Type} {read : Read α} {encode : α → Json} {s : Schema}
    (h : Inverts read encode s) (f : α → β) (a : α) (d : Json.Document)
    (hd : Varied s (encode a) d) :
    read.as f d = .ok (f a) := by
  rw [Read.as, h a d hd]
  rfl

/-- Lists are read back if their items are. -/
theorem Inverts.array {α : Type} {read : Read α} {encode : α → Json} {s : Schema}
    (h : Inverts read encode s) :
    Inverts (readArray read) (fun items => Dump.array encode items.toList) (.list s) := by
  intro items d hd
  rw [readArray, Read.as, h.list items.toList d hd]
  simp [Except.map]

/-- Texts are read back. -/
theorem inverts_text : Inverts readText .str .plain := .plain fun _ => rfl

theorem inverts_bool : Inverts readBool .bool .plain := .plain fun _ => rfl

/-- Unsigned numbers of 32 bits are read back. -/
theorem inverts_word : Inverts readWord word .plain := by
  refine .plain fun n => ?_
  have hsize : n.toNat < UInt32.size := n.toNat_lt
  rw [readWord, word, readWhole_document _ (by omega) (by omega)]
  simp [Except.map]

/-- Signed numbers of 64 bits are read back. -/
theorem inverts_int : Inverts readInt (fun n => .int n.toInt) .plain := by
  refine .plain fun n => ?_
  rw [readInt, readWhole_document _ (Int64.minValue_le_toInt n) (Int64.toInt_le n)]
  simp [Except.map]

/-- An identifier is read back from its number. -/
theorem inverts_moduleId : Inverts readModuleId moduleId .plain := fun m =>
  inverts_word.as ModuleId.mk m.val

theorem inverts_symbolId : Inverts readSymbolId symbolId .plain := fun s =>
  inverts_word.as SymbolId.mk s.val

theorem inverts_stmtId : Inverts readStmtId stmtId .plain := fun s =>
  inverts_word.as StmtId.mk s.val

theorem inverts_exprId : Inverts readExprId exprId .plain := fun e =>
  inverts_word.as ExprId.mk e.val

/-- No identifier is `null`, so that `null` can stand for none. -/
theorem symbolId_ne_null (s : SymbolId) : symbolId s ≠ .null := nofun

theorem stmtId_ne_null (s : StmtId) : stmtId s ≠ .null := nofun

theorem exprId_ne_null (e : ExprId) : exprId e ≠ .null := nofun

/-! ## Nodes -/

/-- Scopes are read back from the name of their kind and an identifier. -/
theorem inverts_scope : Inverts readScope scope scopeSchema := by
  rintro (m | s | s) d hd
  · exact readChoice_value hd rfl rfl (inverts_moduleId.as Scope.module m)
  · exact readChoice_value hd rfl rfl (inverts_symbolId.as Scope.symbol s)
  · exact readChoice_value hd rfl rfl (inverts_stmtId.as Scope.stmt s)

theorem scope_ne_null (s : Scope) : scope s ≠ .null := by cases s <;> simp [scope, choice]

/-- The source text of a module is left out where it was not kept. -/
theorem inverts_module : Inverts readModule module moduleSchema := by
  rintro ⟨name, file, text | text, symbols⟩ d hd
  · exact readRecord_varied _ rfl (by simp [source]) hd fun _ hk => .seq (.seq (.seq (.map Module.mk
      (.required hk inverts_text rfl rfl (by decide)))
      (.required hk inverts_text rfl rfl (by decide)))
      (.omitted hk rfl rfl))
      (.required hk inverts_symbolId.list rfl rfl (by decide))
  · exact readRecord_varied _ rfl (by simp [source]) hd fun _ hk => .seq (.seq (.seq (.map Module.mk
      (.required hk inverts_text rfl rfl (by decide)))
      (.required hk inverts_text rfl rfl (by decide)))
      (.nullable hk inverts_text nofun rfl rfl (by decide)))
      (.required hk inverts_symbolId.list rfl rfl (by decide))

/-- Kinds of symbols are read back. That of a function is a record of its own. -/
theorem inverts_symbolKind : Inverts readSymbolKind symbolKind symbolKindSchema := by
  rintro (ty | ty | ⟨params, ret, body⟩ | members) d hd
  · exact readChoice_record hd rfl rfl rfl (by simp) fun _ hk =>
      .map SymbolKind.var (.nullable hk inverts_text nofun rfl rfl (by decide))
  · exact readChoice_record hd rfl rfl rfl (by simp) fun _ hk =>
      .map SymbolKind.param (.nullable hk inverts_text nofun rfl rfl (by decide))
  · exact readChoice_record hd rfl rfl rfl (by simp) fun _ hk => .seq (.seq (.map SymbolKind.func
      (.required hk inverts_symbolId.list rfl rfl (by decide)))
      (.nullable hk inverts_text nofun rfl rfl (by decide)))
      (.required hk inverts_stmtId.list rfl rfl (by decide))
  · exact readChoice_record hd rfl rfl rfl (by simp) fun _ hk =>
      .map SymbolKind.type (.required hk inverts_symbolId.list rfl rfl (by decide))

/-- Symbols are read back. One that says nothing of being removed is not removed. -/
theorem inverts_symbol : Inverts readSymbol symbol symbolSchema := by
  intro s d hd
  have hremoved : ∀ b, Deletable "removed" (.bool b) → b = false := by simp [Deletable, nullable]
  exact readRecord_varied _ rfl (by simp) hd fun _ hk => .seq (.seq (.seq (.seq (.map Symbol.mk
    (.required hk inverts_text rfl rfl (by decide)))
    (.required hk inverts_word rfl rfl (by decide)))
    (.required hk inverts_symbolKind rfl rfl (by decide)))
    (.nullable hk inverts_scope scope_ne_null rfl rfl (by decide)))
    (.defaulted hk inverts_bool rfl rfl (hremoved _))

/-- Kinds of statements are read back, each alternative from its own name. -/
theorem inverts_stmtKind : Inverts readStmtKind stmtKind stmtKindSchema := by
  rintro (e | ⟨sym, init⟩ | stmts | ⟨cond, thenBranch, elseBranch⟩ | ⟨cond, body⟩ | value | _) d hd
  · exact readChoice_value hd rfl rfl (inverts_exprId.as StmtKind.expr e)
  · exact readChoice_record hd rfl rfl rfl (by simp) fun _ hk => .seq (.map StmtKind.decl
      (.required hk inverts_symbolId rfl rfl (by decide)))
      (.nullable hk inverts_exprId exprId_ne_null rfl rfl (by decide))
  · exact readChoice_value hd rfl rfl (inverts_stmtId.list.as StmtKind.block stmts)
  · exact readChoice_record hd rfl rfl rfl (by simp) fun _ hk => .seq (.seq (.map StmtKind.ifElse
      (.required hk inverts_exprId rfl rfl (by decide)))
      (.required hk inverts_stmtId rfl rfl (by decide)))
      (.nullable hk inverts_stmtId stmtId_ne_null rfl rfl (by decide))
  · exact readChoice_record hd rfl rfl rfl (by simp) fun _ hk => .seq (.map StmtKind.whileDo
      (.required hk inverts_exprId rfl rfl (by decide)))
      (.required hk inverts_stmtId rfl rfl (by decide))
  · exact readChoice_value hd rfl rfl
      ((inverts_exprId.optional exprId_ne_null).as StmtKind.ret value)
  · obtain rfl := hd.text
    rfl

/-- Statements are read back. -/
theorem inverts_stmt : Inverts readStmt stmt stmtSchema := by
  intro s d hd
  exact readRecord_varied _ rfl (by simp) hd fun _ hk => .seq (.seq (.seq (.map Stmt.mk
    (.required hk inverts_stmtKind rfl rfl (by decide)))
    (.required hk inverts_word rfl rfl (by decide)))
    (.nullable hk inverts_stmtId stmtId_ne_null rfl rfl (by decide)))
    (.nullable hk inverts_symbolId symbolId_ne_null rfl rfl (by decide))

/-- Operators are read back from their names, which differ. -/
theorem inverts_op : Inverts readOp (fun op => .str (opName op)) .plain := by
  refine .plain ?_
  rintro (_ | _ | _ | _ | _ | _ | _ | _ | _ | _ | _ | _) <;> rfl

/-- Kinds of expressions are read back, each alternative from its own name. -/
theorem inverts_exprKind : Inverts readExprKind exprKind exprKindSchema := by
  rintro (value | value | value | sym | ⟨callee, args⟩ | ⟨op, lhs, rhs⟩ | ⟨target, value⟩ | inner)
    d hd
  · exact readChoice_value hd rfl rfl (inverts_int.as ExprKind.int value)
  · exact readChoice_value hd rfl rfl (inverts_bool.as ExprKind.bool value)
  · exact readChoice_value hd rfl rfl (inverts_text.as ExprKind.str value)
  · exact readChoice_value hd rfl rfl (inverts_symbolId.as ExprKind.symRef sym)
  · exact readChoice_record hd rfl rfl rfl (by simp) fun _ hk => .seq (.map ExprKind.call
      (.required hk inverts_exprId rfl rfl (by decide)))
      (.required hk inverts_exprId.list rfl rfl (by decide))
  · exact readChoice_record hd rfl rfl rfl (by simp) fun _ hk => .seq (.seq (.map ExprKind.binary
      (.required hk inverts_op rfl rfl (by decide)))
      (.required hk inverts_exprId rfl rfl (by decide)))
      (.required hk inverts_exprId rfl rfl (by decide))
  · exact readChoice_record hd rfl rfl rfl (by simp) fun _ hk => .seq (.map ExprKind.assign
      (.required hk inverts_exprId rfl rfl (by decide)))
      (.required hk inverts_exprId rfl rfl (by decide))
  · exact readChoice_value hd rfl rfl (inverts_exprId.as ExprKind.paren inner)

/-- Expressions are read back. -/
theorem inverts_expr : Inverts readExpr expr exprSchema := by
  intro e d hd
  exact readRecord_varied _ rfl (by simp) hd fun _ hk => .seq (.seq (.seq (.map Expr.mk
    (.required hk inverts_exprKind rfl rfl (by decide)))
    (.required hk inverts_word rfl rfl (by decide)))
    (.nullable hk inverts_stmtId stmtId_ne_null rfl rfl (by decide)))
    (.nullable hk inverts_symbolId symbolId_ne_null rfl rfl (by decide))

/-- Programs are read back. -/
theorem inverts_program : Inverts readProgram program programSchema := by
  intro p d hd
  exact readRecord_varied _ rfl (by simp) hd fun _ hk => .seq (.seq (.seq (.map Program.mk
    (.required hk inverts_module.array rfl rfl (by decide)))
    (.required hk inverts_symbol.array rfl rfl (by decide)))
    (.required hk inverts_stmt.array rfl rfl (by decide)))
    (.required hk inverts_expr.array rfl rfl (by decide))

/-! ## Numbers

Every number in a dump is an id, a line or a literal, and can be read as it was written. -/

open Json (Exact IsExact MembersExact)

/-- Numbers of 32 bits are written without a loss. -/
@[simp] theorem isExact_word (n : UInt32) : (word n).IsExact := by
  have hsize : n.toNat < 2 ^ 32 := n.toNat_lt
  show Exact _
  exact ⟨by omega, by omega⟩

@[simp] theorem isExact_symbolId (s : SymbolId) : (symbolId s).IsExact := isExact_word s.val

@[simp] theorem isExact_stmtId (s : StmtId) : (stmtId s).IsExact := isExact_word s.val

@[simp] theorem isExact_exprId (e : ExprId) : (exprId e).IsExact := isExact_word e.val

/-- Numbers of 64 bits are written without a loss. -/
@[simp] theorem exact_int (n : Int64) : Exact n.toInt :=
  ⟨Int64.le_toInt n, Int.lt_trans (Int64.toInt_lt n) (by decide)⟩

section

variable {α : Type} {encode : α → Json}

/-- A list is written without a loss if its items are. -/
@[simp] theorem isExact_array (h : ∀ a, (encode a).IsExact) (items : List α) :
    (array encode items).IsExact := by
  refine Json.itemsExact_iff.mpr fun item hmem => ?_
  obtain ⟨a, _, rfl⟩ := List.mem_map.mp hmem
  exact h a

/-- What may be missing is written without a loss if it is when it is there. -/
@[simp] theorem isExact_orNull (h : ∀ a, (encode a).IsExact) (o : Option α) :
    (orNull encode o).IsExact := by
  cases o with
  | none => trivial
  | some a => exact h a

end

@[simp] theorem isExact_orNull_text (o : Option String) : (orNull Json.str o).IsExact :=
  isExact_orNull (fun _ => by rw [IsExact]; trivial) o

/-- Scopes are written without a loss. -/
@[simp] theorem isExact_scope (s : Scope) : (scope s).IsExact := by
  cases s <;> exact ⟨isExact_word _, trivial⟩

/-- Modules are written without a loss. -/
@[simp] theorem isExact_module (m : Module) : (module m).IsExact := by
  cases hsource : m.source <;> simp [module, source, hsource, IsExact, MembersExact]

/-- Symbols are written without a loss. -/
@[simp] theorem isExact_symbol (s : Symbol) : (symbol s).IsExact := by
  cases hkind : s.kind <;> simp [symbol, symbolKind, hkind, choice, IsExact, MembersExact]

/-- Statements are written without a loss. -/
@[simp] theorem isExact_stmt (s : Stmt) : (stmt s).IsExact := by
  cases hkind : s.kind <;> simp [stmt, stmtKind, hkind, choice, IsExact, MembersExact]

/-- Expressions are written without a loss. -/
@[simp] theorem isExact_expr (e : Expr) : (expr e).IsExact := by
  cases hkind : e.kind <;> simp [expr, exprKind, hkind, choice, IsExact, MembersExact]

/-- The dump of a program is written without a loss. -/
theorem isExact_program (p : Program) : (program p).IsExact := by
  simp [program, IsExact, MembersExact]

/-! ## Programs -/

/-- Whatever text stands for a variation of a dump is read as the program of the dump. -/
theorem decode_of_varies {p : Program} {t : String} {d : Json.Document} (ht : Json.Spelled d t)
    (hd : Varies programSchema (program p) d) : decode t = .ok p := by
  rw [decode, Json.readDocument_spelled ht]
  simp only [inverts_program p d ⟨hd, ht.skip⟩, ok_bind]
  rfl

/-- The dump of a program is read as the program. -/
theorem decode_text (p : Program) : decode (text p) = .ok p :=
  decode_of_varies (Json.spelled_pretty (isExact_program p)) (.same _ _)

/-- A program of one variable. -/
def oneVariable : Program := ⟨#[], #[⟨"x", 1, .var none, none, false⟩], #[], #[]⟩

/-- The variable as another program might write it: the members stand in reverse order, one that is
not known is among them, and those that say nothing are left out. -/
def foreignVariable : Json :=
  .obj [("origin", .arr [.null, .str "\"\\\x07"]), ("kind", .obj [("Variable", .obj [])]),
    ("line", .int 1), ("name", .str "x")]

/-- The program as another program might write it. -/
def foreignDump : Json :=
  .obj [("version", .int (-1)), ("exprs", .arr []), ("stmts", .arr []),
    ("symbols", .arr [foreignVariable]), ("modules", .arr [])]

/-- The foreign symbol has its members in another order, one that is unknown, and none about being
removed. -/
theorem varies_foreignVariable :
    Varies symbolSchema (symbol ⟨"x", 1, .var none, none, false⟩) foreignVariable.document := by
  have hkind : Varies symbolKindSchema (symbolKind (.var none))
      (object [("Variable", object [])]) :=
    .choice rfl (@Varies.record _ _ [] [] (fun _ => none) (by simp)
      (by simp [Deletable, nullable, orNull]) nofun .nil)
  have hrecord : Varies symbolSchema _ (object _) := @Varies.record _
    [("name", .str "x"), ("line", word 1), ("kind", symbolKind (.var none)), ("scope", .null),
      ("removed", .bool false)]
    [("origin", (Json.arr [.null, .str "\"\\\x07"]).document)] _
    (List.lookup · [("name", .text "x"), ("line", .number (.whole 1)),
      ("kind", object [("Variable", object [])])]) ?_ ?_ (by simp) (List.reverse_perm _)
  · exact hrecord
  · simp only [List.forall_mem_cons]
    refine ⟨?_, ?_, ?_, ?_, ?_, nofun⟩
    · rintro s d ⟨⟩ ⟨⟩
      exact .same _ (.str "x")
    · rintro s d ⟨⟩ ⟨⟩
      exact .same _ (.int 1)
    · rintro s d ⟨⟩ ⟨⟩
      exact hkind
    · rintro s d _ ⟨⟩
    · rintro s d _ ⟨⟩
  · simp [Deletable, nullable]

/-- The foreign dump differs from that of `oneVariable` only in ways that do not count. -/
theorem varies_foreignDump : Varies programSchema (program oneVariable) foreignDump.document := by
  have hsymbols : Varies (.list symbolSchema) (array symbol oneVariable.symbols.toList)
      (.arr [foreignVariable.document] none) := by
    refine .list rfl fun i item doc hitem hdoc => ?_
    cases i with
    | zero =>
      cases hitem
      cases hdoc
      exact varies_foreignVariable
    | succ i => cases hitem
  have hrecord : Varies programSchema _ (object _) := @Varies.record _
    [("modules", .arr []), ("symbols", array symbol oneVariable.symbols.toList), ("stmts", .arr []),
      ("exprs", .arr [])]
    [("version", (Json.int (-1)).document)] _
    (List.lookup · [("modules", .arr [] none), ("symbols", .arr [foreignVariable.document] none),
      ("stmts", .arr [] none), ("exprs", .arr [] none)]) ?_ ?_ (by simp) (List.reverse_perm _)
  · exact hrecord
  · simp only [List.forall_mem_cons]
    refine ⟨?_, ?_, ?_, ?_, nofun⟩
    · rintro s d ⟨⟩ ⟨⟩
      exact .same _ (.arr [])
    · rintro s d ⟨⟩ ⟨⟩
      exact hsymbols
    · rintro s d ⟨⟩ ⟨⟩
      exact .same _ (.arr [])
    · rintro s d ⟨⟩ ⟨⟩
      exact .same _ (.arr [])
  · simp

/-- A program is read back from its dump, compact or indented, and from every text that is JSON and
differs from its dump only in the order of the members of records, in members that are not known, in
members left out that say nothing, and in how things are written.

Texts are made of characters (`Json.Spelled`), and half of a surrogate pair is none. A member that
is not known and holds one is therefore not among those spoken of, although the reader skips it. -/
theorem decode_varied_dump (p : Program) :
    decode (compactText p) = .ok p ∧ decode (text p) = .ok p ∧
      ∀ t d, Json.Spelled d t → Varies programSchema (program p) d → decode t = .ok p :=
  ⟨decode_of_varies (Json.spelled_compact (isExact_program p)) (.same _ _), decode_text p,
    fun _ _ => decode_of_varies⟩

theorem decode_varied_dump_foreign :
    Json.Spelled foreignDump.document foreignDump.compact ∧
      Varies programSchema (program oneVariable) foreignDump.document ∧
      decode foreignDump.compact = .ok oneVariable :=
  have hexact : foreignDump.IsExact := by
    simp [foreignDump, foreignVariable, IsExact, MembersExact, Json.ItemsExact, Exact]
  ⟨Json.spelled_compact hexact, varies_foreignDump,
    (decode_varied_dump oneVariable).2.2 _ _ (Json.spelled_compact hexact) varies_foreignDump⟩

end MiddleEnd.Dump

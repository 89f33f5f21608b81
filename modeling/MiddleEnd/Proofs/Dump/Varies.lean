import Mathlib.Data.List.Forall2
import Mathlib.Data.List.Nodup
import MiddleEnd.Dump.Encode
import MiddleEnd.Proofs.Json.Written

/-!
# MiddleEnd.Proofs.Dump.Varies

What may be different in a dump.  Other programs write dumps too: they may write the members of a
record in another order, add members of their own, and leave out members that say nothing
(`Deletable`).  `Varies` says which documents come of a dump in this way.

Only records may vary so.  An object that stands for a choice has a single member, which names the
alternative.  A schema says which objects are records, and which members they have.
-/

namespace MiddleEnd.Dump

open Json (Document)

/-! ## Schemas -/

/-- How the values of a type are laid out. -/
inductive Schema where
  /-- There is no record in them. -/
  | plain
  | list (item : Schema)
  | record (fields : List (String × Schema))
  | choice (alternatives : List (String × Schema))

def scopeSchema : Schema := .choice [("Module", .plain), ("Symbol", .plain), ("Stmt", .plain)]

def moduleSchema : Schema :=
  .record [("name", .plain), ("file", .plain), ("source", .plain), ("symbols", .list .plain)]

def symbolKindSchema : Schema :=
  .choice [("Variable", .record [("ty", .plain)]), ("Param", .record [("ty", .plain)]),
    ("Function", .record [("params", .list .plain), ("ret", .plain), ("body", .list .plain)]),
    ("Type", .record [("members", .list .plain)])]

def symbolSchema : Schema :=
  .record [("name", .plain), ("line", .plain), ("kind", symbolKindSchema), ("scope", scopeSchema),
    ("removed", .plain)]

def stmtKindSchema : Schema :=
  .choice [("Expr", .plain), ("Decl", .record [("sym", .plain), ("init", .plain)]),
    ("Block", .list .plain),
    ("If", .record [("cond", .plain), ("then_branch", .plain), ("else_branch", .plain)]),
    ("While", .record [("cond", .plain), ("body", .plain)]), ("Return", .plain), ("Nop", .plain)]

def stmtSchema : Schema :=
  .record [("kind", stmtKindSchema), ("line", .plain), ("parent_stmt", .plain),
    ("parent_symbol", .plain)]

def exprKindSchema : Schema :=
  .choice [("Int", .plain), ("Bool", .plain), ("Str", .plain), ("SymRef", .plain),
    ("Call", .record [("callee", .plain), ("args", .list .plain)]),
    ("Binary", .record [("op", .plain), ("lhs", .plain), ("rhs", .plain)]),
    ("Assign", .record [("target", .plain), ("value", .plain)]), ("Paren", .plain)]

def exprSchema : Schema :=
  .record [("kind", exprKindSchema), ("line", .plain), ("parent_stmt", .plain),
    ("parent_symbol", .plain)]

def programSchema : Schema :=
  .record [("modules", .list moduleSchema), ("symbols", .list symbolSchema),
    ("stmts", .list stmtSchema), ("exprs", .list exprSchema)]

/-! ## Variation -/

/-- The members whose values may be absent. -/
def nullable : List String :=
  ["source", "scope", "parent_stmt", "parent_symbol", "ty", "ret", "init", "else_branch"]

/-- A member may be left out: it says that something is absent, or that a symbol is not removed. -/
def Deletable (name : String) (j : Json) : Prop :=
  name ∈ nullable ∧ j = .null ∨ name = "removed" ∧ j = .bool false

/-- An object with nothing wrong about its members. -/
def object (members : List (String × Document)) : Document :=
  .obj (members.map fun member => (.text member.1, member.2)) none

/-- The members that are not left out, each with what became of it. -/
def kept (became : String → Option Document) (members : List (String × Json)) :
    List (String × Document) :=
  members.filterMap fun member => (became member.1).map fun d => (member.1, d)

/-- A document differs from a value only in what may be different. -/
inductive Varies : Schema → Json → Document → Prop where
  /-- Nothing is different. -/
  | same (s : Schema) (j : Json) : Varies s j j.document
  | list {s : Schema} {items : List Json} {docs : List Document}
      (hlength : docs.length = items.length)
      (hitems : ∀ (i : Nat) item doc, items[i]? = some item → docs[i]? = some doc →
        Varies s item doc) :
      Varies (.list s) (.arr items) (.arr docs none)
  | choice {alternatives : List (String × Schema)} {name : String} {s : Schema} {j : Json}
      {d : Document} (hname : alternatives.lookup name = some s) (hd : Varies s j d) :
      Varies (.choice alternatives) (.obj [(name, j)]) (object [(name, d)])
  /-- Some members of a record are left out, others are added, and all of them stand in any
  order. -/
  | record {fields : List (String × Schema)} {members : List (String × Json)}
      {extra all : List (String × Document)} (became : String → Option Document)
      (hkept : ∀ member ∈ members, ∀ s d, fields.lookup member.1 = some s →
        became member.1 = some d → Varies s member.2 d)
      (hdeleted : ∀ member ∈ members, became member.1 = none → Deletable member.1 member.2)
      (hextra : ∀ member ∈ extra, member.1 ∉ fields.map Prod.fst)
      (hall : all.Perm (kept became members ++ extra)) :
      Varies (.record fields) (.obj members) (object all)

/-- A document that varies from a value, and has no damage in it. -/
structure Varied (s : Schema) (j : Json) (d : Document) : Prop where
  varies : Varies s j d
  sound : d.skip = none

/-! ## Lookups -/

section

variable {β γ : Type} {name : String} {l l' : List (String × β)}

/-- What is looked up is in the list. -/
theorem mem_of_lookup {b : β} (h : l.lookup name = some b) : (name, b) ∈ l := by
  obtain ⟨before, after, rfl, _⟩ := List.lookup_eq_some_iff.mp h
  simp

/-- To look up what was changed is to change what is looked up. -/
theorem lookup_map (f : β → γ) (l : List (String × β)) (name : String) :
    (l.map fun entry => (entry.1, f entry.2)).lookup name = (l.lookup name).map f := by
  induction l with
  | nil => rfl
  | cons entry l ih =>
    rw [List.map_cons, List.lookup_cons, List.lookup_cons, ih]
    cases name == entry.1 <;> rfl

/-- The order of entries does not matter to a name of which there is only one. -/
theorem lookup_eq_of_perm (h : l.Perm l') :
    (l.map Prod.fst).count name ≤ 1 → l.lookup name = l'.lookup name := by
  induction h with
  | nil => exact fun _ => rfl
  | cons entry _ ih =>
    intro hcount
    have htail := Nat.le_trans List.count_le_count_cons hcount
    rw [List.lookup_cons, List.lookup_cons, ih htail]
  | swap entry entry' l =>
    intro hcount
    obtain ⟨k, v⟩ := entry
    obtain ⟨k', v'⟩ := entry'
    simp only [List.map_cons, List.count_cons, beq_iff_eq] at hcount
    by_cases hk : k = name
    · by_cases hk' : k' = name
      · simp [hk, hk'] at hcount
      · simp [List.lookup_cons, hk, beq_eq_false_iff_ne.mpr (Ne.symm hk')]
    · simp [List.lookup_cons, beq_eq_false_iff_ne.mpr (Ne.symm hk)]
  | trans h _ ih ih' =>
    intro hcount
    rw [ih hcount, ih' ((h.map Prod.fst).count_eq name ▸ hcount)]

end

section

variable {became : String → Option Document}

/-- A member that is kept is found under its name as what it became. -/
theorem lookup_kept (members : List (String × Json)) (name : String) :
    (kept became members).lookup name = (members.lookup name).bind fun _ => became name := by
  induction members with
  | nil => rfl
  | cons member members ih =>
    obtain ⟨key, j⟩ := member
    unfold kept at ih ⊢
    by_cases hkey : name = key
    · subst hkey
      cases hbecame : became name with
      | none => simp [hbecame, ih]
      | some d => simp [hbecame]
    · have hne : (name == key) = false := beq_eq_false_iff_ne.mpr hkey
      cases hbecame : became key <;> simpa [hbecame, List.lookup_cons, hne] using ih

/-- The members that are kept stay in their order. -/
theorem names_kept_sublist (members : List (String × Json)) :
    ((kept became members).map Prod.fst).Sublist (members.map Prod.fst) := by
  induction members with
  | nil => exact .refl _
  | cons member members ih =>
    unfold kept at ih ⊢
    rw [List.filterMap_cons]
    cases became member.1 with
    | none => exact .cons _ ih
    | some d => exact .cons_cons _ ih

end

/-! ## Records that vary -/

section

variable {fields : List (String × Schema)} {members : List (String × Json)}
  {extra all : List (String × Document)} {became : String → Option Document}

/-- No field is there twice. -/
theorem nodup_of_perm (hnodup : (members.map Prod.fst).Nodup)
    (hextra : ∀ member ∈ extra, member.1 ∉ fields.map Prod.fst)
    (hall : all.Perm (kept became members ++ extra)) :
    ((all.map Prod.fst).filter (· ∈ fields.map Prod.fst)).Nodup := by
  have hunknown : (extra.map Prod.fst).filter (· ∈ fields.map Prod.fst) = [] := by
    simpa [List.filter_eq_nil_iff] using hextra
  have hnames := (hall.map Prod.fst).filter (· ∈ fields.map Prod.fst)
  rw [List.map_append, List.filter_append, hunknown, List.append_nil] at hnames
  exact hnames.nodup_iff.mpr ((hnodup.sublist (names_kept_sublist members)).filter _)

/-- What is found for a field is what became of it. -/
theorem lookup_of_perm (hnodup : (members.map Prod.fst).Nodup)
    (hextra : ∀ member ∈ extra, member.1 ∉ fields.map Prod.fst)
    (hall : all.Perm (kept became members ++ extra)) {name : String}
    (hname : name ∈ fields.map Prod.fst) :
    all.lookup name = (members.lookup name).bind fun _ => became name := by
  have hother : ∀ member ∈ extra, name ≠ member.1 := by
    rintro member hmem rfl
    exact hextra member hmem hname
  have hcount : (all.map Prod.fst).count name ≤ 1 := by
    have hadded : (extra.map Prod.fst).count name = 0 :=
      List.count_eq_zero.mpr fun hmem =>
        have ⟨member, hmem, he⟩ := List.mem_map.mp hmem
        hother member hmem he.symm
    rw [(hall.map Prod.fst).count_eq, List.map_append, List.count_append, hadded, Nat.add_zero]
    exact Nat.le_trans ((names_kept_sublist members).count_le name)
      (List.nodup_iff_count_le_one.mp hnodup name)
  have hnone : extra.lookup name = none :=
    List.lookup_eq_none_iff.mpr fun member hmem => bne_iff_ne.mpr (hother member hmem)
  rw [lookup_eq_of_perm hall hcount, List.lookup_append, lookup_kept, hnone, Option.or_none]

end

/-- What is found under the names of the fields, in a record that varies from given members. -/
structure Known (fields : List (String × Schema)) (members : List (String × Json))
    (known : String → Option Document) : Prop where
  kept : ∀ {name s j d}, fields.lookup name = some s → members.lookup name = some j →
    known name = some d → Varied s j d
  deleted : ∀ {name s j}, fields.lookup name = some s → members.lookup name = some j →
    known name = none → Deletable name j
  absent : ∀ {name s}, fields.lookup name = some s → members.lookup name = none → known name = none

/-! ## What a document that varies is -/

/-- Where a list can be skipped its items can. -/
theorem skip_item {docs : List Document} (h : (Document.arr docs none).skip = none) :
    ∀ doc ∈ docs, doc.skip = none := by
  replace h := (Option.or_eq_none_iff.mp h).1
  induction docs with
  | nil => nofun
  | cons doc docs ih =>
    obtain ⟨hdoc, hdocs⟩ := Option.or_eq_none_iff.mp h
    exact List.forall_mem_cons.mpr ⟨hdoc, ih hdocs⟩

/-- Where an object can be skipped its members can. -/
theorem skip_member {members : List (String × Document)} (h : (object members).skip = none) :
    ∀ member ∈ members, member.2.skip = none := by
  replace h := (Option.or_eq_none_iff.mp h).1
  induction members with
  | nil => nofun
  | cons member members ih =>
    obtain ⟨hmember, hmembers⟩ := Option.or_eq_none_iff.mp h
    exact List.forall_mem_cons.mpr ⟨(Option.or_eq_none_iff.mp hmember).2, ih hmembers⟩

namespace Varied

variable {s : Schema} {j : Json} {d : Document}

/-- A plain value is written in one way. -/
theorem plain (h : Varied .plain j d) : d = j.document := by
  obtain ⟨⟨⟩, _⟩ := h
  rfl

theorem null (h : Varied s .null d) : d = .null := by
  obtain ⟨⟨⟩, _⟩ := h
  rfl

/-- A name is written in one way. -/
theorem text {name : String} (h : Varied s (.str name) d) : d = .text name := by
  obtain ⟨⟨⟩, _⟩ := h
  rfl

/-- What varies from something is something. -/
theorem ne_null (h : Varied s j d) (hj : j ≠ .null) : d ≠ .null ∧ ∀ w, d ≠ .wreck w := by
  obtain ⟨hvaries, _⟩ := h
  cases hvaries with
  | same => cases j <;> simp_all [Json.document]
  | list _ _ => exact ⟨nofun, nofun⟩
  | choice _ _ => exact ⟨nofun, nofun⟩
  | record _ _ _ _ _ => exact ⟨nofun, nofun⟩

/-- A list varies in its items, which stay in their order. -/
theorem list {items : List Json} (h : Varied (.list s) (.arr items) d) :
    ∃ docs, d = .arr docs none ∧ List.Forall₂ (Varied s) items docs := by
  obtain ⟨hvaries, hsound⟩ := h
  cases hvaries with
  | same =>
    rw [Json.document, Json.itemDocuments_eq] at hsound ⊢
    refine ⟨_, rfl, ?_⟩
    rw [List.forall₂_map_right_iff]
    exact List.forall₂_same.mpr fun item hmem =>
      ⟨.same s item, skip_item hsound _ (List.mem_map_of_mem hmem)⟩
  | @list _ _ docs hlength hitems =>
    refine ⟨docs, rfl, List.forall₂_iff_get.mpr ⟨hlength.symm, fun i hi hi' => ⟨?_, ?_⟩⟩⟩
    · exact hitems i _ _ (List.getElem?_eq_getElem hi) (List.getElem?_eq_getElem hi')
    · exact skip_item hsound _ (List.get_mem _ _)

/-- A choice varies below the name of the alternative. -/
theorem choice {alternatives : List (String × Schema)} {name : String}
    (h : Varied (.choice alternatives) (.obj [(name, j)]) d)
    (hname : alternatives.lookup name = some s) :
    ∃ d', d = object [(name, d')] ∧ Varied s j d' := by
  obtain ⟨hvaries, hsound⟩ := h
  cases hvaries with
  | same =>
    have hobject : (object [(name, j.document)]).skip = none := hsound
    exact ⟨j.document, rfl, .same s j, skip_member hobject _ List.mem_cons_self⟩
  | @choice _ _ _ _ d' hname' hd =>
    obtain rfl := Option.some.inj (hname.symm.trans hname')
    exact ⟨d', rfl, hd, skip_member hsound (name, d') List.mem_cons_self⟩

/-- The members of a record that varies: none stands for a field twice, and what is found for the
fields is known. -/
theorem record {fields : List (String × Schema)} {members : List (String × Json)}
    (h : Varied (.record fields) (.obj members) d) (hnodup : (members.map Prod.fst).Nodup) :
    ∃ all, d = object all ∧ (∀ member ∈ all, member.2.skip = none) ∧
      ((all.map Prod.fst).filter (· ∈ fields.map Prod.fst)).Nodup ∧
      Known fields members (all.lookup ·) := by
  obtain ⟨hvaries, hsound⟩ := h
  cases hvaries with
  | same =>
    have hall : (Json.obj members).document =
        object (members.map fun member => (member.1, member.2.document)) := by
      rw [Json.document, Json.memberDocuments_eq, object, List.map_map]
      rfl
    have hlookup : ∀ name, _ = (members.lookup name).map Json.document := lookup_map _ members
    rw [hall] at hsound
    have hskip := skip_member hsound
    refine ⟨_, hall, hskip, ?_, fun _ hmember hknown => ?_, fun _ hmember hknown => ?_,
      fun _ hmember => ?_⟩
    · rw [List.map_map]
      exact hnodup.filter _
    · have hsame := hknown
      rw [hlookup, hmember] at hsame
      exact ⟨Option.some.inj hsame ▸ .same _ _, hskip _ (mem_of_lookup hknown)⟩
    · rw [hlookup, hmember] at hknown
      cases hknown
    · rw [hlookup, hmember]
      rfl
  | @record _ _ extra all became hkept hdeleted hextra hall =>
    have hlookup : ∀ {name s}, fields.lookup name = some s → all.lookup name = _ := fun hfield =>
      lookup_of_perm hnodup hextra hall (List.mem_map_of_mem (mem_of_lookup hfield))
    have hskip := skip_member hsound
    refine ⟨all, rfl, hskip, nodup_of_perm hnodup hextra hall,
      fun hfield hmember hknown => ⟨?_, ?_⟩,
      fun hfield hmember hknown => ?_, fun hfield hmember => ?_⟩
    · rw [hlookup hfield, hmember] at hknown
      exact hkept _ (mem_of_lookup hmember) _ _ hfield hknown
    · exact hskip _ (mem_of_lookup hknown)
    · rw [hlookup hfield, hmember] at hknown
      exact hdeleted _ (mem_of_lookup hmember) hknown
    · rw [hlookup hfield, hmember]
      rfl

end Varied

end MiddleEnd.Dump

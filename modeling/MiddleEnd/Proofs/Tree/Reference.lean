import Mathlib.Data.List.Nodup
import MiddleEnd.Proofs.Tree.Unfold

/-!
# MiddleEnd.Proofs.Tree.Reference

Where trees name symbols, in the order of a walk: the nodes that declare one, and the references,
which name a symbol that stands elsewhere, or nowhere (`Site`).  What a reference says of itself
(`Reference`) is all that anybody reports about it.

`Enriched` compares the sites of trees before and after a rewrite that may add some: the old ones
are all there, in the same order, and between them stand only new ones.
-/

namespace MiddleEnd

/-- A node that names a symbol, where it stands. -/
structure Site where
  module : Option ModuleId
  node : NodeId
  label : Label
deriving DecidableEq, Repr

/-- A reference to a symbol, where it stands. -/
structure Reference where
  module : Option ModuleId
  expr : NodeId
  line : UInt32
  target : SymbolId
deriving DecidableEq, Repr

namespace Label

/-- Whether the node names a symbol. -/
def isSite : Label → Bool
  | .symbol _ _ _ _ | .expr (.symRef _) _ => true
  | _ => false

def site? (l : Label) (module : Option ModuleId) (n : NodeId) : Option Site :=
  if l.isSite then some ⟨module, n, l⟩ else none

/-- The reference that a node is, if its label says so. -/
def reference? (l : Label) (module : Option ModuleId) (n : NodeId) : Option Reference :=
  match l with
  | .expr (.symRef target) line => some ⟨module, n, line, target⟩
  | _ => none

theorem expr_of_reference? {l : Label} {module : Option ModuleId} {n : NodeId} {x : Reference}
    (h : l.reference? module n = some x) : x.expr = n := by
  unfold reference? at h
  split at h
  · rw [← Option.some.inj h]
  · cases h

/-- A reference is a site. -/
theorem site?_bind (l : Label) (module : Option ModuleId) (n : NodeId) :
    ((l.site? module n).bind fun x => x.label.reference? x.module x.node) =
      l.reference? module n := by
  unfold site? isSite reference?
  split <;> grind

end Label

namespace Tree

/-- The sites in trees that stand here. -/
def sites (a : Around) (ts : List Tree) : List Site :=
  (placedOf a ts).filterMap fun x => x.2.label.site? x.1.module x.2.id

/-- The references in trees that stand here. -/
def references (a : Around) (ts : List Tree) : List Reference :=
  (sites a ts).filterMap fun x => x.label.reference? x.module x.node

section

variable {a b : Around} {n : NodeId} {l : Label} {es ss ts us : List Tree}

@[simp] theorem sites_nil : sites a [] = [] := rfl

/-- The sites of trees in a row come one after the other. -/
theorem sites_append : sites a (ts ++ us) = sites a ts ++ sites a us := by
  rw [sites, placedOf_append, List.filterMap_append, sites, sites]

theorem sites_cons (t : Tree) : sites a (t :: ts) = sites a [t] ++ sites a ts :=
  @sites_append a [t] ts

/-- The sites of a tree are its root's and those below it. -/
theorem sites_node : sites a [node n l es ss ts] =
    (l.site? a.module n).toList ++ (sites (a.under n) es ++
      (sites (a.under n) ss ++ sites (a.under n) ts)) := by
  simp only [sites, placedOf_node, placedOf_nil, List.append_nil, List.filterMap_cons,
    List.filterMap_append, List.append_assoc, label_node, id_node]
  cases l.site? a.module n <;> rfl

/-- Of what encloses trees only the module counts. -/
theorem sites_congr (h : b.module = a.module) : sites b ts = sites a ts := by
  have htree : ∀ (t : Tree) (a b : Around), b.module = a.module → sites b [t] = sites a [t] := by
    intro t
    induction t using Tree.induction with
    | step n l es ss us he hs hu =>
      intro a b h
      have hunder : (b.under n).module = (a.under n).module := by
        cases n <;> simp [Around.under, h]
      have hall : ∀ vs : List Tree, (∀ t ∈ vs, ∀ a b : Around, b.module = a.module →
          sites b [t] = sites a [t]) → sites (b.under n) vs = sites (a.under n) vs := by
        intro vs hvs
        induction vs with
        | nil => rfl
        | cons v vs ih =>
          rw [sites_cons, hvs v List.mem_cons_self _ _ hunder,
            ih fun t ht => hvs t (List.mem_cons_of_mem v ht), ← sites_cons]
      rw [sites_node, sites_node, h, hall es he, hall ss hs, hall us hu]
  induction ts with
  | nil => rfl
  | cons t ts ih => rw [sites_cons, htree t a b h, ih, ← sites_cons]

/-- Below anything but a module the module stays the same. -/
theorem sites_under (hn : ∀ m, n ≠ .module m) : sites (a.under n) ts = sites a ts := by
  refine sites_congr ?_
  cases n with
  | module m => exact absurd rfl (hn m)
  | _ => rfl

/-- A site is a node of the trees. -/
theorem mem_of_sites {x : Site} (hx : x ∈ sites a ts) :
    ∃ u ∈ subtreesOf ts, u.id = x.node ∧ u.label = x.label := by
  obtain ⟨y, hy, hsite⟩ := List.mem_filterMap.mp hx
  refine ⟨y.2, mem_subtreesOf_of_placed hy, ?_⟩
  unfold Label.site? at hsite
  split at hsite
  · rw [← Option.some.inj hsite]
    exact ⟨rfl, rfl⟩
  · cases hsite

/-- A node of the trees that names a symbol is a site. -/
theorem exists_site (a : Around) {u : Tree} (hu : u ∈ subtreesOf ts) (hl : u.label.isSite = true) :
    ∃ m, ⟨m, u.id, u.label⟩ ∈ sites a ts := by
  rw [← placedOf_map_snd a] at hu
  obtain ⟨y, hy, rfl⟩ := List.mem_map.mp hu
  exact ⟨y.1.module, List.mem_filterMap.mpr ⟨y, hy, if_pos hl⟩⟩

/-- The references, from the nodes of the trees. -/
theorem references_eq (a : Around) (ts : List Tree) : references a ts =
    (placedOf a ts).filterMap fun x => x.2.label.reference? x.1.module x.2.id := by
  rw [references, sites, List.filterMap_filterMap]
  exact List.filterMap_congr fun x _ => Label.site?_bind x.2.label x.1.module x.2.id

/-- In trees without repetition a reference is known by its node. -/
theorem references_inj (hnodup : (nodesOf ts).Nodup) {x y : Reference} (hx : x ∈ references a ts)
    (hy : y ∈ references a ts) (h : x.expr = y.expr) : x = y := by
  rw [references_eq] at hx hy
  obtain ⟨u, hu, hux⟩ := List.mem_filterMap.mp hx
  obtain ⟨v, hv, hvy⟩ := List.mem_filterMap.mp hy
  have hnodes : ((placedOf a ts).map fun w => w.2.id).Nodup := by
    have hmap : (placedOf a ts).map (fun w => w.2.id) = nodesOf ts := by
      rw [nodesOf, ← placedOf_map_snd a ts, List.map_map]
      rfl
    rwa [hmap]
  have huv := List.inj_on_of_nodup_map hnodes hu hv
    (by rw [← Label.expr_of_reference? hux, ← Label.expr_of_reference? hvy, h])
  rw [huv] at hux
  exact Option.some.inj (hux.symm.trans hvy)

end

/-! ## References of a program -/

section

variable {p : Program} {a : Around} {ts : List Tree}

/-- A reference in the trees is an expression of the program. -/
theorem exists_symRef (h : p.Bears ts) {x : Reference} (hx : x ∈ references a ts) :
    ∃ e y, x.expr = .expr e ∧ .expr e ∈ nodesOf ts ∧ p.expr? e = some y ∧
      y.kind = .symRef x.target := by
  rw [references_eq] at hx
  obtain ⟨z, hz, href⟩ := List.mem_filterMap.mp hx
  have hcell := h z.2 (mem_subtreesOf_of_placed hz)
  have hid := Label.expr_of_reference? href
  have hlabel : z.2.label = .expr (.symRef x.target) x.line := by
    unfold Label.reference? at href
    split at href
    · next hl => rw [hl, ← Option.some.inj href]
    · cases href
  obtain ⟨e, hn⟩ : ∃ e, z.2.id = .expr e := by
    have hcategory := Program.category_of_label hcell
    rwa [show z.2.cell.label = _ from hlabel] at hcategory
  rw [hn] at hcell
  obtain ⟨y, hy, hycell⟩ := Program.cell?_expr hcell
  refine ⟨e, y, hid.trans hn, hn ▸ id_mem_of_placed hz, hy, ?_⟩
  have hhead := hlabel.symm.trans (congrArg Cell.label hycell)
  simp only [Node.cell, Label.expr.injEq] at hhead
  cases hk : y.kind <;> simp [hk, ExprKind.head] at hhead
  rw [hhead.1]

/-- Everything in modules stands in a module. -/
theorem module_of_placed (hroots : ∀ t ∈ ts, ∃ m, t.id = .module m) :
    ∀ x ∈ placedOf .outside ts, (∀ m, x.2.id ≠ .module m) → ∃ m, x.1.module = some m := by
  refine forall_placedOf (P := fun a t => (∀ m, t.id ≠ .module m) → ∃ m, a.module = some m)
    (fun a n l es ss us h t _ _ => ?_) fun t ht hne => ?_
  · cases n with
    | module m => exact ⟨m, rfl⟩
    | symbol s => exact h fun _ => by simp
    | stmt s => exact h fun _ => by simp
    | expr e => exact h fun _ => by simp
  · obtain ⟨m, hm⟩ := hroots t ht
    exact absurd hm (hne m)

/-- Every reference in modules stands in a module. -/
theorem module_of_reference (h : p.Bears ts) (hroots : ∀ t ∈ ts, ∃ m, t.id = .module m)
    {x : Reference} (hx : x ∈ references .outside ts) : ∃ m, x.module = some m := by
  obtain ⟨e, _, hexpr, _⟩ := exists_symRef h hx
  rw [references_eq] at hx
  obtain ⟨z, hz, href⟩ := List.mem_filterMap.mp hx
  have hid := Label.expr_of_reference? href
  obtain ⟨m, hm⟩ := module_of_placed hroots z hz fun k hk => by
    cases hk.symm.trans (hid.symm.trans hexpr)
  refine ⟨m, ?_⟩
  unfold Label.reference? at href
  split at href
  · rw [← Option.some.inj href, hm]
  · cases href

/-- An expression in modules that refers to a symbol is a reference in their trees. -/
theorem exists_reference (h : p.Bears ts) (hroots : ∀ t ∈ ts, ∃ m, t.id = .module m) {e : ExprId}
    {y : Expr} {sym : SymbolId} (he : .expr e ∈ nodesOf ts) (hy : p.expr? e = some y)
    (hk : y.kind = .symRef sym) :
    ∃ m line, ⟨some m, .expr e, line, sym⟩ ∈ references .outside ts := by
  obtain ⟨u, hu, hid⟩ := List.mem_map.mp he
  have hcell := h u hu
  rw [hid] at hcell
  obtain ⟨y', hy', hycell⟩ := Program.cell?_expr hcell
  obtain rfl : y = y' := Option.some.inj (hy.symm.trans hy')
  have hlabel : u.label = .expr (.symRef sym) y.line := by
    rw [show u.label = _ from congrArg Cell.label hycell]
    simp [Node.cell, hk, ExprKind.head]
  rw [← placedOf_map_snd .outside] at hu
  obtain ⟨x, hx, rfl⟩ := List.mem_map.mp hu
  obtain ⟨m, hm⟩ := module_of_placed hroots x hx (by simp [hid])
  refine ⟨m, y.line, ?_⟩
  rw [references_eq]
  exact List.mem_filterMap.mpr ⟨x, hx, by simp [hlabel, hid, hm, Label.reference?]⟩

end

end Tree

/-! ## More sites -/

section

variable {α β : Type}

/-- The entries `ys` are `xs` with others in between that have the property. -/
inductive Enriched (P : α → Prop) : List α → List α → Prop where
  | nil : Enriched P [] []
  | keep (x : α) {xs ys : List α} (h : Enriched P xs ys) : Enriched P (x :: xs) (x :: ys)
  | add {y : α} {xs ys : List α} (hy : P y) (h : Enriched P xs ys) : Enriched P xs (y :: ys)

namespace Enriched

variable {P Q : α → Prop} {xs ys xs' ys' : List α}

theorem refl : ∀ xs : List α, Enriched P xs xs
  | [] => .nil
  | x :: xs => .keep x (refl xs)

/-- Rows that are enriched are so one after the other. -/
theorem append (h : Enriched P xs ys) (h' : Enriched P xs' ys') :
    Enriched P (xs ++ xs') (ys ++ ys') := by
  induction h with
  | nil => exact h'
  | keep x _ ih => exact .keep x ih
  | add hy _ ih => exact .add hy ih

/-- What is put in between may be said to have a weaker property. -/
theorem mono (h : Enriched P xs ys) (hPQ : ∀ x, P x → Q x) : Enriched Q xs ys := by
  induction h with
  | nil => exact .nil
  | keep x _ ih => exact .keep x ih
  | add hy _ ih => exact .add (hPQ _ hy) ih

/-- What is read off the entries is enriched by what is read off the new ones. -/
theorem filterMap (h : Enriched P xs ys) {f : α → Option β} {R : β → Prop}
    (hnew : ∀ y z, P y → f y = some z → R z) : Enriched R (xs.filterMap f) (ys.filterMap f) := by
  induction h with
  | nil => exact .nil
  | keep x _ ih =>
    rw [List.filterMap_cons, List.filterMap_cons]
    cases f x with
    | none => exact ih
    | some z => exact .keep z ih
  | @add y _ _ hy _ ih =>
    rw [List.filterMap_cons]
    cases hf : f y with
    | none => exact ih
    | some z => exact .add (hnew y z hy hf) ih

/-- No old entry is missing. -/
theorem mem_of_old (h : Enriched P xs ys) {x : α} (hx : x ∈ xs) : x ∈ ys := by
  induction h with
  | nil => exact hx
  | keep y _ ih =>
    rcases List.mem_cons.mp hx with rfl | hx
    · exact List.mem_cons_self
    · exact List.mem_cons_of_mem y (ih hx)
  | add _ _ ih => exact List.mem_cons_of_mem _ (ih hx)

/-- An entry is old or has the property. -/
theorem old_or_new (h : Enriched P xs ys) {y : α} (hy : y ∈ ys) : y ∈ xs ∨ P y := by
  induction h with
  | nil => exact .inl hy
  | keep x _ ih =>
    rcases List.mem_cons.mp hy with rfl | hy
    · exact .inl List.mem_cons_self
    · exact (ih hy).imp_left (List.mem_cons_of_mem x)
  | add hz _ ih =>
    rcases List.mem_cons.mp hy with rfl | hy
    · exact .inr hz
    · exact ih hy

/-- Where nothing is said about new entries, the same is said before and after. -/
theorem flatMap_eq (h : Enriched P xs ys) {f g : α → List β} (hold : ∀ x ∈ xs, g x = f x)
    (hnew : ∀ y, P y → g y = []) : ys.flatMap g = xs.flatMap f := by
  induction h with
  | nil => rfl
  | keep x _ ih =>
    rw [List.flatMap_cons, List.flatMap_cons, hold x List.mem_cons_self,
      ih fun y hy => hold y (List.mem_cons_of_mem x hy)]
  | add hy _ ih => rw [List.flatMap_cons, hnew _ hy, List.nil_append, ih hold]

end Enriched

end

end MiddleEnd

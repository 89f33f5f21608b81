import MiddleEnd.Proofs.Normalize.Unresolved
import MiddleEnd.Proofs.Tree.Modules

/-!
# MiddleEnd.Proofs.Normalize.Removed

What becomes of the reports that a symbol is gone.  A run takes no declaration out of the program
and brings none back, so over a program whose modules are trees without removed symbols, in which
every reference names a symbol of the arena, it leaves these reports as they were: the same, in the
same order (`run_keeps_removed`).

The modules that the run did not go through count as well, because a reference may name what they
declare.
-/

namespace MiddleEnd

open MiddleEnd.Tree Walk

/-! ## All modules -/

namespace Program

variable {p : Program} {modules others : List ModuleId} {ts : List Tree} {n : NodeId}

theorem Reaches.mono (h : p.Reaches modules n) (hsub : ∀ m ∈ modules, m ∈ others) :
    p.Reaches others n := by
  induction h with
  | root hm => exact .root (hsub _ hm)
  | held _ hheld ih => exact .held ih hheld

/-- The trees of all modules are those of some of them, and those of the others. -/
theorem Unfolds.split (h : p.Unfolds p.moduleIds ts) (hnodup : modules.Nodup)
    (hmem : ∀ m ∈ modules, p.has (.module m) = true) : ∃ others us vs,
      (∀ m, m ∈ modules ++ others ↔ m ∈ p.moduleIds) ∧ p.Unfolds modules us ∧
      p.Unfolds (modules ++ others) (us ++ vs) := by
  have hids : p.moduleIds.Nodup := (h.roots ▸ nodup_roots h.nodup).of_map _
  have hperm : p.moduleIds.Perm (modules ++ p.moduleIds.filter (· ∉ modules)) := by
    refine (List.perm_ext_iff_of_nodup hids (List.nodup_append.mpr
      ⟨hnodup, hids.filter _, fun m hm k hk he => ?_⟩)).mpr fun m => ?_
    · simp [← he, hm] at hk
    · have hm := hmem m
      simp only [List.mem_append, List.mem_filter, decide_eq_true_eq]
      by_cases hmodule : m ∈ modules
      · simp [hmodule, mem_moduleIds (hm hmodule)]
      · simp [hmodule]
  obtain ⟨ws, hws⟩ := h.perm hperm
  obtain ⟨us, vs, rfl, hus, _⟩ := hws.append
  exact ⟨_, us, vs, fun m => hperm.mem_iff.symm, hus, hws⟩

/-- What is reached from all modules, read off their trees in any order. -/
theorem reaches_moduleIds (hts : p.Unfolds modules ts)
    (hsame : ∀ m, m ∈ modules ↔ m ∈ p.moduleIds) :
    p.Reaches p.moduleIds n ↔ n ∈ nodesOf ts := by
  rw [← reaches_iff hts]
  exact ⟨(·.mono fun m => (hsame m).mpr), (·.mono fun m => (hsame m).mp)⟩

end Program

/-! ## What is removed -/

/-- Whether a symbol is gone that a reference names. -/
def Violation.Kind.isRemoved : Violation.Kind → Bool
  | .removedSymbol _ => true
  | .unknownSymbol _ | .enclosingStmt _ _ | .parentSymbol _ _ | .scope _ _ _ => false

/-- Whether the node is a removed symbol. -/
def Label.isRemoved : Label → Bool
  | .symbol _ _ removed _ => removed
  | _ => false

theorem Label.exists_of_isRemoved {l : Label} (h : l.isRemoved = true) :
    ∃ name line head, l = .symbol name line true head := by
  unfold isRemoved at h
  split at h
  · exact ⟨_, _, _, by rw [h]⟩
  · cases h

namespace Program

variable {p : Program} {modules : List ModuleId} {ts : List Tree} {n : NodeId}

/-- A node of trees is live unless its label says that it was removed. -/
theorem isLive_of_bears (h : p.Bears ts) {u : Tree} (hu : u ∈ subtreesOf ts)
    (hlabel : u.label.isRemoved = false) : p.isLive u.id = true := by
  have hcell := h u hu
  cases hid : u.id with
  | symbol s =>
    rw [hid] at hcell
    obtain ⟨x, hx, hxcell⟩ := cell?_symbol hcell
    rw [show u.label = _ from congrArg Cell.label hxcell] at hlabel
    simp [isLive, hx, show x.removed = false from hlabel]
  | module m => exact has_of_cell? (hid ▸ hcell)
  | stmt s => exact has_of_cell? (hid ▸ hcell)
  | expr e => exact has_of_cell? (hid ▸ hcell)

/-- Where the trees of all modules have no removed symbol, what is alive are their nodes. -/
theorem alive_iff (hts : p.Unfolds modules ts) (hsame : ∀ m, m ∈ modules ↔ m ∈ p.moduleIds)
    (hlive : ∀ u ∈ subtreesOf ts, u.label.isRemoved = false) : p.Alive n ↔ n ∈ nodesOf ts := by
  rw [alive_iff_reaches fun m hm => ?_, reaches_moduleIds hts hsame]
  obtain ⟨u, hu, rfl⟩ := List.mem_map.mp ((reaches_moduleIds hts hsame).mp hm)
  exact isLive_of_bears hts.bears hu (hlive u hu)

end Program

namespace Normalize

/-! ## What a run leaves -/

section

variable {p q : Program} {modules others : List ModuleId} {ts us rest : List Tree} {temps : Nat}

/-- The modules that the run did not go through are the trees they were. -/
theorem Leaves.unfolds (h : Leaves p q ts us temps) (hts : p.Unfolds modules ts)
    (hus : q.Unfolds modules us) (hall : p.Unfolds (modules ++ others) (ts ++ rest)) :
    q.Unfolds (modules ++ others) (us ++ rest) := by
  obtain ⟨_, hrest⟩ := Program.bears_append.mp hall.bears
  obtain ⟨_, hnodup, hapart⟩ := Tree.nodup_append.mp hall.nodup
  have hroots := hall.roots
  rw [List.map_append, List.map_append, hts.roots] at hroots
  refine ⟨?_, Program.bears_append.mpr ⟨hus.bears, hrest.congr fun n hn => ?_⟩,
    Tree.nodup_append.mpr ⟨hus.nodup, hnodup, fun n hn hm => ?_⟩⟩
  · rw [List.map_append, List.map_append, hus.roots, List.append_cancel_left hroots]
  · rw [Program.cell?, Program.cell?, h.elsewhere n (hrest.has hn) fun hm => hapart n hm hn]
  · rcases h.nodes n hn with hold | hnew
    · exact hapart n hold hm
    · rw [hrest.has hm] at hnew
      cases hnew

/-- No symbol that the run leaves was removed, if none was before. -/
theorem Leaves.isRemoved (h : Leaves p q ts us temps)
    (hlive : ∀ t ∈ subtreesOf ts, t.label.isRemoved = false) :
    ∀ u ∈ subtreesOf us, u.label.isRemoved = false := by
  intro u hu
  by_contra hremoved
  obtain ⟨name, line, head, hl⟩ := Label.exists_of_isRemoved (by simpa using hremoved)
  obtain ⟨m, hsite⟩ := exists_site .outside hu (by rw [hl]; rfl)
  rcases (h.enriched .outside).old_or_new hsite with hold | hnew
  · obtain ⟨t, ht, _, hlabel⟩ := mem_of_sites hold
    rw [← show t.label = u.label from hlabel, hlive t ht] at hremoved
    exact hremoved rfl
  · generalize hx : (⟨m, u.id, u.label⟩ : Site) = x at hnew
    have hlabel : u.label = x.label := congrArg Site.label hx
    cases hnew <;> simp [hlabel, Label.isRemoved] at hremoved

/-- No symbol goes away. -/
theorem Leaves.mem_of_symbol (h : Leaves p q ts us temps) (hts : p.Bears ts) {s : SymbolId}
    (hs : .symbol s ∈ nodesOf ts) : .symbol s ∈ nodesOf us := by
  obtain ⟨t, ht, hid⟩ := List.mem_map.mp hs
  have hcell := hts t ht
  rw [hid] at hcell
  obtain ⟨x, _, hx⟩ := Program.cell?_symbol hcell
  have hl : t.label.isSite = true := by
    rw [show t.label = _ from congrArg Cell.label hx]
    rfl
  obtain ⟨m, hsite⟩ := exists_site .outside ht hl
  obtain ⟨u, hu, huid, _⟩ := mem_of_sites ((h.enriched .outside).mem_of_old hsite)
  exact List.mem_map.mpr ⟨u, hu, huid.trans hid⟩

/-- What is alive after a run, where the trees had no removed symbol. -/
theorem Leaves.alive_iff (h : Leaves p q ts us temps) (hq : q.Unfolds modules (us ++ rest))
    (hsame : ∀ m, m ∈ modules ↔ m ∈ p.moduleIds)
    (hlive : ∀ u ∈ subtreesOf (ts ++ rest), u.label.isRemoved = false) {n : NodeId} :
    q.Alive n ↔ n ∈ nodesOf (us ++ rest) := by
  have hids : q.moduleIds = p.moduleIds := by rw [Program.moduleIds, h.modules, Program.moduleIds]
  refine Program.alive_iff hq (hids ▸ hsame) fun u hu => ?_
  simp only [subtreesOf_append, List.mem_append, or_imp, forall_and] at hlive hu
  exact hu.elim (h.isRemoved hlive.1 u) (hlive.2 u)

/-- Of a symbol that was there before, the same is due. -/
theorem Leaves.refDue_old (h : Leaves p q ts us temps)
    (hp : p.Unfolds modules (ts ++ rest)) (hq : q.Unfolds modules (us ++ rest))
    (hsame : ∀ m, m ∈ modules ↔ m ∈ p.moduleIds)
    (hlive : ∀ u ∈ subtreesOf (ts ++ rest), u.label.isRemoved = false) {sym : SymbolId}
    (hsym : p.has (.symbol sym) = true) : Verify.refDue q sym = Verify.refDue p sym := by
  have halive : p.Alive (.symbol sym) ↔ .symbol sym ∈ nodesOf (ts ++ rest) :=
    Program.alive_iff hp hsame hlive
  have halive' : q.Alive (.symbol sym) ↔ .symbol sym ∈ nodesOf (us ++ rest) :=
    h.alive_iff hq hsame hlive
  rw [nodesOf_append, List.mem_append] at halive halive'
  by_cases hold : p.Alive (.symbol sym)
  · have hnew := halive'.mpr ((halive.mp hold).imp_left
      (h.mem_of_symbol (Program.bears_append.mp hp.bears).1))
    rw [Verify.refDue_of_alive hold, Verify.refDue_of_alive hnew]
  · have hdead : ¬ q.Alive (.symbol sym) := fun hnew => by
      refine hold (halive.mpr
        ((halive'.mp hnew).imp_left fun hu => (h.nodes _ hu).resolve_right ?_))
      simp [hsym]
    have hnode := h.elsewhere (.symbol sym) hsym fun hmem => hold (halive.mpr (.inl hmem))
    obtain ⟨x, hx⟩ := Option.isSome_iff_exists.mp hsym
    have hx' : q.symbol? sym = some x := by simpa [Program.node?, hx] using hnode
    rw [Verify.refDue_of_not_alive hx hold, Verify.refDue_of_not_alive hx' hdead]

/-- A temporary is alive where no symbol was removed. -/
theorem Leaves.refDue_new (h : Leaves p q ts us temps) (hq : q.Unfolds modules (us ++ rest))
    (hsame : ∀ m, m ∈ modules ↔ m ∈ p.moduleIds)
    (hlive : ∀ u ∈ subtreesOf (ts ++ rest), u.label.isRemoved = false) {k : Nat}
    (htemp : HasTemp p.symbols.size us k) :
    Verify.refDue q (.ofIndex (p.symbols.size + k)) = [] := by
  obtain ⟨u, hu, _, hid, _⟩ := htemp
  refine Verify.refDue_of_alive ((h.alive_iff hq hsame hlive).mpr ?_)
  rw [nodesOf_append, List.mem_append, ← hid]
  exact .inl (List.mem_map_of_mem hu)

/-- Where the trees of all modules have no removed symbol and their references name symbols of the
arena, the same has to be reported about the references after a run. -/
theorem Leaves.flatMap_brokenAt (h : Leaves p q ts us temps)
    (hp : p.Unfolds modules (ts ++ rest)) (hq : q.Unfolds modules (us ++ rest))
    (hsame : ∀ m, m ∈ modules ↔ m ∈ p.moduleIds)
    (hlive : ∀ u ∈ subtreesOf (ts ++ rest), u.label.isRemoved = false) {a : Around}
    (hinside : ∀ x ∈ references a ts, p.has (.symbol x.target) = true) :
    (references a us).flatMap (Verify.brokenAt q) =
      (references a ts).flatMap (Verify.brokenAt p) := by
  have hreported : Verify.reported q = Verify.reported p := by
    funext module kinds line n
    simp only [Verify.reported, Program.module?, h.modules]
  refine (h.enriched_references a).flatMap_eq (fun x hx => ?_) fun y => ?_
  · rw [Verify.brokenAt, h.refDue_old hp hq hsame hlive (hinside x hx), hreported, Verify.brokenAt]
  · rintro ⟨k, htarget, htemp⟩
    rw [Verify.brokenAt, htarget, h.refDue_new hq hsame hlive htemp, Verify.reported_nil]

end

/-! ## Symbols of a program -/

section

variable {p : Program} {ts : List Tree}

/-- Trees in which no symbol of the program is removed say so. -/
theorem not_removed_of_reaches (h : p.Bears ts)
    (hlive : ∀ s x, .symbol s ∈ nodesOf ts → p.symbol? s = some x → x.removed = false) :
    ∀ u ∈ subtreesOf ts, u.label.isRemoved = false := by
  intro u hu
  have hcell := h u hu
  by_contra hremoved
  obtain ⟨name, line, head, hl⟩ := Label.exists_of_isRemoved (by simpa using hremoved)
  obtain ⟨s, hid⟩ : ∃ s, u.id = .symbol s := by
    have hcategory := Program.category_of_label hcell
    rwa [show u.cell.label = _ from hl] at hcategory
  rw [hid] at hcell
  obtain ⟨x, hx, hxcell⟩ := Program.cell?_symbol hcell
  rw [show u.label = _ from congrArg Cell.label hxcell] at hremoved
  exact hremoved (hlive s x (hid ▸ List.mem_map_of_mem hu) hx)

end

/-! ## Runs -/

/-- Over a program in which no symbol that is reached was removed and no reference that is reached
names an id outside of the arena, the references to symbols that are not declared are reported after
a run as they were before it; nothing that the run made is reported, and every reference to a
detached symbol still is. -/
theorem run_keeps_removed {r : Rules} {modules : List ModuleId} {p : Program} {checks : Checks}
    (hok : survey p.moduleIds p = .ok ()) (hnodup : modules.Nodup)
    (hmodules : ∀ m ∈ modules, p.has (.module m) = true)
    (hinside : ∀ e x sym, p.Reaches p.moduleIds (.expr e) → p.expr? e = some x →
      x.kind = .symRef sym → p.has (.symbol sym) = true)
    (hlive : ∀ s x, p.Reaches p.moduleIds (.symbol s) → p.symbol? s = some x → x.removed = false)
    (haddr : (Normalize.run r modules p).2.Addressable) (hrefs : checks.symbolRefs = true) :
    ∃ before after, Verify.run checks modules p = .ok before ∧
      Verify.run checks modules (Normalize.run r modules p).2 = .ok after ∧
      after.violations.filter (·.kind.isRemoved) = before.violations.filter (·.kind.isRemoved) ∧
      (∀ v ∈ after.violations, p.has v.node = true) ∧
      ∀ e x sym, p.Reaches modules (.expr e) → p.expr? e = some x → x.kind = .symRef sym →
        ¬ p.Reaches p.moduleIds (.symbol sym) →
        ∃ v ∈ after.violations, v.node = .expr e ∧
          ∃ y, p.symbol? sym = some y ∧ v.kind = .removedSymbol y.name := by
  obtain ⟨ws, hws⟩ := trees_of_survey hok
  obtain ⟨others, ts, rest, hsame, hts, hall⟩ := hws.split hnodup hmodules
  obtain ⟨_, _, hleaves⟩ := leaves_of_run hts haddr
  obtain ⟨_, hus, hrecords⟩ := rebuilt_of_run hts haddr
  obtain ⟨before, hbefore, hfound⟩ := Verify.run_of_unfolds checks hts
  obtain ⟨after, hafter, hfound'⟩ := Verify.run_of_unfolds checks hus
  have hreach : ∀ n, p.Reaches p.moduleIds n ↔ n ∈ nodesOf (ts ++ rest) := fun n =>
    Program.reaches_moduleIds hall hsame
  have hlabels := not_removed_of_reaches hall.bears fun s x hs => hlive s x ((hreach _).mpr hs)
  have hnodes : ∀ x ∈ references .outside ts, p.has x.expr = true ∧
      p.has (.symbol x.target) = true := fun x hx => by
    obtain ⟨e, y, hexpr, he, hy, hk⟩ := exists_symRef hts.bears hx
    refine ⟨hexpr ▸ hts.bears.has he, hinside e y _ ((hreach _).mpr ?_) hy hk⟩
    exact nodesOf_append ts rest ▸ List.mem_append_left _ he
  -- all that is reported after the run, and what it was before
  have hreports : after.violations = (references .outside ts).flatMap (Verify.brokenAt p) := by
    rw [hfound', Verify.found_of_records hrefs hus.bears hrecords]
    exact hleaves.flatMap_brokenAt hall (hleaves.unfolds hts hus hall) hsame hlabels
      fun x hx => (hnodes x hx).2
  have hbroken : before.violations.filter (·.kind.isReference) = after.violations := by
    rw [hfound, Verify.filter_found hrefs hts.bears, hreports]
  refine ⟨before, after, hbefore, hafter, ?_, fun v hv => ?_, fun e x sym he hx hk hsym => ?_⟩
  · rw [← hbroken, List.filter_filter]
    congr 1
    funext v
    cases v.kind <;> rfl
  · rw [hreports] at hv
    obtain ⟨x, hx, hv⟩ := List.mem_flatMap.mp hv
    obtain ⟨m, _, kind, _, rfl⟩ := Verify.mem_brokenAt.mp hv
    exact (hnodes x hx).1
  · obtain ⟨m, line, href⟩ := exists_reference hts.bears
      (fun t ht => by
        obtain ⟨m, _, hm⟩ := List.mem_map.mp (hts.roots ▸ List.mem_map_of_mem ht)
        exact ⟨m, hm.symm⟩) ((Program.reaches_iff hts).mp he) hx hk
    obtain ⟨y, hy⟩ := Option.isSome_iff_exists.mp (hnodes _ href).2
    have hdead : ¬ p.Alive (.symbol sym) := fun halive =>
      hsym ((hreach _).mpr ((Program.alive_iff hall hsame hlabels).mp halive))
    have hdue := Verify.refDue_of_not_alive hy hdead
    refine ⟨_, hreports ▸ List.mem_flatMap.mpr ⟨_, href, Verify.mem_brokenAt.mpr
      ⟨m, rfl, .removedSymbol y.name, ?_, rfl⟩⟩, rfl, y, hy, rfl⟩
    rw [hdue]
    exact List.mem_singleton_self _

/-- A function with a condition to hoist, and with a reference to a symbol that nothing declares. -/
def detached : Program where
  modules := #[⟨"m", "m.w", none, [⟨0⟩]⟩]
  symbols := #[.new "f" (.func [] none [⟨0⟩, ⟨2⟩]) 1, .new "v" (.var none) 2]
  stmts := #[.new (.ifElse ⟨1⟩ ⟨1⟩ none) 3, .new (.block []) 3, .new (.expr ⟨2⟩) 4]
  exprs := #[.new (.symRef ⟨0⟩) 3, .new (.call ⟨0⟩ []) 3, .new (.symRef ⟨1⟩) 4]

theorem run_keeps_removed_detached :
    survey detached.moduleIds detached = .ok () ∧ [ModuleId.mk 0].Nodup ∧
    ∃ before after, Verify.run .all [⟨0⟩] detached = .ok before ∧
      Verify.run .all [⟨0⟩] (Normalize.run .all [⟨0⟩] detached).2 = .ok after ∧
      after.violations.filter (·.kind.isRemoved) = before.violations.filter (·.kind.isRemoved) ∧
      (∀ v ∈ after.violations, detached.has v.node = true) ∧
      ∀ e x sym, detached.Reaches [⟨0⟩] (.expr e) → detached.expr? e = some x →
        x.kind = .symRef sym → ¬ detached.Reaches detached.moduleIds (.symbol sym) →
        ∃ v ∈ after.violations, v.node = .expr e ∧
          ∃ y, detached.symbol? sym = some y ∧ v.kind = .removedSymbol y.name := by
  refine ⟨by decide +kernel, by decide, run_keeps_removed (by decide +kernel) (by decide)
    (by decide) (fun e x sym _ hx hk => ?_) (fun s x _ hx => ?_) (by decide +kernel) rfl⟩
  · have hmem : x ∈ detached.exprs := Array.mem_of_getElem? hx
    simp only [detached, List.mem_toArray, List.mem_cons, List.not_mem_nil, or_false] at hmem
    obtain rfl | rfl | rfl := hmem <;> cases hk <;> decide
  · have hmem : x ∈ detached.symbols := Array.mem_of_getElem? hx
    simp only [detached, List.mem_toArray, List.mem_cons, List.not_mem_nil, or_false] at hmem
    obtain rfl | rfl := hmem <;> rfl

end Normalize

end MiddleEnd

import MiddleEnd.Proofs.Normalize.Moved
import MiddleEnd.Proofs.Tree.Position

/-!
# MiddleEnd.Proofs.Normalize.Balance

Keeping count of the nodes that a run enters.  `Balanced` is the law: what was entered is what the
walk was sent to, what the nodes that were entered owned when it set out, and what was made on the
way, each just once.  The law holds of parts of a run that follow each other
(`Balanced.trans`), and of the visit of a node if it holds of what is due in the node once the hook
called first is through (`Starts.balanced`).

Nothing is assumed of the program: that no node is counted twice is not a hypothesis but what the
law says of a run that ended well.
-/

namespace MiddleEnd

namespace Program

variable {p q : Program} {n : NodeId}

/-- A node that is not written to owns what it owned. -/
theorem Extends.childrenOf {H : NodeId → Prop} (h : Extends H p q) (hn : p.has n = true)
    (hH : ¬ H n) : q.childrenOf n = p.childrenOf n := by
  rw [Program.childrenOf, Program.childrenOf, h.cell hn hH]

/-- The nodes that `q` has more than `p`, one by one. -/
def made (p q : Program) (n : NodeId) : Nat := (!p.has n && q.has n).toNat

theorem made_self (p : Program) (n : NodeId) : p.made p n = 0 := by
  rw [made]
  cases p.has n <;> rfl

/-- What is made in two stretches is made in both together. -/
theorem made_add {r : Program} (hpq : p.has n = true → q.has n = true)
    (hqr : q.has n = true → r.has n = true) : p.made q n + q.made r n = p.made r n := by
  revert hpq hqr
  simp only [made]
  cases p.has n <;> cases q.has n <;> cases r.has n <;> simp

/-- What was made is what is there now and was not there before. -/
theorem made_pos : 0 < p.made q n ↔ p.has n = false ∧ q.has n = true := by
  rw [made]
  cases p.has n <;> cases q.has n <;> simp

/-- The nodes that were made are those of a list that holds each of them once. -/
theorem made_of_mem {news : List NodeId} (hnodup : news.Nodup)
    (hnews : ∀ m, m ∈ news ↔ p.has m = false ∧ q.has m = true) (n : NodeId) :
    p.made q n = news.count n := by
  rw [hnodup.count, made]
  have := hnews n
  revert this
  cases p.has n <;> cases q.has n <;> simp +contextual

end Program

namespace Normalize

open Walk

variable {st st₁ st₂ st' : WalkState Normalizer} {H K : NodeId → Prop}

/-- From `st` to `st'` the nodes `es` were entered: those of `ns`, which the walk was sent to, what
each of `es` owned, and what was made, each of them once. -/
structure Balanced (H : NodeId → Prop) (st st' : WalkState Normalizer) (ns es : List NodeId) :
    Prop where
  moved : Moved (· ∈ es) H st st'
  nodup : es.Nodup
  count : ∀ n, es.count n = ns.count n + (es.flatMap st.scene.program.childrenOf).count n +
    st.scene.program.made st'.scene.program n

namespace Balanced

variable {ns ms es fs : List NodeId}

theorem refl (H : NodeId → Prop) (st : WalkState Normalizer) : Balanced H st st [] [] where
  moved := ⟨rfl, .refl _ _, by simp, by simp, by simp⟩
  nodup := List.nodup_nil
  count n := by simp [Program.made_self]

/-- A balance holds for more nodes at work. -/
theorem mono (h : Balanced H st st' ns es) (hHK : ∀ n, H n → K n) : Balanced K st st' ns es where
  moved := ⟨h.moved.rules, h.moved.frame.mono fun n hn => hn.imp_right (hHK n), h.moved.unseen,
    h.moved.seen, h.moved.exist⟩
  nodup := h.nodup
  count := h.count

/-- What else is done to the state than walking on does not count. -/
theorem congr {st₁' : WalkState Normalizer} (h : Balanced H st₁ st' ns es)
    (hseen : st.trail.seen = st₁.trail.seen) (hprogram : st.scene.program = st₁.scene.program)
    (hrules : st.scene.own.rules = st₁.scene.own.rules)
    (hseen' : st₁'.trail.seen = st'.trail.seen)
    (hprogram' : st₁'.scene.program = st'.scene.program)
    (hrules' : st₁'.scene.own.rules = st'.scene.own.rules) : Balanced H st st₁' ns es where
  moved := by
    refine ⟨by rw [hrules', h.moved.rules, hrules], ?_, ?_, ?_, ?_⟩
    · rw [hprogram, hprogram']
      exact h.moved.frame
    · rw [hseen]
      exact h.moved.unseen
    · rw [hseen, hseen']
      exact h.moved.seen
    · rw [hprogram']
      exact h.moved.exist
  nodup := h.nodup
  count := by
    rw [hprogram, hprogram']
    exact h.count

/-- What was made was entered. -/
theorem mem_of_made (h : Balanced H st st' ns es) {n : NodeId}
    (hold : st.scene.program.has n = false) (hnew : st'.scene.program.has n = true) : n ∈ es := by
  have hmade := Program.made_pos.mpr ⟨hold, hnew⟩
  exact List.count_pos_iff.mp (by rw [h.count]; omega)

/-- What the walk was sent to was entered. -/
theorem mem_of_due (h : Balanced H st st' ns es) {n : NodeId} (hn : n ∈ ns) : n ∈ es := by
  have hpos := List.count_pos_iff.mpr hn
  exact List.count_pos_iff.mp (by rw [h.count]; omega)

/-- What an entered node owned was entered. -/
theorem mem_of_child (h : Balanced H st st' ns es) {n m : NodeId} (hn : n ∈ es)
    (hm : m ∈ st.scene.program.childrenOf n) : m ∈ es := by
  have hpos := List.count_pos_iff.mpr (List.mem_flatMap.mpr ⟨n, hn, hm⟩)
  exact List.count_pos_iff.mp (by rw [h.count]; omega)

/-- What was entered owned what it owned before the part of the run before. -/
theorem childrenOf_eq (h : Balanced H st st₁ ns es)
    (hH : ∀ n, H n → st.trail.seen.contains n = true)
    {n : NodeId} (hn : st₁.trail.seen.contains n = false) :
    st₁.scene.program.childrenOf n = st.scene.program.childrenOf n := by
  have hunseen : n ∉ es ∧ ¬ H n := by
    refine ⟨fun hmem => ?_, fun hHn => ?_⟩
    · rw [(h.moved.seen n).mpr (.inr hmem)] at hn
      cases hn
    · rw [h.moved.seen_of_seen (hH n hHn)] at hn
      cases hn
  cases hold : st.scene.program.has n with
  | true => exact h.moved.frame.childrenOf hold fun hEH => hEH.elim hunseen.1 hunseen.2
  | false =>
    rw [Program.childrenOf_of_missing hold, Program.childrenOf_of_missing]
    by_contra hnew
    exact hunseen.1 (h.mem_of_made hold (by simpa using hnew))

/-- A part of a run is followed by another one. -/
theorem trans (h : Balanced H st st₁ ns es) (h' : Balanced H st₁ st₂ ms fs)
    (hH : ∀ n, H n → st.trail.seen.contains n = true) :
    Balanced H st st₂ (ns ++ ms) (es ++ fs) where
  moved := (h.moved.trans h'.moved (fun _ => .inr) fun _ => .inr).congr fun n => by simp
  nodup := by
    refine List.nodup_append.mpr ⟨h.nodup, h'.nodup, fun n hn m hm he => ?_⟩
    have hs := (h.moved.seen n).mpr (.inr hn)
    rw [he, h'.moved.unseen m hm] at hs
    cases hs
  count n := by
    have hsame : fs.flatMap st₁.scene.program.childrenOf =
        fs.flatMap st.scene.program.childrenOf :=
      List.flatMap_congr fun m hm => h.childrenOf_eq hH (h'.moved.unseen m hm)
    have hcount := h.count n
    have hcount' := h'.count n
    rw [hsame] at hcount'
    have hmade := Program.made_add (h.moved.frame.has n) (h'.moved.frame.has n)
    simp only [List.count_append, List.flatMap_append]
    omega

end Balanced

/-! ## Entering a node -/

/-- From `st` to `st₁` the node `n` was entered and its first hook was called, which made the nodes
`news`.  What is due in `st₁` makes up, with what the new nodes own, for what `n` owned and for the
new nodes. -/
structure Starts (H : NodeId → Prop) (st st₁ : WalkState Normalizer) (n : NodeId)
    (ns news : List NodeId) : Prop where
  moved : Moved (· = n) H st st₁
  nodup : news.Nodup
  new : ∀ m, m ∈ news ↔ st.scene.program.has m = false ∧ st₁.scene.program.has m = true
  due : ∀ m ∈ news, m ∈ ns ∨ ∃ k ∈ ns, m ∈ st₁.scene.program.childrenOf k
  perm : (ns ++ news.flatMap st₁.scene.program.childrenOf).Perm
    (st.scene.program.childrenOf n ++ news)

/-- Nothing was made. -/
theorem Starts.plain {n : NodeId} (hmoved : Moved (· = n) H st st₁)
    (hsame : ∀ m, st₁.scene.program.has m = st.scene.program.has m) :
    Starts H st st₁ n (st.scene.program.childrenOf n) [] where
  moved := hmoved
  nodup := List.nodup_nil
  new m := by
    rw [hsame]
    cases st.scene.program.has m <;> simp
  due := by simp
  perm := .refl _

/-- What is counted for some nodes and for the others of a list. -/
theorem count_flatMap_split {f g : NodeId → List NodeId} {es news : List NodeId} (hes : es.Nodup)
    (hnews : news.Nodup) (hsub : ∀ m ∈ news, m ∈ es) (hnone : ∀ m ∈ news, g m = [])
    (hsame : ∀ m ∈ es, m ∉ news → f m = g m) (n : NodeId) :
    (es.flatMap f).count n = (es.flatMap g).count n + (news.flatMap f).count n := by
  have hperm : es.Perm (news ++ es.filter fun m => m ∉ news) := by
    refine (List.perm_ext_iff_of_nodup hes ?_).mpr fun m => ?_
    · refine List.nodup_append.mpr ⟨hnews, hes.filter _, fun m hm k hk he => ?_⟩
      exact of_decide_eq_true (List.mem_filter.mp hk).2 (he ▸ hm)
    · by_cases hm : m ∈ news <;> simp [hm, hsub]
  have hrest : (es.filter fun m => m ∉ news).flatMap f = (es.filter fun m => m ∉ news).flatMap g :=
    List.flatMap_congr fun m hm =>
      hsame m (List.mem_of_mem_filter hm) (of_decide_eq_true (List.mem_filter.mp hm).2)
  have hempty : news.flatMap g = [] := List.flatMap_eq_nil_iff.mpr hnone
  rw [(hperm.flatMap_right f).count_eq, (hperm.flatMap_right g).count_eq, List.flatMap_append,
    List.flatMap_append, hrest, hempty, List.count_append, List.nil_append, Nat.add_comm]

/-- The visit of a node is balanced if what follows its first hook is. -/
theorem Starts.balanced {n : NodeId} {ns news es : List NodeId} (h : Starts H st st₁ n ns news)
    (hin : Balanced K st₁ st' ns es) (hK : ∀ m, K m → m = n ∨ H m)
    (hH : ∀ m, H m → st.trail.seen.contains m = true) : Balanced H st st' [n] (n :: es) where
  moved := (h.moved.trans hin.moved (fun _ => .inr) fun m hm =>
    (hK m hm).imp_left fun he => .inl he).congr fun m => List.mem_cons.symm
  nodup := by
    refine List.nodup_cons.mpr ⟨fun hmem => ?_, hin.nodup⟩
    have hs := (h.moved.seen n).mpr (.inr rfl)
    rw [hin.moved.unseen n hmem] at hs
    cases hs
  count m := by
    have hentered : ∀ k ∈ news, k ∈ es := fun k hk => by
      rcases h.due k hk with hdue | ⟨j, hj, hkj⟩
      · exact hin.mem_of_due hdue
      · exact hin.mem_of_child (hin.mem_of_due hj) hkj
    have hsplit := count_flatMap_split (f := st₁.scene.program.childrenOf)
      (g := st.scene.program.childrenOf) hin.nodup h.nodup hentered
      (fun k hk => Program.childrenOf_of_missing ((h.new k).mp hk).1) (fun k hk hnew => ?_) m
    · have hcount := hin.count m
      have hperm := h.perm.count_eq m
      have hnews := Program.made_of_mem h.nodup h.new m
      have hmade := Program.made_add (h.moved.frame.has m) (hin.moved.frame.has m)
      simp only [List.count_append, List.count_cons, List.count_nil, List.flatMap_cons] at hperm ⊢
      omega
    · -- an old node other than `n` that was entered after it
      cases hold : st.scene.program.has k with
      | true =>
        refine h.moved.frame.childrenOf hold fun hk' => ?_
        have hs : st₁.trail.seen.contains k = true :=
          (h.moved.seen k).mpr (hk'.elim .inr fun hHk => .inl (hH k hHk))
        rw [hin.moved.unseen k hk] at hs
        cases hs
      | false =>
        have hmissing : st₁.scene.program.has k = false := by
          by_contra hhas
          exact hnew ((h.new k).mpr ⟨hold, by simpa using hhas⟩)
        rw [Program.childrenOf_of_missing hold, Program.childrenOf_of_missing hmissing]

end Normalize

end MiddleEnd

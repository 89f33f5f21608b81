import Mathlib.Data.List.Basic
import Mathlib.Data.List.Induction
import MiddleEnd.Proofs.Context

/-!
# MiddleEnd.Proofs.Context.Brackets

The moves of a context between the edges of a module, read as brackets.  Entering a symbol or a
statement opens a bracket and leaving it closes one.  A context has two stacks and checks each of
them on its own, but together they accept exactly the brackets that nest (`moves_nest`): whatever is
closed is the innermost that is open, in kind and in id.

`Open fs bs` says, of the brackets alone, which frames are open after them.  The proofs follow its
two sides: brackets that nest leave a context level (`Nested.level`), and what a context accepted is
taken back bracket by bracket from its end (`open_of_exec`).
-/

namespace MiddleEnd.Context

open Walk

/-! ## Brackets -/

/-- What is opened and closed inside a module. -/
inductive Frame where
  | symbol (s : SymbolId)
  | stmt (s : StmtId)
deriving DecidableEq, Repr

namespace Frame

/-- The frame, as a context records it. -/
def scope : Frame → Scope
  | symbol s => .symbol s
  | stmt s => .stmt s

/-- The frame, if it is a statement. -/
def stmt? : Frame → Option StmtId
  | symbol _ => none
  | stmt s => some s

/-- The frame, if it is a symbol. -/
def symbol? : Frame → Option SymbolId
  | symbol s => some s
  | stmt _ => none

/-- A frame is known by its scope. -/
theorem scope_injective : Function.Injective scope := by
  rintro (s | s) (t | t) h <;> cases h <;> rfl

end Frame

/-- A frame is opened or closed. -/
inductive Bracket where
  | enter (f : Frame)
  | leave (f : Frame)
deriving DecidableEq, Repr

/-- Brackets that nest: each that closes matches the innermost that is open, and none stays open. -/
inductive Nested : List Bracket → Prop where
  | nil : Nested []
  | pair (f : Frame) {inner rest : List Bracket} (hinner : Nested inner) (hrest : Nested rest) :
      Nested (.enter f :: inner ++ .leave f :: rest)

/-- The frames that are open after brackets, innermost first; what stands between the brackets that
opened them nests. -/
inductive Open : List Frame → List Bracket → Prop where
  | nested {bs : List Bracket} (h : Nested bs) : Open [] bs
  | enter (f : Frame) {fs : List Frame} {bs inner : List Bracket} (h : Open fs bs)
      (hinner : Nested inner) : Open (f :: fs) (bs ++ .enter f :: inner)

section

variable {f : Frame} {fs : List Frame} {bs cs : List Bracket}

/-- Nested words in a row are nested. -/
theorem Nested.append (h : Nested bs) (h' : Nested cs) : Nested (bs ++ cs) := by
  induction h with
  | nil => exact h'
  | pair f hinner _ _ ih => simpa using hinner.pair f ih

/-- A nested word behind an open one leaves the same frames open. -/
theorem Open.append (h : Open fs bs) (h' : Nested cs) : Open fs (bs ++ cs) := by
  cases h with
  | nested h => exact .nested (h.append h')
  | enter f h hinner => simpa using h.enter f (hinner.append h')

/-- The innermost frame can be closed. -/
theorem Open.leave (h : Open (f :: fs) bs) : Open fs (bs ++ [.leave f]) := by
  cases h with
  | enter f h hinner => simpa using h.append (hinner.pair f .nil)

/-- Where nothing is open, everything nests. -/
theorem Open.nested_of_nil (h : Open [] bs) : Nested bs := by
  cases h with
  | nested h => exact h

end

/-! ## Moves -/

/-- The move that goes with a bracket. -/
def Bracket.move : Bracket → ContextM Unit
  | enter (.symbol s) => enterSymbol s
  | enter (.stmt s) => enterStmt s
  | leave (.symbol s) => leaveSymbol s
  | leave (.stmt s) => leaveStmt s

/-- The moves that go with brackets, one after another. -/
def moves (bs : List Bracket) : ContextM Unit := bs.forM Bracket.move

/-- In a frame that is opened here. -/
def inFrame (c : Context) : Frame → Context
  | .symbol s => c.inSymbol s
  | .stmt s => c.inStmt s

/-- In frames that are opened here, innermost first. -/
def inFrames (c : Context) (fs : List Frame) : Context := fs.foldr (fun f c => c.inFrame f) c

section

variable {c d : Context} {f : Frame} {fs : List Frame} {b : Bracket} {bs cs : List Bracket}

/-- The moves of two words are made one after the other. -/
theorem moves_append (bs cs : List Bracket) : moves (bs ++ cs) = (moves bs >>= fun _ => moves cs) :=
  List.forM_append

theorem moves_cons (b : Bracket) (bs : List Bracket) :
    moves (b :: bs) = (b.move >>= fun _ => moves bs) := rfl

theorem exec_moves_singleton (b : Bracket) (c : Context) : exec (moves [b]) c = exec b.move c := by
  rw [moves_cons, exec_bind]
  rcases exec b.move c with ⟨_ | ⟨⟩, _⟩ <;> rfl

/-- Nothing is refused on the way in. -/
theorem exec_enter (f : Frame) (c : Context) :
    exec (Bracket.enter f).move c = (.ok (), c.inFrame f) := by
  cases f <;> rfl

/-- A frame is left where it was entered. -/
theorem Level.leave (h : Level (c.inFrame f) d) :
    ∃ d', exec (Bracket.leave f).move d = (.ok (), d') ∧ Level c d' := by
  cases f with
  | symbol s => exact Level.leaveSymbol h
  | stmt s => exact Level.leaveStmt h

/-- A frame that is left was entered last. -/
theorem level_of_leave (h : exec (Bracket.leave f).move c = (.ok (), d)) :
    Level (d.inFrame f) c := by
  cases f with
  | symbol s => exact level_of_leaveSymbol h
  | stmt s => exact level_of_leaveStmt h

/-- A frame is entered in the same way on the same level. -/
theorem Level.inFrame (h : Level c d) (f : Frame) : Level (c.inFrame f) (d.inFrame f) := by
  cases f with
  | symbol s =>
    obtain ⟨_, hd, hlevel⟩ := levels_enterSymbol s c d _ h rfl
    cases hd
    exact hlevel
  | stmt s =>
    obtain ⟨_, hd, hlevel⟩ := levels_enterStmt s c d _ h rfl
    cases hd
    exact hlevel

/-- The frames that are entered stand on top of those that were open. -/
theorem frames_inFrames (c : Context) (fs : List Frame) :
    (c.inFrames fs).frames = fs.map Frame.scope ++ c.frames := by
  induction fs with
  | nil => rfl
  | cons f fs ih => cases f <;> exact congrArg (_ :: ·) ih

/-- Only the statements among the frames are on the stack. -/
theorem stack_inFrames (c : Context) (fs : List Frame) :
    (c.inFrames fs).stmts.stack = fs.filterMap Frame.stmt? ++ c.stmts.stack := by
  induction fs with
  | nil => rfl
  | cons f fs ih =>
    cases f with
    | symbol s => exact ih
    | stmt s => exact congrArg (s :: ·) ih

theorem module_inFrames (c : Context) (fs : List Frame) : (c.inFrames fs).module = c.module := by
  induction fs with
  | nil => rfl
  | cons f fs ih => cases f <;> exact ih

/-- Frames that are opened are counted. -/
theorem balance_inFrames (c : Context) (fs : List Frame) :
    (c.inFrames fs).stmts.pushes + c.stmts.pops =
      (fs.filterMap Frame.stmt?).length + c.stmts.pushes + (c.inFrames fs).stmts.pops := by
  induction fs with
  | nil => simp [inFrames]
  | cons f fs ih =>
    cases f with
    | symbol s => exact ih
    | stmt s =>
      have hpushes : (c.inFrames (.stmt s :: fs)).stmts.pushes =
          (c.inFrames fs).stmts.pushes + 1 := rfl
      have hpops : (c.inFrames (.stmt s :: fs)).stmts.pops = (c.inFrames fs).stmts.pops := rfl
      have hlength : ((Frame.stmt s :: fs).filterMap Frame.stmt?).length =
          (fs.filterMap Frame.stmt?).length + 1 := rfl
      omega

/-! ## What is accepted -/

/-- Brackets that nest are accepted anywhere, and lead nowhere else. -/
theorem Nested.level (h : Nested bs) : ∀ c, ∃ d, exec (moves bs) c = (.ok (), d) ∧ Level c d := by
  induction h with
  | nil => exact fun c => ⟨c, rfl, .refl c⟩
  | pair f _ _ ihinner ihrest =>
    intro c
    obtain ⟨d₁, h₁, hlevel₁⟩ := ihinner (c.inFrame f)
    obtain ⟨d₂, h₂, hlevel₂⟩ := hlevel₁.leave
    obtain ⟨d₃, h₃, hlevel₃⟩ := ihrest d₂
    refine ⟨d₃, ?_, hlevel₂.trans hlevel₃⟩
    rw [List.cons_append, moves_cons, exec_bind_ok (exec_enter f c), moves_append,
      exec_bind_ok h₁, moves_cons, exec_bind_ok h₂, h₃]

/-- Brackets that leave frames open are accepted anywhere, and lead into these frames. -/
theorem Open.level (h : Open fs bs) :
    ∀ c, ∃ d, exec (moves bs) c = (.ok (), d) ∧ Level (c.inFrames fs) d := by
  induction h with
  | nested h => exact h.level
  | enter f _ hinner ih =>
    intro c
    obtain ⟨d₁, h₁, hlevel₁⟩ := ih c
    obtain ⟨d₂, h₂, hlevel₂⟩ := hinner.level (d₁.inFrame f)
    refine ⟨d₂, ?_, (hlevel₁.inFrame f).trans hlevel₂⟩
    rw [moves_append, exec_bind_ok h₁, moves_cons, exec_bind_ok (exec_enter f d₁), h₂]

/-- The frames that are open are those that a context shows which was clear before. -/
theorem Open.frames (h : Open fs bs) (hc : c.frames = [])
    (hexec : exec (moves bs) c = (.ok (), d)) : d.frames = fs.map Frame.scope := by
  obtain ⟨d', hexec', hlevel⟩ := h.level c
  obtain rfl : d = d' := congrArg Prod.snd (hexec.symm.trans hexec')
  rw [hlevel.frames, frames_inFrames, hc, List.append_nil]

/-- What was accepted where nothing was open leaves some frames open.  By induction on the last
bracket: one that closes was accepted because the innermost frame was the one it closes. -/
theorem open_of_exec (hc : c.frames = []) (hexec : exec (moves bs) c = (.ok (), d)) :
    ∃ fs, Open fs bs := by
  induction bs using List.reverseRecOn generalizing d with
  | nil => exact ⟨[], .nested .nil⟩
  | append_singleton bs b ih =>
    rw [moves_append] at hexec
    obtain ⟨_, d₁, h₁, hlast⟩ := ok_of_exec_bind hexec
    rw [exec_moves_singleton] at hlast
    obtain ⟨fs, hopen⟩ := ih h₁
    cases b with
    | enter f => exact ⟨f :: fs, hopen.enter f .nil⟩
    | leave f =>
      have hinner : d₁.frames = f.scope :: d.frames := by
        rw [(level_of_leave hlast).frames]
        cases f <;> rfl
      rw [hopen.frames hc h₁] at hinner
      obtain ⟨g, gs, rfl, hscope, _⟩ := List.map_eq_cons_iff.mp hinner
      obtain rfl := Frame.scope_injective hscope
      exact ⟨gs, hopen.leave⟩

/-! ## Modules -/

/-- What is open in a module, as a context shows it. -/
structure Holds (c : Context) (m : ModuleId) (fs : List Frame) : Prop where
  frames : c.frames = fs.map Frame.scope
  /-- The open statements are the frames that are statements, in their order. -/
  stack : c.stmts.stack = fs.filterMap Frame.stmt?
  balance : c.stmts.pushes = c.stmts.pops + c.stmts.depth
  enclosingStmt : c.enclosingStmt = fs.findSome? Frame.stmt?
  enclosingSymbol : c.enclosingSymbol = fs.findSome? Frame.symbol?
  /-- Where no frame is open, the module declares what is met. -/
  ownerScope : c.ownerScope = some ((fs.head?.map Frame.scope).getD (.module m))

/-- In frames that were opened in a module, whatever was opened and closed besides. -/
theorem Level.holds {m : ModuleId} (h : Level ((start.inModule m).inFrames fs) c) :
    c.Holds m fs := by
  have hframes : c.frames = fs.map Frame.scope := by
    rw [h.frames, frames_inFrames]
    exact List.append_nil _
  have hstack : c.stmts.stack = fs.filterMap Frame.stmt? := by
    rw [h.stack, stack_inFrames]
    exact List.append_nil _
  have hmodule : c.module = some m := by
    rw [h.module, module_inFrames]
    rfl
  refine ⟨hframes, hstack, ?_, ?_, ?_, ?_⟩
  · have hbalance := h.balance
    have hopened := balance_inFrames (start.inModule m) fs
    have hpushes : (start.inModule m).stmts.pushes = 0 := rfl
    have hpops : (start.inModule m).stmts.pops = 0 := rfl
    rw [OpenStmts.depth, hstack]
    omega
  · rw [Context.enclosingStmt, OpenStmts.top?, hstack, List.head?_filterMap]
  · rw [Context.enclosingSymbol, hframes, List.findSome?_map]
    congr 1
    funext f
    cases f <;> rfl
  · rw [Context.ownerScope, hframes, hmodule]
    cases fs <;> rfl

end

/-- Moves inside a module, from its beginning to its end, are accepted exactly if they nest.  And
wherever they were accepted until now, the context shows what is open after them, which is one list
of frames and no other. -/
theorem moves_nest (m : ModuleId) (bs : List Bracket) :
    ((∃ c, exec (do beginModule m; moves bs; endModule) start = (.ok (), c)) ↔ Nested bs) ∧
    ∀ c, exec (do beginModule m; moves bs) start = (.ok (), c) →
      ∃ fs, Open fs bs ∧ (∀ gs, Open gs bs → gs = fs) ∧ c.Holds m fs := by
  have hbegin : exec (beginModule m) start = (.ok (), start.inModule m) :=
    outside_start.beginModule m
  have hclear : (start.inModule m).frames = [] := rfl
  refine ⟨⟨?_, fun h => ?_⟩, fun c hexec => ?_⟩
  · rintro ⟨c, hexec⟩
    rw [exec_bind_ok hbegin] at hexec
    obtain ⟨_, d, hmoves, hend⟩ := ok_of_exec_bind hexec
    obtain ⟨fs, hopen⟩ := open_of_exec hclear hmoves
    -- a module can only be ended where no frame is open
    have hframes : d.frames = [] := by
      simp only [endModule, exec_bind, exec_get] at hend
      cases hd : d.isClear <;> rw [hd] at hend
      · cases hend
      · exact List.isEmpty_iff.mp (Bool.and_eq_true _ _ ▸ hd).2
    rw [hopen.frames hclear hmoves, List.map_eq_nil_iff] at hframes
    subst hframes
    exact hopen.nested_of_nil
  · obtain ⟨d, hmoves, hlevel⟩ := h.level (start.inModule m)
    obtain ⟨c, hend, _, _⟩ := outside_start.endModule hlevel
    exact ⟨c, by rw [exec_bind_ok hbegin, exec_bind_ok hmoves, hend]⟩
  · rw [exec_bind_ok hbegin] at hexec
    obtain ⟨fs, hopen⟩ := open_of_exec hclear hexec
    obtain ⟨d, hexec', hlevel⟩ := hopen.level (start.inModule m)
    obtain rfl : c = d := congrArg Prod.snd (hexec.symm.trans hexec')
    refine ⟨fs, hopen, fun gs hgs => ?_, hlevel.holds⟩
    have hsame := (hgs.frames hclear hexec).symm.trans (hopen.frames hclear hexec)
    exact List.map_injective_iff.mpr Frame.scope_injective hsame

/-- A statement is entered twice in a function; the first time, a symbol is declared in it. -/
def twice : List Bracket :=
  [.enter (.symbol ⟨0⟩), .enter (.stmt ⟨0⟩), .enter (.symbol ⟨1⟩), .leave (.symbol ⟨1⟩),
    .leave (.stmt ⟨0⟩), .enter (.stmt ⟨0⟩)]

/-- The statement and the function are open in the end. -/
theorem moves_nest_twice :
    ∃ c, exec (do beginModule ⟨0⟩; moves twice) start = (.ok (), c) ∧
      c.frames = [.stmt ⟨0⟩, .symbol ⟨0⟩] ∧
      ∃ fs, Open fs twice ∧ (∀ gs, Open gs twice → gs = fs) ∧ c.Holds ⟨0⟩ fs :=
  ⟨⟨some ⟨0⟩, ⟨[⟨0⟩], 2, 1⟩, [.stmt ⟨0⟩, .symbol ⟨0⟩]⟩, rfl, rfl, (moves_nest ⟨0⟩ twice).2 _ rfl⟩

end MiddleEnd.Context

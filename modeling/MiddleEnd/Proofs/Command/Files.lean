import MiddleEnd.Proofs.Command.Lawful

/-!
# MiddleEnd.Proofs.Command.Files

Files in memory are files (`Directory.fileSystem`), and commands in memory run on a lawful host
(`lawful_inMemory`). A path that leads to a file leads there still when the file was written
(`Directory.read_write_self`), and what else could be read can still be read
(`Directory.read_write_other`).

Only a file can appear, and a path does not lead on through a file, so the directories on the way
are the same before and after (`Directory.enter_write`).
-/

namespace MiddleEnd.Command

namespace Directory

variable {d : Directory} {name other : String} {contents : ByteArray}

/-! ## Files -/

/-- Every file of one name gets the same contents. -/
def overwrite (name : String) (contents : ByteArray) (file : String × ByteArray) :
    String × ByteArray :=
  if file.1 = name then (file.1, contents) else file

theorem write_eq (d : Directory) (name : String) (contents : ByteArray) :
    d.write name contents =
      if (d.file? name).isSome then d.map (overwrite name contents)
      else d ++ [(name, contents)] := rfl

/-- Overwriting a file changes what is found at its path, and nothing is found where nothing was. -/
theorem file?_overwrite (d : Directory) (name other : String) (contents : ByteArray) :
    file? (d.map (overwrite name contents)) other =
      if other = name then (d.file? name).map fun _ => contents else d.file? other := by
  induction d with
  | nil => simp [file?]
  | cons file d ih =>
    obtain ⟨n, old⟩ := file
    simp only [file?, List.map_cons] at ih ⊢
    by_cases hn : n = name
    · subst hn
      by_cases ho : other = n
      · simp [overwrite, ho]
      · simp only [overwrite, if_true, List.lookup_cons, beq_eq_false_iff_ne.mpr ho, ih, if_neg ho]
    · by_cases ho : other = n
      · subst ho
        simp [overwrite, hn]
      · simp only [overwrite, if_neg hn, List.lookup_cons, beq_eq_false_iff_ne.mpr ho,
          beq_eq_false_iff_ne.mpr (Ne.symm hn), ih]

/-- A file has the contents that were written. -/
theorem file?_write_self (d : Directory) (name : String) (contents : ByteArray) :
    (d.write name contents).file? name = some contents := by
  rw [write_eq]
  split
  · next hsome =>
    obtain ⟨old, hold⟩ := Option.isSome_iff_exists.mp hsome
    rw [file?_overwrite, if_pos rfl, hold]
    rfl
  · next hnone =>
    have hmissing : d.lookup name = none := Option.not_isSome_iff_eq_none.mp hnone
    rw [file?, List.lookup_append, hmissing]
    simp

/-- The other files are as they were. -/
theorem file?_write_other (d : Directory) (hne : other ≠ name) (contents : ByteArray) :
    (d.write name contents).file? other = d.file? other := by
  rw [write_eq]
  split
  · rw [file?_overwrite, if_neg hne]
  · rw [file?, List.lookup_append]
    simp [List.lookup_cons, beq_eq_false_iff_ne.mpr hne, file?]

/-- What is written twice is there as if it was written once. -/
theorem write_write (d : Directory) (name : String) (contents : ByteArray) :
    (d.write name contents).write name contents = d.write name contents := by
  have hover : ∀ file, overwrite name contents (overwrite name contents file) =
      overwrite name contents file := fun file => by
    by_cases hn : file.1 = name <;> simp [overwrite, hn]
  rw [write_eq (d.write name contents), file?_write_self, Option.isSome_some, if_pos rfl, write_eq]
  split
  · rw [List.map_map]
    exact List.map_congr_left fun file _ => hover file
  · next hnone =>
    have hnot : ∀ file ∈ d, file.1 ≠ name := by
      have hnone : d.lookup name = none := Option.not_isSome_iff_eq_none.mp hnone
      rw [List.lookup_eq_none_iff] at hnone
      exact fun file hmem he => by simpa [he] using hnone file hmem
    have hkeep : d.map (overwrite name contents) = d :=
      (List.map_congr_left fun file hmem => if_neg (hnot file hmem)).trans (List.map_id d)
    rw [List.map_append, hkeep]
    simp [overwrite]

/-! ## Paths -/

/-- Nothing becomes a directory, or stops being one. -/
theorem entry_eq_directory {d d' : Directory} {spot inner : Spot} {part : String}
    (h : d.entry spot part = .directory inner) : d'.entry spot part = .directory inner := by
  cases spot with
  | here => rw [entry] at h; split at h <;> cases h
  | outside names => exact h

theorem find_of_ok {spot : Spot} {part : String} {e : Entry} (h : d.find spot part = .ok e) :
    d.entry spot part = e ∧ ∀ d' : Directory, d'.find spot part = .ok (d'.entry spot part) := by
  rw [find] at h
  split at h
  · cases h
  · next hshort => exact ⟨Except.ok.inj h, fun d' => by rw [find, if_neg hshort]⟩

/-- A directory that a path leads to does not depend on the files. -/
theorem enter_write {d d' : Directory} {spot inner : Spot} {part : String}
    (h : d.enter spot part = .ok inner) : d'.enter spot part = .ok inner := by
  unfold enter at h ⊢
  split
  · next hdot => rwa [if_pos hdot] at h
  · next hdot =>
    rw [if_neg hdot] at h
    split
    · next hup => rwa [if_pos hup] at h
    · next hup =>
      rw [if_neg hup] at h
      cases hfind : d.find spot part with
      | error e => rw [hfind] at h; cases h
      | ok e =>
        obtain ⟨hentry, hfind'⟩ := find_of_ok hfind
        rw [hfind] at h
        cases e with
        | directory inner' =>
          obtain rfl : inner' = inner := Except.ok.inj h
          rw [hfind' d', entry_eq_directory hentry]
          rfl
        | _ => cases h

/-- A way through directories is still there after a file was written. -/
theorem foldlM_enter_write {d : Directory} (d' : Directory) {inner : Spot} :
    ∀ {parts : List String} {spot : Spot},
    parts.foldlM d.enter spot = .ok inner → parts.foldlM d'.enter spot = .ok inner
  | [], _, h => h
  | part :: parts, spot, h => by
    rw [List.foldlM_cons] at h ⊢
    cases hpart : d.enter spot part with
    | error e => rw [hpart] at h; cases h
    | ok next =>
      rw [hpart] at h
      rw [enter_write hpart]
      exact foldlM_enter_write d' h

/-- A path that leads somewhere ends with a part, in a directory that does not depend on the
files. -/
theorem of_target {d : Directory} {path : String} {making : Bool} {t : Target}
    (h : d.target path making = .ok t) :
    ∃ closed spot part, d.arrive making closed spot part = .ok t ∧
      ∀ (d' : Directory) making', d'.target path making' = d'.arrive making' closed spot part := by
  rw [target] at h
  split at h
  · cases h
  · next hname =>
    split at h
    · cases h
    · next hempty =>
      split at h
      · cases h
      · next hlong =>
        cases hlast : (Path.ofString path).parts.getLast? with
        | none => simp only [hlast] at h; cases h
        | some part =>
          simp only [hlast] at h
          cases hspot : (Path.ofString path).parts.dropLast.foldlM d.enter
              (if (Path.ofString path).absolute then .outside [] else .here) with
          | error e => rw [hspot] at h; cases h
          | ok spot =>
            rw [hspot] at h
            refine ⟨_, spot, part, h, fun d' making' => ?_⟩
            rw [target, if_neg hname, if_neg hempty, if_neg hlong]
            simp only [hlast, foldlM_enter_write d' hspot]
            rfl

/-- There are no files but those in the directory that commands run in. -/
theorem spot_of_file {spot : Spot} {part : String} (h : d.entry spot part = .file) :
    spot = .here ∧ (d.file? part).isSome := by
  cases spot with
  | here =>
    rw [entry] at h
    split at h
    · next hsome => exact ⟨rfl, hsome⟩
    · cases h
  | outside names =>
    rw [entry, Surroundings.entry] at h
    split at h
    · cases h
    · split at h <;> cases h

/-- Where a file can be written, its name stands in the directory that commands run in. -/
theorem of_arrive_making {closed : Bool} {spot : Spot} {part : String}
    (h : d.arrive true closed spot part = .ok (.file name)) :
    closed = false ∧ isStep part = false ∧ spot = .here ∧ part = name ∧
      ∃ e, d.find spot part = .ok e := by
  rw [arrive] at h
  split at h
  · cases h
  · next hopen =>
    obtain ⟨hstep, rfl⟩ : isStep part = false ∧ closed = false := by simpa using hopen
    cases hfind : d.find spot part with
    | error e => rw [hfind] at h; cases h
    | ok e =>
      rw [hfind] at h
      suffices hspot : spot = .here ∧ part = name from ⟨rfl, hstep, hspot.1, hspot.2, e, rfl⟩
      cases e with
      | directory _ => cases h
      | fixture _ => cases h
      | file =>
        obtain rfl : part = name := by simpa [bind, Except.bind] using h
        exact ⟨(spot_of_file (find_of_ok hfind).1).1, rfl⟩
      | nothing =>
        cases spot with
        | here =>
          obtain rfl : part = name := by simpa [create, bind, Except.bind] using h
          exact ⟨rfl, rfl⟩
        | outside names =>
          simp only [bind, Except.bind, create] at h
          cases hcreate : Surroundings.create names <;> rw [hcreate] at h <;> cases h

/-- A file that can be written is there when it was written. -/
theorem target_write_self {path : String} (h : d.target path true = .ok (.file name))
    (contents : ByteArray) (making : Bool) :
    (d.write name contents).target path making = .ok (.file name) := by
  obtain ⟨closed, spot, part, harrive, htarget⟩ := of_target h
  obtain ⟨rfl, hstep, rfl, rfl, e, hfind⟩ := of_arrive_making harrive
  rw [htarget, arrive, if_neg (by simp [hstep]), (find_of_ok hfind).2]
  simp [entry, file?_write_self, bind, Except.bind]

/-- What else a path leads to stays there. -/
theorem target_write_other {path : String} {t : Target} (h : d.target path false = .ok t)
    (hne : t ≠ .file name) (contents : ByteArray) :
    (d.write name contents).target path false = .ok t := by
  obtain ⟨closed, spot, part, harrive, htarget⟩ := of_target h
  rw [htarget]
  rw [arrive] at harrive ⊢
  split at harrive
  · cases harrive
  · next hopen =>
    rw [if_neg hopen]
    cases hfind : d.find spot part with
    | error e => rw [hfind] at harrive; cases harrive
    | ok e =>
      obtain ⟨hentry, hfind'⟩ := find_of_ok hfind
      rw [hfind] at harrive
      rw [hfind']
      suffices hsame : (d.write name contents).entry spot part = e by rw [hsame]; exact harrive
      cases spot with
      | outside names => exact hentry
      | here =>
        rw [entry] at hentry ⊢
        split at hentry
        · next hsome =>
          subst hentry
          have hpart : part ≠ name := fun he => hne (by
            subst he
            simp only [bind, Except.bind] at harrive
            split at harrive <;> cases harrive
            rfl)
          rw [file?_write_other d hpart, if_pos hsome]
        · subst hentry
          cases harrive

/-! ## Reading -/

/-- A file that was written is read as it was written. -/
theorem read_write_self {path : String} (h : d.target path true = .ok (.file name))
    (contents : ByteArray) : (d.write name contents).read path = .ok contents := by
  simp only [read, target_write_self h, bind, Except.bind, file?_write_self]

/-- What else could be read is read as before. -/
theorem read_write_other {path : String} {old : ByteArray} (h : d.read path = .ok old)
    (hne : d.target path false ≠ .ok (.file name)) (contents : ByteArray) :
    (d.write name contents).read path = .ok old := by
  rw [read] at h ⊢
  cases htarget : d.target path false with
  | error e => rw [htarget] at h; cases h
  | ok t =>
    have hother : t ≠ .file name := fun he => hne (he ▸ htarget)
    rw [htarget] at h
    simp only [target_write_other htarget hother, bind, Except.bind] at h ⊢
    cases t with
    | fixture f => exact h
    | file other =>
      have hfile : other ≠ name := fun he => hother (congrArg Target.file he)
      simpa only [file?_write_other d hfile] using h

/-- The file that a path leads to. -/
def targetFile? (making : Bool) (d : Directory) (path : String) : Option String :=
  match d.target path making with
  | .ok (.file name) => some name
  | _ => none

theorem targetFile?_eq_some {making : Bool} {path : String} :
    targetFile? making d path = some name ↔ d.target path making = .ok (.file name) := by
  rw [targetFile?]
  split
  · next h => rw [h, Option.some.injEq, Except.ok.injEq, Target.file.injEq]
  · next h => exact ⟨nofun, fun h' => absurd h' (h name)⟩

/-- The files in memory. -/
def fileSystem : FileSystem Directory String where
  read := read
  source? := targetFile? false
  target? := targetFile? true
  put := write
  read_put_self contents h := read_write_self (targetFile?_eq_some.mp h) contents
  read_put_other contents h hne := read_write_other h (mt targetFile?_eq_some.mpr hne) contents
  target?_put contents h :=
    targetFile?_eq_some.mpr (target_write_self (targetFile?_eq_some.mp h) contents true)
  put_put := write_write

end Directory

/-! ## The host -/

/-- Writing in memory is `World.write`, whose refusal leaves the world as it was. -/
theorem writeFile_inMemory (path text : String) (w : World) :
    (Host.inMemory.writeFile path text).run w =
      match w.write path text with
      | .ok w' => (.ok (), w')
      | .error e => (.error e, w) := by
  simp only [Host.inMemory, StateT.run_bind, StateT.run_get, pure_bind]
  cases w.write path text <;> rfl

/-- A write in memory goes the same way whatever the user was told. -/
theorem writeFile_alike {x y : World} (path text : String) (h : x.Alike y) :
    ((Host.inMemory.writeFile path text).run y).1 = ((Host.inMemory.writeFile path text).run x).1 ∧
      ((Host.inMemory.writeFile path text).run x).2.Alike
        ((Host.inMemory.writeFile path text).run y).2 := by
  rw [writeFile_inMemory, writeFile_inMemory, World.write, World.write, h.files]
  cases x.files.target path true with
  | error e => exact ⟨rfl, h⟩
  | ok target =>
    cases target with
    | file name => exact ⟨rfl, rfl, h.printed⟩
    | fixture f =>
      simp only [bind, Except.bind]
      cases f with
      | stream s =>
        cases s with
        | input => exact ⟨rfl, h⟩
        | output => exact ⟨rfl, h.print _⟩
        | report => exact ⟨rfl, h.report _ _⟩
      | full =>
        simp only [World.writeFixture]
        cases text.isEmpty <;> exact ⟨rfl, h⟩
      | _ => exact ⟨rfl, h⟩

/-- Commands in memory run on a lawful host. -/
theorem lawful_inMemory : Host.inMemory.Lawful Directory.fileSystem where
  readFile _ _ := rfl
  print _ _ := rfl
  report _ _ := rfl
  writeFile {path k w} text h := by
    rw [writeFile_inMemory, World.write, Directory.targetFile?_eq_some.mp h]
    rfl
  writeFile_alike := writeFile_alike

end MiddleEnd.Command

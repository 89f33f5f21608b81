import MiddleEnd.Command.Fixup
import MiddleEnd.Command.World

/-!
# MiddleEnd.Proofs.Command.Lawful

What is assumed of the system that a command runs on.

Files are known by keys (`FileSystem`): a path may lead to one, what is written to it is read back,
and what is read elsewhere stays. A host is lawful (`Host.Lawful`) if it reads and writes such
files, adds what it is given to what was printed and told, and does nothing else.
-/

namespace MiddleEnd.Command

variable {F K : Type}

/-! ## Systems -/

namespace System

variable (w : System F)

/-- What is told twice is told one behind the other. -/
theorem report_report (first second : String) :
    (w.report first).report second = w.report (first ++ second) := by
  simp [report, String.append_assoc]

/-- To tell the empty text changes nothing. -/
theorem report_empty : w.report "" = w := by simp [report]

/-- What is printed twice is printed one behind the other. -/
theorem print_print (first second : String) :
    (w.print first).print second = w.print (first ++ second) := by
  simp [print, String.append_assoc]

theorem print_empty : w.print "" = w := by simp [print]

/-- What is told in parts is told as a whole. -/
theorem foldl_report {α : Type} (text : α → String) (items : List α) : ∀ w : System F,
    items.foldl (fun w a => w.report (text a)) w = w.report (String.join (items.map text)) := by
  induction items with
  | nil => exact fun w => (report_empty w).symm
  | cons a items ih =>
    intro w
    rw [List.foldl_cons, ih, report_report, List.map_cons, String.join_cons]

/-- What is printed in parts is printed as a whole. -/
theorem foldl_print {α : Type} (text : α → String) (items : List α) : ∀ w : System F,
    items.foldl (fun w a => w.print (text a)) w = w.print (String.join (items.map text)) := by
  induction items with
  | nil => exact fun w => (print_empty w).symm
  | cons a items ih =>
    intro w
    rw [List.foldl_cons, ih, print_print, List.map_cons, String.join_cons]

/-- Two systems that differ in nothing but what the user was told. -/
structure Alike (x y : System F) : Prop where
  files : y.files = x.files
  printed : y.printed = x.printed

namespace Alike

variable {x y : System F}

/-- Every system is like itself. -/
theorem refl (x : System F) : x.Alike x := ⟨rfl, rfl⟩

/-- Systems that are alike stay so whatever each is told. -/
theorem report (h : x.Alike y) (text text' : String) : (x.report text).Alike (y.report text') :=
  ⟨h.files, h.printed⟩

/-- Systems that are alike stay so if the same is printed. -/
theorem print (h : x.Alike y) (text : String) : (x.print text).Alike (y.print text) :=
  ⟨h.files, congrArg (· ++ text) h.printed⟩

end Alike

end System

/-! ## Files -/

/-- Files that can be read and written under paths. -/
structure FileSystem (F K : Type) where
  /-- What is read under a path. -/
  read : F → String → Except FileError ByteArray
  /-- The file that is read under a path, if it is one. -/
  source? : F → String → Option K
  /-- The file that is written under a path, if it is one that can be written. -/
  target? : F → String → Option K
  /-- Give a file other contents; it need not have been there. -/
  put : F → K → ByteArray → F
  /-- What was written is read back. -/
  read_put_self : ∀ {files : F} {path : String} {k : K} (contents : ByteArray),
    target? files path = some k → read (put files k contents) path = .ok contents
  /-- The other files are read as before. -/
  read_put_other : ∀ {files : F} {path : String} {k : K} {old : ByteArray} (contents : ByteArray),
    read files path = .ok old → source? files path ≠ some k →
      read (put files k contents) path = .ok old
  /-- A file that was written can be written again. -/
  target?_put : ∀ {files : F} {path : String} {k : K} (contents : ByteArray),
    target? files path = some k → target? (put files k contents) path = some k
  /-- What is written twice is there as if it was written once. -/
  put_put : ∀ (files : F) (k : K) (contents : ByteArray),
    put (put files k contents) k contents = put files k contents

namespace FileSystem

variable (fs : FileSystem F K) (files : F)

/-- The text of a file. -/
def readText (path : String) : Except FileError String :=
  match fs.read files path with
  | .error e => .error e
  | .ok bytes =>
    match String.fromUTF8? bytes with
    | some text => .ok text
    | none => .error .notText

/-- The variables in a file, if one is given. -/
def fileVars : Option String → Except Config.Error Vars
  | none => .ok []
  | some path =>
    match fs.readText files path with
    | .error e => .error (.unreadable path e.message)
    | .ok text => Flags.parseVars path text

/-- The settings that flags lead to. -/
def settings (flags : Flags) : Except Config.Error Config := do
  if flags.numLocales = 0 then throw .zeroLocales
  let vars ← fs.fileVars files flags.configFile
  let vars ← Flags.assign vars flags.assignments
  return flags.config vars

/-- The program that a file is a dump of. -/
def loaded (path : String) : Except Failure Program := do
  let text ← (fs.readText files path).mapError (.file path)
  (Dump.decode text).mapError (.dump path)

variable {fs files} {flags : Flags} {config : Config} {path : String} {k : K} {contents : ByteArray}

/-- The bytes of a text are read as that text. -/
theorem readText_of_read {text : String} (h : fs.read files path = .ok text.toUTF8) :
    fs.readText files path = .ok text := by
  have htext : String.fromUTF8? text.toUTF8 = some text := by
    rw [String.fromUTF8?, String.toUTF8_eq_toByteArray, dif_pos text.isValidUTF8]
    rfl
  rw [readText, h]
  simp only [htext]

/-- A file that holds a dump is loaded as the program of the dump. -/
theorem loaded_of_read {text : String} {p : Program} (hread : fs.read files path = .ok text.toUTF8)
    (hdecode : Dump.decode text = .ok p) : fs.loaded files path = .ok p := by
  rw [loaded, readText_of_read hread]
  show (Dump.decode text).mapError _ = _
  rw [hdecode]
  rfl

/-- The settings are refused without a locale, and are else those of the file with the assignments
put on top. -/
theorem settings_eq (files : F) (flags : Flags) : fs.settings files flags =
    if flags.numLocales = 0 then .error .zeroLocales
    else ((fs.fileVars files flags.configFile).bind (Flags.assign · flags.assignments)).map
      flags.config := by
  rw [settings]
  split
  · rfl
  · cases fs.fileVars files flags.configFile with
    | error e => rfl
    | ok vars =>
      show (Flags.assign vars flags.assignments >>= fun vars => pure (flags.config vars)) =
        (Flags.assign vars flags.assignments).map flags.config
      cases Flags.assign vars flags.assignments <;> rfl

/-- Variables that could be read stay, unless the file that they were read from is written. -/
theorem fileVars_put {source : Option String} {vars : Vars}
    (hother : ∀ path, source = some path → fs.source? files path ≠ some k)
    (h : fs.fileVars files source = .ok vars) :
    fs.fileVars (fs.put files k contents) source = .ok vars := by
  cases source with
  | none => exact h
  | some path =>
    cases hread : fs.read files path with
    | error e =>
      simp only [fileVars, readText, hread] at h
      cases h
    | ok old =>
      have hsame : fs.readText (fs.put files k contents) path = fs.readText files path := by
        rw [readText, readText, hread, fs.read_put_other contents hread (hother path rfl)]
      rwa [fileVars, hsame]

/-- So do the settings. -/
theorem settings_put
    (hother : ∀ path, flags.configFile = some path → fs.source? files path ≠ some k)
    (h : fs.settings files flags = .ok config) :
    fs.settings (fs.put files k contents) flags = .ok config := by
  rw [settings_eq] at h ⊢
  split at h
  · cases h
  · next hpos =>
    rw [if_neg hpos]
    cases hvars : fs.fileVars files flags.configFile with
    | error e =>
      rw [hvars] at h
      cases h
    | ok vars =>
      rw [hvars] at h
      rwa [fileVars_put hother hvars]

/-- The flags about presentation decide over how much is told, and over no other setting. -/
theorem settings_presented (files : F) (flags : Flags) (quiet verbose : Bool) :
    fs.settings files { flags with quiet, verbose } = (fs.settings files flags).map fun config =>
      { config with verbosity := Flags.verbosity { flags with quiet, verbose } } := by
  rw [settings_eq, settings_eq]
  split
  · rfl
  · cases (fs.fileVars files flags.configFile).bind (Flags.assign · flags.assignments) <;> rfl

/-- How much is told is said by the flags alone. -/
theorem verbosity_of_settings (h : fs.settings files flags = .ok config) :
    config.verbosity = flags.verbosity := by
  rw [settings_eq] at h
  split at h
  · cases h
  · cases hvars : (fs.fileVars files flags.configFile).bind (Flags.assign · flags.assignments) with
    | error e => rw [hvars] at h; cases h
    | ok vars => rw [hvars] at h; cases h; rfl

end FileSystem

/-! ## Hosts -/

/-- A host whose files are of a kind. -/
structure Host.Lawful (host : Host (StateM (System F))) (fs : FileSystem F K) : Prop where
  readFile : ∀ path w, (host.readFile path).run w = (fs.read w.files path, w)
  print : ∀ text w, (host.print text).run w = ((), w.print text)
  report : ∀ text w, (host.report text).run w = ((), w.report text)
  /-- A file is written as a whole. -/
  writeFile : ∀ {path k w} text, fs.target? w.files path = some k →
    (host.writeFile path text).run w = (.ok (), { w with files := fs.put w.files k text.toUTF8 })
  /-- What the user was told does not decide over what is written, wherever the path leads. -/
  writeFile_alike : ∀ {x y : System F} path text, x.Alike y →
    ((host.writeFile path text).run y).1 = ((host.writeFile path text).run x).1 ∧
      ((host.writeFile path text).run x).2.Alike ((host.writeFile path text).run y).2

end MiddleEnd.Command

import MiddleEnd.Proofs.Report.Drawing
import MiddleEnd.Proofs.Text.Lines
import MiddleEnd.Report

/-!
# MiddleEnd.Proofs.Report.Pointing

When a report points at the line of its violation (`Report.render_points`), for every renderer that
counts characters.

The span of a line counts bytes and is handed to a renderer that counts characters and has more line
breaks than newlines. Both start in the same line if, and only if, the first position, taken for a
character, is one of that line for the renderer, too (`Report.Aligned`), as it is in texts that are
ASCII and broken by newlines only (`Report.aligned_of_ascii`). Two letters of two bytes before the
line are enough for another line to be named and shown (`Report.render_misses_accented`).
-/

namespace MiddleEnd.Report

open Text (IsLine LineTable Span byteLength length_le_byteLength)

variable {text before line after : List Char} {n : Nat} {v : Violation} {u span : Span}
  {rows : List (List Piece)}

/-! ## Pointing -/

/-- A drawing says that the stretch starts in a line, at a column of it or right behind it. -/
def NamesLine (rows : List (List Piece)) (number : Nat) (line : List Char) : Prop :=
  ∃ column, 1 ≤ column ∧ column ≤ line.length + 1 ∧ Names rows number column

/-- A drawing points at the line of a violation. -/
structure Points (v : Violation) (line : List Char) (rows : List (List Piece)) : Prop where
  named : NamesLine rows v.line.toNat line
  shown : Shows rows v.line.toNat line

/-! ## Stretches -/

/-- What is underlined ends behind its start. -/
theorem underlined_le (length : Nat) (span : Span) :
    (underlined length span).start ≤ (underlined length span).stop := by
  simp only [underlined]
  split <;> omega

/-- A line is underlined as a whole, and an empty one with a character behind it. -/
theorem underlined_eq {length start stop : Nat} (hstart : start ≤ stop) (hstop : stop ≤ length) :
    underlined length ⟨start, stop⟩ =
      ⟨start, if start = stop then min (stop + 1) length else stop⟩ := by
  simp only [underlined, Nat.min_eq_left hstop, Nat.min_eq_left (Nat.le_trans hstart hstop),
    Nat.max_eq_left hstart]

/-- What is underlined for a line of a text, in bytes. -/
def stretch (text before line : List Char) : Span :=
  underlined (byteLength text) ⟨byteLength before, byteLength before + byteLength line⟩

/-- What is underlined for a line of a text is the line, or one byte of an empty one. -/
theorem stretch_eq (h : IsLine text n before line after) : stretch text before line =
    ⟨byteLength before, if byteLength line = 0 then min (byteLength before + 1) (byteLength text)
      else byteLength before + byteLength line⟩ := by
  have hbytes := h.byteLength_eq
  rw [stretch, underlined_eq (Nat.le_add_right _ _) (by omega)]
  by_cases hline : byteLength line = 0
  · simp [hline]
  · rw [if_neg (by omega), if_neg hline]

/-- What is underlined for a line ends in the text. -/
theorem stretch_stop_le (h : IsLine text n before line after) :
    (stretch text before line).stop ≤ byteLength text := by
  have hbytes := h.byteLength_eq
  rw [stretch_eq h]
  simp only
  split <;> omega

/-! ## Alignment -/

/-- A stretch, its start taken for a character, starts in a line or right behind it, and the
renderer has that line at the same place. -/
structure Aligned (u : Span) (before line after : List Char) : Prop where
  /-- Only newlines break the text before the line. -/
  strays : strays before = 0
  /-- The line is not the empty one behind a final newline, which the renderer does not know. -/
  present : before = [] ∨ line ++ after ≠ []
  start_ge : before.length ≤ u.start
  start_le : u.start ≤ before.length + line.length
  /-- The stretch does not start behind what breaks the line. -/
  start_lt : firstLine (line ++ after) ≠ line ++ after →
    u.start < before.length + (firstLine (line ++ after)).length

/-- Nothing breaks a line. -/
def Unbroken (line after : List Char) : Prop := line.length ≤ (firstLine (line ++ after)).length

theorem drawn_append_newline (line : List Char) : drawn (line ++ ['\n']) = drawn line := by
  rw [drawn, Text.trimEnd, List.reverse_append, List.reverse_singleton, List.singleton_append,
    List.dropWhile_cons_of_pos (by decide), ← Text.trimEnd, ← drawn]

/-- A line that nothing breaks is drawn without its newline. -/
theorem Unbroken.drawn_eq (hu : Unbroken line after) (h : IsLine text n before line after) :
    drawn (firstLine (line ++ after)) = drawn line := by
  rcases firstLine_eq h.newline_notMem h.ends hu with heq | heq
  · rw [heq]
  · rw [heq, drawn_append_newline]

/-- The renderer finds the line that a stretch is aligned with. -/
theorem Aligned.lineAt_eq (ha : Aligned u before line after) (h : IsLine text n before line after) :
    lineAt u.start text = ⟨n, before.length, firstLine (line ++ after)⟩ := by
  obtain ⟨post, hpost⟩ := sourceLines_eq_cons (line ++ after)
  have hbefore : (breakLines [] before).flatten = before := flatten_breakLines [] before
  have hholds : Holds (sourceLines text) u.start (breakLines [] before)
      (firstLine (line ++ after)) post := by
    refine ⟨?_, hbefore.symm ▸ ha.start_ge,
      fun hne => hbefore.symm ▸ ha.start_lt fun hall => hne ?_⟩
    · rw [h.text_eq, sourceLines_append h.begins ha.present, hpost]
    · -- only an empty text has an empty line
      have hnil : line ++ after = [] := by
        by_contra hnonempty
        have hlt := length_flatten_lt (hpost.trans (List.append_cons [] _ _)) hnonempty hne
        rw [List.nil_append, List.flatten_singleton, hall] at hlt
        exact absurd hlt (Nat.lt_irrefl _)
      rw [hnil] at hpost
      exact (List.cons.inj hpost).2.symm
  rw [hholds.lineAt_eq, length_breakLines_before h.begins, ha.strays, Nat.add_zero, ← h.number,
    hbefore]

/-- A stretch that starts with a line, in bytes, is aligned with it if the renderer finds the number
of the line and a column of it. -/
theorem aligned_of_lineAt (h : IsLine text n before line after) (hstart : before.length ≤ u.start)
    (hnumber : (lineAt u.start text).number = n)
    (hcolumn : u.start - (lineAt u.start text).offset ≤ line.length) :
    Aligned u before line after := by
  obtain ⟨pre, chars, post, hholds⟩ := exists_holds (sourceLines_ne_nil text) u.start
  rw [hholds.lineAt_eq] at hnumber hcolumn
  simp only at hnumber hcolumn
  have hflatten : (breakLines [] before).flatten = before := flatten_breakLines [] before
  have hpresent : before = [] ∨ line ++ after ≠ [] := by
    refine or_iff_not_imp_left.mpr fun hne hnil => ?_
    obtain ⟨rfl, rfl⟩ := List.append_eq_nil_iff.mp hnil
    obtain rfl : text = before := by rw [h.text_eq, List.append_nil, List.append_nil]
    have hlt := length_flatten_lt hholds.lines_eq hne (List.cons_ne_nil _ _)
    rw [List.length_nil] at hcolumn
    omega
  have hlines : sourceLines text = breakLines [] before ++ sourceLines (line ++ after) := by
    rw [h.text_eq, sourceLines_append h.begins hpresent]
  obtain ⟨others, rfl, hrest⟩ :=
    (hlines ▸ hholds).of_append (sourceLines_ne_nil _) (by rw [hflatten]; omega)
  -- a stray before the line would make its number too large
  rw [List.length_append, length_breakLines_before h.begins, h.number] at hnumber
  obtain rfl : others = [] := List.eq_nil_of_length_eq_zero (by omega)
  obtain rfl : firstLine (line ++ after) = chars := by
    rw [firstLine, hrest]
    rfl
  have hlt := hholds.lt_stop
  rw [List.append_nil, hflatten] at hcolumn hlt
  refine ⟨by omega, hpresent, hstart, by omega, fun hne => hlt fun hnil => hne ?_⟩
  have hall := flatten_sourceLines (line ++ after)
  rwa [hrest, hnil, List.nil_append, List.flatten_singleton] at hall

/-- In a text that is ASCII and broken by newlines only, nothing breaks a line, and what is
underlined for it is aligned with it and inside of the text, but for the empty line behind a final
newline. -/
theorem aligned_of_ascii (h : IsLine text n before line after)
    (hascii : byteLength text = text.length)
    (hstrays : strays text = 0) (hpresent : before = [] ∨ line ++ after ≠ []) :
    (stretch text before line).stop ≤ text.length ∧ Unbroken line after ∧
      Aligned (stretch text before line) before line after := by
  have hbytes := h.byteLength_eq
  have hlength := congrArg List.length h.text_eq
  rw [List.length_append, List.length_append] at hlength
  have hbefore := length_le_byteLength before
  have hline := length_le_byteLength line
  have hafter := length_le_byteLength after
  have hsplit : strays before + strays (line ++ after) = 0 := by
    rw [h.text_eq] at hstrays
    rcases h.begins with rfl | ⟨init, rfl⟩
    · exact (Nat.zero_add _).trans hstrays
    · rwa [(closed_append_newline init).strays_append] at hstrays
  have hunbroken := le_length_firstLine h.newline_notMem h.ends (by omega)
  refine ⟨hascii ▸ stretch_stop_le h, hunbroken, ?_⟩
  rw [stretch_eq h]
  refine ⟨by omega, hpresent, by simp only; omega, by simp only; omega, fun hne => ?_⟩
  have hnonempty : line ++ after ≠ [] := by
    rintro hnil
    rw [hnil] at hne
    exact hne rfl
  have hfirst := length_firstLine_pos hnonempty
  simp only
  omega

/-! ## Drawings -/

variable {draw : Renderer} {source : String}

theorem inside_mark (hstop : (mark v source span).span.stop ≤ source.toList.length) :
    (mark v source span).Inside := ⟨underlined_le _ _, hstop⟩

/-- What is drawn for a violation starts in its line if the stretch is aligned with it. -/
theorem line_mark (h : IsLine source.toList n before line after)
    (ha : Aligned (mark v source span).span before line after) :
    (mark v source span).line = ⟨n, before.length, firstLine (line ++ after)⟩ := ha.lineAt_eq h

section

variable (hdraw : draw.CountsChars) (hinside : (mark v source span).Inside)
  (hrows : draw (mark v source span) = some rows)
  (h : IsLine source.toList v.line.toNat before line after)
include hdraw hinside hrows h

/-- A line that the stretch is aligned with is named. -/
theorem namesLine_of_aligned (ha : Aligned (mark v source span).span before line after) :
    NamesLine rows v.line.toNat line := by
  refine ⟨_, Nat.le_add_left 1 _, Nat.succ_le_succ (Nat.sub_le_iff_le_add'.mpr ha.start_le),
    (hdraw.names_iff hinside hrows _ _).mpr ?_⟩
  rw [line_mark h ha]
  exact ⟨rfl, rfl⟩

/-- A line that the stretch is aligned with is pointed at if nothing breaks it. -/
theorem points_of_aligned (ha : Aligned (mark v source span).span before line after)
    (hu : Unbroken line after) : Points v line rows := by
  refine ⟨namesLine_of_aligned hdraw hinside hrows h ha, ?_⟩
  have hshown := hdraw.shows hinside hrows
  rw [line_mark h ha] at hshown
  simpa only [Shows, hu.drawn_eq h] using hshown

/-- The line is named only if what is underlined for it is aligned with it. -/
theorem aligned_of_namesLine (hspan : (mark v source span).span = stretch source.toList before line)
    (hnames : NamesLine rows v.line.toNat line) :
    Aligned (mark v source span).span before line after := by
  obtain ⟨column, -, hle, hplace⟩ := hnames
  obtain ⟨hnumber, rfl⟩ := (hdraw.names_iff hinside hrows _ _).mp hplace
  refine aligned_of_lineAt h ?_ hnumber.symm (Nat.le_of_succ_le_succ hle)
  rw [hspan, stretch_eq h]
  exact length_le_byteLength before

end

/-! ## Reports -/

/-- A report about a line that the text has is what the renderer draws. -/
theorem renderWith_eq (h : (LineTable.ofText source.toList).line? v.line.toNat = some span)
    (hrows : draw (mark v source span) = some rows) (format : Format) (hformat : format ≠ .json) :
    renderWith draw format (some source) v = write (format = .colour) rows := by
  cases format with
  | json => exact absurd rfl hformat
  | plain => simp [renderWith, h, hrows]
  | colour => simp [renderWith, h, hrows]

/-- A report about a line that the text has is what the renderer draws. If the stretch that is
marked is inside of the text, its ends taken for characters, the report names the line if the
stretch is aligned with it, whatever the text is, and shows it if nothing else breaks it; and it
names the line only then if the table of lines can hold the offsets of the text. -/
theorem render_points (hdraw : draw.CountsChars)
    (h : (LineTable.ofText source.toList).line? v.line.toNat = some span) :
    ∃ before line after, IsLine source.toList v.line.toNat before line after ∧
      ((mark v source span).Inside → ∃ rows,
        (∀ format, format ≠ .json →
          renderWith draw format (some source) v = write (format = .colour) rows) ∧
        (Aligned (mark v source span).span before line after →
          NamesLine rows v.line.toNat line ∧ (Unbroken line after → Points v line rows)) ∧
        (source.utf8ByteSize < UInt32.size →
          span = ⟨byteLength before, byteLength before + byteLength line⟩ ∧
          (NamesLine rows v.line.toNat line →
            Aligned (mark v source span).span before line after))) := by
  obtain ⟨hpos, hn⟩ := LineTable.le_of_line?_eq_some h
  obtain ⟨before, line, after, hline⟩ := Text.exists_isLine hpos hn
  refine ⟨before, line, after, hline, fun hinside => ?_⟩
  obtain ⟨rows, hrows⟩ := hdraw.draws hinside
  refine ⟨rows, renderWith_eq h hrows, fun ha => ?_, fun hsize => ?_⟩
  · exact ⟨namesLine_of_aligned hdraw hinside hrows hline ha,
      points_of_aligned hdraw hinside hrows hline ha⟩
  · rw [← Text.byteLength_toList] at hsize
    obtain rfl := Option.some.inj (h.symm.trans (hline.line?_eq hsize))
    exact ⟨rfl, aligned_of_namesLine hdraw hinside hrows hline rfl⟩

/-- A violation in the second line of its file. -/
def unknown : Violation := ⟨.unknownSymbol ⟨9⟩, ⟨0⟩, "main.w", 2, .expr ⟨4⟩⟩

/-- A carriage return in front of a newline is no stray. -/
theorem render_points_crlf :
    Renderer.CountsChars Excerpt.draw ∧
    (LineTable.ofText "ab\r\nx\n".toList).line? unknown.line.toNat = some ⟨4, 5⟩ ∧
    Aligned (mark unknown "ab\r\nx\n" ⟨4, 5⟩).span ['a', 'b', '\r', '\n'] ['x'] ['\n'] ∧
    ∃ rows, (∀ format, format ≠ .json →
      render format (some "ab\r\nx\n") unknown = write (format = .colour) rows) ∧
      Points unknown ['x'] rows := by
  have hspan : (LineTable.ofText "ab\r\nx\n".toList).line? unknown.line.toNat = some ⟨4, 5⟩ := by
    decide +kernel
  have haligned : Aligned (mark unknown "ab\r\nx\n" ⟨4, 5⟩).span ['a', 'b', '\r', '\n'] ['x']
      ['\n'] :=
    ⟨by decide +kernel, .inr (by decide), by decide +kernel, by decide +kernel, by decide +kernel⟩
  have hline : IsLine "ab\r\nx\n".toList 2 ['a', 'b', '\r', '\n'] ['x'] ['\n'] :=
    ⟨by decide, by decide, .inr ⟨['a', 'b', '\r'], rfl⟩, by decide, .inr ⟨[], rfl⟩⟩
  obtain ⟨before, line, after, hfound, hdrawn⟩ := render_points countsChars_draw hspan
  obtain ⟨rfl, rfl, rfl⟩ := hfound.unique hline
  obtain ⟨rows, hreport, hpoints, -⟩ := hdrawn (inside_mark (by decide +kernel))
  have hunbroken : Unbroken ['x'] ['\n'] := by
    unfold Unbroken
    decide +kernel
  exact ⟨countsChars_draw, hspan, haligned, rows, hreport, (hpoints haligned).2 hunbroken⟩

/-- Behind two letters of two bytes, the report names and shows the line below that of the
violation. -/
theorem render_misses_accented :
    (LineTable.ofText "éé\nx\ny\n".toList).line? unknown.line.toNat = some ⟨5, 6⟩ ∧
    IsLine "éé\nx\ny\n".toList unknown.line.toNat ['é', 'é', '\n'] ['x'] ['\n', 'y', '\n'] ∧
    (∀ draw : Renderer, draw.CountsChars → ∃ rows,
      (∀ format, format ≠ .json →
        renderWith draw format (some "éé\nx\ny\n") unknown = write (format = .colour) rows) ∧
      Names rows 3 1 ∧ Shows rows 3 ['y', '\n'] ∧ ¬ Points unknown ['x'] rows) ∧
    render .plain (some "éé\nx\ny\n") unknown =
      "[E0101] Error: reference to unknown symbol #9\n   ╭─[ <unknown>:3:1 ]\n   │\n 3 │ y\n"
        ++ "   │ ┬  \n   │ ╰── unresolved reference\n   │ \n"
        ++ "   │ Note: at expression #4 in main.w:2\n───╯\n" := by
  have hspan : (LineTable.ofText "éé\nx\ny\n".toList).line? unknown.line.toNat = some ⟨5, 6⟩ := by
    decide +kernel
  have hinside : (mark unknown "éé\nx\ny\n" ⟨5, 6⟩).Inside := inside_mark (by decide +kernel)
  have hl : (mark unknown "éé\nx\ny\n" ⟨5, 6⟩).line = ⟨3, 5, ['y', '\n']⟩ := by decide +kernel
  refine ⟨hspan, ⟨by decide, by decide, .inr ⟨['é', 'é'], rfl⟩, by decide, .inr ⟨_, rfl⟩⟩,
    fun draw hdraw => ?_, by decide +kernel⟩
  obtain ⟨rows, hrows⟩ := hdraw.draws hinside
  refine ⟨rows, renderWith_eq hspan hrows, (hdraw.names_iff hinside hrows _ _).mpr ?_, ?_,
    fun h => ?_⟩
  · rw [hl]
    decide +kernel
  · have hshown := hdraw.shows hinside hrows
    rwa [hl] at hshown
  · obtain ⟨column, -, -, hnames⟩ := h.named
    have hnumber := ((hdraw.names_iff hinside hrows _ _).mp hnames).1
    rw [hl] at hnumber
    exact absurd hnumber (by decide)

/-- The line before is shown, since its stretch only ends too late. -/
example : render .plain (some "éé\nx\ny\n")
      ⟨.unknownSymbol ⟨9⟩, ⟨0⟩, "main.w", 1, .expr ⟨4⟩⟩ =
    "[E0101] Error: reference to unknown symbol #9\n   ╭─[ <unknown>:1:1 ]\n   │\n 1 │ ╭─▶ éé\n"
      ++ " 2 │ ├─▶ x\n   │ │       \n   │ ╰─────── unresolved reference\n   │     \n"
      ++ "   │     Note: at expression #4 in main.w:1\n───╯\n" := by
  decide +kernel

end MiddleEnd.Report

import Mathlib.Data.List.Basic
import MiddleEnd.Proofs.Report.SourceLines
import MiddleEnd.Report.Excerpt

/-!
# MiddleEnd.Proofs.Report.Drawing

What is assumed of a renderer, and that the one at hand obeys it.

A renderer that counts characters (`Report.Renderer.CountsChars`) takes the ends of a stretch for
characters. For a stretch inside of the text it names the line and the column that the first of them
is in, with the lines and columns of `Report.lineAt`, and shows that line. Nothing is assumed of
stretches that leave the text, nor of the rest of a drawing.
-/

namespace MiddleEnd.Report

variable {rows : List (List Piece)} {n k : Nat} {m : Mark}

/-! ## What a drawing says -/

/-- A drawing says that the stretch starts at a line and a column: it is said below the title. -/
def Names (rows : List (List Piece)) (number column : Nat) : Prop :=
  ∃ pieces, rows[1]? = some pieces ∧ bare (place number column) ∈ pieces

/-- A drawing shows a line with its number and its text. A bracket may open in front of the text. -/
def Shows (rows : List (List Piece)) (number : Nat) (chars : List Char) : Prop :=
  ∃ pieces ∈ rows, ∃ indent, ∃ bracket ∈ ["", opening],
    renderAll false pieces =
      spaces indent ++ number.repr ++ " │ " ++ bracket ++ String.ofList (drawn chars)

/-- The stretch of a mark is a part of the text, its ends taken for characters. -/
structure Mark.Inside (m : Mark) : Prop where
  start_le : m.span.start ≤ m.span.stop
  stop_le : m.span.stop ≤ m.text.length

/-- The line that a mark starts in. -/
def Mark.line (m : Mark) : SourceLine := lineAt m.span.start m.text

/-- The renderer's positions are characters. -/
structure Renderer.CountsChars (draw : Renderer) : Prop where
  /-- What is inside of the text can be drawn. -/
  draws : ∀ {m : Mark}, m.Inside → ∃ rows, draw m = some rows
  /-- The head says where the stretch starts, and nothing else. -/
  names_iff : ∀ {m : Mark} {rows : List (List Piece)}, m.Inside → draw m = some rows →
    ∀ number column, Names rows number column ↔
      number = m.line.number ∧ column = m.span.start - m.line.offset + 1
  /-- The line that the stretch starts in is shown, wherever the stretch ends. -/
  shows : ∀ {m : Mark} {rows : List (List Piece)}, m.Inside → draw m = some rows →
    Shows rows m.line.number m.line.chars

/-! ## Texts of rows -/

theorem render_eq_text (p : Piece) : p.render false = p.text := by
  rw [Piece.render]
  split <;> rfl

/-- The characters of a row without its colours. -/
theorem toList_renderAll (pieces : List Piece) :
    (renderAll false pieces).toList = pieces.flatMap fun p => p.text.toList := by
  simp only [renderAll, String.toList_join, List.flatMap_map, render_eq_text]

/-- Pieces in a row are written one behind the other. -/
theorem renderAll_append (xs ys : List Piece) :
    renderAll false (xs ++ ys) = renderAll false xs ++ renderAll false ys := by
  rw [renderAll, List.map_append, String.join_append, renderAll, renderAll]

/-- Characters painted one by one are their text. -/
theorem toList_renderAll_painted (colour : Colour) (text : List Char) :
    (renderAll false (text.map fun c => painted colour c.toString)).toList = text := by
  simp [toList_renderAll, List.flatMap_map, painted]

theorem renderAll_paintedApart (colour : Colour) (text : String) :
    renderAll false (paintedApart colour text) = text :=
  String.toList_inj.mp (toList_renderAll_painted colour text.toList)

/-- A line is drawn as it is shown, wherever the stretch is. -/
theorem renderAll_textRow (line : SourceLine) (span : Text.Span) :
    renderAll false (Underlining.ofLine line span).textRow = String.ofList (drawn line.chars) := by
  refine String.toList_inj.mp ?_
  rw [String.toList_ofList, toList_renderAll, Underlining.textRow, List.flatMap_assoc, drawn,
    Underlining.ofLine]
  refine congrArg (List.flatMap · _) (funext fun ⟨c, index⟩ => ?_)
  rw [← toList_renderAll]
  exact toList_renderAll_painted _ _

/-- The row of a line starts with its number, right-aligned, and a bar. -/
theorem renderAll_numbered (digits number : Nat) : renderAll false (numbered digits number) =
    spaces (digits - number.repr.length + 1) ++ number.repr ++ " │ " := by
  refine String.toList_inj.mp ?_
  rw [toList_renderAll]
  simp [numbered, bare, painted, spaces, List.replicate_succ]

/-! ## Places -/

/-- No number is written with a colon, so the place of a stretch can be taken apart. -/
theorem colon_notMem_repr (n : Nat) : ':' ∉ n.repr.toList := fun h => by
  rw [Nat.toList_repr] at h
  exact absurd (Nat.isDigit_of_mem_toDigits (by decide) (Nat.le_refl 10) h) (by decide)

/-- A number is known by its digits. -/
theorem digits_inj (h : n.repr.toList = k.repr.toList) : n = k := by
  rw [Nat.toList_repr, Nat.toList_repr] at h
  rw [← Nat.ofDigitChars_ten_toDigits (n := n), h, Nat.ofDigitChars_ten_toDigits]

/-- A place tells which line and column it is. -/
theorem place_inj {line column : Nat} (h : place n k = place line column) :
    n = line ∧ k = column := by
  have hchars : n.repr.toList ++ ':' :: (k.repr.toList ++ [' ']) =
      line.repr.toList ++ ':' :: (column.repr.toList ++ [' ']) := by
    have htexts := congrArg String.toList h
    simp only [place, String.toList_append, List.append_assoc, List.append_cancel_left_eq] at htexts
    exact htexts
  have hdigits : ':' ∉ k.repr.toList ++ [' '] :=
    List.not_mem_append (colon_notMem_repr k) (by decide)
  obtain ⟨hn, -, hk⟩ := (List.append_cons_inj_of_notMem (colon_notMem_repr n) hdigits).mp hchars
  exact ⟨digits_inj hn, digits_inj (List.append_cancel_right hk)⟩

theorem place_ne_spaces (count : Nat) : place n k ≠ spaces count := fun h => by
  have hmem : '<' ∈ (spaces count).toList := h ▸ by simp [place]
  rw [spaces, String.toList_ofList, List.mem_replicate] at hmem
  exact absurd hmem.2 (by decide)

/-- The head names the place that it is made for. -/
theorem names_iff_of_headRows {first : List Piece} {rest : List (List Piece)} {digits start : Nat}
    {line : SourceLine} : Names (first :: (headRows digits line start ++ rest)) n k ↔
      n = line.number ∧ k = start - line.offset + 1 := by
  constructor
  · rintro ⟨pieces, hrow, hmem⟩
    obtain rfl := Option.some.inj hrow
    simp only [List.cons_append, List.mem_cons, List.mem_append, paintedApart, List.mem_map,
      painted, bare, Piece.mk.injEq, List.not_mem_nil, or_false, and_true, reduceCtorEq, and_false,
      exists_false] at hmem
    rcases hmem with h | h | h
    · exact absurd h (place_ne_spaces _)
    · simp at h
    · exact place_inj h
  · rintro ⟨rfl, rfl⟩
    exact ⟨_, rfl, by simp⟩

/-! ## The renderer -/

/-- A line that holds all of the stretch is shown with its number. -/
theorem shows_lineRows {digits : Nat} {line : SourceLine} {span : Text.Span} {label : String}
    (hstop : span.stop ≤ line.stop) :
    Shows (lineRows digits line span label) line.number line.chars := by
  rw [lineRows, if_neg (Nat.not_lt.mpr hstop)]
  refine ⟨_, List.mem_cons_self, digits - line.number.repr.length + 1, "", by simp, ?_⟩
  rw [renderAll_append, renderAll_numbered, renderAll_textRow, String.append_empty]

theorem renderAll_openingRow (digits : Nat) (line : SourceLine) (span : Text.Span) :
    renderAll false (openingRow digits line span) =
      spaces (digits - line.number.repr.length + 1) ++ line.number.repr ++ " │ " ++ opening
        ++ String.ofList (drawn line.chars) := by
  rw [openingRow, renderAll_append, renderAll_append, renderAll_numbered, renderAll_paintedApart,
    renderAll_textRow]

/-- A bracket shows the line that it opens at, whether it has an end or not. -/
theorem shows_bracketRows (digits : Nat) (first last : SourceLine) (span : Text.Span)
    (label : String) :
    Shows (bracketRows digits first last span label) first.number first.chars := by
  refine ⟨openingRow digits first span, ?_, _, opening, by simp, renderAll_openingRow _ _ _⟩
  rw [bracketRows]
  split <;> exact List.mem_cons_self

/-- The excerpt of a stretch inside of the text starts with its head, and shows its first line. -/
theorem Mark.Inside.excerptRows_eq (h : m.Inside) : ∃ digits rows foot,
    excerptRows m = headRows digits m.line m.span.start ++ (rows ++ foot) ∧
      Shows rows m.line.number m.line.chars := by
  have hstart := h.start_le
  have hstop := h.stop_le
  have hinside : ¬ ((m.text.length < m.span.start ||
      (m.span.start < m.span.stop && m.text.length < m.span.stop - 1)) = true) := by
    simp only [Bool.or_eq_true, Bool.and_eq_true, decide_eq_true_eq]
    omega
  rw [excerptRows, if_neg hinside, ← Mark.line]
  refine ⟨_, _, _, List.append_assoc _ _ _, ?_⟩
  by_cases hline : m.line.number = (lineAt (max m.span.start (m.span.stop - 1)) m.text).number
  · rw [if_pos hline]
    refine shows_lineRows ?_
    rw [Mark.line, lineAt_eq_of_number hline]
    rcases lt_stop_lineAt (max m.span.start (m.span.stop - 1)) m.text with hlt | heq <;> omega
  · rw [if_neg hline]
    exact shows_bracketRows _ _ _ _ _

/-- The renderer at hand counts characters. -/
theorem countsChars_draw : Renderer.CountsChars Excerpt.draw where
  draws _ := ⟨_, rfl⟩
  names_iff h hdraw number column := by
    obtain ⟨digits, rows, foot, heq, -⟩ := h.excerptRows_eq
    obtain rfl := Option.some.inj hdraw
    rw [heq]
    exact names_iff_of_headRows
  shows h hdraw := by
    obtain ⟨digits, rows, foot, heq, pieces, hmem, hshown⟩ := h.excerptRows_eq
    obtain rfl := Option.some.inj hdraw
    refine ⟨pieces, ?_, hshown⟩
    rw [heq]
    simp [hmem]

end MiddleEnd.Report

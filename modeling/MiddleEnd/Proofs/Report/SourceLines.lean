import MiddleEnd.Report.SourceLine

/-!
# MiddleEnd.Proofs.Report.SourceLines

The lines that a report breaks a text into, and the line that it finds a position in
(`Report.Holds.lineAt_eq`).

What stands behind a newline is broken into lines by itself (`Report.Closed.breakLines_append`), so
a text is the lines before one of its lines and those from there on (`Report.sourceLines_append`).
The first are as many as the newlines and the other line breaks before it, the strays, together.
-/

namespace MiddleEnd.Report

variable {text line before after rest l : List Char} {c d : Char}

/-! ## Line breaks -/

theorem breakLines_crlf (line rest : List Char) : breakLines line ('\r' :: '\n' :: rest) =
    ('\n' :: '\r' :: line).reverse :: breakLines [] rest := by
  rw [breakLines]

/-- A newline ends a line, whatever stands in front of it. -/
theorem breakLines_newline (line rest : List Char) :
    breakLines line ('\n' :: rest) = ('\n' :: line).reverse :: breakLines [] rest := by
  rw [breakLines]
  · rfl
  · intro _ h
    cases h

theorem breakLines_cons_cons (h : c = '\r' → d ≠ '\n') : breakLines line (c :: d :: rest) =
    if breaksLine c then (c :: line).reverse :: breakLines [] (d :: rest)
    else breakLines (c :: line) (d :: rest) := by
  rw [breakLines]
  rintro _ hc hd
  exact h hc (List.cons.inj hd).1

theorem breakLines_singleton (line : List Char) (c : Char) :
    breakLines line [c] = [(c :: line).reverse] := by
  rw [breakLines]
  · split <;> rfl
  · intro _ _ h
    cases h

/-- How many line breaks of a text are no newlines. A carriage return in front of a newline is a
part of the newline's. -/
def strays : List Char → Nat
  | [] => 0
  | '\r' :: '\n' :: rest => strays rest
  | c :: rest => (if breaksLine c ∧ c ≠ '\n' then 1 else 0) + strays rest

theorem strays_cons_cons (h : c = '\r' → d ≠ '\n') : strays (c :: d :: rest) =
    (if breaksLine c ∧ c ≠ '\n' then 1 else 0) + strays (d :: rest) := by
  rw [strays]
  rintro _ hc hd
  exact h hc (List.cons.inj hd).1

theorem strays_newline (rest : List Char) : strays ('\n' :: rest) = strays rest := by
  rw [strays]
  · exact Nat.zero_add _
  · intro _ h
    cases h

/-- The lines of a text make up the text. -/
theorem flatten_breakLines (line text : List Char) :
    (breakLines line text).flatten = line.reverse ++ text := by
  fun_induction breakLines line text with
  | case1 line h => simp [List.isEmpty_iff.mp h]
  | case2 line h => simp
  | case3 line rest ih => simp [ih]
  | case4 line c rest _ _ ih => simp [ih]
  | case5 line c rest _ _ ih => simp [ih]

/-- A line has a character, and only the last one can be a newline. -/
theorem exists_of_mem_breakLines (hline : '\n' ∉ line) (h : l ∈ breakLines line text) :
    ∃ init c, l = init ++ [c] ∧ '\n' ∉ init := by
  fun_induction breakLines line text with
  | case1 line hempty => cases h
  | case2 line hne =>
    obtain rfl := List.mem_singleton.mp h
    cases line with
    | nil => exact absurd rfl hne
    | cons c line =>
      exact ⟨line.reverse, c, List.reverse_cons,
        fun hmem => hline (.tail _ (List.mem_reverse.mp hmem))⟩
  | case3 line rest ih =>
    rcases List.mem_cons.mp h with rfl | h
    · exact ⟨('\r' :: line).reverse, '\n', List.reverse_cons, by simp [hline]⟩
    · exact ih List.not_mem_nil h
  | case4 line c rest _ _ ih =>
    rcases List.mem_cons.mp h with rfl | h
    · exact ⟨line.reverse, c, List.reverse_cons, by simp [hline]⟩
    · exact ih List.not_mem_nil h
  | case5 line c rest _ hc ih =>
    refine ih (List.not_mem_cons_of_ne_of_not_mem ?_ hline) h
    rintro rfl
    exact hc rfl

/-- A text that ends with a newline, taken apart as it is broken into lines. -/
inductive Closed : List Char → Prop where
  | newline : Closed ['\n']
  | crlf : Closed ['\r', '\n']
  | skip {rest : List Char} (h : Closed rest) : Closed ('\r' :: '\n' :: rest)
  | step {c d : Char} {rest : List Char} (hcd : c = '\r' → d ≠ '\n') (h : Closed (d :: rest)) :
    Closed (c :: d :: rest)

/-- A text that ends with a newline is closed. -/
theorem closed_append_newline (init : List Char) : Closed (init ++ ['\n']) := by
  fun_induction strays init with
  | case1 => exact .newline
  | case2 rest ih => exact .skip ih
  | case3 c rest hcrlf ih =>
    cases rest with
    | nil =>
      by_cases hc : c = '\r'
      · exact hc ▸ .crlf
      · exact .step (fun h => absurd h hc) ih
    | cons d rest => exact .step (fun hc hd => hcrlf rest hc (hd ▸ rfl)) ih

/-- What stands behind a newline is broken by itself. -/
theorem Closed.breakLines_append (h : Closed before) (line rest : List Char) :
    breakLines line (before ++ rest) = breakLines line before ++ breakLines [] rest := by
  induction h generalizing line with
  | newline => exact breakLines_newline line rest
  | crlf => exact breakLines_crlf line rest
  | skip _ ih =>
    rw [List.cons_append, List.cons_append, breakLines_crlf, breakLines_crlf, ih, List.cons_append]
  | step hcd _ ih =>
    rw [List.cons_append, List.cons_append, breakLines_cons_cons hcd, breakLines_cons_cons hcd,
      ← List.cons_append, ih, ih]
    split <;> rfl

/-- Behind a newline strays are counted anew. -/
theorem Closed.strays_append (h : Closed before) (rest : List Char) :
    strays (before ++ rest) = strays before + strays rest := by
  induction h with
  | newline => exact (strays_newline rest).trans (Nat.zero_add _).symm
  | crlf => exact (Nat.zero_add _).symm
  | skip _ ih => exact ih
  | step hcd _ ih =>
    rw [List.cons_append, List.cons_append, strays_cons_cons hcd, strays_cons_cons hcd,
      ← List.cons_append, ih, Nat.add_assoc]

/-- A text that ends with a newline has a line for each of its breaks. -/
theorem Closed.length_breakLines (h : Closed before) (line : List Char) :
    (breakLines line before).length = before.count '\n' + strays before := by
  induction h generalizing line with
  | newline => rfl
  | crlf => rfl
  | skip _ ih =>
    rw [breakLines_crlf, List.length_cons, ih, strays, List.count_cons_of_ne (by decide),
      List.count_cons_self, Nat.add_right_comm]
  | @step c d rest hcd _ ih =>
    rw [strays_cons_cons hcd]
    by_cases hc : c = '\n'
    · subst hc
      rw [breakLines_newline, List.length_cons, ih, List.count_cons_self, if_neg (fun h => h.2 rfl)]
      omega
    · rw [breakLines_cons_cons hcd, List.count_cons_of_ne hc]
      by_cases hbreaks : breaksLine c = true
      · rw [if_pos hbreaks, List.length_cons, ih, if_pos ⟨hbreaks, hc⟩]
        omega
      · rw [if_neg hbreaks, ih, if_neg (fun h => hbreaks h.1), Nat.zero_add]

/-- Only strays break a line. -/
theorem le_length_of_breakLines {acc first : List Char} {others : List (List Char)}
    (hline : '\n' ∉ line) (hafter : after = [] ∨ ∃ rest, after = '\n' :: rest)
    (hstrays : strays (line ++ after) = 0) (h : breakLines acc (line ++ after) = first :: others) :
    acc.length + line.length ≤ first.length := by
  induction line generalizing acc with
  | nil =>
    rcases hafter with rfl | ⟨rest, rfl⟩
    · rw [List.append_nil, breakLines] at h
      split at h
      · cases h
      · obtain ⟨rfl, -⟩ := List.cons.inj h
        simp
    · rw [List.nil_append, breakLines_newline] at h
      obtain ⟨rfl, -⟩ := List.cons.inj h
      simp
  | cons c line ih =>
    rw [List.mem_cons, not_or] at hline
    rw [List.cons_append] at hstrays h
    rcases hrest : line ++ after with - | ⟨d, rest⟩
    · obtain ⟨rfl, rfl⟩ := List.append_eq_nil_iff.mp hrest
      rw [List.append_nil, breakLines_singleton] at h
      obtain ⟨rfl, -⟩ := List.cons.inj h
      simp
    · by_cases hcrlf : c = '\r' ∧ d = '\n'
      · obtain ⟨rfl, rfl⟩ := hcrlf
        rw [hrest, breakLines_crlf] at h
        obtain ⟨rfl, -⟩ := List.cons.inj h
        obtain rfl : line = [] := by
          rcases line with - | ⟨e, line⟩
          · rfl
          · obtain ⟨rfl, -⟩ := List.cons.inj hrest
            exact absurd List.mem_cons_self hline.2
        simp
      · have hd : c = '\r' → d ≠ '\n' := fun hc hd => hcrlf ⟨hc, hd⟩
        rw [hrest, strays_cons_cons hd, ← hrest] at hstrays
        have hc : ¬ breaksLine c = true := fun hc => by
          rw [if_pos ⟨hc, Ne.symm hline.1⟩] at hstrays
          omega
        rw [hrest, breakLines_cons_cons hd, if_neg hc, ← hrest] at h
        have hlength := ih hline.2 (by omega) h
        rw [List.length_cons] at hlength ⊢
        omega

/-! ## Source lines -/

theorem sourceLines_of_ne_nil (h : text ≠ []) : sourceLines text = breakLines [] text := by
  rw [sourceLines]
  split
  next hnil =>
    have hflatten := flatten_breakLines [] text
    rw [hnil] at hflatten
    exact absurd hflatten.symm h
  next => rfl

/-- Every text has a line, be it the empty one. -/
theorem sourceLines_ne_nil (text : List Char) : sourceLines text ≠ [] := by
  rw [sourceLines]
  split
  next => exact List.cons_ne_nil _ _
  next hne => exact hne

/-- The lines that the renderer knows make up the text. -/
theorem flatten_sourceLines (text : List Char) : (sourceLines text).flatten = text := by
  by_cases h : text = []
  · rw [h]
    rfl
  · rw [sourceLines_of_ne_nil h, flatten_breakLines]
    rfl

/-- The first line of a text. -/
def firstLine (text : List Char) : List Char := (sourceLines text).headD []

/-- The first line comes first. -/
theorem sourceLines_eq_cons (text : List Char) :
    ∃ rest, sourceLines text = firstLine text :: rest := by
  rw [firstLine]
  cases h : sourceLines text with
  | nil => exact absurd h (sourceLines_ne_nil text)
  | cons first rest => exact ⟨rest, rfl⟩

/-- A text that is not empty has characters in its first line. -/
theorem length_firstLine_pos (h : text ≠ []) : 0 < (firstLine text).length := by
  obtain ⟨rest, hrest⟩ := sourceLines_eq_cons text
  rw [sourceLines_of_ne_nil h] at hrest
  have hmem : firstLine text ∈ breakLines [] text := hrest ▸ List.mem_cons_self
  obtain ⟨init, c, hfirst, -⟩ := exists_of_mem_breakLines List.not_mem_nil hmem
  rw [hfirst, List.length_append, List.length_singleton]
  omega

theorem length_firstLine_le (text : List Char) : (firstLine text).length ≤ text.length := by
  obtain ⟨rest, hrest⟩ := sourceLines_eq_cons text
  have hflatten := congrArg List.length (flatten_sourceLines text)
  rw [hrest, List.flatten_cons, List.length_append] at hflatten
  omega

/-- The renderer's first line is no shorter than the one up to a newline, if nothing else breaks
lines. -/
theorem le_length_firstLine (hline : '\n' ∉ line)
    (hafter : after = [] ∨ ∃ rest, after = '\n' :: rest)
    (hstrays : strays (line ++ after) = 0) : line.length ≤ (firstLine (line ++ after)).length := by
  by_cases hne : line ++ after = []
  · rw [(List.append_eq_nil_iff.mp hne).1]
    exact Nat.zero_le _
  · obtain ⟨rest, hrest⟩ := sourceLines_eq_cons (line ++ after)
    rw [sourceLines_of_ne_nil hne] at hrest
    have hlength := le_length_of_breakLines hline hafter hstrays hrest
    rwa [List.length_nil, Nat.zero_add] at hlength

/-- Several lines are less than the text if there are others behind them. -/
theorem length_flatten_lt {pre post : List (List Char)} (h : sourceLines text = pre ++ post)
    (htext : text ≠ []) (hpost : post ≠ []) : pre.flatten.length < text.length := by
  obtain ⟨next, others, rfl⟩ := List.exists_cons_of_ne_nil hpost
  have hmem : next ∈ breakLines [] text := by
    rw [← sourceLines_of_ne_nil htext, h]
    exact List.mem_append_right pre List.mem_cons_self
  obtain ⟨init, c, rfl, -⟩ := exists_of_mem_breakLines List.not_mem_nil hmem
  have hflatten := congrArg List.length (flatten_sourceLines text)
  simp only [h, List.flatten_append, List.flatten_cons, List.length_append,
    List.length_singleton] at hflatten
  omega

/-- What stands behind a newline is broken into lines by itself. -/
theorem sourceLines_append (hbefore : before = [] ∨ ∃ init, before = init ++ ['\n'])
    (hrest : before = [] ∨ rest ≠ []) :
    sourceLines (before ++ rest) = breakLines [] before ++ sourceLines rest := by
  rcases hbefore with rfl | ⟨init, rfl⟩
  · rfl
  · have hne := hrest.resolve_left (by simp)
    rw [sourceLines_of_ne_nil (by simp), (closed_append_newline init).breakLines_append,
      ← sourceLines_of_ne_nil hne]

/-- How many lines there are in front of a line. -/
theorem length_breakLines_before (hbefore : before = [] ∨ ∃ init, before = init ++ ['\n']) :
    (breakLines [] before).length = before.count '\n' + strays before := by
  rcases hbefore with rfl | ⟨init, rfl⟩
  · rfl
  · exact (closed_append_newline init).length_breakLines []

/-- If nothing breaks a line of the text, the first line from there on is that line, with its
newline if there is one. -/
theorem firstLine_eq (hline : '\n' ∉ line) (hafter : after = [] ∨ ∃ rest, after = '\n' :: rest)
    (hlength : line.length ≤ (firstLine (line ++ after)).length) :
    firstLine (line ++ after) = line ∨ firstLine (line ++ after) = line ++ ['\n'] := by
  by_cases hne : line ++ after = []
  · obtain ⟨rfl, rfl⟩ := List.append_eq_nil_iff.mp hne
    exact .inl rfl
  obtain ⟨post, hpost⟩ := sourceLines_eq_cons (line ++ after)
  have hflatten := flatten_sourceLines (line ++ after)
  have hmem : firstLine (line ++ after) ∈ breakLines [] (line ++ after) := by
    rw [← sourceLines_of_ne_nil hne, hpost]
    exact List.mem_cons_self
  rw [hpost, List.flatten_cons] at hflatten
  generalize firstLine (line ++ after) = first at *
  rcases List.append_eq_append_iff.mp hflatten with ⟨gap, rfl, -⟩ | ⟨extra, rfl, hextra⟩
  · rw [List.length_append] at hlength
    obtain rfl : gap = [] := List.eq_nil_of_length_eq_zero (by omega)
    exact .inl (List.append_nil first).symm
  · rcases hafter with rfl | ⟨rest, rfl⟩
    · rw [(List.append_eq_nil_iff.mp hextra.symm).1]
      exact .inl (List.append_nil line)
    rcases extra with - | ⟨d, extra⟩
    · exact .inl (List.append_nil line)
    obtain ⟨rfl, -⟩ := List.cons.inj hextra
    -- the newline is the last character of the first line
    obtain ⟨init, c, hinit, hnewline⟩ := exists_of_mem_breakLines List.not_mem_nil hmem
    rcases List.eq_nil_or_concat extra with rfl | ⟨extra, e, rfl⟩
    · exact .inr rfl
    · rw [List.concat_eq_append, ← List.cons_append, ← List.append_assoc] at hinit
      rw [← (List.append_inj' hinit rfl).1] at hnewline
      exact absurd (List.mem_append_right line List.mem_cons_self) hnewline

/-! ## Positions -/

/-- A line, what stands around it, and a position that is in it. The last line has all positions
behind it also. -/
structure Holds (lines : List (List Char)) (position : Nat) (pre : List (List Char))
    (chars : List Char) (post : List (List Char)) : Prop where
  lines_eq : lines = pre ++ chars :: post
  start_le : pre.flatten.length ≤ position
  lt_stop : post ≠ [] → position < pre.flatten.length + chars.length

/-- Every position is in a line. -/
theorem exists_holds {lines : List (List Char)} (h : lines ≠ []) (position : Nat) :
    ∃ pre chars post, Holds lines position pre chars post := by
  induction lines generalizing position with
  | nil => exact absurd rfl h
  | cons first rest ih =>
    by_cases hstop : rest = [] ∨ position < first.length
    · refine ⟨[], first, rest, rfl, Nat.zero_le _, fun hne => ?_⟩
      simpa using hstop.resolve_left hne
    · obtain ⟨hne, hle⟩ := not_or.mp hstop
      obtain ⟨pre, chars, post, hlines, hstart, hlt⟩ := ih hne (position - first.length)
      refine ⟨first :: pre, chars, post, by rw [hlines]; rfl, ?_, fun hpost => ?_⟩
      · rw [List.flatten_cons, List.length_append]
        omega
      · have hrest := hlt hpost
        rw [List.flatten_cons, List.length_append]
        omega

/-- A position behind several lines is in one of the others. -/
theorem Holds.of_append {xs ys pre post : List (List Char)} {chars : List Char} {position : Nat}
    (h : Holds (xs ++ ys) position pre chars post) (hys : ys ≠ [])
    (hle : xs.flatten.length ≤ position) :
    ∃ others, pre = xs ++ others ∧ ys = others ++ chars :: post := by
  rcases List.append_eq_append_iff.mp h.lines_eq with ⟨others, hpre, hrest⟩ | ⟨others, rfl, hrest⟩
  · exact ⟨others, hpre, hrest⟩
  · rcases others with - | ⟨_, others⟩
    · exact ⟨[], by simp, by simpa using hrest.symm⟩
    · obtain ⟨rfl, rfl⟩ := List.cons.inj hrest
      have hlt := h.lt_stop (List.append_ne_nil_of_right_ne_nil others hys)
      simp only [List.flatten_append, List.flatten_cons, List.length_append] at hle
      omega

/-- The search for a position finds the line that holds it. -/
theorem lineFrom_eq {first : List Char} {rest pre post : List (List Char)} {chars : List Char}
    {position : Nat} (h : Holds (first :: rest) position pre chars post) (number offset : Nat) :
    lineFrom (offset + position) ⟨number, offset, first⟩ rest =
      ⟨number + pre.length, offset + pre.flatten.length, chars⟩ := by
  induction pre generalizing first rest position number offset with
  | nil =>
    obtain ⟨rfl, rfl⟩ := List.cons.inj h.lines_eq
    cases rest with
    | nil => rfl
    | cons next rest =>
      have hlt := h.lt_stop (List.cons_ne_nil _ _)
      rw [List.flatten_nil, List.length_nil, Nat.zero_add] at hlt
      rw [lineFrom, if_neg (by simp only; omega)]
      rfl
  | cons p pre ih =>
    have hstart := h.start_le
    have hlt := h.lt_stop
    obtain ⟨rfl, hlines⟩ : first = p ∧ rest = pre ++ chars :: post := List.cons.inj h.lines_eq
    rw [List.flatten_cons, List.length_append] at hstart hlt
    obtain ⟨next, others, hnext⟩ := List.exists_cons_of_ne_nil
      (List.append_ne_nil_of_right_ne_nil pre (List.cons_ne_nil chars post))
    have hrest : Holds (next :: others) (position - first.length) pre chars post :=
      ⟨hnext.symm, by omega, fun hne => by have hpost := hlt hne; omega⟩
    have hposition : offset + position = offset + first.length + (position - first.length) := by
      omega
    rw [hlines, hnext, lineFrom, if_pos (by simp only; omega), hposition, ih hrest,
      List.length_cons, List.flatten_cons, List.length_append, Nat.add_assoc number,
      Nat.add_comm 1, Nat.add_assoc offset]

/-- The line that holds a position is the one that is found there. -/
theorem Holds.lineAt_eq {position : Nat} {pre post : List (List Char)} {chars : List Char}
    (h : Holds (sourceLines text) position pre chars post) :
    lineAt position text = ⟨pre.length + 1, pre.flatten.length, chars⟩ := by
  obtain ⟨rest, hrest⟩ := sourceLines_eq_cons text
  rw [hrest] at h
  have hline := lineFrom_eq h 1 0
  rw [lineAt, hrest]
  rwa [Nat.zero_add, Nat.zero_add, Nat.add_comm 1] at hline

/-- A position behind the line that it is in is behind the text. -/
theorem lt_stop_lineAt (position : Nat) (text : List Char) :
    position < (lineAt position text).stop ∨ (lineAt position text).stop = text.length := by
  obtain ⟨pre, chars, post, h⟩ := exists_holds (sourceLines_ne_nil text) position
  rw [h.lineAt_eq, SourceLine.stop]
  by_cases hpost : post = []
  · have hflatten := congrArg List.length (flatten_sourceLines text)
    rw [h.lines_eq, hpost, List.flatten_append, List.flatten_singleton, List.length_append]
      at hflatten
    exact .inr hflatten
  · exact .inl (h.lt_stop hpost)

/-- A line is known by its number. -/
theorem lineAt_eq_of_number {p q : Nat} (h : (lineAt p text).number = (lineAt q text).number) :
    lineAt p text = lineAt q text := by
  obtain ⟨pre, chars, post, hp⟩ := exists_holds (sourceLines_ne_nil text) p
  obtain ⟨pre', chars', post', hq⟩ := exists_holds (sourceLines_ne_nil text) q
  rw [hp.lineAt_eq, hq.lineAt_eq] at h ⊢
  obtain ⟨rfl, hrest⟩ :=
    List.append_inj (hp.lines_eq.symm.trans hq.lines_eq) (Nat.succ.inj h)
  obtain ⟨rfl, -⟩ := List.cons.inj hrest
  rfl

end MiddleEnd.Report

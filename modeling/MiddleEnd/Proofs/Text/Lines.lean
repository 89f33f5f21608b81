import MiddleEnd.Text.Lines

/-!
# MiddleEnd.Proofs.Text.Lines

The table of lines undoes splitting at newlines (`Text.LineTable.ofText_inverts`): it has as many
lines as there are pieces, and the bytes of the text in the span of a line are those of its piece.

A line is a part of a text between newlines or an end of the text (`Text.IsLine`).  The table knows
where it stands (`Text.IsLine.line?_eq`), and it knows no other spans
(`Text.LineTable.line?_eq_some_iff`), so that everything else about spans can be read off the text
around a line.
-/

namespace MiddleEnd.Text

variable {text before line after : List Char} {n : Nat}

/-! ## Bytes -/

@[simp] theorem byteLength_nil : byteLength [] = 0 := rfl

@[simp] theorem byteLength_cons (c : Char) (text : List Char) :
    byteLength (c :: text) = c.utf8Size + byteLength text := rfl

@[simp] theorem byteLength_append (xs ys : List Char) :
    byteLength (xs ++ ys) = byteLength xs + byteLength ys := by
  induction xs with
  | nil => simp
  | cons c xs ih => simp [ih, Nat.add_assoc]

/-- Every character has a byte. -/
theorem length_le_byteLength (text : List Char) : text.length ≤ byteLength text := by
  induction text with
  | nil => simp
  | cons c text ih =>
    have hc := c.utf8Size_pos
    simp only [List.length_cons, byteLength_cons]
    omega

/-- The bytes of a text. -/
def bytes (source : String) : List UInt8 := source.toUTF8.data.toList

/-- The bytes of a text are those of its characters in a row. -/
theorem bytes_ofList (text : List Char) :
    bytes (String.ofList text) = text.flatMap String.utf8EncodeChar := by
  rw [bytes, String.toUTF8_eq_toByteArray, String.toByteArray_ofList, List.utf8Encode,
    List.data_toByteArray]

/-- A text has as many bytes as its characters take. -/
theorem length_flatMap_utf8EncodeChar (text : List Char) :
    (text.flatMap String.utf8EncodeChar).length = byteLength text := by
  induction text with
  | nil => rfl
  | cons c text ih => simp [ih]

/-- The length of a text in bytes is that of its characters. -/
theorem byteLength_toList (source : String) : byteLength source.toList = source.utf8ByteSize := by
  rw [← length_flatMap_utf8EncodeChar, ← bytes_ofList, String.ofList_toList]
  rfl

/-- The bytes of a character outside ASCII are none of a newline. -/
theorem notMem_utf8EncodeChar {c : Char} (hc : 127 < c.val.toNat) :
    (10 : UInt8) ∉ String.utf8EncodeChar c := by
  have hne : ∀ v : Nat, v % 256 ≠ 10 → (10 : UInt8) ≠ UInt8.ofNat v := fun v hv he => by
    have htoNat := congrArg UInt8.toNat he
    rw [UInt8.toNat_ofNat'] at htoNat
    exact hv htoNat.symm
  simp only [String.utf8EncodeChar, Nat.not_le.mpr hc, if_false]
  split
  · simp only [List.mem_cons, List.not_mem_nil, or_false, not_or]
    exact ⟨hne _ (by omega), hne _ (by omega)⟩
  · split
    · simp only [List.mem_cons, List.not_mem_nil, or_false, not_or]
      exact ⟨hne _ (by omega), hne _ (by omega), hne _ (by omega)⟩
    · simp only [List.mem_cons, List.not_mem_nil, or_false, not_or]
      exact ⟨hne _ (by omega), hne _ (by omega), hne _ (by omega), hne _ (by omega)⟩

/-- Only the newline has its byte. -/
theorem count_utf8EncodeChar (c : Char) :
    (String.utf8EncodeChar c).count 10 = if c = '\n' then 1 else 0 := by
  have hnewline : c = '\n' ↔ c.val.toNat = 10 := by
    rw [Char.ext_iff, ← UInt32.toNat_inj]
    rfl
  by_cases hc : c.val.toNat ≤ 127
  · have hbyte : UInt8.ofNat c.val.toNat = 10 ↔ c.val.toNat = 10 := by
      rw [← UInt8.toNat_inj, UInt8.toNat_ofNat', Nat.mod_eq_of_lt (by omega)]
      rfl
    simp only [String.utf8EncodeChar, hc, if_true, List.count_singleton, beq_iff_eq, hbyte,
      hnewline]
  · have hne : c ≠ '\n' := fun he => by
      have hten := hnewline.mp he
      omega
    rw [List.count_eq_zero_of_not_mem (notMem_utf8EncodeChar (Nat.not_le.mp hc)), if_neg hne]

/-- A text has as many newlines as newline bytes. -/
theorem count_bytes (source : String) : (bytes source).count 10 = source.toList.count '\n' := by
  have hall : ∀ text : List Char,
      (text.flatMap String.utf8EncodeChar).count 10 = text.count '\n' := fun text => by
    induction text with
    | nil => rfl
    | cons c text ih =>
      rw [List.flatMap_cons, List.count_append, ih, count_utf8EncodeChar, List.count_cons]
      simp [Nat.add_comm]
  rw [← hall, ← bytes_ofList, String.ofList_toList]

/-! ## Slices -/

theorem dropBytes_cons (c : Char) (k : Nat) (text : List Char) :
    dropBytes (c.utf8Size + k) (c :: text) = dropBytes k text := by
  obtain ⟨m, hm⟩ : ∃ m, c.utf8Size + k = m + 1 :=
    ⟨c.utf8Size + k - 1, by have hc := c.utf8Size_pos; omega⟩
  rw [hm, dropBytes, ← hm, Nat.add_sub_cancel_left]

theorem takeBytes_cons (c : Char) (k : Nat) (text : List Char) :
    takeBytes (c.utf8Size + k) (c :: text) = c :: takeBytes k text := by
  obtain ⟨m, hm⟩ : ∃ m, c.utf8Size + k = m + 1 :=
    ⟨c.utf8Size + k - 1, by have hc := c.utf8Size_pos; omega⟩
  rw [hm, takeBytes, ← hm, Nat.add_sub_cancel_left]

/-- Dropping as many bytes as a text has drops that text. -/
theorem dropBytes_append (xs ys : List Char) : dropBytes (byteLength xs) (xs ++ ys) = ys := by
  induction xs with
  | nil => cases ys <;> rfl
  | cons c xs ih => rw [byteLength_cons, List.cons_append, dropBytes_cons, ih]

/-- Taking as many bytes as a text has takes that text. -/
theorem takeBytes_append (xs ys : List Char) : takeBytes (byteLength xs) (xs ++ ys) = xs := by
  induction xs with
  | nil => cases ys <;> rfl
  | cons c xs ih => rw [byteLength_cons, List.cons_append, takeBytes_cons, ih]

/-! ## Offsets of lines -/

/-- The lines that start in a text are those that start in its two parts. -/
theorem startsFrom_append (offset : Nat) (xs ys : List Char) :
    startsFrom offset (xs ++ ys) =
      startsFrom offset xs ++ startsFrom (offset + byteLength xs) ys := by
  induction xs generalizing offset with
  | nil => rfl
  | cons c xs ih =>
    simp only [List.cons_append, startsFrom, ih, byteLength_cons, Nat.add_assoc]
    split <;> rfl

theorem startsFrom_newline (offset : Nat) (rest : List Char) :
    startsFrom offset ('\n' :: rest) = (offset + 1).toUInt32 :: startsFrom (offset + 1) rest := rfl

/-- There is an offset for each newline. -/
theorem length_startsFrom (offset : Nat) (text : List Char) :
    (startsFrom offset text).length = text.count '\n' := by
  induction text generalizing offset with
  | nil => rfl
  | cons c text ih =>
    rw [startsFrom, List.count_cons]
    by_cases hc : c = '\n'
    · simp [hc, ih]
    · simp [hc, ih]

/-- In a text without a newline no further line starts. -/
theorem startsFrom_of_notMem (offset : Nat) (h : '\n' ∉ line) : startsFrom offset line = [] := by
  rw [← List.length_eq_zero_iff, length_startsFrom, List.count_eq_zero_of_not_mem h]

/-- No line but the first starts at the beginning of the text. -/
theorem pos_of_mem_startsFrom {offset : Nat} {start : UInt32}
    (hsize : offset + byteLength text < UInt32.size) (h : start ∈ startsFrom offset text) :
    0 < start := by
  induction text generalizing offset with
  | nil => cases h
  | cons c text ih =>
    rw [byteLength_cons, ← Nat.add_assoc] at hsize
    have hrest := ih hsize
    rw [startsFrom] at h
    split at h
    · rcases List.mem_cons.mp h with rfl | h
      · have hc := c.utf8Size_pos
        rw [UInt32.lt_iff_toNat_lt, UInt32.toNat_ofNat_of_lt' (by omega)]
        exact Nat.lt_of_lt_of_le hc (Nat.le_add_left _ _)
      · exact hrest h
    · exact hrest h

/-! ## Lines -/

/-- A line of a text, counted from 1, and what stands around it. -/
structure IsLine (text : List Char) (n : Nat) (before line after : List Char) : Prop where
  text_eq : text = before ++ (line ++ after)
  number : n = before.count '\n' + 1
  /-- A newline stands in front of the line, unless the text begins with it. -/
  begins : before = [] ∨ ∃ init, before = init ++ ['\n']
  newline_notMem : '\n' ∉ line
  /-- A newline stands behind the line, unless the text ends with it. -/
  ends : after = [] ∨ ∃ rest, after = '\n' :: rest

/-- A text has a line for each number up to one more than it has newlines. -/
theorem exists_isLine (hpos : 1 ≤ n) (hn : n ≤ 1 + text.count '\n') :
    ∃ before line after, IsLine text n before line after := by
  induction text generalizing n with
  | nil =>
    obtain rfl : n = 1 := by simp at hn; omega
    exact ⟨[], [], [], rfl, rfl, .inl rfl, List.not_mem_nil, .inl rfl⟩
  | cons c text ih =>
    by_cases hc : c = '\n'
    · subst hc
      by_cases hone : n = 1
      · exact ⟨[], [], '\n' :: text, rfl, hone, .inl rfl, List.not_mem_nil, .inr ⟨text, rfl⟩⟩
      · rw [List.count_cons_self] at hn
        obtain ⟨before, line, after, h⟩ := ih (n := n - 1) (by omega) (by omega)
        refine ⟨'\n' :: before, line, after, by rw [h.text_eq]; rfl, ?_, .inr ?_,
          h.newline_notMem, h.ends⟩
        · have hnumber := h.number
          rw [List.count_cons_self]
          omega
        · rcases h.begins with rfl | ⟨init, rfl⟩
          · exact ⟨[], rfl⟩
          · exact ⟨'\n' :: init, rfl⟩
    · rw [List.count_cons_of_ne hc] at hn
      obtain ⟨before, line, after, h⟩ := ih hpos hn
      rcases h.begins with rfl | ⟨init, rfl⟩
      · refine ⟨[], c :: line, after, by rw [h.text_eq]; rfl, h.number, .inl rfl, ?_, h.ends⟩
        exact List.not_mem_cons_of_ne_of_not_mem (Ne.symm hc) h.newline_notMem
      · refine ⟨c :: (init ++ ['\n']), line, after, by rw [h.text_eq]; rfl, ?_,
          .inr ⟨c :: init, rfl⟩, h.newline_notMem, h.ends⟩
        rw [List.count_cons_of_ne hc, h.number]

/-! ## Pieces -/

/-- At a newline a text is split into what is before and behind it. -/
theorem splitOn_append_newline (xs ys : List Char) :
    (xs ++ '\n' :: ys).splitOn '\n' = xs.splitOn '\n' ++ ys.splitOn '\n' :=
  List.splitOnP_append_cons xs ys (p := (· == '\n')) rfl

theorem splitOn_of_notMem (h : '\n' ∉ line) : line.splitOn '\n' = [line] :=
  List.splitOnP_eq_singleton fun _ hc => beq_eq_false_iff_ne.mpr fun he => h (he ▸ hc)

/-- There is one line more than there are newlines. -/
theorem length_splitOn (text : List Char) : (text.splitOn '\n').length = text.count '\n' + 1 := by
  induction text with
  | nil => rfl
  | cons c text ih =>
    rw [List.splitOn_eq_splitOnP] at ih ⊢
    rw [List.splitOnP_cons_eq_if_modifyHead, List.count_cons]
    split
    · rw [List.length_cons, ih]
    · rw [List.length_modifyHead, ih]

namespace IsLine

variable (h : IsLine text n before line after)
include h

/-- A line and what stands around it make up the length of the text. -/
theorem byteLength_eq :
    byteLength text = byteLength before + (byteLength line + byteLength after) := by
  rw [h.text_eq, byteLength_append, byteLength_append]

/-- A line is a piece of the text between newlines. -/
theorem splitOn_eq : (text.splitOn '\n')[n - 1]? = some line := by
  have hfirst : ((line ++ after).splitOn '\n')[0]? = some line := by
    rcases h.ends with rfl | ⟨rest, rfl⟩
    · rw [List.append_nil, splitOn_of_notMem h.newline_notMem]
      rfl
    · rw [splitOn_append_newline, splitOn_of_notMem h.newline_notMem]
      rfl
  rw [h.number, Nat.add_sub_cancel, h.text_eq]
  rcases h.begins with rfl | ⟨init, rfl⟩
  · exact hfirst
  · rw [List.append_assoc, List.singleton_append, splitOn_append_newline, List.count_append,
      List.count_singleton_self, ← length_splitOn, List.getElem?_append_right (Nat.le_refl _),
      Nat.sub_self, hfirst]

/-- The bytes of a line. -/
theorem extract_bytes : ((text.flatMap String.utf8EncodeChar).drop (byteLength before)).take
    (byteLength line) = line.flatMap String.utf8EncodeChar := by
  rw [h.text_eq, List.flatMap_append, List.flatMap_append, ← length_flatMap_utf8EncodeChar before,
    List.drop_left, ← length_flatMap_utf8EncodeChar line, List.take_left]

/-- The offsets from that of the line on. -/
theorem drop_starts : (LineTable.ofText text).starts.drop (n - 1) =
    (byteLength before).toUInt32 :: startsFrom (byteLength before) (line ++ after) := by
  rw [h.number, Nat.add_sub_cancel, LineTable.ofText, h.text_eq, startsFrom_append, Nat.zero_add]
  rcases h.begins with rfl | ⟨init, rfl⟩
  · rfl
  · have hcount : (init ++ ['\n']).count '\n' = (startsFrom 0 init).length + 1 := by
      rw [List.count_append, List.count_singleton_self, length_startsFrom]
    have hinit : startsFrom 0 (init ++ ['\n']) =
        startsFrom 0 init ++ [(byteLength (init ++ ['\n'])).toUInt32] := by
      rw [startsFrom_append, startsFrom_newline, byteLength_append, Nat.zero_add]
      rfl
    rw [hcount, hinit, List.drop_succ_cons, List.append_assoc, List.drop_left]
    rfl

end IsLine

theorem eq_nil_of_count {extra : List Char}
    (hends : before ++ extra = [] ∨ ∃ init, before ++ extra = init ++ ['\n'])
    (hcount : extra.count '\n' = 0) : extra = [] := by
  rcases List.eq_nil_or_concat extra with rfl | ⟨front, c, rfl⟩
  · rfl
  · rcases hends with hnil | ⟨init, hinit⟩
    · simp at hnil
    · rw [List.concat_eq_append, ← List.append_assoc] at hinit
      obtain rfl := List.singleton_inj.mp (List.append_inj' hinit rfl).2
      simp at hcount

/-- A text has one line with a number, at one place. -/
theorem IsLine.unique {before' line' after' : List Char} (h : IsLine text n before line after)
    (h' : IsLine text n before' line' after') :
    before = before' ∧ line = line' ∧ after = after' := by
  have htext := h.text_eq.symm.trans h'.text_eq
  have hcount : before.count '\n' = before'.count '\n' :=
    Nat.succ_inj.mp (h.number.symm.trans h'.number)
  obtain rfl : line = line' := Option.some.inj (h.splitOn_eq.symm.trans h'.splitOn_eq)
  obtain rfl : before = before' := by
    rcases List.append_eq_append_iff.mp htext with ⟨extra, rfl, -⟩ | ⟨extra, rfl, -⟩
    · rw [List.count_append] at hcount
      rw [eq_nil_of_count h'.begins (by omega), List.append_nil]
    · rw [List.count_append] at hcount
      rw [eq_nil_of_count h.begins (by omega), List.append_nil]
  exact ⟨rfl, rfl, List.append_cancel_left (List.append_cancel_left htext)⟩

/-! ## Tables -/

theorem toNat_toUInt32 {k : Nat} (hk : k < UInt32.size) : k.toUInt32.toNat = k :=
  UInt32.toNat_ofNat_of_lt' hk

/-- What stands right in front of a line that is not the first one is a newline. -/
theorem toNat_sub_one {k : Nat} (hk : k + 1 < UInt32.size) : ((k + 1).toUInt32 - 1).toNat = k := by
  have hone : (1 : UInt32) ≤ (k + 1).toUInt32 := by
    rw [UInt32.le_iff_toNat_le, toNat_toUInt32 hk]
    exact Nat.le_add_left 1 k
  rw [UInt32.toNat_sub_of_le _ _ hone, toNat_toUInt32 hk]
  rfl

/-- The table knows where a line of the text stands. -/
theorem IsLine.line?_eq (h : IsLine text n before line after)
    (hsize : byteLength text < UInt32.size) :
    (LineTable.ofText text).line? n =
      some ⟨byteLength before, byteLength before + byteLength line⟩ := by
  have hlength := h.byteLength_eq
  have hdrop := h.drop_starts
  rw [startsFrom_append, startsFrom_of_notMem _ h.newline_notMem, List.nil_append] at hdrop
  obtain ⟨index, rfl⟩ : ∃ index, n = index + 1 := ⟨_, h.number⟩
  rw [Nat.add_sub_cancel] at hdrop
  rw [LineTable.line?, hdrop]
  rcases h.ends with rfl | ⟨rest, rfl⟩
  · rw [byteLength_nil, Nat.add_zero] at hlength
    simp (disch := omega) only [startsFrom, LineTable.ofText, toNat_toUInt32, hlength]
  · have hnewline : byteLength ('\n' :: rest) = 1 + byteLength rest := rfl
    simp (disch := omega) only [startsFrom_newline, toNat_toUInt32, toNat_sub_one]

namespace LineTable

variable {span : Span}

/-- The table knows no lines behind the last. -/
theorem line?_eq_none (h : 1 + text.count '\n' < n) : (ofText text).line? n = none := by
  obtain ⟨index, rfl⟩ : ∃ index, n = index + 1 := ⟨n - 1, by omega⟩
  have hdrop : (ofText text).starts.drop index = [] := by
    refine List.drop_eq_nil_of_le ?_
    rw [ofText, List.length_cons, length_startsFrom]
    omega
  rw [line?, hdrop]

/-- The table knows the span of a line only if there is such a line. -/
theorem le_of_line?_eq_some (h : (ofText text).line? n = some span) :
    1 ≤ n ∧ n ≤ 1 + text.count '\n' := by
  refine ⟨?_, Nat.not_lt.mp fun hn => ?_⟩
  · rcases n with - | n
    · cases h
    · exact Nat.le_add_left 1 n
  · rw [line?_eq_none hn] at h
    cases h

/-- A text has as many lines as the table knows. -/
theorem isSome_line?_iff (hsize : byteLength text < UInt32.size) :
    ((ofText text).line? n).isSome = true ↔ 1 ≤ n ∧ n ≤ 1 + text.count '\n' := by
  constructor
  · intro h
    obtain ⟨span, hspan⟩ := Option.isSome_iff_exists.mp h
    exact le_of_line?_eq_some hspan
  · rintro ⟨hpos, hn⟩
    obtain ⟨before, line, after, hline⟩ := exists_isLine hpos hn
    rw [hline.line?_eq hsize]
    rfl

/-- The spans that the table knows are those of the lines. -/
theorem line?_eq_some_iff (hsize : byteLength text < UInt32.size) :
    (ofText text).line? n = some span ↔ ∃ before line after, IsLine text n before line after ∧
      span = ⟨byteLength before, byteLength before + byteLength line⟩ := by
  constructor
  · intro h
    obtain ⟨hpos, hn⟩ := le_of_line?_eq_some h
    obtain ⟨before, line, after, hline⟩ := exists_isLine hpos hn
    exact ⟨before, line, after, hline, Option.some.inj (h.symm.trans (hline.line?_eq hsize))⟩
  · rintro ⟨before, line, after, hline, rfl⟩
    exact hline.line?_eq hsize

end LineTable

namespace IsLine

/-- A line that nothing follows is the last one. -/
theorem line?_succ_of_nil (h : IsLine text n before line []) :
    (LineTable.ofText text).line? (n + 1) = none := by
  refine LineTable.line?_eq_none ?_
  rw [h.text_eq, List.append_nil, List.count_append,
    List.count_eq_zero_of_not_mem h.newline_notMem, h.number]
  omega

/-- Behind a newline there is another line. -/
theorem exists_next {rest : List Char} (h : IsLine text n before line ('\n' :: rest)) :
    ∃ next after, IsLine text (n + 1) (before ++ line ++ ['\n']) next after := by
  obtain ⟨front, next, after, hnext⟩ : ∃ front next after, IsLine rest 1 front next after :=
    exists_isLine (Nat.le_refl 1) (Nat.le_add_right 1 _)
  have hfront : front = [] := by
    rcases hnext.begins with rfl | ⟨init, rfl⟩
    · rfl
    · have hnumber := hnext.number
      simp at hnumber
  refine ⟨next, after, ?_, ?_, .inr ⟨before ++ line, rfl⟩, hnext.newline_notMem, hnext.ends⟩
  · rw [h.text_eq, hnext.text_eq, hfront]
    simp
  · rw [h.number, List.count_append, List.count_append,
      List.count_eq_zero_of_not_mem h.newline_notMem, List.count_singleton_self]

theorem line?_succ_of_newline {rest : List Char} (h : IsLine text n before line ('\n' :: rest))
    (hsize : byteLength text < UInt32.size) : ∃ stop,
      (LineTable.ofText text).line? (n + 1) =
        some ⟨byteLength before + byteLength line + 1, stop⟩ := by
  obtain ⟨_, _, hnext⟩ := h.exists_next
  have hspan := hnext.line?_eq hsize
  rw [byteLength_append (before ++ line), byteLength_append] at hspan
  exact ⟨_, hspan⟩

/-- The bytes in the span of a line stand for it. -/
theorem slice_eq (h : IsLine text n before line after) :
    slice text ⟨byteLength before, byteLength before + byteLength line⟩ = line := by
  rw [slice, Nat.add_sub_cancel_left, h.text_eq, dropBytes_append, takeBytes_append]

end IsLine

namespace LineTable

/-- A table of lines undoes the splitting of a text at newlines. -/
structure Inverts (t : LineTable) (source : String) : Prop where
  /-- There is one line more than there are newlines. -/
  isSome_iff : ∀ n, (t.line? n).isSome = true ↔ 1 ≤ n ∧ n ≤ 1 + (bytes source).count 10
  /-- What stands in the span of a line is the piece of the text between two newlines. -/
  piece : ∀ n span, t.line? n = some span → span.start ≤ span.stop ∧
    span.stop ≤ source.utf8ByteSize ∧ ∃ line, (source.toList.splitOn '\n')[n - 1]? = some line ∧
      '\n' ∉ line ∧ slice source.toList span = line ∧
      ((bytes source).drop span.start).take (span.stop - span.start) = bytes (String.ofList line)
  /-- Between two lines there is one byte. -/
  adjacent : ∀ n span next, t.line? n = some span → t.line? (n + 1) = some next →
    next.start = span.stop + 1
  /-- The last line ends with the text. -/
  last : ∀ n span, t.line? n = some span → t.line? (n + 1) = none → span.stop = source.utf8ByteSize
  /-- The end of a line is one less than the start of the next one, which is not the beginning of
  the text. -/
  starts_pos : ∀ start ∈ t.starts.tail, 0 < start

/-- The lines of a text, looked up by their numbers, are its pieces between newlines. -/
theorem ofText_inverts (source : String) (hsize : source.utf8ByteSize < UInt32.size) :
    (ofText source.toList).Inverts source := by
  have hbytes : byteLength source.toList < UInt32.size := (byteLength_toList source).symm ▸ hsize
  -- every span is that of a line, and what follows the line is nothing or a newline
  refine ⟨fun n => ?count, fun n span h => ?piece, fun n span next h hnext => ?adjacent,
    fun n span h hnone => ?last, fun start hstart => ?positive⟩
  case count => rw [count_bytes, isSome_line?_iff hbytes]
  case piece =>
    obtain ⟨before, line, after, hline, rfl⟩ := (line?_eq_some_iff hbytes).mp h
    have hlength := hline.byteLength_eq
    have hslice := hline.extract_bytes
    rw [byteLength_toList] at hlength
    rw [← bytes_ofList, ← bytes_ofList, String.ofList_toList] at hslice
    refine ⟨Nat.le_add_right _ _, ?_, line, hline.splitOn_eq, hline.newline_notMem,
      hline.slice_eq, ?_⟩
    · rw [hlength, ← Nat.add_assoc]
      exact Nat.le_add_right _ _
    · rw [Nat.add_sub_cancel_left, hslice]
  case adjacent =>
    obtain ⟨before, line, after, hline, rfl⟩ := (line?_eq_some_iff hbytes).mp h
    rcases hline.ends with rfl | ⟨rest, rfl⟩
    · cases hline.line?_succ_of_nil.symm.trans hnext
    · obtain ⟨stop, hstop⟩ := hline.line?_succ_of_newline hbytes
      rw [← Option.some.inj (hstop.symm.trans hnext)]
  case last =>
    obtain ⟨before, line, after, hline, rfl⟩ := (line?_eq_some_iff hbytes).mp h
    rcases hline.ends with rfl | ⟨rest, rfl⟩
    · rw [← byteLength_toList, hline.byteLength_eq, byteLength_nil, Nat.add_zero]
    · obtain ⟨stop, hstop⟩ := hline.line?_succ_of_newline hbytes
      cases hstop.symm.trans hnone
  case positive => exact pos_of_mem_startsFrom (by rwa [Nat.zero_add]) hstart

/-- A text whose lines are a letter of two bytes, nothing, another letter, and nothing. -/
theorem ofText_inverts_accented :
    "é\n\nx\n".utf8ByteSize < UInt32.size ∧ (ofText "é\n\nx\n".toList).Inverts "é\n\nx\n" ∧
    (ofText "é\n\nx\n".toList).line? 2 = some ⟨3, 3⟩ ∧
    (ofText "é\n\nx\n".toList).line? 3 = some ⟨4, 5⟩ :=
  ⟨by decide, ofText_inverts _ (by decide), by decide +kernel, by decide +kernel⟩

end LineTable

end MiddleEnd.Text

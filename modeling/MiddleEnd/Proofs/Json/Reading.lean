import MiddleEnd.Proofs.Json.Numerals

/-!
# MiddleEnd.Proofs.Json.Reading

Every text that is JSON is read as the document that it stands for (`Json.readDocument_spelled`).

The tokens stand between the two halves of reading.  A phrase is cut into tokens, whatever follows
it, and the fold over tokens takes these for what the phrase stands for (`Phrase.Taken`).  Both
halves go by one induction on the grammar.
-/

namespace MiddleEnd.Json

/-- The tokens of something that may stand first in an array. -/
def OpensItem (ts : List Token) : Prop := ∃ t rest, ts = t :: rest ∧ t ≠ .closeArray

/-- The tokens of something that may stand first in an object. -/
def OpensMember (ts : List Token) : Prop := ∃ name rest, ts = .text name :: rest

/-- Where a phrase may come, its tokens are taken for what it stands for. -/
def Phrase.Fed (ts : List Token) : Phrase → Prop
  | .value d | .padded d => OpensItem ts ∧
    ∀ frames, ts.foldl Reader.feed (.value frames) = .separator d frames
  | .key name => ts = [.text name]
  | .items ds => OpensItem ts ∧ ∀ done frames,
    (ts ++ [Token.closeArray]).foldl Reader.feed (.value (.array done :: frames)) =
      .separator (.arr (done.reverse ++ ds) none) frames
  | .members ms => OpensMember ts ∧ ∀ done frames,
    (ts ++ [Token.closeObject]).foldl Reader.feed (.key done frames) =
      .separator (.obj (done.reverse ++ ms) none) frames

/-- A written phrase is cut into tokens that are taken for what it stands for. -/
structure Phrase.Taken (phrase : Phrase) (cs : List Char) (ts : List Token) : Prop where
  cut : ∀ rest, EndsNumber rest →
    tokensFrom .between (cs ++ rest) = ts ++ tokensFrom .between rest
  fed : phrase.Fed ts

namespace OpensItem

variable {ts : List Token}

theorem append (h : OpensItem ts) (rest : List Token) : OpensItem (ts ++ rest) := by
  obtain ⟨t, tail, rfl, ht⟩ := h
  exact ⟨t, tail ++ rest, rfl, ht⟩

/-- Behind an array's bracket a first item may come as behind a comma. -/
theorem foldl_firstItem (h : OpensItem ts) (frames : List Frame) :
    ts.foldl Reader.feed (.firstItem frames) =
      ts.foldl Reader.feed (.value (.array [] :: frames)) := by
  obtain ⟨t, tail, rfl, ht⟩ := h
  have hfirst : Reader.feed (.firstItem frames) t =
      Reader.feed (.value (.array [] :: frames)) t := by
    cases t <;> first | rfl | exact absurd rfl ht
  rw [List.foldl_cons, hfirst, List.foldl_cons]

end OpensItem

namespace OpensMember

variable {ts : List Token}

theorem append (h : OpensMember ts) (rest : List Token) : OpensMember (ts ++ rest) := by
  obtain ⟨name, tail, rfl⟩ := h
  exact ⟨name, tail ++ rest, rfl⟩

/-- Behind an object's brace a first name may come as behind a comma. -/
theorem foldl_firstKey (h : OpensMember ts) (frames : List Frame) :
    ts.foldl Reader.feed (.firstKey frames) = ts.foldl Reader.feed (.key [] frames) := by
  obtain ⟨name, tail, rfl⟩ := h
  rfl

end OpensMember

/-- A token that is a value by itself. -/
theorem fed_leaf {t : Token} {d : Document} (ht : Reader.leaf? t = some d) (hd : d.skip = none) :
    (Phrase.value d).Fed [t] := by
  refine ⟨⟨t, [], rfl, by rintro rfl; cases ht⟩, fun frames => ?_⟩
  have hafter : Reader.after d frames = .separator d frames := by
    cases d with
    | wreck w => simp [Reader.after, show w.skip = none from hd]
    | _ => rfl
  cases t <;> first | cases ht; exact hafter | cases ht

section

variable {ts rest : List Token} {d : Document} {ds : List Document} {name : String}
  {ms : List (Document × Document)}

/-- An array is read from the tokens of its items between brackets. -/
theorem fed_arr (h : (Phrase.items ds).Fed ts) :
    (Phrase.value (.arr ds none)).Fed (.openArray :: ts ++ [.closeArray]) := by
  refine ⟨⟨_, _, rfl, nofun⟩, fun frames => ?_⟩
  exact ((h.1.append _).foldl_firstItem frames).trans (h.2 [] frames)

/-- An object is read from the tokens of its members between braces. -/
theorem fed_obj (h : (Phrase.members ms).Fed ts) :
    (Phrase.value (.obj ms none)).Fed (.openObject :: ts ++ [.closeObject]) := by
  refine ⟨⟨_, _, rfl, nofun⟩, fun frames => ?_⟩
  exact ((h.1.append _).foldl_firstKey frames).trans (h.2 [] frames)

/-- The last item is closed with its array. -/
theorem fed_lastItem (h : (Phrase.padded d).Fed ts) : (Phrase.items [d]).Fed ts := by
  refine ⟨h.1, fun done frames => ?_⟩
  rw [List.foldl_append, h.2]
  rfl

/-- What is read behind the comma has one more item before it. -/
theorem fed_item (h : (Phrase.padded d).Fed ts) (hrest : (Phrase.items ds).Fed rest) :
    (Phrase.items (d :: ds)).Fed (ts ++ .comma :: rest) := by
  refine ⟨h.1.append _, fun done frames => ?_⟩
  rw [List.append_assoc, List.foldl_append, h.2]
  refine (hrest.2 (d :: done) frames).trans ?_
  rw [List.reverse_cons, List.append_assoc]
  rfl

/-- A name and a value are read into the object that is open. -/
theorem foldl_member (h : (Phrase.padded d).Fed ts) (name : String)
    (done : List (Document × Document)) (frames : List Frame) :
    (.text name :: .colon :: ts).foldl Reader.feed (.key done frames) =
      .separator d (.object done (.text name) :: frames) :=
  h.2 (.object done (.text name) :: frames)

theorem fed_lastMember (h : (Phrase.padded d).Fed ts) :
    (Phrase.members [(.text name, d)]).Fed (.text name :: .colon :: ts) := by
  refine ⟨⟨_, _, rfl⟩, fun done frames => ?_⟩
  rw [List.foldl_append, foldl_member h]
  rfl

/-- What is read behind the comma has one more member before it. -/
theorem fed_member (h : (Phrase.padded d).Fed ts) (hrest : (Phrase.members ms).Fed rest) :
    (Phrase.members ((.text name, d) :: ms)).Fed
      (.text name :: .colon :: ts ++ .comma :: rest) := by
  refine ⟨⟨_, _, rfl⟩, fun done frames => ?_⟩
  rw [List.append_assoc, List.foldl_append, foldl_member h]
  refine (hrest.2 ((.text name, d) :: done) frames).trans ?_
  rw [List.reverse_cons, List.append_assoc]
  rfl

end

/-- Every phrase is taken for what it stands for. -/
theorem Spells.exists_taken {phrase : Phrase} {cs : List Char} (h : Spells phrase cs) :
    ∃ ts, phrase.Taken cs ts := by
  induction h with
  | null => exact ⟨[.null], fun _ _ => tokensFrom_null _, fed_leaf rfl rfl⟩
  | bool b => exact ⟨[.bool b], fun _ _ => tokensFrom_bool _ b, fed_leaf rfl rfl⟩
  | @number cs hcs =>
    obtain ⟨t, ht, hcut⟩ := tokensFrom_number hcs
    exact ⟨[t], fun _ hrest => hcut hrest, fed_leaf ht (Spells.number hcs).sound⟩
  | @text s cs hcs => exact ⟨[.text s], fun rest _ => tokensFrom_text rest hcs, fed_leaf rfl rfl⟩
  | emptyArr hblanks =>
    refine ⟨[.openArray, .closeArray], fun rest _ => ?_, ⟨_, _, rfl, nofun⟩, fun _ => rfl⟩
    simp [tokensFrom_blanks _ hblanks]
  | arr _ ih =>
    obtain ⟨ts, hcut, hfed⟩ := ih
    refine ⟨.openArray :: ts ++ [.closeArray], fun rest _ => ?_, fed_arr hfed⟩
    simp [hcut _ (.closeArray rest)]
  | emptyObj hblanks =>
    refine ⟨[.openObject, .closeObject], fun rest _ => ?_, ⟨_, _, rfl, nofun⟩, fun _ => rfl⟩
    simp [tokensFrom_blanks _ hblanks]
  | obj _ ih =>
    obtain ⟨ts, hcut, hfed⟩ := ih
    refine ⟨.openObject :: ts ++ [.closeObject], fun rest _ => ?_, fed_obj hfed⟩
    simp [hcut _ (.closeObject rest)]
  | padded hbefore _ hafter ih =>
    obtain ⟨ts, hcut, hfed⟩ := ih
    refine ⟨ts, fun rest hrest => ?_, hfed⟩
    simp only [List.append_assoc]
    rw [tokensFrom_blanks _ hbefore, hcut _ (hrest.blanks hafter), tokensFrom_blanks _ hafter]
  | @key name _ _ _ hbefore hcs hafter =>
    refine ⟨[.text name], fun rest _ => ?_, rfl⟩
    simp only [List.append_assoc]
    rw [tokensFrom_blanks _ hbefore, tokensFrom_text _ hcs, tokensFrom_blanks _ hafter]
    rfl
  | lastItem _ ih =>
    obtain ⟨ts, hcut, hfed⟩ := ih
    exact ⟨ts, hcut, fed_lastItem hfed⟩
  | item _ _ ih ihrest =>
    obtain ⟨ts, hcut, hfed⟩ := ih
    obtain ⟨ts', hcut', hfed'⟩ := ihrest
    refine ⟨ts ++ .comma :: ts', fun rest hrest => ?_, fed_item hfed hfed'⟩
    simp [hcut _ (.comma _), hcut' _ hrest]
  | @lastMember name _ _ _ _ _ ihkey ih =>
    obtain ⟨_, hkey, rfl⟩ := ihkey
    obtain ⟨ts, hcut, hfed⟩ := ih
    refine ⟨.text name :: .colon :: ts, fun rest hrest => ?_, fed_lastMember hfed⟩
    simp [hkey _ (.colon _), hcut _ hrest]
  | @member name _ _ _ _ _ _ _ _ ihkey ih ihrest =>
    obtain ⟨_, hkey, rfl⟩ := ihkey
    obtain ⟨ts, hcut, hfed⟩ := ih
    obtain ⟨ts', hcut', hfed'⟩ := ihrest
    refine ⟨.text name :: .colon :: ts ++ .comma :: ts', fun rest hrest => ?_,
      fed_member hfed hfed'⟩
    simp [hkey _ (.colon _), hcut _ (.comma _), hcut' _ hrest]

/-- A text that is JSON is read as the document that it stands for, and nothing stands behind it. -/
theorem readDocument_spelled {d : Document} {text : String} (h : Spelled d text) :
    readDocument text = (d, false) := by
  obtain ⟨ts, hcut, -, hfed⟩ := h.exists_taken
  have htokens : tokens text.toList = ts := by
    rw [tokens_eq, ← List.append_nil text.toList, hcut [] .nil]
    exact List.append_nil _
  rw [readDocument, htokens, hfed]
  rfl

end MiddleEnd.Json

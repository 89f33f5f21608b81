import MiddleEnd.Dump.Read
import MiddleEnd.Proofs.Dump.Varies

/-!
# MiddleEnd.Proofs.Dump.Reads

The laws of readers.  Each says what a reader makes of a document that varies from what an encoder
wrote (`Inverts`), so that the law of a record or of a choice is put together from those of its
parts.

A record is read from an object if each of its fields is (`Fields.Reads`), wherever the members
stand and whatever else is among them (`readRecord_varied`).
-/

namespace MiddleEnd.Dump

open Json (Document)

@[simp] theorem ok_bind {ε α β : Type} (a : α) (f : α → Except ε β) : (Except.ok a >>= f) = f a :=
  rfl

/-- A reader gives back what an encoder was given, from every document that varies from it. -/
def Inverts {α : Type} (read : Read α) (encode : α → Json) (s : Schema) : Prop :=
  ∀ a d, Varied s (encode a) d → read d = .ok a

/-! ## Single values -/

/-- A whole number is read back where it is in range. -/
theorem readWhole_document {low high n : Int} (expected : String) (hlow : low ≤ n)
    (hhigh : n ≤ high) :
    readWhole low high expected (Json.int n).document = .ok n := by
  rw [Json.document, readWhole, if_pos (by simp [hlow, hhigh])]

namespace Inverts

variable {α : Type} {read : Read α} {encode : α → Json} {s : Schema}

/-- There is only one way to lay out a plain value. -/
theorem plain (h : ∀ a, read (encode a).document = .ok a) : Inverts read encode .plain :=
  fun a _ hd => hd.plain ▸ h a

/-- A list is read item by item. -/
theorem list (h : Inverts read encode s) : Inverts (readList read) (array encode) (.list s) := by
  intro items d hd
  obtain ⟨docs, rfl, hdocs⟩ := hd.list
  have hitems : docs.mapM read = .ok items := by
    clear hd
    induction items generalizing docs with
    | nil => cases hdocs; rfl
    | cons a items ih =>
      obtain _ | ⟨hitem, hrest⟩ := hdocs
      rw [List.mapM_cons, h a _ hitem, ih _ hrest]
      rfl
  rw [readList, hitems]
  rfl

/-- What is absent is not read as something, and what is there is not taken for nothing. -/
theorem optional (h : Inverts read encode s) (hnull : ∀ a, encode a ≠ .null) :
    Inverts (readOptional read) (orNull encode) s
  | none, d, hd => by
    obtain rfl := hd.null
    rfl
  | some a, d, hd => by
    obtain ⟨hne, hwreck⟩ := hd.ne_null (hnull a)
    have hread : read d = .ok a := h a d hd
    unfold readOptional
    split
    · exact absurd rfl hne
    · exact absurd rfl (hwreck _)
    · rw [hread]
      rfl

end Inverts

/-! ## Records -/

/-- A record is read from the documents that are known of its fields: it is made from them, and each
of them is a value of its field. -/
structure Fields.Reads {α : Type} (shape : Fields α) (known : String → Option Document) (a : α) :
    Prop where
  make : ∀ found, (∀ field ∈ shape.fields, found field.name = known field.name) →
    shape.make found = .ok a
  check : ∀ field ∈ shape.fields, ∀ doc, known field.name = some doc → field.check doc = .ok ()

namespace Fields.Reads

section

variable {α β : Type} {known : String → Option Document} {read : Read α} {name : String} {a : α}

/-- What two shapes read from one record can be put together. -/
theorem seq {shape : Fields (α → β)} {arg : Fields α} {f : α → β} (hf : shape.Reads known f)
    (ha : arg.Reads known a) : (shape <*> arg).Reads known (f a) where
  make found hfound := by
    have hshape : shape.make found = .ok f :=
      hf.make found fun field hmem => hfound field (List.mem_append_left _ hmem)
    have harg : arg.make found = .ok a :=
      ha.make found fun field hmem => hfound field (List.mem_append_right _ hmem)
    show (do let f ← shape.make found; let a ← arg.make found; return f a) = _
    rw [hshape, harg]
    rfl
  check field hmem := (List.mem_append.mp hmem).elim (hf.check field) (ha.check field)

/-- A function of what is read is read as well. -/
theorem map {arg : Fields α} (f : α → β) (ha : arg.Reads known a) : (f <$> arg).Reads known (f a) :=
  have hpure : (Fields.pure f).Reads known f := ⟨fun _ _ => rfl, fun _ hmem => by cases hmem⟩
  hpure.seq ha

/-- A field that has to be there is read from its document. -/
theorem of_present {d : Document} (hknown : known name = some d) (hread : read d = .ok a) :
    (Fields.required name read).Reads known a where
  make found hagrees := by
    have hdoc : found name = some d := (hagrees _ List.mem_cons_self).trans hknown
    simp only [Fields.required, hdoc]
    exact hread
  check := by
    rintro field (_ | ⟨_, ⟨⟩⟩) doc hdoc
    obtain rfl : d = doc := Option.some.inj (hknown.symm.trans hdoc)
    show (read d).map _ = _
    rw [hread]
    rfl

/-- A field that may be left out is read as its default then. -/
theorem of_default {value : α} {inArray : Bool} (hread : ∀ d, known name = some d → read d = .ok a)
    (hvalue : known name = none → a = value) :
    (Fields.defaulted name read value inArray).Reads known a where
  make found hagrees := by
    have hdoc : found name = known name := hagrees _ List.mem_cons_self
    simp only [Fields.defaulted, hdoc]
    cases hknown : known name with
    | none => rw [hvalue hknown]
    | some d => exact hread d hknown
  check := by
    rintro field (_ | ⟨_, ⟨⟩⟩) doc hdoc
    show (read doc).map _ = _
    rw [hread doc hdoc]
    rfl

end

section

variable {α : Type} {fields : List (String × Schema)} {members : List (String × Json)}
  {known : String → Option Document} {read : Read α} {encode : α → Json} {s : Schema}
  {name : String}

/-- A field that must be there is never left out. -/
theorem required (hk : Known fields members known) (hread : Inverts read encode s) {a : α}
    (hfield : fields.lookup name = some s) (hmember : members.lookup name = some (encode a))
    (hname : name ∉ "removed" :: nullable) : (Fields.required name read).Reads known a := by
  rw [List.mem_cons, not_or] at hname
  cases hknown : known name with
  | none =>
    obtain ⟨hmem, _⟩ | ⟨hremoved, _⟩ := hk.deleted hfield hmember hknown
    · exact absurd hmem hname.2
    · exact absurd hremoved hname.1
  | some d => exact of_present hknown (hread a d (hk.kept hfield hmember hknown))

/-- A field is left out only if it says what is read in its place. -/
theorem defaulted (hk : Known fields members known) (hread : Inverts read encode s) {a value : α}
    {inArray : Bool} (hfield : fields.lookup name = some s)
    (hmember : members.lookup name = some (encode a))
    (hvalue : Deletable name (encode a) → a = value) :
    (Fields.defaulted name read value inArray).Reads known a :=
  of_default (fun d hknown => hread a d (hk.kept hfield hmember hknown)) fun hknown =>
    hvalue (hk.deleted hfield hmember hknown)

/-- A field that may be absent. -/
theorem nullable (hk : Known fields members known) (hread : Inverts read encode s)
    (hnull : ∀ a, encode a ≠ .null) {o : Option α} {inArray : Bool}
    (hfield : fields.lookup name = some s) (hmember : members.lookup name = some (orNull encode o))
    (hname : name ≠ "removed") :
    (Fields.defaulted name (readOptional read) none inArray).Reads known o :=
  defaulted hk (hread.optional hnull) hfield hmember fun hdeletable => by
    obtain ⟨_, hj⟩ | ⟨hremoved, _⟩ := hdeletable
    · cases o with
      | none => rfl
      | some a => exact absurd hj (hnull a)
    · exact absurd hremoved hname

/-- A field that was not written. -/
theorem omitted (hk : Known fields members known) {value : α} {inArray : Bool}
    (hfield : fields.lookup name = some s) (hmember : members.lookup name = none) :
    (Fields.defaulted name read value inArray).Reads known value :=
  of_default (fun d hknown => by rw [hk.absent hfield hmember] at hknown; cases hknown) fun _ => rfl

end

end Fields.Reads

/-- Whether a name is that of a field. -/
def isField (fields : List Field) (name : String) : Bool := fields.any (·.name = name)

section

variable {fields : List Field} {found : List (String × Document)} {key : String} {value : Document}
  {rest : List (Document × Document)}

/-- A member that is not known is passed over. -/
theorem readMembers_unknown (hkey : isField fields key = false) (hskip : value.skip = none) :
    readMembers fields found ((.text key, value) :: rest) = readMembers fields found rest := by
  have hfind : fields.find? (·.name = key) = none := by simpa [isField] using hkey
  simp only [readMembers, readKey, ok_bind, hfind, hskip, undamaged]

/-- A member that is known, and not found before, is found. -/
theorem readMembers_known (hkey : isField fields key = true) (hnew : found.lookup key = none)
    (hcheck : ∀ field ∈ fields, field.name = key → field.check value = .ok ()) :
    readMembers fields found ((.text key, value) :: rest) =
      readMembers fields ((key, value) :: found) rest := by
  cases hfind : fields.find? (·.name = key) with
  | none =>
    have hunknown : isField fields key = false := by simpa [isField] using hfind
    rw [hunknown] at hkey
    cases hkey
  | some field =>
    have hvalue : field.check value = .ok () :=
      hcheck field (List.mem_of_find?_eq_some hfind) (by simpa using List.find?_some hfind)
    simp only [readMembers, readKey, ok_bind, hfind, hnew, hvalue]
    rfl

end

/-- Members of which none stands for a field twice are found as they are. -/
theorem readMembers_document {fields : List Field} : ∀ {all : List (String × Document)}
    (found : List (String × Document)),
    ((all.map Prod.fst).filter (isField fields)).Nodup →
    (∀ member ∈ all, isField fields member.1 = true → found.lookup member.1 = none) →
    (∀ member ∈ all, member.2.skip = none) →
    (∀ field ∈ fields, ∀ doc, all.lookup field.name = some doc → field.check doc = .ok ()) →
    ∃ found',
      readMembers fields found (all.map fun member => (.text member.1, member.2)) = .ok found' ∧
      ∀ field ∈ fields, found'.lookup field.name =
        (found.lookup field.name).or (all.lookup field.name)
  | [], found, _, _, _, _ => ⟨found, rfl, fun field _ => by simp⟩
  | (key, value) :: all, found, hnodup, hnew, hskip, hcheck => by
    obtain ⟨hvalue, hskip⟩ := List.forall_mem_cons.mp hskip
    have hother : ∀ {name}, name ≠ key → ((key, value) :: all).lookup name = all.lookup name := by
      intro name hne
      rw [List.lookup_cons, beq_eq_false_iff_ne.mpr hne]
    cases hkey : isField fields key with
    | false =>
      have hne : ∀ field ∈ fields, field.name ≠ key := by simpa [isField] using hkey
      obtain ⟨found', hread, hfound'⟩ := readMembers_document found (by simpa [hkey] using hnodup)
        (List.forall_mem_cons.mp hnew).2 hskip fun field hmem doc hdoc =>
          hcheck field hmem doc (by rwa [hother (hne field hmem)])
      refine ⟨found', (readMembers_unknown hkey hvalue).trans hread, fun field hmem => ?_⟩
      rw [hfound' field hmem, hother (hne field hmem)]
    | true =>
      have hlookup : found.lookup key = none := hnew _ List.mem_cons_self hkey
      rw [List.map_cons, List.filter_cons_of_pos hkey, List.nodup_cons] at hnodup
      obtain ⟨hnot, hnodup⟩ := hnodup
      -- the rest holds no second member of this name
      have hsecond : ∀ member ∈ all, member.1 ≠ key := by
        rintro member hmem rfl
        exact hnot (List.mem_filter.mpr ⟨List.mem_map_of_mem hmem, hkey⟩)
      have hnone : all.lookup key = none :=
        List.lookup_eq_none_iff.mpr fun member hmem => bne_iff_ne.mpr (hsecond member hmem).symm
      obtain ⟨found', hread, hfound'⟩ := readMembers_document ((key, value) :: found) hnodup
        (fun member hmem hfield => by
          rw [List.lookup_cons, beq_eq_false_iff_ne.mpr (hsecond member hmem)]
          exact hnew member (List.mem_cons_of_mem _ hmem) hfield)
        hskip fun field hmem doc hdoc => by
          have hne : field.name ≠ key := fun he => by rw [he, hnone] at hdoc; cases hdoc
          exact hcheck field hmem doc (by rwa [hother hne])
      refine ⟨found', (readMembers_known hkey hlookup ?_).trans hread, fun field hmem => ?_⟩
      · rintro field hmem rfl
        exact hcheck field hmem value (by simp)
      · rw [hfound' field hmem, List.lookup_cons]
        by_cases hne : field.name = key
        · simp [hne, hlookup]
        · rw [beq_eq_false_iff_ne.mpr hne, hother hne]

/-- A record is read from an object that varies from what was written. -/
theorem readRecord_varied {α : Type} {shape : Fields α} {fields : List (String × Schema)}
    {members : List (String × Json)} {a : α} {d : Document} (name : String)
    (hfields : shape.fields.map Field.name = fields.map Prod.fst)
    (hnodup : (members.map Prod.fst).Nodup) (hd : Varied (.record fields) (.obj members) d)
    (hreads : ∀ known, Known fields members known → shape.Reads known a) :
    readRecord name shape d = .ok a := by
  obtain ⟨all, rfl, hskip, hnodup', hknown⟩ := hd.record hnodup
  have hshape := hreads _ hknown
  have hfield : isField shape.fields = fun name => decide (name ∈ fields.map Prod.fst) := by
    funext name
    rw [← hfields, Bool.eq_iff_iff]
    simp [isField]
  obtain ⟨found, hfound, hlookup⟩ :=
    readMembers_document [] (hfield ▸ hnodup') (fun _ _ _ => rfl) hskip
    hshape.check
  have hmake : shape.make (found.lookup ·) = .ok a :=
    hshape.make _ fun field hmem => by simpa using hlookup field hmem
  rw [object, readRecord, hfound]
  exact hmake

/-! ## Choices -/

section

variable {α : Type} {variants : List (Variant α)} {choice name : String} {a : α}
  {alternatives : List (String × Schema)} {s : Schema} {j : Json} {d : Document}

/-- A choice is read from an object with one member, which is named for the alternative. -/
theorem readChoice_varied {v : Variant α} (hd : Varied (.choice alternatives) (.obj [(name, j)]) d)
    (hname : alternatives.lookup name = some s) (hfind : variants.find? (·.name = name) = some v)
    (hread : ∀ d', Varied s j d' → readPayload choice v d' = .ok a) :
    readChoice choice variants d = .ok a := by
  obtain ⟨d', rfl, hd'⟩ := hd.choice hname
  simp only [object, List.map_cons, readChoice, readKey, findVariant, ok_bind, hfind, hread d' hd']
  rfl

/-- An alternative that carries a value. -/
theorem readChoice_value {read : Read α} (hd : Varied (.choice alternatives) (.obj [(name, j)]) d)
    (hname : alternatives.lookup name = some s)
    (hfind : variants.find? (·.name = name) = some ⟨name, .value read⟩)
    (hread : ∀ d', Varied s j d' → read d' = .ok a) : readChoice choice variants d = .ok a :=
  readChoice_varied hd hname hfind hread

/-- An alternative that carries a record. -/
theorem readChoice_record {fields : List (String × Schema)} {members : List (String × Json)}
    {shape : Fields α} (hd : Varied (.choice alternatives) (.obj [(name, .obj members)]) d)
    (hname : alternatives.lookup name = some (.record fields))
    (hfind : variants.find? (·.name = name) = some ⟨name, .record shape⟩)
    (hfields : shape.fields.map Field.name = fields.map Prod.fst)
    (hnodup : (members.map Prod.fst).Nodup)
    (hreads : ∀ known, Known fields members known → shape.Reads known a) :
    readChoice choice variants d = .ok a :=
  readChoice_varied hd hname hfind fun _ hd' =>
    readRecord_varied ("struct variant " ++ choice ++ "::" ++ name) hfields hnodup hd' hreads

end

end MiddleEnd.Dump

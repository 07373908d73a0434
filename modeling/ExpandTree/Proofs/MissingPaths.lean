import ExpandTree.Proofs.Directions
import Mathlib.Logic.Relation

/-!
Terms without a path. A reading that faults for a missing path met a term that has none. And where
paths are all that a document lacks, a missing path is the fault it is refused for: giving one term
its path turns a document with this fault into one that is read or has this fault still.
-/
namespace ExpandTree

open Json (Fields)

/-- The fault of a term without a path. -/
def TreeFault.missingPath : TreeFault := .term (.missingChild "property")

/-- A reading that succeeds or fails for a missing path only. -/
def LacksPathsOnly {α : Type} (reading : Except TreeFault α) : Prop :=
  (∃ a, reading = .ok a) ∨ reading = .error .missingPath

section Faults

variable {ε ε' α β : Type}

theorem bind_eq_error_iff {x : Except ε α} {f : α → Except ε β} {e : ε} :
    (x >>= f) = .error e ↔ x = .error e ∨ ∃ a, x = .ok a ∧ f a = .error e := by
  cases x with
  | error e' =>
    change Except.error e' = .error e ↔ _
    simp
  | ok a => simp

theorem mapError_eq_error_iff {x : Except ε α} {f : ε → ε'} {e : ε'} :
    x.mapError f = .error e ↔ ∃ e', x = .error e' ∧ f e' = e := by
  cases x <;> simp [Except.mapError]

theorem map_eq_error_iff {x : Except ε α} {f : α → β} {e : ε} :
    x.map f = .error e ↔ x = .error e := by
  cases x <;> simp [Except.map]

/-- A list that is not read has a member that is not, for the same fault. -/
theorem exists_error_of_mapM {f : α → Except ε β} {as : List α} {e : ε}
    (h : as.mapM f = .error e) : ∃ a ∈ as, f a = .error e := by
  induction as with
  | nil => cases h
  | cons a as ih =>
    rw [List.mapM_cons] at h
    rcases bind_eq_error_iff.mp h with ha | ⟨b, -, h⟩
    · exact ⟨a, List.mem_cons_self, ha⟩
    · rcases bind_eq_error_iff.mp h with has | ⟨bs, -, h⟩
      · obtain ⟨a', ha', hfault⟩ := ih has
        exact ⟨a', List.mem_cons_of_mem a ha', hfault⟩
      · cases h

theorem LacksPathsOnly.of_bind {x : Except TreeFault α} {f : α → Except TreeFault β}
    (h : LacksPathsOnly (x >>= f)) :
    x = .error .missingPath ∨ ∃ a, x = .ok a ∧ LacksPathsOnly (f a) := by
  rcases h with ⟨b, h⟩ | h
  · obtain ⟨a, ha, hb⟩ := bind_eq_ok_iff.mp h
    exact Or.inr ⟨a, ha, Or.inl ⟨b, hb⟩⟩
  · rcases bind_eq_error_iff.mp h with hx | ⟨a, ha, hfault⟩
    · exact Or.inl hx
    · exact Or.inr ⟨a, ha, Or.inr hfault⟩

theorem LacksPathsOnly.fst_of_bind {x : Except TreeFault α} {f : α → Except TreeFault β}
    (h : LacksPathsOnly (x >>= f)) : LacksPathsOnly x := by
  rcases h.of_bind with hfault | ⟨a, ha, -⟩
  · exact Or.inr hfault
  · exact Or.inl ⟨a, ha⟩

theorem LacksPathsOnly.of_map {x : Except TreeFault α} {f : α → β} (h : LacksPathsOnly (x.map f)) :
    LacksPathsOnly x := by
  rcases h with ⟨b, h⟩ | h
  · obtain ⟨a, ha, -⟩ := map_eq_ok_iff.mp h
    exact Or.inl ⟨a, ha⟩
  · exact Or.inr (map_eq_error_iff.mp h)

/-- A document fault is never one of a missing path. -/
theorem LacksPathsOnly.of_mapError_bind {x : Reads α} {f : α → Except TreeFault β}
    (h : LacksPathsOnly (x.mapError .document >>= f)) : ∃ a, x = .ok a ∧ LacksPathsOnly (f a) := by
  rcases h.of_bind with hfault | ⟨a, ha, hrest⟩
  · obtain ⟨_, -, hfault⟩ := mapError_eq_error_iff.mp hfault
    cases hfault
  · exact ⟨a, mapError_eq_ok_iff.mp ha, hrest⟩

/-- A list with a member that faults for a missing path has this fault, if with another member in
its place the list has no fault but this one. -/
theorem mapM_eq_missingPath {f : Json → Except TreeFault α} {v w : Json} {before after : List Json}
    (hstep : LacksPathsOnly (f w) → f v = .error .missingPath)
    (h : LacksPathsOnly ((before ++ w :: after).mapM f)) :
    (before ++ v :: after).mapM f = .error .missingPath := by
  induction before with
  | nil =>
    rw [List.nil_append, List.mapM_cons] at h ⊢
    exact bind_eq_error_iff.mpr (Or.inl (hstep h.fst_of_bind))
  | cons u before ih =>
    rw [List.cons_append, List.mapM_cons] at h ⊢
    -- the members before the exchanged one are the same in both lists, and so are their faults
    rcases h.of_bind with hfault | ⟨a, ha, hrest⟩
    · exact bind_eq_error_iff.mpr (Or.inl hfault)
    · have hbefore := ih hrest.fst_of_bind
      exact bind_eq_error_iff.mpr (Or.inr ⟨a, ha, bind_eq_error_iff.mpr (Or.inl hbefore)⟩)

end Faults

namespace Json

/-- No path at all: null, the empty string or an array of no segments. -/
def IsNoPath (v : Json) : Prop := v = .null ∨ v = .string "" ∨ v = .array []

/-- The fields of a term whose path is absent or no path at all. -/
def LacksPath (fields : Fields) : Prop := ∀ v ∈ fields.lookup "path", v.IsNoPath

/-- Some term of the document lacks its path. -/
def MissesPath (v : Json) : Prop := ∃ fields, v.HasTerm fields ∧ LacksPath fields

theorem IsNoPath.lacksPath {v : Json} (hv : v.IsNoPath) {fields : Fields}
    (h : fields.lookup "path" = some v) : LacksPath fields := by
  intro w hw
  rw [← Option.some.inj (h.symm.trans hw)]
  exact hv

end Json

open Json (HasTerm IsNoPath LacksPath insertField)

section Paths

theorem Path.ofSegments?_eq_none_iff {segments : List Segment} :
    ofSegments? segments = none ↔ segments = [] := by
  cases segments with
  | nil => simp [ofSegments?]
  | cons s rest =>
    simp only [ofSegments?]
    split <;> simp

theorem Path.ofJson_eq_none_iff {v : Json} : ofJson v = .ok none ↔ v.IsNoPath := by
  cases v with
  | null => simp [ofJson, IsNoPath]
  | string s =>
    have hpieces : (pieces s.toList).map String.ofList ≠ [] := by
      simp [pieces_eq_splitOn, List.splitOn_ne_nil]
    simp only [ofJson, ofString, IsNoPath]
    split
    · rename_i hs
      simp [hs]
    · split <;> simp_all [ofIdentifiers?, ofSegments?_eq_none_iff]
  | array items =>
    simp [ofJson, map_eq_ok_iff, ofSegments?_eq_none_iff, mapM_eq_ok_iff, IsNoPath]
  | boolean | number | object => simp [ofJson, IsNoPath]

variable {fields : Fields}

theorem termPath_eq_ok_iff_known {path : Option Path} :
    termPath fields = .ok path ↔ unknownPart? fields = none ∧
      (partField .path fields fun _ => Path.ofJson).map Option.join = .ok path := by
  unfold termPath
  cases unknownPart? fields <;> simp

theorem termPath_eq_none_iff :
    termPath fields = .ok none ↔ unknownPart? fields = none ∧ LacksPath fields := by
  simp only [termPath_eq_ok_iff_known, partField_eq, map_eq_ok_iff, LacksPath, TermPart.word]
  cases fields.lookup "path" with
  | none => simp [Option.mapM_none]
  | some v =>
    rw [optionMapM_some]
    simp [map_eq_ok_iff, Path.ofJson_eq_none_iff]

theorem termPath_insertField_expand {v : Json} {path : Option Path} :
    termPath (insertField "expand" v fields) = .ok path ↔ termPath fields = .ok path := by
  have hknown := @unknownPart?_insertField fields .expand v
  simp only [TermPart.word] at hknown
  rw [termPath_eq_ok_iff_known, termPath_eq_ok_iff_known, hknown,
    partField_insertField (by decide)]

end Paths

namespace Term

variable {fields : Fields}

/-- An object is read as its path, its options and its nested clause, and then built. -/
theorem ofJson_object (fields : Fields) :
    ofJson (.object fields) = (do
      let path ← (termPath fields).mapError .document
      let options ← (TermOptions.ofFields fields).mapError .document
      let expand ← (fields.lookup "expand").mapM expandOfJson
      (build path { options with expand }).mapError .term) := by
  rw [ofJson, expandOfField_eq, TermPart.word]
  cases hoptions : TermOptions.ofFields fields with
  | error cause => cases termPath fields <;> rfl
  | ok options =>
    obtain ⟨m, select, expand⟩ := options
    cases (TermOptions.ofFields_eq_ok_iff.mp hoptions).expand
    cases fields.lookup "expand" with
    | none => rfl
    | some v =>
      rw [optionMapM_some, Option.map_some]
      cases termPath fields with
      | error cause => rfl
      | ok path => cases hread : expandOfJson v <;> rfl

/-- A term is at fault in its nested clause or, when all else is read, for lack of a path. -/
theorem ofJson_object_eq_error_iff {cause : TermError} :
    ofJson (.object fields) = .error (.term cause) ↔
      ∃ path, termPath fields = .ok path ∧ ∃ options, TermOptions.ofFields fields = .ok options ∧
        ((fields.lookup "expand").mapM expandOfJson = .error (.term cause) ∨
          ∃ expand, (fields.lookup "expand").mapM expandOfJson = .ok expand ∧
            path = none ∧ cause = .missingChild "property") := by
  have hbuild : ∀ {path options}, build path options = .error cause ↔
      path = none ∧ cause = .missingChild "property" := by
    intro path options
    cases path <;> simp [build, eq_comm]
  simp only [ofJson_object, bind_eq_error_iff, mapError_eq_error_iff, mapError_eq_ok_iff,
    reduceCtorEq, and_false, exists_false, false_or, TreeFault.term.injEq, exists_eq_right, hbuild]

end Term

namespace Json

/-- A term that misses its path gets one: the term itself, or one below that it expands to. -/
inductive TermSupplied : Json → Json → Prop where
  | root {fields : Fields} {path : Json} : LacksPath fields → path.IsPath →
      TermSupplied (.object fields) (.object (insertField "path" path fields))
  | nested {fields : Fields} {before after : List Json} {v w : Json} :
      fields.lookup "expand" = some (.array (before ++ v :: after)) → TermSupplied v w →
      TermSupplied (.object fields)
        (.object (insertField "expand" (.array (before ++ w :: after)) fields))

/-- One term of a document gets the path that it misses. -/
inductive PathSupplied : Json → Json → Prop where
  | single {v w : Json} : TermSupplied v w → PathSupplied v w
  | member {before after : List Json} {v w : Json} : TermSupplied v w →
      PathSupplied (.array (before ++ v :: after)) (.array (before ++ w :: after))

namespace HasTerm

variable {items : List Json} {outer fields : Fields}

theorem of_member (hmem : .object outer ∈ items) (h : (Json.object outer).HasTerm fields) :
    (Json.array items).HasTerm fields := by
  generalize hv : Json.object outer = v at h
  induction h with
  | single =>
    cases hv
    exact .member hmem
  | member => cases hv
  | nested _ hexpand hnested ih => exact .nested (ih hv) hexpand hnested

theorem of_expand (hexpand : outer.lookup "expand" = some (.array items))
    (h : (Json.array items).HasTerm fields) : (Json.object outer).HasTerm fields := by
  generalize hv : Json.array items = v at h
  induction h with
  | single => cases hv
  | member hmem =>
    cases hv
    exact .nested .single hexpand hmem
  | nested _ hinner hnested ih => exact .nested (ih hv) hinner hnested

end HasTerm

end Json

section Refused

variable {v w : Json} {cause : TermError}

/-- A term is refused as a term for a missing path only, and some term has none. -/
theorem Term.missesPath_of_error (v : Json) :
    (ofJson v = .error (.term cause) → cause = .missingChild "property" ∧ v.MissesPath) ∧
    (expandOfJson v = .error (.term cause) → cause = .missingChild "property" ∧ v.MissesPath) := by
  induction v using Json.induction with
  | object fields ih =>
    refine ⟨fun h => ?_, fun h => by cases h⟩
    obtain ⟨path, hpath, _, -, hexpand | ⟨_, -, rfl, hcause⟩⟩ := ofJson_object_eq_error_iff.mp h
    · cases hlookup : fields.lookup "expand" with
      | none =>
        rw [hlookup] at hexpand
        cases hexpand
      | some w =>
        rw [hlookup, optionMapM_some] at hexpand
        have hfault := map_eq_error_iff.mp hexpand
        obtain ⟨hcause, inner, hterm, hlacks⟩ := (ih _ (mem_of_lookup hlookup)).2 hfault
        cases w with
        | array items => exact ⟨hcause, inner, hterm.of_expand hlookup, hlacks⟩
        | null | boolean | number | string | object => cases hfault
    · exact ⟨hcause, fields, .single, (termPath_eq_none_iff.mp hpath).2⟩
  | array items ih =>
    refine ⟨fun h => (by cases h), fun h => ?_⟩
    rw [expandOfJson, ofItems_eq_mapM] at h
    obtain ⟨v, hv, hfault⟩ := exists_error_of_mapM h
    obtain ⟨hcause, fields, hterm, hlacks⟩ := (ih v hv).1 hfault
    cases v with
    | object outer => exact ⟨hcause, fields, hterm.of_member hv, hlacks⟩
    | null | boolean | number | string | array => cases hfault
  | null | boolean | number | string => constructor <;> intro h <;> cases h

theorem missesPath_of_clauseOfJson (h : clauseOfJson v = .error (.term cause)) :
    cause = .missingChild "property" ∧ v.MissesPath := by
  cases v with
  | array items => exact (Term.missesPath_of_error (.array items)).2 h
  | object fields =>
    rcases bind_eq_error_iff.mp h with hfault | ⟨t, -, h⟩
    · exact (Term.missesPath_of_error (.object fields)).1 hfault
    · cases h
  | null | boolean | number | string => cases h

end Refused

section Supplied

variable {v w : Json} {clause : Clause}

theorem TermOptions.ofFields_insertField {key : String} (h : key = "path" ∨ key = "expand")
    (v : Json) (fields : Fields) : ofFields (insertField key v fields) = ofFields fields := by
  have hother : ∀ part : TermPart, part ≠ .path → part ≠ .expand →
      ∀ {α : Type} (read : String → Json → Reads α),
        partField part (insertField key v fields) read = partField part fields read := by
    intro part hpath hexpand α read
    refine partField_insertField ?_ v read
    rcases h with rfl | rfl <;> cases part <;> first | contradiction | decide
  unfold ofFields
  rw [hother .filter nofun nofun, hother .orderBy nofun nofun, hother .top nofun nofun,
    hother .skip nofun nofun, hother .count nofun nofun, hother .levels nofun nofun,
    hother .search nofun nofun, hother .select nofun nofun, hother .compute nofun nofun,
    hother .apply nofun nofun]

/-- Where a term that got its path has at most this fault, it had it before. -/
theorem Json.TermSupplied.ofJson (h : v.TermSupplied w) (hw : LacksPathsOnly (Term.ofJson w)) :
    Term.ofJson v = .error .missingPath := by
  induction h with
  | @root fields path hlacks _ =>
    rw [Term.ofJson_object] at hw
    obtain ⟨_, hread, hw⟩ := hw.of_mapError_bind
    obtain ⟨options, hoptions, hw⟩ := hw.of_mapError_bind
    obtain ⟨hknown, -⟩ := termPath_eq_ok_iff_known.mp hread
    rw [TermOptions.ofFields_insertField (Or.inl rfl)] at hoptions
    rw [lookup_insertField_of_ne (by decide)] at hw
    have hpath : termPath fields = .ok none :=
      termPath_eq_none_iff.mpr ⟨(@unknownPart?_insertField fields .path path).mp hknown, hlacks⟩
    refine Term.ofJson_object_eq_error_iff.mpr ⟨none, hpath, options, hoptions, ?_⟩
    rcases hw.of_bind with hfault | ⟨expand, hexpand, -⟩
    · exact Or.inl hfault
    · exact Or.inr ⟨expand, hexpand, rfl, rfl⟩
  | @nested fields before after v w hlookup _ ih =>
    rw [Term.ofJson_object] at hw
    obtain ⟨path, hpath, hw⟩ := hw.of_mapError_bind
    obtain ⟨options, hoptions, hw⟩ := hw.of_mapError_bind
    rw [termPath_insertField_expand] at hpath
    rw [TermOptions.ofFields_insertField (Or.inr rfl)] at hoptions
    rw [lookup_insertField_self, optionMapM_some, Term.expandOfJson, Term.ofItems_eq_mapM] at hw
    refine Term.ofJson_object_eq_error_iff.mpr ⟨path, hpath, options, hoptions, Or.inl ?_⟩
    rw [hlookup, optionMapM_some, map_eq_error_iff, Term.expandOfJson, Term.ofItems_eq_mapM]
    exact mapM_eq_missingPath ih hw.fst_of_bind.of_map

theorem Json.TermSupplied.objects (h : v.TermSupplied w) :
    ∃ fields fields', v = .object fields ∧ w = .object fields' := by
  cases h <;> exact ⟨_, _, rfl, rfl⟩

theorem Json.PathSupplied.clauseOfJson (h : v.PathSupplied w)
    (hw : LacksPathsOnly (clauseOfJson w)) : clauseOfJson v = .error .missingPath := by
  cases h with
  | single h =>
    obtain ⟨fields, fields', rfl, rfl⟩ := h.objects
    exact bind_eq_error_iff.mpr (Or.inl (h.ofJson hw.fst_of_bind))
  | member h =>
    rw [ExpandTree.clauseOfJson, Term.ofItems_eq_mapM] at hw ⊢
    exact mapM_eq_missingPath h.ofJson hw

/-- So it is for a document whose terms get their paths one after another. -/
theorem Json.lacksPathsOnly_of_supplied (h : Relation.ReflTransGen PathSupplied v w)
    (hw : clauseOfJson w = .ok clause) : LacksPathsOnly (clauseOfJson v) := by
  induction h using Relation.ReflTransGen.head_induction_on with
  | refl => exact Or.inl ⟨clause, hw⟩
  | head h _ ih => exact Or.inr (h.clauseOfJson ih)

end Supplied

/-- A missing path is the only fault of a term, and it is reported as such: a document refused for a
term has a term without a path, and a document of terms without paths that is read once these are
given is refused for a missing path. A document that is read has none left to be given. -/
theorem clauseOfJson_missingPaths (v : Json) :
    (∀ cause, clauseOfJson v = .error (.term cause) →
      cause = .missingChild "property" ∧ v.MissesPath) ∧
    ∀ w clause, Relation.ReflTransGen Json.PathSupplied v w → clauseOfJson w = .ok clause →
      v.MissesPath → clauseOfJson v = .error (.term (.missingChild "property")) := by
  refine ⟨fun _ => missesPath_of_clauseOfJson, ?_⟩
  intro w clause hsupplied hw ⟨fields, hterm, hlacks⟩
  rcases Json.lacksPathsOnly_of_supplied hsupplied hw with ⟨clause, hv⟩ | hfault
  · -- a document that is read has a path for every term
    obtain ⟨t, ht⟩ := hterm.exists_ofJson hv
    obtain ⟨hpath, -, -⟩ := Term.ofJson_object_eq_ok_iff.mp ht
    obtain ⟨hknown, -⟩ := termPath_eq_ok_iff.mp hpath
    rw [termPath_eq_none_iff.mpr ⟨hknown, hlacks⟩] at hpath
    cases hpath
  · exact hfault

/-- A term with this path that expands to one with that. -/
def expandedTo (outer inner : Json) : Json :=
  .array [.object [("expand", .array [.object [("path", inner)]]), ("path", outer)]]

/-- Two terms without a path, one of them nested; once both have one, the document is read. -/
theorem clauseOfJson_missingPaths_expandedTo :
    Relation.ReflTransGen Json.PathSupplied (expandedTo .null (.array []))
        (expandedTo (.string "Orders") (.string "Items")) ∧
      clauseOfJson (expandedTo .null (.array [])) = .error (.term (.missingChild "property")) ∧
      (expandedTo .null (.array [])).MissesPath := by
  have houter : LacksPath [("expand", .array [.object [("path", .array [])]]), ("path", .null)] :=
    IsNoPath.lacksPath (Or.inl rfl) rfl
  have hinner : LacksPath [("path", .array [])] := IsNoPath.lacksPath (Or.inr (Or.inr rfl)) rfl
  have hfirst : (expandedTo .null (.array [])).PathSupplied
      (expandedTo (.string "Orders") (.array [])) :=
    @Json.PathSupplied.member [] [] _ _ (.root houter (Path.exists_ofJson_iff.mp ⟨_, rfl⟩))
  have hsecond : (expandedTo (.string "Orders") (.array [])).PathSupplied
      (expandedTo (.string "Orders") (.string "Items")) :=
    @Json.PathSupplied.member [] [] _ _ (@Json.TermSupplied.nested _ [] [] _ _ rfl
      (.root hinner (Path.exists_ofJson_iff.mp ⟨_, rfl⟩)))
  have hread : clauseOfJson (expandedTo (.string "Orders") (.string "Items")) =
      .ok [⟨.last ⟨"Orders", .model, none⟩, {}, none,
        some [⟨.last ⟨"Items", .model, none⟩, {}, none, none⟩]⟩] := rfl
  have hsupplied := (Relation.ReflTransGen.single hfirst).tail hsecond
  have hrefused := (clauseOfJson_missingPaths (expandedTo .null (.array []))).2 _ _ hsupplied hread
    ⟨_, .member List.mem_cons_self, houter⟩
  exact ⟨hsupplied, hrefused, ((clauseOfJson_missingPaths _).1 _ hrefused).2⟩

end ExpandTree

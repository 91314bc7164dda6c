import JarRemap.Proofs.Adapt.Columns
import JarRemap.Proofs.Merge.Again

/-!
# Merging looks up the columns that are there

A merge gives every namespace of a source a column, so a record with one name for each namespace has
a column for each name. A class, a member or a parameter that is changed was found or pushed before.
-/

namespace JarRemap

namespace Sheet

open Checked (at_)

variable {ε : Type} {columns : List Nat} {r : Record}

/-!
## Names and members
-/

theorem setName_eq (names : Names) (column : Nat) (name : String) :
    (setName names column name : Checked ε _) = .ok (names.set column name) := by
  refine Checked.put_eq ?_ _
  rw [List.length_append, List.length_replicate]
  omega

/-- The rest of the names is written to the rest of the columns. -/
theorem foldlM_writeAt (l : List (Option String)) {offset : Nat}
    (h : offset + l.length ≤ columns.length) (names : Names) :
    ((l.zipIdx offset).foldlM (writeAt columns) names : Checked ε _) =
      .ok (names.write (columns.drop offset) { r with names := l } 0) := by
  induction l generalizing offset names with
  | nil => simp [Names.write]
  | cons name l ih =>
    rw [List.length_cons] at h
    have hoffset : offset < columns.length := by omega
    have hlength : offset + 1 + l.length ≤ columns.length := by omega
    rw [List.zipIdx_cons, List.foldlM_cons, List.drop_eq_getElem_cons hoffset]
    cases name with
    | none => exact ih hlength names
    | some name =>
      rw [writeAt, Checked.at_eq hoffset, Checked.ok_bind, setName_eq, Checked.ok_bind]
      exact ih hlength _

theorem drop_zipIdx {α : Type} (l : List α) (n k : Nat) :
    (l.zipIdx k).drop n = (l.drop n).zipIdx (k + n) := by
  induction n generalizing l k with
  | zero => rfl
  | succ n ih =>
    cases l with
    | nil => rfl
    | cons a l =>
      rw [List.zipIdx_cons, List.drop_succ_cons, List.drop_succ_cons, ih, Nat.add_right_comm,
        Nat.add_assoc]

/-- Every name of a record has a column. -/
theorem write_eq (h : r.names.length = columns.length) (names : Names) (start : Nat) :
    (write names columns r start : Checked ε _) = .ok (names.write columns r start) := by
  have hplain : names.write columns r start =
      names.write (columns.drop start) { r with names := r.names.drop start } 0 := by
    rw [Names.write, Names.write, List.zip, List.drop_zipWith]
    rfl
  rw [write, drop_zipIdx, Nat.zero_add, hplain]
  rcases Nat.le_total start columns.length with hstart | hstart
  · refine foldlM_writeAt _ ?_ names
    rw [List.length_drop]
    omega
  · have hnone : r.names.drop start = [] := List.drop_eq_nil_of_le (h ▸ hstart)
    rw [hnone]
    simp [Names.write]

section Annotate

variable (h : r.names.length = columns.length)

include h

theorem takeField_eq (desc : Option String) (f : FieldMapping) :
    (takeField columns desc r f : Checked ε _) = .ok (f.annotate columns desc r) := by
  rw [takeField, write_eq h]
  rfl

theorem takeMethod_eq (desc : Option String) (m : MethodMapping) :
    (takeMethod columns desc r m : Checked ε _) = .ok (m.annotate columns desc r) := by
  rw [takeMethod, write_eq h]
  rfl

theorem takeParam_eq (p : ParamMapping) :
    (takeParam columns r p : Checked ε _) = .ok (p.annotate columns r) := by
  rw [takeParam, write_eq h]
  rfl

theorem takeParamOf_eq (index : UInt16) (m : MethodMapping) :
    (takeParamOf columns index r m : Checked ε _) = .ok (m.annotateParam columns index r) := by
  rw [takeParamOf, MethodMapping.annotateParam, Checked.changeFirst_eq _ (takeParam_eq h)]
  cases m.params.findIdx? fun p => p.index = index with
  | some i => rfl
  | none => rfl

theorem annotate_eq (c : ClassMapping) :
    (annotate columns r c : Checked ε _) = .ok (c.annotate columns r) := by
  rw [annotate, write_eq h]
  rfl

theorem annotateField_eq (v : KeyView) (desc : Option String) (c : ClassMapping) :
    (annotateField v columns desc r c : Checked ε _) = .ok (c.annotateField v columns desc r) := by
  unfold annotateField ClassMapping.annotateField
  cases r.key? with
  | none => rfl
  | some key =>
    dsimp only
    rw [Checked.changeFirst_eq _ (takeField_eq h desc)]
    cases c.fields.findIdx? (·.isFor v.column key desc) with
    | some i => rfl
    | none => cases v.creates <;> simp

theorem annotateMethod_eq (v : KeyView) (desc : Option String) (c : ClassMapping) :
    (annotateMethod v columns desc r c : Checked ε _) =
      .ok (c.annotateMethod v columns desc r) := by
  unfold annotateMethod ClassMapping.annotateMethod
  cases r.key? with
  | none => rfl
  | some key =>
    dsimp only
    rw [Checked.changeFirst_eq _ (takeMethod_eq h desc)]
    cases c.methods.findIdx? (·.isFor v.column key desc) with
    | some i => rfl
    | none => cases v.creates <;> simp

theorem annotateParam_eq (v : KeyView) (method : String) (desc : Option String) (index : UInt16)
    (c : ClassMapping) :
    (annotateParam v columns method desc index r c : Checked ε _) =
      .ok (c.annotateParam v columns method desc index r) := by
  unfold annotateParam ClassMapping.annotateParam
  dsimp only
  rw [Checked.changeFirst_eq _ (takeParamOf_eq h index)]
  cases c.methods.findIdx? (·.isFor v.column method desc) with
  | some i => rfl
  | none => cases v.creates <;> simp

end Annotate

/-!
## Classes
-/

theorem changeClass_eq {change : ClassMapping → Checked ε ClassMapping}
    {plain : ClassMapping → ClassMapping} (h : ∀ c, change c = .ok (plain c)) (name : String)
    (classes : OrderedMap String ClassMapping) :
    changeClass name change classes = .ok (classes.modify name plain) := by
  unfold changeClass
  cases hname : classes.get? name with
  | none =>
    refine congrArg Except.ok (OrderedMap.ext_get? (classes.keys_modify name plain).symm ?_)
    intro key
    rw [OrderedMap.get?_modify]
    split
    · next hkey => rw [hkey, hname, Option.map_none]
    · rfl
  | some c =>
    dsimp only
    rw [h, Checked.ok_bind]
    refine congrArg Except.ok (OrderedMap.ext_get? ?_ fun key => ?_)
    · rw [OrderedMap.keys_modify, OrderedMap.keys_modify]
    · rw [OrderedMap.get?_modify, OrderedMap.get?_modify, hname, Option.map_some, Option.map_some]

theorem changeOwner_eq {change : ClassMapping → Checked ε ClassMapping}
    {plain : ClassMapping → ClassMapping} (h : ∀ c, change c = .ok (plain c)) (v : KeyView)
    (owner : String) (classes : OrderedMap String ClassMapping) :
    changeOwner v owner change classes = .ok (MappingTree.changeOwner v owner plain classes) := by
  unfold changeOwner MappingTree.changeOwner
  cases v.class? owner with
  | none => rfl
  | some name => exact changeClass_eq h name _

theorem apply_eq (h : r.names.length = columns.length) (v : KeyView)
    (classes : OrderedMap String ClassMapping) :
    (apply v columns classes r : Checked ε _) = .ok (MappingTree.apply v columns classes r) := by
  unfold apply MappingTree.apply
  cases r.element with
  | type =>
    dsimp only
    cases r.key?.bind v.class? with
    | none => rfl
    | some name => exact changeClass_eq (annotate_eq h) name _
  | field owner desc => exact changeOwner_eq (annotateField_eq h v _) v owner classes
  | method owner desc => exact changeOwner_eq (annotateMethod_eq h v _) v owner classes
  | param owner method desc index =>
    exact changeOwner_eq (annotateParam_eq h v method _ index) v owner classes

/-!
## Trees
-/

/-- Each namespace is claimed where it ends up. -/
theorem claimColumns_eq (known names : List String) :
    (claimColumns known names : Checked ε _) =
      .ok (addAllNew known names, names.map fun name => (addAllNew known names).idxOf name) := by
  induction names generalizing known with
  | nil => rfl
  | cons name names ih =>
    have hcons : addAllNew known (name :: names) = addAllNew (addNew known name) names := rfl
    -- what was known before keeps its place when more is claimed
    have hplace : (addAllNew (addNew known name) names).idxOf name =
        (addNew known name).idxOf name := by
      obtain ⟨more, hmore⟩ := prefix_addAllNew (addNew known name) names
      rw [← hmore, List.idxOf_append_of_mem (mem_addNew.2 (.inr rfl))]
    rw [claimColumns, hcons, List.map_cons, hplace]
    by_cases hmem : name ∈ known
    · rw [MappingTree.idxOf?_of_mem hmem, addNew, if_pos hmem]
      dsimp only
      rw [ih]
      rfl
    · have hpushed : (known ++ [name]).idxOf name = known.length := by
        rw [List.idxOf_append_of_notMem hmem, List.idxOf_cons_self, Nat.add_zero]
      rw [List.idxOf?_eq_none_iff.2 hmem, addNew, if_neg hmem, hpushed]
      dsimp only
      rw [List.length_append, List.length_singleton, Checked.sub_of_le (Nat.le_add_left 1 _),
        Nat.add_sub_cancel, Checked.ok_bind, ih]
      rfl

theorem known_ne_nil (t : MappingTree) (s : Source) : t.known s ≠ [] := by
  unfold MappingTree.known
  split
  · exact List.cons_ne_nil _ _
  · next h => simpa using h

/-- Merging looks up no column and no namespace that is not there. -/
theorem merge_eq {s : Source} (h : s.Even) (t : MappingTree) :
    (ofSource s).merge t = Checked.lift (t.merge s) := by
  have hkey : (at_ (ofSource s).namespaces 0 : Checked ForeignSource _) = .ok s.key := rfl
  have hknown : (if t.namespaces.isEmpty then [s.key] else t.namespaces) = t.known s := rfl
  rw [merge, hkey, Checked.ok_bind, MappingTree.merge]
  dsimp only
  rw [hknown]
  cases hcolumn : (t.known s).idxOf? s.key with
  | none =>
    obtain ⟨first, rest, hfirst⟩ := List.exists_cons_of_ne_nil (known_ne_nil t s)
    rw [hfirst]
    rfl
  | some column =>
    have hclaimed : (claimColumns (t.known s) (ofSource s).namespaces : Checked ForeignSource _) =
        .ok (t.namespacesWith s, t.columnsOf s) := claimColumns_eq _ _
    have hrecords : ∀ r ∈ (ofSource s).records, ∀ classes,
        (apply (t.keyView column) (t.columnsOf s) classes r : Checked ForeignSource _) =
          .ok (MappingTree.apply (t.keyView column) (t.columnsOf s) classes r) := by
      intro r hr classes
      refine apply_eq ?_ _ classes
      rw [h r hr, MappingTree.columnsOf, List.length_map]
      rfl
    dsimp only
    rw [hclaimed, Checked.ok_bind, Checked.foldlM_eq_ok hrecords]
    rfl

end Sheet

/-- Whatever a parser reads and whoever edits the records, before the first stage and after each
stage there is a namespace, and every record has one name for each namespace. So no stage looks up a
column that is not there, and neither does merging into a tree, which gives the tree or the error of
`MappingTree.merge`. -/
theorem columns_stay_in_bounds {f : Format} {known : Circumstances} {text : List Char} {s : Source}
    (h : f.parse known text = .ok s) (p : Pipeline) :
    ((Sheet.ofSource s).stages p : Checked ForeignSource _) = .ok ((s.stages p).map .ofSource) ∧
    (∀ stage ∈ s.stages p, (Sheet.ofSource stage).Even ∧
      ∀ t, (Sheet.ofSource stage).merge t = Checked.lift (t.merge stage)) ∧
    ∀ a : Adaptation, (s.stages a.pipeline).getLast? = some (s.adapt a) := by
  have heven := Format.even_parse h
  refine ⟨s.stages_eq heven p, fun stage hstage => ?_, s.getLast?_stages⟩
  have hstage := heven.stages p stage hstage
  exact ⟨Source.even_iff.2 hstage, Sheet.merge_eq hstage⟩

/-- Three namespaces, and classes with names in two of them and in one. -/
def raggedTable : List Char :=
  "v1\tofficial\tintermediary\tnamed\nCLASS\ta\tb\nCLASS\tc\nCLASS\td\te\tf\n".toList

def raggedSource : Source where
  key := "official"
  destinations := ["intermediary", "named"]
  lineage := ["official", "intermediary", "named"]
  records :=
    [⟨.type, [some "a", some "b", none], none⟩, ⟨.type, [some "c", none, none], none⟩,
      ⟨.type, [some "d", some "e", some "f"], none⟩]

/-- The second column becomes the key, one column is left out, and the editor drops every other
record and all names but the key. -/
def shorteningPipeline : Pipeline where
  renames := .ofList [("named", "yarn")]
  source := "intermediary"
  filter := ["official"]
  editor := some ⟨Bool, false, fun _ r drops =>
    (if drops then none else some { r with names := r.names.take 1 }, !drops)⟩

/-- The editor's names are too few for the two namespaces that are left. -/
theorem columns_stay_in_bounds_ragged :
    Format.parse .tiny ⟨"a.tiny", .combined, {}⟩ raggedTable = .ok raggedSource ∧
      ((Sheet.ofSource raggedSource).stages shorteningPipeline : Checked ForeignSource _) =
        .ok ((raggedSource.stages shorteningPipeline).map .ofSource) ∧
      ((raggedSource.stages shorteningPipeline).map fun stage =>
        (stage.namespaces.length, stage.records.map fun r => r.names.length)) =
          [(3, [3, 3, 3]), (3, [3, 3, 3]), (3, [3, 3, 3]), (2, [2, 2, 2]), (2, [2, 2])] := by
  have hparse : Format.parse .tiny ⟨"a.tiny", .combined, {}⟩ raggedTable = .ok raggedSource := by
    rfl
  exact ⟨hparse, (columns_stay_in_bounds hparse shorteningPipeline).1, by decide⟩

end JarRemap

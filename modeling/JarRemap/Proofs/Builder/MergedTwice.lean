import JarRemap.Proofs.Builder.WellFormed
import JarRemap.Proofs.Merge.Again
import JarRemap.Proofs.Merge.Layer

/-!
# Sources that are merged twice

Merging a source again leaves the tree as it is: its namespaces have their columns, its key stands
for the same classes as before, and each of its records hits what it hit before. The exception are
parameters of a method that the tree knew without a descriptor. The record of the parameter finds
that method but does not give it its descriptor, so another record may give it a different one, and
the next time the parameter goes to another method.
-/

namespace JarRemap

theorem addAllNew_of_subset {α : Type} [DecidableEq α] {l new : List α} (h : new ⊆ l) :
    addAllNew l new = l := by
  induction new with
  | nil => rfl
  | cons a new ih =>
    have hcons : addAllNew l (a :: new) = addAllNew (addNew l a) new := rfl
    rw [List.cons_subset] at h
    rw [hcons, addNew, if_pos h.1, ih h.2]

namespace MappingTree

variable {t t' : MappingTree} {s : Source} {column : Nat}

/-- Behind a merge the namespaces of the source are those of the tree. -/
theorem known_of_merge (hmerge : t.merge s = .ok t') : t'.known s = t.namespacesWith s := by
  obtain ⟨_, -, rfl⟩ := merge_eq_ok hmerge
  obtain ⟨rest, hrest⟩ := exists_known_eq_cons t s
  obtain ⟨more, hmore⟩ := prefix_addAllNew (t.known s) s.namespaces
  refine if_neg ?_
  change ¬ (t.namespacesWith s).isEmpty = true
  rw [namespacesWith, ← hmore, hrest]
  exact Bool.false_ne_true

theorem namespacesWith_of_merge (hmerge : t.merge s = .ok t') :
    t'.namespacesWith s = t.namespacesWith s := by
  rw [namespacesWith, known_of_merge hmerge]
  exact addAllNew_of_subset fun name hname => mem_addAllNew.2 (.inr hname)

theorem columnsOf_of_merge (hmerge : t.merge s = .ok t') : t'.columnsOf s = t.columnsOf s := by
  rw [columnsOf, columnsOf, namespacesWith_of_merge hmerge]

theorem idxOf?_of_merge (hmerge : t.merge s = .ok t')
    (hcolumn : (t.known s).idxOf? s.key = some column) :
    (t'.known s).idxOf? s.key = some column := by
  rw [known_of_merge hmerge]
  exact (prefix_addAllNew (t.known s) s.namespaces).findIdx?_eq_some hcolumn

/-- No destination of a source has the column of its key, if the key is none of them. -/
theorem column_not_mem_columnsOf (hother : s.key ∉ s.destinations)
    (hcolumn : (t.known s).idxOf? s.key = some column) : column ∉ (t.columnsOf s).drop 1 := by
  change column ∉ s.destinations.map fun name => (t.namespacesWith s).idxOf name
  have hmem : s.key ∈ t.namespacesWith s := mem_addAllNew.2 (.inr List.mem_cons_self)
  have hkey : (t.namespacesWith s).idxOf? s.key = some column :=
    (prefix_addAllNew (t.known s) s.namespaces).findIdx?_eq_some hcolumn
  rw [idxOf?_of_mem hmem, Option.some.injEq] at hkey
  intro hdestination
  obtain ⟨name, hname, hsame⟩ := List.mem_map.1 hdestination
  rw [← hkey] at hsame
  rw [(List.idxOf_inj (mem_addAllNew.2 (.inr (List.mem_cons_of_mem _ hname)))).1 hsame] at hname
  exact hother hname

theorem key_not_mem_columnsOf (hdistinct : s.namespaces.Nodup)
    (hcolumn : (t.known s).idxOf? s.key = some column) : column ∉ (t.columnsOf s).drop 1 :=
  column_not_mem_columnsOf (List.nodup_cons.1 hdistinct).1 hcolumn

/-- A source that is not keyed by the source namespace speaks of classes of the tree only. -/
theorem Keyed.known_of_class? (h : t.Keyed) (hcolumn : column ≠ 0) (key name : String)
    (hname : (t.keyView column).class? key = some name) : (t.classes.get? name).isSome := by
  rw [class?_keyView hcolumn] at hname
  obtain ⟨c, hc, hpair⟩ := List.mem_filterMap.1 (OrderedMap.mem_of_get?_ofList hname)
  obtain ⟨_, -, hsame⟩ := Option.map_eq_some_iff.1 hpair
  cases hsame
  rw [show t.classes.get? c.names.source = some c from h.class?_source hc]
  rfl

theorem Keyed.findsOwner (h : t.Keyed) (r : Record) :
    FindsOwner (t.keyView column) r t.classes := by
  intro name hname
  by_cases hcolumn : column = 0
  · have hcreates : (t.keyView column).creates = true := beq_iff_eq.2 hcolumn
    refine .inr ?_
    unfold Record.addsOwner
    split
    · rfl
    all_goals exact hcreates
  · obtain ⟨key, hkey⟩ := exists_class?_of_owner? hname
    exact .inl (h.known_of_class? hcolumn key name hkey)

/-- The names by which classes are found stay, if no record writes them. -/
theorem sourceNames_foldl_apply {v : KeyView} {columns : List Nat} {records : List Record}
    (hcolumn : column ∉ columns.drop 1) (hzero : 0 ∉ columns.drop 1)
    (hclasses : t'.classes = records.foldl (apply v columns) t.classes)
    (hknown : ∀ key name, v.class? key = some name → (t.classes.get? name).isSome) :
    t'.sourceNames column = t.sourceNames column := by
  have hkeys : t'.classes.keys = t.classes.keys := by
    rw [hclasses, keys_foldl_apply hknown]
  rw [sourceNames, sourceNames, OrderedMap.values_eq_filterMap_keys,
    OrderedMap.values_eq_filterMap_keys, List.filterMap_filterMap, List.filterMap_filterMap, hkeys]
  refine congrArg OrderedMap.ofList (List.filterMap_congr fun name hname => ?_)
  obtain ⟨e, he, rfl⟩ := List.mem_map.1 hname
  have hbefore : t.classes.get? e.1 = some e.2 := OrderedMap.get?_eq_some_iff.2 he
  obtain ⟨c, hafter, hkept, hsource⟩ := foldl_apply_kept
    (R := fun c c' => c.KeepsColumn column c' ∧ c.KeepsColumn 0 c')
    (fun c => ⟨.refl column c, .refl 0 c⟩) (fun _ _ _ h h' => ⟨h.1.trans h'.1, h.2.trans h'.2⟩)
    (fun r (_ : r ∈ records) c => ⟨r.keepsColumn_change hcolumn c, r.keepsColumn_change hzero c⟩)
    hbefore
  rw [hclasses, hafter, hbefore, Option.bind_some, Option.bind_some, hkept.name, Names.source,
    hsource.name, Names.source]

/-- A source speaks of the same classes as before it was merged. -/
theorem keyView_of_merge (hkeyed : t.Keyed) (hdistinct : s.namespaces.Nodup)
    (hspares : t.sparesSource s = true) (hmerge : t.merge s = .ok t')
    (hcolumn : (t.known s).idxOf? s.key = some column) :
    t'.keyView column = t.keyView column := by
  obtain ⟨_, hsame, ht'⟩ := merge_eq_ok hmerge
  cases hcolumn.symm.trans hsame
  by_cases hzero : column = 0
  · rw [keyView, keyView, if_pos hzero, if_pos hzero]
  · have hclasses : t'.classes =
        s.records.foldl (apply (t.keyView column) (t.columnsOf s)) t.classes := by
      rw [ht']
    have hnames := sourceNames_foldl_apply (key_not_mem_columnsOf hdistinct hcolumn)
      (zero_not_mem_columnsOf hspares) hclasses (hkeyed.known_of_class? hzero)
    rw [keyView, if_neg hzero, hnames, keyView, if_neg hzero]

/-- Whether every parameter of a source that is merged is put at a method that still fits its record
in the merged tree. -/
def keepsParams (t : MappingTree) (s : Source) : Bool :=
  match (t.known s).idxOf? s.key, t.merge s with
  | some column, .ok t' =>
      paramsStay (t.keyView column) (t.columnsOf s) t'.classes t.classes s.records
  | _, _ => true

/-- A source keeps its parameters if it gives every method its descriptor, as the tree does. -/
theorem keepsParams_of_described (hdistinct : s.namespaces.Nodup)
    (hclasses : ∀ name c, t.class? name = some c → c.MethodsDescribed)
    (hrecords : ∀ r ∈ s.records, ∀ key, r.mentions? .method = some key → key.desc.isSome) :
    t.keepsParams s = true := by
  unfold keepsParams
  split
  · next column t' hcolumn hmerge =>
    obtain ⟨_, hsame, rfl⟩ := merge_eq_ok hmerge
    cases hcolumn.symm.trans hsame
    exact paramsStay_of_described (key_not_mem_columnsOf hdistinct hcolumn) rfl hclasses hrecords
  · rfl

/-- A source that is merged again leaves the tree as it is. -/
theorem merge_again (hkeyed : t.Keyed) (hdistinct : s.namespaces.Nodup)
    (hspares : t.sparesSource s = true) (hparams : t.keepsParams s = true)
    (hmerge : t.merge s = .ok t') : t'.merge s = .ok t' := by
  obtain ⟨column, hcolumn, ht'⟩ := merge_eq_ok hmerge
  rw [keepsParams, hcolumn, hmerge] at hparams
  have hlast : s.records.foldl (apply (t.keyView column) (t.columnsOf s)) t.classes =
      t'.classes := by
    rw [ht']
  have hclasses := foldl_apply_again (key_not_mem_columnsOf hdistinct hcolumn)
    (fun r _ => hkeyed.findsOwner r) hlast hparams
  rw [merge, idxOf?_of_merge hmerge hcolumn]
  dsimp only
  rw [namespacesWith_of_merge hmerge, columnsOf_of_merge hmerge,
    keyView_of_merge hkeyed hdistinct hspares hmerge hcolumn, hclasses, ht']

end MappingTree

namespace Builder

/-- In every tree that calls build whose sources spare the source namespace, merging a source twice
is merging it once, if the source spares it as well, lists no namespace twice, and keeps its
parameters. -/
theorem merge_is_idempotent {calls : List Call}
    (hcalls : ({} : Builder).mergesSpareSource calls = true) {s : Source}
    (hdistinct : s.namespaces.Nodup) (hspares : (run {} calls).tree.sparesSource s = true)
    (hparams : (run {} calls).tree.keepsParams s = true) {t : MappingTree}
    (hmerge : (run {} calls).tree.merge s = .ok t) : t.merge s = .ok t := by
  have hformed : (run {} calls).tree.WellFormed :=
    run_wellFormed ⟨keyed_empty, fun name c hc => by cases hc⟩ hcalls
  exact MappingTree.merge_again hformed.keyed hdistinct hspares hparams hmerge

namespace Sample

/-- A table that names a method `y` of the class `C` and gives it no descriptor. -/
def bareMethod : Call :=
  .content "methods.csv"
    (.bytes (bytesOf "searge,name,notch,notchsig,classnotch,side\nfunc_1,run,y,,C,2\n"))
    { keyedBy "official" with format := some .oldMcp }

/-- A source with records of methods `y`, one that takes an integer and one that takes a long, and
of the parameter of the first. -/
def fooSource (records : List Record) : Source where
  key := "official"
  destinations := ["foo"]
  lineage := ["foo", "official"]
  records

def intMethod : Record := ⟨.method "C" (some "(I)V"), [some "y", some "a"], none⟩

def longMethod : Record := ⟨.method "C" (some "(J)V"), [some "y", some "b"], none⟩

def intParam : Record := ⟨.param "C" "y" (some "(I)V") 0, [none, some "q"], none⟩

/-- How many parameters the methods of the class `C` have. -/
def paramCounts (t : Except ForeignSource MappingTree) : Option (List Nat) :=
  (t.toOption.bind (·.class? "C")).map fun c => c.methods.map (·.params.length)

end Sample

open Sample in
/-- The method is given its descriptor by its own record, before the parameter comes. -/
theorem merge_is_idempotent_intMethod :
    ∃ t, (run {} [bareMethod]).tree.merge (fooSource [intMethod, intParam, longMethod]) = .ok t ∧
      t.merge (fooSource [intMethod, intParam, longMethod]) = .ok t := by
  have hmerged : ((run {} [bareMethod]).tree.merge
      (fooSource [intMethod, intParam, longMethod])).toOption.isSome = true := by
    cbv
  obtain ⟨t, ht⟩ := Option.isSome_iff_exists.1 hmerged
  have hmerge : (run {} [bareMethod]).tree.merge (fooSource [intMethod, intParam, longMethod]) =
      .ok t := by
    generalize (run {} [bareMethod]).tree.merge _ = result at ht
    cases result with
    | error e => cases ht
    | ok t' =>
      cases ht
      rfl
  exact ⟨t, hmerge, merge_is_idempotent (by cbv) (by decide) (by cbv) (by cbv) hmerge⟩

open Sample in
/-- The parameter comes first, and the method is given the descriptor of the other record: the next
time the parameter goes to another method. -/
theorem merge_is_not_idempotent :
    ({} : Builder).mergesSpareSource [bareMethod] = true ∧
    (fooSource [intParam, longMethod, intMethod]).namespaces.Nodup ∧
    (run {} [bareMethod]).tree.sparesSource (fooSource [intParam, longMethod, intMethod]) = true ∧
    paramCounts ((run {} [bareMethod]).tree.merge (fooSource [intParam, longMethod, intMethod])) =
      some [1, 0] ∧
    paramCounts (((run {} [bareMethod]).tree.merge
      (fooSource [intParam, longMethod, intMethod])).bind
        (·.merge (fooSource [intParam, longMethod, intMethod]))) = some [1, 1] := by
  refine ⟨by cbv, by decide, by cbv, by cbv, by cbv⟩

end Builder

end JarRemap

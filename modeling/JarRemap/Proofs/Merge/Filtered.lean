import JarRemap.Proofs.Adapt.Rekey
import JarRemap.Proofs.Builder.Annotations
import JarRemap.Proofs.Merge.Parallel

/-!
# Merging a part of the columns

A source may be merged with some of its destinations left out. The trees with and without them have
the same classes and members, and agree on the names in all namespaces that both have, but for those
that the tree had before and only the full source has names for.
-/

namespace JarRemap

/-- Names in two trees agree on the namespaces that both have, among those that are looked at. -/
def Names.AgreeOn (shown : String → Prop) (namespaces namespaces' : List String)
    (names names' : Names) : Prop :=
  ∀ name ∈ namespaces, name ∈ namespaces' → shown name →
    names'.get? (namespaces'.idxOf name) = names.get? (namespaces.idxOf name)

/-- Two trees with the same classes, members and parameters in the same order, the same descriptors
and comments, and the same names in the namespaces that both have, but for hidden ones. -/
def MappingTree.AgreesBut (hidden : String → Prop) (t t' : MappingTree) : Prop :=
  AlikeIn (Names.AgreeOn (¬ hidden ·) t.namespaces t'.namespaces) t.classes t'.classes

/-- The namespaces of a tree that one source has as destinations, but not the other. -/
def MappingTree.Hides (t : MappingTree) (s s' : Source) (name : String) : Prop :=
  name ∈ t.namespaces ∧ name ∈ s.destinations ∧ name ∉ s'.destinations

/-- A source without some of the destinations of another one. -/
structure Source.Narrows (s s' : Source) : Prop where
  key : s'.key = s.key
  subset : s'.destinations ⊆ s.destinations
  nodup : s.namespaces.Nodup
  nodup' : s'.namespaces.Nodup
  records : List.Forall₂ (fun r r' => r'.element = r.element ∧ r'.comment = r.comment ∧
    ∀ name ∈ s'.namespaces,
      r'.name? (s'.namespaces.idxOf name) = r.name? (s.namespaces.idxOf name)) s.records s'.records

namespace MappingTree

variable {t : MappingTree} {s s' : Source}

/-- The names of a record go to the columns of its namespaces, from a position on. -/
theorem get?_write_columnsOf (h : s.namespaces.Nodup) (names : Names) (r : Record) (start : Nat)
    (name : String) :
    (names.write (t.columnsOf s) r start).get? ((t.namespacesWith s).idxOf name) =
      if name ∈ s.namespaces.drop start then
        (r.name? (s.namespaces.idxOf name)).or (names.get? ((t.namespacesWith s).idxOf name))
      else names.get? ((t.namespacesWith s).idxOf name) := by
  have hmem : ∀ x ∈ s.namespaces, x ∈ t.namespacesWith s :=
    fun x hx => mem_addAllNew.2 (.inr hx)
  have hinj : ∀ x ∈ s.namespaces, ∀ y,
      (t.namespacesWith s).idxOf x = (t.namespacesWith s).idxOf y → x = y :=
    fun x hx y hxy => (List.idxOf_inj (hmem x hx)).1 hxy
  split
  · next hin =>
    obtain ⟨i, hi⟩ := List.mem_iff_getElem?.1 hin
    rw [List.getElem?_drop] at hi
    obtain ⟨hlt, hget⟩ := List.getElem?_eq_some_iff.1 hi
    have hindex : s.namespaces.idxOf name = start + i := by
      rw [← hget]
      exact h.idxOf_getElem _ hlt
    have hnodup : (t.columnsOf s).Nodup := List.Nodup.map_on (fun x hx y _ => hinj x hx y) h
    have hcolumn : (t.columnsOf s)[start + i]? = some ((t.namespacesWith s).idxOf name) := by
      rw [columnsOf, List.getElem?_map, hi]
      rfl
    rw [hindex]
    exact Names.get?_write_of_getElem? hnodup hcolumn (Nat.le_add_right start i) names r
  · next hout =>
    refine Names.get?_write_of_not_mem (fun hcolumn => hout ?_) names r
    rw [columnsOf, ← List.map_drop] at hcolumn
    obtain ⟨x, hx, hsame⟩ := List.mem_map.1 hcolumn
    rwa [← hinj x (List.mem_of_mem_drop hx) name hsame]

theorem idxOf_namespacesWith_of_mem {name : String} (h : name ∈ t.known s) :
    (t.namespacesWith s).idxOf name = (t.known s).idxOf name := by
  obtain ⟨more, hmore⟩ := prefix_addAllNew (t.known s) s.namespaces
  rw [namespacesWith, ← hmore, List.idxOf_append_of_mem h]

theorem le_idxOf_namespacesWith {name : String} (h : name ∉ t.known s) :
    (t.known s).length ≤ (t.namespacesWith s).idxOf name := by
  obtain ⟨more, hmore⟩ := prefix_addAllNew (t.known s) s.namespaces
  rw [namespacesWith, ← hmore, List.idxOf_append_of_notMem h]
  exact Nat.le_add_right _ _

section Narrowed

variable (h : s.Narrows s')

include h

theorem known_narrowed : t.known s' = t.known s := by
  rw [known, known, h.key]

/-- Names that stand in columns of the tree agree with themselves. -/
theorem agreeOn_self {shown : String → Prop} {names : Names}
    (hnames : names.Within (t.known s).length) :
    names.AgreeOn shown (t.namespacesWith s) (t.namespacesWith s') names := by
  intro name _ _ _
  by_cases hknown : name ∈ t.known s
  · rw [idxOf_namespacesWith_of_mem hknown,
      idxOf_namespacesWith_of_mem (known_narrowed h ▸ hknown), known_narrowed h]
  · have hknown' : name ∉ t.known s' := known_narrowed h ▸ hknown
    rw [hnames _ (le_idxOf_namespacesWith hknown),
      hnames _ (known_narrowed h ▸ le_idxOf_namespacesWith hknown')]

/-- A namespace that both trees have, and that is not hidden, is a destination of both sources or of
neither. -/
theorem mem_destinations_narrowed {name : String} (hmem : name ∈ t.namespacesWith s')
    (hshown : ¬ t.Hides s s' name) : name ∈ s'.destinations ↔ name ∈ s.destinations := by
  refine ⟨fun hname => h.subset hname, fun hname => ?_⟩
  have hne : name ≠ s'.key := by
    rintro rfl
    exact (List.nodup_cons.1 h.nodup).1 (h.key ▸ hname)
  by_contra hleft
  have hnew : name ∉ t.namespaces := fun hold => hshown ⟨hold, hname, hleft⟩
  rcases mem_addAllNew.1 hmem with hknown | hsource
  · unfold known at hknown
    split at hknown
    · exact hne (List.mem_singleton.1 hknown)
    · exact hnew hknown
  · rcases List.mem_cons.1 hsource with hkey | hdestination
    · exact hne hkey
    · exact hleft hdestination

/-- Both sources write to such a namespace, or neither does. -/
theorem mem_drop_narrowed {name : String} (hmem : name ∈ t.namespacesWith s')
    (hshown : ¬ t.Hides s s' name) {start : Nat} (hstart : start ≤ 1) :
    name ∈ s'.namespaces.drop start ↔ name ∈ s.namespaces.drop start := by
  have hdestinations := mem_destinations_narrowed h hmem hshown
  rcases Nat.le_one_iff_eq_zero_or_eq_one.1 hstart with rfl | rfl
  · simp only [List.drop_zero, Source.namespaces, List.mem_cons, hdestinations, h.key]
  · exact hdestinations

/-- The records of the two sources do the same, but for the names that they write into hidden
namespaces. -/
theorem forall₂_alike_narrowed :
    List.Forall₂ (Record.Alike
      (Names.AgreeOn (¬ t.Hides s s' ·) (t.namespacesWith s) (t.namespacesWith s'))
      (t.columnsOf s) (t.columnsOf s')) s.records s'.records := by
  refine List.Forall₂.imp (fun r r' hr => ?_) h.records
  obtain ⟨helement, hcomment, hnames⟩ := hr
  refine ⟨helement, ?_, hcomment, ?_⟩
  · have hkey := hnames s'.key List.mem_cons_self
    rwa [h.key, Source.namespaces, Source.namespaces, h.key, List.idxOf_cons_self,
      List.idxOf_cons_self] at hkey
  · intro start hstart names names' hagree name hmem hmem' hshown
    have hsame := mem_drop_narrowed h hmem' hshown hstart
    rw [get?_write_columnsOf h.nodup, get?_write_columnsOf h.nodup', hagree name hmem hmem' hshown]
    by_cases hin : name ∈ s'.namespaces.drop start
    · rw [if_pos hin, if_pos (hsame.1 hin), hnames name (List.mem_of_mem_drop hin)]
    · rw [if_neg hin, if_neg fun hin' => hin (hsame.2 hin')]

/-- Elements are found by names in a namespace that is not hidden. -/
theorem sees_narrowed {column : Nat} (hcolumn : (t.known s).idxOf? s.key = some column) :
    (t.keyView column).Sees
      (Names.AgreeOn (¬ t.Hides s s' ·) (t.namespacesWith s) (t.namespacesWith s')) := by
  have hkey : s.key ∈ t.known s := by
    by_contra hunknown
    rw [List.idxOf?_eq_none_iff.2 hunknown] at hcolumn
    cases hcolumn
  rw [idxOf?_of_mem hkey, Option.some.injEq] at hcolumn
  have hwidth := known_length_pos t s
  refine ⟨fun names names' hagree => ?_, fun name => ?_, ?_⟩
  · have hshown : ¬ t.Hides s s' s.key := fun hhidden => (List.nodup_cons.1 h.nodup).1 hhidden.2.1
    have hname := hagree s.key (mem_addAllNew.2 (.inl hkey))
      (mem_addAllNew.2 (.inl (known_narrowed h ▸ hkey))) hshown
    rwa [idxOf_namespacesWith_of_mem hkey,
      idxOf_namespacesWith_of_mem (known_narrowed h ▸ hkey), known_narrowed h, hcolumn] at hname
  · exact agreeOn_self h (Names.within_ofSource hwidth name)
  · exact agreeOn_self h Names.within_nil

omit h in
theorem alike_self {S : Names → Names → Prop} {width : Nat}
    (hS : ∀ names : Names, names.Within width → S names names) {c : ClassMapping}
    (hc : c.Within width) : c.Alike S c := by
  refine ⟨hS _ hc.names, rfl, ?_, ?_⟩
  · exact List.forall₂_same.2 fun f hf => ⟨hS _ (hc.fields f hf), rfl, rfl⟩
  · refine List.forall₂_same.2 fun m hm => ⟨hS _ (hc.methods m hm), rfl, rfl, ?_⟩
    exact List.forall₂_same.2 fun p hp => ⟨rfl, hS _ (hc.params m hm p hp), rfl⟩

/-- A source is merged with and without some of its destinations, or fails alike. -/
theorem merge_narrowed (ht : t.Bounded) :
    (∃ e, t.merge s = .error e ∧ t.merge s' = .error e) ∨
      ∃ a b, t.merge s = .ok a ∧ t.merge s' = .ok b ∧ a.AgreesBut (t.Hides s s') b := by
  unfold merge
  rw [known_narrowed h, h.key]
  cases hcolumn : (t.known s).idxOf? s.key with
  | none => exact .inl ⟨_, rfl, rfl⟩
  | some column =>
    refine .inr ⟨_, _, rfl, rfl, ?_⟩
    have hwider := namespaces_length_le_known t s
    refine AlikeIn.foldl_apply (sees_narrowed h hcolumn) (forall₂_alike_narrowed h) ?_
    refine alikeIn_self fun name c hc => ?_
    exact alike_self (fun names hnames => agreeOn_self h hnames) ((ht.within name c hc).mono hwider)

end Narrowed

end MappingTree

section Select

variable {α β : Type}

theorem select_cons_cons (flag : Bool) (flags : List Bool) (a : α) (l : List α) :
    Source.select (flag :: flags) (a :: l) =
      if flag then a :: Source.select flags l else Source.select flags l := by
  cases flag <;> rfl

theorem select_sublist (flags : List Bool) (l : List α) : (Source.select flags l).Sublist l := by
  induction flags generalizing l with
  | nil => exact List.nil_sublist l
  | cons flag flags ih =>
    cases l with
    | nil => exact List.Sublist.refl []
    | cons a l =>
      rw [select_cons_cons]
      cases flag with
      | true => exact (ih l).cons_cons a
      | false => exact (ih l).cons a

/-- What belongs to a member of a list still belongs to it, if members of both lists are left out
alike. -/
theorem getElem?_select_idxOf [DecidableEq α] {flags : List Bool} {l : List α} (h : l.Nodup)
    (values : List β) {a : α} (ha : a ∈ Source.select flags l) :
    (Source.select flags values)[(Source.select flags l).idxOf a]? = values[l.idxOf a]? := by
  induction flags generalizing l values with
  | nil => cases ha
  | cons flag flags ih =>
    cases l with
    | nil => cases ha
    | cons b l =>
      obtain ⟨hb, hl⟩ := List.nodup_cons.1 h
      cases values with
      | nil => rfl
      | cons value values =>
        rw [select_cons_cons] at ha
        rw [select_cons_cons, select_cons_cons]
        have hne : a ∈ Source.select flags l → b ≠ a := by
          rintro hmem rfl
          exact hb ((select_sublist flags l).subset hmem)
        cases flag with
        | false =>
          simp only [Bool.false_eq_true, if_false] at ha ⊢
          rw [ih hl values ha, List.idxOf_cons_ne _ (hne ha), List.getElem?_cons_succ]
        | true =>
          simp only [if_true, List.mem_cons] at ha ⊢
          by_cases hsame : b = a
          · subst hsame
            rw [List.idxOf_cons_self, List.idxOf_cons_self]
            rfl
          · have hmem := ha.resolve_left (Ne.symm hsame)
            rw [List.idxOf_cons_ne _ hsame, List.idxOf_cons_ne _ hsame, List.getElem?_cons_succ,
              List.getElem?_cons_succ, ih hl values hmem]

end Select

namespace Source

variable {s : Source}

theorem namespaces_keep (filter : List String) :
    (s.keep filter).namespaces =
      if filter.isEmpty then s.namespaces else select (s.keptColumns filter) s.namespaces := by
  unfold keep
  split <;> rfl

/-- A filter leaves out destinations. -/
theorem narrows_keep (h : s.namespaces.Nodup) (filter : List String) :
    s.Narrows (s.keep filter) := by
  by_cases hempty : filter.isEmpty = true
  · have hsame : s.keep filter = s := if_pos hempty
    rw [hsame]
    exact ⟨rfl, List.Subset.refl _, h, h, List.forall₂_same.2 fun r _ => ⟨rfl, rfl, fun _ _ => rfl⟩⟩
  · have hkeep : s.keep filter = { s with
        destinations := select (s.keptColumns filter).tail s.destinations
        records := s.records.map fun r =>
          { r with names := select (s.keptColumns filter) r.names } } := if_neg hempty
    have hnamespaces := s.namespaces_keep filter
    rw [if_neg hempty] at hnamespaces
    refine ⟨by rw [hkeep], ?_, h, ?_, ?_⟩
    · rw [hkeep]
      exact (select_sublist _ s.destinations).subset
    · rw [hnamespaces]
      exact (select_sublist _ s.namespaces).nodup h
    · rw [hnamespaces, hkeep, List.forall₂_map_right_iff, List.forall₂_same]
      refine fun r _ => ⟨rfl, rfl, fun name hname => ?_⟩
      exact congrArg Option.join (getElem?_select_idxOf h r.names hname)

theorem nodup_namespaces_rekey (h : s.namespaces.Nodup) (name : String) :
    (s.rekey name).namespaces.Nodup := by
  unfold rekey
  split
  · exact h
  · split
    · exact h
    · next column hcolumn =>
      have hlt : column < s.namespaces.length :=
        (List.findIdx?_eq_some_iff_getElem.1 hcolumn).1
      rw [namespaces_rekeyColumn hlt]
      exact nodup_swapFirst hlt h

end Source

namespace MappingTree

/-- A filter for destinations only hides columns. Whatever the tree and the renames are, and
whichever namespace a source is keyed by, it is merged with the filter if and only if it is merged
without one, and then the trees have the same classes, fields, methods and parameters in the same
order, with the same descriptors and comments, and the same name for each of them in every namespace
that both trees have. The exception is a namespace that the tree had before and that the filter
leaves out: in it the source names elements in one tree, while the other one keeps the names that it
had. -/
theorem merge_filtered {t : MappingTree} (ht : t.Reachable) {s : Source}
    {renames : OrderedMap String String} (hs : (s.rename renames).namespaces.Nodup)
    (source : String) (filter : List String) :
    let all := s.adapt { renames, source }
    let kept := s.adapt { renames, source, filter }
    (∃ e, t.merge all = .error e ∧ t.merge kept = .error e) ∨
      ∃ a b, t.merge all = .ok a ∧ t.merge kept = .ok b ∧ a.AgreesBut (t.Hides all kept) b :=
  merge_narrowed (Source.narrows_keep (Source.nodup_namespaces_rekey hs source) filter) ht.bounded

namespace Sample

/-- A source of one class. -/
def official (name : String) : Source :=
  ⟨"official", ["named"], ["official", "named"], [⟨.type, [some "a", some name], none⟩]⟩

def officialTree : MappingTree where
  namespaces := ["official", "named"]
  classes := ⟨[("a", { names := [some "a", some "A"] })], by decide⟩

theorem reachable_officialTree : officialTree.Reachable :=
  .merge .empty (s := official "A") rfl

/-- A source with more namespaces, keyed by none of them that the tree has. -/
def wide : Source :=
  ⟨"left", ["official", "mcp", "named"], ["left", "official", "mcp", "named"],
    [⟨.type, [some "L", some "a", some "P", some "B"], none⟩,
      ⟨.field "L" (some "LL;"), [some "l", some "f", some "p", none], some "text"⟩]⟩

end Sample

open Sample in
/-- The source is keyed by its second namespace, and of the others one is kept. The class and the
field agree in all namespaces of both trees but the one that was known before. -/
theorem merge_filtered_wide :
    officialTree.Reachable ∧ (wide.rename {}).namespaces.Nodup ∧
      ∃ a b, officialTree.merge (wide.adapt { source := "official" }) = .ok a ∧
        officialTree.merge (wide.adapt { source := "official", filter := ["mcp"] }) = .ok b ∧
        a.namespaces = ["official", "named", "left", "mcp"] ∧
        b.namespaces = ["official", "named", "mcp"] ∧
        a.AgreesBut (officialTree.Hides (wide.adapt { source := "official" })
          (wide.adapt { source := "official", filter := ["mcp"] })) b := by
  have hs : (wide.rename {}).namespaces.Nodup := by decide
  have hall : (officialTree.merge (wide.adapt { source := "official" })).map (·.namespaces) =
      .ok ["official", "named", "left", "mcp"] := by rfl
  have hkept : (officialTree.merge
      (wide.adapt { source := "official", filter := ["mcp"] })).map (·.namespaces) =
        .ok ["official", "named", "mcp"] := by rfl
  refine ⟨reachable_officialTree, hs, ?_⟩
  rcases merge_filtered reachable_officialTree hs "official" ["mcp"] with
    ⟨e, he, -⟩ | ⟨a, b, ha, hb, hagree⟩
  · rw [he] at hall
    cases hall
  · rw [ha] at hall
    rw [hb] at hkept
    exact ⟨a, b, ha, hb, Except.ok.inj hall, Except.ok.inj hkept, hagree⟩

open Sample in
/-- A tree that has a namespace already keeps its names there, if a filter leaves the namespace out;
without the filter it takes over those of the source. -/
theorem merge_filtered_overwrites :
    officialTree.Reachable ∧ ((official "B").rename {}).namespaces.Nodup ∧
      "official" ∉ ((official "B").adapt { source := "official" }).destinations ∧
      ∃ a b, officialTree.merge ((official "B").adapt { source := "official" }) = .ok a ∧
        officialTree.merge ((official "B").adapt { source := "official", filter := ["other"] }) =
          .ok b ∧
        "named" ∈ a.namespaces ∧ "named" ∈ b.namespaces ∧
        (a.class? "a").map (·.names) = some [some "a", some "B"] ∧
        (b.class? "a").map (·.names) = some [some "a", some "A"] ∧
        ¬ a.AgreesBut (fun _ => False) b := by
  refine ⟨reachable_officialTree, by decide, by decide, _, _, rfl, rfl, by decide, by decide, rfl,
    rfl, fun hagree => ?_⟩
  obtain ⟨⟨-, halike⟩, -⟩ := List.forall₂_cons.1 hagree
  have hname := halike.names "named" (by decide) (by decide) id
  exact absurd hname (by decide)

end MappingTree

end JarRemap

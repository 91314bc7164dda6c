import JarRemap.Proofs.Format.Lineage
import JarRemap.Proofs.Route.Resolve

/-!
# Connected namespaces

As long as no call renames or leaves out namespaces, the graph of the tree hangs together: a merge
adds the namespaces of a source, and its lineage joins all of them to a namespace the tree had. So
between any two namespaces of such a tree there is a way, and the fallback is never taken.
-/

namespace JarRemap

open Reach (Reaches Shortest Way)

namespace MappingTree

variable {t t' : MappingTree} {a b : String}

/-- From every namespace of the tree every other one is reached in the graph. -/
def Connected (t : MappingTree) : Prop :=
  ∀ a ∈ t.namespaces, ∀ b ∈ t.namespaces, Reaches t.neighbours a b

theorem reaches_mono (h : ∀ c, t.neighbours c ⊆ t'.neighbours c)
    (hreaches : Reaches t.neighbours a b) : Reaches t'.neighbours a b :=
  hreaches.lift id fun c _ hedge => h c hedge

theorem Linked.reaches_symm (h : t.Linked) (hreaches : Reaches t.neighbours a b) :
    Reaches t.neighbours b a := by
  induction hreaches with
  | refl => exact .refl
  | tail _ edge ih => exact .head (h.symm _ _ edge) ih

/-- Namespaces that are all reached from one are connected. -/
theorem Linked.connected_of_root (h : t.Linked) {root : String}
    (hroot : ∀ name ∈ t.namespaces, Reaches t.neighbours root name) : t.Connected :=
  fun a ha b hb => (h.reaches_symm (hroot a ha)).trans (hroot b hb)

theorem neighbours_subset_connect (t : MappingTree) (a b c : String) :
    t.neighbours c ⊆ (t.connect a b).neighbours c := by
  by_cases hab : a = b
  · subst hab
    rw [connect_self]
    exact List.Subset.refl _
  · exact fun d hd => (mem_neighbours_connect hab).2 (.inl hd)

theorem reaches_connect (t : MappingTree) (a b : String) :
    Reaches (t.connect a b).neighbours a b := by
  by_cases hab : a = b
  · subst hab
    exact .refl
  · exact .single ((mem_neighbours_connect hab).2 (.inr (.inl ⟨rfl, rfl⟩)))

theorem neighbours_subset_connectLineage (t : MappingTree) (lineage : List String) (c : String) :
    t.neighbours c ⊆ (Builder.connectLineage t lineage).neighbours c :=
  Builder.connectLineage_invariant (P := fun now => t.neighbours c ⊆ now.neighbours c)
    (fun now a b h _ _ => List.Subset.trans h (neighbours_subset_connect now a b c))
    (List.Subset.refl _) lineage

theorem Linked.connectLineage (h : t.Linked) (lineage : List String) :
    (Builder.connectLineage t lineage).Linked :=
  Builder.connectLineage_invariant (fun _ _ _ ht ha hb => ht.connect ha hb) h lineage

/-- The hops along a way of the graph are edges of it. -/
theorem hops_of_way {path : List String} (h : Way t.neighbours a path b) :
    ∀ hop ∈ t.along path, hop.target.name ∈ t.neighbours hop.source.name := by
  induction h with
  | here a => exact List.forall_mem_nil _
  | step edge rest ih =>
    obtain ⟨rest', rfl⟩ := rest.exists_cons
    exact List.forall_mem_cons.2 ⟨edge, ih⟩

/-- Behind the connection of a lineage, its first namespace reaches all others on it. -/
theorem reaches_connectLineage {rest : List String} (hknown : a :: rest ⊆ t.namespaces) :
    ∀ name ∈ a :: rest, Reaches (Builder.connectLineage t (a :: rest)).neighbours a name := by
  induction rest generalizing a t with
  | nil =>
    intro name hname
    rw [List.mem_singleton.1 hname]
  | cons b rest ih =>
    obtain ⟨ha, hrest⟩ := List.cons_subset.1 hknown
    have hfirst : Builder.connectLineage t (a :: b :: rest) =
        Builder.connectLineage (t.connect a b) (b :: rest) := by
      have hb := hrest List.mem_cons_self
      simp only [Builder.connectLineage, List.tail_cons, List.zip_cons_cons, List.foldl_cons,
        List.contains_iff_mem.2 ha, List.contains_iff_mem.2 hb, Bool.and_self, if_true]
    rw [hfirst]
    intro name hname
    rcases List.mem_cons.1 hname with rfl | hname
    · exact .refl
    · have hedge := reaches_mono (neighbours_subset_connectLineage _ (b :: rest))
        (reaches_connect t a b)
      exact hedge.trans (ih (by rwa [namespaces_connect]) name hname)

theorem mem_namespacesWith {s : Source} {name : String} :
    name ∈ t.namespacesWith s ↔ name ∈ t.namespaces ∨ name ∈ s.namespaces := by
  rw [namespacesWith, mem_addAllNew, known]
  split
  · next hempty =>
    rw [List.isEmpty_iff.1 hempty]
    simp [Source.namespaces]
  · rfl

/-- A source that is merged is keyed by a namespace of the tree, if the tree has any. -/
theorem key_mem_of_merge {s : Source} (h : t.merge s = .ok t') (ha : a ∈ t.namespaces) :
    s.key ∈ t.namespaces := by
  obtain ⟨column, hcolumn, -⟩ := merge_eq_ok h
  have hknown : t.known s = t.namespaces := by
    rw [known, if_neg]
    rw [List.isEmpty_iff]
    exact List.ne_nil_of_mem ha
  have hkey := List.isSome_idxOf?.1 (Option.isSome_of_mem hcolumn)
  rwa [hknown] at hkey

/-- What joins a source to a connected tree: its lineage has a namespace from which all namespaces
of the tree are reached already. -/
theorem Connected.exists_meeting (h : t.Connected) {s : Source} (hs : s.Anchored t.namespaces)
    (hmerge : t.merge s = .ok t') :
    ∃ a ∈ s.lineage, ∀ name ∈ t.namespaces, Reaches t.neighbours a name := by
  rcases hs.anchored with hall | ⟨a, ha, hknown⟩
  · exact ⟨s.key, hall List.mem_cons_self,
      fun name hname => h s.key (key_mem_of_merge hmerge hname) name hname⟩
  · exact ⟨a, ha, h a hknown⟩

/-- Behind the connection of a lineage, all namespaces on it are reached from each other. -/
theorem Linked.reaches_lineage {lineage : List String}
    (h : (Builder.connectLineage t lineage).Linked) (hknown : lineage ⊆ t.namespaces)
    (ha : a ∈ lineage) (hb : b ∈ lineage) :
    Reaches (Builder.connectLineage t lineage).neighbours a b := by
  cases lineage with
  | nil => cases ha
  | cons first rest =>
    have hfirst := reaches_connectLineage hknown
    exact (h.reaches_symm (hfirst a ha)).trans (hfirst b hb)

/-- Merging an anchored source into a connected tree gives a connected tree. -/
theorem Connected.merge (h : t.Connected) (hlinked : t.Linked) {s : Source}
    (hs : s.Anchored t.namespaces) (hmerge : t.merge s = .ok t') :
    (Builder.connectLineage t' s.lineage).Connected := by
  have hlinked' := (hlinked.merge hmerge).connectLineage s.lineage
  obtain ⟨a, ha, hold⟩ := h.exists_meeting hs hmerge
  obtain ⟨hnamespaces, hgraph⟩ : t'.namespaces = t.namespacesWith s ∧ t'.graph = t.graph := by
    obtain ⟨column, -, rfl⟩ := merge_eq_ok hmerge
    exact ⟨rfl, rfl⟩
  have hwithin : s.lineage ⊆ t'.namespaces := by
    intro name hname
    rw [hnamespaces]
    exact mem_namespacesWith.2 (hs.within name hname).symm
  have hlineage : ∀ name ∈ s.lineage,
      Reaches (Builder.connectLineage t' s.lineage).neighbours a name :=
    fun name hname => hlinked'.reaches_lineage hwithin ha hname
  have hkept : ∀ name ∈ t.namespaces,
      Reaches (Builder.connectLineage t' s.lineage).neighbours a name := by
    intro name hname
    refine reaches_mono (fun c => ?_) (hold name hname)
    have hsame : t.neighbours c = t'.neighbours c := by rw [neighbours, neighbours, hgraph]
    rw [hsame]
    exact neighbours_subset_connectLineage t' s.lineage c
  have hroot : ∀ name ∈ (Builder.connectLineage t' s.lineage).namespaces,
      Reaches (Builder.connectLineage t' s.lineage).neighbours a name := by
    intro name hname
    rw [Builder.namespaces_connectLineage, hnamespaces] at hname
    rcases mem_namespacesWith.1 hname with hname | hname
    · exact hkept name hname
    · rcases hs.covered name hname with hname | hname
      · exact hlineage name hname
      · exact hkept name hname
  exact hlinked'.connected_of_root hroot

/-- Between two namespaces of a connected tree there is a way along the graph, whatever the
fallback is. -/
theorem Connected.exists_route (h : t.Connected) (hlinked : t.Linked) {dev prod : String}
    (hdev : dev ∈ t.namespaces) (hprod : prod ∈ t.namespaces) (fallback : String) :
    ∃ route, t.resolve dev fallback prod = .ok route ∧ Simple dev prod route ∧
      ∀ hop ∈ route, hop.target.name ∈ t.neighbours hop.source.name := by
  obtain ⟨hresolution, hsimple⟩ := hlinked.resolution dev fallback prod
  have hreaches := h dev hdev prod hprod
  generalize hanswer : t.resolve dev fallback prod = answer at hresolution hsimple
  cases hresolution with
  | same => exact ⟨[], rfl, hsimple [] rfl, List.forall_mem_nil _⟩
  | direct _ shortest => exact ⟨_, rfl, hsimple _ rfl, hops_of_way shortest.way⟩
  | unknownSource _ unknown => exact absurd hdev unknown
  | unknownGoal _ _ unknown => exact absurd hprod unknown
  | single _ apart => exact absurd hreaches apart
  | around _ apart => exact absurd hreaches apart
  | noPath _ apart => exact absurd hreaches apart

end MappingTree

namespace Builder

open MappingTree (Simple)

/-- The input of a call that merges. -/
def Call.input? : Call → Option MappingInput
  | content _ _ input | file _ _ input => some input
  | side _ | freeze => none

/-- That a call neither renames namespaces nor leaves some out. -/
def Call.TakesAll (c : Call) : Prop :=
  ∀ input ∈ c.input?, input.adaptation.renames = {} ∧ input.adaptation.filter = []

/-- What texts are read as is anchored in the tree it is merged into. -/
theorem anchored_of_mem_sourcesOf {b : Builder} {a : Adaptation} (hrenames : a.renames = {})
    (hfilter : a.filter = []) {t : MappingTree} {texts : List MappingText} :
    ∀ p ∈ b.sourcesOf a t texts, p.2.Anchored p.1.namespaces := by
  induction texts generalizing t with
  | nil => exact List.forall_mem_nil _
  | cons m texts ih =>
    have hread : ∀ s, b.readText a t m = .ok s → s.Anchored t.namespaces := by
      intro s hs
      obtain ⟨parsed, hparsed, hadapted⟩ := Artifact.bind_eq_ok hs
      cases hadapted
      exact (Format.anchored_parse (Artifact.mapError_eq_ok hparsed)).adapt hrenames hfilter
    rw [sourcesOf]
    split
    · exact List.forall_mem_nil _
    · next s hs =>
      split
      · exact List.forall_mem_singleton.2 (hread s hs)
      · exact List.forall_mem_cons.2 ⟨hread s hs, ih⟩

theorem Call.input?_of_source? {b : Builder} {c : Call} {input : MappingInput}
    {texts : Except BuildError (List MappingText)} (h : c.source? b = some (input, texts)) :
    c.input? = some input := by
  cases c with
  | side | freeze => cases h
  | content | file => exact congrArg (Option.map Prod.fst) h

theorem Call.TakesAll.anchored {b : Builder} {c : Call} (h : c.TakesAll) :
    ∀ p ∈ c.sources b, p.2.Anchored p.1.namespaces := by
  unfold Call.sources
  split
  · next input texts hsource =>
    obtain ⟨hrenames, hfilter⟩ := h input (Call.input?_of_source? hsource)
    exact anchored_of_mem_sourcesOf hrenames hfilter
  · exact List.forall_mem_nil _

/-- A call that takes all namespaces of its source keeps a tree connected. -/
theorem Success.connected {b next : Builder} {c : Call} (h : Success b c next) (hc : c.TakesAll)
    (hlinked : b.tree.Linked) (hb : b.tree.Connected) :
    next.tree.Linked ∧ next.tree.Connected := by
  refine h.tree_invariant (P := fun t => t.Linked ∧ t.Connected) ?_ ?_ ⟨hlinked, hb⟩
  · rintro p hp merged ⟨hlinked, hconnected⟩ hmerge
    exact ⟨(hlinked.merge hmerge).connectLineage _,
      hconnected.merge hlinked (hc.anchored p hp) hmerge⟩
  · rintro t name ⟨hlinked, hconnected⟩
    exact ⟨hlinked.congr rfl (List.Subset.refl _), hconnected⟩

theorem run_connected {b : Builder} {calls : List Call} (hcalls : ∀ c ∈ calls, c.TakesAll)
    (hlinked : b.tree.Linked) (hb : b.tree.Connected) :
    (b.run calls).tree.Linked ∧ (b.run calls).tree.Connected := by
  induction calls generalizing b with
  | nil => exact ⟨hlinked, hb⟩
  | cons c calls ih =>
    obtain ⟨hc, hcalls⟩ := List.forall_mem_cons.1 hcalls
    rw [run_cons]
    rcases step_cases b c with hfailed | hsuccess
    · rw [hfailed]
      exact ih hcalls hlinked hb
    · obtain ⟨hlinked, hb⟩ := hsuccess.connected hc hlinked hb
      exact ih hcalls hlinked hb

/-- In every tree that calls build which rename no namespace and leave none out, each namespace is
reached from the source namespace. So there is a route between any two namespaces, which runs along
the graph whatever the fallback is. -/
theorem connected_of_takesAll {calls : List Call} (hcalls : ∀ c ∈ calls, c.TakesAll) :
    (∀ source ∈ (run {} calls).tree.namespaces.head?, ∀ name ∈ (run {} calls).tree.namespaces,
      Reaches (run {} calls).tree.neighbours source name) ∧
    ∀ dev ∈ (run {} calls).tree.namespaces, ∀ prod ∈ (run {} calls).tree.namespaces,
      ∀ fallback, ∃ route, (run {} calls).tree.resolve dev fallback prod = .ok route ∧
        Simple dev prod route ∧
        ∀ hop ∈ route, hop.target.name ∈ (run {} calls).tree.neighbours hop.source.name := by
  obtain ⟨hlinked, hconnected⟩ := run_connected (b := {}) hcalls (linked_run [])
    (List.forall_mem_nil _)
  constructor
  · intro source hsource name hname
    exact hconnected source (List.mem_of_mem_head? hsource) name hname
  · intro dev hdev prod hprod fallback
    exact hconnected.exists_route hlinked hdev hprod fallback

namespace Sample

/-- Readable names for searge names, as a table that is looked up in the tree. -/
def table : Call :=
  .content "fields.csv" (.bytes (bytesOf "searge,name,side,desc\nB,count,2,\n"))
    (keyedBy "official")

/-- A source that is keyed by its second namespace. -/
def behindSearge : Call :=
  .content "third.tiny" (.bytes (bytesOf "v1\tyarn\tsearge\nCLASS\tY\tA\n")) (keyedBy "searge")

end Sample

open Sample in
theorem connected_of_takesAll_table :
    ∃ route, (run {} [first, table, behindSearge]).tree.resolve "mcp" "nowhere" "yarn" = .ok route ∧
      route.map Hop.text = ["mcp -> searge", "searge -> yarn"] := by
  have hcalls : ∀ c ∈ [first, table, behindSearge], c.TakesAll := by
    simp [Call.TakesAll, Call.input?, first, table, behindSearge, keyedBy]
  have hnames : (run {} [first, table, behindSearge]).tree.namespaces =
      ["official", "searge", "mcp", "yarn"] := by
    cbv
  obtain ⟨route, hroute, -, -⟩ := (connected_of_takesAll hcalls).2 "mcp" (by simp [hnames]) "yarn"
    (by simp [hnames]) "nowhere"
  refine ⟨route, hroute, ?_⟩
  have hanswer : (run {} [first, table, behindSearge]).tree.resolve "mcp" "nowhere" "yarn" =
      .ok [⟨⟨"mcp", false⟩, ⟨"searge", false⟩⟩, ⟨⟨"searge", false⟩, ⟨"yarn", false⟩⟩] := by
    cbv
  cases hroute.symm.trans hanswer
  rfl

end Builder

end JarRemap

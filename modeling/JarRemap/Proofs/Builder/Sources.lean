import JarRemap.Proofs.Builder.Run

/-!
# The sources a call merges

A call that merges is a chain of merges of adapted sources into a staged tree. What one merge keeps,
the connection of a lineage keeps and a mark keeps, is kept by every call, and by every run.
-/

namespace JarRemap

namespace MappingTree

theorem merge_eq_ok {t t' : MappingTree} {s : Source} (h : t.merge s = .ok t') :
    ∃ column, (t.known s).idxOf? s.key = some column ∧
      t' = { t with
        namespaces := t.namespacesWith s
        classes := s.records.foldl (apply (t.keyView column) (t.columnsOf s)) t.classes } := by
  unfold merge at h
  split at h
  · cases h
  · next column hcolumn => exact ⟨column, hcolumn, (Except.ok.inj h).symm⟩

@[simp] theorem classes_connect (t : MappingTree) (a b : String) :
    (t.connect a b).classes = t.classes := by
  unfold connect
  split <;> rfl

@[simp] theorem namespaces_connect (t : MappingTree) (a b : String) :
    (t.connect a b).namespaces = t.namespaces := by
  unfold connect
  split <;> rfl

@[simp] theorem classes_declareNamed (t : MappingTree) (name : String) :
    (t.declareNamed name).classes = t.classes := rfl

@[simp] theorem namespaces_declareNamed (t : MappingTree) (name : String) :
    (t.declareNamed name).namespaces = t.namespaces := rfl

end MappingTree

namespace Builder

/-- Connecting a lineage is one connection after the other. -/
theorem connectLineage_invariant {P : MappingTree → Prop}
    (hconnect : ∀ t a b, P t → a ∈ t.namespaces → b ∈ t.namespaces → P (t.connect a b))
    {t : MappingTree} (ht : P t) (lineage : List String) : P (connectLineage t lineage) := by
  unfold connectLineage
  generalize lineage.zip lineage.tail = pairs
  induction pairs generalizing t with
  | nil => exact ht
  | cons pair pairs ih =>
    refine ih ?_
    dsimp only
    split
    · next h =>
      simp only [Bool.and_eq_true, List.contains_iff_mem] at h
      exact hconnect t _ _ ht h.1 h.2
    · exact ht

@[simp] theorem classes_connectLineage (t : MappingTree) (lineage : List String) :
    (connectLineage t lineage).classes = t.classes :=
  connectLineage_invariant (P := fun now => now.classes = t.classes)
    (fun now a b h _ _ => (now.classes_connect a b).trans h) rfl lineage

@[simp] theorem namespaces_connectLineage (t : MappingTree) (lineage : List String) :
    (connectLineage t lineage).namespaces = t.namespaces :=
  connectLineage_invariant (P := fun now => now.namespaces = t.namespaces)
    (fun now a b h _ _ => (now.namespaces_connect a b).trans h) rfl lineage

theorem mergeText_eq_ok {b : Builder} {a : Adaptation} {t t' : MappingTree} {m : MappingText}
    (h : b.mergeText a t m = .ok t') :
    ∃ s merged, b.readText a t m = .ok s ∧ b.collisions s.destinations = [] ∧
      t.merge s = .ok merged ∧ t' = connectLineage merged s.lineage := by
  unfold mergeText at h
  cases hs : b.readText a t m with
  | error e =>
    rw [hs] at h
    cases h
  | ok s =>
    rw [hs] at h
    change (if (b.collisions s.destinations).isEmpty = true then _ else _) = _ at h
    split at h
    · next hfree =>
      cases hmerge : t.merge s with
      | error e =>
        rw [hmerge] at h
        cases h
      | ok merged =>
        rw [hmerge] at h
        exact ⟨s, merged, rfl, List.isEmpty_iff.1 hfree, hmerge, (Except.ok.inj h).symm⟩
    · cases h

/-- The sources that texts are read as, each with the tree it is merged into. -/
def sourcesOf (b : Builder) (a : Adaptation) :
    MappingTree → List MappingText → List (MappingTree × Source)
  | _, [] => []
  | t, m :: rest =>
      match b.readText a t m with
      | .error _ => []
      | .ok s =>
          match b.mergeText a t m with
          | .error _ => [(t, s)]
          | .ok next => (t, s) :: b.sourcesOf a next rest

/-- The sources that a call merges, each with the tree it is merged into. -/
def Call.sources (b : Builder) (c : Call) : List (MappingTree × Source) :=
  match c.source? b with
  | some (input, .ok texts) => b.sourcesOf input.adaptation b.tree texts
  | _ => []

/-- What every merge of a chain keeps, the chain keeps. -/
theorem foldlM_mergeText_invariant {P : MappingTree → Prop} {b : Builder} {a : Adaptation}
    {texts : List MappingText} {t t' : MappingTree}
    (hmerge : ∀ p ∈ b.sourcesOf a t texts, ∀ merged, P p.1 → p.1.merge p.2 = .ok merged →
      P (connectLineage merged p.2.lineage))
    (ht : P t) (h : texts.foldlM (b.mergeText a) t = .ok t') : P t' := by
  induction texts generalizing t with
  | nil =>
    cases h
    exact ht
  | cons m texts ih =>
    rw [List.foldlM_cons] at h
    cases hm : b.mergeText a t m with
    | error e =>
      rw [hm] at h
      cases h
    | ok next =>
      rw [hm] at h
      obtain ⟨s, merged, hread, -, hmerged, rfl⟩ := mergeText_eq_ok hm
      have hsources : b.sourcesOf a t (m :: texts) =
          (t, s) :: b.sourcesOf a (connectLineage merged s.lineage) texts := by
        rw [sourcesOf, hread, hm]
      rw [hsources] at hmerge
      exact ih (fun p hp => hmerge p (List.mem_cons_of_mem _ hp))
        (hmerge (t, s) List.mem_cons_self merged ht hmerged) h

/-- What every merge of a call keeps, and a mark keeps, the call keeps. -/
theorem Success.tree_invariant {P : MappingTree → Prop} {b next : Builder} {c : Call}
    (h : Success b c next)
    (hmerge : ∀ p ∈ c.sources b, ∀ merged, P p.1 → p.1.merge p.2 = .ok merged →
      P (connectLineage merged p.2.lineage))
    (hmark : ∀ t name, P t → P (t.declareNamed name)) (hb : P b.tree) : P next.tree := by
  cases h with
  | side => exact hb
  | @merge c input texts t source _ _ staged =>
    rw [Call.sources, source] at hmerge
    unfold stage at staged
    cases hchain : texts.foldlM (b.mergeText input.adaptation) b.tree with
    | error e =>
      rw [hchain] at staged
      cases staged
    | ok t' =>
      rw [hchain] at staged
      cases staged
      have ht' : P t' := foldlM_mergeText_invariant hmerge hb hchain
      clear hchain
      change P (input.named.foldl MappingTree.declareNamed t')
      generalize input.named = named
      induction named generalizing t' with
      | nil => exact ht'
      | cons name named ih => exact ih _ (hmark t' name ht')
  | freeze => exact hb

end Builder

end JarRemap

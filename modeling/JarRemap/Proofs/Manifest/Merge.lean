import JarRemap.Manifest

/-!
# Manifests that are merged

Read attribute by attribute, a manifest is a table of values, and one that is merged into another is
laid over it. What a whole list of manifests comes to is what the last of them says about each
attribute, whatever the others say.
-/

namespace JarRemap

namespace Manifest

/-- The value of an attribute: of the section of a name, or of the whole archive. -/
def value? (m : Manifest) (name? : Option String) (key : String) : Option String :=
  match name? with
  | none => m.main.get? key
  | some name => (m.sections.get? name).bind fun attributes => attributes.get? key

/-- The attributes of a section are laid over those it has already. -/
def takeOver (sections : OrderedMap String Attributes) (e : String × Attributes) :
    OrderedMap String Attributes :=
  (sections.insertNew e.1 {}).modify e.1 (·.insertAll e.2.entries)

theorem get?_takeOver (sections : OrderedMap String Attributes) (e : String × Attributes)
    (name : String) :
    (takeOver sections e).get? name =
      if name = e.1 then some (((sections.get? name).getD {}).insertAll e.2.entries)
      else sections.get? name :=
  OrderedMap.get?_modify_insertNew sections e.1 name {} _

/-- A section is laid over once, since no name occurs twice among those that are taken over. -/
theorem get?_foldl_takeOver {l : List (String × Attributes)} (h : (l.map Prod.fst).Nodup)
    (sections : OrderedMap String Attributes) (name : String) :
    (l.foldl takeOver sections).get? name =
      match (l.find? fun e => e.1 = name).map Prod.snd with
      | none => sections.get? name
      | some attributes =>
          some (((sections.get? name).getD {}).insertAll attributes.entries) := by
  induction l generalizing sections with
  | nil => rfl
  | cons e l ih =>
    rw [List.map_cons, List.nodup_cons] at h
    rw [List.foldl_cons, ih h.2, get?_takeOver]
    by_cases hname : e.1 = name
    · subst hname
      have hnone : (l.find? fun other => other.1 = e.1) = none := by
        rw [List.find?_eq_none]
        intro other hother hsame
        exact h.1 (List.mem_map.2 ⟨other, hother, of_decide_eq_true hsame⟩)
      simp [hnone]
    · rw [List.find?_cons_of_neg (by simpa using hname), if_neg (Ne.symm hname)]

/-- A section of the manifest that is merged is laid over the section of its name. -/
theorem get?_sections_merge (m other : Manifest) (name : String) :
    (m.merge other).sections.get? name =
      match other.sections.get? name with
      | none => m.sections.get? name
      | some attributes =>
          some (((m.sections.get? name).getD {}).insertAll attributes.entries) :=
  get?_foldl_takeOver other.sections.nodup m.sections name

/-- An attribute has the value of the manifest that is merged, if it is defined there. -/
theorem value?_merge (m other : Manifest) (name? : Option String) (key : String) :
    (m.merge other).value? name? key = (other.value? name? key).or (m.value? name? key) := by
  cases name? with
  | none => exact OrderedMap.get?_insertAll_entries m.main other.main key
  | some name =>
    rw [value?, value?, value?, get?_sections_merge]
    cases other.sections.get? name with
    | none => rw [Option.bind_none, Option.none_or]
    | some attributes =>
      rw [Option.bind_some, Option.bind_some, OrderedMap.get?_insertAll_entries]
      cases m.sections.get? name <;> rfl

/-- The sections of both manifests are there. -/
theorem contains_sections_merge (m other : Manifest) (name : String) :
    (m.merge other).sections.contains name =
      (m.sections.contains name || other.sections.contains name) := by
  rw [OrderedMap.contains_eq_isSome_get?, OrderedMap.contains_eq_isSome_get?,
    OrderedMap.contains_eq_isSome_get?, get?_sections_merge]
  cases other.sections.get? name <;> simp

/-- A manifest holds what a list of manifests comes to: every attribute with the value that the last
manifest defining it gives it, and every section. -/
structure Merges (all : List Manifest) (m : Manifest) : Prop where
  value : ∀ name? key, m.value? name? key = all.reverse.findSome? (·.value? name? key)
  sections : ∀ name, m.sections.contains name = all.any (·.sections.contains name)

namespace Merges

variable {all : List Manifest} {m : Manifest}

theorem single (m : Manifest) : Merges [m] m := by
  refine ⟨fun name? key => ?_, fun name => ?_⟩
  · rw [List.reverse_singleton, List.findSome?_singleton]
  · simp

/-- One more manifest is merged behind all others. -/
theorem merge (h : Merges all m) (other : Manifest) : Merges (all ++ [other]) (m.merge other) := by
  refine ⟨fun name? key => ?_, fun name => ?_⟩
  · rw [value?_merge, h.value, List.reverse_append, List.findSome?_append, List.reverse_singleton,
      List.findSome?_singleton]
  · rw [contains_sections_merge, h.sections, List.any_append]
    simp

/-- Manifests are merged one after the other. -/
theorem foldl (h : Merges all m) (later : List Manifest) :
    Merges (all ++ later) (later.foldl Manifest.merge m) := by
  induction later generalizing all m with
  | nil => rwa [List.append_nil]
  | cons other later ih =>
    rw [List.append_cons]
    exact ih (h.merge other)

end Merges

end Manifest

end JarRemap

import JarRemap.Proofs.Json.Listing
import JarRemap.Refmap

/-!
# Only references change

References stand in reference maps at fixed depths: two objects below the table for all
environments, and two objects below the table of each environment. Renaming changes the texts at
these places and nothing else, whatever else a file holds.
-/

namespace JarRemap.Refmaps

open Json (Step Shape listing itemListing memberListing)

/-- Whether references stand at a path. -/
def isReferencePath : List Step → Bool
  | [.member table, .member _, .member _] => table = "mappings"
  | [.member tables, .member _, .member _, .member _] => tables = "data"
  | _ => false

/-- A line of a reference map under new names. -/
def renameLine (r : Refmaps) (names : Resolver) : List Step × Shape → List Step × Shape
  | (path, .string s) =>
      (path, .string (if isReferencePath path then r.renameReference names s else s))
  | line => line

section Paths

variable {path : List Step}

theorem isReferencePath_iff : isReferencePath path = true ↔
    (∃ mixin name, path = [.member "mappings", .member mixin, .member name]) ∨
      ∃ environment mixin name,
        path = [.member "data", .member environment, .member mixin, .member name] := by
  constructor
  · intro h
    unfold isReferencePath at h
    split at h
    · next table mixin name =>
      obtain rfl : table = "mappings" := by simpa using h
      exact .inl ⟨mixin, name, rfl⟩
    · next tables environment mixin name =>
      obtain rfl : tables = "data" := by simpa using h
      exact .inr ⟨environment, mixin, name, rfl⟩
    · cases h
  · rintro (⟨mixin, name, rfl⟩ | ⟨environment, mixin, name, rfl⟩) <;> rfl

/-- No reference stands below another one. -/
theorem isReferencePath_append_cons (h : isReferencePath path = true) (step : Step)
    (steps : List Step) : isReferencePath (path ++ step :: steps) = false := by
  rw [← Bool.not_eq_true, isReferencePath_iff]
  rcases isReferencePath_iff.1 h with ⟨mixin, name, rfl⟩ | ⟨environment, mixin, name, rfl⟩ <;> simp

/-- No reference stands in an array. -/
theorem isReferencePath_of_item (path : List Step) (i : Nat) (steps : List Step) :
    isReferencePath (path ++ .item i :: steps) = false := by
  rw [← Bool.not_eq_true, isReferencePath_iff]
  have hitem : Step.item i ∈ path ++ .item i :: steps :=
    List.mem_append_right path List.mem_cons_self
  rintro (⟨_, _, hpath⟩ | ⟨_, _, _, hpath⟩) <;> simp [hpath] at hitem

end Paths

section Lines

variable {r : Refmaps} {names : Resolver} {path : List Step}

theorem renameLine_of_path {line : List Step × Shape} (h : isReferencePath line.1 = false) :
    r.renameLine names line = line := by
  obtain ⟨path, shape⟩ := line
  cases shape <;> simp_all [renameLine]

theorem renameLine_of_shape {shape : Shape} (h : ∀ s, shape ≠ .string s) :
    r.renameLine names (path, shape) = (path, shape) := by
  cases shape <;> simp_all [renameLine]

theorem map_renameLine_eq_self {lines : List (List Step × Shape)}
    (h : ∀ line ∈ lines, isReferencePath line.1 = false) : lines.map (r.renameLine names) = lines :=
  (List.map_congr_left fun line hline => renameLine_of_path (h line hline)).trans
    (List.map_id lines)

/-- A value below which no references stand stays as it is. -/
theorem map_renameLine_listing (h : ∀ steps, isReferencePath (path ++ steps) = false) (j : Json) :
    (listing path j).map (r.renameLine names) = listing path j := by
  refine map_renameLine_eq_self fun line hline => ?_
  obtain ⟨steps, hsteps⟩ := Json.prefix_of_mem_listing j hline
  rw [← hsteps, h]

/-- Where no reference stands, only an object can hold one. -/
theorem map_renameLine_of_not_object (hpath : isReferencePath path = false) {j : Json}
    (h : ∀ members, j ≠ .object members) :
    (listing path j).map (r.renameLine names) = listing path j := by
  refine map_renameLine_eq_self fun line hline => ?_
  cases j with
  | object members => exact absurd rfl (h members)
  | array items =>
    rcases List.mem_cons.1 hline with rfl | hline
    · exact hpath
    · obtain ⟨i, steps, hsteps⟩ := Json.prefix_of_mem_itemListing items hline
      rw [← hsteps, List.append_assoc]
      exact isReferencePath_of_item path i steps
  | _ =>
    rw [List.mem_singleton.1 hline]
    exact hpath

/-- A change of members changes lines as it changes those of each member. -/
theorem memberListing_map {f : String → Json → Json} {members : List (String × Json)}
    (h : ∀ name j, listing (path ++ [.member name]) (f name j) =
      (listing (path ++ [.member name]) j).map (r.renameLine names)) :
    memberListing path (members.map fun (name, j) => (name, f name j)) =
      (memberListing path members).map (r.renameLine names) := by
  induction members with
  | nil => rfl
  | cons m members ih =>
    rw [List.map_cons, memberListing, memberListing, List.map_append, h, ih]

theorem listing_object_map {f : String → Json → Json} {members : List (String × Json)}
    (h : ∀ name j, listing (path ++ [.member name]) (f name j) =
      (listing (path ++ [.member name]) j).map (r.renameLine names)) :
    listing path (.object (members.map fun (name, j) => (name, f name j))) =
      (listing path (.object members)).map (r.renameLine names) := by
  rw [listing, listing, List.map_cons, renameLine_of_shape (fun _ hs => by cases hs),
    memberListing_map h, List.map_map]
  rfl

/-- Where no reference stands, what is no object stays as it is, and an object changes as its
members do. -/
theorem listing_changeMembers {f : Json → Json} (hpath : isReferencePath path = false)
    (h : ∀ name j, listing (path ++ [.member name]) (f j) =
      (listing (path ++ [.member name]) j).map (r.renameLine names)) (j : Json) :
    listing path (changeMembers f j) = (listing path j).map (r.renameLine names) := by
  cases j with
  | object members => exact listing_object_map (f := fun _ => f) h
  | _ => exact (map_renameLine_of_not_object hpath fun _ h => by cases h).symm

/-- A reference is renamed, and what is no text in its place stays as it is. -/
theorem listing_renameString (hpath : isReferencePath path = true) (j : Json) :
    listing path (r.renameString names j) = (listing path j).map (r.renameLine names) := by
  have hother : (∀ s, j.shape ≠ .string s) →
      listing path j = (listing path j).map (r.renameLine names) := fun hshape => by
    refine ((List.map_congr_left fun line hline => ?_).trans (List.map_id _)).symm
    rcases Json.below_of_mem_listing hline with rfl | ⟨step, steps, hbelow⟩
    · exact renameLine_of_shape hshape
    · exact renameLine_of_path (hbelow ▸ isReferencePath_append_cons hpath step steps)
  cases j with
  | string s =>
    change [(path, Shape.string (r.renameReference names s))] =
      [(path, Shape.string (if isReferencePath path then r.renameReference names s else s))]
    rw [if_pos hpath]
  | _ => exact hother fun _ h => by cases h

/-- References stand two objects below a table. -/
theorem listing_renameTable
    (htable : isReferencePath path = false)
    (hmixin : ∀ mixin, isReferencePath (path ++ [.member mixin]) = false)
    (hname : ∀ mixin name, isReferencePath (path ++ [.member mixin] ++ [.member name]) = true)
    (j : Json) :
    listing path (r.renameTable names j) = (listing path j).map (r.renameLine names) :=
  listing_changeMembers htable (fun mixin => listing_changeMembers (hmixin mixin) fun name =>
    listing_renameString (hname mixin name)) j

end Lines

/-- The tables of a reference map, each renamed on its own. -/
theorem renameRefmap_object (r : Refmaps) (names : Resolver) (members : List (String × Json)) :
    r.renameRefmap names (.object members) = .object (members.map fun (name, j) =>
      (name, if name = "mappings" then r.renameTable names j
        else if name = "data" then changeMembers (r.renameTable names) j else j)) := by
  rw [renameRefmap, changeMember, changeMember, List.map_map]
  congr 2
  funext ⟨name, j⟩
  by_cases hmappings : name = "mappings"
  · subst hmappings
    rfl
  · by_cases hdata : name = "data" <;> simp [hmappings, hdata]

/-- Renaming a reference map changes only references. -/
theorem listing_renameRefmap (r : Refmaps) (names : Resolver) (j : Json) :
    listing [] (r.renameRefmap names j) = (listing [] j).map (r.renameLine names) := by
  cases j with
  | object members =>
    rw [renameRefmap_object]
    refine listing_object_map (f := fun name j => if name = "mappings" then r.renameTable names j
      else if name = "data" then changeMembers (r.renameTable names) j else j) fun name j => ?_
    by_cases hmappings : name = "mappings"
    · subst hmappings
      exact listing_renameTable rfl (fun _ => rfl) (fun _ _ => rfl) j
    rw [if_neg hmappings]
    by_cases hdata : name = "data"
    · subst hdata
      exact listing_changeMembers rfl (fun environment => listing_renameTable rfl (fun _ => rfl)
        fun _ _ => rfl) j
    rw [if_neg hdata]
    refine (map_renameLine_listing (fun steps => ?_) j).symm
    rw [← Bool.not_eq_true, isReferencePath_iff]
    simp [hmappings, hdata]
  | _ => exact (map_renameLine_of_not_object rfl fun _ h => by cases h).symm

/-- A reference map under new names is the one value that has the lines of the old one with other
texts where references stand: the same members in every object, the same items in every array, the
same numbers and words, and the same texts everywhere else. -/
theorem renamed_only_at_references (r : Refmaps) (names : Resolver) (j k : Json) :
    k = r.renameRefmap names j ↔ listing [] k = (listing [] j).map (r.renameLine names) := by
  rw [← listing_renameRefmap]
  exact ⟨fun h => by rw [h], Json.listing_inj⟩

/-- A text is renamed two objects below a table, and neither above nor below. -/
example :
    let r : Refmaps := ⟨⟨true, false⟩, [], {}⟩
    let names : Resolver :=
      { dictionary :=
          { source := ⟨"x", false⟩, target := ⟨"y", false⟩, classes := .ofList [("a", "b")] } }
    let references (text : String) : Json :=
      .object [("a", .string text), ("m", .array [.string "a"])]
    r.renameRefmap names (.object [("a", .string "a"), ("data", .object [("a", .string "a"),
        ("e", .object [("a", references "a")])]),
      ("mappings", .object [("a", references "a"), ("m", .object [("n", references "a")])])]) =
    .object [("a", .string "a"), ("data", .object [("a", .string "a"),
        ("e", .object [("a", references "b")])]),
      ("mappings", .object [("a", references "b"), ("m", .object [("n", references "a")])])] := by
  rfl

end JarRemap.Refmaps

import JarRemap.Json.Value

/-!
# What stands where in a JSON value

A value in full: one line for each value in it, in order, with the path that leads to it and what it
is apart from the values it holds. No two values have the same lines.
-/

namespace JarRemap.Json

/-- A step from an array or an object to a value in it. -/
inductive Step where
  | item (index : Nat)
  | member (name : String)
deriving DecidableEq, Repr

/-- What a value is, apart from the values it holds. -/
inductive Shape where
  | null
  | bool (b : Bool)
  | number (n : Json.Number)
  | string (s : String)
  | array (size : Nat)
  | object (names : List String)

/-- What a value is, apart from the values it holds. -/
def shape : Json → Shape
  | null => .null
  | bool b => .bool b
  | number n => .number n
  | string s => .string s
  | array items => .array items.length
  | object members => .object (members.map Prod.fst)

mutual

/-- The lines of a value that a path leads to. -/
def listing (path : List Step) : Json → List (List Step × Shape)
  | array items => (path, .array items.length) :: itemListing path 0 items
  | object members => (path, .object (members.map Prod.fst)) :: memberListing path members
  | j => [(path, j.shape)]

/-- The lines of the items from an index on. -/
def itemListing (path : List Step) (index : Nat) : List Json → List (List Step × Shape)
  | [] => []
  | item :: rest =>
      listing (path ++ [.item index]) item ++ itemListing path (index + 1) rest

def memberListing (path : List Step) : List (String × Json) → List (List Step × Shape)
  | [] => []
  | (name, item) :: rest => listing (path ++ [.member name]) item ++ memberListing path rest

end

/-- Every value begins with its own line. -/
theorem head?_listing (path : List Step) (j : Json) :
    (listing path j).head? = some (path, j.shape) := by
  cases j <;> rfl

mutual

/-- All lines of a value stand below its path. -/
theorem prefix_of_mem_listing {path : List Step} {line : List Step × Shape} :
    ∀ j : Json, line ∈ listing path j → path <+: line.1
  | null, h | bool _, h | number _, h | string _, h => by
      obtain rfl := List.mem_singleton.1 h
      exact List.prefix_refl path
  | array items, h => by
      rcases List.mem_cons.1 h with rfl | h
      · exact List.prefix_refl path
      · obtain ⟨_, hbelow⟩ := prefix_of_mem_itemListing items h
        exact (List.prefix_append _ _).trans hbelow
  | object members, h => by
      rcases List.mem_cons.1 h with rfl | h
      · exact List.prefix_refl path
      · obtain ⟨_, hbelow⟩ := prefix_of_mem_memberListing members h
        exact (List.prefix_append _ _).trans hbelow

theorem prefix_of_mem_itemListing {path : List Step} {index : Nat} {line : List Step × Shape} :
    ∀ items : List Json, line ∈ itemListing path index items →
      ∃ i, path ++ [.item i] <+: line.1
  | [], h => by cases h
  | item :: items, h => by
      rcases List.mem_append.1 h with h | h
      · exact ⟨index, prefix_of_mem_listing item h⟩
      · exact prefix_of_mem_itemListing items h

theorem prefix_of_mem_memberListing {path : List Step} {line : List Step × Shape} :
    ∀ members : List (String × Json), line ∈ memberListing path members →
      ∃ name, path ++ [.member name] <+: line.1
  | [], h => by cases h
  | (name, item) :: members, h => by
      rcases List.mem_append.1 h with h | h
      · exact ⟨name, prefix_of_mem_listing item h⟩
      · exact prefix_of_mem_memberListing members h

end

/-- Behind its own line, the lines of a value stand below its path. -/
theorem below_of_mem_listing {path : List Step} {line : List Step × Shape} {j : Json}
    (h : line ∈ listing path j) :
    line = (path, j.shape) ∨ ∃ step steps, line.1 = path ++ step :: steps := by
  cases j with
  | array items =>
    rcases List.mem_cons.1 h with hhead | h
    · exact .inl hhead
    · obtain ⟨i, steps, hsteps⟩ := prefix_of_mem_itemListing items h
      exact .inr ⟨.item i, steps, by rw [← hsteps, List.append_assoc]; rfl⟩
  | object members =>
    rcases List.mem_cons.1 h with hhead | h
    · exact .inl hhead
    · obtain ⟨name, steps, hsteps⟩ := prefix_of_mem_memberListing members h
      exact .inr ⟨.member name, steps, by rw [← hsteps, List.append_assoc]; rfl⟩
  | _ => exact .inl (List.mem_singleton.1 h)

theorem shape_eq_of_listing_append {path : List Step} {rest rest' : List (List Step × Shape)}
    {j k : Json} (h : listing path j ++ rest = listing path k ++ rest') : j.shape = k.shape := by
  have hhead := congrArg List.head? h
  rw [List.head?_append, List.head?_append, head?_listing, head?_listing] at hhead
  exact (Prod.mk.inj (Option.some.inj hhead)).2

mutual

/-- A value is told from its lines, whatever stands behind them: each line says how many values
follow it. -/
theorem listing_append_inj {path : List Step} {rest rest' : List (List Step × Shape)} :
    ∀ j k : Json, listing path j ++ rest = listing path k ++ rest' → j = k ∧ rest = rest'
  | array items, k, h => by
      have hshape := shape_eq_of_listing_append h
      cases k with
      | array others =>
        obtain ⟨hitems, hrest⟩ := itemListing_append_inj items others (Shape.array.inj hshape)
          (List.cons.inj h).2
        exact ⟨congrArg array hitems, hrest⟩
      | _ => cases hshape
  | object members, k, h => by
      have hshape := shape_eq_of_listing_append h
      cases k with
      | object others =>
        obtain ⟨hmembers, hrest⟩ := memberListing_append_inj members others
          (Shape.object.inj hshape) (List.cons.inj h).2
        exact ⟨congrArg object hmembers, hrest⟩
      | _ => cases hshape
  | null, k, h => by
      have hshape := shape_eq_of_listing_append h
      cases k with
      | null => exact ⟨rfl, (List.cons.inj h).2⟩
      | _ => cases hshape
  | bool b, k, h => by
      have hshape := shape_eq_of_listing_append h
      cases k with
      | bool b' => exact ⟨congrArg bool (Shape.bool.inj hshape), (List.cons.inj h).2⟩
      | _ => cases hshape
  | number n, k, h => by
      have hshape := shape_eq_of_listing_append h
      cases k with
      | number n' => exact ⟨congrArg number (Shape.number.inj hshape), (List.cons.inj h).2⟩
      | _ => cases hshape
  | string s, k, h => by
      have hshape := shape_eq_of_listing_append h
      cases k with
      | string s' => exact ⟨congrArg string (Shape.string.inj hshape), (List.cons.inj h).2⟩
      | _ => cases hshape

theorem itemListing_append_inj {path : List Step} {index : Nat}
    {rest rest' : List (List Step × Shape)} : ∀ items others : List Json,
      items.length = others.length →
        itemListing path index items ++ rest = itemListing path index others ++ rest' →
          items = others ∧ rest = rest'
  | [], [], _, h => ⟨rfl, h⟩
  | item :: items, other :: others, hlength, h => by
      rw [itemListing, itemListing, List.append_assoc, List.append_assoc] at h
      obtain ⟨rfl, hbehind⟩ := listing_append_inj item other h
      obtain ⟨rfl, hrest⟩ := itemListing_append_inj items others (Nat.succ.inj hlength) hbehind
      exact ⟨rfl, hrest⟩

theorem memberListing_append_inj {path : List Step} {rest rest' : List (List Step × Shape)} :
    ∀ members others : List (String × Json),
      members.map Prod.fst = others.map Prod.fst →
        memberListing path members ++ rest = memberListing path others ++ rest' →
          members = others ∧ rest = rest'
  | [], [], _, h => ⟨rfl, h⟩
  | (name, item) :: members, (name', other) :: others, hnames, h => by
      obtain ⟨hname, hbelow⟩ := List.cons.inj hnames
      obtain rfl : name = name' := hname
      rw [memberListing, memberListing, List.append_assoc, List.append_assoc] at h
      obtain ⟨rfl, hbehind⟩ := listing_append_inj item other h
      obtain ⟨rfl, hrest⟩ := memberListing_append_inj members others hbelow hbehind
      exact ⟨rfl, hrest⟩

end

/-- Values with the same lines are the same. -/
theorem listing_inj {path : List Step} {j k : Json} (h : listing path j = listing path k) :
    j = k :=
  (listing_append_inj j k (congrArg (· ++ []) h)).1

end JarRemap.Json

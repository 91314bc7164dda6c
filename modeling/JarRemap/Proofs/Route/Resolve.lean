import JarRemap.Route
import JarRemap.Proofs.Builder.Links
import JarRemap.Proofs.Reach.Search

/-!
# Routes between namespaces

What a tree answers if it is asked for a route: one law with a case for each answer, and the shape
of every route it gives.
-/

namespace JarRemap

open Reach (Reaches Shortest Way)

namespace MappingTree

variable {t : MappingTree} {dev fallback prod : String}

/-- A namespace under the mark it has in a tree. -/
def marked (t : MappingTree) (name : String) : Namespace := ⟨name, t.isNamed name⟩

/-- The hops between the namespaces of a way, each under its mark. -/
def along (t : MappingTree) : List String → List Hop
  | a :: b :: rest => ⟨t.marked a, t.marked b⟩ :: along t (b :: rest)
  | _ => []

/-- The two ends of a way that has to be looked for: distinct namespaces of the tree. -/
structure Ends (t : MappingTree) (dev prod : String) : Prop where
  distinct : dev ≠ prod
  source : dev ∈ t.namespaces
  goal : prod ∈ t.namespaces

/-- What a tree answers if it is asked for a route, the earlier case before the later one. -/
inductive Resolution (t : MappingTree) (dev fallback prod : String) :
    Except RouteError (List Hop) → Prop where
  | same (equal : dev = prod) : Resolution t dev fallback prod (.ok [])
  | unknownSource (distinct : dev ≠ prod) (unknown : dev ∉ t.namespaces) :
      Resolution t dev fallback prod (.error (.unknownNamespace ⟨dev⟩))
  | unknownGoal (distinct : dev ≠ prod) (source : dev ∈ t.namespaces)
      (unknown : prod ∉ t.namespaces) :
      Resolution t dev fallback prod (.error (.unknownNamespace ⟨prod⟩))
  | direct {path : List String} (ends : t.Ends dev prod)
      (shortest : Shortest t.neighbours dev path prod) :
      Resolution t dev fallback prod (.ok (t.along path))
  | single (ends : t.Ends dev prod) (apart : ¬ Reaches t.neighbours dev prod)
      (equal : fallback = prod) : Resolution t dev fallback prod (.ok (t.along [dev, prod]))
  | around {path : List String} (ends : t.Ends dev prod)
      (apart : ¬ Reaches t.neighbours dev prod) (distinct : fallback ≠ prod)
      (known : fallback ∈ t.namespaces)
      (shortest : Shortest t.neighbours fallback path prod) :
      Resolution t dev fallback prod (.ok (t.along (dev :: path)))
  | noPath (ends : t.Ends dev prod) (apart : ¬ Reaches t.neighbours dev prod)
      (distinct : fallback ≠ prod)
      (nowhere : ¬ (fallback ∈ t.namespaces ∧ Reaches t.neighbours fallback prod)) :
      Resolution t dev fallback prod (.error (.noPath dev fallback prod))

/-- The namespaces along a route: where it starts, and the target of each hop. -/
def stops (dev : String) (route : List Hop) : List String := dev :: route.map (·.target.name)

/-- A route whose hops join from one namespace to another without meeting any of them twice. -/
structure Simple (dev prod : String) (route : List Hop) : Prop where
  departs : ∀ hop ∈ route.head?, hop.source.name = dev
  joined : route.IsChain fun hop later => hop.target = later.source
  arrives : (stops dev route).getLast? = some prod
  distinct : (stops dev route).Nodup
  targets : (route.map Hop.target).Nodup

theorem namespace?_of_mem {name : String} (h : name ∈ t.namespaces) :
    t.namespace? name = .ok (t.marked name) := by
  rw [namespace?, if_pos (List.contains_iff_mem.2 h)]
  rfl

theorem namespace?_of_not_mem {name : String} (h : name ∉ t.namespaces) :
    t.namespace? name = .error ⟨name⟩ := by
  rw [namespace?, if_neg (fun hmem => h (List.contains_iff_mem.1 hmem))]

/-- The hops between namespaces of the tree are found. -/
theorem hops_eq_along {path : List String} (h : ∀ name ∈ path, name ∈ t.namespaces) :
    t.hops path = .ok (t.along path) := by
  induction path with
  | nil => rfl
  | cons a path ih =>
    cases path with
    | nil => rfl
    | cons b rest =>
      have hrest := ih fun name hname => h name (List.mem_cons_of_mem a hname)
      rw [hops, List.tail_cons] at hrest
      rw [hops, List.tail_cons, List.zip_cons_cons, List.mapM_cons, hrest]
      dsimp only
      have hb : b ∈ t.namespaces := h b (List.mem_cons_of_mem a List.mem_cons_self)
      rw [namespace?_of_mem (h a List.mem_cons_self), namespace?_of_mem hb]
      rfl

@[simp] theorem stops_along (a : String) (rest : List String) :
    stops a (t.along (a :: rest)) = a :: rest := by
  induction rest generalizing a with
  | nil => rfl
  | cons b rest ih => exact congrArg (a :: ·) (ih b)

theorem isChain_along (path : List String) :
    (t.along path).IsChain fun hop later => hop.target = later.source := by
  induction path with
  | nil => exact .nil
  | cons a path ih =>
    rcases path with _ | ⟨b, _ | ⟨c, rest⟩⟩
    · exact .nil
    · exact .singleton _
    · exact .cons_cons rfl ih

/-- A way without repetition gives a simple route. -/
theorem simple_along {rest : List String} (hnodup : (dev :: rest).Nodup)
    (hlast : (dev :: rest).getLast? = some prod) : Simple dev prod (t.along (dev :: rest)) := by
  have hstops := stops_along (t := t) dev rest
  constructor
  case departs =>
    intro hop hhop
    cases rest with
    | nil => cases hhop
    | cons b rest =>
      cases hhop
      rfl
  case joined => exact isChain_along _
  case arrives => rwa [hstops]
  case distinct => rwa [hstops]
  case targets =>
    have hnames : ((t.along (dev :: rest)).map fun hop => hop.target.name).Nodup := by
      rw [← hstops] at hnodup
      exact (List.nodup_cons.1 hnodup).2
    refine List.Nodup.of_map Namespace.name ?_
    rwa [List.map_map]

theorem shortestWay?_eq_some {start goal : String} {path : List String}
    (h : t.shortestWay? start goal = some path) :
    Shortest t.neighbours start path goal ∧ path.Nodup :=
  Reach.path?_eq_some (fun _ _ => OrderedMap.mem_flatten_values) h

theorem shortestWay?_eq_none_iff {start goal : String} :
    t.shortestWay? start goal = none ↔ ¬ Reaches t.neighbours start goal :=
  Reach.path?_eq_none_iff fun _ _ => OrderedMap.mem_flatten_values

/-- A way through the fallback starts with a hop to it and goes on without meeting the start again:
from there the goal cannot be reached. -/
theorem fallbackWay?_eq_some {path : List String} (hdistinct : dev ≠ prod)
    (happart : ¬ Reaches t.neighbours dev prod)
    (h : t.fallbackWay? dev fallback prod = some path) :
    path.Nodup ∧
      (fallback = prod ∧ path = [dev, prod] ∨
        fallback ≠ prod ∧ fallback ∈ t.namespaces ∧
          ∃ rest, path = dev :: rest ∧ Shortest t.neighbours fallback rest prod) := by
  unfold fallbackWay? at h
  split at h
  · next hequal =>
    cases h
    exact ⟨by simpa using hdistinct, .inl ⟨hequal, rfl⟩⟩
  · next hother =>
    split at h
    · next hknown =>
      rw [Bool.and_eq_true, List.contains_iff_mem] at hknown
      obtain ⟨rest, hrest, rfl⟩ := Option.map_eq_some_iff.1 h
      obtain ⟨hshortest, hnodup⟩ := shortestWay?_eq_some hrest
      refine ⟨List.nodup_cons.2 ⟨?_, hnodup⟩, .inr ⟨hother, hknown.1, rest, rfl, hshortest⟩⟩
      intro hdev
      exact happart (hshortest.way.reaches_of_mem hdev)
    · cases h

theorem fallbackWay?_eq_none (happart : ¬ Reaches t.neighbours dev prod)
    (h : t.fallbackWay? dev fallback prod = none) :
    fallback ≠ prod ∧ ¬ (fallback ∈ t.namespaces ∧ Reaches t.neighbours fallback prod) := by
  unfold fallbackWay? at h
  split at h
  · cases h
  · next hother =>
    refine ⟨hother, ?_⟩
    rintro ⟨hmem, hreaches⟩
    have hne : fallback ≠ dev := by
      rintro rfl
      exact happart hreaches
    rw [if_pos (by simp [hmem, hne]), Option.map_eq_none_iff] at h
    exact shortestWay?_eq_none_iff.1 h hreaches

/-- Between two ends the direct way is taken if there is one, else the one through the fallback. -/
theorem resolve_of_ends (h : t.Ends dev prod) :
    t.resolve dev fallback prod =
      match t.shortestWay? dev prod <|> t.fallbackWay? dev fallback prod with
      | some path => (t.hops path).mapError .unknownNamespace
      | none => .error (.noPath dev fallback prod) := by
  rw [resolve, if_neg h.distinct, namespace?_of_mem h.source, namespace?_of_mem h.goal]
  rfl

theorem resolve_of_way (ends : t.Ends dev prod) {path : List String}
    (hpath : (t.shortestWay? dev prod <|> t.fallbackWay? dev fallback prod) = some path)
    (hknown : ∀ name ∈ path, name ∈ t.namespaces) :
    t.resolve dev fallback prod = .ok (t.along path) := by
  rw [resolve_of_ends ends, hpath]
  dsimp only
  rw [hops_eq_along hknown]
  rfl

/-- The namespaces on a way of the graph are namespaces of the tree. -/
theorem Linked.forall_mem_way (h : t.Linked) {start goal : String} {path : List String}
    (hway : Way t.neighbours start path goal) (hstart : start ∈ t.namespaces) :
    ∀ name ∈ path, name ∈ t.namespaces :=
  hway.forall_mem hstart fun a b hb => (h.endpoints a b hb).2

/-- If there is no direct way, the answer is found at the fallback. -/
theorem Linked.resolution_of_apart (h : t.Linked) (ends : t.Ends dev prod)
    (happart : ¬ Reaches t.neighbours dev prod) :
    t.Resolution dev fallback prod (t.resolve dev fallback prod) ∧
      ∀ route, t.resolve dev fallback prod = .ok route → Simple dev prod route := by
  have hway : t.shortestWay? dev prod = none := shortestWay?_eq_none_iff.2 happart
  cases hfallback : t.fallbackWay? dev fallback prod with
  | none =>
    obtain ⟨hother, hnowhere⟩ := fallbackWay?_eq_none happart hfallback
    rw [resolve_of_ends ends, hway, hfallback]
    refine ⟨.noPath ends happart hother hnowhere, ?_⟩
    rintro route ⟨⟩
  | some path =>
    have hchosen : (t.shortestWay? dev prod <|> t.fallbackWay? dev fallback prod) = some path := by
      rw [hway, hfallback]
      rfl
    obtain ⟨hnodup, ⟨hend, rfl⟩ | ⟨hother, hknown, rest, rfl, hshortest⟩⟩ :=
      fallbackWay?_eq_some ends.distinct happart hfallback
    · rw [resolve_of_way ends hchosen (by simp [ends.source, ends.goal])]
      refine ⟨.single ends happart hend, ?_⟩
      rintro route ⟨⟩
      exact simple_along hnodup rfl
    · have hknown' := List.forall_mem_cons.2 ⟨ends.source, h.forall_mem_way hshortest.way hknown⟩
      rw [resolve_of_way ends hchosen hknown']
      refine ⟨.around ends happart hother hknown hshortest, ?_⟩
      rintro route ⟨⟩
      refine simple_along hnodup ?_
      obtain ⟨tail, rfl⟩ := hshortest.way.exists_cons
      rw [List.getLast?_cons_cons]
      exact hshortest.way.getLast?_eq

/-- A linked tree answers as the law of resolution says, and its routes are simple. -/
theorem Linked.resolution (h : t.Linked) (dev fallback prod : String) :
    t.Resolution dev fallback prod (t.resolve dev fallback prod) ∧
      ∀ route, t.resolve dev fallback prod = .ok route → Simple dev prod route := by
  by_cases hequal : dev = prod
  · rw [resolve, if_pos hequal]
    refine ⟨.same hequal, ?_⟩
    rintro route ⟨⟩
    exact hequal ▸ simple_along (t := t) (List.nodup_singleton dev) rfl
  by_cases hdev : dev ∈ t.namespaces
  case neg =>
    rw [resolve, if_neg hequal, namespace?_of_not_mem hdev]
    refine ⟨.unknownSource hequal hdev, ?_⟩
    rintro route ⟨⟩
  by_cases hprod : prod ∈ t.namespaces
  case neg =>
    rw [resolve, if_neg hequal, namespace?_of_mem hdev, namespace?_of_not_mem hprod]
    refine ⟨.unknownGoal hequal hdev hprod, ?_⟩
    rintro route ⟨⟩
  have ends : t.Ends dev prod := ⟨hequal, hdev, hprod⟩
  cases hway : t.shortestWay? dev prod with
  | none => exact h.resolution_of_apart ends (shortestWay?_eq_none_iff.1 hway)
  | some path =>
    obtain ⟨hshortest, hnodup⟩ := shortestWay?_eq_some hway
    rw [resolve_of_way ends (by rw [hway]; rfl) (h.forall_mem_way hshortest.way hdev)]
    refine ⟨.direct ends hshortest, ?_⟩
    rintro route ⟨⟩
    obtain ⟨rest, rfl⟩ := hshortest.way.exists_cons
    exact simple_along hnodup hshortest.way.getLast?_eq

end MappingTree

namespace Builder

/-- In every tree that calls build, the graph is symmetric, without loops and on the namespaces of
the tree, and it stays so whatever is called next. For any three names the answer is what the law
of resolution says, and a route meets no namespace twice. -/
theorem resolve_run (calls : List Call) (dev fallback prod : String) :
    (run {} calls).tree.Linked ∧
    (∀ c, ((run {} calls).step c).1.tree.Linked) ∧
    (run {} calls).tree.Resolution dev fallback prod
      ((run {} calls).tree.resolve dev fallback prod) ∧
    ∀ route, (run {} calls).tree.resolve dev fallback prod = .ok route →
      MappingTree.Simple dev prod route := by
  have hlinked := linked_run calls
  obtain ⟨hresolution, hsimple⟩ := hlinked.resolution dev fallback prod
  refine ⟨hlinked, ?_, hresolution, hsimple⟩
  intro c
  have hnext := linked_run (calls ++ [c])
  rwa [run_append] at hnext

namespace Sample

/-- A source whose lineage leads through a namespace that is left out. -/
def detached : Call :=
  .content "second.tiny" (.bytes (bytesOf "v1\tofficial\tsrg\tmcp\nCLASS\ta\tb\tc\n"))
    { adaptation := { source := "official", filter := ["mcp"] } }

/-- The detour over the fallback. -/
def detour : List Hop :=
  [⟨⟨"mcp", false⟩, ⟨"official", false⟩⟩, ⟨⟨"official", false⟩, ⟨"searge", false⟩⟩]

end Sample

open Sample in
theorem resolve_run_around_fallback :
    (run {} [first, detached]).tree.resolve "mcp" "official" "searge" = .ok detour ∧
    MappingTree.Simple "mcp" "searge" detour := by
  have hroute : (run {} [first, detached]).tree.resolve "mcp" "official" "searge" = .ok detour := by
    cbv
  exact ⟨hroute, (resolve_run [first, detached] "mcp" "official" "searge").2.2.2 detour hroute⟩

end Builder

end JarRemap

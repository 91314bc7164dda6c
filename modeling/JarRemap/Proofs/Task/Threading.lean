import JarRemap.Proofs.Artifact.Wideners
import JarRemap.Proofs.Disk.Directories
import JarRemap.Proofs.Task.Failure

/-!
# Runs that go well

A run passes an archive from hop to hop: each hop reads what the hop before it wrote, asks for the
classpath of the namespace that archive is in, and takes the access wideners from there to its own
target. What the last hop wrote is handed over. Without hops nothing is read or written.
-/

namespace JarRemap

open List (Forall₂)
open Artifact (mapError_eq_ok isWidener)
open Resource (AccessWidener)

namespace Disk

variable {d d' : Disk} {p q : Path}

/-- What is found behind the clearing of a path was there before. -/
theorem node_of_clear (h : d.clear p = .ok d') {n : Node} (hnode : d'.node q = .ok n) :
    d.node q = .ok n := by
  obtain ⟨hchanges, hnone⟩ := clear_eq_ok h
  obtain ⟨place, hplace, hn⟩ := node_eq_ok_iff.1 hnode
  refine node_eq_ok_iff.2 ⟨place, hchanges.same.place_iff.1 hplace, ?_⟩
  rw [← hn]
  refine (hchanges.elsewhere place ?_).symm
  intro other hother hsame
  rw [hother] at hsame
  have hholds : d'.holds p = true :=
    holds_iff.2 ⟨n, node_eq_ok_iff.2 ⟨place, hchanges.same.place_iff.2 hsame, hn⟩⟩
  rw [hnone] at hholds
  cases hholds

end Disk

namespace MappingTree

variable {t : MappingTree} {dev fallback prod : String} {route : List Hop}

theorem marked_of_namespace? {name : String} {n : Namespace} (h : t.namespace? name = .ok n) :
    n = t.marked name := by
  unfold namespace? at h
  split at h <;> cases h
  rfl

theorem hops_eq_ok {path : List String} (h : t.hops path = .ok route) : route = t.along path := by
  induction path generalizing route with
  | nil =>
    cases h
    rfl
  | cons a path ih =>
    cases path with
    | nil =>
      cases h
      rfl
    | cons b path =>
      unfold hops at h ih
      rw [List.tail_cons, List.zip_cons_cons, List.mapM_cons] at h
      obtain ⟨hop, hhop, h⟩ := Artifact.bind_eq_ok h
      obtain ⟨rest, hrest, h⟩ := Artifact.bind_eq_ok h
      cases h
      obtain ⟨source, hsource, hhop⟩ := Artifact.bind_eq_ok hhop
      obtain ⟨target, htarget, hhop⟩ := Artifact.bind_eq_ok hhop
      cases hhop
      rw [ih hrest, along, marked_of_namespace? hsource, marked_of_namespace? htarget]

/-- A route runs along a way between the two namespaces; there are no hops if these are one. -/
theorem resolve_eq_ok (h : t.resolve dev fallback prod = .ok route) :
    ∃ rest, (dev :: rest).getLast? = some prod ∧ route = t.along (dev :: rest) := by
  unfold resolve at h
  split at h
  · next hequal =>
    cases h
    exact ⟨[], by rw [hequal]; rfl, rfl⟩
  · next hdistinct =>
    obtain ⟨_, -, h⟩ := Artifact.bind_eq_ok h
    obtain ⟨_, -, h⟩ := Artifact.bind_eq_ok h
    split at h
    · next path hpath =>
      have hroute := hops_eq_ok (mapError_eq_ok h)
      cases hway : t.shortestWay? dev prod with
      | some way =>
        rw [hway] at hpath
        cases hpath
        obtain ⟨hshortest, -⟩ := shortestWay?_eq_some hway
        obtain ⟨rest, rfl⟩ := hshortest.way.exists_cons
        exact ⟨rest, hshortest.way.getLast?_eq, hroute⟩
      | none =>
        rw [hway] at hpath
        obtain ⟨-, ⟨-, rfl⟩ | ⟨-, -, rest, rfl, hshortest⟩⟩ :=
          fallbackWay?_eq_some hdistinct (shortestWay?_eq_none_iff.1 hway) hpath
        · exact ⟨[prod], rfl, hroute⟩
        · obtain ⟨tail, rfl⟩ := hshortest.way.exists_cons
          refine ⟨_, ?_, hroute⟩
          rw [List.getLast?_cons_cons]
          exact hshortest.way.getLast?_eq
    · cases h

theorem getLast?_along {a b : String} (rest : List String) (h : (a :: rest).getLast? = some b)
    {hop : Hop} (hhop : (t.along (a :: rest)).getLast? = some hop) : hop.target = t.marked b := by
  induction rest generalizing a with
  | nil => cases hhop
  | cons c rest ih =>
    rw [List.getLast?_cons_cons] at h
    cases rest with
    | nil =>
      cases h
      cases hhop
      rfl
    | cons d rest =>
      rw [along, along, List.getLast?_cons_cons] at hhop
      exact ih h hhop

end MappingTree

namespace Remapper

variable {r : Remapper} {path : Path} {s s' : RunState}

theorem requests_of_change {f : Disk → Except DiskError Disk} {u : Unit}
    (h : Run.change f s = (.ok u, s')) : s'.requests = s.requests := by
  have hdisk := Run.change_eq_ok h
  rw [Run.change_of_ok hdisk] at h
  exact congrArg (fun p => p.2.requests) h.symm

/-- Writing an archive asks for no classpath. -/
theorem requests_of_apply (h : r.apply path s = (.ok (), s')) : s'.requests = s.requests := by
  obtain ⟨renamed, s₁, hrenamed, h⟩ := bind_eq_ok (Run.guarding_eq_ok h)
  obtain ⟨_, s₂, hempty, h⟩ := bind_eq_ok h
  obtain ⟨entries, s₃, hentries, h⟩ := bind_eq_ok h
  obtain ⟨_, s₄, hwritten, h⟩ := bind_eq_ok h
  obtain ⟨refmaps, s₅, hrefmaps, hlast⟩ := bind_eq_ok h
  rw [requests_of_change hlast, (step_eq_ok hrefmaps).2, requests_of_change hwritten,
    (step_eq_ok hentries).2, requests_of_change hempty, (step_eq_ok hrenamed).2]

end Remapper

namespace Task

variable {t : Task} {input : Path} {stage stage' last : Stage} {hop : Hop} {hops : List Hop}
  {s s' : RunState} {old new : List Entry}

/-- What becomes of an access widener on the way between namespaces that headers call by two tokens.
If the second one can stand as a word, the new header is read as one with it. -/
def Widened (source target : String) (e new : Entry) : Prop :=
  new.name = e.name ∧ ∃ text renamed, Text.decode? e.bytes = some text ∧
    new.bytes = Text.encode renamed ∧ AccessWidener.HeadedBy source text ∧
    AccessWidener.BearsHeader target renamed ∧
    (Text.IsToken target.toList → AccessWidener.HeadedBy target renamed)

/-- A hop of a run that goes well, from one stage to the next: it reads the entries of the archive
of the stage, which is in its source namespace, and writes its own archive of them. -/
structure Passes (t : Task) (input : Path) (stage : Stage) (hop : Hop) (s s' : RunState)
    (old new : List Entry) : Prop where
  current : stage.current = hop.source
  found : s.disk.archive stage.artifact = .ok old
  remapped : ∃ d, s.disk.clear (t.archiveOf input hop) = .ok d ∧
    d.archive stage.artifact = .ok old ∧ t.hopOutput hop stage d = .ok new
  provided : (∃ core, t.classpath.core? hop.source stage.previous t.settings.side = .ok core) ∧
    ∃ paths, t.classpath.entries hop.source stage.previous = .ok paths
  asked : s'.requests = s.requests ++ [(hop.source.name, stage.previous.name)]
  written : s'.disk.read (t.archiveOf input hop) = .ok (.archive new)
  widened : Forall₂ (Widened hop.source.token hop.target.token) (old.filter isWidener)
    (new.filter isWidener)

/-- Hops that go well one after the other. What a hop writes is what the next one reads, and the
namespace it came from is the one that the next one falls back to. -/
inductive Passage (t : Task) (input : Path) :
    Stage → RunState → List Entry → List Hop → Stage → RunState → List Entry → Prop where
  | done (stage : Stage) (s : RunState) (entries : List Entry) :
      Passage t input stage s entries [] stage s entries
  | next {stage last : Stage} {hop : Hop} {hops : List Hop} {s between s' : RunState}
      {old middle new : List Entry} (first : Passes t input stage hop s between old middle)
      (rest : Passage t input ⟨t.archiveOf input hop, hop.target, hop.source⟩ between middle hops
        last s' new) :
      Passage t input stage s old (hop :: hops) last s' new

theorem widened_of_widens {source target : String} {names : Resolver} {e new : Entry}
    (h : Artifact.Widens ⟨source, target⟩ names e new) : Widened source target e new := by
  obtain ⟨text, renamed, htext, hnew, hheaded, hbears⟩ :=
    AccessWidener.headed_of_transform h.2
  exact ⟨h.1, text, renamed, htext, hnew, hheaded, hbears, hbears.headedBy⟩

theorem widened_trans {a b c d : String} {l l' l'' : List Entry}
    (h : Forall₂ (Widened a b) l l') (h' : Forall₂ (Widened c d) l' l'') :
    Forall₂ (Widened a d) l l'' := by
  induction h generalizing l'' with
  | nil =>
    cases h'
    exact .nil
  | cons hfirst _ ih =>
    cases h' with
    | cons hsecond hrest =>
      obtain ⟨hname, text, -, htext, -, hheaded, -, -⟩ := hfirst
      obtain ⟨hname', -, renamed, -, hnew, -, hbears, hread⟩ := hsecond
      exact .cons ⟨hname'.trans hname, text, renamed, htext, hnew, hheaded, hbears, hread⟩
        (ih hrest)

/-- What the output of a hop was made of. -/
theorem hopOutput_eq_ok {d : Disk} (h : t.hopOutput hop stage d = .ok new) :
    ∃ classpath old, t.classpath.forNamespace d stage.current stage.previous t.settings.side =
        .ok classpath ∧ d.archive stage.artifact = .ok old ∧
      Forall₂ (Widened hop.source.token hop.target.token) (old.filter isWidener)
        (new.filter isWidener) := by
  obtain ⟨classpath, hclasspath, h⟩ := Artifact.bind_eq_ok h
  obtain ⟨remapper, hremapper, h⟩ := Artifact.bind_eq_ok h
  obtain ⟨dictionary, -, hremapper⟩ := Artifact.bind_eq_ok hremapper
  obtain ⟨known, -, hremapper⟩ := Artifact.bind_eq_ok hremapper
  obtain ⟨old, hold, hremapper⟩ := Artifact.bind_eq_ok hremapper
  obtain ⟨artifact, hartifact, hremapper⟩ := Artifact.bind_eq_ok hremapper
  cases hremapper
  obtain ⟨renamed, hrenamed, hwritten⟩ := Artifact.bind_eq_ok (mapError_eq_ok h)
  exact ⟨classpath, old, hclasspath, hold,
    (Artifact.widens_of_write (mapError_eq_ok hartifact) hrenamed hwritten).imp
      fun _ _ => widened_of_widens⟩

/-- A hop that goes well from a stage in its source namespace leads to the next stage. -/
theorem passes_of_go (hcurrent : stage.current = hop.source)
    (h : t.go input stage hop s = (.ok stage', s')) :
    stage' = ⟨t.archiveOf input hop, hop.target, hop.source⟩ ∧
      ∃ old new, Passes t input stage hop s s' old new := by
  obtain ⟨d, new, hclear, houtput, hread⟩ := remapHop_eq_ok h
  obtain ⟨classpath, old, hclasspath, hold, hwidened⟩ := hopOutput_eq_ok houtput
  unfold go at h
  rw [remapHop_of_clear hclear] at h
  obtain ⟨_, s₁, hasked, hbehind⟩ := bind_eq_ok h
  obtain ⟨remapper, s₂, hopened, hbehind⟩ := bind_eq_ok hbehind
  obtain ⟨_, s₃, happly, hlast⟩ := bind_eq_ok hbehind
  have hrequests := Remapper.requests_of_apply happly
  rw [(Run.look_eq_ok hopened).2, (Run.look_eq_ok hasked).2] at hrequests
  cases hlast
  refine ⟨by rw [hcurrent]; rfl, old, new, hcurrent, ?_, ⟨d, hclear, hold, houtput⟩, ?_, ?_, hread,
    hwidened⟩
  · obtain ⟨c, hnode, hentries⟩ := Disk.archive_eq_ok hold
    exact Disk.archive_of_node (Disk.node_of_clear hclear hnode) hentries
  · rw [hcurrent] at hclasspath
    obtain ⟨core, hcore, hclasspath⟩ := Artifact.bind_eq_ok hclasspath
    obtain ⟨paths, hpaths, -⟩ := Artifact.bind_eq_ok hclasspath
    exact ⟨⟨core, hcore⟩, paths, hpaths⟩
  · rw [hrequests, hcurrent]

namespace Passage

/-- Hops that go well pass the archive on, if they join and begin where the archive is. -/
theorem of_run (h : hops.foldlM (t.go input) stage s = (.ok last, s'))
    (hjoined : hops.IsChain fun hop later => hop.target = later.source)
    (hfirst : ∀ hop ∈ hops.head?, stage.current = hop.source)
    (hold : hops ≠ [] → s.disk.archive stage.artifact = .ok old) :
    ∃ new, Passage t input stage s old hops last s' new := by
  induction hops generalizing stage s old with
  | nil =>
    cases h
    exact ⟨old, .done _ _ _⟩
  | cons hop hops ih =>
    rw [List.foldlM_cons] at h
    obtain ⟨next, between, hhop, hrest⟩ := bind_eq_ok h
    obtain ⟨rfl, read, middle, hpasses⟩ := passes_of_go (hfirst hop rfl) hhop
    have hread : read = old :=
      Except.ok.inj (hpasses.found.symm.trans (hold (List.cons_ne_nil _ _)))
    subst hread
    have harchive : between.disk.archive (t.archiveOf input hop) = .ok middle :=
      Disk.archive_of_read hpasses.written
    have hnext : ∀ later ∈ hops.head?, hop.target = later.source :=
      fun later hlater => hjoined.rel_head? hlater
    obtain ⟨new, hpassage⟩ := ih hrest hjoined.tail hnext fun _ => harchive
    exact ⟨new, .next hpasses hpassage⟩

theorem exists_of_run (h : hops.foldlM (t.go input) stage s = (.ok last, s'))
    (hjoined : hops.IsChain fun hop later => hop.target = later.source)
    (hfirst : ∀ hop ∈ hops.head?, stage.current = hop.source) :
    ∃ old new, Passage t input stage s old hops last s' new := by
  cases hops with
  | nil => exact ⟨[], of_run h hjoined hfirst fun hne => absurd rfl hne⟩
  | cons hop hops =>
    have hhops := h
    rw [List.foldlM_cons] at h
    obtain ⟨next, between, hhop, -⟩ := bind_eq_ok h
    obtain ⟨-, old, middle, hpasses⟩ := passes_of_go (hfirst hop rfl) hhop
    exact ⟨old, of_run hhops hjoined hfirst fun _ => hpasses.found⟩

/-- One classpath is asked for by each hop: that of its source, with the source of the hop before as
the other namespace. -/
theorem requests_eq (h : Passage t input stage s old hops last s' new) :
    s'.requests = s.requests ++ (hops.map (·.source.name)).zip
      (stage.previous.name :: hops.map (·.source.name)) := by
  induction h with
  | done => simp
  | next first _ ih =>
    rw [ih, first.asked, List.append_assoc, List.singleton_append, List.map_cons,
      List.zip_cons_cons]

/-- The last archive is that of the last hop. -/
theorem last_eq (h : Passage t input stage s old hops last s' new) (hne : hops ≠ []) :
    ∃ hop, hops.getLast? = some hop ∧ last.current = hop.target ∧
      last.artifact = t.archiveOf input hop ∧
      s'.disk.read (t.archiveOf input hop) = .ok (.archive new) := by
  induction h with
  | done => exact absurd rfl hne
  | @next stage last hop hops s between s' old middle new first rest ih =>
    cases rest with
    | done => exact ⟨hop, rfl, rfl, rfl, first.written⟩
    | next second rest =>
      rw [List.getLast?_cons_cons]
      exact ih (List.cons_ne_nil _ _)

/-- Access wideners are taken from the namespace of the first archive to that of the last one. -/
theorem widened (h : Passage t input stage s old hops last s' new) (hne : hops ≠ []) :
    Forall₂ (Widened stage.current.token last.current.token) (old.filter isWidener)
      (new.filter isWidener) := by
  induction h with
  | done => exact absurd rfl hne
  | @next stage last hop hops s between s' old middle new first rest ih =>
    rw [first.current]
    cases rest with
    | done => exact first.widened
    | next second rest => exact widened_trans first.widened (ih (List.cons_ne_nil _ _))

end Passage

/-- What a run that goes well does, in order. -/
theorem runWith_eq_ok {handOver : Path → Path → Run Unit}
    (h : (t.runWith handOver input).run s = (.ok (), s')) :
    ∃ hops d last passed,
      t.tree.resolve t.settings.dev t.settings.fallback t.settings.prod = .ok hops ∧
      s.disk.makeDirectories t.workDirectory = .ok d ∧
      hops.foldlM (t.go input) (t.start (t.hooks.before input)) { s with disk := d } =
        (.ok last, passed) ∧
      handOver (t.hooks.after last.artifact) t.workDirectory passed = (.ok (), s') := by
  change t.runWith handOver input s = _ at h
  obtain ⟨hops, s₁, hlook, hbehind⟩ := bind_eq_ok h
  obtain ⟨hroute, hsame⟩ := Run.look_eq_ok hlook
  rw [hsame] at hbehind
  obtain ⟨_, s₂, hmade, hbehind⟩ := bind_eq_ok hbehind
  obtain ⟨last, passed, hpassed, hover⟩ := bind_eq_ok hbehind
  have hdisk := Run.change_eq_ok hmade
  rw [Run.change_of_ok hdisk] at hmade
  rw [← (Prod.mk.inj hmade).2] at hpassed
  exact ⟨hops, s₂.disk, last, passed, mapError_eq_ok hroute, hdisk, hpassed, hover⟩

/-- A run that goes well threads its hops. The first one reads the artifact that the hook before the
run gives, each other one what the hop before it wrote. The classpath a hop asks for is that of its
source, which is the namespace the archive is in; the other namespace is the source of the hop
before, and that of the fallback for the first hop. What the last hop wrote goes to the hook behind
the run, and what that gives is handed over. Every access widener, which is headed by the namespace
of the artifact, is written with the header of the last namespace. Without hops the two hooks alone
say what is handed over. -/
theorem hops_are_threaded {handOver : Path → Path → Run Unit}
    (hrun : (t.runWith handOver input).run s = (.ok (), s')) :
    ∃ hops d last passed old new,
      t.tree.resolve t.settings.dev t.settings.fallback t.settings.prod = .ok hops ∧
      s.disk.makeDirectories t.workDirectory = .ok d ∧
      Passage t input (t.start (t.hooks.before input)) { s with disk := d } old hops last passed
        new ∧
      passed.requests = s.requests ++ (hops.map (·.source.name)).zip
        (t.settings.fallback :: hops.map (·.source.name)) ∧
      handOver (t.hooks.after last.artifact) t.workDirectory passed = (.ok (), s') ∧
      (hops = [] → last.artifact = t.hooks.before input ∧ passed = { s with disk := d }) ∧
      (hops ≠ [] →
        (∃ hop, hops.getLast? = some hop ∧ last.artifact = t.archiveOf input hop) ∧
        passed.disk.read last.artifact = .ok (.archive new) ∧
        Forall₂ (Widened (t.namespaceOf t.settings.dev).token (t.namespaceOf t.settings.prod).token)
          (old.filter isWidener) (new.filter isWidener)) := by
  obtain ⟨hops, d, last, passed, hroute, hmade, hpassed, hover⟩ := runWith_eq_ok hrun
  obtain ⟨rest, hlast, rfl⟩ := MappingTree.resolve_eq_ok hroute
  have hfirst : ∀ hop ∈ (t.tree.along (t.settings.dev :: rest)).head?,
      (t.start (t.hooks.before input)).current = hop.source := by
    intro hop hhop
    cases rest with
    | nil => cases hhop
    | cons b rest =>
      cases hhop
      rfl
  obtain ⟨old, new, hpassage⟩ :=
    Passage.exists_of_run hpassed (MappingTree.isChain_along _) hfirst
  refine ⟨_, d, last, passed, old, new, hroute, hmade, hpassage, hpassage.requests_eq, hover, ?_,
    ?_⟩
  · intro hnone
    rw [hnone] at hpassage
    cases hpassage
    exact ⟨rfl, rfl⟩
  · intro hne
    obtain ⟨hop, hhop, hcurrent, hartifact, hread⟩ := hpassage.last_eq hne
    have hwidened := hpassage.widened hne
    rw [hcurrent, MappingTree.getLast?_along rest hlast hhop] at hwidened
    exact ⟨⟨hop, hhop, hartifact⟩, hartifact ▸ hread, hwidened⟩

namespace Sample

/-- Two hops from an artifact that a hook puts in the place of the input. -/
def hooked : Task where
  tree := (({ namespaces := ["x", "y", "z"] } : MappingTree).connect "x" "y").connect "y" "z"
  settings := ⟨"x", "f", "z", false, .combined, false⟩
  workDirectory := ⟨"/w"⟩
  hooks := { before := fun _ => ⟨"/given.jar"⟩ }

/-- The artifact, which has an access widener. -/
def given : Disk where
  nodes := ⟨
    [(["given.jar"], .file (.archive
        [⟨"a.accesswidener", Text.encode "accessWidener v1 x # all\n".toList⟩])),
      (["w"], .directory)], by decide⟩

/-- What the run leaves. -/
def finished : RunState := ((hooked.run {} ⟨"/in.jar"⟩ ⟨"/out.jar"⟩).run { disk := given }).2

end Sample

open Sample in
theorem hops_are_threaded_hooked :
    (hooked.run {} ⟨"/in.jar"⟩ ⟨"/out.jar"⟩).run { disk := given } = (.ok (), finished) ∧
    finished.disk.read ⟨"/out.jar"⟩ = .ok (.archive
      [⟨"a.accesswidener", Text.encode "accessWidener\tv1\tz\t# all\n".toList⟩]) ∧
    ∃ last passed old new,
      Passage hooked ⟨"/in.jar"⟩ (hooked.start ⟨"/given.jar"⟩) { disk := given } old route last
        passed new ∧
      passed.requests = [("x", "f"), ("y", "x")] := by
  have hrun : (hooked.run {} ⟨"/in.jar"⟩ ⟨"/out.jar"⟩).run { disk := given } =
      (.ok (), finished) := Prod.ext (by decide +kernel) rfl
  obtain ⟨hops, d, last, passed, old, new, hroute, hmade, hpassage, hrequests, -⟩ :=
    hops_are_threaded hrun
  have hknown : hooked.tree.resolve "x" "f" "z" = .ok route := by decide +kernel
  have hdirectory : given.makeDirectories hooked.workDirectory = .ok given := by rfl
  cases hroute.symm.trans hknown
  cases hmade.symm.trans hdirectory
  exact ⟨hrun, by decide +kernel, last, passed, old, new, hpassage, hrequests⟩

end Task

end JarRemap

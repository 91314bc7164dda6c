import JarRemap.Proofs.Disk.Places
import JarRemap.Proofs.Route.Resolve
import JarRemap.Task
import JarRemap.Proofs.Run.Guard

/-!
# Hops and their archives

Where the archives of hops are, what one hop does, and what a run leaves that fails.
-/

/-!
## Where the archives of hops are

A route never comes to a namespace twice, so if no name in it has a slash, the archives of its hops
are files of different names in one directory.
-/

namespace JarRemap

open Artifact (mapError_eq_ok)

/-- A name without slashes is the last part of a path that goes on with it. -/
theorem Path.exists_parts_join (p : Path) {name : String} (h : '/' ∉ name.toList) :
    ∃ parts, (p.join name).parts = parts ++ [name] := by
  have hname : Text.splitOn '/' name.toList = [name.toList] := Text.splitOn_of_not_mem h
  have habsolute : ¬ (Path.mk name).isAbsolute = true := by
    rw [isAbsolute, decide_eq_true_iff]
    exact fun hhead => h (List.mem_of_head? hhead)
  rw [join, if_neg habsolute]
  split
  · next hempty =>
    rw [List.getLast?_eq_none_iff] at hempty
    exact ⟨[], by simp [parts, hempty, hname]⟩
  · next hslash =>
    obtain ⟨front, hfront⟩ := List.getLast?_eq_some_iff.1 hslash
    refine ⟨(Text.splitOn '/' front).map String.ofList, ?_⟩
    simp [parts, hfront, Text.splitOn_append_cons, hname]
  · refine ⟨p.parts, ?_⟩
    simp [parts, Text.splitOn_append_cons, hname]

namespace Disk

variable {d : Disk} {p : Path} {name other : String} {place : Place}

/-- A name that leads down when it is followed. -/
structure IsPlain (name : String) : Prop where
  slash : '/' ∉ name.toList
  empty : name ≠ ""
  here : name ≠ "."
  up : name ≠ ".."

/-- A file in a directory is found under its name. -/
theorem head?_of_place_join (hname : IsPlain name) (h : d.place (p.join name) = .ok place) :
    place.head? = some name := by
  obtain ⟨parts, hparts⟩ := p.exists_parts_join hname.slash
  unfold Disk.place at h
  obtain ⟨start, -, h⟩ := Artifact.bind_eq_ok h
  rw [hparts, List.foldlM_append] at h
  obtain ⟨directory, -, h⟩ := Artifact.bind_eq_ok h
  rw [List.foldlM_cons] at h
  obtain ⟨last, hlast, h⟩ := Artifact.bind_eq_ok h
  cases h
  unfold follow at hlast
  split at hlast
  · cases hlast
  · cases hlast
  · rw [if_neg (not_or.2 ⟨hname.empty, hname.here⟩), if_neg hname.up] at hlast
    split at hlast <;> cases hlast
    rfl

theorem apart_join (hname : IsPlain name) (hother : IsPlain other) (h : name ≠ other) :
    d.Apart (p.join name) (p.join other) := by
  intro place hplace hsame
  have hhead := head?_of_place_join hname hplace
  rw [head?_of_place_join hother hsame] at hhead
  exact h (Option.some.inj hhead).symm

end Disk

namespace MappingTree

variable {t : MappingTree} {dev fallback prod : String} {route : List Hop}

theorem name_of_namespace? {name : String} {n : Namespace} (h : t.namespace? name = .ok n) :
    n.name = name := by
  unfold namespace? at h
  split at h <;> cases h
  rfl

/-- The hops of a way lead to its namespaces behind the first. -/
theorem targets_of_hops {path : List String} (h : t.hops path = .ok route) :
    route.map (·.target.name) = path.tail := by
  induction path generalizing route with
  | nil =>
    cases h
    rfl
  | cons a path ih =>
    cases path with
    | nil =>
      cases h
      rfl
    | cons b path =>
      unfold hops at h ih
      rw [List.tail_cons, List.zip_cons_cons, List.mapM_cons] at h
      obtain ⟨hop, hhop, h⟩ := Artifact.bind_eq_ok h
      obtain ⟨rest, hrest, h⟩ := Artifact.bind_eq_ok h
      cases h
      obtain ⟨source, -, hhop⟩ := Artifact.bind_eq_ok hhop
      obtain ⟨target, htarget, hhop⟩ := Artifact.bind_eq_ok hhop
      cases hhop
      rw [List.map_cons, ih hrest, List.tail_cons, List.tail_cons, name_of_namespace? htarget]

/-- A route never comes to a namespace twice. -/
theorem nodup_targets (h : t.resolve dev fallback prod = .ok route) :
    (route.map (·.target.name)).Nodup := by
  unfold resolve at h
  split at h
  · cases h
    exact List.nodup_nil
  · next hdistinct =>
    obtain ⟨_, -, h⟩ := Artifact.bind_eq_ok h
    obtain ⟨_, -, h⟩ := Artifact.bind_eq_ok h
    split at h
    · next path hpath =>
      rw [targets_of_hops (mapError_eq_ok h)]
      refine List.Nodup.sublist (List.tail_sublist path) ?_
      cases hway : t.shortestWay? dev prod with
      | some way =>
        rw [hway] at hpath
        cases hpath
        exact (shortestWay?_eq_some hway).2
      | none =>
        rw [hway] at hpath
        exact (fallbackWay?_eq_some hdistinct (shortestWay?_eq_none_iff.1 hway) hpath).1
    · cases h

end MappingTree

namespace Task

variable {t : Task} {stem : String} {hops : List Hop} {d : Disk}

theorem isPlain_archive {name : String} (hstem : '/' ∉ stem.toList) (hname : '/' ∉ name.toList) :
    Disk.IsPlain (stem ++ "-temp-" ++ name ++ ".jar") := by
  have hlength : 2 < (stem ++ "-temp-" ++ name ++ ".jar").length := by
    have htemp : "-temp-".length = 6 := by decide
    rw [String.length_append, String.length_append, String.length_append]
    omega
  refine ⟨by simp [hstem, hname], ?_, ?_, ?_⟩ <;>
  · intro h
    rw [h] at hlength
    exact absurd hlength (by decide)

/-- The archives of a route are apart if no name in it has a slash. -/
theorem pairwise_apart (hstem : '/' ∉ stem.toList)
    (hnames : ∀ hop ∈ hops, '/' ∉ hop.target.name.toList)
    (hdistinct : (hops.map (·.target.name)).Nodup) :
    hops.Pairwise fun hop later =>
      d.Apart (t.target stem later.target.name) (t.target stem hop.target.name) := by
  rw [List.nodup_iff_pairwise_ne, List.pairwise_map] at hdistinct
  refine hdistinct.imp_of_mem fun {hop later} hhop hlater hne => ?_
  refine Disk.apart_join (isPlain_archive hstem (hnames later hlater))
    (isPlain_archive hstem (hnames hop hhop)) fun hsame => hne ?_
  simpa using hsame.symm

end Task

end JarRemap

/-!
## Going through hops

A hop changes nothing but its own archive. If it goes well the archive is the whole remapped one; if
it fails, at whatever point, the archive is not there.
-/

namespace JarRemap

open Artifact (mapError_eq_ok)
open Run (Only)

namespace Remapper

variable {r : Remapper} {path : Path} {s s' : RunState}

theorem only_write (r : Remapper) (path : Path) : Only (· = path) (r.write path) :=
  .bind (.look _) fun _ => .bind (.write _) fun _ => .bind (.look _) fun _ =>
    .bind (.write _) fun _ => .bind (.look _) fun _ => .write _

theorem only_apply (r : Remapper) (path : Path) : Only (· = path) (r.apply path) :=
  (r.only_write path).guarding

theorem step_eq_ok {α : Type} {result : Except ArtifactError α} {a : α}
    (h : step result s = (.ok a, s')) : result = .ok a ∧ s' = s := by
  obtain ⟨hresult, hstate⟩ := Run.look_eq_ok h
  exact ⟨mapError_eq_ok hresult, hstate⟩

/-- What is there in the end is the whole remapped archive. -/
theorem apply_eq_ok (h : r.apply path s = (.ok (), s')) :
    ∃ entries, r.output = .ok entries ∧ s'.disk.read path = .ok (.archive entries) := by
  have hpart := Run.guarding_eq_ok h
  obtain ⟨renamed, s₁, hrenamed, hpart⟩ := bind_eq_ok hpart
  obtain ⟨_, s₂, -, hpart⟩ := bind_eq_ok hpart
  obtain ⟨entries, s₃, hentries, hpart⟩ := bind_eq_ok hpart
  obtain ⟨_, s₄, -, hpart⟩ := bind_eq_ok hpart
  obtain ⟨refmaps, s₅, hrefmaps, hpart⟩ := bind_eq_ok hpart
  refine ⟨entries ++ refmaps, ?_, (Disk.write_eq_ok (Run.change_eq_ok hpart)).2⟩
  rw [output, (step_eq_ok hrenamed).1]
  change r.artifact.write r.names r.rules renamed = _
  rw [Artifact.write, (step_eq_ok hentries).1]
  change (r.artifact.writeRefmaps r.names >>= _) = _
  rw [(step_eq_ok hrefmaps).1]
  rfl

end Remapper

namespace Task

variable {t : Task} {stem : String} {stage stage' : Stage} {hop : Hop} {s s' : RunState}
  {e : RunError}

/-- The archive that a hop is to write, given the disk on which there is nothing in its place. -/
def hopOutput (t : Task) (hop : Hop) (stage : Stage) (d : Disk) : Except RunError (List Entry) := do
  let classpath ← t.classpath.forNamespace d stage.current stage.previous t.settings.side
  let remapper ← t.remapper hop classpath stage.artifact d
  remapper.output.mapError .artifact

/-- A hop changes nothing but its own archive. -/
theorem only_remapHop (t : Task) (stem : String) (stage : Stage) (hop : Hop) :
    Only (· = t.target stem hop.target.name) (t.remapHop stem stage hop) :=
  .bind .clear fun _ => .bind (.note _) fun _ => .bind (.look _) fun _ => .bind (.look _) fun _ =>
    .bind (Remapper.only_apply _ _) fun _ => .pure _

/-- A hop that goes well leaves its archive whole. -/
theorem remapHop_eq_ok (h : t.remapHop stem stage hop s = (.ok stage', s')) :
    ∃ d entries, s.disk.clear (t.target stem hop.target.name) = .ok d ∧
      t.hopOutput hop stage d = .ok entries ∧
      s'.disk.read (t.target stem hop.target.name) = .ok (.archive entries) := by
  obtain ⟨_, s₁, hclear, h⟩ := bind_eq_ok h
  obtain ⟨_, s₂, hnote, h⟩ := bind_eq_ok h
  obtain ⟨classpath, s₃, hasked, h⟩ := bind_eq_ok h
  obtain ⟨remapper, s₄, hopened, h⟩ := bind_eq_ok h
  obtain ⟨_, s₅, happly, h⟩ := bind_eq_ok h
  cases h
  cases hnote
  obtain ⟨hclasspath, rfl⟩ := Run.look_eq_ok hasked
  obtain ⟨hremapper, rfl⟩ := Run.look_eq_ok hopened
  change t.classpath.forNamespace s₁.disk stage.current stage.previous t.settings.side = _
    at hclasspath
  change t.remapper hop classpath stage.artifact s₁.disk = _ at hremapper
  obtain ⟨entries, houtput, hread⟩ := Remapper.apply_eq_ok happly
  refine ⟨s₁.disk, entries, Run.change_eq_ok hclear, ?_, hread⟩
  rw [hopOutput, hclasspath]
  change (t.remapper hop classpath stage.artifact s₁.disk >>= _) = _
  rw [hremapper]
  change remapper.output.mapError RunError.artifact = _
  rw [houtput]
  rfl

/-- Behind the clearing of its place, a hop asks for a classpath, reads and writes. -/
theorem remapHop_of_clear {d : Disk}
    (hclear : s.disk.clear (t.target stem hop.target.name) = .ok d) :
    t.remapHop stem stage hop s = (do
      let classpath ← Run.look fun d =>
        t.classpath.forNamespace d stage.current stage.previous t.settings.side
      let remapper ← Run.look (t.remapper hop classpath stage.artifact)
      remapper.apply (t.target stem hop.target.name)
      return ⟨t.target stem hop.target.name, hop.target, stage.current⟩ : Run Stage)
        ⟨d, s.requests ++ [(stage.current.name, stage.previous.name)]⟩ := by
  have hcleared : Run.change (·.clear (t.target stem hop.target.name)) s =
      (.ok (), { s with disk := d }) := Run.change_of_ok hclear
  unfold remapHop
  rw [bind_of_ok hcleared]
  exact bind_of_ok rfl

/-- A hop that fails leaves no archive, even if there was one before. -/
theorem remapHop_eq_error (hfile : s.disk.isDirectory (t.target stem hop.target.name) = false)
    (h : t.remapHop stem stage hop s = (.error e, s')) :
    s'.disk.holds (t.target stem hop.target.name) = false := by
  obtain ⟨d, hclear⟩ := Disk.exists_clear hfile
  obtain ⟨hchanges, hnone⟩ := Disk.clear_eq_ok hclear
  rw [remapHop_of_clear hclear] at h
  rcases bind_eq_error h with hclasspath | ⟨classpath, s₁, hclasspath, h⟩
  · rw [Run.look_eq_error hclasspath]
    exact hnone
  obtain ⟨-, rfl⟩ := Run.look_eq_ok hclasspath
  rcases bind_eq_error h with hremapper | ⟨remapper, s₂, hremapper, h⟩
  · rw [Run.look_eq_error hremapper]
    exact hnone
  obtain ⟨-, rfl⟩ := Run.look_eq_ok hremapper
  rcases bind_eq_error h with happly | ⟨_, s₃, -, h⟩
  · refine (remapper.only_write _).holds_eq_false ?_ happly
    rw [← hfile]
    exact hchanges.same.isDirectory_eq _
  · cases h

/-- Hops change nothing but their own archives. -/
theorem only_remapAll (t : Task) (stem : String) (stage : Stage) (hops : List Hop) :
    Only (fun p => ∃ hop ∈ hops, p = t.target stem hop.target.name)
      (t.remapAll stem stage hops) :=
  .foldlM (fun hop hhop stage => (t.only_remapHop stem stage hop).mono fun _ hp => ⟨hop, hhop, hp⟩)
    stage

end Task

end JarRemap

/-!
## Runs that fail

A run that fails at a hop keeps the whole archives of all hops before it, and nothing of the archive
of this one; nothing is packaged. Packaging that fails once the output is begun leaves no output.
-/

namespace JarRemap

open Run (Only)

namespace Packager

variable {p : Packager} {artifact output : Path} {s s₁ s' : RunState} {e : RunError}

theorem only_writeOutput (p : Packager) (artifact output : Path) (entries : List Entry) :
    Only (· = output) (p.writeOutput artifact output entries) :=
  .bind (.look _) fun _ => .bind (.look _) fun _ => .bind (.write _) fun _ =>
    .bind (.look _) fun _ => .write _

/-- A file can only be created where there is no directory. -/
theorem isDirectory_of_write {d d' : Disk} {c : Content} (h : d.write output c = .ok d') :
    d.isDirectory output = false := by
  obtain ⟨hchanges, hread⟩ := Disk.write_eq_ok h
  rw [← hchanges.same.isDirectory_eq, ← Bool.not_eq_true, Disk.isDirectory_iff]
  rw [Disk.read_eq_ok_iff] at hread
  rw [hread]
  exact nofun

/-- Packaging that fails once the output was created leaves no output. -/
theorem holds_of_copyFrom {entries : List Entry} {created : Disk}
    (hopen : openArtifact artifact output s = (.ok entries, s₁))
    (hcreated : s₁.disk.write output (.bytes []) = .ok created)
    (h : p.copyFrom artifact output s = (.error e, s')) : s'.disk.holds output = false := by
  unfold copyFrom at h
  rw [bind_of_ok hopen] at h
  exact (p.only_writeOutput artifact output entries).holds_eq_false
    (isDirectory_of_write hcreated) h

end Packager

namespace Task

variable {t : Task} {input : Path} {hops : List Hop} {s s' : RunState} {e : RunError}

/-- The hops of a run on an input. -/
def goThrough (t : Task) (input : Path) (hops : List Hop) : Run Stage :=
  let first := t.hooks.before input
  t.remapAll (t.stem first) (t.start first) hops

/-- One hop of a run on an input. -/
def go (t : Task) (input : Path) (stage : Stage) (hop : Hop) : Run Stage :=
  t.remapHop (t.stem (t.hooks.before input)) stage hop

/-- The archive that a hop of a run on an input writes. -/
def archiveOf (t : Task) (input : Path) (hop : Hop) : Path :=
  t.target (t.stem (t.hooks.before input)) hop.target.name

/-- The whole archive of a hop is on a disk, as the hop leaves it that comes behind others in a run
from a state. -/
def HasArchive (t : Task) (input : Path) (s : RunState) (earlier : List Hop) (hop : Hop)
    (d : Disk) : Prop :=
  ∃ stage between cleared entries, (t.goThrough input earlier).run s = (.ok stage, between) ∧
    between.disk.clear (t.archiveOf input hop) = .ok cleared ∧
    t.hopOutput hop stage cleared = .ok entries ∧
    d.read (t.archiveOf input hop) = .ok (.archive entries)

/-- Hops that fail do so at one of them, which leaves no archive; the archives of all hops before
are whole. -/
theorem goThrough_eq_error
    (hfiles : ∀ hop ∈ hops, s.disk.isDirectory (t.archiveOf input hop) = false)
    (hapart : hops.Pairwise fun hop later =>
      s.disk.Apart (t.archiveOf input later) (t.archiveOf input hop))
    (h : t.goThrough input hops s = (.error e, s')) :
    ∃ done hop rest stage between, hops = done ++ hop :: rest ∧
      (t.goThrough input done).run s = (.ok stage, between) ∧
      (t.go input stage hop).run between = (.error e, s') ∧
      s'.disk.holds (t.archiveOf input hop) = false ∧
      ∀ earlier finished later, done = earlier ++ finished :: later →
        t.HasArchive input s earlier finished s'.disk := by
  obtain ⟨done, hop, rest, stage, between, rfl, hdone, hhop⟩ := foldlM_eq_error h
  have hchanges := (t.only_remapAll _ _ done).changesOnly hdone
  refine ⟨done, hop, rest, stage, between, rfl, hdone, hhop, ?_, ?_⟩
  · refine remapHop_eq_error ?_ hhop
    rw [hchanges.same.isDirectory_eq]
    exact hfiles hop (List.mem_append_right _ List.mem_cons_self)
  · rintro earlier finished later rfl
    obtain ⟨before, s₁, hearlier, hbehind⟩ := foldlM_append_eq_ok hdone
    rw [List.foldlM_cons] at hbehind
    obtain ⟨after, s₂, hfinished, hlater⟩ := bind_eq_ok hbehind
    obtain ⟨cleared, entries, hcleared, houtput, hread⟩ := remapHop_eq_ok hfinished
    refine ⟨before, s₁, cleared, entries, hearlier, hcleared, houtput, ?_⟩
    -- up to here every hop has kept the directories, and none behind writes to this archive
    have hsame : s.disk.SameDirectories s₂.disk := by
      have hfirst := (t.only_remapAll _ _ earlier).changesOnly hearlier
      have hnext := (t.only_remapHop _ before finished).changesOnly hfinished
      exact hfirst.same.trans hnext.same
    have hrest : t.remapAll (t.stem (t.hooks.before input)) after (later ++ [hop]) s₂ =
        (.error e, s') := by
      unfold remapAll
      rw [List.foldlM_append, bind_of_ok hlater, List.foldlM_cons]
      exact bind_of_error hhop
    refine ((t.only_remapAll _ after (later ++ [hop])).changesOnly hrest).read_eq_ok ?_ hread
    rintro _ ⟨other, hother, rfl⟩
    refine hsame.apart ?_
    have hbehind : (finished :: (later ++ [hop])).Sublist
        (earlier ++ finished :: later ++ hop :: rest) := by
      rw [List.append_assoc]
      have hhop : [hop].Sublist (hop :: rest) := List.singleton_sublist.2 List.mem_cons_self
      exact List.sublist_append_of_sublist_right ((hhop.append_left later).cons_cons finished)
    exact (List.pairwise_cons.1 (hapart.sublist hbehind)).1 other hother

/-- A run that fails at a hop fails with the error of the hop, and never hands anything over. The
archive of the hop is not there, even if one was there before; the archives of all earlier hops are
there, whole. And packaging that fails once it has created the output leaves no output. This holds
where no directory is in the place of an archive, and no two archives of the run are in one place,
as they never are if no namespace has a slash in its name (`pairwise_apart`). -/
theorem failed_run_keeps_whole_archives {d : Disk}
    (hroute : t.tree.resolve t.settings.dev t.settings.fallback t.settings.prod = .ok hops)
    (hdirectory : s.disk.makeDirectories t.workDirectory = .ok d)
    (hfiles : ∀ hop ∈ hops, d.isDirectory (t.archiveOf input hop) = false)
    (hapart : hops.Pairwise fun hop later =>
      d.Apart (t.archiveOf input later) (t.archiveOf input hop))
    (hfail : (t.goThrough input hops).run { s with disk := d } = (.error e, s')) :
    (∀ handOver, (t.runWith handOver input).run s = (.error e, s')) ∧
    (∃ done hop rest stage between, hops = done ++ hop :: rest ∧
      (t.goThrough input done).run { s with disk := d } = (.ok stage, between) ∧
      (t.go input stage hop).run between = (.error e, s') ∧
      s'.disk.holds (t.archiveOf input hop) = false ∧
      ∀ earlier finished later, done = earlier ++ finished :: later →
        t.HasArchive input { s with disk := d } earlier finished s'.disk) ∧
    ∀ (p : Packager) (artifact output : Path) (before opened after : RunState)
      (entries : List Entry) (created : Disk) (e : RunError),
      (Packager.openArtifact artifact output).run before = (.ok entries, opened) →
      opened.disk.write output (.bytes []) = .ok created →
      (p.copyFrom artifact output).run before = (.error e, after) →
      after.disk.holds output = false := by
  refine ⟨fun handOver => ?_, goThrough_eq_error hfiles hapart hfail, ?_⟩
  · have hhops : Run.look (fun _ => (t.tree.resolve t.settings.dev t.settings.fallback
        t.settings.prod).mapError .route) s = (.ok hops, s) := by
      rw [Run.look_eq, hroute]
      rfl
    have hmade : Run.change (·.makeDirectories t.workDirectory) s =
        (.ok (), { s with disk := d }) := Run.change_of_ok hdirectory
    change t.runWith handOver input s = _
    unfold runWith
    rw [bind_of_ok hhops, bind_of_ok hmade]
    exact bind_of_error hfail
  · intro p artifact output before opened after entries created e hopen hcreated hcopy
    exact Packager.holds_of_copyFrom hopen hcreated hcopy

namespace Sample

/-- Two hops. The archive of the game, which the second one needs, cannot be had. -/
def twoHops : Task where
  tree := (({ namespaces := ["x", "y", "z"] } : MappingTree).connect "x" "y").connect "y" "z"
  settings := ⟨"x", "x", "z", false, .combined, false⟩
  workDirectory := ⟨"/w"⟩
  classpath := {
    entries := fun _ _ => .ok []
    core? := fun n _ _ => if n.name = "y" then .error .unreadableArchive else .ok none
    isCore := fun _ => false }

/-- The route of the task. -/
def route : List Hop := [⟨⟨"x", false⟩, ⟨"y", false⟩⟩, ⟨⟨"y", false⟩, ⟨"z", false⟩⟩]

/-- An artifact, and what an earlier run left of the second hop. -/
def disk : Disk where
  nodes := ⟨
    [(["in.jar"], .file (.archive [⟨"a.txt", [0x61]⟩])),
      (["w"], .directory),
      (["in-temp-z.jar", "w"], .file (.archive []))], by decide⟩

/-- A packager that cannot copy anything. -/
def packager : Packager where
  copy := fun _ => .error .unreadableArchive

/-- What the hops leave. -/
def left : RunState := ((twoHops.goThrough ⟨"/in.jar"⟩ route).run { disk }).2

/-- What the packager leaves. -/
def unpackaged : RunState := ((packager.copyFrom ⟨"/in.jar"⟩ ⟨"/out.jar"⟩).run { disk }).2

end Sample

open Sample in
/-- The second hop fails: the archive of the first one is there, and the old archive of the second
one is gone. The output that could not be packaged is not there either. -/
theorem failed_run_keeps_whole_archives_twoHops :
    disk.holds ⟨"/w/in-temp-z.jar"⟩ = true ∧
    (twoHops.run packager ⟨"/in.jar"⟩ ⟨"/out.jar"⟩).run { disk } =
      (.error .unreadableArchive, left) ∧
    left.disk.read ⟨"/w/in-temp-y.jar"⟩ = .ok (.archive [⟨"a.txt", [0x61]⟩]) ∧
    left.disk.holds ⟨"/w/in-temp-z.jar"⟩ = false ∧
    unpackaged.disk.holds ⟨"/out.jar"⟩ = false := by
  have hroute : twoHops.tree.resolve "x" "x" "z" = .ok route := by decide +kernel
  have hdirectory : disk.makeDirectories twoHops.workDirectory = .ok disk := by rfl
  have hfiles : ∀ hop ∈ route, disk.isDirectory (twoHops.archiveOf ⟨"/in.jar"⟩ hop) = false := by
    decide +kernel
  have hapart : route.Pairwise fun hop later =>
      disk.Apart (twoHops.archiveOf ⟨"/in.jar"⟩ later) (twoHops.archiveOf ⟨"/in.jar"⟩ hop) :=
    pairwise_apart (by decide +kernel) (by decide +kernel) (MappingTree.nodup_targets hroute)
  have hfail : (twoHops.goThrough ⟨"/in.jar"⟩ route).run { disk } =
      (.error .unreadableArchive, left) := Prod.ext (by decide +kernel) rfl
  obtain ⟨hrun, -, hpackaging⟩ := failed_run_keeps_whole_archives (s := { disk }) hroute hdirectory
    hfiles hapart hfail
  refine ⟨by decide +kernel, hrun _, by decide +kernel, by decide +kernel, ?_⟩
  exact hpackaging packager ⟨"/in.jar"⟩ ⟨"/out.jar"⟩ { disk } { disk } unpackaged
    [⟨"a.txt", [0x61]⟩] (disk.put ["out.jar"] (.file (.bytes []))) .unreadableArchive
    (Prod.ext (by decide +kernel) rfl) rfl (Prod.ext (by decide +kernel) rfl)

end Task

end JarRemap

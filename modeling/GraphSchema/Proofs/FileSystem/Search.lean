/-
What a search finds.

Each path is searched on its own, and what is found under one is put behind what is found under
others.  So a file is found once for every path that it lies at or under (`FileSystem.search_finds`):
exactly once if there is one such path, and more often if one of the paths lies under another, or is
given again.  A file that is found twice is loaded twice, which cannot come to a schema if it defines
a type (`FileSystem.nodup_of_loadSchema`).
-/
import GraphSchema.Command.Run
import GraphSchema.Proofs.FileSystem.Tree
import GraphSchema.Proofs.Schema.Unnamed

namespace GraphSchema

/-! ### Extensions -/

/-- A name that consists of more than an extension with a point in front, where the extension is one
of those that are given, be it with points in front or without. -/
def HasExtension (given : List String) (name : String) : Prop :=
  ∃ stem extension, stem ≠ [] ∧ '.' ∉ extension ∧ name.toList = stem ++ '.' :: extension ∧
    ∃ e ∈ given, ∃ n, e.toList = List.replicate n '.' ++ extension

/-- The extension begins behind the last point. -/
theorem extension?_of_eq {name : String} {stem extension : List Char} (hpoint : '.' ∉ extension)
    (hname : name.toList = stem ++ '.' :: extension) :
    extension? name = if stem = [] then none else some (String.ofList extension) := by
  have hpass : ∀ c ∈ extension.reverse, (c != '.') = true := by
    intro c hc
    exact bne_iff_ne.mpr fun heq => hpoint (heq ▸ List.mem_reverse.mp hc)
  have hreverse : name.toList.reverse = extension.reverse ++ '.' :: stem.reverse := by
    rw [hname, List.reverse_append, List.reverse_cons, List.append_assoc, List.singleton_append]
  have hdrop : name.toList.reverse.dropWhile (· != '.') = '.' :: stem.reverse := by
    rw [hreverse, List.dropWhile_append_of_pos hpass, List.dropWhile_cons_of_neg (by decide)]
  have htake : (name.toList.reverse.takeWhile (· != '.')).reverse = extension := by
    rw [hreverse, List.takeWhile_append_of_pos hpass, List.takeWhile_cons_of_neg (by decide),
      List.append_nil, List.reverse_reverse]
  simp only [extension?, hdrop, htake]
  cases hstem : stem.reverse with
  | nil => rw [if_pos (List.reverse_eq_nil_iff.mp hstem)]
  | cons c rest => rw [if_neg (mt List.reverse_eq_nil_iff.mpr (hstem ▸ List.cons_ne_nil c rest))]

theorem extension?_eq_some_iff {name extension : String} :
    extension? name = some extension ↔
      ∃ stem, stem ≠ [] ∧ '.' ∉ extension.toList ∧ name.toList = stem ++ '.' :: extension.toList := by
  constructor
  · intro h
    by_cases hmem : '.' ∈ name.toList.reverse
    · obtain ⟨after, before, heq, hpoint⟩ := List.eq_append_cons_of_mem hmem
      have hpoint : '.' ∉ after.reverse := mt List.mem_reverse.mp hpoint
      have hname : name.toList = before.reverse ++ '.' :: after.reverse := by
        rw [← List.reverse_reverse name.toList, heq, List.reverse_append, List.reverse_cons,
          List.append_assoc, List.singleton_append]
      rw [extension?_of_eq hpoint hname] at h
      obtain ⟨hstem, heq⟩ := Option.ite_none_left_eq_some.mp h
      obtain rfl := Option.some.inj heq
      rw [String.toList_ofList]
      exact ⟨before.reverse, hstem, hpoint, hname⟩
    · have hdrop : name.toList.reverse.dropWhile (· != '.') = [] :=
        List.dropWhile_eq_nil_iff.mpr fun c hc => bne_iff_ne.mpr fun heq => hmem (heq ▸ hc)
      simp only [extension?, hdrop] at h
      cases h
  · rintro ⟨stem, hstem, hpoint, hname⟩
    rw [extension?_of_eq hpoint hname, if_neg hstem, String.ofList_toList]

theorem dropWhile_points_eq_iff {text extension : List Char} (h : '.' ∉ extension) :
    text.dropWhile (· == '.') = extension ↔ ∃ n, text = List.replicate n '.' ++ extension := by
  constructor
  · rintro rfl
    refine ⟨(text.takeWhile (· == '.')).length, ?_⟩
    have hpoints : text.takeWhile (· == '.') = List.replicate (text.takeWhile (· == '.')).length '.' :=
      List.eq_replicate_of_mem fun c hc => by simpa using List.mem_takeWhile_imp hc
    rw [← hpoints, List.takeWhile_append_dropWhile]
  · rintro ⟨n, rfl⟩
    rw [List.dropWhile_append_of_pos fun c hc => beq_iff_eq.mpr (List.eq_of_mem_replicate hc)]
    cases extension with
    | nil => rfl
    | cons c rest =>
      refine List.dropWhile_cons_of_neg fun hc => h ?_
      exact beq_iff_eq.mp hc ▸ List.mem_cons_self

namespace FileSystem

variable {fs : FileSystem} {given : List String}

/-- The extensions that are given, without points in front. -/
def bareExtensions (given : List String) : List String :=
  given.map fun e => String.ofList (e.toList.dropWhile (· == '.'))

theorem hasExtension_iff {place : List String} :
    hasExtension (bareExtensions given) place = true ↔
      ∃ name, place.getLast? = some name ∧ HasExtension given name := by
  have hbare : ∀ {extension : String}, '.' ∉ extension.toList → (extension ∈ bareExtensions given ↔
      ∃ e ∈ given, ∃ n, e.toList = List.replicate n '.' ++ extension.toList) := by
    intro extension hpoint
    unfold bareExtensions
    simp only [List.mem_map, ← dropWhile_points_eq_iff hpoint, String.ofList_eq]
  unfold hasExtension
  cases hlast : place.getLast? with
  | none => simp
  | some name =>
    rw [Option.bind_some]
    constructor
    · intro h
      split at h
      · next extension hextension =>
        obtain ⟨stem, hstem, hpoint, hname⟩ := extension?_eq_some_iff.mp hextension
        exact ⟨name, rfl, stem, _, hstem, hpoint, hname, (hbare hpoint).mp (List.contains_iff_mem.mp h)⟩
      · cases h
    · rintro ⟨_, ⟨⟩, stem, extension, hstem, hpoint, hname, hgiven⟩
      rw [extension?_of_eq hpoint hname, if_neg hstem]
      refine List.contains_iff_mem.mpr ((hbare ?_).mpr ?_)
      · rwa [String.toList_ofList]
      · rwa [String.toList_ofList]

/-! ### The files at or under a path

The walk from a place gives each file below it once, so of several places each gives a file once if
the file lies at or under it.  Counting turns this into a statement about all places together.
-/

/-- The places of the files at or under a place. -/
def filesAt (fs : FileSystem) (place : List String) : List (List String) :=
  ((fs.root.at? place).map (FileTree.filesFrom place)).getD []

theorem mem_filesAt (hroot : fs.root.WellFormed) {place p : List String} :
    p ∈ fs.filesAt place ↔ place <+: p ∧ fs.root.HasFile p := by
  unfold filesAt
  cases hat : fs.root.at? place with
  | none =>
    refine ⟨nofun, ?_⟩
    rintro ⟨⟨below, rfl⟩, t, hfile, -⟩
    rw [FileTree.at?_append, hat] at hfile
    cases hfile
  | some tree =>
    have hbelow : ∀ below, fs.root.HasFile (place ++ below) ↔ tree.HasFile below := by
      intro below
      unfold FileTree.HasFile
      rw [FileTree.at?_append, hat, Option.bind_some]
    rw [Option.map_some, Option.getD_some, FileTree.mem_filesFrom (hroot.of_at? hat).2]
    constructor
    · rintro ⟨below, rfl, hfile⟩
      exact ⟨List.prefix_append _ _, (hbelow below).mpr hfile⟩
    · rintro ⟨⟨below, rfl⟩, hfile⟩
      exact ⟨below, rfl, (hbelow below).mp hfile⟩

theorem nodup_filesAt (hroot : fs.root.WellFormed) (place : List String) : (fs.filesAt place).Nodup := by
  unfold filesAt
  cases hat : fs.root.at? place with
  | none => exact .nil
  | some tree => exact FileTree.nodup_filesFrom (hroot.of_at? hat).2 place

/-- **A file is come to once for each place that it lies at or under.** -/
theorem count_flatMap_filesAt (hroot : fs.root.WellFormed) {p : List String} (hp : fs.root.HasFile p)
    (places : List (List String)) :
    (places.flatMap fs.filesAt).count p = places.countP fun place => place.isPrefixOf p := by
  induction places with
  | nil => rfl
  | cons place places ih =>
    rw [List.flatMap_cons, List.count_append, ih, List.countP_cons, Nat.add_comm]
    congr 1
    by_cases hstart : place <+: p
    · rw [if_pos (List.isPrefixOf_iff_prefix.mpr hstart)]
      exact List.count_eq_one_of_mem (nodup_filesAt hroot place) ((mem_filesAt hroot).mpr ⟨hstart, hp⟩)
    · rw [if_neg (mt List.isPrefixOf_iff_prefix.mp hstart)]
      exact List.count_eq_zero_of_not_mem fun hmem => hstart ((mem_filesAt hroot).mp hmem).1

theorem mapM_filesUnder {paths : List FilePath} {places : List (List String)}
    (hpaths : List.Forall₂ (fun path place => fs.resolve path = .ok place) paths places) :
    paths.mapM fs.filesUnder = .ok (places.map fs.filesAt) := by
  induction hpaths with
  | nil => rfl
  | @cons path place paths places hpath _ ih =>
    have hfirst : fs.filesUnder path = .ok (fs.filesAt place) := by
      rw [filesUnder, hpath]
      rfl
    rw [List.mapM_cons, hfirst, ih]
    rfl

/-! ### Searching

What a search finds is what it walks over, filtered by names, but for a single path that is a file:
that one is taken whatever its name.
-/

/-- The place of a file that a search is for: it lies at or under one of the places, and has one of
the extensions. -/
structure Sought (fs : FileSystem) (given : List String) (places : List (List String)) (p : List String) :
    Prop where
  file : fs.root.HasFile p
  within : ∃ place ∈ places, place <+: p
  extension : ∃ name, p.getLast? = some name ∧ HasExtension given name

/-- The places that a search comes to, as often as it comes to them. -/
def soughtPlaces (fs : FileSystem) (given : List String) (places : List (List String)) : List (List String) :=
  (places.flatMap fs.filesAt).filter (hasExtension (bareExtensions given))

variable {paths : List FilePath} {places : List (List String)}

theorem mem_soughtPlaces (hroot : fs.root.WellFormed) {p : List String} :
    p ∈ fs.soughtPlaces given places ↔ fs.Sought given places p := by
  unfold soughtPlaces
  simp only [List.mem_filter, List.mem_flatMap, mem_filesAt hroot, hasExtension_iff]
  constructor
  · rintro ⟨⟨place, hplace, hstart, hfile⟩, hextension⟩
    exact ⟨hfile, ⟨place, hplace, hstart⟩, hextension⟩
  · rintro ⟨hfile, ⟨place, hplace, hstart⟩, hextension⟩
    exact ⟨⟨place, hplace, hstart, hfile⟩, hextension⟩

theorem Sought.isEntryName (hroot : fs.root.WellFormed) {p : List String} (h : fs.Sought given places p) :
    ∀ name ∈ p, IsEntryName name := by
  obtain ⟨_, hat, -⟩ := h.file
  exact (hroot.of_at? hat).1

/-- A path that is found is told as often as there are paths that the file lies at or under. -/
theorem count_pathOf (hroot : fs.root.WellFormed) {p : List String} (h : fs.Sought given places p) :
    ((fs.soughtPlaces given places).map pathOf).count (pathOf p)
      = places.countP fun place => place.isPrefixOf p := by
  have hmem := (mem_soughtPlaces hroot).mpr h
  have hsame : ∀ q ∈ fs.soughtPlaces given places, (pathOf q == pathOf p) = (q == p) := by
    intro q hq
    have hnames := ((mem_soughtPlaces hroot).mp hq).isEntryName hroot
    rw [Bool.eq_iff_iff, beq_iff_eq, beq_iff_eq]
    exact pathOf_inj hnames (h.isEntryName hroot)
  calc ((fs.soughtPlaces given places).map pathOf).count (pathOf p)
      = (fs.soughtPlaces given places).count p := by
        rw [List.count, List.countP_map]
        exact List.countP_congr fun q hq => by rw [Function.comp_apply, hsame q hq]
    _ = (places.flatMap fs.filesAt).count p := List.count_filter (List.mem_filter.mp hmem).2
    _ = places.countP fun place => place.isPrefixOf p := count_flatMap_filesAt hroot h.file places

theorem onlyFile?_eq_some_iff
    (hpaths : List.Forall₂ (fun path place => fs.resolve path = .ok place) paths places) {only : List String} :
    fs.onlyFile? paths = some only ↔ places = [only] ∧ fs.root.HasFile only := by
  cases hpaths with
  | nil => simp [onlyFile?]
  | @cons path place paths places hpath hrest =>
    cases hrest with
    | nil =>
      rw [onlyFile?, hpath]
      simp only [Except.toOption, Option.filter_eq_some_iff, Option.some.injEq, Option.any_eq_true,
        List.cons.injEq, and_true, FileTree.HasFile]
    | cons => simp [onlyFile?]

/-- What a search comes to, told by the places that its paths lead to. -/
theorem search_eq (given : List String)
    (hpaths : List.Forall₂ (fun path place => fs.resolve path = .ok place) paths places) :
    ∃ skipped, fs.search given paths =
      match fs.soughtPlaces given places, fs.onlyFile? paths with
      | [], some only => .ok ⟨[pathOf only], skipped - 1⟩
      | [], none => .error (.noneFound paths)
      | found, _ => .ok ⟨found.map pathOf, skipped⟩ := by
  let others := (places.flatMap fs.filesAt).filter (not ∘ hasExtension (bareExtensions given))
  have hpartition : (places.map fs.filesAt).flatten.partition (hasExtension (bareExtensions given))
      = (fs.soughtPlaces given places, others) := by
    rw [List.partition_eq_filter_filter, ← List.flatMap_def]
    rfl
  refine ⟨others.length, ?_⟩
  unfold search
  rw [mapM_filesUnder hpaths, ← bareExtensions]
  simp only [bind, Except.bind, hpartition]
  rfl

/-- Where no path lies at or under another one, a file lies at or under one path at most. -/
theorem countP_isPrefixOf_le_one {p : List String}
    (h : places.Pairwise fun first second => ¬first <+: second ∧ ¬second <+: first) :
    places.countP (fun place => place.isPrefixOf p) ≤ 1 := by
  induction places with
  | nil => exact Nat.zero_le _
  | cons place places ih =>
    obtain ⟨hfirst, hrest⟩ := List.pairwise_cons.mp h
    rw [List.countP_cons]
    by_cases hstart : place <+: p
    · have hnone : places.countP (fun place => place.isPrefixOf p) = 0 := by
        refine List.countP_eq_zero.mpr fun other hother hother' => ?_
        rcases List.prefix_or_prefix_of_prefix hstart (List.isPrefixOf_iff_prefix.mp hother') with h | h
        · exact (hfirst other hother).1 h
        · exact (hfirst other hother).2 h
      rw [hnone]
      split <;> decide
    · rw [if_neg (mt List.isPrefixOf_iff_prefix.mp hstart)]
      exact ih hrest

theorem Sought.countP_pos {p : List String} (h : fs.Sought given places p) :
    0 < places.countP fun place => place.isPrefixOf p := by
  obtain ⟨place, hplace, hstart⟩ := h.within
  exact List.countP_pos_iff.mpr ⟨place, hplace, List.isPrefixOf_iff_prefix.mpr hstart⟩

/-- No path is told twice exactly if no file lies at or under two of the paths. -/
theorem nodup_map_pathOf_iff (hroot : fs.root.WellFormed) (given : List String) (places : List (List String)) :
    ((fs.soughtPlaces given places).map pathOf).Nodup ↔ ∀ p, fs.Sought given places p →
      places.countP (fun place => place.isPrefixOf p) = 1 := by
  rw [List.nodup_iff_count_le_one]
  constructor
  · intro h p hp
    have hle := h (pathOf p)
    rw [count_pathOf hroot hp] at hle
    exact Nat.le_antisymm hle hp.countP_pos
  · intro h path
    by_cases hpath : path ∈ (fs.soughtPlaces given places).map pathOf
    · obtain ⟨p, hp, rfl⟩ := List.mem_map.mp hpath
      have hp := (mem_soughtPlaces hroot).mp hp
      rw [count_pathOf hroot hp]
      exact Nat.le_of_eq (h p hp)
    · rw [List.count_eq_zero_of_not_mem hpath]
      exact Nat.zero_le _

/--
**What a search finds.**  Let all paths lead somewhere.  If files that have one of the extensions lie
at or under them, exactly these are found, and each of them once for every path that it lies at or
under.  So no file is found twice exactly if none of them lies at or under two of the paths, and in
particular if no path lies at or under another one.  Otherwise a single path that names a file is
taken as it is, and in all other cases the search fails.
-/
theorem search_finds (hroot : fs.root.WellFormed) (given : List String)
    (hpaths : List.Forall₂ (fun path place => fs.resolve path = .ok place) paths places) :
    ((∃ p, fs.Sought given places p) → ∃ found, fs.search given paths = .ok found ∧
      (∀ path ∈ found.paths, ∃ p, fs.Sought given places p ∧ path = pathOf p) ∧
      (∀ p, fs.Sought given places p →
        found.paths.count (pathOf p) = places.countP fun place => place.isPrefixOf p) ∧
      (found.paths.Nodup ↔ ∀ p, fs.Sought given places p →
        places.countP (fun place => place.isPrefixOf p) = 1) ∧
      (places.Pairwise (fun first second => ¬first <+: second ∧ ¬second <+: first) → found.paths.Nodup)) ∧
    ((∀ p, ¬fs.Sought given places p) →
      (∀ only, places = [only] → fs.root.HasFile only →
        ∃ found, fs.search given paths = .ok found ∧ found.paths = [pathOf only]) ∧
      ((∀ only, places = [only] → ¬fs.root.HasFile only) →
        fs.search given paths = .error (.noneFound paths))) := by
  obtain ⟨skipped, hsearch⟩ := search_eq given hpaths
  constructor
  · rintro ⟨p, hp⟩
    have hne : fs.soughtPlaces given places ≠ [] := List.ne_nil_of_mem ((mem_soughtPlaces hroot).mpr hp)
    have hnodup := nodup_map_pathOf_iff hroot given places
    refine ⟨⟨(fs.soughtPlaces given places).map pathOf, skipped⟩, ?_, fun path hpath => ?_,
      fun p hp => count_pathOf hroot hp, hnodup, fun hapart => hnodup.mpr fun p hp => ?_⟩
    · rw [hsearch]
      split
      · contradiction
      · contradiction
      · rfl
    · obtain ⟨q, hq, rfl⟩ := List.mem_map.mp hpath
      exact ⟨q, (mem_soughtPlaces hroot).mp hq, rfl⟩
    · exact Nat.le_antisymm (countP_isPrefixOf_le_one hapart) hp.countP_pos
  · intro hnone
    have hnil : fs.soughtPlaces given places = [] :=
      List.eq_nil_iff_forall_not_mem.mpr fun p hp => hnone p ((mem_soughtPlaces hroot).mp hp)
    rw [hnil] at hsearch
    constructor
    · intro only hplaces hfile
      rw [(onlyFile?_eq_some_iff hpaths).mpr ⟨hplaces, hfile⟩] at hsearch
      exact ⟨_, hsearch, rfl⟩
    · intro hother
      have honly : fs.onlyFile? paths = none := by
        refine Option.eq_none_iff_forall_not_mem.mpr fun only honly => ?_
        obtain ⟨hplaces, hfile⟩ := (onlyFile?_eq_some_iff hpaths).mp honly
        exact hother only hplaces hfile
      rw [hsearch, honly]

/-- A directory with a file, and a directory in it with two more. -/
def nestedFiles : FileSystem where
  root :=
    let empty := FileTree.directory []
    let below := FileTree.put ["w", "sub", "c.txt"] (.file []) (.put ["w", "sub", "b.graphqls"] (.file []) empty)
    .put ["w", "a.graphql"] (.file "type Query \x7b f: Int \x7d".toUTF8.toList) below
  workingDirectory := ["w"]

theorem wellFormed_nestedFiles : nestedFiles.root.WellFormed := by
  have hempty : (FileTree.put ["w", "sub", "b.graphqls"] (.file []) (.directory [])).WellFormed :=
    FileTree.WellFormed.empty.put (by decide) (.file [])
  have hbelow : (FileTree.put ["w", "sub", "c.txt"] (.file [])
      (.put ["w", "sub", "b.graphqls"] (.file []) (.directory []))).WellFormed :=
    hempty.put (by decide) (.file [])
  exact hbelow.put (by decide) (.file _)

/-- The directory and one in it are searched: what lies in the inner one is found twice. -/
theorem search_finds_nested : ∃ found,
    nestedFiles.search [".graphqls", "graphql"] [⟨"."⟩, ⟨"sub"⟩] = .ok found ∧
      found.paths.count ⟨"/w/a.graphql"⟩ = 1 ∧ found.paths.count ⟨"/w/sub/b.graphqls"⟩ = 2 := by
  have hpaths : List.Forall₂ (fun path place => nestedFiles.resolve path = .ok place)
      [⟨"."⟩, ⟨"sub"⟩] [["w"], ["w", "sub"]] := .cons rfl (.cons rfl .nil)
  obtain ⟨hfinds, -⟩ := search_finds wellFormed_nestedFiles [".graphqls", "graphql"] hpaths
  have ha : nestedFiles.Sought [".graphqls", "graphql"] [["w"], ["w", "sub"]] ["w", "a.graphql"] := by
    refine ⟨⟨_, rfl, rfl⟩, ⟨["w"], by decide, by decide⟩, "a.graphql", rfl, "a".toList, "graphql".toList, ?_⟩
    exact ⟨by decide, by decide, by decide, "graphql", by decide, 0, by decide⟩
  have hb : nestedFiles.Sought [".graphqls", "graphql"] [["w"], ["w", "sub"]] ["w", "sub", "b.graphqls"] := by
    refine ⟨⟨_, rfl, rfl⟩, ⟨["w"], by decide, by decide⟩, "b.graphqls", rfl, "b".toList, "graphqls".toList, ?_⟩
    exact ⟨by decide, by decide, by decide, ".graphqls", by decide, 1, by decide⟩
  obtain ⟨found, hsearch, -, hcount, -⟩ := hfinds ⟨_, ha⟩
  exact ⟨found, hsearch, hcount _ ha, hcount _ hb⟩

/-- A file that is given next to its directory is found twice, and what it defines is said to be
defined twice. -/
theorem exists_found_twice : ∃ fs paths found, fs.root.WellFormed ∧
    (∀ path ∈ paths, ∃ place, fs.resolve path = .ok place) ∧
      fs.search ["graphql"] paths = .ok found ∧ ¬found.paths.Nodup ∧
        Command.run fs (.print false ["graphql"] paths) = .failure
          "✗ Unable to print the schema: Multiple GraphQL types named `Query` were defined" := by
  have hpaths : (nestedFiles.search ["graphql"] [⟨"."⟩, ⟨"a.graphql"⟩]).toOption.map FoundFiles.paths
      = some [⟨"/w/a.graphql"⟩, ⟨"/w/a.graphql"⟩] := by decide +kernel
  cases hsearch : nestedFiles.search ["graphql"] [⟨"."⟩, ⟨"a.graphql"⟩] with
  | error e =>
    rw [hsearch] at hpaths
    cases hpaths
  | ok found =>
    rw [hsearch] at hpaths
    have hfound : found.paths = [⟨"/w/a.graphql"⟩, ⟨"/w/a.graphql"⟩] := Option.some.inj hpaths
    refine ⟨nestedFiles, _, found, wellFormed_nestedFiles, ?_, hsearch, ?_, by decide +kernel⟩
    · exact List.forall_mem_cons.mpr ⟨⟨["w"], rfl⟩, List.forall_mem_singleton.mpr ⟨["w", "a.graphql"], rfl⟩⟩
    · rw [hfound]
      decide

end FileSystem

/-! ### Loading what is found -/

open Syntax

/-- A type that has been defined cannot be defined again. -/
theorem Draft.load_ne_ok {draft draft' : Draft} {text : SourceText} {items : List Item}
    {description : Option String} {type : TypeSyntax} {t : TypeDef}
    (hfound : draft.types.find? type.name = some t) (ht : t.isBuiltin = false)
    (hread : readSchemaDocument text.2 = some items)
    (hmem : .typeDefinition description type ∈ items) : draft.load text.1 text.2 ≠ .ok draft' := by
  intro h
  obtain ⟨others, hothers, hloaded⟩ := load_eq_ok_iff.mp h
  obtain rfl : items = others := Option.some.inj (hread.symm.trans hothers)
  obtain ⟨news, hnews, -, hroom, -⟩ := hloaded.types
  have hstated := List.mem_map_of_mem (f := Prod.mk (text.toSource draft.unnamed)) hmem
  obtain ⟨u, hu, hdefines⟩ := exists_related_of_mem hnews (List.mem_filterMap.mpr ⟨_, hstated, rfl⟩)
  have hbuiltin := (hroom u hu t (hdefines.name ▸ hfound)).1
  rw [ht] at hbuiltin
  cases hbuiltin

namespace FileSystem

variable {fs : FileSystem} {paths : List FilePath}

/-- The file is read as a document in which a type is defined. -/
def DefinesType (fs : FileSystem) (path : FilePath) : Prop :=
  ∃ content items description type, fs.read path = .ok content ∧
    readSchemaDocument content = some items ∧ Item.typeDefinition description type ∈ items

/-- The text of a file, with the path that it is loaded under. -/
def textAt (fs : FileSystem) (path : FilePath) : SourceText := (some path, (fs.read path).toOption.getD "")

theorem load_of_loadFile {draft draft' : Draft} {path : FilePath} (h : draft.loadFile fs path = .ok draft') :
    draft.load (fs.textAt path).1 (fs.textAt path).2 = .ok draft' := by
  unfold Draft.loadFile at h
  unfold textAt
  cases hread : fs.read path with
  | error e =>
    rw [hread] at h
    cases h
  | ok content =>
    rw [hread] at h
    exact h

theorem loadAll_of_loadFiles {draft draft' : Draft} (h : draft.loadFiles fs paths = .ok draft') :
    draft.loadAll (paths.map fs.textAt) = .ok draft' := by
  unfold Draft.loadFiles at h
  unfold Draft.loadAll
  induction paths generalizing draft with
  | nil => exact h
  | cons path paths ih =>
    rw [List.foldlM_cons] at h
    obtain ⟨first, hfirst, hrest⟩ := bind_eq_ok.mp h
    rw [List.map_cons, List.foldlM_cons]
    exact bind_eq_ok.mpr ⟨first, load_of_loadFile hfirst, ih hrest⟩

/-- **No file that defines a type is loaded twice.**  Paths of which one is given twice make no schema. -/
theorem nodup_of_loadSchema {schema : Schema} (h : Command.loadSchema fs paths = .ok schema)
    (hdefines : ∀ path ∈ paths, fs.DefinesType path) : paths.Nodup := by
  obtain ⟨draft, hload⟩ : ∃ draft, Draft.empty.loadFiles fs paths = .ok draft := by
    unfold Command.loadSchema at h
    cases hload : Draft.empty.loadFiles fs paths with
    | error e =>
      rw [hload] at h
      cases h
    | ok draft => exact ⟨draft, rfl⟩
  clear h
  -- The paths in front are all different, and what the last one defines is in none of the files there.
  induction paths using List.reverseRecOn generalizing draft with
  | nil => exact .nil
  | append_singleton paths path ih =>
    obtain ⟨hdefines, hlast⟩ := List.forall_mem_append.mp hdefines
    obtain ⟨content, items, description, type, hread, hitems, hmem⟩ := hlast path List.mem_cons_self
    unfold Draft.loadFiles at hload
    rw [List.foldlM_append] at hload
    obtain ⟨middle, hpaths, hpath⟩ := bind_eq_ok.mp hload
    obtain ⟨_, hpath, -⟩ := bind_eq_ok.mp hpath
    refine List.nodup_append.mpr ⟨ih hdefines middle hpaths, List.nodup_singleton path, ?_⟩
    intro other hother last hlast hsame
    have hbefore : path ∈ paths := hsame.trans (List.mem_singleton.mp hlast) ▸ hother
    have htext : (fs.textAt path).2 = content := by
      unfold textAt
      rw [hread]
      rfl
    rw [← htext] at hitems
    obtain ⟨before, after, rfl⟩ := List.append_of_mem hbefore
    have hall := loadAll_of_loadFiles hpaths
    rw [List.map_append, List.map_cons] at hall
    obtain ⟨others, hothers, hrecords⟩ := Draft.records_of_loadAll hall
    obtain rfl : items = others := Option.some.inj (hitems.symm.trans hothers)
    obtain ⟨t, hfound, hstates⟩ := hrecords _ hmem
    exact Draft.load_ne_ok hfound hstates.isBuiltin hitems hmem (load_of_loadFile hpath)

end FileSystem

end GraphSchema

/-
Writing a schema is stable.

The document of a legible schema builds a schema again, and the document of that schema is the
same text (`exists_same_sdl`).  The two schemas need not be the same: places are new,
descriptions have been wrapped, and defaults have taken the form of their types.

The first half is an assembly.  What is read back was shown to state the schema, what is loaded
to be restored, and what is built to be written the same; the conditions of `Schema.Legible`
are what each of these steps asks for.
-/
import GraphSchema.Proofs.Schema.Texts
import GraphSchema.Proofs.Sdl.Restored

namespace GraphSchema

open Sdl Syntax

variable {schema : Schema}

/-- The parts of a legible schema can be written so that they are read back. -/
theorem Schema.Legible.fits (h : schema.Legible) (hsound : schema.Sound) :
    ∀ part ∈ parts (ownDirectives schema) (ownTypes schema), part.Fits schema := by
  intro part hpart
  rcases List.mem_cons.mp hpart with rfl | hpart
  · intro operation name hname
    obtain ⟨t, ht, -⟩ := Option.map_eq_some_iff.mp (hsound.roots operation name hname)
    obtain ⟨hmem, rfl⟩ := NameTable.find?_eq_some_iff.mp ht
    exact hsound.types.named t hmem
  rcases List.mem_append.mp hpart with hpart | hpart
  · obtain ⟨d, hd, rfl⟩ := List.mem_map.mp hpart
    obtain ⟨hmem, hother⟩ := mem_ownDirectives_iff.mp hd
    exact ⟨hsound.directives d hmem hother, h.directives d hmem hother⟩
  · obtain ⟨t, ht, rfl⟩ := List.mem_map.mp hpart
    obtain ⟨hmem, hreserved, -⟩ := mem_ownTypes_iff.mp ht
    exact ⟨hsound.types.sound t hmem hreserved, h.types t ht⟩

/-- A legible schema is restored from its own document. -/
theorem Schema.Sound.exists_restored (hsound : schema.Sound) (hlegible : schema.Legible) :
    ∃ other, buildTexts [(none, schema.sdl)] = .ok other ∧
      Restored schema other.types other.directives ∧ other.root = schema.root := by
  have htypes : (Builtin.scalarNames ++ (ownTypes schema).map TypeDef.name).Nodup := by
    refine List.nodup_append.mpr ⟨by decide, ownTypes_nodup schema, ?_⟩
    rintro _ hscalar _ hname rfl
    obtain ⟨t, ht, rfl⟩ := List.mem_map.mp hname
    exact (mem_ownTypes_iff.mp ht).2.2 hscalar
  obtain ⟨draft, hload, hreloaded⟩ := exists_load (hlegible.fits hsound) hlegible.roots
    (ownDirectives_nodup schema) htypes
  obtain ⟨other, hbuild, hrestored, hroots⟩ := hreloaded.exists_build hsound hlegible
  have hloadAll : Draft.empty.loadAll [(none, schema.sdl)] = .ok draft := bind_eq_ok.mpr ⟨draft, hload, rfl⟩
  exact ⟨other, bind_eq_ok.mpr ⟨draft, hloadAll, hbuild⟩, hrestored, hroots⟩

/--
**A legible schema is written the same again.**

The document of a schema builds, and the schema that it builds has the same document, so that
writing a schema that has been read from a document changes nothing any more.
-/
theorem exists_same_sdl {texts : List SourceText} (h : buildTexts texts = .ok schema)
    (hlegible : schema.Legible) :
    ∃ other, buildTexts [(none, schema.sdl)] = .ok other ∧ other.sdl = schema.sdl := by
  have hsound := sound_of_buildTexts h
  obtain ⟨other, hbuild, hrestored, hroots⟩ := hsound.exists_restored hlegible
  exact ⟨other, hbuild, hrestored.sdl_eq hsound hroots⟩

/-- An argument with a description, a default in a list, and a reason with a quotation mark. -/
def describedArgument : SourceText :=
  (none, "directive @d on FIELD | QUERY\n"
    ++ "type Query \x7b f(\"how many\" n: [Int] = 1): [ID!] @deprecated(reason: \"\\\"\") \x7d")

theorem exists_same_sdl_describedArgument :
    ∃ schema, buildTexts [describedArgument] = .ok schema ∧ schema.Legible ∧
      ∃ other, buildTexts [(none, schema.sdl)] = .ok other ∧ other.sdl = schema.sdl := by
  obtain ⟨schema, h, hcheck⟩ := exists_buildTexts [describedArgument]
    (p := fun schema => decide schema.Legible) (by decide +kernel)
  have hlegible : schema.Legible := of_decide_eq_true hcheck
  exact ⟨schema, h, hlegible, exists_same_sdl h hlegible⟩

/-! ### Documents that are not read back

Each condition of `Schema.Legible` is there for documents that do not come back without it.  Most
of them build no schema; where U+0008 is written, the schema has another document.  A default that
nests too deeply is among the schemas that are not shallow (`deepDefault`).
-/

/-- The text builds a schema whose document builds none. -/
def Unreadable (text : SourceText) : Prop :=
  ∃ schema, buildTexts [text] = .ok schema ∧ ∀ other, buildTexts [(none, schema.sdl)] ≠ .ok other

theorem unreadable_of_check {text : SourceText}
    (h : (buildTexts [text]).toOption.any (fun schema => !(buildTexts [(none, schema.sdl)]).isOk) = true) :
    Unreadable text := by
  obtain ⟨schema, hbuild, hcheck⟩ := exists_buildTexts [text] h
  refine ⟨schema, hbuild, fun other hother => ?_⟩
  rw [hother] at hcheck
  cases hcheck

/-- A root of a name that is left out wherever it stands. -/
def scalarRoot : SourceText := (none, "schema \x7b query: Int \x7d type Int \x7b f: Int \x7d")

/-- A type that is the root of two operations, of one of them by its name. -/
def sharedRoot : SourceText := (none, "schema \x7b query: Mutation \x7d type Mutation \x7b f: Int \x7d")

/-- Not every document builds again. -/
theorem unreadable_roots : Unreadable scalarRoot ∧ Unreadable sharedRoot :=
  ⟨unreadable_of_check (by decide +kernel), unreadable_of_check (by decide +kernel)⟩

/-- Texts that fail the other conditions, one after the other. -/
def unreadableTexts : List String :=
  [ -- an interface of a name that is left out
    "interface ID \x7b a: Boolean \x7d type Query implements ID \x7b a: Boolean \x7d",
    -- a description that ends the line of its comment
    "\"a\\rb\" type Query \x7b f: Int \x7d",
    -- defaults: two words for an enum value, a number with `e9` in it and one that is not finite
    "type Query \x7b f(a: __TypeKind = \"a b\"): Int \x7d",
    "type Query \x7b f(a: Float = 10e89): Int \x7d",
    "type Query \x7b f(a: Float = -1e1000): Int \x7d",
    -- a directive without a place
    "type Query \x7b f: Int \x7d directive @d on" ]

theorem unreadable_of_mem_unreadableTexts : ∀ text ∈ unreadableTexts, Unreadable (none, text) := by
  have hall : ∀ text ∈ unreadableTexts, (buildTexts [(none, text)]).toOption.any (fun schema =>
      !(buildTexts [(none, schema.sdl)]).isOk) = true := forall_mem_of_all (by decide +kernel)
  exact fun text htext => unreadable_of_check (hall text htext)

/-- The text builds a schema whose document builds one with another document. -/
def Altered (text : SourceText) : Prop :=
  ∃ schema other, buildTexts [text] = .ok schema ∧ buildTexts [(none, schema.sdl)] = .ok other ∧
    other.sdl ≠ schema.sdl

/-- U+0008 in a reason and in a default. -/
def backspaces : List String :=
  ["type Query \x7b f: Int @deprecated(reason: \"\\u0008\") \x7d",
    "type Query \x7b f(a: String = \"\\u0008\"): Int \x7d"]

theorem altered_of_mem_backspaces : ∀ text ∈ backspaces, Altered (none, text) := by
  have hall : ∀ text ∈ backspaces, (buildTexts [(none, text)]).toOption.any (fun schema =>
      (buildTexts [(none, schema.sdl)]).toOption.any fun other => other.sdl != schema.sdl) = true :=
    forall_mem_of_all (by decide +kernel)
  intro text htext
  obtain ⟨schema, hbuild, hcheck⟩ := exists_buildTexts [(none, text)] (hall text htext)
  obtain ⟨other, hother, hne⟩ := exists_buildTexts [(none, schema.sdl)] hcheck
  exact ⟨schema, other, hbuild, hother, bne_iff_ne.mp hne⟩

end GraphSchema

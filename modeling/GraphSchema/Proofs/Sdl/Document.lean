/-
Whole documents as words.

A schema is written as its roots, some directives and some types.  Each of these parts is read
as one item, so reading the document gives as many items as there are parts, and each states its
part again (`exists_items_of_document`).

The parts come in a fixed order, the roots first and the types by name.  Reading would not mind
another one.
-/
import GraphSchema.Proofs.Sdl.Definition

namespace GraphSchema.Sdl

open Syntax

variable {source : Source} {schema : Schema}

/-! ### Roots -/

/-- The operations that a schema has, with their roots. -/
def roots (schema : Schema) : List (OperationKind × String) :=
  OperationKind.all.filterMap fun operation => (schema.root operation).map (operation, ·)

/-- The words of a root. -/
def rootWords (root : OperationKind × String) : List Word :=
  [⟨.fresh false 2 none, .name root.1.keyword⟩, ⟨.inline false 0, .punctuator .colon⟩,
    ⟨.inline false 1, .name root.2⟩]

/-- The words of the roots. -/
def rootsWords (schema : Schema) : List Word :=
  ⟨.inline false 0, .name "schema"⟩ :: ⟨.inline false 1, .punctuator .braceOpen⟩
    :: ((roots schema).flatMap rootWords ++ [⟨.fresh false 0 none, .punctuator .braceClose⟩])

theorem layoutText_rootsWords (schema : Schema) :
    layoutText (rootsWords schema) = (rootsText schema).toList := by
  obtain ⟨types, directives, query, mutation, subscription⟩ := schema
  cases mutation <;> cases subscription <;>
    simp [rootsWords, roots, rootWords, rootsText, OperationKind.all, Schema.root, layoutText,
      Word.text, Gap.text, Gap.commentText, spaces, Lexeme.text, Punctuator.text,
      OperationKind.keyword, String.join, String.toList_append]

theorem laid_rootsWords (h : ∀ operation, ∀ name ∈ schema.root operation, isName name.toList = true) :
    Laid true (rootsWords schema) := by
  have hkeyword : ∀ operation : OperationKind, isName operation.keyword.toList = true := by
    intro operation
    cases operation <;> decide
  have hschema : isName "schema".toList = true := by decide
  refine ⟨⟨trivial, hschema⟩, Or.inl rfl, ⟨trivial, trivial⟩, Or.inr (Or.inl rfl), ?_⟩
  refine Laid.append ?_ ⟨⟨nofun, trivial⟩, Or.inr (Or.inl rfl), trivial⟩
  have hroots : ∀ root ∈ roots schema, isName root.2.toList = true := by
    intro root hroot
    obtain ⟨operation, -, heq⟩ := List.mem_filterMap.mp hroot
    obtain ⟨name, hname, rfl⟩ := Option.map_eq_some_iff.mp heq
    exact h operation name hname
  refine Laid.loosen ?_
  generalize roots schema = all at hroots
  induction all with
  | nil => trivial
  | cons root all ih =>
    rw [List.forall_mem_cons] at hroots
    refine ⟨⟨nofun, hkeyword root.1⟩, Or.inr (Or.inl rfl), ⟨trivial, trivial⟩, Or.inr (Or.inr rfl),
      ⟨trivial, hroots.1⟩, Or.inl rfl, ?_⟩
    exact ih hroots.2

/-- The entries of the roots make the block that names them. -/
theorem foldlM_roots (schema : Schema) (position : Position) :
    ((roots schema).map fun root => (root.1.keyword, root.2)).foldlM SchemaBlock.add?
        ⟨position, none, none, none⟩
      = some ⟨position, some schema.query, schema.mutation, schema.subscription⟩ := by
  obtain ⟨types, directives, query, mutation, subscription⟩ := schema
  cases mutation <;> cases subscription <;> rfl

/-- **The roots are read back.** -/
theorem reads_roots (room : Nat) :
    Reads source (SchemaBlock.read room) (rootsWords schema) (fun _ => True)
      (fun block => block.query = some schema.query ∧ block.mutation = schema.mutation ∧
        block.subscription = schema.subscription) := by
  have hentry : ∀ root ∈ roots schema, Reads source (do
        let operation ← Reader.name
        Reader.punctuator .colon
        return (operation, ← Reader.name)) (rootWords root) (fun _ => True)
      (· = (root.1.keyword, root.2)) :=
    fun root _ => Reads.name_bind (Reads.punctuator_bind (Reads.name_bind (Reads.pure rfl)))
  refine Reads.here_bind fun position _ => Reads.keyword_bind ?_
  refine reads_skipDirectives (fun _ _ => notNext_some rfl) (Reads.punctuator_bind ?_)
  refine Reads.bind_last (Reads.manyUntil (fun _ _ => ⟨_, _, rfl, rfl, trivial⟩) trivial hentry)
    fun entries hentries => ?_
  have hread : entries = (roots schema).map fun root => (root.1.keyword, root.2) := by
    rw [← List.forall₂_eq_eq_eq, List.forall₂_map_right_iff]
    exact hentries.flip.imp fun _ _ h => h
  rw [hread, foldlM_roots]
  exact Reads.pure ⟨rfl, rfl, rfl⟩

/-! ### Documents

A document is a list of parts, each of which ends where the next begins.
-/

/-- What a document is made of. -/
inductive Part where
  | roots
  | directive (d : Directive)
  | type (t : TypeDef)

/-- The parts of a schema's document: its roots come first. -/
def parts (directives : List Directive) (types : List TypeDef) : List Part :=
  .roots :: (directives.map .directive ++ types.map .type)

/-- The words of one part of the document. -/
def Part.words (schema : Schema) : Part → List Word
  | roots => rootsWords schema
  | directive d => directiveWords schema d
  | type t => typeDefWords schema t

/-- The part is written so that it can be read back. -/
def Part.Fits (schema : Schema) : Part → Prop
  | roots => ∀ operation, ∀ name ∈ schema.root operation, isName name.toList = true
  | directive d => DirectiveFits schema d
  | type t => TypeFits schema t

/-- The item states the part. -/
inductive StatesPart (source : Source) (schema : Schema) : Part → Item → Prop
  | roots {position : Position} :
      StatesPart source schema .roots
        (.schemaBlock ⟨position, some schema.query, schema.mutation, schema.subscription⟩)
  | directive {d : Directive} {s : DirectiveSyntax} (h : StatesDirective source schema d s) :
      StatesPart source schema (.directive d) (.directiveDefinition s)
  | type {t : TypeDef} {s : TypeSyntax} (h : StatesType source schema t s) :
      StatesPart source schema (.type t) (.typeDefinition none s)

theorem layoutText_document {directives : List Directive} (types : List TypeDef)
    (h : ∀ d ∈ directives, d.locations ≠ []) :
    layoutText ((parts directives types).flatMap (Part.words schema))
      = (documentText schema directives types).toList := by
  have hdirectives : (directives.flatMap fun d => layoutText (directiveWords schema d))
      = directives.flatMap fun d => "\n\n".toList ++ (directiveText schema d).toList :=
    List.flatMap_congr fun d hd => layoutText_directiveWords schema (h d hd)
  have htypes : (types.flatMap fun t => layoutText (typeDefWords schema t))
      = types.flatMap fun t => "\n\n".toList ++ (typeText schema t).toList :=
    List.flatMap_congr fun t _ => layoutText_typeDefWords schema t
  rw [layoutText_flatMap, parts, List.flatMap_cons, List.flatMap_append, List.flatMap_map,
    List.flatMap_map]
  show layoutText (rootsWords schema) ++ ((directives.flatMap fun d => layoutText (directiveWords schema d))
    ++ types.flatMap fun t => layoutText (typeDefWords schema t)) = _
  rw [layoutText_rootsWords, hdirectives, htypes, documentText, String.toList_intercalate,
    List.cons_append, List.map_cons, Text.intercalate_cons, List.map_append, List.flatMap_append,
    List.map_map, List.map_map, List.flatMap_map, List.flatMap_map]
  rfl

theorem laid_document {directives : List Directive} {types : List TypeDef}
    (h : ∀ part ∈ parts directives types, part.Fits schema) :
    Laid true ((parts directives types).flatMap (Part.words schema)) := by
  rw [parts, List.forall_mem_cons] at h
  rw [parts, List.flatMap_cons]
  refine Laid.append (laid_rootsWords h.1) ?_
  have hothers := h.2
  have hseparate : ∀ part ∈ directives.map Part.directive ++ types.map Part.type,
      Laid false (part.words schema) := by
    intro part hpart
    have hfits := hothers part hpart
    rcases List.mem_append.mp hpart with hmem | hmem
    · obtain ⟨d, -, rfl⟩ := List.mem_map.mp hmem
      exact laid_directiveWords hfits
    · obtain ⟨t, -, rfl⟩ := List.mem_map.mp hmem
      exact laid_typeDefWords hfits
  clear h hothers
  generalize directives.map Part.directive ++ types.map Part.type = all at hseparate
  induction all with
  | nil => trivial
  | cons part all ih =>
    rw [List.forall_mem_cons] at hseparate
    rw [List.flatMap_cons]
    exact Laid.append hseparate.1 (ih hseparate.2)

/-- **A part is read back.** -/
theorem reads_part {part : Part} (h : part.Fits schema) :
    Reads source (Item.read nestingLimit) (part.words schema) EndsDefinition
      (StatesPart source schema part) := by
  cases part with
  | roots =>
    refine Reads.string?_bind (by nofun) (Reads.nextIs_bind_of_true rfl ?_)
    have hroots : Reads source (SchemaBlock.read nestingLimit) (rootsWords schema) _ _ := reads_roots nestingLimit
    refine Reads.bind_last (hroots.mono (fun _ _ => trivial) fun _ h => h) fun block hblock => Reads.pure ?_
    obtain ⟨position, query, mutation, subscription⟩ := block
    obtain ⟨rfl, rfl, rfl⟩ := hblock
    exact .roots
  | directive d =>
    refine Reads.string?_bind (by nofun) (Reads.nextIs_bind_of_false (fun _ _ => notNext_some rfl) ?_)
    refine Reads.accept_bind_of_false (fun _ _ => notNext_some rfl) (Reads.nextIs_bind_of_true rfl ?_)
    exact Reads.bind_last (reads_directive h) fun s hs => Reads.pure (.directive hs)
  | type t =>
    have hkeyword : ∀ word ∈ ["schema", "extend", "directive"],
        Lexeme.isKeyword word (.name (keyword t.kind)) = false := by
      cases t.kind <;> decide
    have hnext : ∀ word ∈ ["schema", "extend", "directive"], ∀ next, EndsDefinition next →
        NotNext (Lexeme.isKeyword word) (nextLexeme (typeDefWords schema t) next) :=
      fun word hword _ _ => notNext_some (hkeyword word hword)
    refine Reads.string?_bind (by nofun) (Reads.nextIs_bind_of_false (hnext _ (by simp)) ?_)
    refine Reads.accept_bind_of_false (hnext _ (by simp)) (Reads.nextIs_bind_of_false (hnext _ (by simp)) ?_)
    exact Reads.bind_last (reads_typeDef h.body rfl) fun s hs => Reads.pure (.type hs)

/-- A part begins with a name that goes on with no part in front of it. -/
theorem exists_part_words_eq (schema : Schema) (part : Part) :
    ∃ word rest, part.words schema = word :: rest ∧ EndsDefinition (some word.lexeme) := by
  cases part with
  | roots | directive => exact ⟨_, _, rfl, notNext_some rfl⟩
  | type t =>
    refine ⟨_, _, rfl, notNext_some ?_⟩
    show (keyword t.kind == "implements") = false
    cases t.kind <;> decide

/-- **A document is read back**, part by part. -/
theorem exists_items_of_document (file : FilePath) {directives : List Directive}
    {types : List TypeDef} (h : ∀ part ∈ parts directives types, part.Fits schema) :
    ∃ items, readSchemaDocument (documentText schema directives types) = some items ∧
      List.Forall₂ (StatesPart (Source.ofText file (documentText schema directives types)) schema)
        (parts directives types) items := by
  have hlocations : ∀ d ∈ directives, d.locations ≠ [] := by
    intro d hd
    have hmem : Part.directive d ∈ parts directives types :=
      List.mem_cons_of_mem _ (List.mem_append_left _ (List.mem_map_of_mem hd))
    exact (h _ hmem : DirectiveFits schema d).legible.locations
  obtain ⟨read, hread, hplaced⟩ : ∃ read, tokens (documentText schema directives types) = some read ∧
      List.Forall₂ (Placed (Source.ofText file (documentText schema directives types))) _ read :=
    tokens_of_layout (laid_document h) (layoutText_document types hlocations).symm
  have hmany : Reads (Source.ofText file (documentText schema directives types))
      (Reader.many (fun _ => true) (Item.read nestingLimit))
      ((parts directives types).flatMap (Part.words schema)) _ _ :=
    Reads.many (fun part _ => ?_) fun part hpart => reads_part (h part hpart)
  · obtain ⟨items, hitems, hstates⟩ := hmany read [] hplaced ⟨nofun, nofun⟩
    refine ⟨items, ?_, hstates⟩
    rw [List.append_nil] at hitems
    have hnonempty : items.isEmpty = false := by
      cases hstates with
      | cons _ _ => rfl
    have hall : (do
        let items ← Reader.many (fun _ => true) (Item.read nestingLimit)
        if items.isEmpty then failure else return items : Reader (List Item)) read
          = some (items, []) := by
      rw [Reads.bind_apply hitems, hnonempty]
      rfl
    rw [readSchemaDocument, Reader.readAll, hread, Option.bind_eq_bind, Option.bind_some, hall]
    rfl
  · obtain ⟨word, rest, heq, hends⟩ := exists_part_words_eq schema part
    exact ⟨word, rest, heq, rfl, hends⟩

end GraphSchema.Sdl

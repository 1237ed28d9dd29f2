/-
The elements of a schema document, and where they stand.

Types, fields, arguments, input fields, enum values and directive definitions may have a
description.  The position that an element keeps is that of one of the document's tokens, which
is read off the readers one after the other (`standing_of_readSchemaDocument`).

Which token it is depends on the kind of element.  Fields, arguments and enum values are placed
at their descriptions if these are strings, types and directives at their keywords.  Later
results use only that it is one.
-/
import GraphSchema.Proofs.Syntax.Sound

namespace GraphSchema.Syntax

/-! ### Elements -/

/-- An element that may be described: the string in front of it, if there is one, and its
position.  These two are what a source is asked for its description with. -/
structure Element where
  written : Option String
  position : Position

/-- A parameter as an element with a description. -/
def InputValueSyntax.element (p : InputValueSyntax) : Element := ⟨p.description, p.position⟩

/-- A value of an enum as an element with a description. -/
def EnumValueSyntax.element (v : EnumValueSyntax) : Element := ⟨v.description, v.position⟩

/-- A field and its arguments. -/
def FieldSyntax.elements (f : FieldSyntax) : List Element :=
  ⟨f.description, f.position⟩ :: f.arguments.map InputValueSyntax.element

/-- The parts of a type that have descriptions. -/
def TypeContents.elements : TypeContents → List Element
  | .scalar | .union _ => []
  | .object _ fields | .interface _ fields => fields.flatMap FieldSyntax.elements
  | .enum values => values.map EnumValueSyntax.element
  | .inputObject fields => fields.map InputValueSyntax.element

/-- A directive and its parameters. -/
def DirectiveSyntax.elements (d : DirectiveSyntax) : List Element :=
  ⟨d.description, d.position⟩ :: d.arguments.map InputValueSyntax.element

/-- The elements that an item defines; an extension defines members only. -/
def Item.elements : Item → List Element
  | .schemaBlock _ => []
  | .typeDefinition description type => ⟨description, type.position⟩ :: type.contents.elements
  | .typeExtension type => type.contents.elements
  | .directiveDefinition directive => directive.elements

/-! ### Positions

A reader takes note of the position of the next token and then reads on.  The lemmas follow the
readers; each says of what a reader gives that every element in it stands at a token.
-/

/-- A token with the property is at the position. -/
def HasToken (P : Token → Prop) (position : Position) : Prop :=
  ∃ token, P token ∧ token.position = position

/-- All elements of a list stand where tokens do. -/
def Standing (P : Token → Prop) (elements : List Element) : Prop :=
  ∀ element ∈ elements, HasToken P element.position

variable {P : Token → Prop}

theorem standing_map {α : Type} {f : α → Element} {as : List α}
    (h : ∀ a ∈ as, HasToken P (f a).position) : Standing P (as.map f) := by
  intro element helement
  obtain ⟨a, ha, rfl⟩ := List.mem_map.mp helement
  exact h a ha

theorem standing_flatMap {α : Type} {f : α → List Element} {as : List α}
    (h : ∀ a ∈ as, Standing P (f a)) : Standing P (as.flatMap f) := by
  intro element helement
  obtain ⟨a, ha, hmem⟩ := List.mem_flatMap.mp helement
  exact h a ha element hmem

theorem standing_cons {element : Element} {elements : List Element}
    (h : HasToken P element.position) (hmore : Standing P elements) :
    Standing P (element :: elements) := List.forall_mem_cons.mpr ⟨h, hmore⟩

section

variable (hP : ∀ token, P token → token.WellFormed)
include hP

theorem yields_standing_inputValue (room : Nat) :
    Yields P (InputValueSyntax.read room) fun p => HasToken P p.element.position := by
  have hrest : ∀ (position : Position) (description : Option String) {name : String}
      {type : TypeExpr} {default : Option Literal}, HasToken P position → Yields P (do
        let directives ← readDirectives room
        return (⟨position, description, name, type, default, directives⟩ : InputValueSyntax))
        fun p => HasToken P p.element.position :=
    fun _ _ _ _ _ hposition => Yields.bind ((yields_directives room).of_imp hP) fun _ _ =>
      Yields.pure hposition
  refine Yields.bind Yields.here fun _ hposition => Yields.bind Yields.string? fun _ _ => ?_
  refine Yields.bind (Yields.name.of_imp hP) fun _ _ => Yields.bind (Yields.punctuator _) fun _ _ => ?_
  refine Yields.bind ((yields_type room).of_imp hP) fun _ _ => Yields.bind (Yields.accept _) fun _ _ => ?_
  refine Yields.ite (fun _ => ?_) fun _ => hrest _ _ hposition
  exact Yields.bind (Yields.map ((yields_literal true room).of_imp hP).trivially fun _ _ => trivial)
    fun _ (_ : True) => hrest _ _ hposition

theorem yields_standing_arguments (room : Nat) :
    Yields P (readArgumentDefinitions room) fun arguments =>
      ∀ p ∈ arguments, HasToken P p.element.position :=
  Yields.ifOpened fun less _ => Yields.someUntil (yields_standing_inputValue hP less)

theorem yields_standing_field (room : Nat) :
    Yields P (FieldSyntax.read room) fun f => Standing P f.elements := by
  refine Yields.bind Yields.here fun _ hposition => Yields.bind Yields.string? fun _ _ => ?_
  refine Yields.bind (Yields.name.of_imp hP) fun _ _ => ?_
  refine Yields.bind (yields_standing_arguments hP room) fun _ harguments => ?_
  refine Yields.bind (Yields.punctuator _) fun _ _ => ?_
  refine Yields.bind ((yields_type room).of_imp hP) fun _ _ => ?_
  exact Yields.bind ((yields_directives room).of_imp hP) fun _ _ =>
    Yields.pure (standing_cons hposition (standing_map harguments))

theorem yields_standing_enumValue (room : Nat) :
    Yields P (EnumValueSyntax.read room) fun v => HasToken P v.element.position := by
  refine Yields.bind Yields.here fun _ hposition => Yields.bind Yields.string? fun _ _ => ?_
  refine Yields.bind (Yields.name.of_imp hP) fun _ _ => ?_
  exact Yields.bind ((yields_directives room).of_imp hP) fun _ _ => Yields.pure hposition

/-- A type and its members stand where tokens do. -/
theorem yields_standing_type (room : Nat) :
    Yields P (TypeSyntax.read room) fun type =>
      HasToken P type.position ∧ Standing P type.contents.elements := by
  have hname : Yields P Reader.name fun _ => True := Yields.name.trivially.of_imp hP
  have hinterfaces : Yields P readInterfaces fun _ => True := yields_interfaces.trivially.of_imp hP
  have hdirectives : Yields P (readDirectives room) fun _ => True :=
    (yields_directives room).of_imp hP
  have hfields : Yields P (inBraces FieldSyntax.read room) fun fields =>
      Standing P (fields.flatMap FieldSyntax.elements) :=
    (yields_inBraces (yields_standing_field hP) room).mono fun _ => standing_flatMap
  refine Yields.bind Yields.here fun _ hposition =>
    Yields.bind (Yields.next.of_imp hP) fun lexeme _ => ?_
  split
  · exact Yields.bind hname fun _ _ => Yields.bind hdirectives fun _ _ =>
      Yields.pure ⟨hposition, nofun⟩
  · exact Yields.bind hname fun _ _ => Yields.bind hinterfaces fun _ _ =>
      Yields.bind hdirectives fun _ _ => Yields.bind hfields fun _ hmembers =>
        Yields.pure ⟨hposition, hmembers⟩
  · exact Yields.bind hname fun _ _ => Yields.bind hinterfaces fun _ _ =>
      Yields.bind hdirectives fun _ _ => Yields.bind hfields fun _ hmembers =>
        Yields.pure ⟨hposition, hmembers⟩
  · exact Yields.bind hname fun _ _ => Yields.bind hdirectives fun _ _ =>
      Yields.bind (yields_members.of_imp hP) fun _ _ => Yields.pure ⟨hposition, nofun⟩
  · exact Yields.bind hname fun _ _ => Yields.bind hdirectives fun _ _ =>
      Yields.bind (yields_inBraces (yields_standing_enumValue hP) room) fun _ hvalues =>
        Yields.pure ⟨hposition, standing_map hvalues⟩
  · exact Yields.bind hname fun _ _ => Yields.bind hdirectives fun _ _ =>
      Yields.bind (yields_inBraces (yields_standing_inputValue hP) room) fun _ hinputs =>
        Yields.pure ⟨hposition, standing_map hinputs⟩
  · exact Yields.failure

theorem yields_standing_directive (description : Option String) (room : Nat) :
    Yields P (DirectiveSyntax.read description room) fun d => Standing P d.elements := by
  refine Yields.bind Yields.here fun _ hposition => Yields.bind (Yields.keyword _) fun _ _ => ?_
  refine Yields.bind (Yields.punctuator _) fun _ _ => Yields.bind (Yields.name.of_imp hP) fun _ _ => ?_
  refine Yields.bind (yields_standing_arguments hP room) fun _ harguments => ?_
  refine Yields.bind (Yields.accept _) fun _ _ => Yields.bind (Yields.keyword _) fun _ _ => ?_
  exact Yields.bind (yields_locations.of_imp hP) fun _ _ =>
    Yields.pure (standing_cons hposition (standing_map harguments))

theorem yields_standing_item (room : Nat) :
    Yields P (Item.read room) fun item => Standing P item.elements := by
  have hdescribed : ∀ description,
      Yields P (Item.read.described room description) fun item => Standing P item.elements :=
    fun description => Yields.bind (Yields.nextIs _) fun _ _ =>
      Yields.ite (fun _ => Yields.bind (yields_standing_directive hP description room)
          fun _ hdirective => Yields.pure hdirective) fun _ =>
        Yields.bind (yields_standing_type hP room) fun _ htype =>
          Yields.pure (standing_cons htype.1 htype.2)
  refine Yields.bind Yields.string? fun description _ => ?_
  split
  · exact hdescribed _
  · refine Yields.bind (Yields.nextIs _) fun _ _ => Yields.ite (fun _ => ?_) fun _ => ?_
    · exact Yields.bind ((yields_schemaBlock room).of_imp hP) fun _ _ => Yields.pure nofun
    · refine Yields.bind (Yields.accept _) fun _ _ => Yields.ite (fun _ => ?_) fun _ => hdescribed none
      exact Yields.bind (yields_standing_type hP room) fun _ htype =>
        Yields.ite (fun _ => Yields.pure htype.2) fun _ => Yields.failure

end

/-- **Every element of a document stands where one of its tokens does**: if the tokens have a
property, the elements stand at tokens that have it. -/
theorem standing_of_readSchemaDocument (hP : ∀ token, P token → token.WellFormed)
    {content : String} {items : List Item} (h : readSchemaDocument content = some items)
    (htokens : ∀ read, tokens content = some read → ∀ token ∈ read, P token) :
    Standing P (items.flatMap Item.elements) := by
  have hall : Yields P (do
      let items ← Reader.many (fun _ => true) (Item.read nestingLimit)
      if items.isEmpty then failure else return items) fun items =>
        ∀ item ∈ items, Standing P item.elements :=
    Yields.bind (Yields.many (yields_standing_item hP nestingLimit)) fun _ hitems =>
      Yields.ite (fun _ => Yields.failure) fun _ => Yields.pure hitems
  exact standing_flatMap (hall.of_readAll_of h htokens)

end GraphSchema.Syntax

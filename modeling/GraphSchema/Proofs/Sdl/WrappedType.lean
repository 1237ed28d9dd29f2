/-
Types read back from their own text.

The text of a type has its marks behind its layers, a type expression has them around its layers,
and a type has them on its layers.  `layers` lists the marks of both from the outside in, so that
an expression and the type that it stands for can be compared (`layers_ofExpr`).

The text of a type is read as an expression for it (`reads_type`), with as much room as its lists
need.  Hence no other type has the text.  In a document one bracket more is open around a type:
that of the definition which it belongs to.
-/
import GraphSchema.Proofs.Sdl.Definition
import GraphSchema.Proofs.Sdl.Literals

namespace GraphSchema

open Syntax

/-! ### Layers -/

/-- For each layer of a type, from the outside in, whether it refuses null. -/
def WrappedType.layers : WrappedType → List Bool
  | named _ nullable => [!nullable]
  | list inner nullable => (!nullable) :: inner.layers

namespace Syntax.TypeExpr

/-- The name inside of all lists and marks. -/
def innermostName : TypeExpr → String
  | named name => name
  | list inner => inner.innermostName
  | nonNull inner => inner.innermostName

/-- For each list and the name in it, from the outside in, whether a mark stands around it. -/
def layers : TypeExpr → List Bool
  | named _ => [false]
  | list inner => false :: inner.layers
  | nonNull inner => inner.layers.modifyHead fun _ => true

end Syntax.TypeExpr

namespace WrappedType

/-- Marks around an expression decide for its outermost layer, and for no other. -/
theorem layers_ofExprWith (expr : TypeExpr) (nullable : Bool) :
    (ofExprWith nullable expr).layers
      = if nullable then expr.layers else expr.layers.modifyHead fun _ => true := by
  induction expr generalizing nullable with
  | named name => cases nullable <;> rfl
  | list inner ih =>
    rw [ofExprWith, layers, ih true]
    cases nullable <;> rfl
  | nonNull inner ih =>
    have hagain : ∀ marks : List Bool, (marks.modifyHead fun _ => true).modifyHead (fun _ => true)
        = marks.modifyHead fun _ => true := by
      intro marks
      cases marks <;> rfl
    rw [ofExprWith, ih false, TypeExpr.layers, hagain]
    cases nullable <;> rfl

theorem layers_ofExpr (expr : TypeExpr) : (ofExpr expr).layers = expr.layers :=
  layers_ofExprWith expr true

theorem innermostName_ofExprWith (expr : TypeExpr) (nullable : Bool) :
    (ofExprWith nullable expr).innermostName = expr.innermostName := by
  induction expr generalizing nullable with
  | named name => rfl
  | list inner ih => exact ih true
  | nonNull inner ih => exact ih false

end WrappedType

namespace Sdl

variable {source : Source}

/-! ### The text of a type -/

/-- The text of a type is read on its own, with room for its lists. -/
theorem exists_readAll_typeText {type : WrappedType} (h : isName type.innermostName.toList = true)
    {room : Nat} (hdepth : type.depth ≤ room) :
    ∃ expr, Reader.readAll (TypeExpr.read room) type.text = some expr ∧
      WrappedType.ofExpr expr = type :=
  Reads.readAll (fun _ => reads_type hdepth (.inline false 0))
    (laid_typeWords h (Gap.legible_inline _ _) (Or.inl rfl))
    (layoutText_typeWords type (.inline false 0)).symm nofun

/-- No two types have one text. -/
theorem eq_of_typeText {a b : WrappedType} (ha : isName a.innermostName.toList = true)
    (hb : isName b.innermostName.toList = true) (htext : a.text = b.text) : a = b := by
  obtain ⟨expr, hexpr, rfl⟩ := exists_readAll_typeText ha (Nat.le_max_left a.depth b.depth)
  obtain ⟨other, hother, rfl⟩ := exists_readAll_typeText hb (Nat.le_max_right _ b.depth)
  rw [htext, hother] at hexpr
  rw [Option.some.inj hexpr]

/-! ### A type in a document

A whole document around one type, so that the limit of the parser on open brackets is met in the
way in which users meet it.
-/

/-- A document that declares a field of a type. -/
def fieldDocument (object field : String) (type : WrappedType) : String :=
  "type " ++ object ++ " \x7b " ++ field ++ ": " ++ type.text ++ " \x7d"

/-- The words of a field without arguments. -/
def plainFieldWords (field : String) (type : WrappedType) : List Word :=
  ⟨.inline false 1, .name field⟩ :: ⟨.inline false 0, .punctuator .colon⟩
    :: typeWords type (.inline false 1)

/-- The words of a document with one object type that has one field. -/
def fieldDocumentWords (object field : String) (type : WrappedType) : List Word :=
  ⟨.inline false 0, .name "type"⟩ :: ⟨.inline false 1, .name object⟩
    :: ⟨.inline false 1, .punctuator .braceOpen⟩
    :: (plainFieldWords field type ++ [⟨.inline false 1, .punctuator .braceClose⟩])

/-- The item of the document, with an expression for the type. -/
def IsFieldOf (object field : String) (type : WrappedType) (item : Item) : Prop :=
  ∃ position place expr, WrappedType.ofExpr expr = type ∧
    item = .typeDefinition none
      ⟨position, object, [], .object [] [⟨place, none, field, [], expr, []⟩]⟩

theorem layoutText_fieldDocumentWords (object field : String) (type : WrappedType) :
    layoutText (fieldDocumentWords object field type)
      = (fieldDocument object field type).toList := by
  simp only [fieldDocumentWords, plainFieldWords, List.cons_append, Form.layoutText_cons,
    Form.layoutText_append, layoutText_typeWords, fieldDocument, String.toList_append]
  simp [layoutText, Gap.text, spaces, Lexeme.text, Punctuator.text]

theorem laid_fieldDocumentWords {object field : String} {type : WrappedType}
    (hobject : isName object.toList = true) (hfield : isName field.toList = true)
    (htype : isName type.innermostName.toList = true) :
    Laid true (fieldDocumentWords object field type) := by
  have hkeyword : isName "type".toList = true := by decide
  have hlaid : Laid true (plainFieldWords field type) :=
    ⟨⟨trivial, hfield⟩, Or.inl rfl, ⟨trivial, trivial⟩, Or.inr (Or.inr rfl),
      laid_typeWords htype (Gap.legible_inline _ _) (Or.inl rfl)⟩
  refine ⟨⟨trivial, hkeyword⟩, Or.inl rfl, ⟨trivial, hobject⟩, Or.inr (Or.inl rfl),
    ⟨trivial, trivial⟩, Or.inr (Or.inl rfl), hlaid.append ?_⟩
  exact ⟨⟨trivial, trivial⟩, Or.inr (Or.inl rfl), trivial⟩

/-- A field is read with its type. -/
theorem reads_plainField {field : String} {type : WrappedType} {room : Nat}
    (hdepth : type.depth ≤ room) :
    Reads source (FieldSyntax.read room) (plainFieldWords field type) EndsMember
      (fun f => ∃ place expr, WrappedType.ofExpr expr = type ∧
        f = ⟨place, none, field, [], expr, []⟩) := by
  refine Reads.here_bind fun place _ => Reads.string?_bind (by nofun) (Reads.name_bind ?_)
  have harguments : Reads source (readArgumentDefinitions room) []
      (NotNext (Lexeme.isPunctuator .parenOpen)) (· = []) := Reads.ifOpened_nil rfl
  refine Reads.bind harguments (fun _ hnone => ?_) fun _ _ => notNext_some rfl
  refine Reads.punctuator_bind (Reads.bind_last ((reads_type hdepth _).mono
    (fun _ (hnext : EndsMember _) => hnext.notNext rfl) fun _ hread => hread) fun expr hexpr => ?_)
  refine Reads.bind_last (reads_noDirectives.mono
    (fun _ (hnext : EndsMember _) => hnext.notNext rfl) fun _ hread => hread) fun _ huses => ?_
  rw [hnone, huses]
  exact Reads.pure ⟨place, expr, hexpr, rfl⟩

/-- An object type is read with its field: one level of room is taken by its brace. -/
theorem reads_fieldDocument {object field : String} {type : WrappedType} {room : Nat}
    (hdepth : type.depth + 1 ≤ room) :
    Reads source (Item.read room) (fieldDocumentWords object field type) (fun _ => True)
      (IsFieldOf object field type) := by
  obtain ⟨inner, rfl⟩ : ∃ inner, room = inner + 1 := ⟨room - 1, by omega⟩
  refine Reads.string?_bind (by nofun)
    (Reads.nextIs_bind_of_false (fun _ _ => notNext_some (by decide)) ?_)
  refine Reads.accept_bind_of_false (fun _ _ => notNext_some (by decide))
    (Reads.nextIs_bind_of_false (fun _ _ => notNext_some (by decide)) ?_)
  have hfields : Reads source (inBraces FieldSyntax.read (inner + 1))
      (⟨.inline false 1, .punctuator .braceOpen⟩
        :: (plainFieldWords field type ++ [⟨.inline false 1, .punctuator .braceClose⟩]))
      (fun _ => True) (fun fields => ∃ f, fields = [f] ∧ ∃ place expr,
        WrappedType.ofExpr expr = type ∧ f = ⟨place, none, field, [], expr, []⟩) :=
    Reads.ifOpened (Reads.someUntil_single rfl (notNext_some rfl) (notNext_some rfl)
      (reads_plainField (Nat.le_of_succ_le_succ hdepth)))
  have htype : Reads source (TypeSyntax.read (inner + 1)) (fieldDocumentWords object field type)
      (fun _ => True) (fun t => IsFieldOf object field type (.typeDefinition none t)) := by
    refine Reads.here_bind fun position _ => Reads.next_bind (Reads.name_bind ?_)
    refine Reads.bind (reads_implements []) (fun _ hnone => ?_)
      fun _ _ => ⟨notNext_some rfl, notNext_some rfl⟩
    refine reads_skipDirectives (fun _ _ => notNext_some rfl) (Reads.bind_last hfields ?_)
    rintro _ ⟨_, rfl, place, expr, hexpr, rfl⟩
    rw [hnone]
    exact Reads.pure ⟨position, place, expr, hexpr, rfl⟩
  exact Reads.bind_last htype fun t ht => Reads.pure ht

/-- The document is read as the definition of the object with its field. -/
theorem exists_readSchemaDocument {object field : String} {type : WrappedType}
    (hobject : isName object.toList = true) (hfield : isName field.toList = true)
    (htype : isName type.innermostName.toList = true) (hdepth : type.depth + 1 ≤ nestingLimit) :
    ∃ item, readSchemaDocument (fieldDocument object field type) = some [item] ∧
      IsFieldOf object field type item := by
  have hdocument : ∀ source, Reads source
      (do
        let items ← Reader.many (fun _ => true) (Item.read nestingLimit)
        if items.isEmpty then failure else return items)
      (fieldDocumentWords object field type) (fun next => NotNext (fun _ => true) next ∧ True)
      (fun items => ∃ item, items = [item] ∧ IsFieldOf object field type item) := by
    intro source
    refine Reads.bind_last (Reads.many_single rfl trivial (reads_fieldDocument hdepth)) ?_
    rintro _ ⟨item, rfl, hitem⟩
    exact Reads.pure ⟨item, rfl, hitem⟩
  obtain ⟨_, hread, item, rfl, hitem⟩ := Reads.readAll hdocument
    (laid_fieldDocumentWords hobject hfield htype)
    (layoutText_fieldDocumentWords object field type).symm ⟨nofun, trivial⟩
  exact ⟨item, hread, hitem⟩

/--
**Types are determined by their text.**  The text of a type is read as an expression for it, with
as much room as its lists need; in a document, whose brackets nest no deeper than a reader puts up
with, it comes back as the type of the field that it is written for.  Two types are the same
exactly if their texts are.  And whatever the expression, with marks around marks or not, the type
that it stands for has its name, its lists, and null refused on the layers that are marked.
-/
theorem types_of_text :
    (∀ type : WrappedType, isName type.innermostName.toList = true →
      (∀ room, type.depth ≤ room → ∃ expr,
        Reader.readAll (TypeExpr.read room) type.text = some expr ∧
          WrappedType.ofExpr expr = type) ∧
      ∀ object field : String, isName object.toList = true → isName field.toList = true →
        type.depth + 1 ≤ nestingLimit → ∃ position place expr,
          readSchemaDocument (fieldDocument object field type)
              = some [.typeDefinition none
                ⟨position, object, [], .object [] [⟨place, none, field, [], expr, []⟩]⟩] ∧
            WrappedType.ofExpr expr = type) ∧
    (∀ a b : WrappedType, isName a.innermostName.toList = true →
      isName b.innermostName.toList = true → (a = b ↔ a.text = b.text)) ∧
    ∀ expr : TypeExpr, (WrappedType.ofExpr expr).innermostName = expr.innermostName ∧
      (WrappedType.ofExpr expr).layers = expr.layers := by
  refine ⟨fun type htype => ⟨fun room hdepth => exists_readAll_typeText htype hdepth, ?_⟩,
    fun a b ha hb => ⟨congrArg WrappedType.text, eq_of_typeText ha hb⟩,
    fun expr => ⟨WrappedType.innermostName_ofExprWith expr true, WrappedType.layers_ofExpr expr⟩⟩
  intro object field hobject hfield hdepth
  obtain ⟨_, hread, position, place, expr, hexpr, rfl⟩ :=
    exists_readSchemaDocument hobject hfield htype hdepth
  exact ⟨position, place, expr, hread, hexpr⟩

/-- A name inside of so many lists, of which every other one refuses null. -/
def listed : Nat → WrappedType
  | 0 => .named "Int" false
  | n + 1 => .list (listed n) (n % 2 == 0)

/-- As many lists as a document takes, and another type of as many. -/
theorem types_of_text_listed :
    isName (listed 49).innermostName.toList = true ∧ (listed 49).depth + 1 ≤ nestingLimit ∧
      (∃ expr, Reader.readAll (TypeExpr.read 49) (listed 49).text = some expr ∧
        WrappedType.ofExpr expr = listed 49) ∧
      (∃ position place expr, readSchemaDocument (fieldDocument "Query" "f" (listed 49))
          = some [.typeDefinition none
            ⟨position, "Query", [], .object [] [⟨place, none, "f", [], expr, []⟩]⟩] ∧
        WrappedType.ofExpr expr = listed 49) ∧
      (listed 49 = .list (listed 48) false ↔ (listed 49).text = (WrappedType.list (listed 48) false).text) := by
  have hname : isName (listed 49).innermostName.toList = true := by decide
  have hdepth : (listed 49).depth + 1 ≤ nestingLimit := by decide
  exact ⟨hname, hdepth, (types_of_text.1 _ hname).1 49 (Nat.le_of_succ_le_succ hdepth),
    (types_of_text.1 _ hname).2 "Query" "f" (by decide) (by decide) hdepth,
    types_of_text.2.1 _ _ hname (by decide)⟩

/-- A type can nest deeper than a reader puts up with. -/
theorem not_forall_readSchemaDocument :
    ¬ ∀ type : WrappedType, isName type.innermostName.toList = true →
      (readSchemaDocument (fieldDocument "Query" "f" type)).isSome = true := by
  intro h
  have hsome := h (listed 50) (by decide)
  have hnone : (readSchemaDocument (fieldDocument "Query" "f" (listed 50))).isSome = false := by
    decide +kernel
  rw [hnone] at hsome
  cases hsome

end Sdl

end GraphSchema

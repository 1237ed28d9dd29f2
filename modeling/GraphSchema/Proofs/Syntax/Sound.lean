/-
What the definitions of a document are made of.

Every name in them is a name, every default is a constant, and lists and objects nest no deeper
than there is room.  This is read off the readers, one after the other, up to whole documents
(`sound_of_readSchemaDocument`).

Room is counted in brackets that may still be opened.  What stands in brackets is sound for a
room that is one less.
-/
import GraphSchema.Proofs.Literal
import GraphSchema.Proofs.Syntax.Yields
import GraphSchema.Schema.WrappedType
import GraphSchema.Syntax.Definition.Reader

namespace GraphSchema

/-- How many lists a type is wrapped in. -/
def WrappedType.depth : WrappedType → Nat
  | named _ _ => 0
  | list inner _ => inner.depth + 1

/-! ### Literals -/

theorem Literal.proper_ofName {name : String} (h : Syntax.isName name.toList = true) :
    (ofName name).Proper := by
  by_cases hreserved : name ∈ reservedNames
  · simp only [reservedNames, List.mem_cons, List.not_mem_nil, or_false] at hreserved
    rcases hreserved with rfl | rfl | rfl
    · exact .boolean true
    · exact .boolean false
    · exact .null
  · rw [ofName_of_not_mem hreserved]
    exact .enum h hreserved

theorem Literal.mem_of_mem_foldl_insertEntry {entries sorted : List (String × Literal)}
    {entry : String × Literal}
    (h : entry ∈ entries.foldl (fun sorted (key, value) => insertEntry key value sorted) sorted) :
    entry ∈ entries ∨ entry ∈ sorted := by
  induction entries generalizing sorted with
  | nil => exact Or.inr h
  | cons first rest ih =>
    rcases ih h with h | h
    · exact Or.inl (List.mem_cons_of_mem _ h)
    · rcases mem_insertEntry h with rfl | h
      · exact Or.inl List.mem_cons_self
      · exact Or.inr h

/-- An object literal has the entries that are written, sorted. -/
theorem Literal.exists_ofEntries (entries : List (String × Literal)) :
    ∃ sorted, ofEntries entries = .object sorted ∧ (sorted.Pairwise fun a b => a.1 < b.1) ∧
      ∀ entry ∈ sorted, entry ∈ entries :=
  ⟨_, rfl, foldl_insertEntry_sorted .nil, fun _ hentry =>
    (mem_of_mem_foldl_insertEntry hentry).resolve_right List.not_mem_nil⟩

theorem Literal.proper_ofEntries {entries : List (String × Literal)}
    (h : ∀ entry ∈ entries, Syntax.isName entry.1.toList = true ∧ entry.2.Proper) :
    (ofEntries entries).Proper := by
  obtain ⟨sorted, heq, hsorted, hmem⟩ := exists_ofEntries entries
  rw [heq]
  exact .object hsorted (fun entry hentry => (h entry (hmem entry hentry)).1)
    fun entry hentry => (h entry (hmem entry hentry)).2

namespace Syntax

/-- What holds of the literals that are read, if the literals read inside of one have it too. -/
theorem yields_literal_of {P : Literal → Prop} {constant : Bool} (hint : ∀ n, P (.int n))
    (hfloat : ∀ x : Float, x.isNaN = false → P (.float x)) (hstring : ∀ value, P (.string value))
    (hname : ∀ name : String, isName name.toList = true → P (.ofName name))
    (hvariable : constant = false → ∀ name, P (.varRef name))
    (hlist : ∀ items, (∀ item ∈ items, P item) → P (.list items))
    (hobject : ∀ entries : List (String × Literal),
      (∀ entry ∈ entries, isName entry.1.toList = true ∧ P entry.2) → P (.ofEntries entries))
    (room : Nat) : Yields Token.WellFormed (readLiteral constant room) P := by
  have hdollar : Yields Token.WellFormed (readVarRef constant) P :=
    Yields.ite (fun _ => Yields.failure) fun hconstant =>
      Yields.bind Yields.name fun name _ => Yields.pure (hvariable (by simpa using hconstant) name)
  induction room with
  | zero =>
    rw [readLiteral.eq_def]
    refine Yields.bind Yields.next fun lexeme hlexeme => ?_
    split
    · exact Yields.pure (hint _)
    · exact Yields.pure (hfloat _ hlexeme)
    · exact Yields.pure (hstring _)
    · exact Yields.pure (hname _ hlexeme)
    · exact hdollar
    · exact Yields.failure
    · exact Yields.failure
    · exact Yields.failure
  | succ room ih =>
    rw [readLiteral.eq_def]
    refine Yields.bind Yields.next fun lexeme hlexeme => ?_
    split
    · exact Yields.pure (hint _)
    · exact Yields.pure (hfloat _ hlexeme)
    · exact Yields.pure (hstring _)
    · exact Yields.pure (hname _ hlexeme)
    · exact hdollar
    · exact Yields.bind (Yields.manyUntil ih) fun items hitems => Yields.pure (hlist items hitems)
    · refine Yields.bind (Yields.manyUntil (Q := fun entry : String × Literal =>
        isName entry.1.toList = true ∧ P entry.2) ?_) fun entries hentries =>
          Yields.pure (hobject entries hentries)
      exact Yields.bind Yields.name fun _ hkey => Yields.bind (Yields.punctuator _) fun _ _ =>
        Yields.bind ih fun _ hvalue => Yields.pure ⟨hkey, hvalue⟩
    · exact Yields.failure

/-- A constant that is read is proper. -/
theorem yields_literal (constant : Bool) (room : Nat) :
    Yields Token.WellFormed (readLiteral constant room) fun v => constant = true → v.Proper :=
  yields_literal_of (fun _ _ => .int _) (fun _ hnumber _ => .float hnumber) (fun _ _ => .string _)
    (fun _ hname _ => Literal.proper_ofName hname)
    (fun hvariable _ hconstant => absurd (hconstant.symm.trans hvariable) nofun)
    (fun _ hitems hconstant => .list fun item hitem => hitems item hitem hconstant)
    (fun _ hentries hconstant => Literal.proper_ofEntries fun entry hentry =>
      (hentries entry hentry).imp_right fun hvalue => hvalue hconstant) room

theorem yields_directives (room : Nat) :
    Yields Token.WellFormed (readDirectives room) fun _ => True := by
  have hargument : ∀ room, Yields Token.WellFormed (do
      let name ← Reader.name
      Reader.punctuator .colon
      return (name, ← readLiteral false room)) fun _ => True :=
    fun room => Yields.bind Yields.name fun _ _ => Yields.bind (Yields.punctuator _) fun _ _ =>
      Yields.bind (yields_literal false room) fun _ _ => Yields.pure trivial
  refine (Yields.many (Q := fun _ => True) ?_).trivially
  refine Yields.bind (Yields.punctuator _) fun _ _ => Yields.bind Yields.name fun _ _ => ?_
  exact Yields.bind (Yields.ifOpened fun less _ => Yields.someUntil (hargument less)) fun _ _ =>
    Yields.pure trivial

/-! ### Types and directives -/

/-- The type is named, and its lists have room. -/
def TypeExpr.Sound (room : Nat) (expr : TypeExpr) : Prop :=
  ∀ nullable, isName (WrappedType.ofExprWith nullable expr).innermostName.toList = true ∧
    (WrappedType.ofExprWith nullable expr).depth ≤ room

theorem yields_type (room : Nat) :
    Yields Token.WellFormed (TypeExpr.read room) (TypeExpr.Sound room) := by
  have hmark : ∀ {room : Nat} (bare : TypeExpr), bare.Sound room →
      Yields Token.WellFormed (do
        if ← Reader.accept (Lexeme.isPunctuator .bang) then return .nonNull bare else return bare)
        (TypeExpr.Sound room) :=
    fun bare hbare => Yields.bind (Yields.accept _) fun _ _ =>
      Yields.ite (fun _ => Yields.pure fun _ => hbare false) fun _ => Yields.pure hbare
  induction room with
  | zero =>
    rw [TypeExpr.read.eq_def]
    refine Yields.bind Yields.next fun lexeme hlexeme => ?_
    split
    · exact hmark _ fun _ => ⟨hlexeme, Nat.le_refl 0⟩
    · exact Yields.failure
    · exact Yields.failure
  | succ room ih =>
    rw [TypeExpr.read.eq_def]
    refine Yields.bind Yields.next fun lexeme hlexeme => ?_
    split
    · exact hmark _ fun _ => ⟨hlexeme, Nat.zero_le _⟩
    · exact Yields.bind ih fun inner hinner => Yields.bind (Yields.punctuator _) fun _ _ =>
        hmark _ fun _ => ⟨(hinner true).1, Nat.succ_le_succ (hinner true).2⟩
    · exact Yields.failure

/-! ### Members

What stands in braces or parentheses is read with less room than what is around it.  That is why
the statements are about a room, and not about a fixed depth.
-/

/-- The names are names, the default is one that a text can state, and the type is no deeper than
the room it is read in. -/
structure InputValueSyntax.Sound (room : Nat) (p : InputValueSyntax) : Prop where
  name : isName p.name.toList = true
  type : p.type.Sound room
  default : ∀ v ∈ p.default, v.Proper

/-- The same of a field.  Its arguments are read one level below it. -/
structure FieldSyntax.Sound (room : Nat) (f : FieldSyntax) : Prop where
  name : isName f.name.toList = true
  arguments : ∀ p ∈ f.arguments, p.Sound (room - 1)
  type : f.type.Sound room

theorem yields_inputValue (room : Nat) :
    Yields Token.WellFormed (InputValueSyntax.read room) (InputValueSyntax.Sound room) := by
  have hrest : ∀ (position : Position) (description : Option String) {name : String}
      {type : TypeExpr} {default : Option Literal}, isName name.toList = true → type.Sound room →
      (∀ v ∈ default, v.Proper) → Yields Token.WellFormed (do
        let directives ← readDirectives room
        return (⟨position, description, name, type, default, directives⟩ : InputValueSyntax))
        (InputValueSyntax.Sound room) :=
    fun _ _ _ _ _ hname htype hdefault => Yields.bind (yields_directives room) fun _ _ =>
      Yields.pure ⟨hname, htype, hdefault⟩
  refine Yields.bind Yields.here fun _ _ => Yields.bind Yields.string? fun _ _ => ?_
  refine Yields.bind Yields.name fun _ hname => Yields.bind (Yields.punctuator _) fun _ _ => ?_
  refine Yields.bind (yields_type room) fun _ htype => Yields.bind (Yields.accept _) fun _ _ => ?_
  refine Yields.ite (fun _ => ?_) fun _ => hrest _ _ hname htype nofun
  refine Yields.bind (Yields.map (R := fun default => ∀ v ∈ default, v.Proper)
    (yields_literal true room) fun v hv => ?_) fun _ hdefault => hrest _ _ hname htype hdefault
  intro w hw
  obtain rfl := Option.some.inj hw
  exact hv rfl

theorem yields_arguments (room : Nat) :
    Yields Token.WellFormed (readArgumentDefinitions room) fun arguments =>
      ∀ p ∈ arguments, p.Sound (room - 1) := by
  refine Yields.ifOpened fun less hless => ?_
  subst hless
  exact Yields.someUntil (yields_inputValue less)

theorem yields_field (room : Nat) :
    Yields Token.WellFormed (FieldSyntax.read room) (FieldSyntax.Sound room) := by
  refine Yields.bind Yields.here fun _ _ => Yields.bind Yields.string? fun _ _ => ?_
  refine Yields.bind Yields.name fun _ hname => ?_
  refine Yields.bind (yields_arguments room) fun _ harguments => ?_
  refine Yields.bind (Yields.punctuator _) fun _ _ => Yields.bind (yields_type room) fun _ htype => ?_
  exact Yields.bind (yields_directives room) fun _ _ => Yields.pure ⟨hname, harguments, htype⟩

theorem yields_enumValue (room : Nat) :
    Yields Token.WellFormed (EnumValueSyntax.read room) fun v => isName v.name.toList = true := by
  refine Yields.bind Yields.here fun _ _ => Yields.bind Yields.string? fun _ _ => ?_
  refine Yields.bind Yields.name fun _ hname => ?_
  exact Yields.bind (yields_directives room) fun _ _ => Yields.pure hname

theorem yields_inBraces {α : Type} {item : Nat → Reader α} {Q : Nat → α → Prop}
    {P : Token → Prop} (h : ∀ room, Yields P (item room) (Q room)) (room : Nat) :
    Yields P (inBraces item room) fun as => ∀ a ∈ as, Q (room - 1) a := by
  refine Yields.ifOpened fun less hless => ?_
  subst hless
  exact Yields.someUntil (h less)

theorem yields_names (separator : Punctuator) :
    Yields Token.WellFormed (readNames separator)
      fun names => ∀ name ∈ names, isName name.toList = true :=
  Yields.bind (Yields.accept _) fun _ _ => Yields.separated Yields.name

/-! ### Definitions -/

/-- What a type is made of is sound. -/
def TypeContents.Sound (room : Nat) : TypeContents → Prop
  | .scalar => True
  | .object interfaces fields | .interface interfaces fields =>
    (∀ name ∈ interfaces, isName name.toList = true) ∧ ∀ f ∈ fields, f.Sound (room - 1)
  | .union members => ∀ name ∈ members, isName name.toList = true
  | .enum values => ∀ v ∈ values, isName v.name.toList = true
  | .inputObject fields => ∀ p ∈ fields, p.Sound (room - 1)

/-- The same of a type with all that the text gives it. -/
structure TypeSyntax.Sound (room : Nat) (type : TypeSyntax) : Prop where
  name : isName type.name.toList = true
  contents : type.contents.Sound room

/-- The same of a directive. -/
structure DirectiveSyntax.Sound (room : Nat) (d : DirectiveSyntax) : Prop where
  name : isName d.name.toList = true
  arguments : ∀ p ∈ d.arguments, p.Sound (room - 1)

/-- The same of any item.  A block of roots holds nothing that later proofs ask about. -/
def Item.Sound (room : Nat) : Item → Prop
  | .schemaBlock _ => True
  | .typeDefinition _ type | .typeExtension type => type.Sound room
  | .directiveDefinition directive => directive.Sound room

theorem yields_interfaces :
    Yields Token.WellFormed readInterfaces fun names => ∀ name ∈ names, isName name.toList = true :=
  Yields.bind (Yields.accept _) fun _ _ =>
    Yields.ite (fun _ => yields_names _) fun _ => Yields.pure nofun

theorem yields_members :
    Yields Token.WellFormed readMembers fun names => ∀ name ∈ names, isName name.toList = true :=
  Yields.bind (Yields.accept _) fun _ _ =>
    Yields.ite (fun _ => yields_names _) fun _ => Yields.pure nofun

theorem yields_typeSyntax (room : Nat) :
    Yields Token.WellFormed (TypeSyntax.read room) (TypeSyntax.Sound room) := by
  refine Yields.bind Yields.here fun _ _ => Yields.bind Yields.next fun lexeme _ => ?_
  split
  · exact Yields.bind Yields.name fun _ hname => Yields.bind (yields_directives room) fun _ _ =>
      Yields.pure ⟨hname, trivial⟩
  · exact Yields.bind Yields.name fun _ hname => Yields.bind yields_interfaces fun _ hinterfaces =>
      Yields.bind (yields_directives room) fun _ _ =>
        Yields.bind (yields_inBraces yields_field room) fun _ hfields =>
          Yields.pure ⟨hname, hinterfaces, hfields⟩
  · exact Yields.bind Yields.name fun _ hname => Yields.bind yields_interfaces fun _ hinterfaces =>
      Yields.bind (yields_directives room) fun _ _ =>
        Yields.bind (yields_inBraces yields_field room) fun _ hfields =>
          Yields.pure ⟨hname, hinterfaces, hfields⟩
  · exact Yields.bind Yields.name fun _ hname => Yields.bind (yields_directives room) fun _ _ =>
      Yields.bind yields_members fun _ hmembers => Yields.pure ⟨hname, hmembers⟩
  · exact Yields.bind Yields.name fun _ hname => Yields.bind (yields_directives room) fun _ _ =>
      Yields.bind (yields_inBraces yields_enumValue room) fun _ hvalues =>
        Yields.pure ⟨hname, hvalues⟩
  · exact Yields.bind Yields.name fun _ hname => Yields.bind (yields_directives room) fun _ _ =>
      Yields.bind (yields_inBraces yields_inputValue room) fun _ hfields =>
        Yields.pure ⟨hname, hfields⟩
  · exact Yields.failure

theorem yields_locations : Yields Token.WellFormed readLocations fun _ => True := by
  have hlocation : Yields Token.WellFormed DirectiveLocation.read fun _ => True := by
    refine Yields.bind Yields.name fun _ _ => ?_
    split
    · exact Yields.pure trivial
    · exact Yields.failure
  refine Yields.bind (Yields.accept _) fun _ _ => Yields.bind (Yields.nextIs _) fun _ _ => ?_
  exact Yields.ite (fun _ => (Yields.separated hlocation).trivially) fun _ => Yields.pure trivial

theorem yields_directiveSyntax (description : Option String) (room : Nat) :
    Yields Token.WellFormed (DirectiveSyntax.read description room)
      (DirectiveSyntax.Sound room) := by
  refine Yields.bind Yields.here fun _ _ => Yields.bind (Yields.keyword _) fun _ _ => ?_
  refine Yields.bind (Yields.punctuator _) fun _ _ => Yields.bind Yields.name fun _ hname => ?_
  refine Yields.bind (yields_arguments room) fun _ harguments => ?_
  refine Yields.bind (Yields.accept _) fun _ _ => Yields.bind (Yields.keyword _) fun _ _ => ?_
  exact Yields.bind yields_locations fun _ _ => Yields.pure ⟨hname, harguments⟩

theorem yields_schemaBlock (room : Nat) :
    Yields Token.WellFormed (SchemaBlock.read room) fun _ => True := by
  have hentry : Yields Token.WellFormed (do
      let operation ← Reader.name
      Reader.punctuator .colon
      return (operation, ← Reader.name)) fun _ => True :=
    Yields.bind Yields.name fun _ _ => Yields.bind (Yields.punctuator _) fun _ _ =>
      Yields.bind Yields.name fun _ _ => Yields.pure trivial
  refine Yields.bind Yields.here fun _ _ => Yields.bind (Yields.keyword _) fun _ _ => ?_
  refine Yields.bind (yields_directives room) fun _ _ => Yields.bind (Yields.punctuator _) fun _ _ => ?_
  refine Yields.bind (Yields.manyUntil hentry) fun entries _ => ?_
  cases entries.foldlM SchemaBlock.add? _ with
  | none => exact nofun
  | some block => exact Yields.pure trivial

/-! ### Documents -/

theorem yields_item (room : Nat) : Yields Token.WellFormed (Item.read room) (Item.Sound room) := by
  have hdescribed : ∀ description,
      Yields Token.WellFormed (Item.read.described room description) (Item.Sound room) :=
    fun description => Yields.bind (Yields.nextIs _) fun _ _ =>
      Yields.ite (fun _ => Yields.bind (yields_directiveSyntax description room) fun _ hdirective =>
        Yields.pure hdirective) fun _ => Yields.bind (yields_typeSyntax room) fun _ htype =>
          Yields.pure htype
  refine Yields.bind Yields.string? fun description _ => ?_
  split
  · exact hdescribed _
  · refine Yields.bind (Yields.nextIs _) fun _ _ => Yields.ite (fun _ => ?_) fun _ => ?_
    · exact Yields.bind (yields_schemaBlock room) fun _ _ => Yields.pure trivial
    · refine Yields.bind (Yields.accept _) fun _ _ => Yields.ite (fun _ => ?_) fun _ => hdescribed none
      exact Yields.bind (yields_typeSyntax room) fun _ htype =>
        Yields.ite (fun _ => Yields.pure htype) fun _ => Yields.failure

/-- **What a document is made of is sound.** -/
theorem sound_of_readSchemaDocument {content : String} {items : List Item}
    (h : readSchemaDocument content = some items) : ∀ item ∈ items, item.Sound nestingLimit := by
  have hall : Yields Token.WellFormed (do
      let items ← Reader.many (fun _ => true) (Item.read nestingLimit)
      if items.isEmpty then failure else return items) fun items =>
        ∀ item ∈ items, item.Sound nestingLimit :=
    Yields.bind (Yields.many (yields_item nestingLimit)) fun _ hitems =>
      Yields.ite (fun _ => Yields.failure) fun _ => Yields.pure hitems
  exact hall.of_readAll h

end Syntax

end GraphSchema

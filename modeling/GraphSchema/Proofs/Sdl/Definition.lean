/-
Definitions as words: types, directives and the roots.

A definition begins with its keyword, which carries its description, and it ends where the next
one begins.  Since no definition begins with what could go on with the one in front of it
(`EndsDefinition`), each is read for itself.

As for all words there are three statements about each: the text is that of the words
(`layoutText_`), the words can be told apart (`laid_`), and reading them gives syntax that
states the definition (`reads_`).
-/
import GraphSchema.Proofs.Sdl.Member

namespace GraphSchema.Sdl

open Syntax

variable {source : Source} {schema : Schema}

/-! ### What follows

Some lexemes behind a definition would be taken for more of it.  No definition begins with one of
them.
-/

/-- The lexeme goes on with a definition: no definition begins with it. -/
def continuesDefinition : Lexeme → Bool
  | .name word => word == "implements"
  | _ => true

/-- What may follow a definition: another one, or nothing. -/
def EndsDefinition : Option Lexeme → Prop := NotNext continuesDefinition

theorem EndsDefinition.notNext {next : Option Lexeme} (h : EndsDefinition next) (p : Punctuator) :
    NotNext (Lexeme.isPunctuator p) next := by
  refine h.mono fun lexeme hlexeme => ?_
  cases lexeme with
  | punctuator => rfl
  | _ => cases hlexeme

theorem EndsDefinition.notImplements {next : Option Lexeme} (h : EndsDefinition next) :
    NotNext (Lexeme.isKeyword "implements") next := by
  refine h.mono fun lexeme hlexeme => ?_
  cases lexeme with
  | name word => exact hlexeme
  | _ => cases hlexeme

/-! ### Blocks -/

/-- The words of items in braces. -/
def blockWords {γ : Type} (words : Bool × γ → List Word) (items : List γ) : List Word :=
  if items.isEmpty then []
  else
    ⟨.inline false 1, .punctuator .braceOpen⟩
      :: ((marked items).flatMap words ++ [⟨.fresh false 0 none, .punctuator .braceClose⟩])

theorem layoutText_blockWords {γ : Type} {words : Bool × γ → List Word} {item : Bool → γ → String}
    (h : ∀ x, layoutText (words x) = '\n' :: (item x.1 x.2).toList) (items : List γ) :
    layoutText (blockWords words items) = (block (blockItems item items)).toList := by
  unfold blockWords block
  cases items with
  | nil => rfl
  | cons first others =>
    have hitems := flatMap_newline (List.cons_ne_nil first others) item
    have hnonempty : (blockItems item (first :: others)).isEmpty = false := rfl
    rw [hnonempty, if_neg Bool.false_ne_true, List.isEmpty_cons, if_neg Bool.false_ne_true,
      Form.layoutText_cons, Form.layoutText_append, layoutText_flatMap]
    simp only [h]
    rw [hitems]
    simp only [String.toList_append, Form.layoutText_singleton]
    simp [Gap.text, Gap.commentText, spaces, Lexeme.text, Punctuator.text]

theorem laid_blockWords {γ : Type} {words : Bool × γ → List Word} {items : List γ}
    (h : ∀ x ∈ marked items, Laid false (words x)) : Laid false (blockWords words items) := by
  unfold blockWords
  split
  · trivial
  · refine ⟨⟨trivial, trivial⟩, Or.inr (Or.inl rfl), ?_⟩
    refine Laid.append (laid_marked fun x hx => (h x hx).loosen) ?_
    exact ⟨⟨nofun, trivial⟩, Or.inr (Or.inl rfl), trivial⟩

/-- Items in braces are read with one level of room less. -/
theorem reads_block {α γ : Type} {reader : Nat → Reader α} {room : Nat}
    {words : Bool × γ → List Word} {items : List γ} {S : γ → α → Prop}
    (hwords : ∀ x, ∃ gap name rest, words x = ⟨gap, .name name⟩ :: rest)
    (h : ∀ x ∈ marked items, Reads source (reader room) (words x) EndsMember (S x.2)) :
    Reads source (inBraces reader (room + 1)) (blockWords words items)
      (NotNext (Lexeme.isPunctuator .braceOpen)) (List.Forall₂ S items) := by
  unfold inBraces blockWords
  refine Reads.ifMarked (fun x _ => ?_) (notNext_some rfl) h
  obtain ⟨gap, name, rest, heq⟩ := hwords x
  exact ⟨_, rest, heq, rfl, notNext_some rfl⟩

/-! ### Names -/

/-- The words of names with a punctuator between them. -/
def namesWords (separator : Punctuator) : List String → List Word
  | [] => []
  | first :: others =>
    ⟨.inline false 1, .name first⟩ :: others.flatMap fun name =>
      [⟨.inline false 1, .punctuator separator⟩, ⟨.inline false 1, .name name⟩]

theorem layoutText_namesWords {separator : Punctuator} {between : String}
    (h : between.toList = ' ' :: separator.text ++ [' ']) {names : List String} (hne : names ≠ []) :
    layoutText (namesWords separator names) = ' ' :: (between.intercalate names).toList := by
  rw [String.toList_intercalate]
  cases names with
  | nil => exact absurd rfl hne
  | cons first others =>
    rw [namesWords, Form.layoutText_cons, layoutText_flatMap, List.map_cons, Text.intercalate_cons,
      List.flatMap_map, h]
    simp [layoutText, Word.text, Gap.text, spaces, Lexeme.text]

theorem laid_namesWords {separator : Punctuator} {names : List String}
    (h : ∀ name ∈ names, isName name.toList = true) : Laid false (namesWords separator names) := by
  cases names with
  | nil => trivial
  | cons first others =>
    rw [List.forall_mem_cons] at h
    refine ⟨⟨trivial, h.1⟩, Or.inr (Or.inl rfl), ?_⟩
    refine laid_flatMap fun name hname => ?_
    exact ⟨⟨trivial, trivial⟩, Or.inr (Or.inl rfl), ⟨trivial, h.2 name hname⟩, Or.inr (Or.inl rfl), trivial⟩

/-- Items that are names are read up to what follows. -/
theorem reads_separated {α γ : Type} {separator : Punctuator} {item : Reader α} {text : γ → String}
    {items : List γ} (hne : items ≠ []) {S : γ → α → Prop}
    (h : ∀ x ∈ items, Reads source item [⟨.inline false 1, .name (text x)⟩] (fun _ => True) (S x)) :
    Reads source (Reader.separated separator item) (namesWords separator (items.map text))
      (NotNext (Lexeme.isPunctuator separator)) (List.Forall₂ S items) := by
  cases items with
  | nil => exact absurd rfl hne
  | cons first others =>
    rw [List.forall_mem_cons] at h
    have hitem : ∀ x ∈ others, Reads source (do
          Reader.punctuator separator
          item)
        [⟨.inline false 1, .punctuator separator⟩, ⟨.inline false 1, .name (text x)⟩] (fun _ => True)
        (S x) := fun x hx => Reads.punctuator_bind (h.2 x hx)
    rw [List.map_cons, namesWords, List.flatMap_map, ← List.singleton_append]
    refine Reads.bind h.1 (fun a ha => ?_) (fun _ _ => trivial)
    refine Reads.bind_last ((Reads.many (fun x _ => ?_) hitem).mono
      (fun _ hnext => ⟨hnext, trivial⟩) fun _ h => h) fun as has => Reads.pure (.cons ha has)
    exact ⟨_, _, rfl, beq_self_eq_true separator, trivial⟩

theorem reads_names {separator : Punctuator} {names : List String} (hne : names ≠ []) :
    Reads source (readNames separator) (namesWords separator names)
      (NotNext (Lexeme.isPunctuator separator)) (· = names) := by
  have hname : ∀ name ∈ names, Reads source Reader.name [⟨.inline false 1, .name (id name)⟩]
      (fun _ => True) (· = name) := by
    intro name _
    rw [← bind_pure Reader.name]
    exact Reads.name_bind (Reads.pure rfl)
  refine Reads.accept_bind_of_false (fun next _ => ?_) ?_
  · obtain ⟨first, others, rfl⟩ := List.exists_cons_of_ne_nil hne
    exact notNext_some rfl
  · have hread : Reads source (Reader.separated separator Reader.name) _ _ _ := reads_separated hne hname
    rw [List.map_id] at hread
    refine hread.mono (fun _ h => h) fun read hsame => ?_
    rw [← List.forall₂_eq_eq_eq]
    exact hsame.flip.imp fun _ _ h => h

/-- The words of the interfaces that a type implements. -/
def implementsWords (interfaces : List String) : List Word :=
  if interfaces.isEmpty then []
  else ⟨.inline false 1, .name "implements"⟩ :: namesWords .ampersand interfaces

theorem layoutText_implementsWords (interfaces : List String) :
    layoutText (implementsWords interfaces) = (implementsText interfaces).toList := by
  unfold implementsWords implementsText
  split
  · rfl
  · next hempty =>
    rw [List.isEmpty_iff] at hempty
    have hbetween : " & ".toList = ' ' :: Punctuator.text .ampersand ++ [' '] := rfl
    rw [Form.layoutText_cons, layoutText_namesWords hbetween hempty, String.toList_append]
    rfl

theorem laid_implementsWords {interfaces : List String}
    (h : ∀ name ∈ interfaces, isName name.toList = true) : Laid false (implementsWords interfaces) := by
  have hkeyword : isName "implements".toList = true := by decide
  unfold implementsWords
  split
  · trivial
  · exact ⟨⟨trivial, hkeyword⟩, Or.inr (Or.inl rfl), laid_namesWords h⟩

theorem reads_implements (interfaces : List String) :
    Reads source readInterfaces (implementsWords interfaces)
      (fun next => NotNext (Lexeme.isKeyword "implements") next ∧
        NotNext (Lexeme.isPunctuator .ampersand) next) (· = interfaces) := by
  unfold readInterfaces implementsWords
  split
  · next hempty =>
    rw [List.isEmpty_iff] at hempty
    exact Reads.accept_bind_of_false (fun _ hnext => hnext.1) (Reads.pure hempty.symm)
  · next hempty =>
    rw [List.isEmpty_iff] at hempty
    exact Reads.accept_bind_of_true rfl ((reads_names hempty).mono (fun _ hnext => hnext.2) fun _ h => h)

/-- The words of the members of a union. -/
def membersWords (members : List String) : List Word :=
  if members.isEmpty then []
  else ⟨.inline false 1, .punctuator .equals⟩ :: namesWords .pipe members

theorem layoutText_membersWords (members : List String) :
    layoutText (membersWords members)
      = (if members.isEmpty then "" else " = " ++ " | ".intercalate members).toList := by
  unfold membersWords
  split
  · rfl
  · next hempty =>
    rw [List.isEmpty_iff] at hempty
    have hbetween : " | ".toList = ' ' :: Punctuator.text .pipe ++ [' '] := rfl
    rw [Form.layoutText_cons, layoutText_namesWords hbetween hempty, String.toList_append]
    rfl

theorem laid_membersWords {members : List String}
    (h : ∀ name ∈ members, isName name.toList = true) : Laid false (membersWords members) := by
  unfold membersWords
  split
  · trivial
  · exact ⟨⟨trivial, trivial⟩, Or.inr (Or.inl rfl), (laid_namesWords h).loosen⟩

theorem reads_members (members : List String) :
    Reads source readMembers (membersWords members) EndsDefinition (· = members) := by
  unfold readMembers membersWords
  split
  · next hempty =>
    rw [List.isEmpty_iff] at hempty
    exact Reads.accept_bind_of_false (fun _ hnext => hnext.notNext _) (Reads.pure hempty.symm)
  · next hempty =>
    rw [List.isEmpty_iff] at hempty
    exact Reads.accept_bind_of_true rfl
      ((reads_names hempty).mono (fun _ hnext => hnext.notNext _) fun _ h => h)

/-! ### Types

All kinds of types have the same frame, a keyword and a name, and differ in what stands behind it.
-/

/-- The keyword of the types of a kind. -/
def keyword : TypeKind → String
  | .enum => "enum"
  | .inputObject => "input"
  | .interface => "interface"
  | .object => "type"
  | .scalar => "scalar"
  | .union => "union"

theorem isName_keyword (kind : TypeKind) : isName (keyword kind).toList = true := by
  cases kind <;> decide

/-- The words of what a type is made of. -/
def bodyWords (schema : Schema) : TypeBody → List Word
  | .enum values => blockWords enumValueWords values.toList
  | .inputObject fields => blockWords (inputFieldWords schema) fields.toList
  | .interface interfaces fields | .object interfaces fields =>
    implementsWords interfaces ++ blockWords (fieldWords schema) fields.toList
  | .scalar => []
  | .union members => membersWords members.names

/-- The words of a type. -/
def typeDefWords (schema : Schema) (t : TypeDef) : List Word :=
  ⟨.fresh true 0 t.description, .name (keyword t.kind)⟩ :: ⟨.inline false 1, .name t.name⟩
    :: bodyWords schema t.body

/-- The contents state what a type is made of. -/
inductive StatesBody (source : Source) (schema : Schema) : TypeBody → TypeContents → Prop
  | enum {values : NameTable EnumValue} {stated : List EnumValueSyntax}
      (h : List.Forall₂ (StatesEnumValue source) values.toList stated) :
      StatesBody source schema (.enum values) (.enum stated)
  | inputObject {fields : NameTable Parameter} {stated : List InputValueSyntax}
      (h : List.Forall₂ (ParameterAgain schema 2) fields.toList (stated.map source.parameter)) :
      StatesBody source schema (.inputObject fields) (.inputObject stated)
  | interface {interfaces : List String} {fields : NameTable Field} {stated : List FieldSyntax}
      (h : List.Forall₂ (StatesField source schema) fields.toList stated) :
      StatesBody source schema (.interface interfaces fields) (.interface interfaces stated)
  | object {interfaces : List String} {fields : NameTable Field} {stated : List FieldSyntax}
      (h : List.Forall₂ (StatesField source schema) fields.toList stated) :
      StatesBody source schema (.object interfaces fields) (.object interfaces stated)
  | scalar : StatesBody source schema .scalar .scalar
  | union {members : NameTable TypeRef} :
      StatesBody source schema (.union members) (.union members.names)

/-- The definition states a type. -/
structure StatesType (source : Source) (schema : Schema) (t : TypeDef) (s : TypeSyntax) : Prop where
  name : s.name = t.name
  description : source.commentAbove s.position = again 0 t.description
  body : StatesBody source schema t.body s.contents

theorem text_definitionGap (description : Option String) :
    (Gap.fresh true 0 description).text
      = '\n' :: '\n' :: (descriptionText description "" true).toList := by
  cases description with
  | none => rfl
  | some d =>
    show '\n' :: '\n' :: (comment [] d.toList ++ []) = '\n' :: '\n' :: String.toList ("" ++ _)
    rw [List.append_nil, String.empty_append, String.toList_ofList]
    rfl

/-- The text of what a type is made of. -/
def bodyText (schema : Schema) : TypeBody → String
  | .enum values => block (blockItems enumValueText values.toList)
  | .inputObject fields => block (blockItems (inputFieldText schema) fields.toList)
  | .interface interfaces fields | .object interfaces fields =>
    implementsText interfaces ++ fieldsText schema fields
  | .scalar => ""
  | .union members => if members.names.isEmpty then "" else " = " ++ " | ".intercalate members.names

theorem typeText_eq (schema : Schema) (t : TypeDef) :
    typeText schema t
      = descriptionText t.description "" true ++ (keyword t.kind ++ " " ++ t.name)
        ++ bodyText schema t.body := by
  rw [typeText, TypeDef.kind, String.append_assoc]
  refine congrArg (descriptionText t.description "" true ++ ·) ?_
  cases t.body with
  | enum | inputObject => rfl
  | interface | object => exact String.append_assoc
  | scalar => exact String.append_empty.symm
  | union members =>
    have hempty : members.isEmpty = members.names.isEmpty := List.isEmpty_map.symm
    rw [bodyText, ← hempty]
    rfl

theorem layoutText_bodyWords (schema : Schema) (body : TypeBody) :
    layoutText (bodyWords schema body) = (bodyText schema body).toList := by
  cases body with
  | enum values => exact layoutText_blockWords layoutText_enumValueWords values.toList
  | inputObject fields =>
    exact layoutText_blockWords (layoutText_inputFieldWords schema) fields.toList
  | interface interfaces fields | object interfaces fields =>
    rw [bodyWords, Form.layoutText_append, layoutText_implementsWords,
      layoutText_blockWords (layoutText_fieldWords schema), bodyText, String.toList_append, fieldsText]
  | scalar => rfl
  | union members => exact layoutText_membersWords members.names

theorem layoutText_typeDefWords (schema : Schema) (t : TypeDef) :
    layoutText (typeDefWords schema t) = '\n' :: '\n' :: (typeText schema t).toList := by
  rw [typeDefWords, Form.layoutText_cons, Form.layoutText_cons, text_definitionGap, typeText_eq,
    layoutText_bodyWords]
  simp only [String.toList_append, List.append_assoc, List.cons_append]
  rfl

theorem laid_bodyWords {room : Nat} {body : TypeBody} (h : BodyFits schema room body) :
    Laid false (bodyWords schema body) := by
  cases h with
  | enum h => exact laid_blockWords fun x hx => laid_enumValueWords (h x.2 (snd_mem_of_mem_marked hx))
  | inputObject h =>
    refine laid_blockWords fun x hx => ?_
    have hfits := h x.2 (snd_mem_of_mem_marked hx)
    exact laid_parameterWords hfits (legible_memberGap hfits.legible.description) (Or.inr rfl)
  | interface hinterfaces hfields | object hinterfaces hfields =>
    refine Laid.append (laid_implementsWords hinterfaces) (laid_blockWords fun x hx => ?_)
    exact laid_fieldWords (hfields x.2 (snd_mem_of_mem_marked hx))
  | scalar => trivial
  | union h => exact laid_membersWords h

theorem laid_typeDefWords {t : TypeDef} (h : TypeFits schema t) : Laid false (typeDefWords schema t) :=
  ⟨⟨h.legible.description, isName_keyword t.kind⟩, Or.inr (Or.inl rfl), ⟨trivial, h.sound.name⟩,
    Or.inr (Or.inl rfl), laid_bodyWords h.body⟩

/-- No directives are read in front of what a type is made of. -/
theorem reads_skipDirectives {β : Type} {room : Nat} {words : List Word}
    {follow : Option Lexeme → Prop} {f : List DirectiveUse → Reader β} {R : β → Prop}
    (hnext : ∀ next, follow next → NotNext (Lexeme.isPunctuator .at) (nextLexeme words next))
    (h : Reads source (f []) words follow R) :
    Reads source (readDirectives room >>= f) words follow R := by
  refine (List.nil_append words) ▸ Reads.bind reads_noDirectives (fun uses huses => ?_) hnext
  rw [huses]
  exact h

/-- Nothing but an opening brace begins a block. -/
theorem notNext_blockWords {γ : Type} {words : Bool × γ → List Word} {items : List γ}
    {p : Lexeme → Bool} (hbrace : p (.punctuator .braceOpen) = false) {next : Option Lexeme}
    (h : NotNext p next) : NotNext p (nextLexeme (blockWords words items) next) := by
  unfold blockWords
  split
  · exact h
  · exact notNext_some hbrace

/-- The last part of a definition. -/
theorem reads_lastBlock {α β γ : Type} {reader : Nat → Reader α} {room : Nat}
    {words : Bool × γ → List Word} {items : List γ} {S : γ → α → Prop}
    {f : List α → β} {R : β → Prop}
    (hwords : ∀ x, ∃ gap name rest, words x = ⟨gap, .name name⟩ :: rest)
    (h : ∀ x ∈ marked items, Reads source (reader room) (words x) EndsMember (S x.2))
    (hf : ∀ as, List.Forall₂ S items as → R (f as)) :
    Reads source (do return f (← inBraces reader (room + 1))) (blockWords words items)
      EndsDefinition R := by
  exact Reads.bind_last ((reads_block hwords h).mono (fun _ hnext => hnext.notNext _) fun _ h => h)
    fun as has => Reads.pure (hf as has)

/-- The interfaces and the fields of a type. -/
theorem reads_fields {β : Type} {room : Nat} {interfaces : List String} {fields : NameTable Field}
    (h : ∀ f ∈ fields.toList, FieldFits schema (room + 1) f)
    {f : List String → List DirectiveUse → List FieldSyntax → β} {R : β → Prop}
    (hf : ∀ stated, List.Forall₂ (StatesField source schema) fields.toList stated →
      R (f interfaces [] stated)) :
    Reads source (do
        let interfaces ← readInterfaces
        let directives ← readDirectives (room + 2)
        return f interfaces directives (← inBraces FieldSyntax.read (room + 2)))
      (implementsWords interfaces ++ blockWords (fieldWords schema) fields.toList) EndsDefinition R := by
  refine Reads.bind (reads_implements interfaces) (fun read hread => ?_) (fun next hnext => ?_)
  · rw [hread]
    refine reads_skipDirectives (fun next hnext => notNext_blockWords rfl (hnext.notNext _)) ?_
    exact reads_lastBlock (fun _ => ⟨_, _, _, rfl⟩)
      (fun x hx => reads_field (h x.2 (snd_mem_of_mem_marked hx))) hf
  · exact ⟨notNext_blockWords rfl hnext.notImplements, notNext_blockWords rfl (hnext.notNext _)⟩

/-- **A type is read back.** -/
theorem reads_typeDef {room : Nat} {t : TypeDef} (h : BodyFits schema (room + 2) t.body) {gap : Gap}
    (hgap : gap.description = again 0 t.description) :
    Reads source (TypeSyntax.read (room + 2)) (⟨gap, .name (keyword t.kind)⟩
      :: ⟨.inline false 1, .name t.name⟩ :: bodyWords schema t.body) EndsDefinition
      (StatesType source schema t) := by
  refine Reads.here_bind fun position hposition => Reads.next_bind ?_
  have hdescription := hposition.trans hgap
  have hstates : ∀ (uses : List DirectiveUse) (contents : TypeContents),
      StatesBody source schema t.body contents →
        StatesType source schema t ⟨position, t.name, uses, contents⟩ :=
    fun _ _ hbody => ⟨rfl, hdescription, hbody⟩
  unfold TypeDef.kind
  generalize t.body = body at h hstates ⊢
  cases h with
  | enum h =>
    refine Reads.name_bind (reads_skipDirectives ?_ ?_)
    · exact fun next hnext => notNext_blockWords rfl (hnext.notNext _)
    · exact reads_lastBlock (fun _ => ⟨_, _, _, rfl⟩) (fun x _ => reads_enumValue x)
        (fun stated hstated => hstates _ _ (.enum hstated))
  | inputObject h =>
    refine Reads.name_bind (reads_skipDirectives ?_ ?_)
    · exact fun next hnext => notNext_blockWords rfl (hnext.notNext _)
    · refine reads_lastBlock (S := fun p s => ParameterAgain schema 2 p (source.parameter s))
        (fun _ => ⟨_, _, _, rfl⟩) (fun x hx => ?_) (fun stated hstated => hstates _ _ ?_)
      · exact reads_parameter (h x.2 (snd_mem_of_mem_marked hx)) rfl
      · refine .inputObject ?_
        rw [List.forall₂_map_right_iff]
        exact hstated
  | interface _ h =>
    exact Reads.name_bind (reads_fields h fun stated hstated => hstates _ _ (.interface hstated))
  | object _ h =>
    exact Reads.name_bind (reads_fields h fun stated hstated => hstates _ _ (.object hstated))
  | scalar =>
    refine Reads.name_bind (reads_skipDirectives ?_ (Reads.pure (hstates _ _ .scalar)))
    exact fun next hnext => hnext.notNext _
  | @union members h =>
    refine Reads.name_bind (reads_skipDirectives ?_ ?_)
    · intro next hnext
      show NotNext _ (nextLexeme (membersWords members.names) next)
      unfold membersWords
      split
      · exact hnext.notNext _
      · exact notNext_some rfl
    · show Reads source _ (membersWords members.names) _ _
      refine Reads.bind_last (reads_members members.names) fun read hread => Reads.pure ?_
      rw [hread]
      exact hstates _ _ .union

/-! ### Directives -/

/-- The words of the places that a directive may be applied to. -/
def locationsWords (locations : List DirectiveLocation) : List Word :=
  ⟨.inline false 1, .name "on"⟩ :: namesWords .pipe (locations.map DirectiveLocation.text)

/-- The word of a directive that may stand more than once at a place. -/
def repeatableWords (repeatable : Bool) : List Word :=
  if repeatable then [⟨.inline false 1, .name "repeatable"⟩] else []

/-- The words of a directive. -/
def directiveWords (schema : Schema) (d : Directive) : List Word :=
  ⟨.fresh true 0 d.description, .name "directive"⟩ :: ⟨.inline false 1, .punctuator .at⟩
    :: ⟨.inline false 0, .name d.name⟩
    :: (parametersWords schema 0 d.parameters.toList
      ++ (repeatableWords d.repeatable ++ locationsWords d.locations))

/-- The definition states a directive. -/
structure StatesDirective (source : Source) (schema : Schema) (d : Directive) (s : DirectiveSyntax) :
    Prop where
  name : s.name = d.name
  description : source.description s.description s.position = again 0 d.description
  parameters : List.Forall₂ (ParameterAgain schema 2) d.parameters.toList
    (s.arguments.map source.parameter)
  repeatable : s.repeatable = d.repeatable
  locations : s.locations = d.locations

theorem layoutText_directiveWords (schema : Schema) {d : Directive} (h : d.locations ≠ []) :
    layoutText (directiveWords schema d) = '\n' :: '\n' :: (directiveText schema d).toList := by
  have hbetween : " | ".toList = ' ' :: Punctuator.text .pipe ++ [' '] := rfl
  have hnames : d.locations.map DirectiveLocation.text ≠ [] := fun heq => h (List.map_eq_nil_iff.mp heq)
  have hrepeatable : layoutText (repeatableWords d.repeatable)
      = (if d.repeatable then " repeatable" else "").toList := by
    cases d.repeatable <;> rfl
  have hindent : String.ofList (spaces 0) = "" := rfl
  rw [directiveWords, Form.layoutText_cons, Form.layoutText_cons, Form.layoutText_cons,
    text_definitionGap, Form.layoutText_append, layoutText_parametersWords, Form.layoutText_append,
    hrepeatable, locationsWords, Form.layoutText_cons, layoutText_namesWords hbetween hnames, hindent,
    directiveText]
  simp only [String.toList_append, List.append_assoc, List.cons_append]
  rfl

theorem isName_location (location : DirectiveLocation) : isName location.text.toList = true := by
  cases location <;> decide

theorem laid_directiveWords {d : Directive} (h : DirectiveFits schema d) :
    Laid false (directiveWords schema d) := by
  have hkeywords : ∀ word ∈ ["directive", "repeatable", "on"], isName word.toList = true := by decide
  refine ⟨⟨h.legible.description, hkeywords _ (by simp)⟩, Or.inr (Or.inl rfl), ⟨trivial, trivial⟩,
    Or.inr (Or.inl rfl), ⟨trivial, h.sound.name⟩, Or.inl rfl, ?_⟩
  refine Laid.append (laid_parametersWords h.parameters) (Laid.append ?_ ?_)
  · unfold repeatableWords
    split
    · exact ⟨⟨trivial, hkeywords _ (by simp)⟩, Or.inr (Or.inl rfl), trivial⟩
    · trivial
  · refine ⟨⟨trivial, hkeywords _ (by simp)⟩, Or.inr (Or.inl rfl), laid_namesWords ?_⟩
    rw [List.forall_mem_map]
    exact fun location _ => isName_location location

theorem ofText?_text (location : DirectiveLocation) :
    DirectiveLocation.ofText? location.text = some location := by
  cases location <;> decide

theorem reads_locations {locations : List DirectiveLocation} (hne : locations ≠ []) :
    Reads source readLocations (namesWords .pipe (locations.map DirectiveLocation.text))
      EndsDefinition (· = locations) := by
  have hlocation : ∀ location ∈ locations, Reads source DirectiveLocation.read
      [⟨.inline false 1, .name location.text⟩] (fun _ => True) (· = location) := by
    intro location _
    refine Reads.name_bind ?_
    rw [ofText?_text]
    exact Reads.pure rfl
  have hread : Reads source (Reader.separated .pipe DirectiveLocation.read) _ _ _ :=
    reads_separated hne hlocation
  obtain ⟨first, others, rfl⟩ := List.exists_cons_of_ne_nil hne
  refine Reads.accept_bind_of_false (fun _ _ => notNext_some rfl) (Reads.nextIs_bind_of_true rfl ?_)
  refine hread.mono (fun _ hnext => hnext.notNext _) fun read hsame => ?_
  rw [← List.forall₂_eq_eq_eq]
  exact hsame.flip.imp fun _ _ h => h

/-- **A directive is read back.** -/
theorem reads_directive {d : Directive} (h : DirectiveFits schema d) :
    Reads source (DirectiveSyntax.read none nestingLimit) (directiveWords schema d) EndsDefinition
      (StatesDirective source schema d) := by
  refine Reads.here_bind fun position hposition => Reads.keyword_bind ?_
  refine Reads.punctuator_bind (Reads.name_bind ?_)
  refine Reads.bind (reads_parameters h.parameters) (fun arguments harguments => ?_) ?_
  · have hrest : Reads source (do
          Reader.keyword "on"
          let locations ← readLocations
          return (⟨position, none, d.name, arguments, d.repeatable, locations⟩ : DirectiveSyntax))
        (locationsWords d.locations) EndsDefinition (StatesDirective source schema d) := by
      refine Reads.keyword_bind ?_
      refine Reads.bind_last (reads_locations h.legible.locations) fun read hread => Reads.pure ?_
      exact ⟨rfl, hposition, harguments, rfl, hread⟩
    cases hrepeatable : d.repeatable with
    | true =>
      rw [hrepeatable] at hrest
      exact Reads.accept_bind_of_true rfl hrest
    | false =>
      rw [hrepeatable] at hrest
      exact Reads.accept_bind_of_false (fun _ _ => notNext_some rfl) hrest
  · intro next _
    cases d.repeatable <;> exact notNext_some rfl

end GraphSchema.Sdl

/-
Members of types as words: arguments, fields and values.

Each kind of member has its words, which are written as its text, and a statement that they are
read as the member again.  What is read is not quite the member: its description has been
rewrapped and its default has been read from its form (`ParameterAgain`, `FieldAgain`,
`EnumValueAgain`).
-/
import GraphSchema.Proofs.Sdl.Legible

namespace GraphSchema.Sdl

open Syntax

variable {source : Source} {schema : Schema}

/-! ### What follows -/

/-- The lexeme goes on with a member: no member begins with it, and it closes nothing. -/
def continuesMember : Lexeme → Bool
  | .punctuator p => p != .parenClose && p != .braceClose
  | _ => false

/-- What may follow a member: another one, or what closes them all. -/
def EndsMember : Option Lexeme → Prop := NotNext continuesMember

theorem NotNext.mono {p q : Lexeme → Bool} {next : Option Lexeme} (h : NotNext p next)
    (hpq : ∀ lexeme, q lexeme = true → p lexeme = true) : NotNext q next := by
  intro lexeme hlexeme
  have hp := h lexeme hlexeme
  rw [← Bool.not_eq_true] at hp ⊢
  exact fun hq => hp (hpq lexeme hq)

theorem EndsMember.notNext {next : Option Lexeme} (h : EndsMember next) {p : Punctuator}
    (hp : continuesMember (.punctuator p) = true) : NotNext (Lexeme.isPunctuator p) next := by
  refine h.mono fun lexeme hlexeme => ?_
  cases lexeme with
  | punctuator q =>
    obtain rfl := eq_of_beq hlexeme
    exact hp
  | _ => cases hlexeme

theorem notNext_some {p : Lexeme → Bool} {lexeme : Lexeme} (h : p lexeme = false) :
    NotNext p (some lexeme) := by
  intro other hother
  obtain rfl := Option.some.inj hother
  exact h

/-! ### Types -/

/-- The mark of a type that refuses null. -/
def bang (nullable : Bool) : List Word :=
  if nullable then [] else [⟨.inline false 0, .punctuator .bang⟩]

/-- The words of a type. -/
def typeWords : WrappedType → Gap → List Word
  | .named name nullable, gap => ⟨gap, .name name⟩ :: bang nullable
  | .list inner nullable, gap =>
    ⟨gap, .punctuator .bracketOpen⟩
      :: (typeWords inner (.inline false 0)
        ++ ⟨.inline false 0, .punctuator .bracketClose⟩ :: bang nullable)

theorem layoutText_bang (nullable : Bool) :
    layoutText (bang nullable) = (if nullable then "" else "!").toList := by
  cases nullable <;> rfl

theorem layoutText_typeWords (type : WrappedType) (gap : Gap) :
    layoutText (typeWords type gap) = gap.text ++ type.text.toList := by
  induction type generalizing gap with
  | named name nullable =>
    rw [typeWords, Form.layoutText_cons, layoutText_bang, WrappedType.text, String.toList_append]
    rfl
  | list inner nullable ih =>
    rw [typeWords, Form.layoutText_cons, Form.layoutText_append, ih, Form.layoutText_cons,
      layoutText_bang, WrappedType.text]
    simp [String.toList_append, Gap.text, spaces, Lexeme.text, Punctuator.text]

theorem laid_bang (nullable : Bool) : Laid false (bang nullable) := by
  cases nullable with
  | true => trivial
  | false => exact ⟨⟨trivial, trivial⟩, Or.inr (Or.inr rfl), trivial⟩

theorem laid_typeWords {type : WrappedType} (h : isName type.innermostName.toList = true) {gap : Gap}
    (hgap : gap.Legible) {loose : Bool} (hloose : loose = true ∨ gap.separates = true) :
    Laid loose (typeWords type gap) := by
  induction type generalizing gap loose with
  | named name nullable => exact ⟨⟨hgap, h⟩, hloose.imp_right Or.inl, laid_bang nullable⟩
  | list inner nullable ih =>
    refine ⟨⟨hgap, trivial⟩, hloose.imp_right Or.inl, ?_⟩
    refine Laid.append (ih h (Gap.legible_inline _ _) (Or.inl rfl)) ?_
    exact ⟨⟨trivial, trivial⟩, Or.inr (Or.inr rfl), (laid_bang nullable).loosen⟩

/-- The mark behind a type is read with it. -/
theorem reads_bang (bare : TypeExpr) (nullable : Bool) :
    Reads source (do
        if ← Reader.accept (Lexeme.isPunctuator .bang) then return .nonNull bare else return bare)
      (bang nullable) (NotNext (Lexeme.isPunctuator .bang))
      (fun expr => expr = if nullable then bare else .nonNull bare) := by
  cases nullable with
  | true => exact Reads.accept_bind_of_false (fun _ hnext => hnext) (Reads.pure rfl)
  | false => exact Reads.accept_bind_of_true rfl (Reads.pure rfl)

/-- A type is read as an expression for it. -/
theorem reads_type {type : WrappedType} {room : Nat} (h : type.depth ≤ room) (gap : Gap) :
    Reads source (TypeExpr.read room) (typeWords type gap) (NotNext (Lexeme.isPunctuator .bang))
      (fun expr => WrappedType.ofExpr expr = type) := by
  induction type generalizing room gap with
  | named name nullable =>
    rw [TypeExpr.read.eq_def]
    refine Reads.next_bind ((reads_bang (.named name) nullable).mono (fun _ hnext => hnext) ?_)
    intro expr hexpr
    rw [hexpr]
    cases nullable <;> rfl
  | list inner nullable ih =>
    obtain ⟨less, rfl⟩ : ∃ less, room = less + 1 :=
      ⟨room - 1, by rw [WrappedType.depth] at h; omega⟩
    rw [TypeExpr.read.eq_def]
    refine Reads.next_bind (Reads.bind (ih (Nat.le_of_succ_le_succ h) _) (fun expr hexpr => ?_) ?_)
    · refine Reads.punctuator_bind
        ((reads_bang (.list expr) nullable).mono (fun _ hnext => hnext) ?_)
      intro outer houter
      rw [houter, ← hexpr]
      cases nullable <;> rfl
    · exact fun _ _ => notNext_some rfl

/-! ### Descriptions -/

/-- A description as it is read at an indentation. -/
def again (indent : Nat) (description : Option String) : Option String :=
  description.map fun d => String.ofList (rewrapped indent d.toList)

/-- The gap in front of a member on a line of its own: a described one is set off from the one
in front of it. -/
def memberGap (indent : Nat) (first : Bool) (description : Option String) : Gap :=
  .fresh (description.isSome && !first) indent description

theorem text_memberGap {indent : Nat} (h : indent ≠ 0) (first : Bool)
    (description : Option String) :
    (memberGap indent first description).text
      = '\n' :: ((descriptionText description (String.ofList (spaces indent)) first).toList
          ++ spaces indent) := by
  obtain ⟨n, rfl⟩ := Nat.exists_eq_succ_of_ne_zero h
  have hindent : (String.ofList (spaces (n + 1))).isEmpty = false := by
    rw [String.isEmpty_eq_false_iff]
    intro heq
    have hlist := congrArg String.toList heq
    rw [String.toList_ofList] at hlist
    cases hlist
  cases description with
  | none => cases first <;> rfl
  | some d =>
    rw [memberGap, descriptionText, hindent, String.toList_append, String.toList_ofList,
      String.toList_ofList]
    cases first <;> rfl

/-! ### Arguments -/

/-- The words of a default, if there is one. -/
def defaultWords (schema : Schema) (type : WrappedType) : Option Literal → List Word
  | none => []
  | some v => ⟨.inline false 1, .punctuator .equals⟩ :: (valueForm schema v type).words (.inline false 1)

/-- The words of an argument or an input field. -/
def parameterWords (schema : Schema) (gap : Gap) (p : Parameter) : List Word :=
  ⟨gap, .name p.name⟩ :: ⟨.inline false 0, .punctuator .colon⟩
    :: (typeWords p.type (.inline false 1) ++ defaultWords schema p.type p.default)

/-- The second parameter is what the first one is read as when it is written. -/
structure ParameterAgain (schema : Schema) (indent : Nat) (p q : Parameter) : Prop where
  name : q.name = p.name
  description : q.description = again indent p.description
  type : q.type = p.type
  default : q.default = p.default.map fun v => (valueForm schema v p.type).literal

/-- What is read has the same names. -/
theorem names_of_parameterAgain {indent : Nat} {ps qs : List Parameter}
    (h : List.Forall₂ (ParameterAgain schema indent) ps qs) :
    qs.map Parameter.name = ps.map Parameter.name := by
  induction h with
  | nil => rfl
  | cons hagain _ ih => rw [List.map_cons, List.map_cons, hagain.name, ih]

/-- What is read has different names, so all of it is kept. -/
theorem again_parameters {indent : Nat} {parameters : NameTable Parameter}
    {arguments : List InputValueSyntax}
    (h : List.Forall₂ (ParameterAgain schema indent) parameters.toList
      (arguments.map source.parameter)) :
    List.Forall₂ (ParameterAgain schema indent) parameters.toList
      (source.parameters arguments).toList := by
  have hlist : (source.parameters arguments).toList = arguments.map source.parameter := by
    refine NameTable.toList_ofList ?_
    show ((arguments.map source.parameter).map Parameter.name).Nodup
    rw [names_of_parameterAgain h]
    exact parameters.names_nodup
  rw [hlist]
  exact h

theorem layoutText_parameterWords (schema : Schema) (gap : Gap) (p : Parameter) :
    layoutText (parameterWords schema gap p) = gap.text ++ (parameterText schema p).toList := by
  have hdefault : ∀ v, layoutText (defaultWords schema p.type (some v))
      = (" = " ++ valueText schema v p.type).toList := by
    intro v
    rw [defaultWords, Form.layoutText_cons, Form.layoutText_words, text_valueForm,
      String.toList_append]
    rfl
  rw [parameterWords, Form.layoutText_cons, Form.layoutText_cons, Form.layoutText_append,
    layoutText_typeWords, parameterText]
  cases p.default with
  | none =>
    simp only [String.toList_append, List.append_assoc]
    rfl
  | some v =>
    rw [hdefault]
    simp only [String.toList_append, List.append_assoc]
    rfl

theorem laid_parameterWords {room : Nat} {p : Parameter} (h : ParameterFits schema room p) {gap : Gap}
    (hgap : gap.Legible) {loose : Bool} (hloose : loose = true ∨ gap.separates = true) :
    Laid loose (parameterWords schema gap p) := by
  refine ⟨⟨hgap, h.sound.name⟩, hloose.imp_right Or.inl, ⟨trivial, trivial⟩, Or.inr (Or.inr rfl), ?_⟩
  refine Laid.append (laid_typeWords h.sound.type (Gap.legible_inline _ _) (Or.inr rfl)) ?_
  have hdefault := h.legible.default
  cases hvalue : p.default with
  | none => trivial
  | some v =>
    exact ⟨⟨trivial, trivial⟩, Or.inr (Or.inl rfl),
      Form.laid_words (hdefault v hvalue).1 (Gap.legible_inline _ _) (Or.inr rfl)⟩

/-- No directives are read where none is applied. -/
theorem reads_noDirectives {room : Nat} :
    Reads source (readDirectives room) [] (NotNext (Lexeme.isPunctuator .at)) (· = []) :=
  Reads.many_nil

/-- **A parameter is read back.** -/
theorem reads_parameter {room indent : Nat} {p : Parameter} (h : ParameterFits schema room p)
    {gap : Gap} (hgap : gap.description = again indent p.description) :
    Reads source (InputValueSyntax.read room) (parameterWords schema gap p) EndsMember
      (fun syntax_ => ParameterAgain schema indent p (source.parameter syntax_)) := by
  rw [parameterWords]
  refine Reads.here_bind fun position hposition => ?_
  refine Reads.string?_bind (by nofun) ?_
  refine Reads.name_bind (Reads.punctuator_bind ?_)
  refine Reads.bind (reads_type h.sound.depth _) (fun expr hexpr => ?_) ?_
  · have hrest : ∀ default : Option Literal,
        default = p.default.map (fun v => (valueForm schema v p.type).literal) →
        Reads source (do
            let directives ← readDirectives room
            return ⟨position, none, p.name, expr, default, directives⟩) [] EndsMember
          (fun parameter => ParameterAgain schema indent p (source.parameter parameter)) := by
      intro default hdefault
      refine Reads.bind_last (reads_noDirectives.mono (fun _ hnext => hnext.notNext rfl) fun _ h => h)
        fun uses _ => Reads.pure ?_
      exact ⟨rfl, hposition.trans hgap, hexpr, hdefault⟩
    cases hvalue : p.default with
    | none =>
      refine Reads.accept_bind_of_false (fun _ hnext => hnext.notNext rfl) ?_
      exact hrest none (by rw [hvalue]; rfl)
    | some v =>
      refine Reads.accept_bind_of_true rfl ?_
      have hfits := h.legible.default v hvalue
      have hread : Reads source (readLiteral true room) _ _ _ :=
        Form.reads (valueForm schema v p.type) hfits.2
          (fun _ => constant_valueForm (h.sound.default v hvalue) p.type) (.inline false 1)
      have hsome := hread.map (f := some) (R := (· = some (valueForm schema v p.type).literal))
        fun literal hliteral => congrArg some hliteral
      refine Reads.bind_last (hsome.mono (fun _ _ => trivial) fun _ h => h) fun default hdefault => ?_
      exact hrest default (by rw [hdefault, hvalue]; rfl)
  · intro next hnext
    cases hvalue : p.default with
    | none => exact hnext.notNext rfl
    | some v => exact notNext_some rfl

/-! ### Items one after the other -/

theorem blockItems_eq {γ : Type} (item : Bool → γ → String) (items : List γ) :
    blockItems item items = (marked items).map fun x => item x.1 x.2 := by
  cases items with
  | nil => rfl
  | cons first others => rw [blockItems, marked, List.map_cons, List.map_map]; rfl

/-- Items that can be told apart from marks can be told apart from each other. -/
theorem laid_flatMap {γ : Type} {items : List γ} {words : γ → List Word} (h : ∀ x ∈ items, Laid false (words x)) :
    Laid false (items.flatMap words) := by
  induction items with
  | nil => trivial
  | cons first others ih =>
    rw [List.forall_mem_cons] at h
    rw [List.flatMap_cons]
    exact Laid.append h.1 (ih h.2)

/-- The items can be told apart, the first of them from the mark in front of it. -/
theorem laid_marked {γ : Type} {items : List γ} {words : Bool × γ → List Word}
    (h : ∀ x ∈ marked items, Laid x.1 (words x)) : Laid true ((marked items).flatMap words) := by
  cases items with
  | nil => trivial
  | cons first others =>
    rw [marked, List.forall_mem_cons, List.forall_mem_map] at h
    rw [marked, List.flatMap_cons, List.flatMap_map]
    exact Laid.append h.1 (laid_flatMap h.2)

theorem layoutText_flatMap {γ : Type} (items : List γ) (words : γ → List Word) :
    layoutText (items.flatMap words) = items.flatMap fun x => layoutText (words x) :=
  List.flatMap_assoc

/-- Items on one line, behind commas. -/
theorem flatMap_itemGap {γ : Type} (items : List γ) (text : γ → String) :
    ((marked items).flatMap fun x => (Form.itemGap x.1).text ++ (text x.2).toList)
      = (", ".intercalate (items.map text)).toList := by
  rw [String.toList_intercalate]
  cases items with
  | nil => rfl
  | cons first others =>
    rw [marked, List.flatMap_cons, List.flatMap_map, List.map_cons, List.map_cons,
      Text.intercalate_cons, List.map_map, List.flatMap_map]
    rfl

/-- Items on lines of their own. -/
theorem flatMap_newline {γ : Type} {items : List γ} (h : items ≠ []) (item : Bool → γ → String) :
    ((marked items).flatMap fun x => '\n' :: (item x.1 x.2).toList)
      = '\n' :: ("\n".intercalate (blockItems item items)).toList := by
  rw [String.toList_intercalate, blockItems_eq]
  cases items with
  | nil => exact absurd rfl h
  | cons first others =>
    rw [marked, List.map_cons, List.map_cons, Text.intercalate_cons, List.flatMap_cons, List.map_map,
      List.map_map, List.flatMap_map, List.flatMap_map]
    rfl

/-! ### Lists of arguments -/

/-- The gap in front of an argument: on a line of its own if the list is expanded. -/
def parameterGap (expanded : Bool) (indent : Nat) (first : Bool) (p : Parameter) : Gap :=
  if expanded then memberGap indent first p.description else Form.itemGap first

/-- Whether arguments are written on lines of their own: one of them is described. -/
def isExpanded (parameters : List Parameter) : Bool :=
  parameters.any fun p => p.description.isSome

/-- The words of arguments in parentheses. -/
def parametersWords (schema : Schema) (indent : Nat) (parameters : List Parameter) : List Word :=
  if parameters.isEmpty then []
  else
    ⟨.inline false 0, .punctuator .parenOpen⟩
      :: ((marked parameters).flatMap (fun x =>
          parameterWords schema (parameterGap (isExpanded parameters) (indent + 2) x.1 x.2) x.2)
        ++ [⟨if isExpanded parameters then .fresh false indent none else .inline false 0,
            .punctuator .parenClose⟩])

/-- The indentation of what stands inside. -/
theorem deeper_eq (indent : Nat) :
    "  " ++ String.ofList (spaces indent) = String.ofList (spaces (indent + 2)) := by
  rw [← String.toList_inj, String.toList_append]
  simp only [String.toList_ofList]
  exact (List.replicate_add 2 indent ' ').symm.trans (congrArg spaces (Nat.add_comm 2 indent))

theorem layoutText_parametersWords (schema : Schema) (indent : Nat) (parameters : List Parameter) :
    layoutText (parametersWords schema indent parameters)
      = (parametersText schema parameters (String.ofList (spaces indent))).toList := by
  have hall : (parameters.all fun p => p.description.isNone) = !isExpanded parameters := by
    rw [isExpanded, List.not_any_eq_all_not]
    simp only [Option.not_isSome]
  unfold parametersWords parametersText
  rw [hall]
  split
  · rfl
  · next hempty =>
    rw [List.isEmpty_iff] at hempty
    have hwords : ∀ x : Bool × Parameter,
        layoutText (parameterWords schema (parameterGap (isExpanded parameters) (indent + 2) x.1 x.2) x.2)
          = (parameterGap (isExpanded parameters) (indent + 2) x.1 x.2).text
            ++ (parameterText schema x.2).toList := fun x => layoutText_parameterWords schema _ x.2
    rw [Form.layoutText_cons, Form.layoutText_append, Form.layoutText_singleton, layoutText_flatMap]
    simp only [hwords]
    cases isExpanded parameters with
    | false =>
      show '(' :: (((marked parameters).flatMap fun x =>
        (Form.itemGap x.1).text ++ (parameterText schema x.2).toList) ++ [')']) = _
      rw [flatMap_itemGap]
      simp [String.toList_append]
    | true =>
      have hitem : ∀ x : Bool × Parameter,
          (parameterGap true (indent + 2) x.1 x.2).text ++ (parameterText schema x.2).toList
            = '\n' :: (descriptionText x.2.description (String.ofList (spaces (indent + 2))) x.1
                ++ String.ofList (spaces (indent + 2)) ++ parameterText schema x.2).toList := by
        intro x
        rw [parameterGap, if_pos rfl, text_memberGap (Nat.succ_ne_zero _)]
        simp [String.toList_append]
      rw [deeper_eq]
      simp only [hitem]
      rw [flatMap_newline hempty fun first p =>
        descriptionText p.description (String.ofList (spaces (indent + 2))) first
          ++ String.ofList (spaces (indent + 2)) ++ parameterText schema p]
      simp [String.toList_append, Gap.text, Gap.commentText, spaces, Lexeme.text, Punctuator.text]

theorem legible_memberGap {indent : Nat} {first : Bool} {description : Option String}
    (h : Commentable description) : (memberGap indent first description).Legible := h

theorem legible_parameterGap {expanded first : Bool} {indent : Nat} {p : Parameter}
    (h : Commentable p.description) : (parameterGap expanded indent first p).Legible := by
  cases expanded with
  | true => exact h
  | false => cases first <;> trivial

theorem laid_parametersWords {room indent : Nat} {parameters : List Parameter}
    (h : ∀ p ∈ parameters, ParameterFits schema room p) :
    Laid false (parametersWords schema indent parameters) := by
  unfold parametersWords
  split
  · trivial
  · refine ⟨⟨trivial, trivial⟩, Or.inr (Or.inr rfl), ?_⟩
    refine Laid.append (laid_marked fun x hx => ?_) ?_
    · have hfits := h x.2 (snd_mem_of_mem_marked hx)
      refine laid_parameterWords hfits (legible_parameterGap hfits.legible.description) ?_
      obtain ⟨first, p⟩ := x
      cases first with
      | true => exact Or.inl rfl
      | false =>
        refine Or.inr ?_
        cases isExpanded parameters <;> rfl
    · refine ⟨⟨?_, trivial⟩, Or.inr (Or.inr rfl), trivial⟩
      split
      · exact fun _ h => nomatch h
      · trivial

/-- What is read above an argument. -/
theorem description_parameterGap {parameters : List Parameter} {p : Parameter} (h : p ∈ parameters)
    (indent : Nat) (first : Bool) :
    (parameterGap (isExpanded parameters) indent first p).description = again indent p.description := by
  cases hexpanded : isExpanded parameters with
  | true => rfl
  | false =>
    have hnone : p.description = none := by
      rw [isExpanded, List.any_eq_false] at hexpanded
      have hp := hexpanded p h
      rwa [Bool.not_eq_true, Option.isSome_eq_false_iff, Option.isNone_iff_eq_none] at hp
    rw [hnone]
    cases first <;> rfl

/-- **Arguments are read back.** -/
theorem reads_parameters {room indent : Nat} {parameters : List Parameter}
    (h : ∀ p ∈ parameters, ParameterFits schema room p) :
    Reads source (readArgumentDefinitions (room + 1)) (parametersWords schema indent parameters)
      (NotNext (Lexeme.isPunctuator .parenOpen)) (fun arguments =>
        List.Forall₂ (ParameterAgain schema (indent + 2)) parameters (arguments.map source.parameter)) := by
  have hitem : ∀ x ∈ marked parameters, Reads source (InputValueSyntax.read room)
      (parameterWords schema (parameterGap (isExpanded parameters) (indent + 2) x.1 x.2) x.2)
      EndsMember fun argument => ParameterAgain schema (indent + 2) x.2 (source.parameter argument) := by
    intro x hx
    have hmem := snd_mem_of_mem_marked hx
    exact reads_parameter (h x.2 hmem) (description_parameterGap hmem (indent + 2) x.1)
  unfold readArgumentDefinitions parametersWords
  refine (Reads.ifMarked (S := fun p argument => ParameterAgain schema (indent + 2) p (source.parameter argument))
    (fun _ _ => ⟨_, _, rfl, rfl, notNext_some rfl⟩) (notNext_some rfl) hitem).mono (fun _ h => h) ?_
  intro arguments harguments
  rw [List.forall₂_map_right_iff]
  exact harguments

/-! ### Deprecations -/

/-- The words of a reason for a deprecation. -/
def reasonWords (reason : String) : List Word :=
  if reason.isEmpty then []
  else
    [⟨.inline false 0, .punctuator .parenOpen⟩, ⟨.inline false 0, .name "reason"⟩,
      ⟨.inline false 0, .punctuator .colon⟩, ⟨.inline false 1, .string reason⟩,
      ⟨.inline false 0, .punctuator .parenClose⟩]

/-- The words of a deprecation. -/
def deprecationWords : Option String → List Word
  | none => []
  | some reason =>
    ⟨.inline false 1, .punctuator .at⟩ :: ⟨.inline false 0, .name "deprecated"⟩
      :: reasonWords reason

theorem layoutText_deprecationWords (deprecation : Option String) :
    layoutText (deprecationWords deprecation) = (deprecationText deprecation).toList := by
  cases deprecation with
  | none => rfl
  | some reason =>
    rw [deprecationWords, deprecationText, reasonWords]
    split
    · rfl
    · simp only [Form.layoutText_cons, String.toList_append, quoted, String.toList_ofList]
      rfl

theorem laid_deprecationWords {deprecation : Option String} (h : ReasonLegible deprecation) :
    Laid false (deprecationWords deprecation) := by
  have hname : ∀ word ∈ ["deprecated", "reason"], isName word.toList = true := by decide
  cases deprecation with
  | none => trivial
  | some reason =>
    refine ⟨⟨trivial, trivial⟩, Or.inr (Or.inl rfl), ⟨trivial, hname _ (by simp)⟩, Or.inl rfl, ?_⟩
    unfold reasonWords
    split
    · trivial
    · refine ⟨⟨trivial, trivial⟩, Or.inr (Or.inr rfl), ⟨trivial, hname _ (by simp)⟩, Or.inl rfl, ?_⟩
      refine ⟨⟨trivial, trivial⟩, Or.inr (Or.inr rfl), ⟨trivial, h reason rfl⟩, Or.inl rfl, ?_⟩
      exact ⟨⟨trivial, trivial⟩, Or.inr (Or.inr rfl), trivial⟩

/-- The argument of a deprecation. -/
theorem reads_reason (reason : String) (room : Nat) :
    Reads source (readArguments (room + 1)) (reasonWords reason)
      (NotNext (Lexeme.isPunctuator .parenOpen))
      (· = if reason.isEmpty then [] else [("reason", .string reason)]) := by
  unfold reasonWords
  split
  · exact Reads.ifOpened_nil rfl
  · have hitem : Reads source (do
          let name ← Reader.name
          Reader.punctuator .colon
          return (name, ← readLiteral false room))
        [⟨.inline false 0, .name "reason"⟩, ⟨.inline false 0, .punctuator .colon⟩,
          ⟨.inline false 1, .string reason⟩] (fun _ => True) (· = ("reason", .string reason)) := by
      refine Reads.name_bind (Reads.punctuator_bind ?_)
      rw [readLiteral.eq_def, bind_assoc]
      exact Reads.next_bind (Reads.pure rfl)
    refine Reads.ifOpened ((Reads.someUntil_single rfl trivial trivial hitem).mono
      (fun _ _ => trivial) ?_)
    rintro arguments ⟨argument, rfl, rfl⟩
    rfl

/-- **A deprecation is read back.** -/
theorem reads_deprecation (deprecation : Option String) (room : Nat) :
    Reads source (readDirectives (room + 1)) (deprecationWords deprecation) EndsMember
      (fun uses => deprecationOf uses = deprecation) := by
  cases deprecation with
  | none =>
    refine reads_noDirectives.mono (fun _ hnext => hnext.notNext rfl) fun uses huses => ?_
    rw [huses]
    rfl
  | some reason =>
    have hitem : Reads source (do
          Reader.punctuator .at
          let name ← Reader.name
          return (⟨name, ← readArguments (room + 1)⟩ : DirectiveUse))
        (deprecationWords (some reason)) (NotNext (Lexeme.isPunctuator .parenOpen))
        (fun use => use.name = "deprecated" ∧
          use.arguments = if reason.isEmpty then [] else [("reason", .string reason)]) := by
      refine Reads.punctuator_bind (Reads.name_bind ?_)
      exact Reads.bind_last (reads_reason reason room) fun _ h => Reads.pure ⟨rfl, h⟩
    refine (Reads.many_single rfl (notNext_some rfl) hitem).mono
      (fun _ hnext => ⟨hnext.notNext rfl, hnext.notNext rfl⟩) ?_
    rintro uses ⟨use, rfl, hname, harguments⟩
    unfold deprecationOf
    rw [List.find?_cons_of_pos (by rw [hname]; rfl), Option.map_some, harguments]
    split
    · next hempty =>
      rw [String.isEmpty_iff.mp hempty]
      rfl
    · rfl

/-! ### Fields -/

/-- The words of a field. -/
def fieldWords (schema : Schema) (x : Bool × Field) : List Word :=
  ⟨memberGap 2 x.1 x.2.description, .name x.2.name⟩
    :: (parametersWords schema 2 x.2.parameters.toList
      ++ ⟨.inline false 0, .punctuator .colon⟩
        :: (typeWords x.2.type (.inline false 1) ++ deprecationWords x.2.deprecation))

/-- The second field is what the first one is read as when it is written. -/
structure FieldAgain (schema : Schema) (f g : Field) : Prop where
  name : g.name = f.name
  description : g.description = again 2 f.description
  parameters : List.Forall₂ (ParameterAgain schema 4) f.parameters.toList g.parameters.toList
  type : g.type = f.type
  deprecation : g.deprecation = f.deprecation

theorem layoutText_fieldWords (schema : Schema) (x : Bool × Field) :
    layoutText (fieldWords schema x) = '\n' :: (fieldText schema x.1 x.2).toList := by
  have hindent : String.ofList (spaces 2) = "  " := rfl
  rw [fieldWords, Form.layoutText_cons, Form.layoutText_append, layoutText_parametersWords,
    Form.layoutText_cons, Form.layoutText_append, layoutText_typeWords, layoutText_deprecationWords,
    text_memberGap (Nat.succ_ne_zero _), hindent, fieldText]
  simp only [String.toList_append, List.append_assoc, List.cons_append]
  rfl

theorem laid_fieldWords {room : Nat} {x : Bool × Field} (h : FieldFits schema room x.2) :
    Laid false (fieldWords schema x) := by
  refine ⟨⟨legible_memberGap h.legible.description, h.sound.name⟩, Or.inr (Or.inl rfl), ?_⟩
  refine Laid.append (laid_parametersWords h.parameters) ?_
  refine ⟨⟨trivial, trivial⟩, Or.inr (Or.inr rfl), ?_⟩
  exact Laid.append (laid_typeWords h.sound.type (Gap.legible_inline _ _) (Or.inr rfl))
    (laid_deprecationWords h.legible.deprecation)

/-- What is stated is the field again, whatever type it is stated for. -/
structure StatesField (source : Source) (schema : Schema) (f : Field) (s : FieldSyntax) : Prop where
  field : ∀ owner : Owner, owner.source = source → FieldAgain schema f (owner.field s)
  arguments : s.arguments.map InputValueSyntax.name = f.parameters.names

/-- **A field is read back.** -/
theorem reads_field {room : Nat} {x : Bool × Field} (h : FieldFits schema (room + 1) x.2) :
    Reads source (FieldSyntax.read (room + 1)) (fieldWords schema x) EndsMember
      (StatesField source schema x.2) := by
  rw [fieldWords]
  refine Reads.here_bind fun position hposition => ?_
  refine Reads.string?_bind (by nofun) (Reads.name_bind ?_)
  refine Reads.bind (reads_parameters h.parameters) (fun arguments harguments => ?_)
    (fun _ _ => notNext_some rfl)
  refine Reads.punctuator_bind ?_
  refine Reads.bind (reads_type h.sound.depth _) (fun expr hexpr => ?_) (fun next hnext => ?_)
  · refine Reads.bind_last (reads_deprecation _ room) fun uses huses => Reads.pure ?_
    have hnames := names_of_parameterAgain harguments
    rw [List.map_map] at hnames
    refine ⟨fun owner howner => ?_, hnames⟩
    subst howner
    exact ⟨rfl, hposition, again_parameters harguments, hexpr, huses⟩
  · cases x.2.deprecation with
    | none => exact hnext.notNext rfl
    | some reason => exact notNext_some rfl

/-! ### Values of enums and fields of inputs -/

/-- The words of an enum value. -/
def enumValueWords (x : Bool × EnumValue) : List Word :=
  ⟨memberGap 2 x.1 x.2.description, .name x.2.name⟩ :: deprecationWords x.2.deprecation

/-- The second enum value is what the first one is read as when it is written. -/
structure EnumValueAgain (v w : EnumValue) : Prop where
  name : w.name = v.name
  description : w.description = again 2 v.description
  deprecation : w.deprecation = v.deprecation

theorem layoutText_enumValueWords (x : Bool × EnumValue) :
    layoutText (enumValueWords x) = '\n' :: (enumValueText x.1 x.2).toList := by
  have hindent : String.ofList (spaces 2) = "  " := rfl
  rw [enumValueWords, Form.layoutText_cons, layoutText_deprecationWords,
    text_memberGap (Nat.succ_ne_zero _), hindent, enumValueText]
  simp only [String.toList_append, List.append_assoc, List.cons_append]
  rfl

theorem laid_enumValueWords {x : Bool × EnumValue} (h : EnumValueFits x.2) :
    Laid false (enumValueWords x) :=
  ⟨⟨legible_memberGap h.legible.description, h.name⟩, Or.inr (Or.inl rfl),
    (laid_deprecationWords h.legible.deprecation).loosen⟩

/-- What is stated is the enum value again, whatever type it is stated for. -/
def StatesEnumValue (source : Source) (v : EnumValue) (s : EnumValueSyntax) : Prop :=
  ∀ owner : Owner, owner.source = source → EnumValueAgain v (owner.enumValue s)

theorem reads_enumValue {room : Nat} (x : Bool × EnumValue) :
    Reads source (EnumValueSyntax.read (room + 1)) (enumValueWords x) EndsMember
      (StatesEnumValue source x.2) := by
  rw [enumValueWords]
  refine Reads.here_bind fun position hposition => ?_
  refine Reads.string?_bind (by nofun) (Reads.name_bind ?_)
  refine Reads.bind_last (reads_deprecation _ room) fun uses huses => Reads.pure ?_
  intro owner howner
  subst howner
  exact ⟨rfl, hposition, huses⟩

/-- The words of an input field. -/
def inputFieldWords (schema : Schema) (x : Bool × Parameter) : List Word :=
  parameterWords schema (memberGap 2 x.1 x.2.description) x.2

theorem layoutText_inputFieldWords (schema : Schema) (x : Bool × Parameter) :
    layoutText (inputFieldWords schema x) = '\n' :: (inputFieldText schema x.1 x.2).toList := by
  have hindent : String.ofList (spaces 2) = "  " := rfl
  rw [inputFieldWords, layoutText_parameterWords, text_memberGap (Nat.succ_ne_zero _), hindent,
    inputFieldText]
  simp only [String.toList_append, List.append_assoc, List.cons_append]
  rfl

end GraphSchema.Sdl

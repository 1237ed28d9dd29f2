/-
What a message stands for.

A message is put together from a conflict, and a conflict from the group in which the search
stopped.  `messages_witnessed` goes back from what is reported to the two occurrences that it is
about: they are the first of their group that clash, and nothing on the way to the group clashes.

That the pair is the first one is an induction over the group, along the search for it
(`exists_firstClashAt`); that the group is the one at the message's path has been shown of
conflicts before, and dropping repetitions adds none.

What a message says of a pair is stated by what has been written in the document: the names of the
two fields, and the arguments as they have been passed.  Neither the table that the search compares
nor the text that is made of it occurs in the statement.
-/
import GraphSchema.Merge.Message
import GraphSchema.Proofs.Json
import GraphSchema.Proofs.Merge.Alike
import GraphSchema.Proofs.Schema.Texts

namespace GraphSchema.Merge

open Syntax

variable {schema : Schema} {document : QueryDocument}

/-! ### The first pair that clashes

The search for a clash tries each member against those behind it.  What it returns is the first
pair in that order, and that none before it clashes is part of the statement.
-/

/-- The occurrences stand at two places of a group, are not mutually exclusive and differ, and no
pair that comes before them in the order of the first place and then of the second does so. -/
structure FirstClashAt (members : List Occurrence) (i j : Nat) (a b : Occurrence) : Prop where
  ordered : i < j
  first : members[i]? = some a
  second : members[j]? = some b
  together : a.exclusive b = false
  differ : a.Differ b
  least : ∀ i' j' a' b', i' < j' → members[i']? = some a' → members[j']? = some b' →
    a'.exclusive b' = false → a'.Differ b' → i < i' ∨ i = i' ∧ j ≤ j'

/-- The first member, and the first of the others that clashes with it. -/
theorem exists_firstClashAt_zero {c d : Occurrence} {rest : List Occurrence}
    (h : rest.find? c.clashes = some d) : ∃ j, FirstClashAt (c :: rest) 0 j c d := by
  obtain ⟨hclash, k, hk, hd, hbefore⟩ := List.find?_eq_some_iff_getElem.mp h
  obtain ⟨htogether, hdiffer⟩ := Occurrence.clashes_iff.mp hclash
  refine ⟨k + 1, Nat.succ_pos k, rfl, ?_, htogether, hdiffer, ?_⟩
  · rw [List.getElem?_cons_succ, List.getElem?_eq_getElem hk, hd]
  · intro i' j' a' b' hlt hfirst hsecond htogether' hdiffer'
    cases i' with
    | succ i' => exact Or.inl (Nat.succ_pos i')
    | zero =>
      refine Or.inr ⟨rfl, ?_⟩
      obtain rfl := Option.some.inj hfirst
      obtain ⟨m, rfl⟩ : ∃ m, j' = m + 1 := ⟨j' - 1, by omega⟩
      rw [List.getElem?_cons_succ] at hsecond
      obtain ⟨hm, rfl⟩ := List.getElem?_eq_some_iff.mp hsecond
      -- What stands before the place `k` does not clash with the first member.
      by_contra hle
      have hnone := hbefore m (by omega)
      rw [Occurrence.clashes_iff.mpr ⟨htogether', hdiffer'⟩] at hnone
      cases hnone

/-- A member in front that clashes with no other moves the places on. -/
theorem FirstClashAt.cons {members : List Occurrence} {i j : Nat} {a b c : Occurrence}
    (h : FirstClashAt members i j a b) (hnone : ∀ d ∈ members, c.clashes d ≠ true) :
    FirstClashAt (c :: members) (i + 1) (j + 1) a b := by
  refine ⟨Nat.succ_lt_succ h.ordered, h.first, h.second, h.together, h.differ, ?_⟩
  intro i' j' a' b' hlt hfirst hsecond htogether hdiffer
  obtain ⟨m, rfl⟩ : ∃ m, j' = m + 1 := ⟨j' - 1, by omega⟩
  rw [List.getElem?_cons_succ] at hsecond
  cases i' with
  | zero =>
    obtain rfl := Option.some.inj hfirst
    exact absurd (Occurrence.clashes_iff.mpr ⟨htogether, hdiffer⟩)
      (hnone b' (List.mem_of_getElem? hsecond))
  | succ i' =>
    rw [List.getElem?_cons_succ] at hfirst
    have hleast := h.least i' m a' b' (by omega) hfirst hsecond htogether hdiffer
    omega

/-- The pair that is found is the first one. -/
theorem exists_firstClashAt {members : List Occurrence} {a b : Occurrence}
    (h : firstClash? members = some (a, b)) : ∃ i j, FirstClashAt members i j a b := by
  induction members with
  | nil => cases h
  | cons c rest ih =>
    rw [firstClash?] at h
    cases hfind : rest.find? c.clashes with
    | some d =>
      rw [hfind] at h
      obtain ⟨rfl, rfl⟩ := Prod.mk.inj (Option.some.inj h)
      exact ⟨0, exists_firstClashAt_zero hfind⟩
    | none =>
      rw [hfind] at h
      obtain ⟨i, j, hclash⟩ := ih h
      exact ⟨i + 1, j + 1, hclash.cons (List.find?_eq_none.mp hfind)⟩

/-! ### The arguments that are shown

A message quotes the arguments of both occurrences as JSON, in the order of the document.  A name
that is passed twice is shown where it is passed first, with the value that is passed last: that is
the value which the comparison goes by.
-/

/-- What is shown of a value: a string without its quotes, any other value as in a document. -/
inductive Shown : Literal → String → Prop where
  | string (s : String) : Shown (.string s) s
  | other {value : Literal} (h : ∀ s, value ≠ .string s) : Shown value value.text

/-- The members are what is shown of the arguments of the occurrence. -/
structure Occurrence.ShownAs (o : Occurrence) (members : List (String × String)) : Prop where
  names : members.map Prod.fst = (o.arguments.map Prod.fst).eraseDups
  values : ∀ name text, (name, text) ∈ members →
    ∃ value, o.arguments.reverse.lookup name = some value ∧ Shown value text

/-- The text is JSON for the arguments of the occurrence. -/
def Occurrence.ArgumentsText (o : Occurrence) (text : String) : Prop :=
  ∃ members, o.ShownAs members ∧ JsonValue.IsObject members text

theorem shown_getD (value : Literal) : Shown value (value.string?.getD value.text) := by
  cases value with
  | string s => exact .string s
  | _ => exact .other nofun

/-- Looking for an argument is looking up its name. -/
theorem find?_arguments (arguments : List (String × Literal)) (name : String) :
    (arguments.map fun (name, value) => (⟨name, value⟩ : Argument)).find? (fun a => a.name == name)
      = (arguments.lookup name).map fun value => ⟨name, value⟩ := by
  induction arguments with
  | nil => rfl
  | cons first rest ih =>
    obtain ⟨other, value⟩ := first
    rw [List.map_cons, List.find?_cons, List.lookup_cons, ih, Bool.beq_comm (a := name)]
    dsimp only
    cases h : other == name with
    | true => rw [beq_iff_eq.mp h]; rfl
    | false => rfl

/-- The table has the last argument of each name. -/
theorem lookup_reverse_arguments {o : Occurrence} {a : Argument} (h : a ∈ o.argumentTable.toList) :
    o.arguments.reverse.lookup a.name = some a.value := by
  have hfound : o.argumentTable.find? a.name = some a := NameTable.find?_name h
  rw [Occurrence.argumentTable, NameTable.find?_ofList_last, ← List.map_reverse] at hfound
  have hlookup := (find?_arguments o.arguments.reverse a.name).symm.trans hfound
  obtain ⟨value, hvalue, heq⟩ := Option.map_eq_some_iff.mp hlookup
  rw [hvalue, ← heq]

theorem argumentsText_argumentTable (o : Occurrence) :
    o.ArgumentsText (argumentsText o.argumentTable) := by
  refine ⟨o.argumentTable.toList.map fun a => (a.name, a.value.string?.getD a.value.text),
    ⟨?_, fun name text hmem => ?_⟩, ?_⟩
  · rw [List.map_map]
    show o.argumentTable.names = _
    rw [Occurrence.argumentTable, NameTable.names_ofList, List.map_map]
    rfl
  · obtain ⟨a, ha, heq⟩ := List.mem_map.mp hmem
    obtain ⟨rfl, rfl⟩ := Prod.mk.inj heq
    exact ⟨a.value, lookup_reverse_arguments ha, shown_getD a.value⟩
  · have hobject := JsonValue.isObject_compact
      (o.argumentTable.toList.map fun a => (a.name, a.value.string?.getD a.value.text))
    rwa [List.map_map] at hobject

/-! ### What is said of a pair -/

/-- The message is about the two occurrences of a response name: it gives their places, tells by
its code whether they name different fields or pass different arguments, and quotes the response
name and what is different. -/
structure Message.About (m : Message) (key : String) (a b : Occurrence) : Prop where
  locations : m.locations = [a.position, b.position]
  fields : m.code = "fieldConflict" ↔ a.name ≠ b.name
  arguments : m.code = "argumentConflict" ↔ a.name = b.name ∧ ¬ a.SameArguments b
  fieldText : a.name ≠ b.name →
    m.message = "Field '" ++ key ++ "' has a field conflict: " ++ a.name ++ " or " ++ b.name ++ "?"
  argumentText : a.name = b.name → ∃ first second, a.ArgumentsText first ∧ b.ArgumentsText second ∧
    m.message = "Field '" ++ key ++ "' has an argument conflict: " ++ first ++ " or " ++ second ++ "?"

/-- The message about a conflict is about its two occurrences. -/
theorem Conflict.about_toMessage {c : Conflict} (h : c.first.Differ c.second) :
    c.toMessage.About c.key c.first c.second := by
  by_cases hname : c.first.name = c.second.name
  · have hfields : c.isOfFields = false := bne_eq_false_iff_eq.mpr hname
    have hcode : c.toMessage.code = "argumentConflict" := by
      show c.code = _
      rw [code, hfields]
      rfl
    refine ⟨rfl, ?_, ?_, fun hne => absurd hname hne, fun _ => ⟨_, _,
      argumentsText_argumentTable c.first, argumentsText_argumentTable c.second, ?_⟩⟩
    · rw [hcode]
      exact iff_of_false (by decide) (not_not.mpr hname)
    · exact iff_of_true hcode ⟨hname, h.resolve_left (not_not.mpr hname)⟩
    · show c.message = _
      rw [message, hfields]
      rfl
  · have hfields : c.isOfFields = true := bne_iff_ne.mpr hname
    have hcode : c.toMessage.code = "fieldConflict" := by
      show c.code = _
      rw [code, hfields]
      rfl
    refine ⟨rfl, iff_of_true hcode hname, ?_, fun _ => ?_, fun heq => absurd heq hname⟩
    · rw [hcode]
      exact iff_of_false (by decide) fun hsame => hname hsame.1
    · show c.message = _
      rw [message, hfields]
      rfl

/-! ### Messages -/

/-- Dropping repetitions adds nothing. -/
theorem eraseDupsBy_sublist {α : Type} (r : α → α → Bool) (l : List α) :
    (l.eraseDupsBy r).Sublist l := by
  match l with
  | [] => exact .slnil
  | a :: rest =>
    rw [List.eraseDupsBy_cons]
    exact ((eraseDupsBy_sublist r _).trans List.filter_sublist).cons_cons a
termination_by l.length
decreasing_by
  simp only [List.length_cons]
  exact Nat.lt_succ_of_le (List.length_filter_le _ _)

/--
**A message can be traced to what it is about.**

Its path leads, in some operation, through groups of which none conflicts to a group with its last
name.  The message is about the first two members of that group, in the order in which they have
been collected, that are not mutually exclusive and differ in their name or their arguments.
-/
theorem messages_witnessed (schema : Schema) (document : QueryDocument) :
    ∀ m ∈ messages schema document, ∃ operation ∈ document.operations,
      ∃ outer key occurrences i j a b, m.path = outer ++ [key] ∧
        StandAt schema document operation outer occurrences ∧
        FirstClashAt (group occurrences key) i j a b ∧ m.About key a b ∧
        ∀ outer' k, outer' ++ [k] <+: outer → ¬ ConflictAt schema document operation outer' k := by
  intro m hm
  obtain ⟨c, hc, rfl⟩ := List.mem_map.mp hm
  obtain ⟨operation, hoperation, hfound⟩ := List.mem_flatMap.mp ((eraseDupsBy_sublist _ _).subset hc)
  obtain ⟨path, houter, hfree, hfirst⟩ := mem_conflictsAt_iff.mp hfound
  rw [List.nil_append] at houter
  subst houter
  obtain ⟨i, j, hclash⟩ := exists_firstClashAt hfirst
  refine ⟨operation, hoperation, c.outer, c.key, _, i, j, c.first, c.second, rfl,
    standAt_iff.mpr rfl, hclash, Conflict.about_toMessage hclash.differ, fun outer' k hpre => ?_⟩
  rw [conflictAt_iff]
  exact hfree outer' k hpre

/-- A field of an object type, another field of another one under the same name, and the first
field again with an argument. -/
def unitedFields : List Selection :=
  [.inline (some "A") [.field ⟨1, 18⟩ (some "x") "f" [] []],
    .inline (some "B") [.field ⟨1, 36⟩ (some "x") "g" [] []],
    .inline (some "A") [.field ⟨1, 54⟩ (some "x") "f" [("p", .int 1)] []]]

/-- The query whose one field holds the selections. -/
def unitedOperation : Operation := ⟨.query, [.field ⟨1, 3⟩ none "t" [] unitedFields]⟩

/-- The document of that query alone. -/
def unitedDocument : QueryDocument := ⟨[.operation unitedOperation]⟩

/-- The field at the root of the operation. -/
def unitedRoot : Occurrence :=
  ⟨⟨1, 3⟩, "t", "t", [], unitedFields, ⟨some "Query", [], [], some ["Query"]⟩⟩

/-- A member of the group `x` below it, which is confined to one object type. -/
def unitedMember (position : Position) (name type : String) (arguments : List (String × Literal)) :
    Occurrence :=
  ⟨position, "x", name, arguments, [], ⟨some type, [], [some ["Query"]], some [type]⟩⟩

/-- Two object types in a union. -/
def unitedObjects : SourceText :=
  (none, "type A \x7b f(p: Int): Int \x7d type B \x7b g: Int \x7d union T = A | B "
    ++ "type Query \x7b t: T \x7d")

/-- The first two members are mutually exclusive, so that what is reported is the first and the
third. -/
theorem messages_witnessed_united : ∃ schema, buildTexts [unitedObjects] = .ok schema ∧
    ∃ m ∈ messages schema unitedDocument, m.locations = [⟨1, 18⟩, ⟨1, 54⟩] ∧
      ∃ operation ∈ unitedDocument.operations,
        ∃ outer key occurrences i j a b, m.path = outer ++ [key] ∧
          StandAt schema unitedDocument operation outer occurrences ∧
          FirstClashAt (group occurrences key) i j a b ∧ m.About key a b ∧
          ∀ outer' k, outer' ++ [k] <+: outer →
            ¬ ConflictAt schema unitedDocument operation outer' k := by
  obtain ⟨schema, h, hcheck⟩ := exists_buildTexts [unitedObjects] (p := fun schema =>
    schema.root .query == some "Query" && scopeOf schema "Query" == some ["Query"] &&
      scopeOf schema "A" == some ["A"] && scopeOf schema "B" == some ["B"] &&
      scopeOf schema "T" == some ["A", "B"] && unitedRoot.returnType schema == some "T")
    (by decide +kernel)
  simp only [Bool.and_eq_true, beq_iff_eq] at hcheck
  obtain ⟨⟨⟨⟨⟨hroot, hquery⟩, hA⟩, hB⟩, hT⟩, hreturn⟩ := hcheck
  have hfound : rootOccurrences schema unitedDocument unitedOperation = [unitedRoot] := by
    simp [rootOccurrences, unitedOperation, Context.ofOperation, hroot, hquery, unitedRoot]
  have hcontext : unitedRoot.innerContext schema
      = ⟨some "T", [], [some ["Query"]], some ["A", "B"]⟩ := by
    unfold Occurrence.innerContext
    rw [hreturn]
    simp [returnScope, hT, unitedRoot, Context.scopes]
  have hbelow : below schema unitedDocument [unitedRoot] "t" = [unitedMember ⟨1, 18⟩ "f" "A" [],
      unitedMember ⟨1, 36⟩ "g" "B" [], unitedMember ⟨1, 54⟩ "f" "A" [("p", .int 1)]] := by
    show collect schema unitedDocument (unitedRoot.innerContext schema) unitedFields ++ [] = _
    rw [hcontext]
    simp [unitedFields, unitedMember, Context.inline, Context.under, Scope.narrow, hA, hB]
  have hconflicts : operationConflicts schema unitedDocument unitedOperation
      = [⟨["t"], "x", unitedMember ⟨1, 18⟩ "f" "A" [],
          unitedMember ⟨1, 54⟩ "f" "A" [("p", .int 1)]⟩] := by
    show conflictsAt schema unitedDocument [] (rootOccurrences schema unitedDocument unitedOperation) = _
    rw [hfound, conflictsAt_eq]
    show conflictsAt schema unitedDocument ["t"] (below schema unitedDocument [unitedRoot] "t") ++ [] = _
    rw [hbelow, conflictsAt_eq]
    rfl
  have hmem : (⟨"argumentConflict", "Field 'x' has an argument conflict: \x7b\x7d or \x7b\"p\":\"1\"\x7d?",
      ["t", "x"], [⟨1, 18⟩, ⟨1, 54⟩]⟩ : Message) ∈ messages schema unitedDocument := by
    show _ ∈ ((operationConflicts schema unitedDocument unitedOperation ++ []).eraseDupsBy _).map _
    rw [hconflicts]
    exact List.mem_cons_self
  exact ⟨schema, h, _, hmem, rfl, messages_witnessed schema unitedDocument _ hmem⟩

end GraphSchema.Merge

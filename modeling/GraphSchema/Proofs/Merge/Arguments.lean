/-
What fields pass as arguments.

The search asks of two fields whether the one that comes first clashes with the other.  Which of
them comes first makes no difference as long as no key occurs twice in an object, and neither does
the order in which they pass their arguments, if besides no argument is passed twice to a field.
The latter is up to those who write a document.  The former holds of every document that has been
read, since of several entries with one key only the last is kept, and a field that has been read
does not clash with itself, since no float is read as the one that is not the same as itself
(`settled_of_readQueryDocument`).
-/
import Mathlib.Data.List.Permutation
import Mathlib.Data.List.Zip
import GraphSchema.Proofs.Merge.Reporting
import GraphSchema.Proofs.Schema.Same
import GraphSchema.Proofs.Syntax.Sound
import GraphSchema.Syntax.Query.Reader

namespace GraphSchema.Syntax

/-! ### The arguments in a document -/

mutual

/-- What the fields of a selection pass as arguments. -/
def argumentLists : Selection → List (List (String × Literal))
  | .field _ _ _ arguments inner => arguments :: argumentListsIn inner
  | .inline _ inner => argumentListsIn inner
  | .spread _ => []

/-- What the fields of some selections pass as arguments. -/
def argumentListsIn : List Selection → List (List (String × Literal))
  | [] => []
  | selection :: rest => argumentLists selection ++ argumentListsIn rest

end

/-- The selections of a definition. -/
def Executable.selections : Executable → List Selection
  | .operation defined => defined.selections
  | .fragment defined => defined.selections

/-- What the fields of a document pass as arguments. -/
def QueryDocument.argumentLists (document : QueryDocument) : List (List (String × Literal)) :=
  document.definitions.flatMap fun definition => argumentListsIn definition.selections

section ForAll

variable {P : List (String × Literal) → Prop} {inner rest : List Selection}

theorem forall_argumentListsIn_field {position : Position} {responseName : Option String} {name : String}
    {arguments : List (String × Literal)} :
    (∀ passed ∈ argumentListsIn (.field position responseName name arguments inner :: rest), P passed) ↔
      P arguments ∧ (∀ passed ∈ argumentListsIn inner, P passed) ∧ ∀ passed ∈ argumentListsIn rest, P passed := by
  rw [argumentListsIn, argumentLists, List.cons_append, List.forall_mem_cons, List.forall_mem_append]

theorem forall_argumentListsIn_inline {condition : Option String} :
    (∀ passed ∈ argumentListsIn (.inline condition inner :: rest), P passed) ↔
      (∀ passed ∈ argumentListsIn inner, P passed) ∧ ∀ passed ∈ argumentListsIn rest, P passed :=
  List.forall_mem_append

theorem forall_argumentListsIn_spread {name : String} :
    (∀ passed ∈ argumentListsIn (.spread name :: rest), P passed) ↔ ∀ passed ∈ argumentListsIn rest, P passed :=
  Iff.rfl

end ForAll

/-! ### Literals that are read

The lemmas go along the readers of queries.  What matters is that an object is read into entries
with different keys, and that no number is read as the float that differs from itself.
-/

theorem keyed_ofName (name : String) : (Literal.ofName name).Keyed := by
  unfold Literal.ofName
  split
  · exact .boolean true
  · exact .boolean false
  · exact .null
  · exact .enum name

theorem settled_ofName (name : String) : (Literal.ofName name).Settled := by
  refine ⟨keyed_ofName name, ?_⟩
  unfold Literal.ofName
  split
  · rfl
  · rfl
  · rfl
  · exact beq_self_eq_true name

/-- Of several entries with one key one is kept. -/
theorem exists_ofEntries_nodup (entries : List (String × Literal)) :
    ∃ kept, Literal.ofEntries entries = .object kept ∧ (kept.map Prod.fst).Nodup ∧
      ∀ entry ∈ kept, entry ∈ entries := by
  obtain ⟨sorted, heq, hsorted, hmem⟩ := Literal.exists_ofEntries entries
  exact ⟨sorted, heq, List.pairwise_map.mpr (hsorted.imp fun hlt => String.ne_of_lt hlt), hmem⟩

theorem keyed_ofEntries {entries : List (String × Literal)} (h : ∀ entry ∈ entries, entry.2.Keyed) :
    (Literal.ofEntries entries).Keyed := by
  obtain ⟨kept, heq, hkeys, hmem⟩ := exists_ofEntries_nodup entries
  rw [heq]
  exact .object hkeys fun entry hentry => h entry (hmem entry hentry)

theorem settled_ofEntries {entries : List (String × Literal)} (h : ∀ entry ∈ entries, entry.2.Settled) :
    (Literal.ofEntries entries).Settled := by
  obtain ⟨kept, heq, hkeys, hmem⟩ := exists_ofEntries_nodup entries
  rw [heq]
  exact .object hkeys fun entry hentry => h entry (hmem entry hentry)

theorem yields_settled (room : Nat) :
    Yields Token.WellFormed (readLiteral false room) Literal.Settled :=
  yields_literal_of (fun n => ⟨.int n, beq_self_eq_true n⟩)
    (fun x hx => ⟨.float x, Decimal.beq_self_of_not_isNaN hx⟩)
    (fun value => ⟨.string value, beq_self_eq_true value⟩) (fun name _ => settled_ofName name)
    (fun _ name => ⟨.varRef name, beq_self_eq_true name⟩) (fun _ hitems => .list hitems)
    (fun _ hentries => settled_ofEntries fun entry hentry => (hentries entry hentry).2) room

theorem yields_passed (room : Nat) :
    Yields Token.WellFormed (readArguments room) fun arguments => ∀ a ∈ arguments, a.2.Settled :=
  Yields.ifOpened fun less _ => Yields.someUntil <| Yields.bind Yields.name fun _ _ =>
    Yields.bind (Yields.punctuator _) fun _ _ =>
      Yields.bind (yields_settled less) fun _ hvalue => Yields.pure hvalue

/-- What fields pass can be told apart. -/
def SettledIn (selections : List Selection) : Prop :=
  ∀ arguments ∈ argumentListsIn selections, ∀ a ∈ arguments, a.2.Settled

theorem settledIn_nil : SettledIn [] := nofun

theorem settledIn_of_forall {selections : List Selection} (h : ∀ selection ∈ selections, SettledIn [selection]) :
    SettledIn selections := by
  induction selections with
  | nil => exact settledIn_nil
  | cons selection rest ih =>
    rw [List.forall_mem_cons] at h
    have hfirst := h.1
    rw [SettledIn, argumentListsIn, argumentListsIn, List.append_nil] at hfirst
    exact List.forall_mem_append.mpr ⟨hfirst, ih h.2⟩

theorem settledIn_singleton {selection : Selection} :
    SettledIn [selection] ↔ ∀ arguments ∈ argumentLists selection, ∀ a ∈ arguments, a.2.Settled := by
  rw [SettledIn, argumentListsIn, argumentListsIn, List.append_nil]

theorem yields_fieldName (first : String) :
    Yields Token.WellFormed (readFieldName first) fun _ => True :=
  Yields.bind (Yields.accept _) fun _ _ => Yields.ite
    (fun _ => Yields.bind Yields.name fun _ _ => Yields.pure trivial) fun _ => Yields.pure trivial

theorem yields_condition : Yields Token.WellFormed readCondition fun _ => True :=
  Yields.bind (Yields.accept _) fun _ _ => Yields.ite
    (fun _ => Yields.map Yields.name fun _ _ => trivial) fun _ => Yields.pure trivial

section Selections

variable {room : Nat} {inner : Reader (List Selection)}
  (hinner : Yields Token.WellFormed inner SettledIn)
include hinner

theorem yields_readField (position : Position) (first : String) :
    Yields Token.WellFormed (Selection.readField room inner position first)
      fun selection => SettledIn [selection] := by
  refine Yields.bind (yields_fieldName first) fun (responseName, name) _ => ?_
  refine Yields.bind (yields_passed room) fun arguments harguments => ?_
  refine Yields.bind (yields_directives room) fun _ _ => Yields.bind (Yields.accept _) fun _ _ => ?_
  refine Yields.ite (fun _ => Yields.bind hinner fun selections hselections => ?_) fun _ => ?_
  · exact Yields.pure (settledIn_singleton.mpr (List.forall_mem_cons.mpr ⟨harguments, hselections⟩))
  · exact Yields.pure (settledIn_singleton.mpr (List.forall_mem_cons.mpr ⟨harguments, settledIn_nil⟩))

theorem yields_readFragment :
    Yields Token.WellFormed (Selection.readFragment room inner)
      fun selection => SettledIn [selection] := by
  refine Yields.bind (Yields.nextIs _) fun _ _ => Yields.ite (fun _ => ?_) fun _ => ?_
  · exact Yields.bind Yields.name fun _ _ => Yields.bind (yields_directives room) fun _ _ =>
      Yields.pure (settledIn_singleton.mpr nofun)
  · refine Yields.bind yields_condition fun _ _ => Yields.bind (yields_directives room) fun _ _ => ?_
    exact Yields.bind (Yields.punctuator _) fun _ _ => Yields.bind hinner fun _ hselections =>
      Yields.pure (settledIn_singleton.mpr hselections)

theorem yields_readEither :
    Yields Token.WellFormed (Selection.readEither room inner)
      fun selection => SettledIn [selection] := by
  refine Yields.bind Yields.here fun position _ => Yields.bind Yields.next fun lexeme _ => ?_
  split
  · exact yields_readField hinner position _
  · exact yields_readFragment hinner
  · exact Yields.failure

end Selections

theorem yields_selection (room : Nat) :
    Yields Token.WellFormed (Selection.read room) fun selection => SettledIn [selection] := by
  induction room with
  | zero => exact yields_readEither Yields.failure
  | succ room ih => exact yields_readEither ((Yields.someUntil ih).mono fun _ => settledIn_of_forall)

theorem yields_selections (room : Nat) : Yields Token.WellFormed (readSelections room) SettledIn := by
  refine Yields.bind (Yields.punctuator _) fun _ _ => ?_
  cases room with
  | zero => exact Yields.failure
  | succ room => exact (Yields.someUntil (yields_selection room)).mono fun _ => settledIn_of_forall

theorem yields_variable (room : Nat) :
    Yields Token.WellFormed (readVariable room) fun _ => True := by
  refine Yields.bind (Yields.punctuator _) fun _ _ => Yields.bind Yields.name fun _ _ => ?_
  refine Yields.bind (Yields.punctuator _) fun _ _ => Yields.bind (yields_type room) fun _ _ => ?_
  refine Yields.bind (Yields.accept _) fun _ _ => Yields.ite (fun _ => ?_) fun _ => Yields.pure trivial
  exact Yields.bind (yields_literal true room) fun _ _ => Yields.pure trivial

theorem yields_operation (kind : OperationKind) (room : Nat) :
    Yields Token.WellFormed (Operation.read kind room)
      fun operation => SettledIn operation.selections := by
  have hrest : Yields Token.WellFormed (do
      let _ ← Reader.ifOpened .parenOpen (fun room => Reader.someUntil .parenClose (readVariable room)) room
      let _ ← readDirectives room
      return (⟨kind, ← readSelections room⟩ : Operation)) fun operation => SettledIn operation.selections :=
    Yields.bind (Yields.ifOpened fun less _ => Yields.someUntil (yields_variable less)) fun _ _ =>
      Yields.bind (yields_directives room) fun _ _ =>
        Yields.bind (yields_selections room) fun _ hselections => Yields.pure hselections
  exact Yields.bind (Yields.nextIs _) fun _ _ =>
    Yields.ite (fun _ => Yields.bind Yields.name fun _ _ => hrest) fun _ => hrest

theorem yields_fragment (room : Nat) :
    Yields Token.WellFormed (Fragment.read room) fun fragment => SettledIn fragment.selections :=
  Yields.bind Yields.name fun _ _ => Yields.bind (Yields.keyword _) fun _ _ =>
    Yields.bind Yields.name fun _ _ => Yields.bind (yields_directives room) fun _ _ =>
      Yields.bind (yields_selections room) fun _ hselections => Yields.pure hselections

theorem yields_executable (room : Nat) :
    Yields Token.WellFormed (Executable.read room)
      fun definition => SettledIn definition.selections := by
  refine Yields.bind (Yields.nextIs _) fun _ _ => Yields.ite (fun _ => ?_) fun _ => ?_
  · exact Yields.bind (yields_selections room) fun _ hselections => Yields.pure hselections
  · refine Yields.bind Yields.next fun lexeme _ => ?_
    split
    · exact Yields.bind (yields_operation .query room) fun _ h => Yields.pure h
    · exact Yields.bind (yields_operation .mutation room) fun _ h => Yields.pure h
    · exact Yields.bind (yields_operation .subscription room) fun _ h => Yields.pure h
    · exact Yields.bind (yields_fragment room) fun _ h => Yields.pure h
    · exact Yields.failure

/-- **What has been read can be told apart.** -/
theorem settled_of_readQueryDocument {text : String} {document : QueryDocument}
    (h : readQueryDocument text = some document) :
    ∀ arguments ∈ document.argumentLists, ∀ a ∈ arguments, a.2.Settled := by
  have hall : Yields Token.WellFormed (do
      let definitions ← Reader.many (fun _ => true) (Executable.read nestingLimit)
      if definitions.isEmpty then failure else return (⟨definitions⟩ : QueryDocument)) fun document =>
        ∀ definition ∈ document.definitions, SettledIn definition.selections :=
    Yields.bind (Yields.many (yields_executable nestingLimit)) fun _ hdefinitions =>
      Yields.ite (fun _ => Yields.failure) fun _ => Yields.pure hdefinitions
  have hsettled := hall.of_readAll h
  intro arguments harguments
  obtain ⟨definition, hdefinition, hmem⟩ := List.mem_flatMap.mp harguments
  exact hsettled definition hdefinition arguments hmem

end GraphSchema.Syntax

namespace GraphSchema.Merge

open Syntax

/-! ### Clashes have no direction

Whether two fields clash is decided by their names, their arguments and their scopes.  Each of
these comparisons may be turned around.
-/

/-- A field can be told apart by what it passes: it passes no argument twice, and no key occurs
twice in an object. -/
structure Distinct (arguments : List (String × Literal)) : Prop where
  names : (arguments.map Prod.fst).Nodup
  keyed : ∀ a ∈ arguments, a.2.Keyed

theorem Distinct.of_perm {arguments arguments' : List (String × Literal)} (h : Distinct arguments)
    (hperm : arguments.Perm arguments') : Distinct arguments' :=
  ⟨(hperm.map Prod.fst).nodup_iff.mp h.names, fun a ha => h.keyed a (hperm.mem_iff.mpr ha)⟩

theorem Scope.disjoint_comm (s t : Scope) : s.disjoint t = t.disjoint s := by
  cases s with
  | none => cases t <;> rfl
  | some types =>
    cases t with
    | none => rfl
    | some others =>
      refine Bool.eq_iff_iff.mpr ?_
      simp only [disjoint, List.all_eq_true, Bool.not_eq_true', List.contains_eq_mem, decide_eq_false_iff_not]
      exact ⟨fun h type htype hmem => h type hmem htype, fun h type htype hmem => h type hmem htype⟩

namespace Occurrence

variable {a b : Occurrence}

theorem exclusive_comm (a b : Occurrence) : a.exclusive b = b.exclusive a := by
  unfold exclusive
  rw [← List.zip_swap a.context.scopes, List.any_map]
  exact congrArg _ (funext fun (s, t) => Scope.disjoint_comm s t)

/-- What is found has been passed. -/
theorem value_of_find? {P : Literal → Prop} (h : ∀ passed ∈ a.arguments, P passed.2) {name : String}
    {argument : Argument} (hfound : a.argumentTable.find? name = some argument) : P argument.value := by
  have hmem := NameTable.mem_of_mem_ofList (NameTable.mem_of_find?_eq_some hfound)
  obtain ⟨passed, hpassed, rfl⟩ := List.mem_map.mp hmem
  exact h passed hpassed

theorem SameArguments.symm (ha : ∀ passed ∈ a.arguments, passed.2.Keyed)
    (hb : ∀ passed ∈ b.arguments, passed.2.Keyed) (h : a.SameArguments b) : b.SameArguments a := by
  intro name
  have hname := h name
  cases hfirst : a.argumentTable.find? name with
  | none =>
    cases hsecond : b.argumentTable.find? name with
    | none => rfl
    | some argument' => rw [hfirst, hsecond] at hname; cases hname
  | some argument =>
    cases hsecond : b.argumentTable.find? name with
    | none => rw [hfirst, hsecond] at hname; cases hname
    | some argument' =>
      rw [hfirst, hsecond] at hname
      have hboth : (argument.name == argument'.name && argument.value.same argument'.value) = true := hname
      rw [Bool.and_eq_true, beq_iff_eq] at hboth
      show (argument'.name == argument.name && argument'.value.same argument.value) = true
      rw [Bool.and_eq_true, beq_iff_eq]
      exact ⟨hboth.1.symm,
        Literal.same_symm (value_of_find? ha hfirst) (value_of_find? hb hsecond) hboth.2⟩

/-- **Which of two fields comes first makes no difference.** -/
theorem clashes_symm (ha : ∀ passed ∈ a.arguments, passed.2.Keyed)
    (hb : ∀ passed ∈ b.arguments, passed.2.Keyed) (h : a.clashes b = true) : b.clashes a = true := by
  obtain ⟨hexclusive, hdiffer⟩ := clashes_iff.mp h
  refine clashes_iff.mpr ⟨(exclusive_comm b a).trans hexclusive, ?_⟩
  exact hdiffer.imp Ne.symm fun hother hsame => hother (hsame.symm hb ha)

/-- A field that passes the same as itself does not clash with itself. -/
theorem clashes_self (h : ∀ passed ∈ a.arguments, (passed.2 == passed.2) = true) : a.clashes a = false := by
  refine Bool.eq_false_iff.mpr fun hclash => ?_
  obtain ⟨-, hname | harguments⟩ := clashes_iff.mp hclash
  · exact hname rfl
  · refine harguments fun name => ?_
    cases hfound : a.argumentTable.find? name with
    | none => rfl
    | some argument =>
      show (argument.name == argument.name && argument.value == argument.value) = true
      rw [beq_self_eq_true, Bool.true_and]
      exact value_of_find? (P := fun value => (value == value) = true) h hfound

/-- The order in which arguments are passed makes no difference. -/
theorem find?_argumentTable_of_perm {a' : Occurrence} (h : Distinct a.arguments)
    (hperm : a.arguments.Perm a'.arguments) (name : String) :
    a'.argumentTable.find? name = a.argumentTable.find? name := by
  let toArgument (argument : String × Literal) : Argument := ⟨argument.1, argument.2⟩
  have hnames : (a.arguments.map toArgument).map Named.name = a.arguments.map Prod.fst := List.map_map
  have htables := NameTable.foldl_insert_perm (t := NameTable.empty) (.refl _) (hperm.map toArgument)
    (hnames ▸ h.names)
  exact (NameTable.perm_iff_find?.mp htables name).symm

end Occurrence

/-- **Whether a group conflicts does not depend on its order.** -/
theorem Conflicting.of_perm {members members' : List Occurrence}
    (hdistinct : ∀ o ∈ members, Distinct o.arguments) (hperm : members.Perm members')
    (h : Conflicting members) : Conflicting members' := by
  obtain ⟨a, b, hsub, hclash⟩ := h
  have ha := (hdistinct a (hsub.subset List.mem_cons_self)).keyed
  have hb := (hdistinct b (hsub.subset (List.mem_cons_of_mem _ List.mem_cons_self))).keyed
  obtain ⟨pair, hpair, hsub'⟩ := hsub.subperm.trans hperm.subperm
  obtain rfl | rfl := List.perm_pair.mp hpair
  · exact ⟨a, b, hsub', hclash⟩
  · exact ⟨b, a, hsub', Occurrence.clashes_iff.mp
      (Occurrence.clashes_symm ha hb (Occurrence.clashes_iff.mpr hclash))⟩

end GraphSchema.Merge

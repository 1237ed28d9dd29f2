/-
Searches that run alike.

The search for conflicts looks at few things of an occurrence: the field that it asks for, the
name and the place of it, and the scopes that it is confined to.  Two searches take the same steps
and come to the same messages if from matching occurrences on they find the same response names,
the same first clash or none, and matching occurrences below a group without one
(`messages_eq_of_inStep`).  So they do if the occurrences of one document match those of another one
by one, and those below them again (`messages_eq_of_alike`).  What else an occurrence holds, the
fragments it was reached through and the selections it has, need not be the same.
-/
import GraphSchema.Merge.Message
import GraphSchema.Proofs.Merge.Reporting
import GraphSchema.Proofs.Related

namespace GraphSchema.Merge

open Syntax

/-- The search cannot tell the two occurrences apart. -/
structure Occurrence.Alike (o o' : Occurrence) : Prop where
  position : o'.position = o.position
  key : o'.key = o.key
  name : o'.name = o.name
  arguments : o'.arguments = o.arguments
  scopes : o'.context.scopes = o.context.scopes

variable {schema : Schema} {document document' : QueryDocument}
  {R : Occurrence → Occurrence → Prop}

/-! ### Groups -/

theorem Occurrence.Alike.clashes_eq {a a' b b' : Occurrence} (ha : a.Alike a') (hb : b.Alike b') :
    a'.clashes b' = a.clashes b := by
  have hexclusive : a'.exclusive b' = a.exclusive b := by
    unfold exclusive
    rw [ha.scopes, hb.scopes]
  unfold clashes argumentTable
  rw [hexclusive, ha.name, hb.name, ha.arguments, hb.arguments]

theorem Occurrence.Alike.argumentTable_eq {o o' : Occurrence} (h : o.Alike o') :
    o'.argumentTable = o.argumentTable := by
  unfold argumentTable
  rw [h.arguments]

/-- The two pairs cannot be told apart. -/
def PairAlike (p q : Occurrence × Occurrence) : Prop := p.1.Alike q.1 ∧ p.2.Alike q.2

theorem rel_firstClash?_cons {a a' : Occurrence} {rest rest' : List Occurrence} (ha : a.Alike a')
    (hfind : Option.Rel Occurrence.Alike (rest.find? a.clashes) (rest'.find? a'.clashes))
    (hrest : rest.find? a.clashes = none → Option.Rel PairAlike (firstClash? rest) (firstClash? rest')) :
    Option.Rel PairAlike (firstClash? (a :: rest)) (firstClash? (a' :: rest')) := by
  rw [firstClash?, firstClash?]
  generalize rest.find? a.clashes = found at hfind hrest
  generalize rest'.find? a'.clashes = found' at hfind
  cases hfind with
  | none => exact hrest rfl
  | some hb => exact .some ⟨ha, hb⟩

/-- The first pair that clashes is in the same place. -/
theorem rel_firstClash? {members members' : List Occurrence}
    (h : List.Forall₂ Occurrence.Alike members members') :
    Option.Rel PairAlike (firstClash? members) (firstClash? members') := by
  induction h with
  | nil => exact .none
  | @cons a a' rest rest' ha hrest ih =>
    have hfind : Option.Rel Occurrence.Alike (rest.find? a.clashes) (rest'.find? a'.clashes) :=
      rel_find?_of_forall₂ hrest fun b b' hb => ha.clashes_eq hb
    exact rel_firstClash?_cons ha hfind fun _ => ih

/-! ### The search

The search is brought into a form in which a step is spelt out once, and then two searches are run
side by side by the same induction.
-/

/-- One step of the search, for all response names. -/
theorem conflictsAt_eq (schema : Schema) (document : QueryDocument) (path : List String)
    (occurrences : List Occurrence) :
    conflictsAt schema document path occurrences
      = (keys occurrences).flatMap fun key =>
          match firstClash? (group occurrences key) with
          | some (a, b) => [⟨path, key, a, b⟩]
          | none =>
            conflictsAt schema document (path ++ [key]) (below schema document occurrences key) := by
  conv_rhs => rw [← List.attach_map_subtype_val (keys occurrences), List.flatMap_map]
  rw [conflictsAt]
  rfl

/-- The two conflicts stand at the same path, and are of occurrences that match. -/
structure Conflict.Match (R : Occurrence → Occurrence → Prop) (c c' : Conflict) : Prop where
  outer : c'.outer = c.outer
  key : c'.key = c.key
  first : R c.first c'.first
  second : R c.second c'.second

/-- From occurrences that are related by `Q` on, two searches take the same steps. -/
structure InStep (schema : Schema) (document document' : QueryDocument)
    (Q : List Occurrence → List Occurrence → Prop) : Prop where
  keys : ∀ occurrences occurrences', Q occurrences occurrences' → keys occurrences' = keys occurrences
  firstClash : ∀ occurrences occurrences' key, Q occurrences occurrences' →
    Option.Rel PairAlike (firstClash? (group occurrences key)) (firstClash? (group occurrences' key))
  below : ∀ occurrences occurrences' key, Q occurrences occurrences' →
    Q (below schema document occurrences key) (below schema document' occurrences' key)

variable {Q : List Occurrence → List Occurrence → Prop}

/-- **The two searches find the same.** -/
theorem InStep.forall₂_conflictsAt (hQ : InStep schema document document' Q) {path : List String}
    {occurrences occurrences' : List Occurrence} (h : Q occurrences occurrences') :
    List.Forall₂ (Conflict.Match Occurrence.Alike) (conflictsAt schema document path occurrences)
      (conflictsAt schema document' path occurrences') := by
  induction path, occurrences using conflictsAt.induct schema document generalizing occurrences' with
  | case1 path occurrences ih =>
    rw [conflictsAt_eq, conflictsAt_eq, hQ.keys _ _ h]
    -- The names are the same, and each comes to conflicts that match.
    refine List.rel_flatMap (R := fun k k' => k ∈ Merge.keys occurrences ∧ k' = k)
      (List.forall₂_same.mpr fun k hk => ⟨hk, rfl⟩) ?_
    rintro _ key ⟨hkey, rfl⟩
    have hclash := hQ.firstClash _ _ key h
    have hbelow := ih key hkey (hQ.below _ _ key h)
    dsimp only
    generalize firstClash? (group occurrences key) = found at hclash
    generalize firstClash? (group occurrences' key) = found' at hclash
    cases hclash with
    | none => exact hbelow
    | some hpair => exact .cons ⟨rfl, rfl, hpair.1, hpair.2⟩ .nil

/-! ### Messages -/

/-- What is dropped as a repetition has the same places in lists that match. -/
theorem forall₂_eraseDupsBy {α β : Type} {S : α → β → Prop} {p : α → α → Bool} {q : β → β → Bool}
    (hpq : ∀ a b, S a b → ∀ a' b', S a' b' → q b b' = p a a') {as : List α} {bs : List β}
    (h : List.Forall₂ S as bs) : List.Forall₂ S (as.eraseDupsBy p) (bs.eraseDupsBy q) := by
  match h with
  | .nil => exact .nil
  | @List.Forall₂.cons _ _ _ a b as bs hab hrest =>
    rw [List.eraseDupsBy_cons, List.eraseDupsBy_cons]
    refine .cons hab (forall₂_eraseDupsBy hpq (List.rel_filter (fun a' b' hab' => ?_) hrest))
    simp only [hpq a' b' hab' a b hab]
termination_by as.length
decreasing_by
  simp only [List.length_cons]
  exact Nat.lt_succ_of_le (List.length_filter_le _ _)

theorem Conflict.Match.toMessage_eq {c c' : Conflict} (h : c.Match Occurrence.Alike c') :
    c'.toMessage = c.toMessage := by
  have hfields : c'.isOfFields = c.isOfFields := by
    unfold isOfFields
    rw [h.first.name, h.second.name]
  unfold toMessage code message path locations
  rw [hfields, h.outer, h.key, h.first.name, h.second.name, h.first.argumentTable_eq,
    h.second.argumentTable_eq, h.first.position, h.second.position]

/-- **Documents whose searches take the same steps give the same messages.** -/
theorem messages_eq_of_inStep (hQ : InStep schema document document' Q)
    (hroots : List.Forall₂ (fun operation operation' =>
      Q (rootOccurrences schema document operation) (rootOccurrences schema document' operation'))
      document.operations document'.operations) :
    messages schema document' = messages schema document := by
  have hfound : List.Forall₂ (Conflict.Match Occurrence.Alike) (conflicts schema document)
      (conflicts schema document') := by
    refine forall₂_eraseDupsBy (fun c c' h d d' h' => ?_)
      (List.rel_flatMap hroots fun operation operation' h => hQ.forall₂_conflictsAt h)
    rw [h.outer, h.key, h'.outer, h'.key]
  exact map_eq_of_forall₂ hfound fun c _ c' h => h.toMessage_eq

/-! ### Occurrences that match one by one -/

/-- Related occurrences are alike, and so is what stands below them. -/
structure Alike (schema : Schema) (document document' : QueryDocument)
    (R : Occurrence → Occurrence → Prop) : Prop where
  alike : ∀ o o', R o o' → o.Alike o'
  children : ∀ o o', R o o' →
    List.Forall₂ R (o.children schema document) (o'.children schema document')

namespace Alike

variable {occurrences occurrences' : List Occurrence}

theorem keys_eq (hR : Alike schema document document' R)
    (h : List.Forall₂ R occurrences occurrences') : keys occurrences' = keys occurrences := by
  unfold keys
  rw [map_eq_of_forall₂ h fun o _ o' hab => (hR.alike o o' hab).key]

theorem forall₂_group (hR : Alike schema document document' R)
    (h : List.Forall₂ R occurrences occurrences') (key : String) :
    List.Forall₂ R (group occurrences key) (group occurrences' key) := by
  refine List.rel_filter (fun o o' hab => ?_) h
  simp only [(hR.alike o o' hab).key]

theorem forall₂_below (hR : Alike schema document document' R)
    (h : List.Forall₂ R occurrences occurrences') (key : String) :
    List.Forall₂ R (below schema document occurrences key)
      (below schema document' occurrences' key) :=
  List.rel_flatMap (hR.forall₂_group h key) fun o o' hab => hR.children o o' hab

theorem inStep (hR : Alike schema document document' R) :
    InStep schema document document' (List.Forall₂ R) where
  keys _ _ h := hR.keys_eq h
  firstClash _ _ key h := rel_firstClash? ((hR.forall₂_group h key).imp hR.alike)
  below _ _ key h := hR.forall₂_below h key

end Alike

/-- **Documents with operations that match give the same messages.** -/
theorem messages_eq_of_alike (hR : Alike schema document document' R)
    (hroots : List.Forall₂ (fun operation operation' => List.Forall₂ R
      (rootOccurrences schema document operation) (rootOccurrences schema document' operation'))
      document.operations document'.operations) :
    messages schema document' = messages schema document :=
  messages_eq_of_inStep hR.inStep hroots

end GraphSchema.Merge

/-
Schemas that are built from texts.

Texts are loaded one after the other into a draft that is empty but for the scalar types, and the
draft is built.

Results about schemas speak of `buildTexts`, which is a function of the texts alone.  From a
schema that it gives, `exists_loaded_of_buildTexts` leads back to the draft and the items behind
it.
-/
import GraphSchema.Proofs.Schema.Sound

namespace GraphSchema

/-- Loads sources one after the other, and builds the schema. -/
def buildTexts (texts : List SourceText) : Except BuildError Schema := Draft.empty.loadAll texts >>= Draft.build

/-- A schema is built from the items that are read. -/
theorem buildTexts_eq_ok_iff {texts : List SourceText} {stated : List StatedItem} (hread : ReadAs 0 texts stated)
    {schema : Schema} :
    buildTexts texts = .ok schema ↔ ∃ draft, Draft.empty.Loaded stated draft ∧ draft.build = .ok schema := by
  have hnumber : ∀ (draft : Draft) (n : UInt16), draft.build = .ok schema ↔
      ({ draft with unnamed := n } : Draft).build = .ok schema := by
    intro draft n
    refine Draft.build_congr (fun types => ?_) rfl fun operation => ?_
    · unfold Draft.ExtendsTo
      rw [Draft.types_withBuiltins, Draft.types_withBuiltins]
    · cases operation <;> rfl
  unfold buildTexts
  rw [bind_eq_ok]
  simp only [Draft.loadAll_eq_ok_iff]
  constructor
  · rintro ⟨draft, ⟨-, other, hother, hloaded⟩, hbuild⟩
    obtain rfl := hread.unique hother
    exact ⟨_, hloaded.renumber 0, (hnumber draft 0).mp hbuild⟩
  · rintro ⟨draft, hloaded, hbuild⟩
    let n := texts.foldl (fun n text => text.number n) 0
    exact ⟨_, ⟨rfl, stated, hread, hloaded.renumber n⟩, (hnumber draft n).mp hbuild⟩

/-- What is built has been read and loaded. -/
theorem exists_loaded_of_buildTexts {texts : List SourceText} {schema : Schema} (h : buildTexts texts = .ok schema) :
    ∃ stated draft, ReadAs 0 texts stated ∧ Draft.empty.Loaded stated draft ∧ draft.build = .ok schema := by
  obtain ⟨_, hload, -⟩ := bind_eq_ok.mp h
  obtain ⟨-, stated, hread, -⟩ := Draft.loadAll_eq_ok_iff.mp hload
  obtain ⟨draft, hloaded, hbuild⟩ := (buildTexts_eq_ok_iff hread).mp h
  exact ⟨stated, draft, hread, hloaded, hbuild⟩

/-- What can be checked of the schema that is built holds of it. -/
theorem exists_buildTexts (texts : List SourceText) {p : Schema → Bool}
    (h : (buildTexts texts).toOption.any p = true) : ∃ schema, buildTexts texts = .ok schema ∧ p schema = true := by
  cases hbuild : buildTexts texts with
  | error e =>
    rw [hbuild] at h
    cases h
  | ok schema =>
    rw [hbuild] at h
    exact ⟨schema, rfl, h⟩

/-- What can be checked of the items of a text holds of what it is read as. -/
theorem exists_readAs (text : SourceText) {p : List StatedItem → Bool}
    (h : (Syntax.readSchemaDocument text.2).any (fun items =>
      p (items.map (Prod.mk (text.toSource 0)))) = true) :
    ∃ stated, ReadAs 0 [text] stated ∧ p stated = true := by
  obtain ⟨items, hread, hp⟩ := (Option.any_eq_true _ _).mp h
  refine ⟨_, .cons hread (.nil _), ?_⟩
  rwa [List.append_nil]

/-- What is built is sound. -/
theorem sound_of_buildTexts {texts : List SourceText} {schema : Schema} (h : buildTexts texts = .ok schema) :
    schema.Sound := by
  obtain ⟨draft, hload, hbuild⟩ := bind_eq_ok.mp h
  exact (Draft.sound_of_loadAll hload).build hbuild

end GraphSchema
